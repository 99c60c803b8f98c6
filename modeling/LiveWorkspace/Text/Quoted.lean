/-
  LiveWorkspace/Text/Quoted.lean
  ==============================
  **Text in quotes.**

  A text is quoted so that its ends and every character in it can be seen: quotes and
  backslashes get a backslash, a few controls have letters, and whatever would not show
  is written by its code point.
-/
import LiveWorkspace.Text.Invisible

namespace LiveWorkspace.Text.Quoted

/-- The letter for a control that has one. -/
def letter? : Char → Option Char
  | '\x00' => some '0'
  | '\t' => some 't'
  | '\n' => some 'n'
  | '\r' => some 'r'
  | '"' => some '"'
  | '\\' => some '\\'
  | _ => none

/-- A character as it is written between quotes. -/
def writeChar (c : Char) : List Char :=
  match letter? c with
  | some l => ['\\', l]
  | none =>
    if isInvisible c then ['\\', 'u', '\x7b'] ++ Nat.toDigits 16 c.toNat ++ ['\x7d'] else [c]

/-- A text in quotes. -/
def write (s : String) : String := String.ofList ('"' :: s.toList.flatMap writeChar ++ ['"'])

end LiveWorkspace.Text.Quoted
