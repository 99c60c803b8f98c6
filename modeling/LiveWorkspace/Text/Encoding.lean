/-
  LiveWorkspace/Text/Encoding.lean
  ================================
  **The units in which an editor counts columns.**

  An editor addresses a place in a document by a line and a column, and the
  column is a number of *code units*: octets of UTF-8, words of UTF-16, or whole
  characters.  Which of the three is meant is agreed when a session starts
  (`Encoding.negotiate`); from then on an `Encoding` is only a measure
  `Encoding.units` on characters.  Text itself is never stored in these units.
-/

namespace LiveWorkspace.Text

/-! ### Encodings and their measure -/

/-- A column unit: octets, UTF-16 words, or characters. -/
inductive Encoding where
  | utf8
  | utf16
  | utf32
deriving DecidableEq, Repr, Inhabited

/-- The name an editor uses for the encoding. -/
def Encoding.name : Encoding → String
  | .utf8 => "utf-8"
  | .utf16 => "utf-16"
  | .utf32 => "utf-32"

/-- The encoding of a name; names are matched exactly. -/
def Encoding.ofName? (name : String) : Option Encoding :=
  if name = "utf-8" then some .utf8
  else if name = "utf-16" then some .utf16
  else if name = "utf-32" then some .utf32
  else none

theorem Encoding.ofName?_name (e : Encoding) : Encoding.ofName? e.name = some e := by
  cases e <;> decide

/-- The number of units that a character takes. The characters outside the basic
    plane, which are those of four octets, are a pair of words in UTF-16. -/
def Encoding.units : Encoding → Char → Nat
  | .utf8, c => c.utf8Size
  | .utf16, c => if c.utf8Size = 4 then 2 else 1
  | .utf32, _ => 1

/-- A character is never wider than its octets. -/
theorem Encoding.units_le_utf8Size (e : Encoding) (c : Char) : e.units c ≤ c.utf8Size := by
  have pos := c.utf8Size_pos
  cases e with
  | utf8 => exact Nat.le_refl _
  | utf16 => simp only [units]; split <;> omega
  | utf32 => exact pos

/-- Every character has a positive width. -/
theorem Encoding.units_pos (e : Encoding) (c : Char) : 0 < e.units c := by
  cases e with
  | utf8 => exact c.utf8Size_pos
  | utf16 => simp only [units]; split <;> omega
  | utf32 => exact Nat.one_pos

/-! ### Agreement on an encoding -/

/-- The encoding a session uses, given the names the editor offers: octets before
    characters before words, and words when the editor offers nothing usable. -/
def Encoding.negotiate (offered : Option (List String)) : Encoding :=
  let known := (offered.getD []).filterMap Encoding.ofName?
  (([.utf8, .utf32, .utf16] : List Encoding).find? (known.contains ·)).getD .utf16

end LiveWorkspace.Text
