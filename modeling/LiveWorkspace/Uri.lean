/-
  LiveWorkspace/Uri.lean
  ======================
  **URIs and the paths they name.**

  A `Uri` is a text that the generic grammar derives, and it is kept as it was given.
  A path becomes a `file` URI by escaping every octet that is a control, not ASCII,
  or in a fixed set of delimiters (`Path.toUri?`); a `file` URI becomes a path by
  undoing every escape behind its scheme and slashes (`Uri.toPath?`).
-/
import LiveWorkspace.Text.Utf8
import LiveWorkspace.Path
import LiveWorkspace.Uri.Grammar

namespace LiveWorkspace

/-- A URI, with the text it was given as. -/
structure Uri where
  text : String
  derived : Uri.derives text = true
deriving DecidableEq

namespace Uri

/-- The URI of a text, if it is one. -/
def parse? (text : String) : Option Uri :=
  if h : derives text = true then some ⟨text, h⟩ else none

theorem text_of_parse? {text : String} {u : Uri} (h : parse? text = some u) : u.text = text := by
  unfold parse? at h
  split at h
  · simp only [Option.some.injEq] at h; rw [← h]
  · simp at h

/-! ### Escapes -/

/-- The ASCII characters that the path of a `file` URI escapes, controls apart. -/
def escapedDelims : List Char :=
  [' ', '"', '#', '%', '<', '>', '?', '[', ']', '^', '\x60', '\x7b', '|', '\x7d']

/-- Whether an octet of a path is written as an escape. -/
def needsEscape (b : UInt8) : Bool :=
  b < 0x20 || 0x7F ≤ b || escapedDelims.contains (Char.ofNat b.toNat)

/-- An octet of a path as it is written in a URI, escapes in capital letters. -/
def escapeByte (b : UInt8) : List Char :=
  if needsEscape b then ['%', Text.hexDigit (b.toNat / 16), Text.hexDigit (b.toNat % 16)]
  else [Char.ofNat b.toNat]

/-- The octets of a text after its escapes are undone. A percent sign without two
    hexadecimal digits behind it stands for itself. -/
def unescape : List Char → Text.Bytes
  | [] => []
  | '%' :: a :: b :: rest =>
    match Text.hexValue? a, Text.hexValue? b with
    | some high, some low => UInt8.ofNat (16 * high + low) :: unescape rest
    | _, _ => 0x25 :: unescape (a :: b :: rest)
  | c :: rest => String.utf8EncodeChar c ++ unescape rest

/-- The text that the URI of a path begins with. -/
def filePrefix : List Char := "file://".toList

/-- The path that a `file` URI names: all behind the scheme and two slashes, escapes
    undone, when that is text. Schemes are matched in small letters only. -/
def toPath? (u : Uri) : Option Path :=
  let cs := u.text.toList
  if filePrefix.isPrefixOf cs then
    (Text.Utf8.decode? (unescape (cs.drop filePrefix.length))).map Path.mk
  else none

end Uri

/-- The `file` URI of a path, when the escaped path makes one. -/
def Path.toUri? (p : Path) : Option Uri :=
  Uri.parse? (String.ofList (Uri.filePrefix ++ (Text.Utf8.encode p.spelling).flatMap Uri.escapeByte))

end LiveWorkspace
