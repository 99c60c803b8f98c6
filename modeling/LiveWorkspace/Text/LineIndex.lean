/-
  LiveWorkspace/Text/LineIndex.lean
  =================================
  **Lines, columns and byte offsets.**

  A `LineCol` is a place as an editor sends it; a byte offset is the same place
  in the stored text.  `LineIndex` remembers where the lines of a text start, so
  that the way between the two only has to walk the characters of one line.

  Both directions are total.  A column behind the end of its line stops at the
  line's end, a column inside a wide character moves behind it, and the index may
  even stem from an older version of the text: every offset that comes out is then
  still the start of a character or the end of the text.
-/
import LiveWorkspace.Text.Encoding
import LiveWorkspace.Text.Offset

namespace LiveWorkspace.Text

/-! ### Places in a text -/

/-- A line and a column, both counted from zero; the column in the units of some
    `Encoding`. -/
structure LineCol where
  line : UInt32
  column : UInt32
deriving DecidableEq, Repr, Inhabited

/-- Places are ordered by line, then by column. -/
def LineCol.compare (p q : LineCol) : Ordering :=
  (Ord.compare p.line q.line).then (Ord.compare p.column q.column)

instance : Ord LineCol := ⟨LineCol.compare⟩

/-- The place at a line and a column. A line number that no word can hold is cut
    to the greatest one. -/
def LineCol.ofNat (line column : Nat) : LineCol :=
  ⟨UInt32.ofNat (min line (UInt32.size - 1)), UInt32.ofNat column⟩

/-- Why a name or a place is refused. -/
inductive PositionError where
  | lineOutOfRange (line : UInt32) (lineCount : Nat)
  | unknownEncoding (name : String)
deriving DecidableEq, Repr

def PositionError.message : PositionError → String
  | .lineOutOfRange line lineCount =>
    s!"line {line.toNat} is out of range for a document with {lineCount} lines"
  | .unknownEncoding name => s!"unknown position encoding '{name}'"

/-- The encoding of a name that an editor sent. -/
def Encoding.ofName (name : String) : Except PositionError Encoding :=
  match Encoding.ofName? name with
  | some e => .ok e
  | none => .error (.unknownEncoding name)

/-! ### Columns within a line -/

/-- The octets of the shortest run of leading characters that is at least
    `column` units wide, or of the whole line when it is narrower. -/
def bytesToColumn (e : Encoding) : (column : Nat) → (line : List Char) → Nat
  | 0, _ => 0
  | _ + 1, [] => 0
  | n + 1, c :: rest => c.utf8Size + bytesToColumn e (n + 1 - e.units c) rest

/-- The width of the leading characters that start before byte offset `stop`, where
    the first character starts at `pos`. -/
def widthBefore (e : Encoding) (stop : Nat) : (pos : Nat) → List Char → Nat
  | _, [] => 0
  | pos, c :: rest =>
    if pos < stop then e.units c + widthBefore e stop (pos + c.utf8Size) rest else 0

/-! ### The line index -/

/-- The byte offsets behind each line feed of a text whose first octet is at `pos`. -/
def lineStartsFrom (pos : Nat) : List Char → List Nat
  | [] => []
  | c :: rest =>
    let next := pos + c.utf8Size
    if c = '\n' then next :: lineStartsFrom next rest else lineStartsFrom next rest

/-- Where the lines of a text start, and how long the text is. -/
structure LineIndex where
  lineStarts : List Nat
  length : Nat
deriving DecidableEq, Repr

/-- The index of a text: its first line starts at zero, each further one behind a
    line feed. -/
def LineIndex.ofText (text : String) : LineIndex :=
  ⟨0 :: lineStartsFrom 0 text.toList, byteLength text.toList⟩

def LineIndex.lineCount (ix : LineIndex) : Nat := ix.lineStarts.length

/-- The byte offset at which a line's own characters end, its line feed excluded. -/
def LineIndex.lineEnd (ix : LineIndex) (line : Nat) : Nat :=
  match ix.lineStarts[line + 1]? with
  | some next => next - 1
  | none => ix.length

/-- The byte offset of a place. The line just behind the last one is the end of
    the text, and any line is the start of an empty text. -/
def LineIndex.offset (ix : LineIndex) (p : LineCol) (text : String) (e : Encoding) :
    Except PositionError Nat :=
  let cs := text.toList
  if cs.isEmpty then .ok 0
  else if ix.lineCount < p.line.toNat then .error (.lineOutOfRange p.line ix.lineCount)
  else match ix.lineStarts[p.line.toNat]? with
    | none => .ok (byteLength cs)
    | some start =>
      match sliceBytes? start (ix.lineEnd p.line.toNat) cs with
      | none => .ok (byteLength cs)
      | some line => .ok (start + bytesToColumn e p.column.toNat line)

/-- The byte offset of a place, or the end of the text when there is no such line. -/
def LineIndex.offsetClamped (ix : LineIndex) (p : LineCol) (text : String) (e : Encoding) : Nat :=
  match ix.offset p text e with
  | .ok n => n
  | .error _ => byteLength text.toList

/-- The number of the last line that starts at or before a byte offset. -/
def LineIndex.lineAt (ix : LineIndex) (offset : Nat) : Nat :=
  ix.lineStarts.countP (· ≤ offset) - 1

/-- The place of a byte offset. Offsets behind the text count as its end. -/
def LineIndex.position (ix : LineIndex) (offset : Nat) (text : String) (e : Encoding) : LineCol :=
  let cs := text.toList
  if cs.isEmpty ∨ offset = 0 then LineCol.ofNat 0 0
  else
    let offset := min offset (byteLength cs)
    let line := ix.lineAt offset
    let start := ix.lineStarts.getD line 0
    LineCol.ofNat line (widthBefore e offset start ((dropBytes? start cs).getD []))

/-- The place where a text ends. -/
def LineIndex.endPosition (ix : LineIndex) (text : String) (e : Encoding) : LineCol :=
  ix.position (byteLength text.toList) text e

/-! ### Edits -/

/-- A text with the range between two places replaced. Both are found in the text as
    it was; a range written backwards is turned round. -/
def replaceRange (text : String) (start stop : LineCol) (new : String) (e : Encoding) : String :=
  let ix := LineIndex.ofText text
  let a := ix.offsetClamped start text e
  let b := ix.offsetClamped stop text e
  String.ofList (splice text.toList (min a b) (max a b) new.toList)

end LiveWorkspace.Text
