/-
  LiveWorkspace/Text/Utf8.lean
  ============================
  **Octets and the text they hold.**

  A file holds octets, a document holds text.  The decoder is a machine that reads
  one octet at a time and remembers how many more octets the character it is in
  still needs and in which range the next of them must lie.  An octet that does not
  fit ends the broken character and is read again as the start of a new one, so
  each maximal piece of a broken character gives one failure.  `decode?` refuses a
  text with a failure in it, `decodeLossy` shows U+FFFD in its place.
-/

namespace LiveWorkspace.Text

/-- The content of a file. -/
abbrev Bytes := List UInt8

namespace Utf8

/-! ### Encoding -/

/-- The octets of a text. -/
def encode (text : String) : Bytes := text.toList.flatMap String.utf8EncodeChar

/-! ### The decoding machine -/

/-- A character that has begun: `owed` more octets, the next of them between `low`
    and `high`, and `code` the bits read so far. -/
structure Pending where
  owed : Nat
  low : UInt8
  high : UInt8
  code : Nat
deriving DecidableEq, Repr

/-- What the first octet of a character says: the character itself, a character
    that goes on, or neither. -/
inductive Lead where
  | whole (c : Char)
  | begins (p : Pending)
  | stray
deriving DecidableEq, Repr

/-- The ranges of a second octet leave out what a shorter form could say, the
    surrogates, and all beyond the last code point. -/
def lead (b : UInt8) : Lead :=
  let code := b.toNat
  if b < 0x80 then .whole (Char.ofNat code)
  else if b < 0xC2 then .stray
  else if b < 0xE0 then .begins ⟨1, 0x80, 0xBF, code - 0xC0⟩
  else if b = 0xE0 then .begins ⟨2, 0xA0, 0xBF, 0⟩
  else if b = 0xED then .begins ⟨2, 0x80, 0x9F, code - 0xE0⟩
  else if b < 0xF0 then .begins ⟨2, 0x80, 0xBF, code - 0xE0⟩
  else if b = 0xF0 then .begins ⟨3, 0x90, 0xBF, 0⟩
  else if b < 0xF4 then .begins ⟨3, 0x80, 0xBF, code - 0xF0⟩
  else if b = 0xF4 then .begins ⟨3, 0x80, 0x8F, code - 0xF0⟩
  else .stray

/-- Read an octet as the first one of a character; `next` reads what follows. -/
def start (b : UInt8) (next : Option Pending → List (Option Char)) : List (Option Char) :=
  match lead b with
  | .whole c => some c :: next none
  | .begins p => next (some p)
  | .stray => none :: next none

/-- Read octets from inside a character, or from between two; `none` stands for a
    piece that is no character. -/
def scan : Option Pending → Bytes → List (Option Char)
  | none, [] => []
  | some _, [] => [none]
  | none, b :: rest => start b fun state => scan state rest
  | some p, b :: rest =>
    if p.low ≤ b ∧ b ≤ p.high then
      let code := p.code * 64 + (b.toNat - 0x80)
      if p.owed ≤ 1 then some (Char.ofNat code) :: scan none rest
      else scan (some ⟨p.owed - 1, 0x80, 0xBF, code⟩) rest
    else none :: start b fun state => scan state rest

/-- The text of some octets, when they are UTF-8 throughout. -/
def decode? (bs : Bytes) : Option String :=
  ((scan none bs).mapM id).map String.ofList

/-- The text of some octets, with U+FFFD for each piece that is no character. -/
def decodeLossy (bs : Bytes) : String :=
  String.ofList ((scan none bs).map (·.getD '\uFFFD'))

end Utf8

end LiveWorkspace.Text
