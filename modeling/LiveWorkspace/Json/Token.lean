/-
  LiveWorkspace/Json/Token.lean
  =============================
  **The tokens of a JSON text.**

  The text is read by a machine that takes one character a step: between tokens,
  inside a word (a number or a literal), or inside a string.  A word is read to its
  end before it is classified, which loses nothing, because two values never stand
  side by side in JSON.

  A string may escape half of a surrogate pair.  Such a string is well formed but
  holds no text, so `Token.string` carries its text only if there is one.
-/
import LiveWorkspace.Text.Hex

namespace LiveWorkspace.Json

/-! ### Tokens -/

inductive Token where
  | openArray
  | closeArray
  | openObject
  | closeObject
  | colon
  | comma
  | null
  | bool (b : Bool)
  | number (digits : List Char)
  | string (text : Option String)
deriving DecidableEq, Repr

/-! ### Words -/

def isWordChar (c : Char) : Bool :=
  c.isAlphanum || c == '+' || c == '-' || c == '.'

/-- What stands behind at least one digit. -/
def afterDigits? (cs : List Char) : Option (List Char) :=
  match cs with
  | [] => none
  | c :: rest => if c.isDigit then some (rest.dropWhile Char.isDigit) else none

/-- What stands behind an integer, which has no needless zero in front. -/
def afterInteger? : List Char → Option (List Char)
  | '0' :: rest => some rest
  | cs => afterDigits? cs

def afterFraction? : List Char → Option (List Char)
  | '.' :: rest => afterDigits? rest
  | cs => some cs

def afterExponent? : List Char → Option (List Char)
  | e :: rest =>
    if e = 'e' ∨ e = 'E' then
      match rest with
      | sign :: digits => afterDigits? (if sign = '+' ∨ sign = '-' then digits else rest)
      | [] => none
    else some (e :: rest)
  | [] => some []

/-- Whether a word is a number. -/
def isNumber (word : List Char) : Bool :=
  let unsigned := match word with
    | '-' :: rest => rest
    | _ => word
  ((afterInteger? unsigned).bind afterFraction?).bind afterExponent? == some []

/-- The token that a word is. -/
def Token.ofWord? (word : List Char) : Option Token :=
  if word = "null".toList then some .null
  else if word = "true".toList then some (.bool true)
  else if word = "false".toList then some (.bool false)
  else if isNumber word then some (.number word)
  else none

/-! ### Strings -/

/-- A part of a string: a character, or a 16-bit unit that an escape names. -/
inductive Part where
  | char (c : Char)
  | unit (n : Nat)
deriving DecidableEq, Repr

/-- The text of some parts. Units outside the surrogates are characters, and a high
    surrogate needs a low one behind it. -/
def textOf? : List Part → Option (List Char)
  | [] => some []
  | .char c :: rest => (textOf? rest).map (c :: ·)
  | .unit high :: rest =>
    if high < 0xD800 ∨ 0xDFFF < high then (textOf? rest).map (Char.ofNat high :: ·)
    else if high < 0xDC00 then
      match rest with
      | .unit low :: rest =>
        if 0xDC00 ≤ low ∧ low ≤ 0xDFFF then
          (textOf? rest).map (Char.ofNat (0x10000 + (high - 0xD800) * 0x400 + (low - 0xDC00)) :: ·)
        else none
      | _ => none
    else none

/-- The character that a one-letter escape stands for. -/
def unescape? : Char → Option Char
  | '"' => some '"'
  | '\\' => some '\\'
  | '/' => some '/'
  | 'b' => some '\x08'
  | 'f' => some '\x0c'
  | 'n' => some '\n'
  | 'r' => some '\r'
  | 't' => some '\t'
  | _ => none

/-! ### The reading machine -/

/-- Where the machine stands. Words and strings are kept last character first; `hex`
    still owes `left` digits of an escape. -/
inductive Mode where
  | between
  | word (rev : List Char)
  | string (rev : List Part)
  | escape (rev : List Part)
  | hex (rev : List Part) (left value : Nat)
deriving DecidableEq, Repr

/-- The machine's state: its mode, and the tokens read, last one first. -/
structure Reading where
  mode : Mode
  tokens : List Token
deriving DecidableEq, Repr

def isBlank (c : Char) : Bool := c == ' ' || c == '\t' || c == '\n' || c == '\r'

/-- Read a character that stands between tokens. -/
def begin? (tokens : List Token) (c : Char) : Option Reading :=
  if isBlank c then some ⟨.between, tokens⟩
  else if c = '[' then some ⟨.between, .openArray :: tokens⟩
  else if c = ']' then some ⟨.between, .closeArray :: tokens⟩
  else if c = '\x7b' then some ⟨.between, .openObject :: tokens⟩
  else if c = '\x7d' then some ⟨.between, .closeObject :: tokens⟩
  else if c = ':' then some ⟨.between, .colon :: tokens⟩
  else if c = ',' then some ⟨.between, .comma :: tokens⟩
  else if c = '"' then some ⟨.string [], tokens⟩
  else if isWordChar c then some ⟨.word [c], tokens⟩
  else none

/-- Read one character. Controls are refused inside a string. -/
def Reading.step? (r : Reading) (c : Char) : Option Reading :=
  match r.mode with
  | .between => begin? r.tokens c
  | .word rev =>
    if isWordChar c then some ⟨.word (c :: rev), r.tokens⟩
    else (Token.ofWord? rev.reverse).bind fun word => begin? (word :: r.tokens) c
  | .string rev =>
    if c = '"' then some ⟨.between, .string ((textOf? rev.reverse).map String.ofList) :: r.tokens⟩
    else if c = '\\' then some ⟨.escape rev, r.tokens⟩
    else if c.toNat < 0x20 then none
    else some ⟨.string (.char c :: rev), r.tokens⟩
  | .escape rev =>
    if c = 'u' then some ⟨.hex rev 4 0, r.tokens⟩
    else (unescape? c).map fun d => ⟨.string (.char d :: rev), r.tokens⟩
  | .hex rev left value =>
    (Text.hexValue? c).map fun digit =>
      let value := value * 16 + digit
      if left ≤ 1 then ⟨.string (.unit value :: rev), r.tokens⟩
      else ⟨.hex rev (left - 1) value, r.tokens⟩

/-- The tokens, when the text may end here. -/
def Reading.finish? (r : Reading) : Option (List Token) :=
  match r.mode with
  | .between => some r.tokens.reverse
  | .word rev => (Token.ofWord? rev.reverse).map fun word => (word :: r.tokens).reverse
  | _ => none

/-- The tokens of a text. -/
def tokens? (text : String) : Option (List Token) :=
  (text.toList.foldlM Reading.step? ⟨.between, []⟩).bind Reading.finish?

end LiveWorkspace.Json
