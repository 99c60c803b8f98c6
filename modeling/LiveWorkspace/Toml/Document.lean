/-
  LiveWorkspace/Toml/Document.lean
  ================================
  **TOML documents.**

  A reader here takes the characters that are left and gives back what it read and
  what is left then.  Lines are read into statements, and the statements are put
  together by `assemble?`.  Arrays and inline tables nest no deeper than `maxDepth`,
  which is also what the reader of values recurs on; every other repetition is
  bounded by the number of characters left.
-/
import LiveWorkspace.Toml.Scalar

namespace LiveWorkspace.Toml

abbrev Reader (α : Type) := List Char → Option (α × List Char)

/-- How deep values may nest. -/
def maxDepth : Nat := 80

/-! ### Blanks, comments, line ends -/

def isBlank (c : Char) : Bool := c == ' ' || c == '\t'

def skipBlank (cs : List Char) : List Char := cs.dropWhile isBlank

/-- Controls other than the tab stand nowhere in a document. -/
def isPlain (c : Char) : Bool := c == '\t' || (0x20 ≤ c.toNat && c.toNat != 0x7F)

/-- What is left behind a line feed, with or without a carriage return in front. -/
def newline? : List Char → Option (List Char)
  | '\n' :: rest => some rest
  | '\r' :: '\n' :: rest => some rest
  | _ => none

/-- What is left behind a comment, if one stands here. -/
def skipComment : List Char → List Char
  | '#' :: rest => rest.dropWhile isPlain
  | cs => cs

/-- What is left behind the end of a line, which blanks and a comment may precede. -/
def lineEnd? (cs : List Char) : Option (List Char) :=
  match skipComment (skipBlank cs) with
  | [] => some []
  | cs => newline? cs

/-- What is left behind blanks, comments and line ends. -/
def skipLines : (fuel : Nat) → List Char → List Char
  | 0, cs => cs
  | fuel + 1, cs =>
    let rest := skipComment (skipBlank cs)
    match newline? rest with
    | some rest => skipLines fuel rest
    | none => rest

def skipAll (cs : List Char) : List Char := skipLines cs.length cs

/-! ### Strings -/

/-- The character with a code point, when there is one. -/
def charOfCode? (n : Nat) : Option Char :=
  if n < 0xD800 ∨ (0xDFFF < n ∧ n < 0x110000) then some (Char.ofNat n) else none

/-- A character written by its code point in `size` hexadecimal digits. -/
def codePoint? (size : Nat) : Reader Char := fun cs =>
  let ds := cs.take size
  if ds.length = size ∧ ds.all Text.isHex then
    (charOfCode? (natOfDigits 16 ds)).map (·, cs.drop size)
  else none

/-- The character of an escape, behind the backslash. -/
def escape? : Reader Char
  | 'b' :: rest => some ('\x08', rest)
  | 't' :: rest => some ('\t', rest)
  | 'n' :: rest => some ('\n', rest)
  | 'f' :: rest => some ('\x0c', rest)
  | 'r' :: rest => some ('\r', rest)
  | 'e' :: rest => some ('\x1b', rest)
  | '"' :: rest => some ('"', rest)
  | '\\' :: rest => some ('\\', rest)
  | 'x' :: rest => codePoint? 2 rest
  | 'u' :: rest => codePoint? 4 rest
  | 'U' :: rest => codePoint? 8 rest
  | _ => none

/-- The rest of a string of one line, behind its opening quote. -/
def lineString? (quote : Char) (rev : List Char) : (fuel : Nat) → Reader String
  | 0, _ => none
  | _, [] => none
  | fuel + 1, c :: rest =>
    if c = quote then some (String.ofList rev.reverse, rest)
    else if c = '\\' ∧ quote = '"' then
      (escape? rest).bind fun (d, rest) => lineString? quote (d :: rev) fuel rest
    else if isPlain c then lineString? quote (c :: rev) fuel rest
    else none

/-- The rest of a string of many lines, behind its three opening quotes. Up to two
    quotes before the three closing ones belong to the text. In a string with
    escapes, a backslash at the end of a line swallows all blanks that follow. -/
def longString? (quote : Char) (rev : List Char) : (fuel : Nat) → Reader String
  | 0, _ => none
  | _, [] => none
  | fuel + 1, c :: rest =>
    if c = quote then
      let run := (rest.takeWhile (· == quote)).length + 1
      if run < 3 then longString? quote (c :: rev) fuel rest
      else
        let kept := min (run - 3) 2
        some (String.ofList (rev.reverse ++ List.replicate kept quote), rest.drop (kept + 2))
    else if c = '\\' ∧ quote = '"' then
      match newline? (skipBlank rest) with
      | some rest => longString? quote rev fuel (rest.dropWhile fun d => isBlank d || d == '\n' || d == '\r')
      | none => (escape? rest).bind fun (d, rest) => longString? quote (d :: rev) fuel rest
    else match newline? (c :: rest) with
      | some after =>
        let breaks := (c :: rest).take (rest.length + 1 - after.length)
        longString? quote (breaks.reverse ++ rev) fuel after
      | none => if isPlain c then longString? quote (c :: rev) fuel rest else none

/-- A quoted string of either length, behind its first quote. The line end right
    behind three opening quotes is no part of the text. -/
def string? (quote : Char) : Reader String := fun cs =>
  match cs with
  | a :: b :: rest =>
    if a = quote ∧ b = quote then
      longString? quote [] cs.length ((newline? rest).getD rest)
    else lineString? quote [] cs.length cs
  | _ => lineString? quote [] cs.length cs

/-! ### Keys -/

def isBareKeyChar (c : Char) : Bool := c.isAlphanum || c == '_' || c == '-'

/-- One part of a dotted key. -/
def simpleKey? : Reader String
  | '"' :: rest => lineString? '"' [] (rest.length + 1) rest
  | '\'' :: rest => lineString? '\'' [] (rest.length + 1) rest
  | cs =>
    let key := cs.takeWhile isBareKeyChar
    if key.isEmpty then none else some (String.ofList key, cs.dropWhile isBareKeyChar)

/-- A dotted key; blanks may stand around the dots. -/
def key? : (fuel : Nat) → Reader (List String)
  | 0, _ => none
  | fuel + 1, cs =>
    (simpleKey? (skipBlank cs)).bind fun (part, rest) =>
      match skipBlank rest with
      | '.' :: rest => (key? fuel rest).map fun (parts, rest) => (part :: parts, rest)
      | rest => some ([part], rest)

/-! ### Values -/

def isWordChar (c : Char) : Bool :=
  c.isAlphanum || c == '_' || c == '+' || c == '-' || c == '.' || c == ':'

/-- An unquoted value. A blank may stand between a date and its time. -/
def word? : Reader Value := fun cs =>
  let word := cs.takeWhile isWordChar
  let rest := cs.dropWhile isWordChar
  match date? word, rest with
  | some (_, []), ' ' :: c :: more =>
    if c.isDigit then
      let time := (c :: more).takeWhile isWordChar
      (scalar? (word ++ ' ' :: time)).map (·, (c :: more).dropWhile isWordChar)
    else (scalar? word).map (·, rest)
  | _, _ => (scalar? word).map (·, rest)

/-- The items of an array, behind its bracket or a comma. -/
def items? (value? : Reader Value) (rev : List Value) : (fuel : Nat) → Reader (List Value)
  | 0, _ => none
  | fuel + 1, cs =>
    match skipAll cs with
    | ']' :: rest => some (rev.reverse, rest)
    | cs =>
      (value? cs).bind fun (v, rest) =>
        match skipAll rest with
        | ',' :: rest => items? value? (v :: rev) fuel rest
        | ']' :: rest => some ((v :: rev).reverse, rest)
        | _ => none

/-- A key with its value. -/
def keyValue? (value? : Reader Value) : Reader (List String × Value) := fun cs =>
  (key? (cs.length + 1) cs).bind fun (path, rest) =>
    match rest with
    | '=' :: rest => (value? (skipBlank rest)).map fun (v, rest) => ((path, v), rest)
    | _ => none

/-- The entries of an inline table, behind its brace or a comma. -/
def members? (value? : Reader Value) (es : Entries) : (fuel : Nat) → Reader Entries
  | 0, _ => none
  | fuel + 1, cs =>
    match skipAll cs with
    | '\x7d' :: rest => some (es, rest)
    | cs =>
      (keyValue? value? cs).bind fun ((path, v), rest) =>
        (put path.dropLast (path.getLast?.getD "") v .inline es).bind fun es =>
          match skipAll rest with
          | ',' :: rest => members? value? es fuel rest
          | '\x7d' :: rest => some (es, rest)
          | _ => none

/-- A value in which values nest at most `depth` deep. -/
def value? : (depth : Nat) → Reader Value
  | _, '"' :: rest => (string? '"' rest).map fun (s, rest) => (.text s, rest)
  | _, '\'' :: rest => (string? '\'' rest).map fun (s, rest) => (.text s, rest)
  | depth + 1, '[' :: rest =>
    (items? (value? depth) [] (rest.length + 1) rest).map fun (vs, rest) => (.array false vs, rest)
  | depth + 1, '\x7b' :: rest =>
    (members? (value? depth) [] (rest.length + 1) rest).map fun (es, rest) => (.table .inline es, rest)
  | _, cs => word? cs

/-! ### Documents -/

/-- The key of a header, behind its opening brackets. -/
def headerKey? (cs : List Char) : Option (List String × List Char) := key? (cs.length + 1) cs

/-- A header or an entry. -/
def statement? : Reader Statement
  | '[' :: '[' :: rest =>
    (headerKey? rest).bind fun (path, rest) =>
      match rest with
      | ']' :: ']' :: rest => some (.itemHeader path, rest)
      | _ => none
  | '[' :: rest =>
    (headerKey? rest).bind fun (path, rest) =>
      match rest with
      | ']' :: rest => some (.header path, rest)
      | _ => none
  | cs => (keyValue? (value? maxDepth) cs).map fun ((path, v), rest) => (.entry path v, rest)

/-- The statements of a document. -/
def statements? (rev : List Statement) : (fuel : Nat) → List Char → Option (List Statement)
  | 0, _ => none
  | fuel + 1, cs =>
    match skipAll cs with
    | [] => some rev.reverse
    | cs =>
      (statement? cs).bind fun (s, rest) =>
        (lineEnd? rest).bind fun rest => statements? (s :: rev) fuel rest

/-- The table of a document. A byte order mark in front is no part of it. -/
def parse? (text : String) : Option Entries :=
  let cs := match text.toList with
    | '\uFEFF' :: rest => rest
    | cs => cs
  (statements? [] (cs.length + 1) cs).bind assemble?

end LiveWorkspace.Toml
