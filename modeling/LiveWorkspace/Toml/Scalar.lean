/-
  LiveWorkspace/Toml/Scalar.lean
  ==============================
  **The unquoted values of TOML: truth values, numbers, dates and times.**

  An unquoted value is a word, and its form alone decides what it is.  Whole numbers
  fit into 64 bits with a sign and fractions into a 64-bit float, or the word is
  refused.  Dates and times are checked against the calendar and kept as text in
  their normal form.
-/
import LiveWorkspace.Text.Hex
import LiveWorkspace.Toml.Value

namespace LiveWorkspace.Toml

/-! ### Digits -/

/-- A run of digits of a class with single underscores between them, and the rest. -/
def digitRun (isDigit : Char → Bool) : List Char → List Char × List Char
  | [] => ([], [])
  | '_' :: c :: rest =>
    if isDigit c then
      let (ds, rest) := digitRun isDigit rest
      (c :: ds, rest)
    else ([], '_' :: c :: rest)
  | c :: rest =>
    if isDigit c then
      let (ds, rest) := digitRun isDigit rest
      (c :: ds, rest)
    else ([], c :: rest)

/-- A run of at least one digit that does not begin with an underscore. -/
def digits? (isDigit : Char → Bool) (cs : List Char) : Option (List Char × List Char) :=
  match cs with
  | '_' :: _ => none
  | _ =>
    let (ds, rest) := digitRun isDigit cs
    if ds.isEmpty then none else some (ds, rest)

/-- The number that digits write in a base. -/
def natOfDigits (base : Nat) (ds : List Char) : Nat :=
  ds.foldl (fun n c => n * base + (Text.hexValue? c).getD 0) 0

/-! ### Numbers -/

def integer? (n : Int) : Option Value :=
  if Int64.minValue.toInt ≤ n ∧ n ≤ Int64.maxValue.toInt then some (.integer n) else none

/-- A whole number in another base than ten, behind its two-letter sign. -/
def based? (base : Nat) (isDigit : Char → Bool) (cs : List Char) : Option Value :=
  match digits? isDigit cs with
  | some (ds, []) => integer? (natOfDigits base ds)
  | _ => none

/-- The exponent of a fraction, if the rest of a word is one. -/
def exponent? : List Char → Option Int
  | [] => some 0
  | e :: rest =>
    if e ≠ 'e' ∧ e ≠ 'E' then none
    else
      let (negative, rest) := match rest with
        | '-' :: rest => (true, rest)
        | '+' :: rest => (false, rest)
        | _ => (false, rest)
      match digits? Char.isDigit rest with
      | some (ds, []) => some (if negative then -(natOfDigits 10 ds : Int) else natOfDigits 10 ds)
      | _ => none

/-- A fraction; one that is out of range is refused. -/
def fraction? (negative : Bool) (whole part : List Char) (power : Int) : Option Value :=
  match Decimal.Binary64.ofDecimal negative (natOfDigits 10 (whole ++ part)) (power - part.length) with
  | .infinite _ => none
  | x => some (.float x)

/-- A number without its sign. -/
def decimal? (negative : Bool) (cs : List Char) : Option Value :=
  (digits? Char.isDigit cs).bind fun (whole, rest) =>
    if 1 < whole.length ∧ whole.head? = some '0' then none
    else match rest with
      | [] =>
        let n : Int := natOfDigits 10 whole
        integer? (if negative then -n else n)
      | '.' :: rest =>
        (digits? Char.isDigit rest).bind fun (part, rest) =>
          (exponent? rest).bind (fraction? negative whole part)
      | _ => (exponent? rest).bind (fraction? negative whole [])

def number? (cs : List Char) : Option Value :=
  let (sign, body) : Option Bool × List Char := match cs with
    | '-' :: rest => (some true, rest)
    | '+' :: rest => (some false, rest)
    | _ => (none, cs)
  let negative := sign.getD false
  if body = "inf".toList then some (.float (.infinite negative))
  else if body = "nan".toList then some (.float .nan)
  else match sign, body with
    | none, '0' :: 'x' :: ds => based? 16 Text.isHex ds
    | none, '0' :: 'o' :: ds => based? 8 (fun c => '0' ≤ c ∧ c ≤ '7') ds
    | none, '0' :: 'b' :: ds => based? 2 (fun c => c == '0' || c == '1') ds
    | _, _ => decimal? negative body

/-! ### Dates and times -/

/-- A field of exactly `size` digits within bounds, and the rest. -/
def field? (size low high : Nat) (cs : List Char) : Option (List Char × List Char) :=
  let ds := cs.take size
  let n := natOfDigits 10 ds
  if ds.length = size ∧ ds.all Char.isDigit ∧ low ≤ n ∧ n ≤ high then some (ds, cs.drop size) else none

def literal? (c : Char) : List Char → Option (List Char)
  | d :: rest => if d = c then some rest else none
  | [] => none

def isLeapYear (year : Nat) : Bool := year % 4 == 0 && (year % 100 != 0 || year % 400 == 0)

def daysInMonth (year month : Nat) : Nat :=
  if month = 2 then (if isLeapYear year then 29 else 28)
  else if [4, 6, 9, 11].contains month then 30
  else 31

/-- A calendar date in normal form, and the rest. -/
def date? (cs : List Char) : Option (List Char × List Char) := do
  let (year, cs) ← field? 4 0 9999 cs
  let cs ← literal? '-' cs
  let (month, cs) ← field? 2 1 12 cs
  let cs ← literal? '-' cs
  let (day, cs) ← field? 2 1 (daysInMonth (natOfDigits 10 year) (natOfDigits 10 month)) cs
  some (year ++ '-' :: month ++ '-' :: day, cs)

/-- The digits behind the point of a second, in normal form: at most nine, without
    zeros at the end. -/
def secondPart (ds : List Char) : List Char :=
  let kept := ((ds.take 9).reverse.dropWhile (· == '0')).reverse
  if kept.isEmpty then ['0'] else kept

/-- A time of day in normal form, and the rest. The seconds may be left out. -/
def time? (cs : List Char) : Option (List Char × List Char) := do
  let (hour, cs) ← field? 2 0 23 cs
  let cs ← literal? ':' cs
  let (minute, cs) ← field? 2 0 59 cs
  match cs with
  | ':' :: cs =>
    let (second, cs) ← field? 2 0 60 cs
    match cs with
    | '.' :: cs =>
      let ds := cs.takeWhile Char.isDigit
      if ds.isEmpty then none
      else some (hour ++ ':' :: minute ++ ':' :: second ++ '.' :: secondPart ds, cs.dropWhile Char.isDigit)
    | _ => some (hour ++ ':' :: minute ++ ':' :: second, cs)
  | _ => some (hour ++ ':' :: minute, cs)

/-- A distance from universal time in normal form; none may be given. -/
def zone? : List Char → Option (List Char)
  | [] => some []
  | c :: cs =>
    if c = 'Z' ∨ c = 'z' then (if cs.isEmpty then some ['Z'] else none)
    else if c = '+' ∨ c = '-' then do
      let (hour, cs) ← field? 2 0 23 cs
      let cs ← literal? ':' cs
      let (minute, cs) ← field? 2 0 59 cs
      let sign := if natOfDigits 10 (hour ++ minute) = 0 then '+' else c
      if cs.isEmpty then some (sign :: hour ++ ':' :: minute) else none
    else none

/-- A date, a time, or both, in normal form. -/
def moment? (cs : List Char) : Option Value :=
  let written : Option (List Char) :=
    match date? cs with
    | some (date, []) => some date
    | some (date, sep :: rest) =>
      if sep = 'T' ∨ sep = 't' ∨ sep = ' ' then do
        let (time, rest) ← time? rest
        let zone ← zone? rest
        some (date ++ 'T' :: time ++ zone)
      else none
    | none =>
      match time? cs with
      | some (time, []) => some time
      | _ => none
  written.map fun cs => .moment (String.ofList cs)

/-! ### Words -/

/-- The value that an unquoted word is. -/
def scalar? (word : List Char) : Option Value :=
  if word = "true".toList then some (.bool true)
  else if word = "false".toList then some (.bool false)
  else match number? word with
    | some v => some v
    | none => moment? word

end LiveWorkspace.Toml
