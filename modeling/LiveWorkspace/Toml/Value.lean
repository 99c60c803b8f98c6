/-
  LiveWorkspace/Toml/Value.lean
  =============================
  **TOML tables, and the rule that none is defined twice.**

  A document fills one table, statement by statement.  Whether a later statement may
  add to a table depends on how that table came about, so every table carries its
  `Origin`: an inline table is closed, a table with its own header takes no dotted
  keys from elsewhere, and a table that only appeared inside a dotted key or header
  may still grow.
-/
import LiveWorkspace.Decimal.Binary64

namespace LiveWorkspace.Toml

/-! ### Values -/

/-- How a table came about: in braces, in the middle of a header, in the middle of a
    dotted key, or under a header of its own. -/
inductive Origin where
  | inline
  | implied
  | dotted
  | header
deriving DecidableEq, Repr

/-- A TOML value. Dates and times are kept as normalised text. An array knows whether
    it was filled by headers. -/
inductive Value where
  | text (s : String)
  | integer (n : Int)
  | float (x : Decimal.Binary64)
  | bool (b : Bool)
  | moment (s : String)
  | array (ofTables : Bool) (items : List Value)
  | table (origin : Origin) (entries : List (String × Value))
deriving Repr

abbrev Entries := List (String × Value)

/-! ### Filling a table -/

def lookup (key : String) (es : Entries) : Option Value := (es.find? (·.1 == key)).map (·.2)

def replace (key : String) (v : Value) (es : Entries) : Entries :=
  es.map fun e => if e.1 == key then (key, v) else e

/-- Change the table at a path of keys. Missing tables appear, with the origin that the
    path gives them; the last table of an array filled by headers stands for the array. -/
def alter (isDotted : Bool) (f : Origin → Entries → Option Entries) :
    List String → Origin → Entries → Option Entries
  | [], origin, es => f origin es
  | key :: path, _, es =>
    match lookup key es with
    | none =>
      let origin := if isDotted then .dotted else .implied
      (alter isDotted f path origin []).map fun sub => es ++ [(key, .table origin sub)]
    | some (.table origin sub) =>
      if origin = .inline ∨ (isDotted ∧ origin = .header) then none
      else (alter isDotted f path origin sub).map fun sub => replace key (.table origin sub) es
    | some (.array true items) =>
      match items.getLast? with
      | some (.table origin sub) =>
        (alter isDotted f path origin sub).map fun sub =>
          replace key (.array true (items.dropLast ++ [.table origin sub])) es
      | _ => none
    | some _ => none

/-- Put a value under a dotted key. The table that receives it must have been made by
    dotted keys exactly when the key has a dot. -/
def put (path : List String) (key : String) (v : Value) : Origin → Entries → Option Entries :=
  alter true (fun origin es =>
    if (origin = .dotted) = path.isEmpty ∨ (lookup key es).isSome then none
    else some (es ++ [(key, v)])) path

/-- Open the table of a header: a new one, or one that only an earlier header implied. -/
def openTable (key : String) (_ : Origin) (es : Entries) : Option Entries :=
  match lookup key es with
  | none => some (es ++ [(key, .table .header [])])
  | some (.table .implied sub) => some (replace key (.table .header sub) es)
  | some _ => none

/-- Begin the next table of an array of tables. -/
def openItem (key : String) (_ : Origin) (es : Entries) : Option Entries :=
  match lookup key es with
  | none => some (es ++ [(key, .array true [.table .header []])])
  | some (.array true items) => some (replace key (.array true (items ++ [.table .header []])) es)
  | some _ => none

/-- Change the table under the header that was read last. -/
def within (f : Origin → Entries → Option Entries) :
    List String → Origin → Entries → Option Entries
  | [], origin, es => f origin es
  | key :: path, _, es =>
    match lookup key es with
    | some (.table origin sub) =>
      (within f path origin sub).map fun sub => replace key (.table origin sub) es
    | some (.array true items) =>
      match items.getLast? with
      | some (.table origin sub) =>
        (within f path origin sub).map fun sub =>
          replace key (.array true (items.dropLast ++ [.table origin sub])) es
      | _ => none
    | _ => none

/-! ### Statements -/

/-- A statement of a document. Keys are never empty. -/
inductive Statement where
  | header (path : List String)
  | itemHeader (path : List String)
  | entry (path : List String) (v : Value)
deriving Repr

/-- A document that is half read: its table, and the path of the last header. -/
structure Draft where
  entries : Entries
  current : List String
deriving Repr

def Draft.add? (d : Draft) : Statement → Option Draft
  | .header path =>
    (alter false (openTable (path.getLast?.getD "")) path.dropLast .header d.entries).map (⟨·, path⟩)
  | .itemHeader path =>
    (alter false (openItem (path.getLast?.getD "")) path.dropLast .header d.entries).map (⟨·, path⟩)
  | .entry path v =>
    (within (put path.dropLast (path.getLast?.getD "") v) d.current .header d.entries).map
      (⟨·, d.current⟩)

/-- The table that some statements fill. -/
def assemble? (statements : List Statement) : Option Entries :=
  (statements.foldlM Draft.add? ⟨[], []⟩).map (·.entries)

end LiveWorkspace.Toml
