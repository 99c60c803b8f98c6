/-
  LiveWorkspace/Session/Settings.lean
  ===================================
  **The settings of a session, and how files override each other.**

  Settings come from up to three TOML files: the user's own, and two in the project's
  directory of which the one without a dot wins.  Later files override earlier ones
  key by key.  A key may itself be a path, such as `a.b` or `a[0]`; it then puts
  something inside `a`.  No setting here is compound, so of a compound value it only
  matters that it is one, and of an empty table that it overrides nothing.

  Values are taken generously: a truth value may be written as a number or as one of
  several words, and a directory as any plain value.
-/
import LiveWorkspace.Path
import LiveWorkspace.Toml.Document

namespace LiveWorkspace

/-- The settings of a session: whether to keep a detailed log, and the directory in
    which the session's replica is made. -/
structure Settings where
  debug : Bool := false
  replicaDir : Option Path := none
deriving DecidableEq, Repr, Inhabited

namespace Settings

/-- What is said of files that give no settings. -/
def failure : String := "Configuration build/deserialize error"

/-! ### Keys as paths -/

/-- Where a key puts its value: at a name, or somewhere inside what the name holds. -/
inductive Place where
  | at (name : String)
  | inside (name : String)
deriving DecidableEq, Repr

def isNameChar (c : Char) : Bool := c.isAlphanum || c == '_' || c == '-'

/-- Whether a text is an index between brackets, and what follows it. -/
def index? (cs : List Char) : Option (List Char) :=
  let cs := cs.dropWhile (fun c => c == ' ' || c == '\t')
  let (negative, body) := match cs with
    | '-' :: rest => (true, rest)
    | _ => (false, cs)
  let ds := body.takeWhile Char.isDigit
  let n := Toml.natOfDigits 10 ds
  let inRange := n < Nat.pow 2 63 ∨ (negative ∧ n = Nat.pow 2 63)
  if ds.isEmpty ∨ ¬ inRange then none
  else match (body.dropWhile Char.isDigit).dropWhile (fun c => c == ' ' || c == '\t') with
    | ']' :: rest => some rest
    | _ => none

/-- Whether a text is a run of steps behind a name, each a dot with a name or an index. -/
def areSteps : (fuel : Nat) → List Char → Bool
  | 0, _ => false
  | _, [] => true
  | fuel + 1, '.' :: rest =>
    !(rest.takeWhile isNameChar).isEmpty && areSteps fuel (rest.dropWhile isNameChar)
  | fuel + 1, '[' :: rest =>
    match index? rest with
    | some rest => areSteps fuel rest
    | none => false
  | _, _ => false

/-- The place of a key. A key that is no path stands for itself. -/
def Place.ofKey (key : String) : Place :=
  let cs := key.toList
  let name := cs.takeWhile isNameChar
  let steps := cs.dropWhile isNameChar
  if name.isEmpty ∨ steps.isEmpty ∨ ¬ areSteps (steps.length + 1) steps then .at key
  else .inside (String.ofList name)

/-! ### Overriding -/

/-- What is held under a name: a plain value, or a compound one. -/
inductive Held where
  | text (s : String)
  | integer (n : Int)
  | float (x : Decimal.Binary64)
  | bool (b : Bool)
  | compound
deriving DecidableEq, Repr

abbrev Layers := List (String × Held)

def Layers.get? (ls : Layers) (name : String) : Option Held := (ls.find? (·.1 == name)).map (·.2)

def Layers.set (ls : Layers) (name : String) (h : Held) : Layers :=
  (name, h) :: ls.filter (·.1 != name)

/-- Put a value over what is held. -/
def Layers.override (ls : Layers) (key : String) (v : Toml.Value) : Layers :=
  match Place.ofKey key with
  | .inside name => ls.set name .compound
  | .at name =>
    match v with
    | .text s | .moment s => ls.set name (.text s)
    | .integer n => ls.set name (.integer n)
    | .float x => ls.set name (.float x)
    | .bool b => ls.set name (.bool b)
    | .array .. => ls.set name .compound
    | .table _ es =>
      if es.isEmpty ∧ (ls.get? name).isSome then ls else ls.set name .compound

/-- Put the entries of a file over what is held. -/
def Layers.overrideAll (ls : Layers) (es : Toml.Entries) : Layers :=
  es.foldl (fun ls e => ls.override e.1 e.2) ls

/-! ### Reading the settings -/

/-- The truth value of a plain value: words in any case, and numbers other than zero. -/
def Held.truth? : Held → Option Bool
  | .bool b => some b
  | .integer n => some (n != 0)
  | .float x => some !x.isZero
  | .text s =>
    let word := String.ofList (s.toList.map Char.toLower)
    if ["1", "true", "on", "yes"].contains word then some true
    else if ["0", "false", "off", "no"].contains word then some false
    else none
  | .compound => none

/-- The text of a plain value. -/
def Held.text? : Held → Option String
  | .text s => some s
  | .bool b => some (if b then "true" else "false")
  | .integer n => some (toString n)
  | .float x => some x.toText
  | .compound => none

/-- The settings that are held, if each is of a usable form. -/
def ofLayers? (ls : Layers) : Option Settings := do
  let debug ← match ls.get? "debug" with
    | none => some false
    | some h => h.truth?
  let replicaDir ← match ls.get? "mirror_dir" with
    | none => some none
    | some h => h.text?.map fun s => some ⟨s⟩
  some ⟨debug, replicaDir⟩

/-- A text without the byte order mark in front, if it has one. -/
def withoutMark (text : String) : String :=
  match text.toList with
  | '\uFEFF' :: rest => String.ofList rest
  | _ => text

/-- The settings that files give, the least important one first. A missing file gives
    nothing; a file that is no TOML spoils them all. A byte order mark in front of a
    file is no part of its text. -/
def ofFiles? (files : List (Option String)) : Option Settings :=
  let read (ls : Layers) (file : Option String) : Option Layers :=
    match file with
    | none => some ls
    | some text => (Toml.parse? (withoutMark text)).map ls.overrideAll
  (files.foldlM read []).bind ofLayers?

end Settings

end LiveWorkspace
