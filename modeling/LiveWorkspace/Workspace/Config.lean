/-
  LiveWorkspace/Workspace/Config.lean
  ===================================
  **The configuration of one project.**

  A project may hold a JSON document that names its compiler, the files to compile
  and the directories to search.  Each setting has a default, and a document says
  what differs: as an object with the settings it knows and any others, or as an
  array of settings in their fixed order, cut short where the defaults begin.
  A setting of the wrong type, or one that is given twice, spoils the document.

  `ProjectConfig.load` always answers with a configuration: a spoiled or missing
  document counts as an empty one, and a project that names no files to compile gets
  all its compilable units.
-/
import LiveWorkspace.Json.Value
import LiveWorkspace.Log
import LiveWorkspace.Path

namespace LiveWorkspace

/-! ### Settings of a project -/

/-- Whether a project is a program or a library. -/
inductive ProjectKind where
  | process
  | library
deriving DecidableEq, Repr

def ProjectKind.name : ProjectKind → String
  | .process => "process"
  | .library => "library"

/-- The settings of a project. The files to compile and the directories to search are
    seen from the project's root. -/
structure ProjectConfig where
  command : String := "faust"
  kind : ProjectKind := .process
  processName : String := "process"
  processFiles : List Path := []
  includeDirs : List Path := []
  compilerDiagnostics : Bool := true
deriving DecidableEq, Repr, Inhabited

namespace ProjectConfig

/-- The files to compile. -/
def processPaths (c : ProjectConfig) (root : Path) : List Path := c.processFiles.map root.join

/-- The directories to search. -/
def includePaths (c : ProjectConfig) (root : Path) : List Path := c.includeDirs.map root.join

/-! ### Reading a document -/

def textOf? : Json.Value → Option String
  | .string text => text
  | _ => none

def boolOf? : Json.Value → Option Bool
  | .bool b => some b
  | _ => none

def pathsOf? : Json.Value → Option (List Path)
  | .array items => items.mapM fun item => (textOf? item).map Path.mk
  | _ => none

def kindOfName? (name : Option String) : Option ProjectKind :=
  if name = some "process" then some .process
  else if name = some "library" then some .library
  else none

/-- A kind is written as its name, or as an object that maps the name to null. -/
def kindOf? : Json.Value → Option ProjectKind
  | .string name => kindOfName? name
  | .object [(name, .null)] => kindOfName? name
  | _ => none

/-- The settings, in the order in which an array gives them. -/
inductive Setting where
  | command
  | kind
  | processName
  | processFiles
  | includeDirs
  | compilerDiagnostics
deriving DecidableEq, Repr

def Setting.all : List Setting :=
  [.command, .kind, .processName, .processFiles, .includeDirs, .compilerDiagnostics]

/-- The key of a setting in an object. -/
def Setting.key : Setting → String
  | .command => "command"
  | .kind => "type"
  | .processName => "process_name"
  | .processFiles => "process_files"
  | .includeDirs => "include"
  | .compilerDiagnostics => "compiler_diagnostics"

/-- A configuration with one setting read from a value of its type. -/
def set? (c : ProjectConfig) (s : Setting) (v : Json.Value) : Option ProjectConfig :=
  match s with
  | .command => (textOf? v).map fun x => { c with command := x }
  | .kind => (kindOf? v).map fun x => { c with kind := x }
  | .processName => (textOf? v).map fun x => { c with processName := x }
  | .processFiles => (pathsOf? v).map fun x => { c with processFiles := x }
  | .includeDirs => (pathsOf? v).map fun x => { c with includeDirs := x }
  | .compilerDiagnostics => (boolOf? v).map fun x => { c with compilerDiagnostics := x }

/-- Read the members of an object; `seen` are the settings given so far. -/
def setMembers? (c : ProjectConfig) (seen : List Setting) : List Json.Member → Option ProjectConfig
  | [] => some c
  | (none, _) :: _ => none
  | (some key, v) :: rest =>
    match Setting.all.find? (·.key == key) with
    | none => setMembers? c seen rest
    | some s =>
      if seen.contains s then none
      else (c.set? s v).bind fun c => setMembers? c (s :: seen) rest

/-- Read settings in their order. -/
def setItems? (c : ProjectConfig) : List Setting → List Json.Value → Option ProjectConfig
  | _, [] => some c
  | [], _ :: _ => none
  | s :: settings, v :: rest => (c.set? s v).bind fun c => setItems? c settings rest

/-- The configuration that a document describes. -/
def ofValue? : Json.Value → Option ProjectConfig
  | .object members => setMembers? {} [] members
  | .array items => setItems? {} Setting.all items
  | _ => none

/-- The configuration that a text describes. -/
def parse? (text : String) : Option ProjectConfig := (Json.Value.parse? text).bind ofValue?

/-- What is said of a document that describes no configuration. -/
def parseFailure : String := "Failed to parse project config"

/-! ### The configuration in force -/

/-- Whether a configuration leaves the choice of files to the project. -/
def asksForUnits (c : ProjectConfig) : Bool := c.processFiles.isEmpty

/-- The configuration with the given units to compile when it names none itself. -/
def withUnits (c : ProjectConfig) (units : List Path) : ProjectConfig :=
  if c.asksForUnits then { c with processFiles := Path.sort units } else c

/-- The configuration that a document gives before the project's units are counted in,
    and what there is to report about the document. -/
def ofDocument (content : Option String) : ProjectConfig × List Report :=
  match content with
  | none => ({}, [.info "No project config file, using defaults"])
  | some text =>
    match parse? text with
    | some c => (c, [])
    | none => ({}, [.error "Invalid project config file, using defaults"])

/-- The configuration in force, given the document's text and the project's units. -/
def load (content : Option String) (units : List Path) : ProjectConfig :=
  (ofDocument content).1.withUnits units

end ProjectConfig

end LiveWorkspace
