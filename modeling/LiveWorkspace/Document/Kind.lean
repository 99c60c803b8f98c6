/-
  LiveWorkspace/Document/Kind.lean
  ================================
  **What a file is to the Faust compiler.**

  The kind of a file is read off its name: a unit that is compiled for itself, a
  library that others import, or a file that the compiler never sees.  Files of the
  first two kinds are checked and carry diagnostics; one further name is that of the
  file which configures a project.
-/
import LiveWorkspace.Path

namespace LiveWorkspace

/-- A compilable unit, an importable library, or any other file. -/
inductive FileKind where
  | unit
  | library
  | other
deriving DecidableEq, Repr

def FileKind.ofPath (p : Path) : FileKind :=
  match p.extension? with
  | some "dsp" => .unit
  | some "lib" => .library
  | _ => .other

/-- Whether files of the kind are checked for errors. -/
def FileKind.isFaust : FileKind → Bool
  | .unit | .library => true
  | .other => false

/-- The name of the file that configures a project. -/
def configFileName : String := ".faustcfg.json"

def Path.isConfigFile (p : Path) : Bool := p.fileName? == some configFileName

end LiveWorkspace
