/-
  LiveWorkspace/Workspace/Basic.lean
  ==================================
  **A workspace: one project's root, its replica, and the files it looks after.**

  A workspace holds no text.  It keeps a set of paths, each of which has a document in
  the store that all workspaces share, and the configuration in force.  The work on a
  workspace happens at a `Desk`, where the shared state and the one workspace lie side
  by side.
-/
import LiveWorkspace.Checking

namespace LiveWorkspace

/-! ### Workspaces -/

/-- Why a workspace cannot be opened, or stops. -/
inductive WorkspaceError where
  | untrackedDocument (p : Path)
  | invalidRoot (p : Path)
  | unresolvedRoot (p : Path) (cause : OsError)
  | closed
deriving DecidableEq, Repr

def WorkspaceError.message : WorkspaceError → String
  | .untrackedDocument p => s!"editor event for untracked document {p.spelling}"
  | .invalidRoot p => s!"workspace root is not a directory: {p.spelling}"
  | .unresolvedRoot p cause => s!"cannot resolve workspace root {p.spelling}: {cause.message}"
  | .closed => "workspace event loop has stopped"

/-- The message of a failure and those of what caused it. -/
def WorkspaceError.chain : WorkspaceError → List String
  | .unresolvedRoot p cause => [(unresolvedRoot p cause).message, cause.message]
  | err => [err.message]

/-- A project that is open: its root, its replica, the paths it looks after and the
    configuration in force. -/
structure Workspace where
  root : Path
  replica : Replica
  tracked : List Path := []
  config : ProjectConfig := {}
deriving DecidableEq, Repr

namespace Workspace

/-- Whether a path is looked after. -/
def tracks (w : Workspace) (p : Path) : Bool := w.tracked.any (·.same p)

/-- Look after a path. -/
def track (w : Workspace) (p : Path) : Workspace :=
  if w.tracks p then w else { w with tracked := w.tracked ++ [p] }

/-- Look after a path no more. -/
def release (w : Workspace) (p : Path) : Workspace :=
  { w with tracked := w.tracked.filter fun q => !q.same p }

theorem tracks_track (w : Workspace) (p q : Path) :
    (w.track p).tracks q = (w.tracks q || p.same q) := by
  simp only [track]
  split
  · rename_i h
    cases hpq : p.same q with
    | false => simp
    | true =>
      simp only [tracks, Path.same_comm _ p, Path.same_congr hpq, Path.same_comm q] at h
      simp only [tracks, h, Bool.or_true]
  · simp [tracks]

theorem tracks_release (w : Workspace) (p q : Path) :
    (w.release p).tracks q = (w.tracks q && !p.same q) := by
  simp only [tracks, release, List.any_filter]
  induction w.tracked with
  | nil => simp
  | cons r rest ih =>
    simp only [List.any_cons, ih]
    cases hr : r.same q with
    | false => simp
    | true =>
      rw [Path.same_congr hr, Path.same_comm q p]
      cases p.same q <;> simp

/-- The paths looked after, in their order. -/
def files (w : Workspace) : List Path := Path.sort w.tracked

/-- Where the copy of a path is in the replica. -/
def replicaPath (w : Workspace) (p : Path) : Path := w.replica.pathOf (p.relativeTo w.root)

/-- The path of the file that configures the project. -/
def configPath (w : Workspace) : Path := w.root.child configFileName

/-- The units that are looked after, seen from the root. -/
def units (w : Workspace) : List Path :=
  (w.files.filter fun p => FileKind.ofPath p = .unit).map (·.relativeTo w.root)

end Workspace

/-! ### The desk -/

/-- The shared state and one workspace. -/
structure Desk where
  shared : Shared
  workspace : Workspace

/-- Work on the shared part of a desk. -/
def Desk.onShared {α : Type} (act : Act Shared α) : Act Desk α := fun d =>
  match act d.shared with
  | .ok a s => .ok a { d with shared := s }
  | .error e s => .error e { d with shared := s }

instance : MonadLift (EStateM Crash Shared) (EStateM Crash Desk) := ⟨Desk.onShared⟩

namespace Desk

def track (p : Path) : Act Desk Unit := modify fun d => { d with workspace := d.workspace.track p }

def release (p : Path) : Act Desk Unit :=
  modify fun d => { d with workspace := d.workspace.release p }

/-- Let the replica do something, and report a failure. Says whether it succeeded. -/
def onReplica (op : ReplicaOp Unit) (failure : String) : Act Desk Bool := do
  match ← Shared.onDisk op with
  | .ok _ => return true
  | .error _ =>
    Shared.report (.error failure)
    return false

/-! ### Configuration and diagnostics -/

variable (checks : Checkers)

/-- Bring the configuration in line with the document that holds it. -/
def loadConfig : Act Desk Unit := do
  let d ← get
  let content := (d.shared.store.get? d.workspace.configPath).map (·.content)
  let (document, reports) := ProjectConfig.ofDocument content
  reports.forM fun r => (Shared.report r : Act Shared Unit)
  modify fun d =>
    { d with workspace := { d.workspace with config := document.withUnits d.workspace.units } }

/-- Compile the files that the configuration names. -/
def compile : Act Desk Unit := do
  let w := (← get).workspace
  Shared.compile checks w.root w.replica.dir w.config

/-- Check a document and, if it is one of the compiler's language, compile. -/
def diagnose (p : Path) : Act Desk Unit := do
  if ← Shared.check checks p then compile checks

/-- Check all documents that are looked after, then compile. -/
def diagnoseAll : Act Desk Unit := do
  (← get).workspace.files.forM fun p => do
    let _ ← Shared.check checks p
  compile checks

/-- Take up a changed configuration. -/
def reloadConfig : Act Desk Unit := do
  Shared.report (.info "Project config changed, reloading")
  loadConfig
  diagnoseAll checks

end Desk

end LiveWorkspace
