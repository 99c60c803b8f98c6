/-
  LiveWorkspace/Session/Basic.lean
  ================================
  **A session: one editor, its documents, and the workspaces it has open.**

  The documents of all workspaces live in one store, and all replicas below one
  directory, which is made when the session starts.  A path belongs to the open
  workspace with the longest root above it; a path below no root belongs to none.
-/
import LiveWorkspace.Session.Settings
import LiveWorkspace.Workspace.Running

namespace LiveWorkspace

/-! ### Failures -/

/-- Why a session, or something asked of it, fails. -/
inductive SessionError where
  | noReplicaDirectory (cause : OsError)
  | cannotOpen (root : Path) (cause : WorkspaceError)
  | store (err : StoreError)
  | loopStopped (root : Path)
  | endedBadly (root : Path) (cause : WorkspaceError)
deriving DecidableEq, Repr

def SessionError.message : SessionError → String
  | .noReplicaDirectory _ => "Failed to create mirror directory"
  | .cannotOpen root _ => s!"Failed to open workspace {root.spelling}"
  | .store err => err.message
  | .loopStopped root => s!"Workspace event loop for {root.spelling} has stopped"
  | .endedBadly root _ => s!"Workspace {root.spelling} ended with an error"

/-- The messages of what caused a failure, the nearest cause first. -/
def SessionError.causes : SessionError → List String
  | .noReplicaDirectory cause => [cause.message]
  | .cannotOpen _ cause | .endedBadly _ cause => cause.chain
  | .store _ | .loopStopped _ => []

/-! ### Sessions -/

/-- A session: its settings, the directory that holds its replicas, the open workspaces,
    what they share, and the roots of those whose loops have been given work, the one
    that has waited longest first. -/
structure Session where
  settings : Settings
  replicaRoot : Path
  shared : Shared
  workspaces : List Running := []
  ready : List Path := []

namespace Session

/-! ### Routing -/

/-- The roots of the open workspaces, in their order. -/
def roots (ses : Session) : List Path := Path.sort (ses.workspaces.map (·.workspace.root))

/-- The one of two running workspaces with the longer root, the second one if they are
    equally long. -/
def longer (a b : Running) : Running :=
  if a.workspace.root.spelling.utf8ByteSize ≤ b.workspace.root.spelling.utf8ByteSize then b else a

/-- The workspace that a path belongs to. -/
def owner? (ses : Session) (p : Path) : Option Running :=
  match ses.workspaces.filter fun r => p.startsWith r.workspace.root with
  | [] => none
  | r :: rest => some (rest.foldl longer r)

/-- Put a running workspace in the place of the one with its root. -/
def replace (ses : Session) (r : Running) : Session :=
  { ses with workspaces := ses.workspaces.map fun q =>
      if q.workspace.root = r.workspace.root then r else q }

/-! ### Work in a session -/

/-- Work on what the workspaces share. -/
def onShared {α : Type} (act : Act Shared α) : Act Session α := fun ses =>
  match act ses.shared with
  | .ok a s => .ok a { ses with shared := s }
  | .error e s => .error e { ses with shared := s }

instance : MonadLift (EStateM Crash Shared) (EStateM Crash Session) := ⟨onShared⟩

end Session

end LiveWorkspace
