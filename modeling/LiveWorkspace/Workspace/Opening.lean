/-
  LiveWorkspace/Workspace/Opening.lean
  ====================================
  **Opening a workspace.**

  The root is resolved once and for all; the tree below it is copied into the replica,
  and every file in it that has no document yet gets one and is checked.  Then the
  configuration is read and the project compiled for the first time.
-/
import LiveWorkspace.Workspace.Tracking

namespace LiveWorkspace

namespace Desk

variable (checks : Checkers)

/-- Copy the workspace's tree into its replica. -/
def replicate : Act Desk Unit := do
  let d ← get
  let r := d.workspace.replica.replicate d.workspace.root d.shared.disk
  set { d with shared := { d.shared with disk := r.disk, reports := d.shared.reports ++ r.reports } }
  if 0 < r.failures then Shared.report (.warning "Workspace mirror is incomplete")

/-- Take up a file that was found in the workspace, unless it has a document. -/
def adoptFound (p : Path) : Act Desk Unit := do
  let w := (← get).workspace
  if ← Shared.openPath p w.root false none (w.replicaPath p) then
    track p
    let _ ← Shared.check checks p

/-- Fill a workspace that is new. -/
def populate : Act Desk Unit := do
  replicate
  let tree ← Shared.tree (← get).workspace.root
  tree.files.forM (adoptFound checks)
  loadConfig
  compile checks

end Desk

namespace Workspace

/-- A workspace as it is before anything has been found in it. -/
def ofRoot (root replicaRoot : Path) : Workspace := ⟨root, Replica.ofWorkspace replicaRoot root, [], {}⟩

/-- Open the workspace at a root, with its replica below a directory. -/
def create (checks : Checkers) (root replicaRoot : Path) :
    Act Shared (Except WorkspaceError Workspace) := do
  let disk := (← get).disk
  match disk.canonicalize root with
  | .error cause => return .error (.unresolvedRoot root cause)
  | .ok resolved =>
    if !disk.hasDirectory resolved then return .error (.invalidRoot resolved)
    fun s =>
      match Desk.populate checks ⟨s, ofRoot resolved replicaRoot⟩ with
      | .ok _ d => .ok (.ok d.workspace) d.shared
      | .error e d => .error e d.shared

end Workspace

end LiveWorkspace
