/-
  LiveWorkspace/Workspace/Tracking.lean
  =====================================
  **Taking files up and letting them go.**

  A file is taken up with a document and a place among the tracked paths, and its copy
  in the replica is written from the document.  Letting go works on subtrees, and always
  spares what an editor has open: such a document keeps its text and its place, and
  whatever befell its copy in the replica is mended afterwards.
-/
import LiveWorkspace.Workspace.Basic

namespace LiveWorkspace.Desk

variable (checks : Checkers)

/-! ### Taking up -/

/-- Write the copy of a document into the replica. -/
def syncReplica (p : Path) : Act Desk Unit := do
  let d ← get
  match d.shared.store.get? p with
  | none => pure ()
  | some doc =>
    let _ ← onReplica (Replica.write (d.workspace.replicaPath p) (Text.Utf8.encode doc.content))
      "Failed to write mirror file"

/-- Take up a file. A document that is there already and not open is read again. -/
def trackFile (p : Path) : Act Desk Unit := do
  let w := (← get).workspace
  let isNew ← Shared.openPath p w.root false none (w.replicaPath p)
  if !isNew && !(← get).shared.store.isOpen p then
    let _ ← Shared.reload p
  track p

/-- Copy a directory into the replica, without what it holds, and watch it. -/
def adoptDir (dir : Path) : Act Desk Unit := do
  let target := (← get).workspace.replicaPath dir
  let _ ← onReplica (do Replica.createDir target (← Replica.modeOf dir)) "Failed to mirror directory"
  modify fun d => { d with shared := { d.shared with watched := d.shared.watched ++ [dir] } }

/-- Take up a file and check it. -/
def adoptFile (p : Path) : Act Desk Unit := do
  trackFile p
  syncReplica p
  let _ ← Shared.check checks p

/-- Take up a directory with all below it. -/
def trackDir (dir : Path) : Act Desk Unit := do
  let tree ← Shared.tree dir
  tree.dirs.forM adoptDir
  tree.files.forM (adoptFile checks)
  if !tree.files.isEmpty then compile checks

/-! ### Letting go -/

/-- Drop the document of a path, if it has one. -/
def dropDocuments (ps : List Path) : Act Desk (List Document) := do
  let dropped ← ps.mapM fun p => (Shared.dropDocument p : Act Shared (Option Document))
  return dropped.filterMap id

/-- Let go of a path and all below it, except for what an editor has open, and give
    back the documents dropped. -/
def untrack (p : Path) : Act Desk (List Document) := do
  let d ← get
  let gone := d.workspace.files.filter fun q => q.startsWith p && !d.shared.store.isOpen q
  gone.forM release
  let below ← dropDocuments gone
  let own ← if (← get).shared.store.isOpen p then pure [] else dropDocuments [p]
  return below ++ own

/-- Let go of a path and take away the markers of what was dropped. -/
def untrackAndClear (p : Path) : Act Desk Unit := do
  (← untrack p).forM fun doc => (Shared.clear doc : Act Shared Unit)

/-- Write the copies of the open documents at and below a path again. -/
def resyncOpen (p : Path) : Act Desk Unit := do
  (← get).workspace.files.forM fun q => do
    if q.startsWith p && (← get).shared.store.isOpen q then syncReplica q

end LiveWorkspace.Desk
