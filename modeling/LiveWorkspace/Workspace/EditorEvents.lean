/-
  LiveWorkspace/Workspace/EditorEvents.lean
  =========================================
  **What a workspace does about an editor's documents.**

  By the time a workspace hears of it, the document has been changed in the store.
  What is left to do concerns the replica, the tracked paths and the diagnostics.  An
  event for a path without a document breaks the agreement between the two sides, and
  is the one failure that stops a workspace.
-/
import LiveWorkspace.Workspace.Tracking

namespace LiveWorkspace

/-- What an editor did with a document. -/
inductive EditorEvent where
  | opened (p : Path)
  | changed (p : Path)
  | closed (p : Path)
deriving DecidableEq, Repr

def EditorEvent.path : EditorEvent → Path
  | .opened p | .changed p | .closed p => p

namespace Desk

variable (checks : Checkers)

/-- A document was opened: it is looked after, and its copy starts out empty. -/
def editorOpened (p : Path) : Act Desk Unit := do
  track p
  let target := (← get).workspace.replicaPath p
  let _ ← onReplica (do Replica.ensureParent target; Replica.createEmptyFile target none)
    "Failed to create mirror file"

/-- A document was changed: its copy gets its text. -/
def editorChanged (p : Path) : Act Desk Unit := do
  if (← get).shared.store.contains p then
    syncReplica p
    diagnose checks p

/-- A document was closed, and not opened again since. If the disk has no such file,
    nothing of it is kept; else the disk's text counts from now on. -/
def editorClosed (p : Path) : Act Desk Unit := do
  let d ← get
  if !d.shared.store.isOpen p then
    if !d.shared.disk.hasPath p then
      release p
      match ← Shared.dropDocument p with
      | some doc => Shared.clear doc
      | none => pure ()
      let _ ← onReplica (Replica.remove (d.workspace.replicaPath p)) "Failed to remove mirror file"
    else
      match ← Shared.reload p with
      | .error _ => pure ()
      | .ok _ =>
        track p
        syncReplica p
        diagnose checks p

/-- Handle an editor's event. -/
def onEditorEvent (e : EditorEvent) : Act Desk (Except WorkspaceError Unit) := do
  if !(← get).shared.store.contains e.path then
    Shared.report (.error "Editor event for file not in file store")
    return .error (.untrackedDocument e.path)
  match e with
  | .opened p => editorOpened p
  | .changed p =>
    editorChanged checks p
    if p.isConfigFile then reloadConfig checks
  | .closed p =>
    editorClosed checks p
    if p.isConfigFile then reloadConfig checks
  return .ok ()

end Desk

end LiveWorkspace
