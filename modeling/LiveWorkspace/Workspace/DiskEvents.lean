/-
  LiveWorkspace/Workspace/DiskEvents.lean
  =======================================
  **What a workspace does about changes on the disk.**

  An event only says that something happened to a path; it may be handled long after,
  so each handler looks at the disk as it is now.  Events for a path that an editor has
  open are ignored, since the editor's text counts until it is closed.  An event that
  touches the file with the project's configuration makes it be read again.
-/
import LiveWorkspace.Workspace.Tracking
import LiveWorkspace.Watch.Event

namespace LiveWorkspace.Desk

variable (checks : Checkers)

/-- Something appeared: a directory is taken up whole; a file is taken up, and gets a
    copy with its mode. -/
def created (p : Path) : Act Desk Unit := do
  match (← get).shared.disk.stat p with
  | .error _ => pure ()
  | .ok (_, e) =>
    if e.isDirectory then trackDir checks p
    else
      trackFile p
      let target := (← get).workspace.replicaPath p
      let made ← onReplica (do Replica.ensureParent target; Replica.createEmptyFile target (some e.mode))
        "Failed to create mirror file"
      if made then
        syncReplica p
        diagnose checks p

/-- Something got another path: its copy in the replica moves along, the old path is let
    go, and the new one is taken up. -/
def renamed (source target : Path) : Act Desk Unit := do
  let d ← get
  if d.shared.disk.hasPath target then
    let copy := d.workspace.replicaPath source
    if d.shared.disk.hasPath copy then
      let _ ← onReplica (Replica.rename copy (d.workspace.replicaPath target))
        "Failed to rename mirror entry"
    untrackAndClear source
    if (← get).shared.disk.hasDirectory target then trackDir checks target
    else
      trackFile target
      syncReplica target
      diagnose checks target
    resyncOpen source

/-- Something is gone: it is let go with all below it, and so is its copy. -/
def removed (p : Path) : Act Desk Unit := do
  untrackAndClear p
  let _ ← onReplica (Replica.remove ((← get).workspace.replicaPath p)) "Failed to remove mirror entry"
  resyncOpen p
  compile checks

/-- A file was written: its copy and its document get what it holds now. -/
def written (p : Path) : Act Desk Unit := do
  let disk := (← get).shared.disk
  if !disk.hasDirectory p then
    match disk.read p with
    | .error _ => pure ()
    | .ok bytes =>
      let content := Text.Utf8.decodeLossy bytes
      if !(← get).shared.store.contains p then trackFile p
      let _ ← onReplica (Replica.write ((← get).workspace.replicaPath p) (Text.Utf8.encode content))
        "Failed to write mirror file"
      match ← Shared.revise p (.replace content) with
      | .ok _ => diagnose checks p
      | .error _ => pure ()

/-- Handle a change on the disk. -/
def onDiskEvent (e : Watch.Event) : Act Desk Unit := do
  if !(← get).shared.store.isOpen e.path then
    match e.kind, e.source with
    | .created, some source => renamed checks source e.path
    | .created, none => created checks e.path
    | .written, _ => written checks e.path
    | .removed, _ => removed checks e.path
    if e.path.isConfigFile || e.source.any Path.isConfigFile then reloadConfig checks

end LiveWorkspace.Desk
