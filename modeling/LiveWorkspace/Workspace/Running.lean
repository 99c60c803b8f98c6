/-
  LiveWorkspace/Workspace/Running.lean
  ====================================
  **A running workspace: a queue of editor events and one handler at a time.**

  Everything that changes a workspace is done by its loop, one event after the other.
  Editor events wait in a queue; events of the disk come when they come.  The loop ends
  when it is told to, when there will be no more events of the disk, when an editor's
  event has no document, or when a checker breaks down; what is still queued then is
  never handled.
-/
import LiveWorkspace.Workspace.DiskEvents
import LiveWorkspace.Workspace.EditorEvents
import LiveWorkspace.Workspace.Opening

namespace LiveWorkspace

/-! ### Running workspaces -/

/-- How a loop ended. -/
inductive Ending where
  | stopped
  | failed (err : WorkspaceError)
  | crashed
deriving DecidableEq, Repr

/-- A workspace with its loop: the events that wait, and how the loop ended if it did. -/
structure Running where
  workspace : Workspace
  queue : List EditorEvent := []
  ending : Option Ending := none
deriving DecidableEq, Repr

namespace Running

def isAlive (r : Running) : Bool := r.ending.isNone

/-- End the loop. Only the first ending counts. -/
def finish (r : Running) (how : Ending) : Running :=
  if r.isAlive then { r with queue := [], ending := some how } else r

/-- The most editor events that wait at a time. -/
def capacity : Nat := 64

variable (checks : Checkers)

/-! ### Steps of the loop -/

/-- Let the loop do some work on its workspace, during which a checker may break down. -/
def work {α : Type} (r : Running) (s : Shared) (act : Act Desk α) (next : α → Running → Running) :
    Running × Shared :=
  match act ⟨s, r.workspace⟩ with
  | .ok a d => (next a { r with workspace := d.workspace }, d.shared)
  | .error _ d => ({ r with workspace := d.workspace }.finish .crashed, d.shared)

/-- Handle a change on the disk. -/
def handleDisk (r : Running) (e : Watch.Event) (s : Shared) : Running × Shared :=
  if r.isAlive then r.work s (Desk.onDiskEvent checks e) (fun _ r => r) else (r, s)

/-- Handle a failure of the watch. -/
def handleWatchFailure (r : Running) (s : Shared) : Running × Shared :=
  if r.isAlive then (r, { s with reports := s.reports ++ [.warning "Watcher error"] }) else (r, s)

/-- Handle the editor event that has waited longest. -/
def handleNext (r : Running) (s : Shared) : Running × Shared :=
  match r.isAlive, r.queue with
  | true, e :: rest =>
    let (r, s) := { r with queue := rest }.work s (Desk.onEditorEvent checks e) fun outcome r =>
      match outcome with
      | .ok _ => r
      | .error err => r.finish (.failed err)
    match r.ending with
    | some (.failed _) => (r, { s with reports := s.reports ++ [.error "Stopping workspace event loop"] })
    | _ => (r, s)
  | _, _ => (r, s)

/-- Handle a number of editor events. -/
def handleMany : (count : Nat) → Running → Shared → Running × Shared
  | 0, r, s => (r, s)
  | count + 1, r, s =>
    let (r, s) := r.handleNext checks s
    handleMany count r s

/-- Handle all editor events that wait. -/
def settle (r : Running) (s : Shared) : Running × Shared := handleMany checks r.queue.length r s

/-! ### The other side of the queue -/

/-- Queue an editor event. When the queue is full, the loop gets to work first, and a
    place in the queue becomes free at once. Fails when the loop has ended before. -/
def submit (r : Running) (e : EditorEvent) (s : Shared) : Except WorkspaceError Unit × Running × Shared :=
  if !r.isAlive then (.error .closed, r, s)
  else
    let (r, s) := if capacity ≤ r.queue.length then r.settle checks s else (r, s)
    (.ok (), if r.isAlive then { r with queue := r.queue ++ [e] } else r, s)

/-- End the loop and say what it ended with, if not by being told to. -/
def shutdown (r : Running) (s : Shared) : Except WorkspaceError Unit × Shared :=
  match r.ending with
  | none | some .stopped => (.ok (), s)
  | some (.failed err) => (.error err, s)
  | some .crashed =>
    (.error .closed, { s with reports := s.reports ++ [.error "Workspace event loop panicked"] })

end Running

end LiveWorkspace
