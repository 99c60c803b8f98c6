/-
  LiveWorkspace/Session/Documents.lean
  ====================================
  **What an editor does with its documents.**

  A notification first changes the store and is then queued with the workspace that the
  path belongs to; it does not wait until the workspace has handled it.  A document
  outside all workspaces is only checked, and dropped when it is closed.  A document
  that the store does not have can be neither changed nor closed.
-/
import LiveWorkspace.Session.Basic

namespace LiveWorkspace

/-! ### Changes of a text -/

/-- A change of a document: a new text for all of it, or for a range. -/
structure TextChange where
  range : Option (Text.LineCol × Text.LineCol)
  text : String
deriving DecidableEq, Repr

def TextChange.revision (c : TextChange) : Revision :=
  match c.range with
  | some (start, stop) => .edit start stop c.text
  | none => .replace c.text

namespace Session

variable (checks : Checkers)

/-! ### Handing on to a workspace -/

/-- Queue an editor event with the workspace that its path belongs to, if there is one. -/
def submit (e : EditorEvent) : Act Session (Except SessionError Unit) := do
  let ses ← get
  match ses.owner? e.path with
  | none => return .ok ()
  | some r =>
    let (outcome, r, s) := r.submit checks e ses.shared
    let root := r.workspace.root
    let ready := if ses.ready.contains root then ses.ready else ses.ready ++ [root]
    set ({ ses with shared := s, ready := ready }.replace r)
    match outcome with
    | .ok _ => return .ok ()
    | .error _ => return .error (.loopStopped r.workspace.root)

/-- Check a document, and compile the workspace it belongs to. -/
def diagnose (p : Path) : Act Session Unit := do
  let ses ← get
  match ses.owner? p with
  | none =>
    let _ ← Shared.check checks p
  | some r =>
    fun ses =>
      match Desk.diagnose checks p ⟨ses.shared, r.workspace⟩ with
      | .ok a d => .ok a { ses with shared := d.shared }
      | .error e d => .error e { ses with shared := d.shared }

/-! ### Notifications of the editor -/

/-- Revise a document on behalf of the editor. -/
def revise (p : Path) (r : Revision) : Act Session (Except SessionError Unit) := do
  match ← Shared.revise p r with
  | .ok _ => return .ok ()
  | .error err => return .error (.store err)

/-- The editor opened a document. -/
def didOpen (p : Path) (text : String) : Act Session (Except SessionError Unit) := do
  let owner := (← get).owner? p
  let root := (owner.map (·.workspace.root)).getD ⟨""⟩
  let replica := (owner.map (·.workspace.replicaPath p)).getD ⟨""⟩
  let isNew ← Shared.openPath p root true none replica
  if !isNew then
    match ← revise p .reopen with
    | .error err => return .error err
    | .ok _ => pure ()
  match ← revise p (.replace text) with
  | .error err => return .error err
  | .ok _ => pure ()
  if owner.isNone then
    let _ ← Shared.check checks p
    return .ok ()
  match ← submit checks (.opened p) with
  | .error err => return .error err
  | .ok _ => submit checks (.changed p)

/-- Apply changes in their order until one fails. -/
def applyChanges (p : Path) : List TextChange → Act Session (Except SessionError Unit)
  | [] => return .ok ()
  | c :: rest => do
    match ← revise p c.revision with
    | .error err => return .error err
    | .ok _ => applyChanges p rest

/-- The editor changed a document. -/
def didChange (p : Path) (changes : List TextChange) : Act Session (Except SessionError Unit) := do
  match ← applyChanges p changes with
  | .error err => return .error err
  | .ok _ =>
    if ((← get).owner? p).isNone then
      let _ ← Shared.check checks p
      return .ok ()
    submit checks (.changed p)

/-- The editor closed a document. One outside all workspaces is dropped. -/
def didClose (p : Path) : Act Session (Except SessionError Unit) := do
  match ← revise p .close with
  | .error err => return .error err
  | .ok _ =>
    if ((← get).owner? p).isNone then
      match ← Shared.dropDocument p with
      | some doc => Shared.clear doc
      | none => pure ()
      return .ok ()
    submit checks (.closed p)

end Session

end LiveWorkspace
