/-
  LiveWorkspace/Proofs/Session/Turns.lean
  =======================================
  **A session, its editor, its loops and the disk, in turns.**

  Calls of the editor, pieces of work of the loops and changes of the disk come in any
  order (`Turn`).  Each turn has a workspace that it works for, or none: a call that of the
  path it is about, and a loop its own (`Session.worksFor`).
-/
import LiveWorkspace.Proofs.Checking
import LiveWorkspace.Session.Documents
import LiveWorkspace.Session.Opening

namespace LiveWorkspace

/-! ### Turns -/

/-- What may happen to a session: a call of the editor, one piece of work of the loop at
    a root, or a change of the disk by others. -/
inductive Turn where
  | didOpen (p : Path) (text : String)
  | didChange (p : Path) (changes : List TextChange)
  | didClose (p : Path)
  | openWorkspace (root : Path)
  | diagnose (p : Path)
  | handleNext (root : Path)
  | handleDisk (root : Path) (event : Watch.Event)
  | handleWatchFailure (root : Path)
  | disk (d : Disk)

namespace Session

/-- The session after some work in it, also when a checker broke down in it. -/
def after {α : Type} (ses : Session) (act : Act Session α) : Session :=
  match act ses with
  | .ok _ ses' | .error _ ses' => ses'

/-- The session after one piece of work of the loop at a root. -/
def afterLoop (ses : Session) (root : Path) (work : Running → Shared → Running × Shared) : Session :=
  match ses.workspaces.find? (·.workspace.root = root) with
  | none => ses
  | some r => { ses with shared := (work r ses.shared).2 }.replace (work r ses.shared).1

variable (checks : Checkers)

/-- The session after a turn. -/
def step (ses : Session) : Turn → Session
  | .didOpen p text => ses.after (didOpen checks p text)
  | .didChange p changes => ses.after (didChange checks p changes)
  | .didClose p => ses.after (didClose checks p)
  | .openWorkspace root => ses.after (openWorkspace checks root)
  | .diagnose p => ses.after (diagnose checks p)
  | .handleNext root => ses.afterLoop root (·.handleNext checks)
  | .handleDisk root event => ses.afterLoop root (·.handleDisk checks event)
  | .handleWatchFailure root => ses.afterLoop root (·.handleWatchFailure)
  | .disk d => { ses with shared := { ses.shared with disk := d } }

/-- The session after some turns. -/
def run (ses : Session) (turns : List Turn) : Session := turns.foldl (step checks) ses

theorem run_append (ses : Session) (turns more : List Turn) :
    ses.run checks (turns ++ more) = (ses.run checks turns).run checks more := List.foldl_append

/-- A revision of a path that has a document succeeds. -/
theorem wp_revise {p : Path} {r : Revision} {Q : Except SessionError Unit → Session → Prop}
    {E : Crash → Session → Prop} {ses : Session} (hin : ses.shared.store.contains p = true)
    (h : ∀ store, ses.shared.store.revise? p r = .ok store →
      Q (.ok ()) { ses with shared := { ses.shared with store := store } }) :
    wp (revise p r) Q E ses := by
  simp only [revise, wp_bind, wp_onShared_session, Shared.wp_revise, hin, Bool.true_eq_false,
    false_implies, and_true, wp_pure]
  exact h

/-! ### Whom a turn works for -/

/-- The root of the workspace that a turn works for, if there is one. A look at the
    diagnostics of a path changes no workspace, and others work for none. -/
def worksFor (ses : Session) : Turn → Option Path
  | .didOpen p _ | .didChange p _ | .didClose p => (ses.owner? p).map (·.workspace.root)
  | .openWorkspace root => (ses.shared.disk.canonicalize root).toOption
  | .handleNext root | .handleDisk root _ | .handleWatchFailure root => some root
  | .diagnose _ | .disk _ => none

/-- Each turn of a run has a property at the session that it finds. -/
def Along (P : Session → Turn → Prop) : Session → List Turn → Prop
  | _, [] => True
  | ses, t :: turns => P ses t ∧ Along P (ses.step checks t) turns

/-- What each turn keeps of a session that bears it, a run keeps. -/
theorem run_keeps {I : Session → Prop} {P : Session → Turn → Prop}
    (hstep : ∀ ses t, I ses → P ses t → I (ses.step checks t)) {ses : Session} {turns : List Turn} (hses : I ses)
    (hturns : Along checks P ses turns) : I (ses.run checks turns) := by
  induction turns generalizing ses with
  | nil => exact hses
  | cons t turns ih => exact ih (hstep ses t hses hturns.1) hturns.2

end Session

end LiveWorkspace
