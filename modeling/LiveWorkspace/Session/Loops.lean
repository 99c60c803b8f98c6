/-
  LiveWorkspace/Session/Loops.lean
  ================================
  **Letting the loops of a session work, and ending them.**

  Session and loops run in turns.  The loops that have been given work get their turns
  in the order in which they were given it, and each turn lasts until nothing waits.
  At the end all loops are stopped in the order of their roots.
-/
import LiveWorkspace.Session.Basic

namespace LiveWorkspace.Session

/-! ### Working -/

variable (checks : Checkers)

/-- Let one loop do all that waits. -/
def settleOne (ses : Session) (root : Path) : Session :=
  match ses.workspaces.find? (·.workspace.root = root) with
  | none => ses
  | some r =>
    let (r, s) := r.settle checks ses.shared
    { ses with shared := s }.replace r

/-- Let all loops do all that waits. -/
def settle (ses : Session) : Session :=
  { ses.ready.foldl (settleOne checks) ses with ready := [] }

/-! ### Ending -/

/-- End one loop and close its workspace; `first` is the first failure so far. -/
def closeOne (state : Session × Option SessionError) (root : Path) : Session × Option SessionError :=
  let (ses, first) := state
  match ses.workspaces.find? (·.workspace.root = root) with
  | none => (ses, first)
  | some r =>
    let (outcome, s) := r.shutdown ses.shared
    let ses := { ses with shared := s, workspaces := ses.workspaces.filter (·.workspace.root ≠ root) }
    match outcome with
    | .ok _ => (ses, first)
    | .error cause =>
      let s := { ses.shared with reports := ses.shared.reports ++ [.error "Workspace ended with an error"] }
      ({ ses with shared := s }, first <|> some (.endedBadly root cause))

/-- End all loops, in the order of their roots, and say which failed first. -/
def shutdown (ses : Session) : Session × Option SessionError :=
  ses.roots.foldl closeOne (ses, none)

end LiveWorkspace.Session
