/-
  LiveWorkspace/Proofs/Session/UnknownDocuments.lean
  ==================================================
  **Calls on a path without a document are turned down.**

  Whether a path has a document is not asked before a call: the first revision of the
  store that fails ends it.  A close revises the store once, and a change once for each
  of its texts, so either is turned down before it reaches a workspace, with an error
  that names the path, and leaves nothing but a report (`turned_down_of_unknown`).

  A change without texts revises nothing.  It is handed on like any other, and the loop
  that handles it ends, since no document is there (`stopped_by_no_texts`).
-/
import LiveWorkspace.Proofs.Session.Routing

namespace LiveWorkspace

theorem StoreError.message_untracked (p : Path) :
    (StoreError.untracked p).message = "file not in file store: " ++ p.spelling := by
  unfold message
  dsimp only [toString]

namespace Running

variable (checks : Checkers) {p : Path} {s : Shared} {e : EditorEvent} {rest : List EditorEvent}

/-- An event without a document ends the loop, whatever the event and whatever waits behind it. -/
theorem handleNext_of_unknown (r : Running) (halive : r.isAlive = true) (hqueue : r.queue = e :: rest)
    (hout : s.store.contains e.path = false) :
    r.handleNext checks s = ({ r with queue := [], ending := some (.failed (.untrackedDocument e.path)) },
      { s with reports := s.reports ++ [.error "Editor event for file not in file store"]
          ++ [.error "Stopping workspace event loop"] }) := by
  have hevent : Desk.onEditorEvent checks e ⟨s, r.workspace⟩ = .ok (.error (.untrackedDocument e.path))
      ⟨{ s with reports := s.reports ++ [.error "Editor event for file not in file store"] }, r.workspace⟩ := by
    apply ok_of_wp
    rw [Desk.onEditorEvent, wp_bind, wp_get]
    simp only [hout, Bool.not_false, if_true]
    rw [wp_bind, wp_onShared, Shared.report, wp_modify, wp_pure]
    exact ⟨rfl, rfl⟩
  have hnone : r.ending = none := Option.isNone_iff_eq_none.mp halive
  unfold handleNext work
  simp only [hqueue, hevent, finish, isAlive, hnone, Option.isNone_none, if_true]

end Running

namespace Session

variable (checks : Checkers) {ses : Session} {p : Path} {r : Running}

/-! ### Revisions -/

/-- The session with one more report of an error. -/
def noting (ses : Session) (text : String) : Session :=
  { ses with shared := { ses.shared with reports := ses.shared.reports ++ [.error text] } }

/-- A revision of a path without a document is turned down. -/
theorem wp_revise_unknown (hout : ses.shared.store.contains p = false) (v : Revision)
    {Q : Except SessionError Unit → Session → Prop} {E : Crash → Session → Prop} :
    wp (revise p v) Q E ses
      ↔ Q (.error (.store (.untracked p))) (ses.noting s!"Cannot {v.verb} file not in file store") := by
  have hrevise : ses.shared.store.revise? p v = .error (.untracked p) :=
    Store.revise?_eq_error_iff.mpr ⟨hout, rfl⟩
  rw [revise, wp_bind, wp_onShared_session, Shared.revise, wp_bind, wp_get]
  simp only [hrevise]
  rw [wp_bind, Shared.report, wp_modify, wp_pure, wp_pure]
  rfl

/-- All changes of a text are modifications. -/
theorem TextChange.verb_revision (c : TextChange) : c.revision.verb = "modify" := by
  rw [TextChange.revision]
  split <;> rfl

/-! ### Calls -/

theorem didChange_of_unknown (hout : ses.shared.store.contains p = false) (c : TextChange) (rest : List TextChange) :
    didChange checks p (c :: rest) ses
      = .ok (.error (.store (.untracked p))) (ses.noting "Cannot modify file not in file store") := by
  apply ok_of_wp
  rw [didChange, wp_bind, applyChanges, wp_bind, wp_revise_unknown hout, TextChange.verb_revision, wp_pure, wp_pure]
  exact ⟨rfl, rfl⟩

theorem didClose_of_unknown (hout : ses.shared.store.contains p = false) :
    didClose checks p ses
      = .ok (.error (.store (.untracked p))) (ses.noting "Cannot close file not in file store") := by
  apply ok_of_wp
  rw [didClose, wp_bind, wp_revise_unknown hout, wp_pure]
  exact ⟨rfl, rfl⟩

/-- A change without texts does nothing on a path of no workspace. -/
theorem didChange_nothing_outside (hout : ses.shared.store.contains p = false) (howner : ses.owner? p = none) :
    didChange checks p [] ses = .ok (.ok ()) ses := by
  apply ok_of_wp
  have hnone : ses.shared.store.get? p = none := by simpa [Store.contains] using hout
  rw [didChange, wp_bind, applyChanges, wp_pure]
  simp only [wp_bind, wp_get, howner, Option.isNone_none, if_true]
  rw [wp_onShared_session, Shared.check, wp_bind, wp_get]
  simp only [hnone]
  rw [wp_pure, wp_pure]
  exact ⟨rfl, rfl⟩

/-- A change without texts is queued with the workspace of its path. -/
theorem didChange_nothing_inside (howner : ses.owner? p = some r) (halive : r.isAlive = true)
    (hroom : r.queue.length < Running.capacity) :
    ∃ ses', didChange checks p [] ses = .ok (.ok ()) ses' ∧ ses'.shared = ses.shared
      ∧ ses'.owner? p = some { r with queue := r.queue ++ [.changed p] } := by
  have hsubmit : r.submit checks (.changed p) ses.shared
      = (.ok (), { r with queue := r.queue ++ [.changed p] }, ses.shared) := by
    simp [Running.submit, halive, Nat.not_le.mpr hroom]
  let ready := if ses.ready.contains r.workspace.root then ses.ready else ses.ready ++ [r.workspace.root]
  refine ⟨{ ses with ready := ready }.replace { r with queue := r.queue ++ [EditorEvent.changed p] }, ?_, rfl, ?_⟩
  · apply ok_of_wp
    rw [didChange, wp_bind, applyChanges, wp_pure]
    simp only [wp_bind, wp_get, howner, Option.isNone_some, Bool.false_eq_true, if_false]
    rw [submit, wp_bind, wp_get]
    simp only [EditorEvent.path, howner, hsubmit]
    rw [wp_bind, wp_set, wp_pure]
    exact ⟨rfl, rfl⟩
  · exact owner?_replace (s := ses.shared) howner rfl

/-- **Changes and closes of a path without a document are turned down.**  In any session, and
    wherever the path lies, a close and a change with at least one text fail with an error
    that names the path, and leave all but a report as it was.  A change without texts is not
    turned down.  Outside of all workspaces it does nothing.  In a workspace whose loop
    runs and has room it waits as the others do; and a loop that comes to any event for a
    path without a document ends, with all that still waits. -/
theorem turned_down_of_unknown (ses : Session) (p : Path) (hout : ses.shared.store.contains p = false) :
    let refusal : SessionError := .store (.untracked p)
    refusal.message = "file not in file store: " ++ p.spelling
      ∧ (∀ c rest, didChange checks p (c :: rest) ses
          = .ok (.error refusal) (ses.noting "Cannot modify file not in file store"))
      ∧ didClose checks p ses = .ok (.error refusal) (ses.noting "Cannot close file not in file store")
      ∧ (ses.owner? p = none → didChange checks p [] ses = .ok (.ok ()) ses)
      ∧ ∀ r, ses.owner? p = some r → r.isAlive = true → r.queue.length < Running.capacity →
          (∃ ses', didChange checks p [] ses = .ok (.ok ()) ses' ∧ ses'.shared = ses.shared
            ∧ ses'.owner? p = some { r with queue := r.queue ++ [.changed p] })
          ∧ ∀ rest s, s.store.contains p = false →
              ({ r with queue := .changed p :: rest }.handleNext checks s).1
                = { r with queue := [], ending := some (.failed (.untrackedDocument p)) } := by
  intro refusal
  constructor
  · exact StoreError.message_untracked p
  constructor
  · exact didChange_of_unknown checks hout
  constructor
  · exact didClose_of_unknown checks hout
  constructor
  · exact didChange_nothing_outside checks hout
  · intro r howner halive hroom
    refine ⟨didChange_nothing_inside checks howner halive hroom, fun rest s hs => ?_⟩
    exact congrArg Prod.fst
      (Running.handleNext_of_unknown checks { r with queue := .changed p :: rest } halive rfl hs)

/-- A change in an open workspace, of a file that is not there, is turned down. -/
theorem turned_down_while_open :
    let checks : Checkers := ⟨fun _ _ => some [], fun _ _ => []⟩
    let ses := (inHarbor projectDisk).step checks (.openWorkspace ⟨"/w"⟩)
    let p : Path := ⟨"/w/s/b.dsp"⟩
    (ses.owner? p).isSome = true ∧ didChange checks p [⟨none, "x"⟩] ses
      = .ok (.error (.store (.untracked p))) (ses.noting "Cannot modify file not in file store") := by
  intro checks ses p
  have hout : ses.shared.store.contains p = false := by decide +kernel
  obtain ⟨-, hchange, -⟩ := turned_down_of_unknown checks ses p hout
  exact ⟨by decide +kernel, hchange ⟨none, "x"⟩ []⟩

/-- **A change without texts ends a workspace.**  It is for a file that is not there, and
    succeeds; the loop that handles it stops. -/
theorem stopped_by_no_texts :
    let checks : Checkers := ⟨fun _ _ => some [], fun _ _ => []⟩
    let ses := (inHarbor projectDisk).step checks (.openWorkspace ⟨"/w"⟩)
    let p : Path := ⟨"/w/s/b.dsp"⟩
    let changed := ses.step checks (.didChange p [])
    ses.shared.store.contains p = false
      ∧ (match didChange checks p [] ses with
        | .ok (.ok _) _ => true
        | .ok (.error _) _ | .error _ _ => false) = true
      ∧ (ses.owner? p).map (·.queue) = some [] ∧ (changed.owner? p).map (·.queue) = some [.changed p]
      ∧ (ses.owner? p).map (·.ending) = some none
      ∧ ((changed.step checks (.handleNext ⟨"/w"⟩)).owner? p).map (·.ending)
          = some (some (.failed (.untrackedDocument p))) := by
  decide +kernel

end Session

end LiveWorkspace
