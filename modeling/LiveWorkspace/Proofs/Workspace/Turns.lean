/-
  LiveWorkspace/Proofs/Workspace/Turns.lean
  =========================================
  **A workspace, its editor, and the disk, in turns.**

  An editor's call changes the store and hands events on; the loop handles the event that
  has waited longest, or one of the disk; others change the disk.  These come in any order
  (`Turn`).  A call hands its events on at once, so that what is still on its way counts as
  waiting, and how many events the queue takes at a time does not matter.

  A turn is fair when all paths lie in the workspace, others leave the replica alone, and no
  operation on the replica fails (`Fair`).  A fair turn keeps the agreement of the replica
  with the documents, but for what waits, unless a closing buries what is tracked below its
  path (`step_faithful`).
-/
import LiveWorkspace.Proofs.Workspace.Calls
import LiveWorkspace.Proofs.Workspace.Queue

namespace LiveWorkspace

/-! ### Turns -/

/-- A running workspace, with the disk and the documents. -/
structure Solo where
  running : Running
  shared : Shared

namespace Solo

/-- What may happen: a call of the editor, work of the loop, or a change of the disk by
    others. -/
inductive Turn where
  | call (c : Call)
  | handleNext
  | handleDisk (e : Watch.Event)
  | handleWatchFailure
  | disk (d : Disk)

variable (checks : Checkers)

/-- The desk of the loop. -/
def desk (s : Solo) : Desk := ⟨s.shared, s.running.workspace⟩

/-- Queue events. When the loop has ended they are lost. -/
def enqueue (s : Solo) (es : List EditorEvent) : Solo :=
  if s.running.isAlive then { s with running := { s.running with queue := s.running.queue ++ es } } else s

/-- What is left of a call. -/
def afterCall (s : Solo) (c : Call) : Solo :=
  match c.act s.running.workspace s.shared with
  | .ok es shared => { s with shared := shared }.enqueue es
  | .error _ shared => { s with shared := shared }

/-- A workspace with the shared state that some work of its loop has left. -/
def ofPair (x : Running × Shared) : Solo := ⟨x.1, x.2⟩

def step (s : Solo) : Turn → Solo
  | .call c => s.afterCall c
  | .handleNext => ofPair (s.running.handleNext checks s.shared)
  | .handleDisk e => ofPair (s.running.handleDisk checks e s.shared)
  | .handleWatchFailure => ofPair (s.running.handleWatchFailure s.shared)
  | .disk d => { s with shared := { s.shared with disk := d } }

/-- Something holds of every turn of a run. -/
def Along (P : Solo → Turn → Solo → Prop) (s : Solo) : List Turn → Prop
  | [] => True
  | turn :: rest => P s turn (s.step checks turn) ∧ Along P (s.step checks turn) rest

/-! ### Fair turns -/

/-- Others change the disk, but neither the replica nor the way to it. -/
structure Spared (m : Premises) (old new : Disk) : Prop where
  proper : new.Proper
  reached : ∀ d, Disk.SameOutside m.site.zone new d → ∃ mode, d.stat m.site.parent = .ok (m.site.base, .directory mode)
  zone : ∀ loc, m.site.zone <+: loc → new.get? loc = old.get? loc

/-- All paths of a turn lie in the workspace, and others leave the replica alone. -/
def Abides (m : Premises) (s : Solo) : Turn → Prop
  | .call c => m.root.Encloses c.path
  | .handleDisk e => Desk.Inside m e
  | .disk d => Spared m s.shared.disk d
  | .handleNext | .handleWatchFailure => True

/-- A fair turn: nothing is out of place, and no operation on the replica fails. -/
def Fair (m : Premises) (s : Solo) (turn : Turn) (s' : Solo) : Prop :=
  Abides m s turn ∧ s'.shared.failures = s.shared.failures

/-- In a turn the loop handles a closing that buries what is tracked below its path. -/
def Buries (s : Solo) (turn : Turn) : Prop :=
  turn = .handleNext ∧ ∃ e rest, s.running.queue = e :: rest ∧ Desk.BuriesNext rest e s.desk

/-- The replica agrees with the documents, but for what waits. -/
structure Faithful (m : Premises) (s : Solo) : Prop where
  agrees : Desk.Agrees m (waiting s.running.queue) s.desk
  paired : Paired s.running.queue
  inside : ∀ e ∈ s.running.queue, m.root.Encloses e.path

end Solo

/-! ### What calls do -/

namespace Call

variable {m : Premises} {w : Workspace} {c : Call} {queue : List EditorEvent} {s : Shared}

open Desk

theorem pending_events {q : Path} (hc : c ≠ .didClose c.path) (hsame : q.same c.path = true) :
    Pending c.events q := by
  rw [Path.same_comm] at hsame
  cases c with
  | didOpen p text => exact ⟨.opened p, List.mem_cons_self, rfl, hsame⟩
  | didChange p changes => exact ⟨.changed p, List.mem_cons_self, rfl, hsame⟩
  | didClose p => exact absurd rfl hc

theorem paired_events (c : Call) : Paired c.events := by
  cases c with
  | didOpen p text => exact ⟨List.mem_singleton_self _, trivial⟩
  | didChange p changes => trivial
  | didClose p => trivial

/-- A call revises its path's document within the gap that its events leave; what a closing marks
    leaves none. -/
theorem revise_agrees {r : Revision} (hr : r ∈ c.revisions) :
    Preserves (fun s => Agrees m (waiting (queue ++ c.events)) ⟨s, w⟩) (Shared.revise c.path r) := by
  intro s h
  rw [Shared.wp_revise]
  refine ⟨fun store hstore => ?_, fun _ => h.reported _⟩
  by_cases hc : c = .didClose c.path
  · rw [hc, revisions, List.mem_singleton] at hr
    subst hr
    exact h.marked hstore (fun _ => rfl) fun _ hopen => by cases hopen
  · refine (h.revised hstore).mono (fun q _ hs => hs.elim id fun hsame => ?_) (fun _ hu => hu) fun _ hn => hn
    exact pending_append_iff.mpr (.inr (pending_events hc hsame))

/-- Where no document is found, nothing of the path waits. -/
theorem agrees_of_missed (h : Agrees m (waiting (queue ++ c.events)) ⟨s, w⟩)
    (hnew : ∀ text, c ≠ .didOpen c.path text) (hout : s.store.contains c.path = false) :
    Agrees m (waiting queue) ⟨s, w⟩ := by
  refine h.mono (fun q hq hs => (pending_append_iff.mp hs).resolve_right ?_) (fun q hu => ?_) fun _ hn => hn
  · rintro ⟨e, he, -, hsame⟩
    have hin := h.known q hq
    rw [path_of_mem_events he] at hsame
    rw [Store.contains, ← Store.get?_congr _ hsame, ← Store.contains, hout] at hin
    cases hin
  · refine (List.mem_append.mp hu).resolve_right fun hopened => ?_
    obtain ⟨text, htext⟩ := eq_didOpen_of_mem_events hopened
    exact hnew text htext

/-- After a call, the agreement has the gaps of the events that it hands on, and no others. -/
theorem act_agrees (c : Call) (h : Agrees m (waiting queue) ⟨s, w⟩) :
    wp (c.act w) (fun es s' => Agrees m (waiting (queue ++ es)) ⟨s', w⟩ ∧ Paired es) (fun _ _ => False) s := by
  have hstart : Agrees m (waiting (queue ++ c.events)) ⟨s, w⟩ :=
    h.mono (fun _ _ hs => pending_append_iff.mpr (.inl hs)) (fun _ => List.mem_append_left _) fun _ hn => hn
  refine wp_imp (act_ends (T := fun s => Agrees m (waiting (queue ++ c.events)) ⟨s, w⟩) (fun _ => revise_agrees) ?_
    hstart) (fun es s' hs' => ?_) fun _ _ hf => hf
  · intro text hc hout
    -- However the document got there, its copy is written when the two events are handled.
    generalize hdoc : s.entered c.path w.root true none (w.replicaPath c.path) = doc
    have hpath : doc.path = c.path := hdoc ▸ rfl
    have hcopy : doc.replica = m.copyOf doc.path := by
      rw [hpath, ← h.replicaPath_eq c.path, ← hdoc]
      rfl
    rw [← hpath] at hout
    refine ((h.afterRead c.path).entered (by rwa [Shared.afterRead_store]) (by rw [Shared.afterRead_store]) hcopy).mono
      (fun q _ hs => pending_append_iff.mpr (hs.imp_right fun hsame => ?_)) (fun q hu => ?_) fun _ hn => hn
    · refine pending_events (fun hclose => ?_) (hpath ▸ hsame)
      rw [hclose] at hc
      cases hc
    · refine List.mem_append.mpr (hu.imp_right fun hq => ?_)
      rw [hq, hpath, hc]
      exact List.mem_cons_self
  · obtain ⟨hagrees, hends⟩ := hs'
    cases hends with
    | missed hnew hout => exact ⟨(List.append_nil queue).symm ▸ agrees_of_missed hagrees hnew hout, trivial⟩
    | served => exact ⟨hagrees, c.paired_events⟩

end Call

/-! ### What the loop does -/

namespace Running

theorem finish_of_isAlive {r : Running} (h : r.isAlive = true) (how : Ending) :
    r.finish how = { r with queue := [], ending := some how } := by
  rw [finish, if_pos h]

theorem isAlive_finish (r : Running) (how : Ending) : (r.finish how).isAlive = false := by
  by_cases h : r.isAlive = true
  · rw [finish_of_isAlive h]
    rfl
  · rw [finish, if_neg h]
    exact Bool.eq_false_iff.mpr h

end Running

namespace Solo

variable (checks : Checkers) {m : Premises} {s : Solo} {turn : Turn}

/-- What the loop leaves when it has handled an event of the editor. -/
theorem step_handleNext {e : EditorEvent} {rest : List EditorEvent} (halive : s.running.isAlive = true)
    (hqueue : s.running.queue = e :: rest) :
    (s.step checks .handleNext).shared.failures = (Desk.after (Desk.onEditorEvent checks e) s.desk).shared.failures
      ∧ (s.step checks .handleNext).shared.compiled
        = (Desk.after (Desk.onEditorEvent checks e) s.desk).shared.compiled
      ∧ ((s.step checks .handleNext).running.isAlive = true → ∃ d,
        Desk.onEditorEvent checks e s.desk = .ok (.ok ()) d
          ∧ s.step checks .handleNext = ⟨{ s.running with workspace := d.workspace, queue := rest }, d.shared⟩) := by
  have hdesk : (⟨s.shared, { s.running with queue := rest }.workspace⟩ : Desk) = s.desk := rfl
  unfold step Running.handleNext Running.work
  simp only [halive, hqueue]
  rw [hdesk]
  cases hrun : Desk.onEditorEvent checks e s.desk with
  | error err d =>
    rw [Desk.after_of_error hrun]
    have hr : ({ s.running with workspace := d.workspace, queue := rest } : Running).isAlive = true := halive
    simp only [Running.finish_of_isAlive hr, ofPair]
    exact ⟨trivial, trivial, fun h => by cases h⟩
  | ok outcome d =>
    rw [Desk.after_of_ok hrun]
    cases outcome with
    | ok _ =>
      have hending : s.running.ending = none := Option.isNone_iff_eq_none.mp halive
      simp only [hending, ofPair]
      exact ⟨trivial, trivial, fun _ => ⟨d, rfl, rfl⟩⟩
    | error err =>
      have hr : ({ s.running with workspace := d.workspace, queue := rest } : Running).isAlive = true := halive
      simp only [Running.finish_of_isAlive hr, ofPair]
      refine ⟨?_, trivial, fun h => by cases h⟩
      rw [Shared.failures_append]
      rfl

/-- Whether a checker has broken down or not, the loop leaves what the handler has. -/
theorem desk_step_handleDisk {e : Watch.Event} (halive : s.running.isAlive = true) :
    (s.step checks (.handleDisk e)).desk = Desk.after (Desk.onDiskEvent checks e) s.desk := by
  have hdesk : (⟨s.shared, s.running.workspace⟩ : Desk) = s.desk := rfl
  unfold step Running.handleDisk Running.work
  simp only [halive, if_true]
  rw [hdesk]
  cases hrun : Desk.onDiskEvent checks e s.desk with
  | error err d =>
    have hr : ({ s.running with workspace := d.workspace } : Running).isAlive = true := halive
    rw [Desk.after_of_error hrun]
    simp only [Running.finish_of_isAlive hr, ofPair]
    rfl
  | ok u d =>
    rw [Desk.after_of_ok hrun]
    rfl

/-- The loop goes on where no checker has broken down. -/
theorem isAlive_handleDisk {e : Watch.Event} {d : Desk} (halive : s.running.isAlive = true)
    (hrun : Desk.onDiskEvent checks e s.desk = .ok () d) : (s.step checks (.handleDisk e)).running.isAlive = true := by
  have hdesk : (⟨s.shared, s.running.workspace⟩ : Desk) = s.desk := rfl
  unfold step Running.handleDisk Running.work
  simp only [halive, if_true]
  rw [hdesk, hrun]
  exact halive

/-- What the loop leaves when it has handled an event of the disk. -/
theorem step_handleDisk {e : Watch.Event} (halive : s.running.isAlive = true) :
    (s.step checks (.handleDisk e)).shared = (Desk.after (Desk.onDiskEvent checks e) s.desk).shared
      ∧ ((s.step checks (.handleDisk e)).running.isAlive = true → ∃ d,
        Desk.onDiskEvent checks e s.desk = .ok () d
          ∧ s.step checks (.handleDisk e) = ⟨{ s.running with workspace := d.workspace }, d.shared⟩) := by
  have hdesk : (⟨s.shared, s.running.workspace⟩ : Desk) = s.desk := rfl
  refine ⟨congrArg Desk.shared (desk_step_handleDisk checks halive), ?_⟩
  unfold step Running.handleDisk Running.work
  simp only [halive, if_true]
  rw [hdesk]
  cases hrun : Desk.onDiskEvent checks e s.desk with
  | error err d =>
    intro h
    rw [ofPair, Running.isAlive_finish] at h
    cases h
  | ok u d => exact fun _ => ⟨d, rfl, rfl⟩

@[simp] theorem enqueue_shared (s : Solo) (es : List EditorEvent) : (s.enqueue es).shared = s.shared := by
  rw [enqueue]
  split <;> rfl

@[simp] theorem enqueue_ending (s : Solo) (es : List EditorEvent) : (s.enqueue es).running.ending = s.running.ending := by
  rw [enqueue]
  split <;> rfl

@[simp] theorem enqueue_workspace (s : Solo) (es : List EditorEvent) :
    (s.enqueue es).running.workspace = s.running.workspace := by
  rw [enqueue]
  split <;> rfl

theorem enqueue_of_alive {r : Running} (halive : r.isAlive = true) (shared : Shared) (es : List EditorEvent) :
    (Solo.mk r shared).enqueue es = ⟨{ r with queue := r.queue ++ es }, shared⟩ := if_pos halive

theorem mem_enqueue {es : List EditorEvent} {e : EditorEvent} (h : e ∈ (s.enqueue es).running.queue) :
    e ∈ s.running.queue ∨ e ∈ es := by
  unfold enqueue at h
  split at h
  · exact List.mem_append.mp h
  · exact .inl h

/-- A call ends, and what it hands on is for its path. -/
theorem afterCall_ends {c : Call} {Q : List EditorEvent → Shared → Prop} {E : Crash → Shared → Prop}
    (h : wp (c.act s.running.workspace) Q E s.shared) :
    ∃ es shared, Q es shared ∧ (∀ e ∈ es, e.path = c.path)
      ∧ s.afterCall c = ({ s with shared := shared } : Solo).enqueue es := by
  have hpaths := c.act_paths (w := s.running.workspace) s.shared
  unfold afterCall
  cases hact : c.act s.running.workspace s.shared with
  | error err shared => exact ((wp_of_error hact).mp hpaths).elim
  | ok es shared => exact ⟨es, shared, (wp_of_ok hact).mp h, (wp_of_ok hact).mp hpaths, rfl⟩

/-- A call compiles nothing, and does not end the loop. -/
theorem afterCall_eq (s : Solo) (c : Call) :
    (s.afterCall c).shared.compiled = s.shared.compiled ∧ (s.afterCall c).running.ending = s.running.ending := by
  obtain ⟨es, shared, hcompiled, -, hafter⟩ :=
    afterCall_ends (Call.act_compiled (w := s.running.workspace) c s.shared.compiled s.shared rfl)
  rw [hafter]
  exact ⟨by simp [hcompiled], by simp⟩

/-- A loop that has ended does nothing any more. -/
theorem step_of_ended (hended : s.running.isAlive = false) :
    (s.step checks turn).running.isAlive = false ∧ (s.step checks turn).shared.compiled = s.shared.compiled := by
  cases turn with
  | call c =>
    obtain ⟨hcompiled, hending⟩ := s.afterCall_eq c
    exact ⟨by rw [step, Running.isAlive, hending]; exact hended, hcompiled⟩
  | handleNext =>
    simp only [step, Running.handleNext, hended, ofPair, and_self]
  | handleDisk e =>
    simp only [step, Running.handleDisk, hended, Bool.false_eq_true, if_false, ofPair, and_self]
  | handleWatchFailure =>
    simp only [step, Running.handleWatchFailure, hended, Bool.false_eq_true, if_false, ofPair, and_self]
  | disk d => exact ⟨hended, rfl⟩

/-- A loop that runs after a turn ran before it. -/
theorem isAlive_of_step (halive : (s.step checks turn).running.isAlive = true) : s.running.isAlive = true := by
  cases hended : s.running.isAlive with
  | true => rfl
  | false => simp [(step_of_ended checks hended).1] at halive

/-! ### What a fair turn keeps -/

/-- The events that wait while a turn is under way. -/
def left (s : Solo) : Turn → List EditorEvent
  | .handleNext => s.running.queue.tail
  | _ => s.running.queue

theorem afterCall_faithful {c : Call} (h : Faithful m s) (hc : m.root.Encloses c.path)
    (halive : s.running.isAlive = true) : Faithful m (s.afterCall c) := by
  obtain ⟨es, shared, ⟨hagrees, hpaired⟩, hpaths, hafter⟩ := afterCall_ends (Call.act_agrees c h.agrees)
  rw [hafter, enqueue_of_alive halive]
  refine ⟨hagrees, h.paired.append hpaired, fun e he => ?_⟩
  rcases List.mem_append.mp he with he | he
  · exact h.inside e he
  · rw [hpaths e he]
    exact hc

theorem disk_faithful {d : Disk} (h : Faithful m s) (hd : Spared m s.shared.disk d) :
    Faithful m { s with shared := { s.shared with disk := d } } := by
  refine ⟨h.agrees.of_disk ⟨h.agrees.stands.proper, hd.reached, fun loc target hloc => ?_⟩ hd.proper hd.zone,
    h.paired, h.inside⟩
  rw [hd.zone loc hloc]
  exact h.agrees.stands.unlinked loc target hloc

/-- What is known when a handler of an editor's event has run. -/
theorem handleNext_does {e : EditorEvent} {rest : List EditorEvent} (h : Faithful m s)
    (hqueue : s.running.queue = e :: rest)
    (hfailures : (Desk.after (Desk.onEditorEvent checks e) s.desk).shared.failures = s.shared.failures)
    (hspares : ¬ Desk.BuriesNext rest e s.desk) :
    Desk.Issued (s.desk.tally ((waiting rest).Fresh m)) (Desk.after (Desk.onEditorEvent checks e) s.desk)
      ∧ ∀ d, Desk.onEditorEvent checks e s.desk = .ok (.ok ()) d → Desk.Agrees m (waiting rest) d := by
  have hagrees := h.agrees
  have hpaired := h.paired
  have hinside := h.inside
  rw [hqueue] at hagrees hpaired hinside
  obtain ⟨hissued, hend⟩ := (Desk.onEditorEvent_does checks (hinside e List.mem_cons_self) hpaired
    fun _ hc => hc).run (Desk.steady_tally s.desk _) ⟨⟨hagrees, fun _ _ => trivial⟩, hspares⟩ (by
      rw [Desk.Spoilt, hfailures]
      exact Nat.lt_irrefl _)
  exact ⟨hissued, fun d hrun => ((hend _ d hrun).2 rfl).1⟩

/-- What is known when a handler of an event of the disk has run that moves no copy. -/
theorem handleDisk_does {e : Watch.Event} (h : Faithful m s) (hin : Desk.Inside m e)
    (hfailures : (Desk.after (Desk.onDiskEvent checks e) s.desk).shared.failures = s.shared.failures)
    (hmoves : ¬ Desk.MovesNext e s.desk) :
    Desk.Issued (s.desk.tally ((waiting s.running.queue).Fresh m)) (Desk.after (Desk.onDiskEvent checks e) s.desk)
      ∧ ∀ d, Desk.onDiskEvent checks e s.desk = .ok () d → Desk.Agrees m (waiting s.running.queue) d := by
  obtain ⟨hissued, hend⟩ := (Desk.onDiskEvent_does checks hin (waiting_regular s.running.queue)
    (fun _ hg => hg) fun _ hc => hc).run (Desk.steady_tally s.desk _) ⟨⟨h.agrees, fun _ _ => trivial⟩, hmoves⟩ (by
      rw [Desk.Spoilt, hfailures]
      exact Nat.lt_irrefl _)
  exact ⟨hissued, fun d hrun => (hend _ d hrun).2.1⟩

/-- The same of one that moves copies: what it compiles first may be missing. -/
theorem handleDisk_moves {e : Watch.Event} {source : Path} (h : Faithful m s) (hin : Desk.Inside m e)
    (hkind : e.kind = .created) (hsource : e.source = some source)
    (hclosed : s.shared.store.isOpen e.path = false) (hmoves : Desk.MovesCopy source e.path s.desk)
    (hfailures : (Desk.after (Desk.onDiskEvent checks e) s.desk).shared.failures = s.shared.failures) :
    ∃ first later,
      (Desk.after (Desk.renamed checks source e.path) s.desk).shared.compiled = s.shared.compiled ++ first
      ∧ (Desk.after (Desk.onDiskEvent checks e) s.desk).shared.compiled = s.shared.compiled ++ (first ++ later)
      ∧ (∀ c ∈ first, ((waiting s.running.queue).moved m source).Fresh m c)
      ∧ (∀ c ∈ later, (waiting s.running.queue).Fresh m c)
      ∧ ∀ d, Desk.onDiskEvent checks e s.desk = .ok () d → Desk.Agrees m (waiting s.running.queue) d := by
  have he : e = .renamed source e.path := by
    cases e
    cases hkind
    cases hsource
    rfl
  have hrun : Desk.onDiskEvent checks e s.desk = Desk.renamedNext checks source e.path s.desk := by
    conv => lhs; rw [he]
    exact Desk.onDiskEvent_renamed checks hclosed
  have hafter : Desk.after (Desk.onDiskEvent checks e) s.desk
      = Desk.after (Desk.renamedNext checks source e.path) s.desk := by
    rw [Desk.after, hrun, Desk.after]
  rw [hafter] at hfailures ⊢
  obtain ⟨first, later, hfirst, hall, hearly, hlate, hend⟩ := Desk.renamedNext_moves checks (hin.2 source hsource)
    hin.1 (waiting_regular s.running.queue) (fun _ hg => hg) ⟨h.agrees, fun _ _ => trivial⟩ hmoves hfailures
  exact ⟨first, later, hfirst, hall, hearly, hlate, fun d hd => (hend () d (hrun ▸ hd)).1⟩

/-- **A fair turn keeps the agreement, unless a closing buries what is tracked below its
    path.** -/
theorem step_faithful (h : Faithful m s) (halive : s.running.isAlive = true)
    (hfair : Fair m s turn (s.step checks turn)) (hspares : ¬ Buries s turn)
    (halive' : (s.step checks turn).running.isAlive = true) : Faithful m (s.step checks turn) := by
  obtain ⟨habides, hfailures⟩ := hfair
  cases turn with
  | call c => exact afterCall_faithful h habides halive
  | disk d => exact disk_faithful h habides
  | handleWatchFailure =>
    rw [step, Running.handleWatchFailure, if_pos halive]
    exact ⟨h.agrees.reported _, h.paired, h.inside⟩
  | handleNext =>
    cases hqueue : s.running.queue with
    | nil =>
      rw [step, Running.handleNext, halive, hqueue]
      exact h
    | cons e rest =>
      obtain ⟨hafter, -, hend⟩ := step_handleNext checks halive hqueue
      obtain ⟨d, hrun, hd⟩ := hend halive'
      obtain ⟨-, hagrees⟩ := handleNext_does checks h hqueue (hafter ▸ hfailures) fun hb =>
        hspares ⟨rfl, e, rest, hqueue, hb⟩
      have hpaired := h.paired
      have hinside := h.inside
      rw [hqueue] at hpaired hinside
      rw [hd]
      exact ⟨hagrees d hrun, hpaired.tail, fun x hx => hinside x (List.mem_cons_of_mem _ hx)⟩
  | handleDisk e =>
    obtain ⟨hafter, hend⟩ := step_handleDisk (e := e) checks halive
    obtain ⟨d, hrun, hd⟩ := hend halive'
    rw [hafter] at hfailures
    have hagrees : Desk.Agrees m (waiting s.running.queue) d := by
      by_cases hmoves : Desk.MovesNext e s.desk
      · obtain ⟨source, hkind, hsource, hclosed, hcopy⟩ := hmoves
        obtain ⟨-, -, -, -, -, -, hagrees⟩ := handleDisk_moves checks h habides hkind hsource hclosed hcopy hfailures
        exact hagrees d hrun
      · exact (handleDisk_does checks h habides hfailures hmoves).2 d hrun
    rw [hd]
    exact ⟨hagrees, h.paired, h.inside⟩

end Solo

end LiveWorkspace
