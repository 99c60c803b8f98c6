/-
  LiveWorkspace/Proofs/Workspace/Trailing.lean
  ============================================
  **What a call touches, an event waits for.**

  A call changes the document of its own path only, and hands on events for that path just
  when it does.  So what a handler relies on for one path is there unless an event for the
  path waits; and as the event whose handling leaves its path unfinished has another one for
  it behind (`Trailed`), the last event that waits for a path finishes it.
-/
import LiveWorkspace.Proofs.Workspace.Marking
import LiveWorkspace.Proofs.Workspace.Runs

namespace LiveWorkspace

/-! ### What waits -/

/-- An event for a path waits. -/
def Waits (queue : List EditorEvent) (p : Path) : Prop := ∃ e ∈ queue, e.path.same p = true

theorem waits_append_iff {queue es : List EditorEvent} {p : Path} :
    Waits (queue ++ es) p ↔ Waits queue p ∨ Waits es p := by
  simp only [Waits, List.mem_append, or_and_right, exists_or]

theorem waits_cons_iff {e : EditorEvent} {rest : List EditorEvent} {p : Path} :
    Waits (e :: rest) p ↔ e.path.same p = true ∨ Waits rest p := by
  simp only [Waits, List.mem_cons, exists_eq_or_imp]

/-- Each event that leaves its path to another one has one behind it. -/
def Trailed (s : Store) : List EditorEvent → Prop
  | [] => True
  | e :: rest => (e.Defers s → Waits rest e.path) ∧ Trailed s rest

theorem EditorEvent.Defers.imp {s s' : Store} {e : EditorEvent} {φ : Prop} (h : e.Defers s')
    (hopen : s'.isOpen e.path = true → s.isOpen e.path = true ∨ φ) : e.Defers s ∨ φ := by
  cases e with
  | opened p => exact .inl trivial
  | changed p => exact .inl h
  | closed p => exact hopen h

theorem Trailed.append {s s' : Store} {queue es : List EditorEvent} (h : Trailed s queue) (hes : Trailed s' es)
    (hopen : ∀ q, s'.isOpen q = true → s.isOpen q = true ∨ Waits es q) : Trailed s' (queue ++ es) := by
  induction queue with
  | nil => exact hes
  | cons e rest ih =>
    exact ⟨fun hdefers => waits_append_iff.mpr ((hdefers.imp (hopen e.path)).imp_left h.1), ih h.2⟩

theorem Trailed.mono {s s' : Store} {queue : List EditorEvent} (h : Trailed s queue)
    (hopen : ∀ q, s'.isOpen q = true → s.isOpen q = true) : Trailed s' queue := by
  have happend := @Trailed.append s s' queue [] h trivial fun q hq => .inl (hopen q hq)
  rwa [List.append_nil] at happend

/-- A document that is not open is not opened by a handler. -/
theorem Shared.closed_kept (q : Path) : Shared.Kept (fun s => s.store.isOpen q = false) fun _ => True where
  report _ _ h := h
  publish _ _ h := h
  mark _ _ _ _ h hstore := (Store.isOpen_of_revise? hstore (fun _ _ => rfl) q).trans h
  closed _ _ _ _ := trivial
  disk _ _ h := h
  watch _ _ h := h
  insert s doc hclosed h := by
    cases hin : s.store.contains doc.path with
    | true => simpa [Store.insert, hin] using h
    | false => simpa [Store.isOpen_insert_closed hin hclosed] using h
  erase s p _ h := by
    cases hsame : p.same q with
    | true => simp [Store.isOpen, ← Store.get?_congr _ hsame, Store.get?_erase_self]
    | false => simpa [Store.isOpen, Store.get?_erase_of_not_same _ hsame] using h
  revise s p r store _ hr h hstore := by
    rw [Store.isOpen, Store.get?_of_revise? hstore]
    split
    · cases hdoc : s.store.get? q with
      | none => rfl
      | some doc =>
        have hclosed : doc.isOpen = false := by simpa [Store.isOpen, hdoc] using h
        cases r <;> first | exact absurd rfl hr | simp [Document.revise, hclosed]
    · exact h

/-! ### Calls -/

namespace Call

variable {w : Workspace} {c : Call} {p q : Path} {es : List EditorEvent} {s₀ s : Shared}

theorem waits_events (hsame : c.path.same q = true) : Waits c.events q := by
  cases c with
  | didOpen p text => exact ⟨.opened p, List.mem_cons_self, hsame⟩
  | didChange p changes => exact ⟨.changed p, List.mem_cons_self, hsame⟩
  | didClose p => exact ⟨.closed p, List.mem_cons_self, hsame⟩

theorem trailed_events {s : Store} (hclosed : c = .didClose c.path → s.isOpen c.path = false) :
    Trailed s c.events := by
  cases c with
  | didOpen p text => exact ⟨fun _ => ⟨.changed p, List.mem_cons_self, Path.same_refl p⟩, False.elim, trivial⟩
  | didChange p changes => exact ⟨False.elim, trivial⟩
  | didClose p => exact ⟨fun hopen => absurd ((hclosed rfl).symm.trans hopen) Bool.false_ne_true, trivial⟩

/-- Only the document of a path has changed, and the path has one if it had one. -/
structure Changes (p : Path) (s₀ s : Shared) : Prop where
  disk : s.disk = s₀.disk
  apart : ∀ q, p.same q = false → s.store.get? q = s₀.store.get? q
  entered : s₀.store.contains p = true → s.store.contains p = true

theorem Changes.revised (h : Changes p s₀ s) {r : Revision} {store : Store} (hstore : s.store.revise? p r = .ok store) :
    Changes p s₀ { s with store := store } where
  disk := h.disk
  apart q hq := by
    rw [← h.apart q hq, Store.get?_of_revise? hstore, hq]
    rfl
  entered hin := (Store.contains_revise? hstore p).trans (h.entered hin)

/-- Each path has the document that it had, or an event waits for it. -/
structure Trails (s₀ : Shared) (es : List EditorEvent) (s : Shared) : Prop where
  disk : s.disk = s₀.disk
  apart : ∀ q, s.store.get? q = s₀.store.get? q ∨ Waits es q
  trailed : Trailed s.store es

theorem Trails.isOpen (h : Trails s₀ es s) (hopen : s.store.isOpen q = true) :
    s₀.store.isOpen q = true ∨ Waits es q := by
  refine (h.apart q).imp_left fun hsame => ?_
  rwa [Store.isOpen, ← hsame]

/-- Where nothing was there to revise, nothing has changed. -/
theorem Changes.get?_of_missed (h : Changes p s₀ s) (hout : s.store.contains p = false) (q : Path) :
    s.store.get? q = s₀.store.get? q := by
  cases hsame : p.same q with
  | false => exact h.apart q hsame
  | true =>
    have hout₀ : s₀.store.contains p = false := by
      cases hin : s₀.store.contains p with
      | false => rfl
      | true => simp [h.entered hin] at hout
    simp only [Store.contains, Option.isSome_eq_false_iff, Option.isNone_iff_eq_none] at hout hout₀
    rw [← Store.get?_congr _ hsame, ← Store.get?_congr _ hsame, hout, hout₀]

theorem Changes.trails (h : Changes c.path s₀ s) (hends : c.Ends es s) : Trails s₀ es s := by
  cases hends with
  | missed _ hout => exact ⟨h.disk, fun q => .inl (h.get?_of_missed hout q), trivial⟩
  | served _ hclosed =>
    refine ⟨h.disk, fun q => ?_, trailed_events hclosed⟩
    cases hsame : c.path.same q with
    | true => exact .inr (waits_events hsame)
    | false => exact .inl (h.apart q hsame)

/-- **A call changes the documents of those paths only that its events are for.** -/
theorem act_trails (c : Call) (s : Shared) : wp (c.act w) (Trails s) (fun _ _ => False) s := by
  refine wp_imp (act_ends (T := Changes c.path s) (fun r _ s' hs' => ?_) (fun _ _ hnew => ?_) ⟨rfl, fun _ _ => rfl, id⟩)
    (fun _ _ hs' => hs'.1.trails hs'.2) fun _ _ hf => hf
  · rw [Shared.wp_revise]
    exact ⟨fun store hstore => hs'.revised hstore, fun _ => ⟨hs'.disk, hs'.apart, hs'.entered⟩⟩
  · refine ⟨Shared.afterRead_disk s c.path, fun q hsame => ?_, fun hin => by simp [hnew] at hin⟩
    have hother : (s.entered c.path w.root true none (w.replicaPath c.path)).path.same q = false := hsame
    exact Store.get?_insert_of_not_same s.store hother

end Call

/-! ### Turns -/

namespace Solo

variable (checks : Checkers) {s : Solo} {turn : Turn}

/-- Each event that waits and leaves its path to another one has one behind it, as long as
    the loop runs. -/
def Trails (s : Solo) : Prop := s.running.isAlive = true → Trailed s.shared.store s.running.queue

/-- A call of a loop that runs queues its events. -/
theorem afterCall_trails {c : Call} (halive : s.running.isAlive = true) :
    ∃ es, (s.afterCall c).running = { s.running with queue := s.running.queue ++ es }
      ∧ Call.Trails s.shared es (s.afterCall c).shared := by
  obtain ⟨es, shared, htrails, -, hafter⟩ := afterCall_ends (c.act_trails (w := s.running.workspace) s.shared)
  rw [hafter, enqueue_of_alive halive]
  exact ⟨es, rfl, htrails⟩

/-- Handlers open no documents. -/
theorem isOpen_of_event {act : Act Desk α} {d d' : Desk} {a : α}
    (hkept : ∀ q, Preserves (fun d : Desk => d.shared.store.isOpen q = false) act) (hrun : act d = .ok a d') (q : Path)
    (hq : d'.shared.store.isOpen q = true) : d.shared.store.isOpen q = true := by
  cases hclosed : d.shared.store.isOpen q with
  | true => rfl
  | false =>
    have hstill := (wp_of_ok hrun).mp (hkept q d hclosed)
    simp [hq] at hstill

theorem step_trails (h : s.Trails) : (s.step checks turn).Trails := by
  intro halive'
  have halive := isAlive_of_step checks halive'
  have htrailed := h halive
  cases turn with
  | disk d => exact htrailed
  | handleWatchFailure =>
    rw [step, Running.handleWatchFailure, if_pos halive]
    exact htrailed
  | call c =>
    obtain ⟨es, hrunning, hes⟩ := s.afterCall_trails (c := c) halive
    rw [step, hrunning]
    exact htrailed.append hes.trailed fun q => hes.isOpen
  | handleNext =>
    cases hqueue : s.running.queue with
    | nil => simpa [step, Running.handleNext, halive, hqueue, ofPair] using htrailed
    | cons e rest =>
      obtain ⟨d, hrun, hstep⟩ := (step_handleNext checks halive hqueue).2.2 halive'
      rw [hqueue] at htrailed
      rw [hstep]
      refine htrailed.2.mono (isOpen_of_event (fun q => ?_) hrun)
      exact (Shared.closed_kept q).desk.onEditorEvent_keeps checks (fun _ _ _ _ hs _ _ => hs) trivial
  | handleDisk e =>
    obtain ⟨d, hrun, hstep⟩ := (step_handleDisk (e := e) checks halive).2 halive'
    rw [hstep]
    refine htrailed.mono (isOpen_of_event (fun q => ?_) hrun)
    exact (Shared.closed_kept q).desk.onDiskEvent_keeps checks (fun _ _ _ _ hs _ _ => hs) trivial fun _ _ => trivial

/-- A workspace that has just been opened has nothing that waits. -/
theorem trails_of_opened {given replicaRoot : Path} {shared : Shared} {start : Solo}
    (h : opened checks given replicaRoot shared = some start) : start.Trails := by
  obtain ⟨w, hrunning, -⟩ := create_of_opened checks h
  intro _
  rw [hrunning]
  trivial

end Solo

end LiveWorkspace
