/-
  LiveWorkspace/Proofs/Workspace/Awaited.lean
  ===========================================
  **When the events that wait find their documents.**

  A call hands events on for a document that the store has.  Until they are handled, the
  document is dropped only by a handler that lets its path go: that of a closing whose path
  is neither open nor on the disk, or that of an event of the disk that says that the path,
  or one above it, is gone or has another name (`Solo.drops`).  An event that then still
  waits for it is stranded: it finds no document, and its handling ends the loop.

  Calls may come in any order, and the disk may change and tell of it as it likes.  As long
  as no handler strands an event, every event finds its document (`Solo.step_sound`), and the
  loop never fails.
-/
import LiveWorkspace.Proofs.Workspace.Runs

namespace LiveWorkspace

namespace Store

variable {s : Store} {p q : Path}

theorem contains_insert (h : s.contains q = true) (doc : Document) : (s.insert doc).contains q = true := by
  cases hin : s.contains doc.path with
  | true => rwa [insert, if_pos hin]
  | false =>
    cases hsame : doc.path.same q with
    | false => rwa [contains, get?_insert_of_not_same s hsame]
    | true =>
      rw [contains, get?_congr s hsame] at hin
      rw [contains, hin] at h
      cases h

theorem contains_erase (h : s.contains q = true) (hp : p.same q = false) : (s.erase p).contains q = true := by
  rwa [contains, get?_erase_of_not_same s hp]

theorem isOpen_congr (s : Store) (h : p.same q = true) : s.isOpen p = s.isOpen q := by
  rw [isOpen, isOpen, get?_congr s h]

end Store

/-! ### Documents that stay -/

/-- A document that is open stays open. -/
theorem Shared.open_kept (q : Path) :
    Shared.Kept (fun s => s.store.isOpen q = true) fun p => p.same q = false where
  report _ _ h := h
  publish _ _ h := h
  mark _ _ _ _ h hstore := (Store.isOpen_of_revise? hstore (fun _ _ => rfl) q).trans h
  closed s p h hclosed := by
    rw [Bool.eq_false_iff]
    intro hsame
    rw [Store.isOpen_congr _ hsame, h] at hclosed
    cases hclosed
  disk _ _ h := h
  watch _ _ h := h
  insert s doc hclosed h := by
    cases hin : s.store.contains doc.path with
    | true => rwa [Store.insert, if_pos hin]
    | false => rwa [Store.isOpen_insert_closed hin hclosed]
  erase s p hp h := by rwa [Store.isOpen, Store.get?_erase_of_not_same _ hp]
  revise s p r store hp _ h hstore := by
    rwa [Store.isOpen, Store.get?_of_revise? hstore, if_neg (Bool.eq_false_iff.mp hp)]

namespace Desk

/-- The desk has a document for a path. -/
def Has (q : Path) (d : Desk) : Prop := d.shared.store.contains q = true

/-- Handlers that let nothing go drop no document. -/
theorem has_grows (q : Path) : Grows (Has q) (fun _ => True) fun _ => True where
  shared _ :=
    { report := fun _ _ h => h
      publish := fun _ _ h => h
      mark := fun _ _ _ _ h hstore => (Store.contains_revise? hstore q).trans h }
  config _ _ _ h := h
  closed _ _ _ _ := trivial
  below _ _ _ _ := trivial
  found _ _ _ _ _ _ := trivial
  watched _ _ h := h
  taken _ doc h _ _ _ _ _ _ := Store.contains_insert h doc
  revised _ _ _ _ h _ _ hstore := (Store.contains_revise? hstore q).trans h
  tracked _ _ h _ _ := h
  worked _ _ _ h _ _ := h
  moved _ _ _ h _ _ := h

theorem has_records (q : Path) : Records (Has q) := fun _ _ _ _ h _ _ => h

/-- The paths whose documents are dropped when a path is let go. -/
def droppedBelow (p : Path) (d : Desk) : List Path :=
  (d.workspace.tracked.filter (·.startsWith p) ++ [p]).filter fun q => !d.shared.store.isOpen q

variable {p q : Path} {d : Desk}

/-- Letting a path go spares all documents that it is not said to drop. -/
theorem letsGo_of_not_dropped (hclosed : d.shared.store.isOpen q = false)
    (h : ∀ r ∈ d.droppedBelow p, r.same q = false) : LetsGo (Has q) p d := by
  intro d' hd' hlike
  refine untrack_spares (N := fun r => r.same q = false) (fun r => Preserves.modify fun _ hd => hd) ?_ ?_ ?_ hd'
  · intro r hr d hd
    rw [wp_onShared, Shared.wp_dropDocument]
    exact Store.contains_erase hd hr
  · intro r hr hstarts hopen
    rw [hlike.1] at hr
    rw [hlike.2] at hopen
    refine h r (List.mem_filter.mpr ⟨List.mem_append_left _ (List.mem_filter.mpr ⟨hr, hstarts⟩), ?_⟩)
    rw [hopen]
    rfl
  · intro _ _ _
    rw [Bool.eq_false_iff]
    intro hsame
    have hp : p ∈ d.droppedBelow p := by
      refine List.mem_filter.mpr ⟨List.mem_append_right _ List.mem_cons_self, ?_⟩
      rw [Store.isOpen_congr _ hsame, hclosed]
      rfl
    rw [h p hp] at hsame
    cases hsame

variable (checks : Checkers)

theorem onDiskEvent_has {e : Watch.Event}
    (hspares : ∀ p, leaving e d = some p → ∀ r ∈ d.droppedBelow p, r.same q = false) (h : Has q d) :
    wp (onDiskEvent checks e) (fun _ => Has q) (fun _ => Has q) d := by
  cases hopen : d.shared.store.isOpen q with
  | true =>
    have hkept : Preserves _ (onDiskEvent checks e) :=
      (Shared.open_kept q).desk.onDiskEvent_keeps checks (fun _ _ _ _ hs _ _ => hs) trivial fun _ _ => trivial
    exact wp_imp (hkept d hopen) (fun _ _ hd => Store.contains_of_isOpen hd) fun _ _ hd => Store.contains_of_isOpen hd
  | false =>
    refine (has_grows q).onDiskEvent_keeps checks (has_records q) trivial (fun _ _ => trivial) (fun p hp => ?_) h
    exact letsGo_of_not_dropped hopen (hspares p hp)

theorem onEditorEvent_has {e : EditorEvent} (hspares : ∀ p, forgetting e d = some p → p.same q = false) (h : Has q d) :
    wp (onEditorEvent checks e) (fun _ => Has q) (fun _ => Has q) d :=
  (has_grows q).onEditorEvent_keeps checks (has_records q) trivial
    (fun p hp => Store.contains_erase h (hspares p hp)) h

/-- An event that finds its document is handled without an error. -/
theorem onEditorEvent_ok {e : EditorEvent} (h : Has e.path d) :
    wp (onEditorEvent checks e) (fun outcome _ => outcome = .ok ()) (fun _ _ => True) d := by
  have hend : ∀ (p : Path) (d : Desk), wp (do
      if p.isConfigFile then reloadConfig checks
      return (.ok () : Except WorkspaceError Unit)) (fun outcome _ => outcome = .ok ()) (fun _ _ => True) d := by
    intro p d
    refine (wp_ite _ _).mpr ⟨fun _ => ?_, fun _ => (wp_pure _).mpr rfl⟩
    rw [wp_bind]
    exact wp_imp (wp_true _ d) (fun _ _ _ => (wp_pure _).mpr rfl) fun _ _ _ => trivial
  have hnot : ¬ (!d.shared.store.contains e.path) = true := by
    rw [Has] at h
    rw [h]
    decide
  rw [onEditorEvent, wp_bind, wp_get, if_neg hnot]
  cases e with
  | opened p =>
    rw [wp_bind]
    exact wp_imp (wp_true _ d) (fun _ _ _ => (wp_pure _).mpr rfl) fun _ _ _ => trivial
  | changed p =>
    rw [wp_bind]
    exact wp_imp (wp_true _ d) (fun _ d _ => hend p d) fun _ _ _ => trivial
  | closed p =>
    rw [wp_bind]
    exact wp_imp (wp_true _ d) (fun _ d _ => hend p d) fun _ _ _ => trivial

end Desk

/-! ### Calls -/

namespace Call

variable {w : Workspace}

/-- No call drops a document. -/
theorem act_has (c : Call) (s : Shared) :
    Preserves (fun s' => ∀ q, s.store.contains q = true → s'.store.contains q = true) (c.act w) := by
  refine act_preserves (fun p r s' hs => ?_) (fun p root replica s' hs => ?_) c
  · rw [Shared.wp_revise]
    exact ⟨fun store hstore q hq => (Store.contains_revise? hstore q).trans (hs q hq), fun _ => hs⟩
  · rw [Shared.wp_openPath]
    exact ⟨fun _ => hs, fun _ q hq => Store.contains_insert (hs q hq) _⟩

/-- The events that a call hands on are for a document that the store has, unless it is a
    change that changes nothing. -/
theorem act_finds {c : Call} (hc : ∀ p, c ≠ .didChange p []) (s : Shared) :
    wp (c.act w) (fun es s' => ∀ e ∈ es, s'.store.contains e.path = true) (fun _ _ => False) s := by
  refine wp_imp (act_ends (T := fun _ => True) (fun _ _ _ _ => wp_true _ _) (fun _ _ _ => trivial) trivial)
    (fun es s' hs' e he => ?_) fun _ _ hf => hf
  cases hs'.2 with
  | missed => exact absurd he List.not_mem_nil
  | served hin =>
    rw [path_of_mem_events he]
    exact hin (hc _)

end Call

/-! ### Turns -/

namespace Solo

variable (checks : Checkers) {s : Solo} {turn : Turn}

/-- The paths whose documents are dropped in a turn. -/
def drops (s : Solo) : Turn → List Path
  | .handleNext =>
    match s.running.queue with
    | [] => []
    | e :: _ => (Desk.forgetting e s.desk).toList
  | .handleDisk e =>
    match Desk.leaving e s.desk with
    | none => []
    | some p => s.desk.droppedBelow p
  | _ => []

/-- A turn drops the document of an event that still waits after it. -/
def Strands (s : Solo) (turn : Turn) : Prop := ∃ e ∈ s.left turn, ∃ p ∈ s.drops turn, p.same e.path = true

instance (s : Solo) (turn : Turn) : Decidable (s.Strands turn) :=
  inferInstanceAs (Decidable (∃ e ∈ s.left turn, ∃ p ∈ s.drops turn, p.same e.path = true))

/-- Every event that waits finds its document, and the loop has not failed. -/
structure Sound (s : Solo) : Prop where
  found : ∀ e ∈ s.running.queue, s.shared.store.contains e.path = true
  unfailed : ∀ err, s.running.ending ≠ some (.failed err)

theorem afterCall_sound {c : Call} (h : s.Sound) (hc : ∀ p, c ≠ .didChange p []) : (s.afterCall c).Sound := by
  obtain ⟨es, shared, ⟨hold, hnew⟩, -, hafter⟩ := afterCall_ends (wp_and
    (Call.act_has (w := s.running.workspace) c s.shared s.shared fun _ hq => hq) (Call.act_finds hc s.shared))
  rw [hafter]
  refine ⟨fun e he => ?_, fun err => ?_⟩
  · rw [enqueue_shared]
    rcases mem_enqueue he with he | he
    · exact hold e.path (h.found e he)
    · exact hnew e he
  · rw [enqueue_ending]
    exact h.unfailed err

theorem handleNext_sound {e : EditorEvent} {rest : List EditorEvent} (h : s.Sound)
    (halive : s.running.isAlive = true) (hqueue : s.running.queue = e :: rest) (hspares : ¬ s.Strands .handleNext) :
    (s.step checks .handleNext).Sound := by
  have hrest : ∀ x ∈ rest, wp (Desk.onEditorEvent checks e) (fun _ => Desk.Has x.path) (fun _ => Desk.Has x.path)
      s.desk := by
    intro x hx
    have hfound : Desk.Has x.path s.desk := h.found x (by rw [hqueue]; exact List.mem_cons_of_mem _ hx)
    refine Desk.onEditorEvent_has checks (fun p hp => ?_) hfound
    rw [Bool.eq_false_iff]
    refine fun hsame => hspares ⟨x, ?_, p, ?_, hsame⟩
    · rw [left, hqueue]
      exact hx
    · rw [drops, hqueue]
      exact Option.mem_toList.mpr hp
  have hok := Desk.onEditorEvent_ok checks (d := s.desk) (e := e)
    (h.found e (by rw [hqueue]; exact List.mem_cons_self))
  have hdesk : (⟨s.shared, { s.running with queue := rest }.workspace⟩ : Desk) = s.desk := rfl
  unfold step Running.handleNext Running.work
  simp only [halive, hqueue]
  rw [hdesk]
  cases hrun : Desk.onEditorEvent checks e s.desk with
  | error err d =>
    have hr : ({ s.running with workspace := d.workspace, queue := rest } : Running).isAlive = true := halive
    simp only [Running.finish_of_isAlive hr, ofPair]
    exact ⟨fun _ he => absurd he List.not_mem_nil, fun _ he => by cases he⟩
  | ok outcome d =>
    have hending : s.running.ending = none := Option.isNone_iff_eq_none.mp halive
    simp only [(wp_of_ok hrun).mp hok, hending, ofPair]
    exact ⟨fun x hx => (wp_of_ok hrun).mp (hrest x hx), fun _ he => by cases he⟩

theorem handleDisk_sound {e : Watch.Event} (h : s.Sound) (halive : s.running.isAlive = true)
    (hspares : ¬ s.Strands (.handleDisk e)) : (s.step checks (.handleDisk e)).Sound := by
  have hqueue : ∀ x ∈ s.running.queue, wp (Desk.onDiskEvent checks e) (fun _ => Desk.Has x.path)
      (fun _ => Desk.Has x.path) s.desk := by
    intro x hx
    refine Desk.onDiskEvent_has checks (fun p hp r hr => ?_) (h.found x hx)
    rw [Bool.eq_false_iff]
    refine fun hsame => hspares ⟨x, hx, r, ?_, hsame⟩
    simp only [drops, hp]
    exact hr
  have hdesk : (⟨s.shared, s.running.workspace⟩ : Desk) = s.desk := rfl
  unfold step Running.handleDisk Running.work
  simp only [halive, if_true]
  rw [hdesk]
  cases hrun : Desk.onDiskEvent checks e s.desk with
  | error err d =>
    have hr : ({ s.running with workspace := d.workspace } : Running).isAlive = true := halive
    simp only [Running.finish_of_isAlive hr, ofPair]
    exact ⟨fun _ he => absurd he List.not_mem_nil, fun _ he => by cases he⟩
  | ok u d => exact ⟨fun x hx => (wp_of_ok hrun).mp (hqueue x hx), h.unfailed⟩

/-- A turn that strands no event leaves no event without its document. -/
theorem step_sound (h : s.Sound) (hturn : ∀ p, turn ≠ .call (.didChange p [])) (hspares : ¬ s.Strands turn) :
    (s.step checks turn).Sound := by
  cases turn with
  | call c => exact afterCall_sound h fun p hc => hturn p (by rw [hc])
  | disk d => exact ⟨h.found, h.unfailed⟩
  | handleWatchFailure =>
    rw [step, Running.handleWatchFailure]
    split
    · exact ⟨h.found, h.unfailed⟩
    · exact h
  | handleNext =>
    cases halive : s.running.isAlive with
    | false =>
      rw [step, Running.handleNext, halive]
      exact h
    | true =>
      cases hqueue : s.running.queue with
      | nil =>
        rw [step, Running.handleNext, halive, hqueue]
        exact h
      | cons e rest => exact handleNext_sound checks h halive hqueue hspares
  | handleDisk e =>
    cases halive : s.running.isAlive with
    | false =>
      rw [step, Running.handleDisk, halive]
      exact h
    | true => exact handleDisk_sound checks h halive hspares

/-- A file that is not on the disk is opened and closed, and then once more. The first
    closing is handled either before the path is opened again, or after it was closed again. -/
def reopeningTurns (patient : Bool) : List Turn :=
  let p : Path := ⟨"/w/b.dsp"⟩
  let early : List Turn := [.call (.didOpen p "t"), .call (.didClose p)]
  let late : List Turn := [.call (.didOpen p "u"), .call (.didClose p)]
  if patient then early ++ [.handleNext, .handleNext, .handleNext] ++ late ++ [.handleNext, .handleNext, .handleNext]
  else early ++ late ++ [.handleNext, .handleNext, .handleNext, .handleNext]

/-- **The loop survives.**  From the opening of a workspace on, as long as no event is
    stranded, every event that waits finds its document, and the loop does not fail. -/
theorem sound_of_run {root replicaRoot : Path} {shared : Shared} {start : Solo} {turns : List Turn}
    (h : opened checks root replicaRoot shared = some start) (hturns : ∀ p, Turn.call (.didChange p []) ∉ turns)
    (hspares : start.Along checks (fun s turn _ => ¬ s.Strands turn) turns) : (start.run checks turns).Sound := by
  have hstart : start.Sound := by
    obtain ⟨w, hrunning, -⟩ := create_of_opened checks h
    refine ⟨fun e he => ?_, fun err he => ?_⟩
    · rw [hrunning] at he
      exact absurd he List.not_mem_nil
    · rw [hrunning] at he
      cases he
  clear h
  induction turns generalizing start with
  | nil => exact hstart
  | cons turn rest ih =>
    refine ih (fun p hp => hturns p (List.mem_cons_of_mem _ hp)) hspares.2 (step_sound checks hstart ?_ hspares.1)
    exact fun p hp => hturns p (by rw [hp]; exact List.mem_cons_self)

/-- Handled one after the other, the events of both openings find their document. -/
theorem sound_while_reopening : (small.run contentCheckers (reopeningTurns true)).Sound :=
  sound_of_run contentCheckers small_begins.opened (fun p hp => by simp [reopeningTurns] at hp) (by decide +kernel)

/-- Handled after both closings, the first one drops the document that the second opening
    still needs, and the loop fails. -/
theorem loop_failed_by_reopening :
    (small.run contentCheckers (reopeningTurns false)).running.ending
      = some (.failed (.untrackedDocument ⟨"/w/b.dsp"⟩)) := by
  decide +kernel

end Solo

end LiveWorkspace
