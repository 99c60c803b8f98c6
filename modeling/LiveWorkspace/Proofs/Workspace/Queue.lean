/-
  LiveWorkspace/Proofs/Workspace/Queue.lean
  =========================================
  **Editor events that wait are the gaps between two events.**

  The copy of a path may be out of date as long as its opening or a change of it waits
  (`waiting`).  A handler begins with the gap that its event leaves open, and closes it.
  An opening alone would not do: it empties the copy.  But an editor that opens a document
  has its text queued as well, so that a change follows every opening (`Paired`).
-/
import LiveWorkspace.Proofs.Workspace.Handlers

namespace LiveWorkspace

/-! ### What waits -/

/-- The handler of an event writes its path's copy. -/
def EditorEvent.renews : EditorEvent → Bool
  | .opened _ | .changed _ => true
  | .closed _ => false

/-- Some event that waits is about a path, and writes its copy. -/
def Pending (queue : List EditorEvent) (p : Path) : Prop :=
  ∃ e ∈ queue, e.renews = true ∧ e.path.same p = true

/-- The gaps that a queue of events leaves. -/
def waiting (queue : List EditorEvent) : Gaps where
  stale := Pending queue
  untried p := .opened p ∈ queue
  gone _ := False

/-- Each opening is followed by a change. -/
def Paired : List EditorEvent → Prop
  | [] => True
  | .opened p :: rest => .changed p ∈ rest ∧ Paired rest
  | .changed _ :: rest | .closed _ :: rest => Paired rest

variable {queue rest : List EditorEvent} {p q : Path}

theorem waiting_regular (queue : List EditorEvent) : (waiting queue).Regular where
  congr _ _ hsame := fun ⟨e, he, hrenews, hp⟩ => ⟨e, he, hrenews, by rw [Path.same_congr hp, hsame]⟩
  untried p hp := ⟨.opened p, hp, rfl, Path.same_refl p⟩

theorem pending_append_iff {es : List EditorEvent} :
    Pending (queue ++ es) p ↔ Pending queue p ∨ Pending es p := by
  constructor
  · rintro ⟨e, he, hrenews, hp⟩
    rcases List.mem_append.mp he with he | he
    · exact .inl ⟨e, he, hrenews, hp⟩
    · exact .inr ⟨e, he, hrenews, hp⟩
  · rintro (⟨e, he, h⟩ | ⟨e, he, h⟩)
    · exact ⟨e, List.mem_append_left _ he, h⟩
    · exact ⟨e, List.mem_append_right _ he, h⟩

theorem pending_cons_iff {e : EditorEvent} :
    Pending (e :: rest) p ↔ (e.renews = true ∧ e.path.same p = true) ∨ Pending rest p := by
  constructor
  · rintro ⟨x, hx, hrenews, hp⟩
    rcases List.mem_cons.mp hx with rfl | hx
    · exact .inl ⟨hrenews, hp⟩
    · exact .inr ⟨x, hx, hrenews, hp⟩
  · rintro (⟨hrenews, hp⟩ | ⟨x, hx, h⟩)
    · exact ⟨e, List.mem_cons_self, hrenews, hp⟩
    · exact ⟨x, List.mem_cons_of_mem _ hx, h⟩

theorem Paired.tail {e : EditorEvent} (h : Paired (e :: rest)) : Paired rest := by
  cases e with
  | opened p => exact h.2
  | changed p => exact h
  | closed p => exact h

theorem Paired.append {es : List EditorEvent} (h : Paired queue) (hes : Paired es) : Paired (queue ++ es) := by
  induction queue with
  | nil => exact hes
  | cons e rest ih =>
    cases e with
    | opened p => exact ⟨List.mem_append_left _ h.1, ih h.2⟩
    | changed p => exact ih h
    | closed p => exact ih h

/-! ### Gaps that an event leaves open -/

namespace Desk

variable {m : Premises} {d : Desk}

theorem Agrees.of_opened (h : Agrees m (waiting (.opened p :: rest)) d) : Agrees m ((waiting rest).enter p) d := by
  refine h.mono (fun q _ hs => ?_) (fun q hu => ?_) fun _ hn => hn
  · rcases pending_cons_iff.mp hs with ⟨-, hp⟩ | hs
    · exact .inr (by rw [Path.same_comm]; exact hp)
    · exact .inl hs
  · rcases List.mem_cons.mp hu with hu | hu
    · exact .inr (EditorEvent.opened.inj hu)
    · exact .inl hu

theorem Agrees.of_changed (h : Agrees m (waiting (.changed p :: rest)) d) : Agrees m ((waiting rest).touch p) d := by
  refine h.mono (fun q _ hs => ?_) (fun q hu => ?_) fun _ hn => hn
  · rcases pending_cons_iff.mp hs with ⟨-, hp⟩ | hs
    · exact .inr (by rw [Path.same_comm]; exact hp)
    · exact .inl hs
  · exact (List.mem_cons.mp hu).resolve_left fun heq => by cases heq

theorem Agrees.of_closed (h : Agrees m (waiting (.closed p :: rest)) d) : Agrees m (waiting rest) d := by
  refine h.mono (fun q _ hs => ?_) (fun q hu => ?_) fun _ hn => hn
  · exact (pending_cons_iff.mp hs).resolve_left fun hrenews => by cases hrenews.1
  · exact (List.mem_cons.mp hu).resolve_left fun heq => by cases heq

/-- The copy of an opened path is out of date until its text comes. -/
theorem Agrees.of_paired (h : Agrees m ((waiting rest).touch p) d) (hpaired : .changed p ∈ rest) :
    Agrees m (waiting rest) d := by
  refine h.mono (fun q _ hs => hs.elim id fun hp => ?_) (fun _ hu => hu) fun _ hn => hn
  exact ⟨.changed p, hpaired, rfl, by rw [Path.same_comm]; exact hp⟩

/-! ### The handlers, by their events -/

variable {t : Tally} (checks : Checkers)

/-- An event is a closing that buries what is tracked below its path. -/
def BuriesNext (rest : List EditorEvent) (e : EditorEvent) (d : Desk) : Prop :=
  ∃ p, e = .closed p ∧ d.shared.store.contains p = true ∧ Buries (waiting rest) p d

/-- All that is tracked. -/
abbrev Anything (_ : Path) : Prop := True

/-- Once an event of the editor is handled, only those gaps are left that the others leave. -/
theorem onEditorEvent_does {e : EditorEvent} (hp : m.root.Encloses e.path) (hpaired : Paired (e :: rest))
    (hgood : ∀ c, (waiting rest).Fresh m c → t.good c) :
    Does t (onEditorEvent checks e)
      (fun d => Holds m (waiting (e :: rest)) Anything d ∧ ¬ BuriesNext rest e d)
      fun outcome d => outcome = .ok () → Holds m (waiting rest) Anything d := by
  have hg := waiting_regular rest
  have hgone : ∀ ns, ¬ (waiting rest).gone ns := fun _ h => h
  have hend : ∀ p : Path, Does t (do
      if p.isConfigFile then reloadConfig checks
      return (.ok () : Except WorkspaceError Unit)) (Holds m (waiting rest) Anything)
      fun outcome d => outcome = .ok () → Holds m (waiting rest) Anything d := fun p =>
    Does.ite (fun _ => Does.bind (reloadConfig_does checks hg hgood) fun _ => Does.pure fun _ _ hd _ => hd)
      fun _ => Does.pure fun _ _ hd _ => hd
  rw [onEditorEvent]
  refine Does.get_bind fun d₀ => Does.ite (fun _ => ?_) fun hin => ?_
  · refine Does.step (Does.of_preserves ((holds_calm m (waiting (e :: rest)) Anything).unless.report_keeps _))
      (fun _ _ hd => hd.1.1) fun _ => Does.pure fun _ _ _ hok => by cases hok
  · simp only [Bool.not_eq_true', Bool.not_eq_false] at hin
    split
    · rename_i p
      refine Does.step (editorOpened_does (g := waiting rest) (S := Anything) hp trivial hgone) ?_ fun _ =>
        Does.pure fun d _ hd _ => ⟨hd.1.of_paired hpaired.1, hd.2⟩
      rintro d - ⟨⟨⟨h, hamong⟩, -⟩, rfl⟩
      exact ⟨⟨h.of_opened, hamong⟩, hin⟩
    · rename_i p
      refine Does.step (editorChanged_does (S := Anything) checks hp hg hgone hgood) ?_ fun _ => hend p
      rintro d - ⟨⟨⟨h, hamong⟩, -⟩, rfl⟩
      exact ⟨⟨h.of_changed, hamong⟩, hin⟩
    · rename_i p
      refine Does.step (editorClosed_does (S := Anything) checks hp (fun _ => trivial) hg hgone hgood) ?_ fun _ => hend p
      rintro d - ⟨⟨⟨h, hamong⟩, hspares⟩, rfl⟩
      exact ⟨⟨⟨h.of_closed, hamong⟩, hin⟩, fun hb => hspares ⟨p, rfl, hin, hb⟩⟩

/-- Once a closing is handled that buries a tracked path, the replica has no copy of it. -/
theorem onEditorEvent_buries {g : Gaps} (hp : m.root.Encloses p) (hq : m.root.Encloses q)
    (hstarts : q.startsWith p = true) (hother : q.same p = false) (hgood : ∀ c, t.good c) :
    Does t (onEditorEvent checks (.closed p))
      (fun d => (Holds m g Anything d ∧ d.shared.store.contains p = true) ∧ d.shared.store.isOpen p = false
        ∧ d.shared.disk.hasPath p = false ∧ q ∈ d.workspace.tracked)
      fun _ => Lost q := by
  have hcalm := (lost_calm q).unless (t := t)
  have hrecords : Records (Unless t (Lost q)) := Records.unless (fun _ _ _ _ h _ _ => h) hgood
  rw [onEditorEvent]
  refine Does.get_bind fun d₀ => Does.ite (fun hout => ?_) fun _ => ?_
  · refine Does.of_false ?_ ?_
    · exact Preserves.bind ((kept_spoilt t).grows.calm.report_keeps _) fun _ => Preserves.pure _
    · rintro d - ⟨⟨⟨-, hin⟩, -⟩, rfl⟩
      rw [EditorEvent.path, hin] at hout
      cases hout
  · refine Does.step (editorClosed_buries checks hp hq hstarts hother) (fun _ _ hd => ⟨hd.1.1.1, hd.1.2⟩) fun _ => ?_
    refine Does.ite (fun _ => ?_) fun _ => Does.pure fun _ _ hd => hd
    exact Does.bind (Does.of_preserves (hcalm.reloadConfig_keeps checks hrecords)) fun _ => Does.pure fun _ _ hd => hd

/-- An event of the disk says that something was moved along with its copy. -/
def MovesNext (e : Watch.Event) (d : Desk) : Prop :=
  ∃ source, e.kind = .created ∧ e.source = some source ∧ d.shared.store.isOpen e.path = false
    ∧ MovesCopy source e.path d

/-- The paths of an event of the disk lie in the workspace. -/
def Inside (m : Premises) (e : Watch.Event) : Prop :=
  m.root.Encloses e.path ∧ ∀ source, e.source = some source → m.root.Encloses source

/-- What is done about an event of the disk when something was renamed. -/
def renamedNext (source target : Path) : Act Desk Unit := do
  renamed checks source target
  if target.isConfigFile || source.isConfigFile then reloadConfig checks

theorem onDiskEvent_renamed {source target : Path} (hclosed : d.shared.store.isOpen target = false) :
    onDiskEvent checks (.renamed source target) d = renamedNext checks source target d := by
  have hrun : onDiskEvent checks (.renamed source target) d
      = (if !d.shared.store.isOpen target then renamedNext checks source target else Pure.pure ()) d := rfl
  rw [hrun, hclosed, Bool.not_false, if_pos rfl]

variable {g : Gaps}

/-- Once an event of the disk is handled, no more gaps are left than before. -/
theorem onDiskEvent_does {e : Watch.Event} (hin : Inside m e) (hg : g.Regular) (hgone : ∀ ns, ¬ g.gone ns)
    (hgood : ∀ c, g.Fresh m c → t.good c) :
    Does t (onDiskEvent checks e) (fun d => Holds m g Anything d ∧ ¬ MovesNext e d)
      fun _ => Holds m g Anything := by
  have hS : ∀ q, Anything q := fun _ => trivial
  have hend : Does t (if e.path.isConfigFile || e.source.any Path.isConfigFile then reloadConfig checks
      else Pure.pure ()) (Holds m g Anything) fun _ => Holds m g Anything :=
    Does.ite (fun _ => reloadConfig_does checks hg hgood) fun _ => Does.pure fun _ _ hd => hd
  rw [onDiskEvent]
  refine Does.get_bind fun d₀ => Does.ite (fun hclosed => ?_) fun _ => Does.pure fun _ _ hd => hd.1.1
  rw [Bool.not_eq_true'] at hclosed
  dsimp only
  split
  · rename_i source hkind hsource
    refine Does.step (renamed_does_of_keeps checks (hin.2 source hsource) hin.1 hS hg hgone hgood) ?_ fun _ => hend
    rintro d - ⟨⟨hd, hkeeps⟩, rfl⟩
    exact ⟨hd, fun hmoves => hkeeps ⟨source, hkind, hsource, hclosed, hmoves⟩⟩
  · exact Does.step (created_does checks hin.1 hS hg hgone hgood) (fun _ _ hd => hd.1.1) fun _ => hend
  · exact Does.step (written_does checks hin.1 (hS _) hg hgone hgood) (fun _ _ hd => hd.1.1) fun _ => hend
  · exact Does.step (removed_does checks hin.1 hg hgone hgood) (fun _ _ hd => hd.1.1) fun _ => hend

/-- The tally of work that begins at a desk. -/
def tally (d : Desk) (good : Compilation → Prop) : Tally :=
  ⟨d.shared.failures, d.shared.compiled, d.shared.store.isOpen, good⟩

theorem steady_tally (d : Desk) (good : Compilation → Prop) : Steady (d.tally good) d :=
  ⟨rfl, ⟨[], (List.append_nil _).symm, fun _ hc => absurd hc List.not_mem_nil⟩, fun _ => rfl⟩

/-- Two pieces of work, one after the other, in which nothing fails: what the first one compiles is
    good in one way, and what the second compiles in another. -/
theorem Does.run_bind {α β : Type} {A B : Compilation → Prop} {first : Act Desk β} {last : Act Desk α}
    {P O : Desk → Prop} {Q : α → Desk → Prop} (hfirst : Does (d.tally A) first P fun _ => O)
    (hlast : ∀ d₁ : Desk, Does (d₁.tally B) last O Q) (hspoils : Spoils (d.tally A) last) (hd : P d)
    (hok : (after (first >>= fun _ => last) d).shared.failures = d.shared.failures) :
    ∃ early late, (after first d).shared.compiled = d.shared.compiled ++ early
      ∧ (after (first >>= fun _ => last) d).shared.compiled = d.shared.compiled ++ (early ++ late)
      ∧ (∀ c ∈ early, A c) ∧ (∀ c ∈ late, B c)
      ∧ ∀ a d', (first >>= fun _ => last) d = .ok a d' → Q a d' := by
  cases hrun : first d with
  | error err d₁ =>
    have hboth : (first >>= fun _ => last) d = .error err d₁ := after_bind_of_error hrun
    rw [after_of_error hboth] at hok ⊢
    rw [after_of_error hrun]
    obtain ⟨⟨early, hcompiled, hgood⟩, -⟩ := hfirst.run (steady_tally d _) hd (by
      rw [after_of_error hrun, Spoilt, tally, hok]
      exact Nat.lt_irrefl _)
    rw [after_of_error hrun] at hcompiled
    refine ⟨early, [], hcompiled, by rw [List.append_nil]; exact hcompiled, hgood, ?_, ?_⟩
    · exact fun c hc => absurd hc List.not_mem_nil
    · exact fun a d' heq => by rw [hboth] at heq; cases heq
  | ok b d₁ =>
    have hboth : (first >>= fun _ => last) d = last d₁ := after_bind_of_ok hrun
    have hafter : after (first >>= fun _ => last) d = after last d₁ := by rw [after, hboth, after]
    rw [hafter] at hok ⊢
    -- A failure in the first piece would still be reported after the second.
    have hunspoilt : ¬ Spoilt (d.tally A) d₁ := by
      intro hspoilt
      have hend := after_preserves hspoils hspoilt
      rw [Spoilt, tally, hok] at hend
      exact Nat.lt_irrefl _ hend
    obtain ⟨⟨early, hcompiled, hgood⟩, hend⟩ := hfirst.run (steady_tally d _) hd
      (by rw [after_of_ok hrun]; exact hunspoilt)
    rw [after_of_ok hrun] at hcompiled ⊢
    obtain ⟨hsteady, hd₁⟩ := hend b d₁ hrun
    obtain ⟨⟨late, hcompiled', hgood'⟩, hend'⟩ := (hlast d₁).run (steady_tally d₁ _) hd₁ (by
      rw [Spoilt, tally, hok, hsteady.failures]
      exact Nat.lt_irrefl _)
    refine ⟨early, late, hcompiled, ?_, hgood, hgood', fun a d' heq => ?_⟩
    · rw [hcompiled', tally, hcompiled, List.append_assoc]
      rfl
    · rw [hboth] at heq
      exact (hend' a d' heq).2

/-- A rename that moves copies: first it compiles where the replica lacks them, and when the
    configuration is read again, all copies are there. -/
theorem renamedNext_moves {source target : Path} (hsource : m.root.Encloses source)
    (htarget : m.root.Encloses target) (hg : g.Regular) (hgone : ∀ ns, ¬ g.gone ns)
    (hd : Holds m g Anything d) (hmoves : MovesCopy source target d)
    (hok : (after (renamedNext checks source target) d).shared.failures = d.shared.failures) :
    ∃ first later, (after (renamed checks source target) d).shared.compiled = d.shared.compiled ++ first
      ∧ (after (renamedNext checks source target) d).shared.compiled = d.shared.compiled ++ (first ++ later)
      ∧ (∀ c ∈ first, (g.moved m source).Fresh m c) ∧ (∀ c ∈ later, g.Fresh m c)
      ∧ ∀ a d', renamedNext checks source target d = .ok a d' → Holds m g Anything d' := by
  refine Does.run_bind (renamed_does_of_moves checks hsource htarget (fun _ => trivial) hg hgone fun _ hc => hc)
    (fun d₁ => ?_) ?_ ⟨hd, hmoves⟩ hok
  · exact Does.ite (fun _ => reloadConfig_does checks hg fun _ hc => hc) fun _ => Does.pure fun _ _ hd => hd
  · refine Preserves.ite (fun _ => ?_) fun _ => Preserves.pure _
    exact (kept_spoilt _).grows.calm.reloadConfig_keeps checks (records_spoilt _)

end Desk

end LiveWorkspace
