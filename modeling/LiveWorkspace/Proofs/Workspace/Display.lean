/-
  LiveWorkspace/Proofs/Workspace/Display.lean
  ===========================================
  **What a workspace shows is current.**

  A path is stale as long as an event of the editor waits for it: the call that handed the
  event on has changed its text.  The event whose handling leaves its path stale has another
  one for that path behind it (`Trailed`).  So where nothing waits, what is shown for a tracked
  document fits it, and for a path without a document nothing is shown.

  In between, more is shown than that: a path whose opening waits is not tracked yet, but a
  handler of the disk may check and compile its document already (`shown_while_opening`).
-/
import LiveWorkspace.Proofs.Workspace.Registry
import LiveWorkspace.Proofs.Workspace.Trailing

namespace LiveWorkspace

/-! ### Calls -/

/-- **What a call touches waits until its events are handled.** -/
theorem Call.act_marks {checks : Checkers} {since : Shared} {stale : Path → Prop} {w : Workspace} {s : Shared} (c : Call)
    (h : Desk.Marked checks since stale Desk.Never [] ⟨s, w⟩) :
    wp (c.act w) (fun es s' => Desk.Marked checks since (fun q => stale q ∨ Waits es q) Desk.Never [] ⟨s', w⟩)
      (fun _ _ => False) s := by
  refine wp_imp (act_ends (T := fun s => Desk.Marked checks since (Desk.Touched stale c.path) Desk.Never [] ⟨s, w⟩)
    (fun r _ s' hs' => ?_) (fun _ _ hnew => ?_) (h.mono fun _ => .inl)) (fun es s' hs' => ?_) fun _ _ hf => hf
  · rw [Shared.wp_revise]
    exact ⟨fun store hstore => (hs'.revised hstore).twice, fun _ => hs'.reported _⟩
  · have hopened := Desk.openPath_marks c.path w.root true (w.replicaPath c.path) _ h
    rw [wp_onShared, Shared.wp_openPath] at hopened
    exact (hopened.2 hnew).1
  · obtain ⟨hmarked, hends⟩ := hs'
    cases hends with
    | missed _ hout => exact (hmarked.settled_of_absent hout fun _ _ => Iff.rfl).mono fun _ => .inl
    | served => exact hmarked.mono fun q => Or.imp_right waits_events

/-! ### Turns -/

namespace Solo

variable (checks : Checkers) {since : Shared} {s : Solo} {turn : Turn} {turns : List Turn}

/-- What is shown fits the documents of all tracked paths that nothing waits for, as long as
    the loop runs. -/
structure Marked (since : Shared) (s : Solo) : Prop where
  desk : s.desk.Marked checks since (fun q => s.running.isAlive = true → Waits s.running.queue q) Desk.Never []
  trailed : s.running.isAlive = true → Trailed s.shared.store s.running.queue

variable {checks}

theorem afterCall_marked {c : Call} (h : s.Marked checks since) :
    (s.afterCall c).desk.Marked checks since
      (fun q => (s.afterCall c).running.isAlive = true → Waits (s.afterCall c).running.queue q) Desk.Never [] := by
  obtain ⟨es, shared, hmarked, -, hafter⟩ := afterCall_ends (c.act_marks h.desk)
  rw [hafter]
  unfold enqueue
  split
  · rename_i halive
    exact Desk.Marked.mono hmarked fun q hq _ => waits_append_iff.mpr (hq.imp_left fun hq => hq halive)
  · rename_i hended
    exact Desk.Marked.mono hmarked fun q _ halive => absurd halive hended

theorem handleNext_marked (htotal : checks.Total) {e : EditorEvent} {rest : List EditorEvent}
    (h : s.Marked checks since) (halive : s.running.isAlive = true) (hqueue : s.running.queue = e :: rest) :
    (s.step checks .handleNext).desk.Marked checks since
      (fun q => (s.step checks .handleNext).running.isAlive = true → Waits (s.step checks .handleNext).running.queue q)
      Desk.Never [] := by
  have htrailed := h.trailed halive
  rw [hqueue] at htrailed
  have hdesk : s.desk.Marked checks since (Desk.Touched (Waits rest) e.path) Desk.Never [] := by
    refine h.desk.mono fun q hq => ?_
    have hwaits := hq halive
    rw [hqueue] at hwaits
    exact (waits_cons_iff.mp hwaits).symm
  have hevent := Desk.onEditorEvent_marks htotal e hdesk
  have hsame : (⟨s.shared, { s.running with queue := rest }.workspace⟩ : Desk) = s.desk := rfl
  have hending : s.running.ending = none := Option.isNone_iff_eq_none.mp halive
  unfold step Running.handleNext Running.work
  simp only [halive, hqueue]
  rw [hsame]
  cases hrun : Desk.onEditorEvent checks e s.desk with
  | error err d => exact ((wp_of_error hrun).mp hevent).elim
  | ok outcome d =>
    have hd := (wp_of_ok hrun).mp hevent
    cases outcome with
    | error err =>
      simp only [Running.finish, Running.isAlive, hending, Option.isNone_none, if_true, ofPair]
      exact (hd.reported [.error "Stopping workspace event loop"]).mono fun _ _ hrunning => by cases hrunning
    | ok _ =>
      simp only [hending, ofPair]
      refine hd.mono fun q hq _ => ?_
      rcases hq rfl with hq | ⟨hpath, hdefers⟩
      · exact hq
      · obtain ⟨x, hx, hxe⟩ := htrailed.1 hdefers
        exact ⟨x, hx, (Path.same_congr hxe q).trans hpath⟩

theorem handleDisk_marked (htotal : checks.Total) {e : Watch.Event} (h : s.Marked checks since)
    (halive : s.running.isAlive = true) :
    (s.step checks (.handleDisk e)).desk.Marked checks since
      (fun q => (s.step checks (.handleDisk e)).running.isAlive = true →
        Waits (s.step checks (.handleDisk e)).running.queue q) Desk.Never [] := by
  have hevent := Desk.onDiskEvent_marks htotal e s.desk h.desk
  have hsame : (⟨s.shared, s.running.workspace⟩ : Desk) = s.desk := rfl
  unfold step Running.handleDisk Running.work
  simp only [halive, if_true]
  rw [hsame]
  cases hrun : Desk.onDiskEvent checks e s.desk with
  | error err d => exact ((wp_of_error hrun).mp hevent).elim
  | ok u d => exact (wp_of_ok hrun).mp hevent

/-- **No turn leaves a tracked path with markers that do not fit, unless an event waits for it.** -/
theorem step_marked (htotal : checks.Total) (h : s.Marked checks since) : (s.step checks turn).Marked checks since := by
  refine ⟨?_, step_trails checks h.trailed⟩
  cases turn with
  | call c => exact afterCall_marked h
  | disk d => exact h.desk.withDisk d
  | handleWatchFailure =>
    rw [step, Running.handleWatchFailure]
    split
    · exact h.desk.reported _
    · exact h.desk
  | handleNext =>
    cases halive : s.running.isAlive with
    | false => simpa [step, Running.handleNext, halive, ofPair] using h.desk
    | true =>
      cases hqueue : s.running.queue with
      | nil => simpa [step, Running.handleNext, halive, hqueue, ofPair] using h.desk
      | cons e rest => exact handleNext_marked htotal h halive hqueue
  | handleDisk e =>
    cases halive : s.running.isAlive with
    | false => simpa [step, Running.handleDisk, halive, ofPair] using h.desk
    | true => exact handleDisk_marked htotal h halive

theorem run_marked (htotal : checks.Total) (h : s.Marked checks since) : (s.run checks turns).Marked checks since := by
  induction turns generalizing s with
  | nil => exact h
  | cons turn rest ih => exact ih (step_marked htotal h)

/-! ### From the opening on -/

variable {given replicaRoot root : Path} {shared : Shared} {start : Solo}

theorem marked_of_opened (htotal : checks.Total) (h : opened checks given replicaRoot shared = some start)
    (hheard : shared.isHeard = true) (hhonest : shared.store.Honest) : start.Marked checks shared := by
  obtain ⟨w, hrunning, hcreate⟩ := create_of_opened checks h
  have hdesk : Desk.Marked checks shared (fun _ => False) Desk.Never [] ⟨start.shared, w⟩ :=
    (wp_of_ok hcreate).mp (Desk.create_marks htotal hheard hhonest)
  constructor
  · rw [desk, hrunning]
    exact hdesk.mono fun _ hfalse => hfalse.elim
  · intro _
    rw [hrunning]
    trivial

end Solo

namespace Desk

/-- What is shown for a path is current: it is what the check of its document's text finds,
    or else, for a path that is compiled, what the latest compilation of it found. -/
def Current (checks : Checkers) (since : Shared) (d : Desk) (p : Path) : Prop :=
  ∃ doc r found, d.shared.store.get? p = some doc ∧ r.same p = true ∧ checks.check r doc.content = some found
    ∧ ∀ u, doc.uri = some u → d.Shows checks since p found u

/-- No markers are shown for a URI. -/
def Blank (since : Shared) (d : Desk) (u : Uri) : Prop := (since.shown d.shared u).getD [] = []

end Desk

namespace Solo

variable {checks : Checkers} {given replicaRoot root : Path} {shared : Shared} {start : Solo} {turns : List Turn}

/-- **What is shown is current.**  From the opening of a workspace on, and as long as no
    operation on the replica fails, no markers are shown for a file of the compiler's language
    under a URI that no document has.  And as long as the loop runs, nothing is shown for such
    a file that is not tracked and that no event waits for, and what is shown for one that is
    tracked and that no event waits for is current. -/
theorem current_of_run (htotal : checks.Total) (h : opened checks given replicaRoot shared = some start)
    (hroot : shared.disk.canonicalize given = .ok root) (hproper : shared.disk.Proper)
    (hfresh : ∀ p, root.Below p → shared.store.contains p = false) (hheard : shared.isHeard = true)
    (hhonest : shared.store.Honest) (hturns : ∀ turn ∈ turns, Regards root turn)
    (hfailures : (start.run checks turns).shared.failures = shared.failures) :
    let s := start.run checks turns
    ∀ p, root.Below p → (FileKind.ofPath p).isFaust = true →
      (∀ u, u.toPath? = some p → (∀ doc, s.shared.store.get? p = some doc → doc.uri ≠ some u) → s.desk.Blank shared u)
      ∧ (s.running.isAlive = true → (∀ e ∈ s.running.queue, e.path.same p = false) →
        (s.running.workspace.tracks p = false → ∀ u, u.toPath? = some p → s.desk.Blank shared u)
        ∧ (s.running.workspace.tracks p = true → s.desk.Current checks shared p)) := by
  intro s p hp hfaust
  have hs : s.Marked checks shared := run_marked htotal (marked_of_opened htotal h hheard hhonest)
  have hclear : ∀ u, u.toPath? = some p → (∀ doc, s.shared.store.get? p = some doc → doc.uri ≠ some u) →
      s.desk.Blank shared u := fun u hu hnone => hs.desk.clear p u hu hfaust hnone (by simp)
  refine ⟨hclear, fun halive hnone => ?_⟩
  have hregistered : s.Registered root :=
    run_registered checks (registered_of_opened checks h hroot hproper hfresh) hturns
  constructor
  · intro hout u hu
    apply hclear u hu
    intro doc hdoc
    have htracks := (hregistered.tracks_iff halive hnone).mpr ⟨Store.contains_of_get? hdoc, hp⟩
    simp [hout] at htracks
  · intro htracks
    obtain ⟨doc, hdoc⟩ := Option.isSome_iff_exists.mp (hregistered.desk.known p htracks)
    have hidle : ¬ (s.running.isAlive = true → Waits s.running.queue p) := by
      intro hwaits
      obtain ⟨e, he, hsame⟩ := hwaits halive
      simp [hnone e he] at hsame
    obtain ⟨r, found, hr, hcheck, -, hfit⟩ := hs.desk.fits hfailures p doc hdoc htracks hfaust hidle
    exact ⟨doc, r, found, hdoc, hr, hcheck, fun u hu => (hfit u hu).2 id⟩

/-- Checkers that find fault with some texts. -/
def strictCheckers : Checkers where
  check _ text := some (if text = "bad" then ["error"] else [])
  compile _ input := if input = some (Text.Utf8.encode "odd") then ["warning"] else []

/-- The small project just after its opening, when its texts are looked at. -/
def strict : Solo :=
  (opened strictCheckers ⟨"/w"⟩ ⟨"/r"⟩ { disk := smallDisk }).get (by decide +kernel)

/-- An editor opens the program with a text that does not compile well, and for a while
    another one with a text that has an error. -/
def editingTurns : List Turn :=
  [.call (.didOpen ⟨"/w/a.dsp"⟩ "odd"), .handleNext, .handleNext, .call (.didOpen ⟨"/w/b.dsp"⟩ "bad"),
    .call (.didClose ⟨"/w/b.dsp"⟩), .handleNext, .handleNext, .handleNext]

/-- What is shown for the program is current, and nothing is shown for the other one. -/
theorem current_while_editing :
    (strict.run strictCheckers editingTurns).desk.Current strictCheckers { disk := smallDisk } ⟨"/w/a.dsp"⟩
      ∧ (strict.run strictCheckers editingTurns).desk.Blank { disk := smallDisk }
        ⟨"file:///w/b.dsp", by decide +kernel⟩ := by
  have hturns : ∀ turn ∈ editingTurns, Regards ⟨"/w"⟩ turn := by
    intro turn hturn
    simp only [editingTurns, List.mem_cons, List.not_mem_nil, or_false] at hturn
    rcases hturn with rfl | rfl | rfl | rfl | rfl | rfl | rfl | rfl
    · exact (by decide : Path.startsWith ⟨"/w/a.dsp"⟩ ⟨"/w"⟩ = true)
    · trivial
    · trivial
    · exact (by decide : Path.startsWith ⟨"/w/b.dsp"⟩ ⟨"/w"⟩ = true)
    · exact (by decide : Path.startsWith ⟨"/w/b.dsp"⟩ ⟨"/w"⟩ = true)
    · trivial
    · trivial
    · trivial
  have htotal : strictCheckers.Total := fun _ _ => rfl
  have hopened : opened strictCheckers ⟨"/w"⟩ ⟨"/r"⟩ { disk := smallDisk } = some strict := (Option.some_get _).symm
  have hhonest : Store.Honest {} := fun p doc u hdoc => by simp [Store.get?] at hdoc
  have hend : (strict.run strictCheckers editingTurns).running.queue = []
      ∧ (strict.run strictCheckers editingTurns).running.isAlive = true
      ∧ (strict.run strictCheckers editingTurns).shared.failures = Shared.failures { disk := smallDisk }
      ∧ (strict.run strictCheckers editingTurns).running.workspace.tracks ⟨"/w/a.dsp"⟩ = true
      ∧ (strict.run strictCheckers editingTurns).running.workspace.tracks ⟨"/w/b.dsp"⟩ = false := by decide +kernel
  obtain ⟨hqueue, halive, hfailures, htracks, hout⟩ := hend
  have hcurrent := current_of_run htotal hopened small_begins.resolved small_begins.ground.proper (fun _ _ => rfl) rfl
    hhonest hturns hfailures
  constructor
  · have hbelow : Path.startsWith ⟨"/w/a.dsp"⟩ ⟨"/w"⟩ = true := by decide
    exact ((hcurrent _ hbelow (by decide)).2 halive (by simp [hqueue])).2 htracks
  · have hbelow : Path.startsWith ⟨"/w/b.dsp"⟩ ⟨"/w"⟩ = true := by decide
    exact ((hcurrent _ hbelow (by decide)).2 halive (by simp [hqueue])).1 hout _ (by decide +kernel)

/-- The other program is opened and closed, and it appears on the disk before the loop gets
    to these events. -/
def hastyTurns : List Turn :=
  [.call (.didOpen ⟨"/w/b.dsp"⟩ "bad"), .call (.didClose ⟨"/w/b.dsp"⟩),
    .disk (strict.shared.disk.insert [.text "w", .text "b.dsp"] (.file (Text.Utf8.encode "bad") 0o644)),
    .handleDisk (.written ⟨"/w/b.dsp"⟩)]

/-- It goes again, so that its opening finds no document and ends the loop, before the first
    program is changed. -/
def lateTurns : List Turn :=
  hastyTurns ++ [.disk strict.shared.disk, .handleDisk (.removed ⟨"/w/b.dsp"⟩), .handleNext,
    .call (.didOpen ⟨"/w/a.dsp"⟩ "bad")]

/-- While the opening waits, an error is shown for a path that is not tracked; and when the
    loop has ended, what is shown for a tracked path that nothing waits for is not current. -/
theorem shown_while_opening :
    ((strict.run strictCheckers hastyTurns).running.workspace.tracks ⟨"/w/b.dsp"⟩ = false
        ∧ (strict.run strictCheckers hastyTurns).shared.failures = 0
        ∧ ¬ (strict.run strictCheckers hastyTurns).desk.Blank { disk := smallDisk }
          ⟨"file:///w/b.dsp", by decide +kernel⟩)
      ∧ (strict.run strictCheckers lateTurns).running.workspace.tracks ⟨"/w/a.dsp"⟩ = true
      ∧ (strict.run strictCheckers lateTurns).shared.failures = 0
      ∧ (strict.run strictCheckers lateTurns).running.queue = []
      ∧ ¬ (strict.run strictCheckers lateTurns).desk.Current strictCheckers { disk := smallDisk } ⟨"/w/a.dsp"⟩ := by
  have hhasty : (strict.run strictCheckers hastyTurns).running.workspace.tracks ⟨"/w/b.dsp"⟩ = false
      ∧ (strict.run strictCheckers hastyTurns).shared.failures = 0
      ∧ Shared.shown { disk := smallDisk } (strict.run strictCheckers hastyTurns).desk.shared
          ⟨"file:///w/b.dsp", by decide +kernel⟩ = some ["error"] := by decide +kernel
  have hlate : (strict.run strictCheckers lateTurns).running.workspace.tracks ⟨"/w/a.dsp"⟩ = true
      ∧ (strict.run strictCheckers lateTurns).shared.failures = 0
      ∧ (strict.run strictCheckers lateTurns).running.queue = []
      ∧ ((strict.run strictCheckers lateTurns).desk.shared.store.get? ⟨"/w/a.dsp"⟩).map
        (fun doc => (doc.content, doc.uri)) = some ("bad", some ⟨"file:///w/a.dsp", by decide +kernel⟩)
      ∧ Shared.shown { disk := smallDisk } (strict.run strictCheckers lateTurns).desk.shared
          ⟨"file:///w/a.dsp", by decide +kernel⟩ = some [] := by decide +kernel
  obtain ⟨htracks, hfailures, hqueue, hcontent, hshown⟩ := hlate
  refine ⟨⟨hhasty.1, hhasty.2.1, fun hblank => ?_⟩, htracks, hfailures, hqueue, ?_⟩
  · simp [Desk.Blank, hhasty.2.2] at hblank
  · rintro ⟨doc, r, found, hdoc, -, hcheck, hshows⟩
    simp only [hdoc, Option.map_some, Option.some.injEq, Prod.mk.injEq] at hcontent
    have hfound : found = ["error"] := by simpa [strictCheckers, hcontent.1, eq_comm] using hcheck
    have hshow := hshows _ hcontent.2
    simp [Desk.Shows, hfound, hshown] at hshow

end Solo

end LiveWorkspace
