/-
  LiveWorkspace/Proofs/Workspace/Registry.lean
  ============================================
  **A workspace tracks just what has a document.**

  A document is entered by a call of the editor, and its path is tracked later, when the
  loop handles the opening.  The loop itself enters and tracks a path at once, and lets go
  of both at once; what an editor has open it keeps in both.  So the two sets differ by the
  openings that wait, and by nothing else (`Desk.Registered`).

  That every tracked path has a document needs no proviso: it holds also after a checker has
  broken down or the loop has failed, since from then on documents are only entered.
-/
import LiveWorkspace.Proofs.Replica.Naming
import LiveWorkspace.Proofs.Workspace.Awaited
import LiveWorkspace.Proofs.Workspace.LettingGo
import LiveWorkspace.Proofs.Workspace.Lodging

namespace LiveWorkspace

namespace Desk

variable {root p : Path} {late late' : Path → Prop} {d : Desk}

/-- All tracked paths have documents, and all documents of the workspace are tracked, but for
    those of the paths that are late. -/
structure Registered (root : Path) (late : Path → Prop) (d : Desk) : Prop where
  rooted : d.workspace.root = root
  proper : d.shared.disk.Proper
  below : ∀ q ∈ d.workspace.tracked, root.Below q
  known : ∀ q, d.workspace.tracks q = true → d.shared.store.contains q = true
  owned : ∀ q, d.shared.store.contains q = true → root.Below q →
    d.workspace.tracks q = true ∨ ∃ r, late r ∧ r.same q = true

namespace Registered

theorem mono (h : Registered root late d) (hlate : ∀ q, late q → late' q) : Registered root late' d :=
  { h with owned := fun q hin hq => (h.owned q hin hq).imp_right (Exists.imp fun r => And.imp_left (hlate r)) }

theorem withDisk (h : Registered root late d) {disk : Disk} (hdisk : disk.Proper) :
    Registered root late { d with shared := { d.shared with disk := disk } } := ⟨h.rooted, hdisk, h.below, h.known, h.owned⟩

/-- A revision neither enters nor drops a document. -/
theorem revised (h : Registered root late d) {r : Revision} {store : Store}
    (hstore : d.shared.store.revise? p r = .ok store) : Registered root late (d.withStore store) := by
  refine ⟨h.rooted, h.proper, h.below, fun q hq => ?_, fun q hin => ?_⟩
  · exact (Store.contains_revise? hstore q).trans (h.known q hq)
  · exact h.owned q ((Store.contains_revise? hstore q).symm.trans hin)

/-- A path is late no more when it is tracked. -/
theorem tracked (h : Registered root (fun q => late q ∨ q = p) d) (hp : root.Below p)
    (hin : d.shared.store.contains p = true) : Registered root late { d with workspace := d.workspace.track p } := by
  refine ⟨(Workspace.root_track _ p).trans h.rooted, h.proper, fun q hq => ?_, fun q hq => ?_, fun q hq hbelow => ?_⟩
  · rcases Agrees.mem_track hq with hq | rfl
    · exact h.below q hq
    · exact hp
  · simp only [Workspace.tracks_track, Bool.or_eq_true] at hq
    rcases hq with hq | hsame
    · exact h.known q hq
    · simpa [Store.contains, Store.get?_congr _ hsame] using hin
  · simp only [Workspace.tracks_track, Bool.or_eq_true]
    rcases h.owned q hq hbelow with htracks | ⟨r, hr | rfl, hsame⟩
    · exact .inl (.inl htracks)
    · exact .inr ⟨r, hr, hsame⟩
    · exact .inl (.inr hsame)

/-- A document that is entered is late. -/
theorem entered (h : Registered root late d) {doc : Document} (hnew : d.shared.store.contains doc.path = false) :
    Registered root (fun q => late q ∨ q = doc.path) (d.withStore (d.shared.store.insert doc)) := by
  refine ⟨h.rooted, h.proper, h.below, fun q hq => ?_, fun q hq hbelow => ?_⟩
  · exact Store.contains_insert (h.known q hq) doc
  · rw [withStore, Store.contains_insert_eq hnew, Bool.or_eq_true] at hq
    rcases hq with hq | hsame
    · exact (h.owned q hq hbelow).imp_right (Exists.imp fun _ => And.imp_left .inl)
    · exact .inr ⟨doc.path, .inr rfl, hsame⟩

/-- What is let go is neither tracked nor there any more. -/
theorem shrunk (h : Registered root late d) (gone : Path → Bool) {w : Workspace} {store : Store}
    (hroot : w.root = d.workspace.root) (hmem : ∀ q ∈ w.tracked, q ∈ d.workspace.tracked)
    (htracks : ∀ q, w.tracks q = (d.workspace.tracks q && !gone q))
    (hleft : ∀ q, store.contains q = true → d.shared.store.contains q = true ∧ gone q = false)
    (hkept : ∀ q, d.workspace.tracks q = true → gone q = false → store.contains q = true) :
    Registered root late ⟨{ d.shared with store := store }, w⟩ := by
  refine ⟨hroot.trans h.rooted, h.proper, fun q hq => h.below q (hmem q hq), fun q hq => ?_, fun q hq hbelow => ?_⟩
  · simp only [htracks, Bool.and_eq_true, Bool.not_eq_true'] at hq
    exact hkept q hq.1 hq.2
  · obtain ⟨hin, hnot⟩ := hleft q hq
    simpa [htracks, hnot] using h.owned q hin hbelow

/-- Letting go of a path lets go of its documents just where it lets go of its place. -/
theorem untracked (h : Registered root late d) (p : Path) : Registered root late (d.untracked p) := by
  have hstore : ∀ q, (d.untracked p).shared.store.contains q
      = (d.shared.store.contains q && !((d.gone p).any (·.same q) || !d.shared.store.isOpen p && p.same q)) := by
    intro q
    rw [Store.contains, get?_untracked, Store.contains]
    cases (d.gone p).any (·.same q) || !d.shared.store.isOpen p && p.same q <;> simp
  show Registered root late ⟨{ d.shared with store := (d.untracked p).shared.store }, (d.untracked p).workspace⟩
  refine h.shrunk (fun q => (d.gone p).any (·.same q)) (Workspace.root_foldl_release _ _) ?_
    (Workspace.tracks_foldl_release _ _) ?_ ?_
  · intro q hq
    exact Workspace.mem_foldl_release hq
  · intro q hq
    simp only [hstore, Bool.and_eq_true, Bool.not_eq_true', Bool.or_eq_false_iff] at hq
    exact ⟨hq.1, hq.2.1⟩
  · -- A path with the components of `p` is let go if it is tracked and not open.
    intro q hq hnot
    obtain ⟨r, hr, hrq⟩ := List.any_eq_true.mp hq
    have hown : p.same q = true → d.shared.store.isOpen p = true := by
      intro hpq
      have hsame : p.same r = true := by rwa [Path.same_congr hpq, Path.same_comm]
      cases hopen : d.shared.store.isOpen p with
      | true => rfl
      | false =>
        have hgone : r ∈ d.gone p := mem_gone.mpr ⟨hr, (Path.startsWith_congr hsame).symm.trans (Path.startsWith_refl p),
          (Store.isOpen_congr _ hsame).symm.trans hopen⟩
        exact absurd hrq (List.any_eq_false.mp hnot r hgone)
    cases hpq : p.same q with
    | false => simp [hstore, h.known q hq, hnot, hpq]
    | true => simp [hstore, h.known q hq, hnot, hown hpq]

/-- Dropping the document of a path whose place is given up as well. -/
theorem forgotten (h : Registered root late d) (p : Path) :
    Registered root late ({ d with workspace := d.workspace.release p }.withStore (d.shared.store.erase p)) := by
  refine h.shrunk p.same rfl ?_ (Workspace.tracks_release _ _) ?_ ?_
  · intro q hq
    exact (List.mem_filter.mp hq).1
  · intro q hq
    simpa [Store.contains_erase_eq] using hq
  · intro q hq hnot
    simp [Store.contains_erase_eq, h.known q hq, hnot]

end Registered

/-! ### What handlers keep -/

theorem registered_grows (root : Path) (late : Path → Prop) :
    Grows (Registered root late) root.Below fun _ => True where
  shared _ :=
    { report := fun _ _ h => ⟨h.rooted, h.proper, h.below, h.known, h.owned⟩
      publish := fun _ _ h => ⟨h.rooted, h.proper, h.below, h.known, h.owned⟩
      mark := fun _ _ _ _ h hstore => h.revised hstore }
  config _ _ _ h := ⟨h.rooted, h.proper, h.below, h.known, h.owned⟩
  closed _ _ _ _ := trivial
  below d p h hp := h.below p hp
  found d dir h hdir p hp := Path.startsWith_trans (Disk.startsWith_of_mem_tree h.proper hp) hdir
  watched _ _ h := ⟨h.rooted, h.proper, h.below, h.known, h.owned⟩
  taken d doc h hp hnew _ _ _ _ := by
    have hfound : (d.shared.store.insert doc).contains doc.path = true := by simp [Store.contains_insert_eq hnew, Path.same_refl]
    exact (h.entered hnew).tracked hp hfound
  revised _ _ _ _ h _ _ hstore := h.revised hstore
  tracked _ _ h hp hin := (h.mono fun _ => .inl).tracked hp hin
  worked _ _ _ h _ hop := h.withDisk (Replica.diskAfter_keeps (Replica.work_proper hop) h.proper)
  moved _ _ _ h _ _ := h.withDisk (Replica.diskAfter_keeps (Replica.rename_proper _ _) h.proper)

theorem registered_records (root : Path) (late : Path → Prop) : Records (Registered root late) :=
  fun _ _ _ _ h _ _ => ⟨h.rooted, h.proper, h.below, h.known, h.owned⟩

variable (checks : Checkers)

theorem onDiskEvent_registered {e : Watch.Event} (hp : root.Below e.path)
    (hsource : ∀ source, e.source = some source → root.Below source) :
    Preserves (Registered root late) (onDiskEvent checks e) := fun _ hd =>
  (registered_grows root late).onDiskEvent_keeps checks (registered_records root late) hp hsource
    (fun p _ _ hd' _ => wp_untrack (hd'.untracked p)) hd

/-- Once an event of the editor is handled, its path is late no more. -/
theorem onEditorEvent_registered {e : EditorEvent} {rest : List EditorEvent} (hp : root.Below e.path)
    (hd : Registered root (fun q => .opened q ∈ e :: rest) d) :
    wp (onEditorEvent checks e) (fun outcome => Registered root fun q => outcome = .ok () → .opened q ∈ rest)
      (fun _ => Registered root fun _ => True) d := by
  have hgrows := registered_grows root fun q => .opened q ∈ rest
  have hend : ∀ {act : Act Desk (Except WorkspaceError Unit)},
      wp act (fun _ => Registered root fun q => .opened q ∈ rest) (fun _ => Registered root fun q => .opened q ∈ rest) d →
      wp act (fun outcome => Registered root fun q => outcome = .ok () → .opened q ∈ rest)
        (fun _ => Registered root fun _ => True) d := fun h =>
    wp_imp h (fun _ _ hd => hd.mono fun _ hq _ => hq) fun _ _ hd => hd.mono fun _ _ => trivial
  have hother : (∀ q, e ≠ .opened q) → wp (onEditorEvent checks e)
      (fun _ => Registered root fun q => .opened q ∈ rest) (fun _ => Registered root fun q => .opened q ∈ rest) d := by
    intro hne
    refine hgrows.onEditorEvent_keeps checks (registered_records root _) hp (fun p _ => ?_) ?_
    · exact Registered.forgotten (hd.mono fun q hq => (List.mem_cons.mp hq).resolve_left fun he => hne q he.symm) p
    · exact hd.mono fun q hq => (List.mem_cons.mp hq).resolve_left fun he => hne q he.symm
  cases e with
  | changed p => exact hend (hother fun q he => by cases he)
  | closed p => exact hend (hother fun q he => by cases he)
  | opened p =>
    rw [onEditorEvent, wp_bind, wp_get]
    refine (wp_ite _ _).mpr ⟨fun _ => ?_, fun hin => ?_⟩
    · rw [wp_bind, wp_onShared, Shared.wp_report, wp_pure]
      exact ⟨hd.rooted, hd.proper, hd.below, hd.known, fun q hq hbelow => (hd.owned q hq hbelow).imp_right
        (Exists.imp fun _ => And.imp_left fun _ he => by cases he)⟩
    · simp only [Bool.not_eq_true', Bool.not_eq_false] at hin
      apply hend
      rw [wp_bind]
      refine wp_imp (hgrows.editorOpened_keeps hp (Registered.tracked (hd.mono fun q hq => ?_) hp hin))
        (fun _ _ hd => (wp_pure _).mpr hd) fun _ _ hd => hd
      exact (List.mem_cons.mp hq).symm.imp_right EditorEvent.opened.inj

end Desk

/-! ### Calls -/

/-- A document that a call enters is late until its opening is handled. -/
theorem Call.act_registered {root : Path} {late : Path → Prop} {w : Workspace} {s : Shared} (c : Call)
    (h : Desk.Registered root late ⟨s, w⟩) :
    wp (c.act w) (fun es s' => Desk.Registered root (fun q => late q ∨ .opened q ∈ es) ⟨s', w⟩) (fun _ _ => False) s := by
  refine wp_imp (act_ends (T := fun s => Desk.Registered root (fun q => late q ∨ .opened q ∈ c.events) ⟨s, w⟩)
    (fun r _ => ?_) (fun text hc hout => ?_) (h.mono fun _ => .inl)) (fun es s' hs' => ?_) fun _ _ hf => hf
  · exact ((Desk.registered_grows root _).shared w).revise_keeps fun _ _ h hstore => h.revised hstore
  · have hread : Desk.Registered root late ⟨s.afterRead c.path, w⟩ :=
      (Desk.registered_grows root late).calm.afterRead_keeps h c.path
    have hnew : (s.afterRead c.path).store.contains (s.entered c.path w.root true none (w.replicaPath c.path)).path
        = false := by
      rw [Shared.afterRead_store]
      exact hout
    have hentered := hread.entered hnew
    simp only [Desk.withStore, Shared.afterRead_store] at hentered
    refine hentered.mono fun q hq => hq.imp_right fun heq => ?_
    rw [heq, hc]
    exact List.mem_cons_self
  · obtain ⟨hregistered, hends⟩ := hs'
    cases hends with
    | missed hnew =>
      refine hregistered.mono fun q hq => hq.imp_right fun hopened => ?_
      obtain ⟨text, htext⟩ := eq_didOpen_of_mem_events hopened
      exact absurd htext (hnew text)
    | served => exact hregistered

/-! ### Runs -/

namespace Solo

variable {root p : Path} {s : Solo} {turn : Turn}

/-- The paths of a turn are at or below a root, and others give the disk names that a path
    can spell. -/
def Regards (root : Path) : Turn → Prop
  | .call c => root.Below c.path
  | .handleDisk e => root.Below e.path ∧ ∀ source, e.source = some source → root.Below source
  | .disk d => d.Proper
  | .handleNext | .handleWatchFailure => True

/-- A running workspace tracks just what has a document, but for the openings that wait. -/
structure Registered (root : Path) (s : Solo) : Prop where
  desk : s.desk.Registered root fun q => s.running.isAlive = true → .opened q ∈ s.running.queue
  queue : ∀ e ∈ s.running.queue, root.Below e.path

theorem Registered.ended {d : Desk} (h : d.Registered root fun _ => True) (how : Ending) :
    Solo.Registered root ⟨⟨d.workspace, [], some how⟩, d.shared⟩ := by
  refine ⟨h.mono fun q _ halive => ?_, fun e he => absurd he List.not_mem_nil⟩
  simp [Running.isAlive] at halive

/-- Where nothing waits, what is tracked is what has a document. -/
theorem Registered.tracks_iff (h : s.Registered root) (halive : s.running.isAlive = true)
    (hnone : ∀ e ∈ s.running.queue, e.path.same p = false) :
    s.running.workspace.tracks p = true ↔ s.shared.store.contains p = true ∧ p.startsWith root = true := by
  constructor
  · intro htracks
    obtain ⟨q, hq, hsame⟩ := List.any_eq_true.mp htracks
    exact ⟨h.desk.known p htracks, (Path.startsWith_congr hsame).symm.trans (h.desk.below q hq)⟩
  · rintro ⟨hin, hbelow⟩
    rcases h.desk.owned p hin hbelow with htracks | ⟨r, hr, hsame⟩
    · exact htracks
    · have hother := hnone _ (hr halive)
      simp [EditorEvent.path, hsame] at hother

variable (checks : Checkers)

theorem afterCall_registered {c : Call} (h : s.Registered root) (hc : root.Below c.path) :
    (s.afterCall c).Registered root := by
  obtain ⟨es, shared, hdesk, hpaths, hafter⟩ := afterCall_ends (Call.act_registered c h.desk)
  rw [hafter]
  refine ⟨?_, fun e he => ?_⟩
  · unfold enqueue
    split
    · rename_i halive
      refine Desk.Registered.mono hdesk fun q hq _ => List.mem_append.mpr (hq.imp_left fun hq => hq halive)
    · rename_i hended
      exact Desk.Registered.mono hdesk fun q _ halive => absurd halive hended
  · rcases mem_enqueue he with he | he
    · exact h.queue e he
    · rw [hpaths e he]
      exact hc

theorem handleNext_registered {e : EditorEvent} {rest : List EditorEvent} (h : s.Registered root)
    (halive : s.running.isAlive = true) (hqueue : s.running.queue = e :: rest) :
    (s.step checks .handleNext).Registered root := by
  have hdesk : s.desk.Registered root fun q => .opened q ∈ e :: rest :=
    h.desk.mono fun q hq => hqueue ▸ hq halive
  have hbelow : ∀ x ∈ e :: rest, root.Below x.path := hqueue ▸ h.queue
  have hevent := Desk.onEditorEvent_registered checks (hbelow e List.mem_cons_self) hdesk
  have hsame : (⟨s.shared, { s.running with queue := rest }.workspace⟩ : Desk) = s.desk := rfl
  have hending : s.running.ending = none := Option.isNone_iff_eq_none.mp halive
  unfold step Running.handleNext Running.work
  simp only [halive, hqueue]
  rw [hsame]
  cases hrun : Desk.onEditorEvent checks e s.desk with
  | error err d =>
    simp only [Running.finish, Running.isAlive, hending, Option.isNone_none, if_true, ofPair]
    exact .ended ((wp_of_error hrun).mp hevent) _
  | ok outcome d =>
    have hd := (wp_of_ok hrun).mp hevent
    cases outcome with
    | error err =>
      simp only [Running.finish, Running.isAlive, hending, Option.isNone_none, if_true, ofPair]
      exact .ended (((Desk.registered_grows root _).shared d.workspace).report d.shared _ (hd.mono fun _ _ => trivial)) _
    | ok _ =>
      simp only [hending, ofPair]
      exact ⟨hd.mono fun q hq _ => hq rfl, fun x hx => hbelow x (List.mem_cons_of_mem _ hx)⟩

theorem handleDisk_registered {e : Watch.Event} (h : s.Registered root) (halive : s.running.isAlive = true)
    (he : Regards root (.handleDisk e)) : (s.step checks (.handleDisk e)).Registered root := by
  have hevent := Desk.onDiskEvent_registered checks he.1 he.2 s.desk h.desk
  have hsame : (⟨s.shared, s.running.workspace⟩ : Desk) = s.desk := rfl
  have hending : s.running.ending = none := Option.isNone_iff_eq_none.mp halive
  unfold step Running.handleDisk Running.work
  simp only [halive, if_true]
  rw [hsame]
  cases hrun : Desk.onDiskEvent checks e s.desk with
  | error err d =>
    simp only [Running.finish, Running.isAlive, hending, Option.isNone_none, if_true, ofPair]
    exact .ended (((wp_of_error hrun).mp hevent).mono fun _ _ => trivial) _
  | ok u d => exact ⟨(wp_of_ok hrun).mp hevent, h.queue⟩

/-- **No turn leaves a tracked path without a document, or a document untracked whose opening
    does not wait.** -/
theorem step_registered (h : s.Registered root) (hturn : Regards root turn) : (s.step checks turn).Registered root := by
  cases turn with
  | call c => exact afterCall_registered h hturn
  | disk d => exact ⟨h.desk.withDisk hturn, h.queue⟩
  | handleWatchFailure =>
    rw [step, Running.handleWatchFailure]
    split
    · exact ⟨((Desk.registered_grows root _).shared _).report _ _ h.desk, h.queue⟩
    · exact h
  | handleNext =>
    cases halive : s.running.isAlive with
    | false => simpa [step, Running.handleNext, halive, ofPair] using h
    | true =>
      cases hqueue : s.running.queue with
      | nil => simpa [step, Running.handleNext, halive, hqueue, ofPair] using h
      | cons e rest => exact handleNext_registered checks h halive hqueue
  | handleDisk e =>
    cases halive : s.running.isAlive with
    | false => simpa [step, Running.handleDisk, halive, ofPair] using h
    | true => exact handleDisk_registered checks h halive hturn

theorem run_registered {turns : List Turn} (h : s.Registered root) (hturns : ∀ turn ∈ turns, Regards root turn) :
    (s.run checks turns).Registered root := by
  induction turns generalizing s with
  | nil => exact h
  | cons turn rest ih =>
    apply ih
    · exact step_registered checks h (hturns turn List.mem_cons_self)
    · exact fun t ht => hturns t (List.mem_cons_of_mem _ ht)

/-! ### From the opening on -/

variable {given replicaRoot : Path} {shared : Shared} {start : Solo} {turns : List Turn}

/-- A workspace that is opened where nothing has a document yet tracks just what it finds. -/
theorem registered_of_opened (h : opened checks given replicaRoot shared = some start)
    (hroot : shared.disk.canonicalize given = .ok root) (hproper : shared.disk.Proper)
    (hfresh : ∀ p, root.Below p → shared.store.contains p = false) : start.Registered root := by
  obtain ⟨w, hrunning, hcreate⟩ := create_of_opened checks h
  have hrun : wp (Workspace.create checks given replicaRoot) _ _ shared :=
    (Desk.registered_grows root fun _ => False).create_keeps checks (Desk.registered_records _ _)
      (fun d hd => hd.rooted ▸ Path.startsWith_refl _) fun resolved hresolved _ => ?_
  · have hdesk : Desk.Registered root (fun _ => False) ⟨start.shared, w⟩ := (wp_of_ok hcreate).mp hrun
    constructor
    · rw [desk, hrunning]
      exact hdesk.mono fun _ hfalse => hfalse.elim
    · simp [hrunning]
  · obtain rfl : root = resolved := by simpa [hroot] using hresolved
    refine ⟨rfl, Replica.replicate_proper _ _ hproper, fun q hq => ?_, fun q hq => ?_, fun q hq hbelow => ?_⟩
    · simp [Workspace.ofRoot] at hq
    · simp [Workspace.ofRoot, Workspace.tracks] at hq
    · simp [hfresh q hbelow] at hq

/-- **A workspace tracks just what has a document.**  After any turns from its opening on,
    every tracked path has a document.  And as long as the loop has not ended, a path for
    which no event waits is tracked just if it is at or below the root and has a document. -/
theorem tracks_iff_of_run (h : opened checks given replicaRoot shared = some start)
    (hroot : shared.disk.canonicalize given = .ok root) (hproper : shared.disk.Proper)
    (hfresh : ∀ p, root.Below p → shared.store.contains p = false) (hturns : ∀ turn ∈ turns, Regards root turn) :
    let s := start.run checks turns
    (∀ p, s.running.workspace.tracks p = true → s.shared.store.contains p = true)
      ∧ (s.running.isAlive = true → ∀ p, (∀ e ∈ s.running.queue, e.path.same p = false) →
        (s.running.workspace.tracks p = true ↔ s.shared.store.contains p = true ∧ p.startsWith root = true)) := by
  intro s
  have hs : s.Registered root := run_registered checks (registered_of_opened checks h hroot hproper hfresh) hturns
  exact ⟨hs.desk.known, fun halive p => hs.tracks_iff halive⟩

/-- A program is opened that is not on the disk, and the one that is there goes. -/
def replacingTurns : List Turn :=
  [.call (.didOpen ⟨"/w/b.dsp"⟩ "new"), .handleNext, .handleNext, .disk (smallDisk.erase [.text "w", .text "a.dsp"]),
    .handleDisk (.removed ⟨"/w/a.dsp"⟩)]

/-- The workspace tracks the program that has a document, and not the one that has none. -/
theorem tracks_while_replacing :
    (small.run contentCheckers replacingTurns).running.workspace.tracks ⟨"/w/b.dsp"⟩ = true
      ∧ ¬ (small.run contentCheckers replacingTurns).running.workspace.tracks ⟨"/w/a.dsp"⟩ = true := by
  have hturns : ∀ turn ∈ replacingTurns, Regards ⟨"/w"⟩ turn := by
    intro turn hturn
    simp only [replacingTurns, List.mem_cons, List.not_mem_nil, or_false] at hturn
    rcases hturn with rfl | rfl | rfl | rfl | rfl
    · exact (by decide : Path.startsWith ⟨"/w/b.dsp"⟩ ⟨"/w"⟩ = true)
    · trivial
    · trivial
    · exact Disk.proper_of_clear (by decide +kernel)
    · exact ⟨(by decide : Path.startsWith ⟨"/w/a.dsp"⟩ ⟨"/w"⟩ = true), fun _ hsource => by cases hsource⟩
  have hqueue : (small.run contentCheckers replacingTurns).running.queue = [] := by decide +kernel
  have hiff := (tracks_iff_of_run contentCheckers small_begins.opened small_begins.resolved small_begins.ground.proper
    (fun _ _ => rfl) hturns).2 (by decide +kernel)
  constructor
  · exact (hiff _ (by simp [hqueue])).mpr (by decide +kernel)
  · exact fun htracks => absurd ((hiff _ (by simp [hqueue])).mp htracks).1 (by decide +kernel)

end Solo

end LiveWorkspace
