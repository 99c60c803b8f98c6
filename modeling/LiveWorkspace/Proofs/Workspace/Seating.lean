/-
  LiveWorkspace/Proofs/Workspace/Seating.lean
  ===========================================
  **What a run keeps, whatever fails in it.**

  From its opening on a workspace has its root and its replica, works on paths below the root
  only, and leaves nothing in the replica but directories and files (`Desk.Seated`).  And all
  documents keep the URIs that their paths have.  Both hold after any turns, also when
  operations on the replica have failed.
-/
import LiveWorkspace.Proofs.Replica.Filling
import LiveWorkspace.Proofs.Workspace.CompilerMarkers

namespace LiveWorkspace

/-- A replica is tidy that is not there yet. -/
theorem Premises.Spelled.tidy {m : Premises} {ns ps : List String} {d : Disk} (h : m.Spelled ns ps)
    (hclear : d.isClear = true) (hleads : d.leads ps = true) (hnone : d.within m.site.zone = []) : m.site.Tidy d where
  stands := h.stands hclear hleads
  proper := Disk.proper_of_clear hclear
  named loc e hloc he := by
    rw [Disk.get?_of_within_eq_nil hnone hloc] at he
    cases he

namespace Desk

/-- The workspace has its root and its replica, tracks paths below the root, and the replica
    is tidy. -/
structure Seated (m : Premises) (d : Desk) : Prop where
  root : d.workspace.root = m.root
  replica : d.workspace.replica = ⟨m.site.dir⟩
  below : ∀ q ∈ d.workspace.tracked, m.root.Encloses q
  tidy : m.site.Tidy d.shared.disk

variable {m : Premises} {d : Desk} {p q : Path}

namespace Seated

theorem replicaPath_eq (h : d.Seated m) (p : Path) : d.workspace.replicaPath p = m.copyOf p := by
  rw [Workspace.replicaPath, h.root, h.replica]
  rfl

theorem withDisk (h : d.Seated m) {disk : Disk} (htidy : m.site.Tidy disk) :
    Seated m { d with shared := { d.shared with disk := disk } } := { h with tidy := htidy }

theorem track (h : d.Seated m) (hp : m.root.Encloses p) : Seated m { d with workspace := d.workspace.track p } where
  root := (Workspace.root_track _ p).trans h.root
  replica := by
    rw [← h.replica, Workspace.track]
    split <;> rfl
  below q hq := (Agrees.mem_track hq).elim (h.below q) fun hqp => hqp ▸ hp
  tidy := h.tidy

end Seated

/-- **All handlers leave a workspace in its place.** -/
theorem seated_kept (m : Premises) : Kept (Seated m) m.root.Encloses fun _ => True where
  shared _ := ⟨fun _ _ h => { h with root := h.root }, fun _ _ h => { h with root := h.root },
    fun _ _ _ _ h _ => { h with root := h.root }⟩
  config _ _ _ h := { h with root := h.root }
  closed _ _ _ _ := trivial
  below _ p h hp := h.below p hp
  found _ _ h hdir _ hp := (Disk.encloses_of_mem_tree h.tidy.proper hdir hp).1
  watched _ _ h := { h with root := h.root }
  taken _ _ h hp _ _ _ _ _ := { h.track hp with tidy := h.tidy }
  revised _ _ _ _ h _ _ _ := { h with root := h.root }
  tracked _ _ h hp _ := h.track hp
  worked d p op h hp hop := by
    rw [h.replicaPath_eq p] at hop
    exact h.withDisk (Replica.diskAfter_keeps (Site.work_keeps_tidy (Premises.spells_copyOf hp) hop) h.tidy)
  moved d p q h hp hq := by
    rw [h.replicaPath_eq p, h.replicaPath_eq q]
    exact h.withDisk (Replica.diskAfter_keeps
      (Site.rename_keeps_tidy (Premises.spells_copyOf hp) (Premises.spells_copyOf hq)) h.tidy)
  released _ _ h := { h with below := fun q hq => h.below q (List.mem_filter.mp hq).1 }
  erased _ _ h _ := { h with root := h.root }

theorem seated_records (m : Premises) : Records (Seated m) := fun _ _ _ _ h _ _ => { h with root := h.root }

/-- The URIs of documents bear all that handlers do. -/
theorem honest_heeds (checks : Checkers) : Heeds checks (fun _ d => d.shared.store.Honest) fun _ => True where
  aside _ _ _ h haside := by
    rw [haside.store]
    exact h
  revised _ _ _ _ h _ hstore := h.revised hstore
  entered _ _ h _ hnew huri := h.inserted hnew huri
  erased _ _ p h _ := h.erased p
  cleared _ _ _ _ h _ _ := by
    rw [Shared.told_store]
    exact h
  unowed _ _ _ h _ := h
  checked _ _ _ _ _ h _ _ _ _ := by
    rw [Shared.told_store]
    exact h
  compiled _ _ _ h _ _ := ⟨h, fun _ _ => by
    rw [Shared.told_store]
    exact h⟩

theorem reloadConfig_honest (checks : Checkers) :
    Preserves (Heeded fun _ d => d.shared.store.Honest) (reloadConfig checks) :=
  (honest_heeds checks).reloadConfig_heeds_of (fun _ _ _ _ hd hstore => hd.revised hstore) fun _ _ hd => hd

theorem onDiskEvent_honest (checks : Checkers) (e : Watch.Event) :
    Preserves (Heeded fun _ d => d.shared.store.Honest) (onDiskEvent checks e) := fun _ hd =>
  (honest_heeds checks).onDiskEvent_heeds (fun _ _ => trivial) (fun _ _ _ _ => trivial) hd (fun _ => hd)
    (fun _ _ hd => hd) (Preserves.ite (fun _ => reloadConfig_honest checks) fun _ => Preserves.pure _)

end Desk

namespace Solo

variable (checks : Checkers) {m : Premises} {given replicaRoot : Path} {shared : Shared} {s start : Solo} {turn : Turn}
  {turns : List Turn}

/-! ### Where the workspace is -/

/-- A running workspace is in its place, and so are the events that wait. -/
abbrev Seated (m : Premises) (s : Solo) : Prop := s.running.Bears (Desk.Seated m) m.root.Encloses s.shared

theorem afterCall_seated {c : Call} (h : s.Seated m) (hc : m.root.Encloses c.path) : (s.afterCall c).Seated m := by
  have hcalm := fun w => (Desk.seated_kept m).shared w
  obtain ⟨es, shared, hdesk, hpaths, hafter⟩ := afterCall_ends
    (Call.act_preserves (T := fun shared => Desk.Seated m ⟨shared, s.running.workspace⟩) (w := s.running.workspace)
      (fun q r => (hcalm _).revise_keeps fun _ _ h _ => { h with root := h.root })
      (fun q root replica shared h => by
        rw [Shared.wp_openPath]
        refine ⟨fun _ => h, fun _ => ?_⟩
        have hread := (Desk.seated_kept m).grows.calm.afterRead_keeps h q
        exact { hread with root := hread.root }) c s.shared h.desk)
  rw [hafter]
  refine ⟨?_, fun e he => ?_⟩
  · simpa only [enqueue_shared, enqueue_workspace] using hdesk
  · rcases mem_enqueue he with he | he
    · exact h.queue e he
    · rw [hpaths e he]
      exact hc

/-- **No turn moves the workspace**, whether operations fail in it or not. -/
theorem step_seated (h : s.Seated m) (hturn : Abides m s turn) : (s.step checks turn).Seated m := by
  cases turn with
  | call c => exact afterCall_seated h hturn
  | disk disk => exact ⟨h.desk.withDisk (h.desk.tidy.of_same hturn.zone hturn.proper hturn.reached), h.queue⟩
  | handleWatchFailure => exact (Desk.seated_kept m).handleWatchFailure_keeps h
  | handleNext => exact (Desk.seated_kept m).handleNext_keeps checks (Desk.seated_records m) h
  | handleDisk e => exact (Desk.seated_kept m).handleDisk_keeps checks (Desk.seated_records m) e hturn.1 hturn.2 h

theorem run_seated (h : s.Seated m) (hturns : s.Along checks (fun s turn _ => Abides m s turn) turns) :
    (s.run checks turns).Seated m := by
  induction turns generalizing s with
  | nil => exact h
  | cons turn rest ih => exact ih (step_seated checks h hturns.1) hturns.2

/-- Copying the tree of the root leaves the replica tidy. -/
theorem replicate_tidy {disk : Disk} (htidy : m.site.Tidy disk) (hself : m.root.Encloses m.root) :
    m.site.Tidy ((Replica.mk m.site.dir).replicate m.root disk).disk := by
  refine Replica.replicate_keeps (fun dir hdir => ?_) (fun file hfile => ?_) htidy
  · have hin := (Disk.encloses_of_mem_tree htidy.proper hself (.inl hdir)).1
    exact Site.work_keeps_tidy (Premises.spells_copyOf hin) (.adopt dir)
  · have hin := (Disk.encloses_of_mem_tree htidy.proper hself (.inr hfile)).1
    exact Site.copy_keeps_tidy (Premises.spells_copyOf hin) file

theorem seated_of_opened (h : opened checks given replicaRoot shared = some start)
    (hroot : shared.disk.canonicalize given = .ok m.root) (hplaced : Replica.ofWorkspace replicaRoot m.root = ⟨m.site.dir⟩)
    (htidy : m.site.Tidy shared.disk) : start.Seated m := by
  obtain ⟨w, hrunning, hcreate⟩ := create_of_opened checks h
  have hself := (Disk.encloses_of_canonicalize htidy.proper hroot).1
  have hstart : ∀ resolved, shared.disk.canonicalize given = .ok resolved → shared.disk.hasDirectory resolved = true →
      Desk.Seated m ⟨{ shared with disk := ((Replica.ofWorkspace replicaRoot resolved).replicate resolved shared.disk).disk },
        Workspace.ofRoot resolved replicaRoot⟩ := by
    intro resolved hresolved _
    obtain rfl : m.root = resolved := by simpa [hroot] using hresolved
    refine ⟨rfl, hplaced, fun q hq => absurd hq List.not_mem_nil, ?_⟩
    rw [hplaced]
    exact replicate_tidy htidy hself
  have hrun := (Desk.seated_kept m).grows.create_keeps checks (Desk.seated_records m) (fun d hd => hd.root ▸ hself) hstart
  have hdesk : Desk.Seated m ⟨start.shared, w⟩ := (wp_of_ok hcreate).mp hrun
  constructor
  · rw [hrunning]
    exact hdesk
  · simp [hrunning]

/-! ### The URIs of documents -/

/-- As long as the loop runs, documents have the URIs of their paths. -/
def Honest (s : Solo) : Prop :=
  s.running.isAlive = true → Desk.Heeded (fun _ d => d.shared.store.Honest) s.desk

theorem step_honest {root : Path} (h : s.Honest) (hturn : Regards root turn) : (s.step checks turn).Honest := by
  intro halive'
  have hs := h (isAlive_of_step checks halive')
  refine step_heeds checks (Desk.honest_heeds checks) hs hturn (P := fun _ => Desk.Heeded fun _ d => d.shared.store.Honest)
    (fun _ _ => id) (fun e rest _ => ?_) (fun e => ?_) halive'
  · refine (Desk.honest_heeds checks).onEditorEvent_heeds trivial hs (fun _ _ hok => by cases hok) (fun _ _ _ => trivial)
      (fun _ _ d hd _ => hd) fun _ d hd => (wp_ite _ _).mpr ⟨fun _ => ?_, fun _ => (wp_pure _).mpr fun _ => hd⟩
    rw [wp_bind]
    exact wp_imp (Desk.reloadConfig_honest checks d hd) (fun _ _ hd => (wp_pure _).mpr fun _ => hd) fun _ _ _ => trivial
  · exact wp_imp (Desk.onDiskEvent_honest checks e s.desk hs) (fun _ _ hd => hd) fun _ _ _ => trivial

theorem run_honest {root : Path} (h : s.Honest) (hturns : ∀ turn ∈ turns, Regards root turn) :
    (s.run checks turns).Honest := by
  induction turns generalizing s with
  | nil => exact h
  | cons turn rest ih =>
    refine ih ?_ fun t ht => hturns t (List.mem_cons_of_mem _ ht)
    exact step_honest checks h (hturns turn List.mem_cons_self)

theorem honest_of_opened (h : opened checks given replicaRoot shared = some start) (hproper : shared.disk.Proper)
    (hhonest : shared.store.Honest) : start.Honest := by
  obtain ⟨w, hrunning, hcreate⟩ := create_of_opened checks h
  have hheeds := Desk.honest_heeds checks
  have hnow : Desk.Heeded (fun _ d => d.shared.store.Honest) ⟨start.shared, w⟩ := by
    refine hheeds.create_heeds (fun _ => trivial) hcreate (fun root _ => ⟨hproper, hhonest⟩) fun d hd => ?_
    have hload : wp Desk.loadConfig (fun _ => Desk.Heeded fun _ d => d.shared.store.Honest) (fun _ _ => True) d :=
      hheeds.loadConfig_heeds (fun _ _ hd => hd) hd
    rw [wp_bind]
    refine wp_imp hload (fun _ d' hd' => ?_) fun _ _ he => he
    exact wp_imp (hheeds.compile_heeds d' hd') (fun _ _ hd => hd) fun _ _ _ => trivial
  have hdesk : start.desk = ⟨start.shared, w⟩ := by rw [desk, hrunning]
  intro _
  rwa [hdesk]

/-! ### States that are reached -/

theorem regards_of_along (h : s.Along checks (fun s turn _ => Abides m s turn) turns) :
    ∀ turn ∈ turns, Regards m.root turn := by
  induction turns generalizing s with
  | nil => exact fun _ hturn => absurd hturn List.not_mem_nil
  | cons turn rest ih =>
    rintro t (_ | ⟨_, ht⟩)
    · have hturn := h.1
      cases turn with
      | call c => exact hturn.1
      | disk disk => exact hturn.proper
      | handleNext => trivial
      | handleWatchFailure => trivial
      | handleDisk e => exact ⟨hturn.1.1, fun source hsource => (hturn.2 source hsource).1⟩
    · exact ih h.2 t ht

/-- A workspace is opened with a tidy replica, where nothing in it has a document yet. -/
structure Starts (m : Premises) (given replicaRoot : Path) (shared : Shared) (start : Solo) : Prop where
  opened : opened checks given replicaRoot shared = some start
  resolved : shared.disk.canonicalize given = .ok m.root
  placed : Replica.ofWorkspace replicaRoot m.root = ⟨m.site.dir⟩
  tidy : m.site.Tidy shared.disk
  fresh : ∀ p, m.root.Below p → shared.store.contains p = false
  honest : shared.store.Honest

/-- What can come of such a workspace, as long as all paths lie in it and others leave the
    replica alone. -/
def Reached (m : Premises) (s : Solo) : Prop :=
  ∃ given replicaRoot shared start turns, Starts checks m given replicaRoot shared start
    ∧ start.Along checks (fun s turn _ => Abides m s turn) turns ∧ s = start.run checks turns

namespace Reached

theorem seated (h : Reached checks m s) : s.Seated m := by
  obtain ⟨given, replicaRoot, shared, start, turns, hstart, hturns, rfl⟩ := h
  exact run_seated checks (seated_of_opened checks hstart.opened hstart.resolved hstart.placed hstart.tidy) hturns

theorem honest (h : Reached checks m s) : s.Honest := by
  obtain ⟨given, replicaRoot, shared, start, turns, hstart, hturns, rfl⟩ := h
  exact run_honest checks (honest_of_opened checks hstart.opened hstart.tidy.proper hstart.honest)
    (regards_of_along checks hturns)

theorem registered (h : Reached checks m s) : s.Registered m.root := by
  obtain ⟨given, replicaRoot, shared, start, turns, hstart, hturns, rfl⟩ := h
  refine run_registered checks (registered_of_opened checks hstart.opened hstart.resolved hstart.tidy.proper hstart.fresh) ?_
  exact regards_of_along checks hturns

/-- Where no event of the editor waits, all documents at and below a path are tracked. -/
theorem known (h : Reached checks m s) (halive : s.running.isAlive = true) (hqueue : s.running.queue = []) {p q : Path}
    (hp : m.root.Encloses p) (hq : q.startsWith p = true) (hin : s.shared.store.contains q = true) :
    s.running.workspace.tracks q = true := by
  refine ((h.registered checks).tracks_iff halive fun e he => ?_).mpr ⟨hin, Path.startsWith_trans hq hp.1⟩
  rw [hqueue] at he
  cases he

end Reached

/-- What a workspace comes to by turns that can be seen to abide is reached. -/
theorem Starts.reached {ns ps : List String} (h : Starts checks m given replicaRoot shared start)
    (hspelled : m.Spelled ns ps) (hturns : start.Along checks (fun s turn _ => Clear m ps s turn) turns) :
    Reached checks m (start.run checks turns) := by
  have habide := Along.imp checks (fun s turn _ => abides_of_clear hspelled) hturns
  exact ⟨given, replicaRoot, shared, start, turns, h, habide, rfl⟩

theorem small_starts : Starts contentCheckers smallPremises ⟨"/w"⟩ ⟨"/r"⟩ { disk := smallDisk } small where
  opened := small_begins.opened
  resolved := small_begins.resolved
  placed := small_begins.placed
  tidy := smallPremises_spelled.tidy (by decide +kernel) (by decide +kernel) (by decide +kernel)
  fresh _ _ := rfl
  honest p doc u hdoc := by simp [Store.get?] at hdoc

end Solo

end LiveWorkspace
