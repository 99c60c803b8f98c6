/-
  LiveWorkspace/Proofs/Workspace/Heeding.lean
  ===========================================
  **What a property must bear of a handler that leaves the configuration alone.**

  Two kinds of property are neither about the shared state alone nor kept by whatever is
  published: what is shown for a path, and what the document says that holds the
  configuration.  Up to the point where the configuration is read again, a handler touches
  documents of its own paths only, and publishes what checks and compilations of documents
  find.  A property that bears this (`Heeds`) is kept up to there, and what happens at that
  point is left to the property's own lemmas.

  Documents that have been dropped still have their markers for a moment.  So the property
  speaks of a list of such documents as well, which is empty but for the time between the
  dropping and the publication of the lists that take the markers away.
-/
import LiveWorkspace.Proofs.Replica.Naming
import LiveWorkspace.Proofs.Workspace.Markers
import LiveWorkspace.Workspace.Running

namespace LiveWorkspace

/-! ### Sending messages -/

namespace Shared

/-- The shared state after messages were sent for a URI, whether anybody heard them or not. -/
def told (s : Shared) (u : Uri) (messages : List String) : Shared :=
  if s.isHeard then { s with published := s.published ++ [⟨u, messages⟩] }
  else { s with reports := s.reports ++ [.warning "Diagnostics receiver dropped"] }

theorem wp_publish_told {Q : PUnit → Shared → Prop} {E : Crash → Shared → Prop} {s : Shared} (u : Uri)
    (messages : List String) : wp (publish u messages) Q E s ↔ Q ⟨⟩ (s.told u messages) := by
  simp only [publish, wp_bind, wp_get, wp_ite, wp_modify, wp_report, told]
  split <;> simp_all

theorem told_store (s : Shared) (u : Uri) (messages : List String) : (s.told u messages).store = s.store := by
  rw [told]
  split <;> rfl

theorem told_disk (s : Shared) (u : Uri) (messages : List String) : (s.told u messages).disk = s.disk := by
  rw [told]
  split <;> rfl

theorem told_compiled (s : Shared) (u : Uri) (messages : List String) : (s.told u messages).compiled = s.compiled := by
  rw [told]
  split <;> rfl

theorem told_isHeard (s : Shared) (u : Uri) (messages : List String) : (s.told u messages).isHeard = s.isHeard := by
  rw [told]
  split <;> rfl

end Shared

theorem Workspace.config_foldl_release (ps : List Path) (w : Workspace) : (ps.foldl release w).config = w.config := by
  induction ps generalizing w with
  | nil => rfl
  | cons p rest ih => exact ih (w.release p)

namespace Desk

/-- Work on the shared part leaves the workspace alone. -/
theorem onShared_workspace {α : Type} (act : Act Shared α) (w : Workspace) :
    Preserves (fun d : Desk => d.workspace = w) (liftM act : Act Desk α) :=
  onShared_keeps fun _ s hw => wp_imp (wp_true act s) (fun _ _ _ => hw) fun _ _ _ => hw

/-! ### Properties of documents and of what is shown -/

/-- Nothing differs between two desks that concerns documents, what was published and
    compiled for them, or the configuration. -/
structure Aside (d d' : Desk) : Prop where
  store : d'.shared.store = d.shared.store
  heard : d'.shared.isHeard = d.shared.isHeard
  published : d'.shared.published = d.shared.published
  compiled : d'.shared.compiled = d.shared.compiled
  root : d'.workspace.root = d.workspace.root
  config : d'.workspace.config = d.workspace.config

/-- A property of a desk, and of documents that have been dropped and still have their
    markers, which handlers keep that touch documents of paths with `S` only, up to the point
    where the configuration is read again. -/
structure Heeds (checks : Checkers) (J : List Document → Desk → Prop) (S : Path → Prop) : Prop where
  aside : ∀ owed d d', J owed d → d.Aside d' → J owed d'
  revised : ∀ d p r store, J [] d → S p → d.shared.store.revise? p r = .ok store → J [] (d.withStore store)
  entered : ∀ d (doc : Document), J [] d → S doc.path → d.shared.store.contains doc.path = false →
    (∀ u, doc.uri = some u → u.toPath? = some doc.path) → J [] (d.withStore (d.shared.store.insert doc))
  erased : ∀ owed d p, J owed d → S p →
    J (owed ++ (d.shared.store.get? p).toList) (d.withStore (d.shared.store.erase p))
  cleared : ∀ owed d doc u, J (doc :: owed) d → doc.kind.isFaust = true → doc.uri = some u →
    J owed { d with shared := d.shared.told u [] }
  unowed : ∀ owed d doc, J (doc :: owed) d → (doc.kind.isFaust = true → doc.uri = none) → J owed d
  checked : ∀ d p doc u found, J [] d → d.shared.store.get? p = some doc → doc.kind.isFaust = true →
    doc.uri = some u → checks.check p doc.content = some found → J [] { d with shared := d.shared.told u found }
  compiled : ∀ d doc (c : Compilation), J [] d → d.workspace.compiles c.request.path = true →
    d.shared.store.get? c.request.path = some doc →
      let after : Shared := { d.shared with compiled := d.shared.compiled ++ [c] }
      J [] { d with shared := after }
        ∧ ∀ u, doc.uri = some u → J [] { d with shared := after.told u (checks.compile c.request c.input) }

/-- All paths at and below a path have a property. -/
def Throughout (S : Path → Prop) (p : Path) : Prop := ∀ q, q.startsWith p = true → S q

theorem Throughout.self {S : Path → Prop} {p : Path} (h : Throughout S p) : S p := h p (Path.startsWith_refl p)

/-- A property that needs no markers taken away holds, and the disk gives its entries names
    that a path can spell. -/
def Heeded (J : List Document → Desk → Prop) (d : Desk) : Prop := d.shared.disk.Proper ∧ J [] d

/-- A property of the root and of the configuration bears all that handlers do up to where the
    configuration is read again. -/
theorem workspace_heeds (checks : Checkers) (P : Path → ProjectConfig → Prop) :
    Heeds checks (fun _ d => P d.workspace.root d.workspace.config) fun _ => True where
  aside _ _ _ hd haside := by
    rw [haside.root, haside.config]
    exact hd
  revised _ _ _ _ hd _ _ := hd
  entered _ _ hd _ _ _ := hd
  erased _ _ _ hd _ := hd
  cleared _ _ _ _ hd _ _ := hd
  unowed _ _ _ hd _ := hd
  checked _ _ _ _ _ hd _ _ _ _ := hd
  compiled _ _ _ hd _ _ := ⟨hd, fun _ _ => hd⟩

namespace Heeds

variable {checks : Checkers} {J J' : List Document → Desk → Prop} {S : Path → Prop} {d : Desk} {p : Path}
  {owed : List Document}

theorem and (h : Heeds checks J S) (h' : Heeds checks J' S) : Heeds checks (fun owed d => J owed d ∧ J' owed d) S where
  aside owed d d' hd haside := ⟨h.aside owed d d' hd.1 haside, h'.aside owed d d' hd.2 haside⟩
  revised d p r store hd hp hstore := ⟨h.revised d p r store hd.1 hp hstore, h'.revised d p r store hd.2 hp hstore⟩
  entered d doc hd hp hnew huri := ⟨h.entered d doc hd.1 hp hnew huri, h'.entered d doc hd.2 hp hnew huri⟩
  erased owed d p hd hp := ⟨h.erased owed d p hd.1 hp, h'.erased owed d p hd.2 hp⟩
  cleared owed d doc u hd hkind hu := ⟨h.cleared owed d doc u hd.1 hkind hu, h'.cleared owed d doc u hd.2 hkind hu⟩
  unowed owed d doc hd hdoc := ⟨h.unowed owed d doc hd.1 hdoc, h'.unowed owed d doc hd.2 hdoc⟩
  checked d p doc u found hd hdoc hkind hu hfound :=
    ⟨h.checked d p doc u found hd.1 hdoc hkind hu hfound, h'.checked d p doc u found hd.2 hdoc hkind hu hfound⟩
  compiled d doc c hd hcompiles hdoc := by
    obtain ⟨hrecorded, htold⟩ := h.compiled d doc c hd.1 hcompiles hdoc
    obtain ⟨hrecorded', htold'⟩ := h'.compiled d doc c hd.2 hcompiles hdoc
    exact ⟨⟨hrecorded, hrecorded'⟩, fun u hu => ⟨htold u hu, htold' u hu⟩⟩

/-! ### Small steps -/

theorem report_heeds (h : Heeds checks J S) (r : Report) : Preserves (Heeded J) (liftM (Shared.report r) : Act Desk Unit) := by
  intro d hd
  rw [wp_onShared, Shared.wp_report]
  exact ⟨hd.1, h.aside _ _ _ hd.2 ⟨rfl, rfl, rfl, rfl, rfl, rfl⟩⟩

theorem afterRead_heeds (h : Heeds checks J S) (hd : Heeded J d) (p : Path) :
    Heeded J { d with shared := d.shared.afterRead p } := by
  unfold Shared.afterRead
  split
  · exact hd
  · exact ⟨hd.1, h.aside _ _ _ hd.2 ⟨rfl, rfl, rfl, rfl, rfl, rfl⟩⟩

theorem onReplica_heeds (h : Heeds checks J S) {op : ReplicaOp Unit} (hop : Preserves Disk.Proper op) (failure : String) :
    Preserves (Heeded J) (onReplica op failure) := by
  intro d hd
  rw [onReplica, wp_bind, wp_onShared, Shared.onDisk, wp_modifyGet]
  have hproper := Replica.diskAfter_keeps hop hd.1
  rw [Replica.diskAfter] at hproper
  have haside : ∀ disk : Disk, disk.Proper → Heeded J { d with shared := { d.shared with disk := disk } } :=
    fun disk hdisk => ⟨hdisk, h.aside _ _ _ hd.2 ⟨rfl, rfl, rfl, rfl, rfl, rfl⟩⟩
  cases hrun : op d.shared.disk with
  | ok u disk =>
    rw [hrun] at hproper
    exact (wp_pure _).mpr (haside disk hproper)
  | error err disk =>
    rw [hrun] at hproper
    simp only [wp_bind]
    exact wp_imp (h.report_heeds _ _ (haside disk hproper)) (fun _ _ hd => (wp_pure _).mpr hd) fun _ _ hd => hd

theorem syncReplica_heeds (h : Heeds checks J S) (p : Path) : Preserves (Heeded J) (syncReplica p) := by
  rw [syncReplica]
  refine Preserves.get_bind fun d _ => ?_
  split
  · exact Preserves.pure _
  · exact Preserves.bind (h.onReplica_heeds (Replica.work_proper (.write _)) _) fun _ => Preserves.pure _

theorem resyncOpen_heeds (h : Heeds checks J S) (p : Path) : Preserves (Heeded J) (resyncOpen p) := by
  rw [resyncOpen]
  refine Preserves.get_bind fun d _ => Preserves.forM _ fun q _ => Preserves.get_bind fun d' _ => ?_
  exact Preserves.ite (fun _ => h.syncReplica_heeds q) fun _ => Preserves.pure _

theorem adoptDir_heeds (h : Heeds checks J S) (dir : Path) : Preserves (Heeded J) (adoptDir dir) := by
  rw [adoptDir]
  refine Preserves.get_bind fun d _ =>
    Preserves.bind (h.onReplica_heeds (Replica.work_proper (.adopt dir)) _) fun _ => Preserves.modify fun d hd => ?_
  exact ⟨hd.1, h.aside _ _ _ hd.2 ⟨rfl, rfl, rfl, rfl, rfl, rfl⟩⟩

theorem track_heeds (h : Heeds checks J S) (p : Path) : Preserves (Heeded J) (track p) := by
  refine Preserves.modify fun d hd => ⟨hd.1, h.aside _ _ _ hd.2 ?_⟩
  unfold Workspace.track
  split <;> exact ⟨rfl, rfl, rfl, rfl, rfl, rfl⟩

/-- What is found below a path is at or below it. -/
theorem tree_heeds (h : Heeds checks J S) {dir : Path} (hdir : Throughout S dir) (hd : Heeded J d) :
    wp (liftM (Shared.tree dir) : Act Desk Tree)
      (fun tree d' => Heeded J d' ∧ ∀ q, q ∈ tree.dirs ∨ q ∈ tree.files → S q) (fun _ => Heeded J) d := by
  rw [wp_onShared, Shared.tree, wp_bind, wp_get, wp_bind]
  refine wp_imp (Preserves.forM (I := fun s => Heeded J ⟨s, d.workspace⟩) _ (fun r _ s hs => ?_) d.shared hd)
    (fun _ s hs => (wp_pure _).mpr ⟨hs, fun q hq => ?_⟩) fun _ _ hs => hs
  · rw [Shared.wp_report]
    exact ⟨hs.1, h.aside _ _ _ hs.2 ⟨rfl, rfl, rfl, rfl, rfl, rfl⟩⟩
  · exact hdir q (Disk.startsWith_of_mem_tree hd.1 hq)

/-! ### Documents -/

theorem revise_heeds (h : Heeds checks J S) (hp : S p) (r : Revision) :
    Preserves (Heeded J) (liftM (Shared.revise p r) : Act Desk _) := by
  intro d hd
  rw [wp_onShared, Shared.wp_revise]
  constructor
  · intro store hstore
    exact ⟨hd.1, h.revised d p r store hd.2 hp hstore⟩
  · intro _
    exact ⟨hd.1, h.aside _ _ _ hd.2 ⟨rfl, rfl, rfl, rfl, rfl, rfl⟩⟩

/-- Reading a document again fails only where there is none. -/
theorem reload_finds (h : Heeds checks J S) (hp : S p) (hd : Heeded J d) :
    wp (liftM (Shared.reload p) : Act Desk _)
      (fun outcome d' => Heeded J d' ∧ (outcome.isOk = false → d'.shared.store.contains p = false))
      (fun _ => Heeded J) d := by
  have hread := h.afterRead_heeds hd p
  rw [wp_onShared, Shared.reload, wp_bind, Shared.wp_readText, Shared.wp_revise]
  constructor
  · intro store hstore
    exact ⟨⟨hread.1, h.revised _ p _ store hread.2 hp hstore⟩, by simp [Except.isOk, Except.toBool]⟩
  · intro hout
    exact ⟨⟨hread.1, h.aside _ _ _ hread.2 ⟨rfl, rfl, rfl, rfl, rfl, rfl⟩⟩, fun _ => hout⟩

theorem reload_heeds (h : Heeds checks J S) (hp : S p) :
    Preserves (Heeded J) (liftM (Shared.reload p) : Act Desk _) := fun _ hd =>
  wp_imp (h.reload_finds hp hd) (fun _ _ hd => hd.1) fun _ _ hd => hd

/-- A document that is entered without a URI gets that of its path. -/
theorem openPath_heeds (h : Heeds checks J S) (hp : S p) (root : Path) (byEditor : Bool) (replica : Path) :
    Preserves (Heeded J) (liftM (Shared.openPath p root byEditor none replica) : Act Desk Bool) := by
  intro d hd
  rw [wp_onShared, Shared.wp_openPath]
  refine ⟨fun _ => hd, fun hout => ?_⟩
  have hread := h.afterRead_heeds hd p
  have hentered := h.entered _ (d.shared.entered p root byEditor none replica) hread.2 hp
    (by rwa [Shared.afterRead_store]) fun u hu => Path.toPath?_of_toUri? (by simpa [Shared.entered] using hu)
  simp only [withStore, Shared.afterRead_store] at hentered
  exact ⟨hread.1, hentered⟩

theorem trackFile_heeds (h : Heeds checks J S) (hp : S p) : Preserves (Heeded J) (trackFile p) := by
  rw [trackFile]
  refine Preserves.get_bind fun d _ => Preserves.bind (h.openPath_heeds hp _ _ _) fun isNew => ?_
  refine Preserves.get_bind fun d _ => Preserves.ite (fun _ => ?_) fun _ => h.track_heeds p
  exact Preserves.bind (h.reload_heeds hp) fun _ => h.track_heeds p

/-! ### Checks and compilations -/

/-- A check of a path keeps what bears its marks. -/
theorem check_heeds_of (h : Heeds checks J S)
    (hrevised : ∀ d r store, J [] d → d.shared.store.revise? p r = .ok store → J [] (d.withStore store)) :
    Preserves (Heeded J) (liftM (Shared.check checks p) : Act Desk Bool) := by
  intro d hd
  rw [wp_onShared, Shared.check, wp_bind, wp_get]
  cases hdoc : d.shared.store.get? p with
  | none => exact (wp_pure _).mpr hd
  | some doc =>
    refine (wp_ite _ _).mpr ⟨fun _ => (wp_pure _).mpr hd, fun hfaust => ?_⟩
    simp only [Bool.not_eq_true', Bool.not_eq_false] at hfaust
    cases hfound : checks.check p doc.content with
    | none => exact (wp_throw _).mpr hd
    | some found =>
      rw [wp_bind, Shared.wp_revise]
      constructor
      · intro store hstore
        have hmarked := hrevised d _ store hd.2 hstore
        dsimp only
        cases hu : doc.uri with
        | none => exact (wp_pure _).mpr ⟨hd.1, hmarked⟩
        | some u =>
          have hget : store.get? p = some { doc with hasErrors := !found.isEmpty } := by
            rw [Store.get?_of_revise? hstore, if_pos (Path.same_refl p), hdoc]
            rfl
          rw [wp_bind, Shared.wp_publish_told, wp_pure]
          refine ⟨?_, h.checked _ p _ u found hmarked hget hfaust hu hfound⟩
          rw [Shared.told_disk]
          exact hd.1
      · intro hout
        simp [Store.contains, hdoc] at hout

theorem check_heeds (h : Heeds checks J S) (hp : S p) :
    Preserves (Heeded J) (liftM (Shared.check checks p) : Act Desk Bool) :=
  h.check_heeds_of fun d r store hd hstore => h.revised d p r store hd hp hstore

theorem compileFile_heeds (h : Heeds checks J S) {w : Workspace} (hp : w.compiles p = true) (replicaDir : Path)
    (config : ProjectConfig) : Preserves (fun s => Heeded J ⟨s, w⟩) (Shared.compileFile checks replicaDir config p) := by
  intro s hs
  rw [Shared.compileFile, wp_bind, wp_get]
  split
  · exact (wp_pure _).mpr hs
  · rename_i doc hdoc
    refine (wp_ite _ _).mpr ⟨fun _ => (wp_pure _).mpr hs, fun _ => ?_⟩
    rw [wp_bind, wp_get, wp_bind, wp_modify]
    have hcompiled := h.compiled ⟨s, w⟩ doc ⟨⟨p, doc.replica, replicaDir, config⟩, (s.disk.read doc.replica).toOption,
      doc.content⟩ hs.2 hp hdoc
    split
    · rename_i u hu
      rw [Shared.wp_publish_told]
      refine ⟨?_, hcompiled.2 u hu⟩
      rw [Shared.told_disk]
      exact hs.1
    · exact (wp_pure _).mpr ⟨hs.1, hcompiled.1⟩

theorem compile_heeds (h : Heeds checks J S) : Preserves (Heeded J) (compile checks) := by
  intro d hd
  rw [compile, wp_bind, wp_get, wp_onShared, Shared.compile, wp_ite]
  refine ⟨fun hwanted => ?_, fun _ => (wp_pure _).mpr hd⟩
  refine Preserves.forM (I := fun s => Heeded J ⟨s, d.workspace⟩) _ (fun q hq => ?_) d.shared hd
  refine h.compileFile_heeds ?_ _ _
  simp only [Workspace.compiles, hwanted, Bool.true_and, List.any_eq_true]
  exact ⟨q, hq, Path.same_refl q⟩

theorem diagnose_heeds (h : Heeds checks J S) (hp : S p) : Preserves (Heeded J) (diagnose checks p) := by
  rw [diagnose]
  exact Preserves.bind (h.check_heeds hp) fun _ => Preserves.ite (fun _ => h.compile_heeds) fun _ => Preserves.pure _

/-! ### Taking up and letting go -/

theorem adoptFile_heeds (h : Heeds checks J S) (hp : S p) : Preserves (Heeded J) (adoptFile checks p) := by
  rw [adoptFile]
  refine Preserves.bind (h.trackFile_heeds hp) fun _ => Preserves.bind (h.syncReplica_heeds p) fun _ => ?_
  exact Preserves.bind (h.check_heeds hp) fun _ => Preserves.pure _

theorem trackDir_heeds (h : Heeds checks J S) (hp : Throughout S p) : Preserves (Heeded J) (trackDir checks p) := by
  intro d hd
  rw [trackDir, wp_bind]
  refine wp_imp (h.tree_heeds hp hd) (fun tree d' hd' => ?_) fun _ _ hd' => hd'
  refine Preserves.bind (Preserves.forM _ fun q _ => h.adoptDir_heeds q) (fun _ => ?_) d' hd'.1
  refine Preserves.bind (Preserves.forM _ fun q hq => h.adoptFile_heeds (hd'.2 q (.inr hq))) fun _ => ?_
  exact Preserves.ite (fun _ => h.compile_heeds) fun _ => Preserves.pure _

theorem clear_heeds (h : Heeds checks J S) (doc : Document) (hproper : d.shared.disk.Proper) (hd : J (doc :: owed) d) :
    wp (liftM (Shared.clear doc) : Act Desk Unit) (fun _ d' => d'.shared.disk.Proper ∧ J owed d') (fun _ => Heeded J) d := by
  rw [wp_onShared, Shared.clear, wp_ite]
  constructor
  · intro hfaust
    cases hu : doc.uri with
    | none => exact (wp_pure _).mpr ⟨hproper, h.unowed owed d doc hd fun _ => hu⟩
    | some u =>
      rw [Shared.wp_publish_told]
      refine ⟨?_, h.cleared owed d doc u hd hfaust hu⟩
      rw [Shared.told_disk]
      exact hproper
  · intro hother
    exact (wp_pure _).mpr ⟨hproper, h.unowed owed d doc hd fun hfaust => absurd hfaust hother⟩

theorem clears_heed (h : Heeds checks J S) (hproper : d.shared.disk.Proper) (hd : J owed d) :
    wp (owed.forM fun doc => (Shared.clear doc : Act Shared Unit) : Act Desk Unit) (fun _ => Heeded J) (fun _ => Heeded J) d := by
  induction owed generalizing d with
  | nil => exact (wp_pure _).mpr ⟨hproper, hd⟩
  | cons doc rest ih =>
    simp only [List.forM, wp_bind]
    exact wp_imp (h.clear_heeds doc hproper hd) (fun _ d' hd' => ih hd'.1 hd'.2) fun _ _ hd' => hd'

theorem dropped_heeds (h : Heeds checks J S) (ps : List Path) (hps : ∀ q ∈ ps, S q) (hd : J owed d) :
    J (owed ++ d.shared.store.droppedWith ps) (d.withStore (ps.foldl Store.erase d.shared.store)) := by
  induction ps generalizing d owed with
  | nil =>
    rw [Store.droppedWith, List.append_nil]
    exact hd
  | cons p rest ih =>
    have hrest := ih (fun q hq => hps q (List.mem_cons_of_mem _ hq)) (h.erased owed d p hd (hps p List.mem_cons_self))
    rw [List.append_assoc] at hrest
    exact hrest

theorem untrackAndClear_heeds (h : Heeds checks J S) (hp : Throughout S p) : Preserves (Heeded J) (untrackAndClear p) := by
  intro d hd
  have hdropped : J (d.droppedAt p) (d.untracked p) := by
    have hgone := h.dropped_heeds (d.gone p) (fun q hq => hp q (mem_gone.mp hq).2.1) hd.2
    have hroot := Workspace.root_foldl_release (d.gone p) d.workspace
    have hconfig := Workspace.config_foldl_release (d.gone p) d.workspace
    cases hopen : d.shared.store.isOpen p with
    | true =>
      refine h.aside _ _ _ (by simpa [droppedAt, hopen] using hgone) ?_
      exact ⟨by simp [untracked, withStore, hopen], rfl, rfl, rfl, hroot, hconfig⟩
    | false =>
      have hown := h.dropped_heeds [p] (by simpa using hp.self) hgone
      refine h.aside _ _ _ (by simpa [droppedAt, hopen, withStore] using hown) ?_
      exact ⟨by simp [untracked, withStore, hopen], rfl, rfl, rfl, hroot, hconfig⟩
  rw [untrackAndClear, wp_bind]
  exact wp_untrack (h.clears_heed hd.1 hdropped)

/-- Dropping the document of a path and removing its copy, by what holds when the document has
    gone and its markers have not. -/
theorem forget_heeds_of (h : Heeds checks J S) (copy : Path) (hproper : d.shared.disk.Proper)
    (hdropped : J (d.shared.store.get? p).toList
      ({ d with workspace := d.workspace.release p }.withStore (d.shared.store.erase p))) :
    wp (do
      release p
      match ← Shared.dropDocument p with
      | some doc => Shared.clear doc
      | none => pure ()
      let _ ← onReplica (Replica.remove copy) "Failed to remove mirror file" : Act Desk Unit)
      (fun _ => Heeded J) (fun _ => Heeded J) d := by
  have hend : Preserves (Heeded J) (do let _ ← onReplica (Replica.remove copy) "Failed to remove mirror file") :=
    Preserves.bind (h.onReplica_heeds (Replica.work_proper .remove) _) fun _ => Preserves.pure _
  rw [wp_bind, release, wp_modify, wp_bind, wp_onShared, Shared.wp_dropDocument]
  dsimp only
  split
  · rename_i doc hdoc
    rw [hdoc] at hdropped
    rw [wp_bind]
    exact wp_imp (h.clear_heeds doc hproper hdropped) (fun _ d' hd' => hend d' hd') fun _ _ hd' => hd'
  · rename_i hdoc
    rw [hdoc] at hdropped
    exact hend _ ⟨hproper, hdropped⟩

theorem forget_heeds (h : Heeds checks J S) (hp : S p) (copy : Path) :
    Preserves (Heeded J) (do
      release p
      match ← Shared.dropDocument p with
      | some doc => Shared.clear doc
      | none => pure ()
      let _ ← onReplica (Replica.remove copy) "Failed to remove mirror file" : Act Desk Unit) := by
  intro d hd
  have hreleased := h.aside [] d { d with workspace := d.workspace.release p } hd.2 ⟨rfl, rfl, rfl, rfl, rfl, rfl⟩
  exact h.forget_heeds_of copy hd.1 (h.erased [] _ p hreleased hp)

/-! ### The configuration -/

/-- What any configuration leaves true is true once the configuration has been read. -/
theorem loadConfig_heeds (h : Heeds checks J S)
    (hconfig : ∀ d c, J [] d → J' [] { d with workspace := { d.workspace with config := c } }) (hd : Heeded J d) :
    wp loadConfig (fun _ => Heeded J') (fun _ _ => True) d := by
  rw [loadConfig, wp_bind, wp_get, wp_bind]
  refine wp_imp (Preserves.forM _ (fun r _ => h.report_heeds r) d hd) (fun _ d' hd' => ?_) fun _ _ _ => trivial
  exact (wp_modify _).mpr ⟨hd'.1, hconfig d' _ hd'.2⟩

/-- A property that also bears another configuration is kept when the configuration is read
    again. -/
theorem reloadConfig_heeds_of (h : Heeds checks J S)
    (hrevised : ∀ d p r store, J [] d → d.shared.store.revise? p r = .ok store → J [] (d.withStore store))
    (hconfig : ∀ d c, J [] d → J [] { d with workspace := { d.workspace with config := c } }) :
    Preserves (Heeded J) (reloadConfig checks) := by
  have hload : Preserves (Heeded J) loadConfig := by
    rw [loadConfig]
    refine Preserves.get_bind fun d _ => Preserves.bind (Preserves.forM _ fun r _ => h.report_heeds r) fun _ => ?_
    exact Preserves.modify fun d hd => ⟨hd.1, hconfig d _ hd.2⟩
  have hdiagnose : Preserves (Heeded J) (diagnoseAll checks) := by
    rw [diagnoseAll]
    refine Preserves.get_bind fun d _ => Preserves.bind (Preserves.forM _ fun q _ => ?_) fun _ => h.compile_heeds
    exact Preserves.bind (h.check_heeds_of fun d r store => hrevised d q r store) fun _ => Preserves.pure _
  rw [reloadConfig]
  exact Preserves.bind (h.report_heeds _) fun _ => Preserves.bind hload fun _ => hdiagnose

theorem reloadConfig_heeds (h : Heeds checks J S) (hS : ∀ q, S q)
    (hconfig : ∀ d c, J [] d → J [] { d with workspace := { d.workspace with config := c } }) (hd : Heeded J d) :
    wp (reloadConfig checks) (fun _ => Heeded J) (fun _ _ => True) d :=
  wp_imp (h.reloadConfig_heeds_of (fun d p r store hd hstore => h.revised d p r store hd (hS p) hstore) hconfig d hd)
    (fun _ _ hd => hd) fun _ _ _ => trivial

/-! ### Events of the disk -/

theorem created_heeds (h : Heeds checks J S) (hp : Throughout S p) : Preserves (Heeded J) (created checks p) := by
  rw [created]
  refine Preserves.get_bind fun d _ => ?_
  split
  · exact Preserves.pure _
  · refine Preserves.ite (fun _ => h.trackDir_heeds hp) fun _ => Preserves.bind (h.trackFile_heeds hp.self) fun _ => ?_
    refine Preserves.get_bind fun d' _ => Preserves.bind (h.onReplica_heeds (Replica.work_proper (.create _)) _) fun _ => ?_
    exact Preserves.ite (fun _ => Preserves.bind (h.syncReplica_heeds p) fun _ => h.diagnose_heeds hp.self) fun _ => Preserves.pure _

theorem renamed_heeds (h : Heeds checks J S) {source target : Path} (hsource : Throughout S source)
    (htarget : Throughout S target) :
    Preserves (Heeded J) (renamed checks source target) := by
  have hend : Preserves (Heeded J) (do
      untrackAndClear source
      if (← get).shared.disk.hasDirectory target then trackDir checks target
      else
        trackFile target
        syncReplica target
        diagnose checks target
      resyncOpen source) := by
    refine Preserves.bind (h.untrackAndClear_heeds hsource) fun _ => Preserves.get_bind fun d _ => ?_
    refine Preserves.ite (fun _ => ?_) fun _ => ?_
    · exact Preserves.bind (h.trackDir_heeds htarget) fun _ => h.resyncOpen_heeds source
    · refine Preserves.bind (h.trackFile_heeds htarget.self) fun _ => Preserves.bind (h.syncReplica_heeds target) fun _ => ?_
      exact Preserves.bind (h.diagnose_heeds htarget.self) fun _ => h.resyncOpen_heeds source
  rw [renamed]
  refine Preserves.get_bind fun d _ => Preserves.ite (fun _ => Preserves.ite (fun _ => ?_) fun _ => hend) fun _ =>
    Preserves.pure _
  exact Preserves.bind (h.onReplica_heeds (Replica.rename_proper _ _) _) fun _ => hend

theorem removed_heeds (h : Heeds checks J S) (hp : Throughout S p) : Preserves (Heeded J) (removed checks p) := by
  rw [removed]
  refine Preserves.bind (h.untrackAndClear_heeds hp) fun _ => Preserves.get_bind fun d _ => ?_
  refine Preserves.bind (h.onReplica_heeds (Replica.work_proper .remove) _) fun _ => ?_
  exact Preserves.bind (h.resyncOpen_heeds p) fun _ => h.compile_heeds

/-- The text of a path may be replaced. -/
theorem rewritten_heeds (h : Heeds checks J S) (hp : S p) (content : String) :
    Preserves (Heeded J) (do
      let _ ← onReplica (Replica.write ((← get).workspace.replicaPath p) (Text.Utf8.encode content))
        "Failed to write mirror file"
      match ← Shared.revise p (.replace content) with
      | .ok _ => diagnose checks p
      | .error _ => pure ()) := by
  refine Preserves.get_bind fun d _ => Preserves.bind (h.onReplica_heeds (Replica.work_proper (.write _)) _) fun _ => ?_
  refine Preserves.bind (h.revise_heeds hp _) fun outcome => ?_
  split
  · exact h.diagnose_heeds hp
  · exact Preserves.pure _

theorem written_heeds (h : Heeds checks J S) (hp : S p) : Preserves (Heeded J) (written checks p) := by
  have hend := h.rewritten_heeds hp
  rw [written]
  refine Preserves.get_bind fun d _ => Preserves.ite (fun _ => ?_) fun _ => Preserves.pure _
  split
  · exact Preserves.pure _
  · refine Preserves.get_bind fun d _ => Preserves.ite (fun _ => ?_) fun _ => hend _
    exact Preserves.bind (h.trackFile_heeds hp) fun _ => hend _

/-- **An event of the disk keeps what bears its handler up to where the configuration is read
    again.** -/
theorem onDiskEvent_heeds (h : Heeds checks J S) {e : Watch.Event} (hp : Throughout S e.path)
    (hsource : ∀ source, e.source = some source → Throughout S source) {Q : Unit → Desk → Prop} {E : Crash → Desk → Prop}
    (hd : Heeded J d) (hignored : d.shared.store.isOpen e.path = true → Q () d)
    (hbreak : ∀ err d', Heeded J d' → E err d')
    (hend : ∀ d', Heeded J d' →
      wp (if e.path.isConfigFile || e.source.any Path.isConfigFile then reloadConfig checks else pure ()) Q E d') :
    wp (onDiskEvent checks e) Q E d := by
  rw [onDiskEvent, wp_bind, wp_get]
  refine (wp_ite _ _).mpr ⟨fun _ => ?_, fun hopen => (wp_pure _).mpr (hignored (by simpa using hopen))⟩
  dsimp only
  split
  · rename_i source _ heq
    rw [wp_bind]
    exact wp_imp (h.renamed_heeds (hsource source heq) hp d hd) (fun _ => hend) hbreak
  · rw [wp_bind]
    exact wp_imp (h.created_heeds hp d hd) (fun _ => hend) hbreak
  · rw [wp_bind]
    exact wp_imp (h.written_heeds hp.self d hd) (fun _ => hend) hbreak
  · rw [wp_bind]
    exact wp_imp (h.removed_heeds hp d hd) (fun _ => hend) hbreak

/-! ### Events of the editor -/

theorem editorOpened_heeds (h : Heeds checks J S) (p : Path) : Preserves (Heeded J) (editorOpened p) := by
  rw [editorOpened]
  refine Preserves.bind (h.track_heeds p) fun _ => Preserves.get_bind fun d _ => ?_
  exact Preserves.bind (h.onReplica_heeds (Replica.work_proper (.create _)) _) fun _ => Preserves.pure _

theorem editorChanged_heeds (h : Heeds checks J S) (hp : S p) : Preserves (Heeded J) (editorChanged checks p) := by
  rw [editorChanged]
  refine Preserves.get_bind fun d _ => Preserves.ite (fun _ => ?_) fun _ => Preserves.pure _
  exact Preserves.bind (h.syncReplica_heeds p) fun _ => h.diagnose_heeds hp

theorem editorClosed_heeds (h : Heeds checks J S) (hp : S p) : Preserves (Heeded J) (editorClosed checks p) := by
  rw [editorClosed]
  refine Preserves.get_bind fun d _ => Preserves.ite (fun _ => Preserves.ite (fun _ => h.forget_heeds hp _) fun _ => ?_)
    fun _ => Preserves.pure _
  refine Preserves.bind (h.reload_heeds hp) fun outcome => ?_
  split
  · exact Preserves.pure _
  · refine Preserves.bind (h.track_heeds p) fun _ => Preserves.bind (h.syncReplica_heeds p) fun _ => ?_
    exact h.diagnose_heeds hp

/-- **An event of the editor keeps what bears its handler up to where the configuration is
    read again.** -/
theorem onEditorEvent_heeds (h : Heeds checks J S) {e : EditorEvent} (hp : S e.path)
    {Q : Except WorkspaceError Unit → Desk → Prop} {E : Crash → Desk → Prop} (hd : Heeded J d)
    (hmissing : ∀ err d', Q (.error err) d') (hbreak : ∀ err d', Heeded J d' → E err d')
    (hopened : ∀ p, e = .opened p → ∀ d', Heeded J d' → Q (.ok ()) d')
    (hend : (∀ p, e ≠ .opened p) → ∀ d', Heeded J d' → wp (do
      if e.path.isConfigFile then reloadConfig checks
      return (.ok () : Except WorkspaceError Unit)) Q E d') : wp (onEditorEvent checks e) Q E d := by
  rw [onEditorEvent, wp_bind, wp_get]
  refine (wp_ite _ _).mpr ⟨fun _ => ?_, fun _ => ?_⟩
  · rw [wp_bind, wp_onShared, Shared.wp_report, wp_pure]
    exact hmissing _ _
  · cases e with
    | opened p =>
      rw [wp_bind]
      refine wp_imp (h.editorOpened_heeds p d hd) (fun _ d' hd' => (wp_pure _).mpr ?_) hbreak
      exact hopened p rfl d' hd'
    | changed p =>
      rw [wp_bind]
      exact wp_imp (h.editorChanged_heeds hp d hd) (fun _ => hend fun _ he => by cases he) hbreak
    | closed p =>
      rw [wp_bind]
      exact wp_imp (h.editorClosed_heeds hp d hd) (fun _ => hend fun _ he => by cases he) hbreak

/-! ### Opening a workspace -/

theorem replicate_heeds (h : Heeds checks J S) : Preserves (Heeded J) replicate := by
  intro d hd
  rw [replicate, wp_bind, wp_get, wp_bind, wp_set]
  refine Preserves.ite (fun _ => h.report_heeds _) (fun _ => Preserves.pure _) _ ?_
  exact ⟨Replica.replicate_proper _ _ hd.1, h.aside _ _ _ hd.2 ⟨rfl, rfl, rfl, rfl, rfl, rfl⟩⟩

theorem adoptFound_heeds (h : Heeds checks J S) (hp : S p) : Preserves (Heeded J) (adoptFound checks p) := by
  rw [adoptFound]
  refine Preserves.get_bind fun d _ => Preserves.bind (h.openPath_heeds hp _ _ _) fun isNew => ?_
  refine Preserves.ite (fun _ => ?_) fun _ => Preserves.pure _
  exact Preserves.bind (h.track_heeds p) fun _ => Preserves.bind (h.check_heeds hp) fun _ => Preserves.pure _

theorem wp_create_heeds (h : Heeds checks J S) (hS : ∀ q, S q) {given replicaRoot : Path} {s : Shared} {Q : Desk → Prop}
    (hstart : ∀ root, s.disk.canonicalize given = .ok root → Heeded J ⟨s, .ofRoot root replicaRoot⟩)
    (hend : ∀ d, Heeded J d → wp (do loadConfig; compile checks) (fun _ => Q) (fun _ _ => True) d) :
    wp (Workspace.create checks given replicaRoot)
      (fun outcome s' => match outcome with
        | .ok w => Q ⟨s', w⟩
        | .error _ => True) (fun _ _ => True) s := by
  have hpopulate : ∀ d, Heeded J d → wp (populate checks) (fun _ => Q) (fun _ _ => True) d := by
    intro d hd
    rw [populate, wp_bind]
    refine wp_imp (h.replicate_heeds d hd) (fun _ d' hd' => ?_) fun _ _ _ => trivial
    rw [wp_bind, wp_get, wp_bind]
    refine wp_imp (h.tree_heeds (fun q _ => hS q) hd') (fun tree d' hd' => ?_) fun _ _ _ => trivial
    rw [wp_bind]
    exact wp_imp (Preserves.forM _ (fun q _ => h.adoptFound_heeds (hS q)) d' hd'.1) (fun _ => hend) fun _ _ _ => trivial
  rw [Workspace.create, wp_bind, wp_get]
  dsimp only
  split
  · exact (wp_pure _).mpr trivial
  · rename_i root hroot
    refine (wp_ite _ _).mpr ⟨fun _ => (wp_pure _).mpr trivial, fun _ => ?_⟩
    have hrun := hpopulate _ (hstart root hroot)
    cases hd : populate checks ⟨s, Workspace.ofRoot root replicaRoot⟩ with
    | ok a d =>
      refine (wp_of_ok (by simp only [hd]; rfl)).mpr ?_
      exact (wp_of_ok hd).mp hrun
    | error err d => exact (wp_of_error (by simp only [hd]; rfl)).mpr trivial

/-- **The opening of a workspace keeps what bears it up to where the configuration is read for
    the first time.** -/
theorem create_heeds (h : Heeds checks J S) (hS : ∀ q, S q) {given replicaRoot : Path} {s s' : Shared} {w : Workspace}
    (hcreate : Workspace.create checks given replicaRoot s = .ok (.ok w) s') {Q : Desk → Prop}
    (hstart : ∀ root, s.disk.canonicalize given = .ok root → Heeded J ⟨s, .ofRoot root replicaRoot⟩)
    (hend : ∀ d, Heeded J d → wp (do loadConfig; compile checks) (fun _ => Q) (fun _ _ => True) d) : Q ⟨s', w⟩ :=
  (wp_of_ok hcreate).mp (h.wp_create_heeds hS hstart hend)

end Heeds

end Desk

end LiveWorkspace
