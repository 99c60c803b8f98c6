/-
  LiveWorkspace/Proofs/Workspace/Start.lean
  =========================================
  **A new workspace agrees with its replica.**

  A workspace is opened over documents that are none of its own, and its replica is where
  nothing below its root looks (`Ground`).  Copying the tree gives every file a copy
  (`replicate_ok`), and as the copying does not show below the root, each document that is
  then entered has the text of its copy.
-/
import LiveWorkspace.Proofs.Disk.Plain
import LiveWorkspace.Proofs.Replica.Confined
import LiveWorkspace.Proofs.Workspace.Queue
import LiveWorkspace.Workspace.Opening

namespace LiveWorkspace

/-! ### Copying a tree -/

namespace Replica

variable {ε : Type}

/-- Copying on without a failure means that there was none before, and that this copy was
    made. -/
theorem Replication.step_ok {r : Replication} {op : EStateM ε Disk Unit} {failure : String}
    (h : (r.step op failure).failures = 0) :
    r.failures = 0 ∧ op r.disk = .ok () (r.step op failure).disk := by
  unfold step at h ⊢
  cases hop : op r.disk with
  | ok u d =>
    rw [hop] at h
    exact ⟨h, rfl⟩
  | error err d =>
    rw [hop] at h
    exact absurd h (Nat.succ_ne_zero _)

/-- What copies establish one after the other, if none of them fails. -/
theorem Replication.foldl_ok {op : Path → EStateM ε Disk Unit} {failure : String}
    (I : List Path → Disk → Prop) (xs : List Path) {r : Replication}
    (hstep : ∀ done x rest d d', xs = done ++ x :: rest → I done d → op x d = .ok () d' → I (done ++ [x]) d')
    (hok : (xs.foldl (fun r x => r.step (op x) failure) r).failures = 0) :
    r.failures = 0 ∧ (I [] r.disk → I xs (xs.foldl (fun r x => r.step (op x) failure) r).disk) := by
  suffices h : ∀ (rest done : List Path) (r : Replication), xs = done ++ rest →
      (rest.foldl (fun r x => r.step (op x) failure) r).failures = 0 →
      r.failures = 0 ∧ (I done r.disk → I xs (rest.foldl (fun r x => r.step (op x) failure) r).disk) from
    h xs [] r rfl hok
  intro rest
  induction rest with
  | nil =>
    intro done r hxs hok
    rw [List.append_nil] at hxs
    exact ⟨hok, fun h => hxs ▸ h⟩
  | cons x rest ih =>
    intro done r hxs hok
    rw [List.foldl_cons] at hok ⊢
    obtain ⟨hstepped, hend⟩ := ih (done ++ [x]) _ (by rw [hxs, List.append_assoc]; rfl) hok
    obtain ⟨hr, hop⟩ := Replication.step_ok hstepped
    exact ⟨hr, fun h => hend (hstep done x rest _ _ hxs h hop)⟩

/-- Every failure is told of. -/
theorem Replication.failures_le {op : Path → EStateM ε Disk Unit} {failure : String}
    (hfailure : Report.replicaFailures.contains (.error failure) = true) (xs : List Path) {r : Replication}
    (h : r.failures ≤ r.reports.countP Report.replicaFailures.contains) :
    (xs.foldl (fun r x => r.step (op x) failure) r).failures
      ≤ (xs.foldl (fun r x => r.step (op x) failure) r).reports.countP Report.replicaFailures.contains := by
  induction xs generalizing r with
  | nil => exact h
  | cons x rest ih =>
    refine ih ?_
    show (r.step (op x) failure).failures ≤ (r.step (op x) failure).reports.countP Report.replicaFailures.contains
    unfold step
    split
    · exact h
    · rw [List.countP_append, List.countP_singleton, hfailure]
      exact Nat.succ_le_succ h

end Replica

/-! ### Before a workspace is opened -/

/-- No document is of the workspace, and what its tree shows does not depend on the
    replica. -/
structure Ground (m : Premises) (s : Shared) : Prop where
  stands : m.site.Stands s.disk
  proper : s.disk.Proper
  unknown : ∀ p, s.store.contains p = true → ¬ m.root.Encloses p
  apart : ∀ d, Disk.SameOutside m.site.zone s.disk d →
    d.tree m.root = s.disk.tree m.root ∧ ∀ p ∈ (s.disk.tree m.root).1.files, d.stat p = s.disk.stat p

/-- What is in the replica makes no difference to what is found at a path and below it. -/
structure Premises.Detached (m : Premises) (old : Disk) (p : Path) : Prop where
  tree : ∀ disk, Disk.SameOutside m.site.zone old disk → disk.tree p = old.tree p
  stat : ∀ disk, Disk.SameOutside m.site.zone old disk → disk.stat p = old.stat p
  listed : ∀ disk, Disk.SameOutside m.site.zone old disk →
    ∀ q, q ∈ (old.tree p).1.dirs ∨ q ∈ (old.tree p).1.files → disk.stat q = old.stat q

/-- A tree without links shows nothing of a replica that is aside. -/
theorem Premises.Detached.of_plain {m : Premises} {old : Disk} {p : Path} {ns : List String} (hproper : old.Proper)
    (hp : p = ns.foldl Path.child ⟨"/"⟩) (hplain : old.Plain ns) (haside : Disk.Aside m.site.zone (ns.map .text)) :
    m.Detached old p := by
  subst hp
  constructor
  · intro disk hout
    exact hplain.tree_eq hproper hout haside
  · intro disk hout
    exact hplain.stat_eq hout haside (fun _ hn => absurd hn List.not_mem_nil) true
  · intro disk hout q hq
    obtain ⟨ms, hms, rfl⟩ := Disk.exists_names_of_mem_tree hproper hq
    exact hplain.stat_eq hout haside hms true

theorem Ground.of_detached {m : Premises} {s : Shared} (hstands : m.site.Stands s.disk) (hproper : s.disk.Proper)
    (hunknown : ∀ p, s.store.contains p = true → ¬ m.root.Encloses p) (hdetached : m.Detached s.disk m.root) :
    Ground m s :=
  ⟨hstands, hproper, hunknown, fun d hout => ⟨hdetached.tree d hout, fun p hp => hdetached.listed d hout p (.inr hp)⟩⟩

/-- The replica has a copy of every file of a tree as it was before. -/
structure Copied (m : Premises) (old new : Disk) : Prop where
  outside : Disk.SameOutside m.site.zone old new
  copy : ∀ p ∈ (old.tree m.root).1.files, (m.copyOf p).flaw? = none
    ∧ ∃ bytes, old.read p = .ok bytes ∧ m.site.HasFile new (m.names p) bytes

namespace Ground

variable {m : Premises} {s : Shared} {p q : Path}

/-- The files of a tree are told apart by their names. -/
theorem eq_of_names (h : Ground m s) (hself : m.root.Encloses m.root)
    (hp : p ∈ (s.disk.tree m.root).1.files) (hq : q ∈ (s.disk.tree m.root).1.files)
    (hnames : m.names p = m.names q) : p = q := Disk.eq_of_namesBelow h.proper hself (.inr hp) (.inr hq) hnames

theorem encloses (h : Ground m s) (hself : m.root.Encloses m.root)
    (hp : p ∈ (s.disk.tree m.root).1.files) : m.root.Encloses p :=
  (Disk.encloses_of_mem_tree h.proper hself (.inr hp)).1

theorem read_eq (h : Ground m s) {d : Disk} (hd : Disk.SameOutside m.site.zone s.disk d)
    (hp : p ∈ (s.disk.tree m.root).1.files) : d.read p = s.disk.read p := by
  rw [Disk.read, Disk.read, (h.apart d hd).2 p hp]

/-- A file's copy has what the file had before. -/
def HasCopy (m : Premises) (old new : Disk) (p : Path) : Prop :=
  (m.copyOf p).flaw? = none ∧ ∃ bytes, old.read p = .ok bytes ∧ m.site.HasFile new (m.names p) bytes

/-- Copying a directory stays in the replica. -/
theorem copyDir_confined {d d' : Disk} (hd : m.site.Confined s.disk d) (hp : m.root.Encloses p)
    (hcopy : (Replica.mk m.site.dir).copyDir m.root p d = .ok () d') : m.site.Confined s.disk d' :=
  hd.of_spares (hd.stands.copyDir_ok (Premises.spells_copyOf hp) hcopy)

/-- Copying a file gives it its copy, and leaves the other files theirs. -/
theorem copyFile_copies (h : Ground m s) (hself : m.root.Encloses m.root) {d d' : Disk}
    (hd : m.site.Confined s.disk d) (hp : p ∈ (s.disk.tree m.root).1.files)
    (hcopy : (Replica.mk m.site.dir).copyFile m.root p d = .ok () d') :
    m.site.Confined s.disk d' ∧ HasCopy m s.disk d' p
      ∧ ∀ q ∈ (s.disk.tree m.root).1.files, HasCopy m s.disk d q → HasCopy m s.disk d' q := by
  have houtside : ∀ loc e, d.stat p = .ok (loc, e) → ¬ m.site.zone <+: loc := by
    intro loc e hstat
    rw [(h.apart d hd.outside).2 p hp] at hstat
    exact Disk.not_prefix_of_stat (fun d' hout => (h.apart d' hout).2 p hp) hstat
  obtain ⟨hflaw, hspares, bytes, hread, hfile⟩ :=
    hd.stands.copy_ok (Premises.spells_copyOf (h.encloses hself hp)) houtside hcopy
  rw [h.read_eq hd.outside hp] at hread
  refine ⟨hd.of_spares hspares, ⟨hflaw, bytes, hread, hfile⟩, fun q hq hcopied => ?_⟩
  by_cases hnames : m.names q = m.names p
  · rw [h.eq_of_names hself hq hp hnames]
    exact ⟨hflaw, bytes, hread, hfile⟩
  · obtain ⟨hflaw', bytes', hread', hfile'⟩ := hcopied
    exact ⟨hflaw', bytes', hread', hspares.hasFile hd.stands hfile' (fun _ _ _ => trivial) hnames⟩

/-- A replication without a failure gives every file of the tree its copy. -/
theorem replicate_ok (h : Ground m s) (hself : m.root.Encloses m.root)
    (hok : ((Replica.mk m.site.dir).replicate m.root s.disk).failures = 0) :
    m.site.Stands ((Replica.mk m.site.dir).replicate m.root s.disk).disk
      ∧ ((Replica.mk m.site.dir).replicate m.root s.disk).disk.Proper
      ∧ Copied m s.disk ((Replica.mk m.site.dir).replicate m.root s.disk).disk := by
  unfold Replica.replicate at hok ⊢
  have hdir : ∀ done p rest d d', (s.disk.tree m.root).1.dirs = done ++ p :: rest → m.site.Confined s.disk d →
      (Replica.mk m.site.dir).copyDir m.root p d = .ok () d' → m.site.Confined s.disk d' := by
    intro done p rest d d' hxs hd hcopy
    have hp : p ∈ (s.disk.tree m.root).1.dirs := by simp [hxs]
    exact copyDir_confined hd (Disk.encloses_of_mem_tree h.proper hself (.inl hp)).1 hcopy
  have hfile : ∀ done p rest d d', (s.disk.tree m.root).1.files = done ++ p :: rest →
      (m.site.Confined s.disk d ∧ ∀ q ∈ done, HasCopy m s.disk d q) →
      (Replica.mk m.site.dir).copyFile m.root p d = .ok () d' →
      m.site.Confined s.disk d' ∧ ∀ q ∈ done ++ [p], HasCopy m s.disk d' q := by
    rintro done p rest d d' hxs ⟨hd, hdone⟩ hcopy
    have hlisted : ∀ q ∈ done ++ [p], q ∈ (s.disk.tree m.root).1.files := by
      intro q hq
      rw [hxs, List.append_cons]
      exact List.mem_append_left rest hq
    obtain ⟨hd', hnew, hkept⟩ := h.copyFile_copies hself hd (hlisted p (by simp)) hcopy
    refine ⟨hd', fun q hq => ?_⟩
    rcases List.mem_append.mp hq with hold | hlast
    · exact hkept q (hlisted q hq) (hdone q hold)
    · rw [List.mem_singleton.mp hlast]
      exact hnew
  obtain ⟨hokDirs, hend⟩ := Replica.Replication.foldl_ok _ _ hfile hok
  obtain ⟨-, hstart⟩ := Replica.Replication.foldl_ok _ _ hdir hokDirs
  obtain ⟨hconfined, hcopies⟩ := hend ⟨hstart ⟨.refl _ _, h.stands, h.proper⟩, fun q hq => absurd hq List.not_mem_nil⟩
  exact ⟨hconfined.stands, hconfined.proper, hconfined.outside, hcopies⟩

end Ground

/-! ### Filling a workspace -/

namespace Desk

variable {m : Premises} {t : Tally} {g : Gaps} {s : Shared} {p : Path}

/-- A workspace that is new agrees with any replica. -/
theorem Agrees.of_ground {w : Workspace} {disk : Disk} (h : Ground m s) (hroot : w.root = m.root)
    (hreplica : w.replica.dir = m.site.dir) (htracked : w.tracked = []) (hstands : m.site.Stands disk)
    (hproper : disk.Proper) (hgone : ∀ ns, ¬ g.gone ns) :
    Agrees m g ⟨{ s with disk := disk }, w⟩ where
  root := hroot
  replica := hreplica
  stands := hstands
  proper := hproper
  below q hq := by simp only [htracked, List.not_mem_nil] at hq
  known q hq := by simp only [htracked, List.not_mem_nil] at hq
  owned q hq hin := absurd hin (h.unknown q hq)
  placed p doc hdoc hin := by
    refine absurd (hin.congr (Store.same_of_get?_eq_some hdoc)) (h.unknown p ?_)
    rw [Store.contains, hdoc]
    rfl
  sound q hq hin _ := by
    rcases hq with hq | ⟨doc, hdoc, -⟩
    · simp only [htracked, List.not_mem_nil] at hq
    · refine absurd hin (h.unknown q ?_)
      rw [Store.contains, hdoc]
      rfl
  copies q hq _ := by simp only [htracked, List.not_mem_nil] at hq
  gone ns hns := absurd hns (hgone ns)

/-- All that is known while a workspace is filled. -/
abbrev Filling (m : Premises) (g : Gaps) (old : Disk) (d : Desk) : Prop :=
  Agrees m g d ∧ Copied m old d.shared.disk

theorem filling_calm (m : Premises) (g : Gaps) (old : Disk) : Calm (Filling m g old) :=
  (agrees_calm m g).and ⟨fun _ => ⟨fun _ _ h => h, fun _ _ h => h, fun _ _ _ _ h _ => h⟩, fun _ _ _ h => h⟩

theorem replicate_does {w : Workspace} (h : Ground m s) (hself : m.root.Encloses m.root)
    (hroot : w.root = m.root) (hreplica : w.replica = ⟨m.site.dir⟩) (htracked : w.tracked = [])
    (hgone : ∀ ns, ¬ g.gone ns) :
    Does t replicate (fun d => d = ⟨s, w⟩) fun _ => Filling m g s.disk := by
  have hkept := kept_spoilt t
  refine Does.of_steady (fun _ hs => hkept.grows.replicate_keeps hs) ?_
  rintro d ht rfl
  rw [replicate, wp_bind, wp_get, wp_bind, wp_set, hroot, hreplica]
  generalize hr : (Replica.mk m.site.dir).replicate m.root s.disk = r
  have htold : r.failures ≤ r.reports.countP Report.replicaFailures.contains := by
    rw [← hr, Replica.replicate]
    refine Replica.Replication.failures_le (by decide) _ (Replica.Replication.failures_le (by decide) _ ?_)
    exact Nat.zero_le _
  have hcount := Shared.failures_append { s with disk := r.disk } r.reports
  rcases Nat.eq_zero_or_pos (r.reports.countP Report.replicaFailures.contains) with hnone | hsome
  · have hok : r.failures = 0 := Nat.le_zero.mp (hnone ▸ htold)
    obtain ⟨hstands, hproper, hcopied⟩ := h.replicate_ok hself (hr ▸ hok)
    rw [hr] at hstands hproper hcopied
    rw [hok, if_neg (Nat.lt_irrefl 0)]
    refine (wp_pure _).mpr (.inr ⟨⟨?_, ht.issued, ht.opened⟩, ?_, hcopied⟩)
    · rw [hcount, hnone]
      exact ht.failures
    · have hnew : Agrees m g ⟨{ s with disk := r.disk }, w⟩ :=
        Agrees.of_ground h hroot (by rw [hreplica]) htracked hstands hproper hgone
      exact hnew.reported _
  · have hspoilt : Spoilt t ⟨{ s with disk := r.disk, reports := s.reports ++ r.reports }, w⟩ := by
      rw [Spoilt, hcount, ← ht.failures]
      exact Nat.lt_add_of_pos_right hsome
    rw [wp_ite]
    refine ⟨fun _ => ?_, fun _ => (wp_pure _).mpr (.inl hspoilt)⟩
    exact wp_imp (hkept.grows.calm.report_keeps _ _ hspoilt) (fun _ _ => .inl) fun _ _ => .inl

variable (checks : Checkers)

/-- A file that was found is entered with the text of its copy. -/
theorem adoptFound_does (h : Ground m s) (hself : m.root.Encloses m.root)
    (hp : p ∈ (s.disk.tree m.root).1.files) :
    Does t (adoptFound checks p) (Filling m g s.disk) fun _ => Filling m g s.disk := by
  have hin := h.encloses hself hp
  have hkept := kept_spoilt t
  refine Does.of_steady (hkept.grows.adoptFound_keeps checks trivial) ?_
  rintro d ht ⟨hd, hcopied⟩
  obtain ⟨hflaw, bytes, hread, hfile⟩ := hcopied.copy p hp
  rw [adoptFound, wp_bind, wp_get, wp_bind, wp_onShared, Shared.wp_openPath]
  refine ⟨fun _ => (wp_pure _).mpr (.inr ⟨ht, hd, hcopied⟩), fun hout => ?_⟩
  generalize hdoc : d.shared.entered p d.workspace.root false none (d.workspace.replicaPath p) = doc
  have hpath : doc.path = p := hdoc ▸ rfl
  have hclosed : doc.isOpen = false := hdoc ▸ rfl
  have hcopy : doc.replica = m.copyOf doc.path := by
    rw [hpath, ← hd.replicaPath_eq p, ← hdoc]
    rfl
  have htext : doc.content = Text.Utf8.decodeLossy bytes := by
    rw [← hdoc, Shared.entered, Disk.textOf, h.read_eq hcopied.outside hp, hread]
  rw [← hpath] at hout hin hflaw hfile ⊢
  have hentered : Agrees m (g.enter doc.path)
      { d with shared := { d.shared.afterRead doc.path with store := d.shared.store.insert doc } } := by
    refine (hd.afterRead doc.path).entered ?_ ?_ hcopy
    · rwa [Shared.afterRead_store]
    · rw [Shared.afterRead_store]
  have hfound : (d.shared.store.insert doc).get? doc.path = some doc := Store.get?_insert_self hout
  have htracked := hentered.tracked hin (by rw [Store.contains, hfound]; rfl)
  have htracks : (d.workspace.track doc.path).tracks doc.path = true := by
    rw [Workspace.tracks_track, Path.same_refl, Bool.or_true]
  have hdisk : (d.shared.afterRead doc.path).disk = d.shared.disk := Shared.afterRead_disk _ _
  have hfile' : m.site.HasFile (d.shared.afterRead doc.path).disk (m.names doc.path) bytes := by
    rw [hdisk]
    exact hfile
  have hfilled := (htracked.tried (.inl htracks) hflaw).filled hin hfile' (by
    refine ⟨?_, fun hopen => ?_⟩
    · rw [text?, hfound, ← htext]
      rfl
    · rw [Store.isOpen, hfound, Option.any_some, hclosed] at hopen
      cases hopen)
  rw [if_pos rfl, wp_bind, track, wp_modify, wp_bind]
  have hsteady : Steady t ⟨{ d.shared.afterRead doc.path with store := d.shared.store.insert doc },
      d.workspace.track doc.path⟩ := by
    refine ((ht.afterRead doc.path).of_store fun q => ?_).of_workspace _
    rw [Shared.afterRead_store]
    exact Store.isOpen_insert_closed hout hclosed q
  refine wp_imp ((filling_calm m g s.disk).unless.check_keeps checks doc.path _ (.inr ⟨hsteady, hfilled, ?_⟩))
    (fun _ _ hd => (wp_pure _).mpr hd) fun _ _ hd => hd.broken
  rw [hdisk]
  exact hcopied

/-- A workspace that is new and has been filled agrees with its replica. -/
theorem populate_does {w : Workspace} (h : Ground m s) (hself : m.root.Encloses m.root)
    (hroot : w.root = m.root) (hreplica : w.replica = ⟨m.site.dir⟩) (htracked : w.tracked = [])
    (hg : g.Regular) (hgone : ∀ ns, ¬ g.gone ns) (hgood : ∀ c, g.Fresh m c → t.good c) :
    Does t (populate checks) (fun d => d = ⟨s, w⟩) fun _ d => Agrees m g d := by
  have hkept := kept_spoilt t
  rw [populate]
  refine Does.bind (replicate_does h hself hroot hreplica htracked hgone) fun _ => Does.get_bind fun d₀ => ?_
  refine Does.step (tree_does (filling_calm m g s.disk) (G := fun tree => tree.files = (s.disk.tree m.root).1.files)) ?_
    fun tree => ?_
  · rintro d - ⟨⟨hd, hcopied⟩, rfl⟩
    rw [hd.root, (h.apart _ hcopied.outside).1]
    exact ⟨⟨hd, hcopied⟩, rfl⟩
  have hcalm := (filling_calm m g s.disk).unless (t := t)
  have hspoils : Spoils t (do
      tree.files.forM (adoptFound checks)
      loadConfig
      compile checks) := by
    refine Preserves.bind (Preserves.forM _ fun p _ => hkept.grows.adoptFound_keeps checks trivial) fun _ => ?_
    exact Preserves.bind hkept.grows.calm.loadConfig_keeps fun _ =>
      hkept.grows.calm.compile_keeps checks (records_spoilt t)
  refine Does.of_pure hspoils fun hfiles => ?_
  refine Does.bind (Does.forM_const fun p hp => adoptFound_does checks h hself (hfiles ▸ hp)) fun _ => ?_
  refine Does.bind (Does.of_preserves hcalm.loadConfig_keeps) fun _ => ?_
  refine ((compile_does (S := fun _ => True) checks hg hgood).pre ?_).post fun _ _ _ hd => hd.1
  exact fun d _ hd => ⟨hd.1, fun _ _ => trivial⟩

end Desk

/-! ### Opening a workspace -/

namespace Workspace

variable {m : Premises} {s s' : Shared} {w : Workspace} (checks : Checkers)

/-- Opening a workspace fills it. -/
theorem populate_of_create {root replicaRoot resolved : Path} (hroot : s.disk.canonicalize root = .ok resolved)
    (h : create checks root replicaRoot s = .ok (.ok w) s') :
    Desk.populate checks ⟨s, ofRoot resolved replicaRoot⟩ = .ok () ⟨s', w⟩ := by
  have hrun : wp (create checks root replicaRoot) (fun outcome s' => ∀ w, outcome = .ok w →
      Desk.populate checks ⟨s, ofRoot resolved replicaRoot⟩ = .ok () ⟨s', w⟩) (fun _ _ => True) s := by
    rw [create, wp_bind, wp_get]
    simp only [hroot]
    refine (wp_ite _ _).mpr ⟨fun _ => (wp_pure _).mpr fun _ hw => (by cases hw), fun _ => ?_⟩
    cases hd : Desk.populate checks ⟨s, ofRoot resolved replicaRoot⟩ with
    | ok u d =>
      refine (wp_of_ok (by simp only [hd]; rfl)).mpr fun w hw => ?_
      cases hw
      rfl
    | error err d => exact (wp_of_error (by simp only [hd]; rfl)).mpr trivial
  exact (wp_of_ok h).mp hrun w rfl

/-- **A workspace that was opened without a failure agrees with its replica, and what was
    compiled has found its files there.** -/
theorem create_agrees {root replicaRoot : Path} (hground : Ground m s)
    (hroot : s.disk.canonicalize root = .ok m.root)
    (hreplica : Replica.ofWorkspace replicaRoot m.root = ⟨m.site.dir⟩)
    (hcreate : create checks root replicaRoot s = .ok (.ok w) s') (hfailures : s'.failures = s.failures) :
    Desk.Agrees m (waiting []) ⟨s', w⟩
      ∧ ∃ cs, s'.compiled = s.compiled ++ cs ∧ ∀ c ∈ cs, (waiting []).Fresh m c := by
  have hrun := populate_of_create checks hroot hcreate
  obtain ⟨hissued, hend⟩ := (Desk.populate_does checks hground
    (Disk.encloses_of_canonicalize hground.proper hroot).1 (w := ofRoot m.root replicaRoot) rfl hreplica rfl
    (waiting_regular []) (fun _ hg => hg) fun _ hc => hc).run (Desk.steady_tally ⟨s, ofRoot m.root replicaRoot⟩ _) rfl (by
      rw [Desk.after_of_ok hrun, Desk.Spoilt, hfailures]
      exact Nat.lt_irrefl _)
  rw [Desk.after_of_ok hrun] at hissued
  exact ⟨(hend _ _ hrun).2, hissued⟩

end Workspace

end LiveWorkspace
