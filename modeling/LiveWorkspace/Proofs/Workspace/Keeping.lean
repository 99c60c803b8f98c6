/-
  LiveWorkspace/Proofs/Workspace/Keeping.lean
  ===========================================
  **What a property must bear for every handler to keep it.**

  Handlers change a workspace and what it shares in few ways.  Checking and compiling only
  report, publish and mark documents; a property that bears these is *calm* and kept by
  both.  The rest works on copies in the replica, tracks paths, enters documents with the
  places that the workspace gives them, and revises a document only where it has found it
  not open.  A property that bears this too is kept by all handlers that let nothing go
  (`Grows`), and one that also bears the dropping of what was found not open by all
  handlers, and so by the loop (`Kept`).

  What is known of a path that is not open is taken along as `N`: it follows from the
  property where the handler looks, and still holds where the handler acts.  What is known
  of the paths that a workspace works on is taken along as `P`.  Properties of the shared
  state alone need neither the workspace nor `P` (`Shared.Kept.desk`).
-/
import LiveWorkspace.Proofs.Checking
import LiveWorkspace.Proofs.Disk.Tree
import LiveWorkspace.Workspace.Running

namespace LiveWorkspace

/-! ### Checking and compiling -/

namespace Shared

/-- A property that reports, publications and the marks of checks leave alone. -/
structure Calm (I : Shared → Prop) : Prop where
  report : ∀ s r, I s → I { s with reports := s.reports ++ [r] }
  publish : ∀ s m, I s → I { s with published := s.published ++ [m] }
  mark : ∀ s p found store, I s → s.store.revise? p (.markErrors found) = .ok store →
    I { s with store := store }

/-- A property that compilations leave alone, which name the copies that documents name. -/
def Records (I : Shared → Prop) : Prop := ∀ s c doc, I s → s.store.get? c.request.path = some doc →
  c.request.replicaPath = doc.replica → I { s with compiled := s.compiled ++ [c] }

namespace Calm

variable {I : Shared → Prop}

theorem report_keeps (h : Calm I) (r : Report) : Preserves I (Shared.report r) :=
  Preserves.modify fun s hs => h.report s r hs

theorem publish_keeps (h : Calm I) (uri : Uri) (messages : List String) :
    Preserves I (Shared.publish uri messages) := by
  rw [Shared.publish]
  refine Preserves.get_bind fun s _ => Preserves.ite (fun _ => ?_) (fun _ => h.report_keeps _)
  exact Preserves.modify fun s hs => h.publish s _ hs

theorem readText_keeps (h : Calm I) (p : Path) : Preserves I (readText p) := by
  rw [readText]
  refine Preserves.get_bind fun s _ => ?_
  split
  · exact Preserves.pure _
  · exact Preserves.bind (h.report_keeps _) fun _ => Preserves.pure _

theorem tree_keeps (h : Calm I) (p : Path) : Preserves I (tree p) := by
  rw [tree]
  refine Preserves.get_bind fun s _ => ?_
  exact Preserves.bind (Preserves.forM _ fun r _ => h.report_keeps r) fun _ => Preserves.pure _

/-- A revision is kept when its outcome is. -/
theorem revise_keeps (h : Calm I) {p : Path} {r : Revision}
    (hrev : ∀ s store, I s → s.store.revise? p r = .ok store → I { s with store := store }) :
    Preserves I (revise p r) := by
  intro s hs
  rw [wp_revise]
  exact ⟨fun store hstore => hrev s store hs hstore, fun _ => h.report s _ hs⟩

theorem clear_keeps (h : Calm I) (doc : Document) : Preserves I (clear doc) := by
  rw [clear]
  refine Preserves.ite (fun _ => ?_) (fun _ => Preserves.pure _)
  split
  · exact h.publish_keeps _ _
  · exact Preserves.pure _

variable (checks : Checkers)

theorem check_keeps (h : Calm I) (p : Path) : Preserves I (check checks p) := by
  rw [check]
  refine Preserves.get_bind fun s _ => ?_
  split
  · exact Preserves.pure _
  · refine Preserves.ite (fun _ => Preserves.pure _) fun _ => ?_
    split
    · exact Preserves.throw _
    · refine Preserves.bind (h.revise_keeps fun s store => h.mark s p _ store) fun outcome => ?_
      split
      · exact Preserves.pure _
      · split
        · exact Preserves.bind (h.publish_keeps _ _) fun _ => Preserves.pure _
        · exact Preserves.bind (Preserves.pure _) fun _ => Preserves.pure _

theorem compileFile_keeps (h : Calm I) (hrec : Records I) (replicaDir : Path) (config : ProjectConfig)
    (p : Path) : Preserves I (compileFile checks replicaDir config p) := by
  intro s hs
  rw [compileFile, wp_bind, wp_get]
  split
  · exact (wp_pure _).mpr hs
  · rename_i doc hdoc
    refine (wp_ite _ _).mpr ⟨fun _ => (wp_pure _).mpr hs, fun _ => ?_⟩
    rw [wp_bind, wp_get, wp_bind, wp_modify]
    have hcompiled := hrec s ⟨⟨p, doc.replica, replicaDir, config⟩, (s.disk.read doc.replica).toOption, doc.content⟩
      doc hs hdoc rfl
    split
    · exact h.publish_keeps _ _ _ hcompiled
    · exact (wp_pure _).mpr hcompiled

theorem compile_keeps (h : Calm I) (hrec : Records I) (root replicaDir : Path)
    (config : ProjectConfig) : Preserves I (compile checks root replicaDir config) := by
  rw [compile]
  refine Preserves.ite (fun _ => Preserves.forM _ fun p _ => ?_) fun _ => Preserves.pure _
  exact h.compileFile_keeps checks hrec replicaDir config p

end Calm

end Shared

namespace Desk

/-- A property that work on the shared part keeps, whatever the workspace, is kept. -/
theorem onShared_keeps {α : Type} {I : Desk → Prop} {act : Act Shared α}
    (h : ∀ w, Preserves (fun s => I ⟨s, w⟩) act) : Preserves I (liftM act : Act Desk α) := by
  intro d hd
  rw [wp_onShared]
  exact h d.workspace d.shared hd

/-- A property of a desk that checks and new configurations leave alone. -/
structure Calm (I : Desk → Prop) : Prop where
  shared : ∀ w, Shared.Calm fun s => I ⟨s, w⟩
  config : ∀ s w c, I ⟨s, w⟩ → I ⟨s, { w with config := c }⟩

/-- A property of a desk that compilations leave alone. -/
def Records (I : Desk → Prop) : Prop := ∀ w, Shared.Records fun s => I ⟨s, w⟩

namespace Calm

variable {I : Desk → Prop}

theorem report_keeps (h : Calm I) (r : Report) : Preserves I (liftM (Shared.report r) : Act Desk Unit) :=
  onShared_keeps fun w => (h.shared w).report_keeps r

theorem clear_keeps (h : Calm I) (doc : Document) :
    Preserves I (liftM (Shared.clear doc) : Act Desk Unit) :=
  onShared_keeps fun w => (h.shared w).clear_keeps doc

theorem tree_keeps (h : Calm I) (p : Path) : Preserves I (liftM (Shared.tree p) : Act Desk Tree) :=
  onShared_keeps fun w => (h.shared w).tree_keeps p

theorem loadConfig_keeps (h : Calm I) : Preserves I loadConfig := by
  rw [loadConfig]
  refine Preserves.get_bind fun d _ => ?_
  refine Preserves.bind (Preserves.forM _ fun r _ => h.report_keeps r) fun _ => ?_
  exact Preserves.modify fun d hd => h.config d.shared d.workspace _ hd

variable (checks : Checkers)

theorem check_keeps (h : Calm I) (p : Path) :
    Preserves I (liftM (Shared.check checks p) : Act Desk Bool) :=
  onShared_keeps fun w => (h.shared w).check_keeps checks p

theorem compile_keeps (h : Calm I) (hrec : Records I) : Preserves I (compile checks) := by
  rw [compile]
  refine Preserves.get_bind fun d _ => onShared_keeps fun w => ?_
  exact (h.shared w).compile_keeps checks (hrec w) _ _ _

theorem diagnose_keeps (h : Calm I) (hrec : Records I) (p : Path) : Preserves I (diagnose checks p) := by
  rw [diagnose]
  refine Preserves.bind (h.check_keeps checks p) fun isFaust => ?_
  exact Preserves.ite (fun _ => h.compile_keeps checks hrec) fun _ => Preserves.pure _

theorem reloadConfig_keeps (h : Calm I) (hrec : Records I) : Preserves I (reloadConfig checks) := by
  rw [reloadConfig, diagnoseAll]
  refine Preserves.bind (h.report_keeps _) fun _ => Preserves.bind h.loadConfig_keeps fun _ => ?_
  refine Preserves.get_bind fun d _ => ?_
  refine Preserves.bind (Preserves.forM _ fun p _ => ?_) fun _ => h.compile_keeps checks hrec
  exact Preserves.bind (h.check_keeps checks p) fun _ => Preserves.pure _

end Calm

end Desk

/-! ### What handlers do to the shared state -/

/-- A property of the shared state that every handler keeps, but for its compilations;
    `N` is known of the paths that are not open. -/
structure Shared.Kept (I : Shared → Prop) (N : Path → Prop) : Prop extends Shared.Calm I where
  closed : ∀ s p, I s → s.store.isOpen p = false → N p
  disk : ∀ s d, I s → I { s with disk := d }
  watch : ∀ s dirs, I s → I { s with watched := dirs }
  insert : ∀ s doc, doc.isOpen = false → I s → I { s with store := s.store.insert doc }
  erase : ∀ s p, N p → I s → I { s with store := s.store.erase p }
  revise : ∀ s p r store, N p → r ≠ .reopen → I s → s.store.revise? p r = .ok store →
    I { s with store := store }

namespace Shared.Kept

variable {I : Shared → Prop} {N : Path → Prop}

theorem openPath_keeps (h : Shared.Kept I N) (p root : Path) (uri : Option Uri) (replica : Path) :
    Preserves I (openPath p root false uri replica) := by
  rw [openPath]
  refine Preserves.get_bind fun s _ => Preserves.ite (fun _ => Preserves.pure _) fun _ => ?_
  refine Preserves.bind (h.readText_keeps p) fun content => ?_
  exact Preserves.bind (Preserves.modify fun s hs => h.insert s _ rfl hs) fun _ => Preserves.pure _

theorem dropDocument_keeps (h : Shared.Kept I N) {p : Path} (hp : N p) :
    Preserves I (dropDocument p) := by
  intro s hs
  rw [wp_dropDocument]
  exact h.erase s p hp hs

end Shared.Kept

/-! ### What handlers do to a desk -/

/-- The disk after an operation on the replica, whether it succeeded or not. -/
def Replica.diskAfter (op : ReplicaOp Unit) (d : Disk) : Disk :=
  match op d with
  | .ok _ d' | .error _ d' => d'

theorem Replica.diskAfter_keeps {I : Disk → Prop} {op : ReplicaOp Unit} (hop : Preserves I op) {d : Disk} (hd : I d) :
    I (diskAfter op d) := by
  have hrun := hop d hd
  rw [diskAfter]
  cases h : op d with
  | ok u d' => exact (wp_of_ok h).mp hrun
  | error err d' => exact (wp_of_error h).mp hrun

/-- What handlers do to the copy of one path. -/
inductive Replica.Work (copy : Path) : ReplicaOp Unit → Prop
  | write (content : Text.Bytes) : Work copy (Replica.write copy content)
  | create (mode : Option Nat) : Work copy (do Replica.ensureParent copy; Replica.createEmptyFile copy mode)
  | adopt (dir : Path) : Work copy (do Replica.createDir copy (← Replica.modeOf dir))
  | remove : Work copy (Replica.remove copy)

namespace Desk

/-- The desk after an operation on the replica. -/
def afterReplica (d : Desk) (op : ReplicaOp Unit) : Desk :=
  { d with shared := { d.shared with disk := Replica.diskAfter op d.shared.disk } }

/-- The desk with other documents. -/
def withStore (d : Desk) (store : Store) : Desk := { d with shared := { d.shared with store := store } }

/-- A property of a desk that all handlers keep that drop no document, but for their
    compilations. The paths that they are asked to work on have the property `P`, which all
    that they find in turn has as well. -/
structure Grows (J : Desk → Prop) (P N : Path → Prop) : Prop extends Calm J where
  closed : ∀ d p, J d → d.shared.store.isOpen p = false → N p
  below : ∀ d p, J d → p ∈ d.workspace.tracked → P p
  found : ∀ d dir, J d → P dir → ∀ p,
    p ∈ (d.shared.disk.tree dir).1.dirs ∨ p ∈ (d.shared.disk.tree dir).1.files → P p
  watched : ∀ d dirs, J d → J { d with shared := { d.shared with watched := dirs } }
  taken : ∀ d (doc : Document), J d → P doc.path → d.shared.store.contains doc.path = false → doc.isOpen = false →
    doc.relative = doc.path.relativeTo d.workspace.root → doc.replica = d.workspace.replicaPath doc.path →
    doc.uri = doc.path.toUri? → J ({ d with workspace := d.workspace.track doc.path }.withStore (d.shared.store.insert doc))
  revised : ∀ d p r store, J d → N p → r ≠ .reopen → d.shared.store.revise? p r = .ok store →
    J (d.withStore store)
  tracked : ∀ d p, J d → P p → d.shared.store.contains p = true → J { d with workspace := d.workspace.track p }
  worked : ∀ d p op, J d → P p → Replica.Work (d.workspace.replicaPath p) op → J (d.afterReplica op)
  moved : ∀ d p q, J d → P p → P q →
    J (d.afterReplica (Replica.rename (d.workspace.replicaPath p) (d.workspace.replicaPath q)))

/-- A property of a desk that all handlers keep, but for their compilations. -/
structure Kept (J : Desk → Prop) (P N : Path → Prop) : Prop extends Grows J P N where
  released : ∀ d p, J d → J { d with workspace := d.workspace.release p }
  erased : ∀ d p, J d → N p → J (d.withStore (d.shared.store.erase p))

end Desk

/-- What is kept of the shared state is kept of a desk. -/
theorem Shared.Kept.desk {I : Shared → Prop} {N : Path → Prop} (h : Shared.Kept I N) :
    Desk.Kept (fun d => I d.shared) (fun _ => True) N where
  shared _ := h.toCalm
  config _ _ _ hs := hs
  closed d p := h.closed d.shared p
  below _ _ _ _ := trivial
  found _ _ _ _ _ _ := trivial
  watched d dirs := h.watch d.shared dirs
  taken d doc hd _ _ hclosed _ _ _ := h.insert d.shared doc hclosed hd
  revised d p r store hd hp hr := h.revise d.shared p r store hp hr hd
  tracked _ _ hd _ _ := hd
  worked d _ _ hd _ _ := h.disk d.shared _ hd
  moved d _ _ hd _ _ := h.disk d.shared _ hd
  released _ _ hd := hd
  erased d p hd hp := h.erase d.shared p hp hd

namespace Desk

variable {J : Desk → Prop} {P N : Path → Prop}

/-- Reading a file only reports. -/
theorem Calm.afterRead_keeps (h : Calm J) {d : Desk} (hd : J d) (p : Path) :
    J { d with shared := d.shared.afterRead p } := by
  have hread := (h.shared d.workspace).readText_keeps p d.shared hd
  rwa [Shared.wp_readText] at hread

/-- An operation on the replica succeeds, or fails with a report. -/
theorem wp_onReplica {op : ReplicaOp Unit} {failure : String} {Q : Bool → Desk → Prop} {E : Crash → Desk → Prop}
    {d : Desk} (hok : ∀ u disk,
      op d.shared.disk = .ok u disk → Q true { d with shared := { d.shared with disk := disk } })
    (herror : ∀ err disk, op d.shared.disk = .error err disk →
      Q false { d with shared := { d.shared with disk := disk, reports := d.shared.reports ++ [.error failure] } }) :
    wp (onReplica op failure) Q E d := by
  rw [onReplica, wp_bind, wp_onShared, Shared.onDisk, wp_modifyGet]
  cases hrun : op d.shared.disk with
  | ok u disk => exact (wp_pure _).mpr (hok u disk hrun)
  | error err disk =>
    rw [wp_bind, wp_onShared, Shared.wp_report, wp_pure]
    exact herror err disk hrun

/-- An operation on the replica, by the disk that it leaves. -/
theorem Calm.onReplica_keeps (h : Calm J) {op : ReplicaOp Unit} (failure : String) {d : Desk}
    (hop : J (d.afterReplica op)) : wp (onReplica op failure) (fun _ => J) (fun _ => J) d := by
  rw [afterReplica, Replica.diskAfter] at hop
  refine wp_onReplica (fun u disk hrun => ?_) fun err disk hrun => ?_
  · simpa only [hrun] using hop
  · simp only [hrun] at hop
    exact (h.shared d.workspace).report _ _ hop

theorem Calm.and {P Q : Desk → Prop} (hP : Calm P) (hQ : Calm Q) : Calm fun d => P d ∧ Q d where
  shared w :=
    { report := fun s r h => ⟨(hP.shared w).report s r h.1, (hQ.shared w).report s r h.2⟩
      publish := fun s r h => ⟨(hP.shared w).publish s r h.1, (hQ.shared w).publish s r h.2⟩
      mark := fun s p found store h hstore =>
        ⟨(hP.shared w).mark s p found store h.1 hstore, (hQ.shared w).mark s p found store h.2 hstore⟩ }
  config s w c h := ⟨hP.config s w c h.1, hQ.config s w c h.2⟩

/-- The same paths are tracked at another desk, and the same documents open. -/
def Like (d d' : Desk) : Prop :=
  d'.workspace.tracked = d.workspace.tracked ∧ ∀ q, d'.shared.store.isOpen q = d.shared.store.isOpen q

theorem Like.refl (d : Desk) : d.Like d := ⟨rfl, fun _ => rfl⟩

theorem like_calm (d : Desk) : Calm d.Like where
  shared _ :=
    { report := fun _ _ h => h
      publish := fun _ _ h => h
      mark := fun _ _ _ _ h hstore => ⟨h.1, fun q => (Store.isOpen_of_revise? hstore (fun _ _ => rfl) q).trans (h.2 q)⟩ }
  config _ _ _ h := h

/-! ### The pieces of a handler -/

namespace Grows

theorem calm (h : Grows J P N) : Calm J := h.toCalm

theorem revise_keeps (h : Grows J P N) {p : Path} {r : Revision} (hp : N p) (hr : r ≠ .reopen) :
    Preserves J (liftM (Shared.revise p r) : Act Desk _) :=
  onShared_keeps fun w => (h.shared w).revise_keeps fun s store hs => h.revised ⟨s, w⟩ p r store hs hp hr

theorem reload_keeps (h : Grows J P N) {p : Path} (hp : N p) :
    Preserves J (liftM (Shared.reload p) : Act Desk _) := by
  refine onShared_keeps fun w => ?_
  rw [Shared.reload]
  refine Preserves.bind ((h.shared w).readText_keeps p) fun content => ?_
  exact (h.shared w).revise_keeps fun s store hs =>
    h.revised ⟨s, w⟩ p _ store hs hp fun heq => by cases heq

/-- A path has a document after it was entered, with the places that the workspace gives it.
    One that is new has yet to be tracked. -/
theorem openPath_keeps (h : Grows J P N) {p : Path} (hp : P p) {d : Desk} (hd : J d) :
    wp (liftM (Shared.openPath p d.workspace.root false none (d.workspace.replicaPath p)) : Act Desk Bool)
      (fun isNew d' => d'.shared.store.contains p = true
        ∧ J (if isNew then { d' with workspace := d'.workspace.track p } else d')) (fun _ => J) d := by
  rw [wp_onShared, Shared.wp_openPath]
  refine ⟨fun hin => ⟨hin, hd⟩, fun hout => ?_⟩
  have hread := h.taken _ (d.shared.entered p d.workspace.root false none (d.workspace.replicaPath p))
    (h.calm.afterRead_keeps hd p) hp (by rwa [Shared.afterRead_store]) rfl rfl rfl (Shared.uri_entered ..)
  rw [withStore, Shared.afterRead_store] at hread
  have hfound : (d.shared.store.insert (d.shared.entered p d.workspace.root false none (d.workspace.replicaPath p))).get? p
      = some (d.shared.entered p d.workspace.root false none (d.workspace.replicaPath p)) := Store.get?_insert_self hout
  exact ⟨congrArg Option.isSome hfound, hread⟩

/-- A document that has been read again is there, and is tracked. -/
theorem reload_track_keeps (h : Grows J P N) {p : Path} (hp : P p) (hclosed : N p) {d : Desk} (hd : J d) :
    wp (liftM (Shared.reload p) : Act Desk _)
      (fun outcome d' => J d' ∧ d'.shared.store.contains p = d.shared.store.contains p
        ∧ (outcome = .ok () → J { d' with workspace := d'.workspace.track p })) (fun _ => J) d := by
  have hfound : wp (liftM (Shared.reload p) : Act Desk _)
      (fun outcome d' => d'.shared.store.contains p = d.shared.store.contains p
        ∧ (outcome = .ok () → d.shared.store.contains p = true)) (fun _ _ => True) d := by
    rw [wp_onShared]
    exact Shared.reload_contains p d.shared
  refine wp_imp (wp_and (h.reload_keeps hclosed d hd) hfound) ?_ fun _ _ he => he.1
  rintro outcome d' ⟨hd', hsame, hin⟩
  exact ⟨hd', hsame, fun hok => h.tracked d' p hd' hp (hsame.trans (hin hok))⟩

/-- Work on the copy of a path. -/
theorem work_keeps (h : Grows J P N) {p : Path} (hp : P p) {op : ReplicaOp Unit} (failure : String) {d : Desk}
    (hop : Replica.Work (d.workspace.replicaPath p) op) (hd : J d) :
    wp (onReplica op failure) (fun _ => J) (fun _ => J) d :=
  h.toCalm.onReplica_keeps failure (h.worked d p op hd hp hop)

theorem syncReplica_keeps (h : Grows J P N) {p : Path} (hp : P p) : Preserves J (syncReplica p) := by
  intro d hd
  rw [syncReplica, wp_bind, wp_get]
  split
  · exact (wp_pure _).mpr hd
  · rw [wp_bind]
    exact wp_imp (h.work_keeps hp _ (.write _) hd) (fun _ _ hd => (wp_pure _).mpr hd) fun _ _ hd => hd

/-- A file that is taken up is read again only when no editor has it open. -/
theorem trackFile_keeps (h : Grows J P N) {p : Path} (hp : P p) : Preserves J (trackFile p) := by
  intro d hd
  rw [trackFile, wp_bind, wp_get, wp_bind]
  refine wp_imp (h.openPath_keeps hp hd) (fun isNew d hd => ?_) fun _ _ hd => hd
  obtain ⟨hin, hd⟩ := hd
  rw [wp_bind, wp_get]
  cases isNew with
  | true =>
    simp only [Bool.not_true, Bool.false_and, Bool.false_eq_true, if_false, track, wp_modify]
    exact hd
  | false =>
    have htrack := h.tracked d p hd hp hin
    refine (wp_ite _ _).mpr ⟨fun hc => ?_, fun _ => (wp_modify _).mpr htrack⟩
    simp only [Bool.and_eq_true, Bool.not_eq_true'] at hc
    rw [wp_bind]
    refine wp_imp (h.reload_track_keeps hp (h.closed d p hd hc.2) hd) (fun _ d' hd' => ?_) fun _ _ hd => hd
    exact (wp_modify _).mpr (h.tracked d' p hd'.1 hp (hd'.2.1.trans hin))

theorem adoptDir_keeps (h : Grows J P N) {dir : Path} (hdir : P dir) : Preserves J (adoptDir dir) := by
  intro d hd
  rw [adoptDir, wp_bind, wp_get]
  dsimp only
  rw [wp_bind]
  refine wp_imp (h.work_keeps hdir _ (.adopt dir) hd) (fun _ d hd => ?_) fun _ _ hd => hd
  exact (wp_modify _).mpr (h.watched d _ hd)

theorem resyncOpen_keeps (h : Grows J P N) (p : Path) : Preserves J (resyncOpen p) := by
  rw [resyncOpen]
  refine Preserves.get_bind fun d hd => Preserves.forM _ fun q hq => Preserves.get_bind fun d' _ => ?_
  exact Preserves.ite (fun _ => h.syncReplica_keeps (h.below d q hd (Path.mem_sort.mp hq))) fun _ => Preserves.pure _

theorem editorOpened_keeps (h : Grows J P N) {p : Path} (hp : P p) {d : Desk}
    (hd : J { d with workspace := d.workspace.track p }) : wp (editorOpened p) (fun _ => J) (fun _ => J) d := by
  rw [editorOpened, wp_bind, track, wp_modify, wp_bind, wp_get]
  dsimp only
  rw [wp_bind]
  exact wp_imp (h.work_keeps hp _ (.create none) hd) (fun _ _ hd => (wp_pure _).mpr hd) fun _ _ hd => hd

variable (checks : Checkers)

theorem adoptFile_keeps (h : Grows J P N) {p : Path} (hp : P p) : Preserves J (adoptFile checks p) := by
  rw [adoptFile]
  refine Preserves.bind (h.trackFile_keeps hp) fun _ => ?_
  refine Preserves.bind (h.syncReplica_keeps hp) fun _ => ?_
  exact Preserves.bind (h.calm.check_keeps checks p) fun _ => Preserves.pure _

/-- A tree that is looked at holds paths of the workspace. -/
theorem tree_finds (h : Grows J P N) {dir : Path} (hdir : P dir) {d : Desk} (hd : J d) :
    wp (liftM (Shared.tree dir) : Act Desk Tree)
      (fun tree d' => J d' ∧ ∀ p, p ∈ tree.dirs ∨ p ∈ tree.files → P p) (fun _ => J) d := by
  rw [wp_onShared, Shared.tree, wp_bind, wp_get, wp_bind]
  refine wp_imp (Preserves.forM _ (fun r _ => (h.shared d.workspace).report_keeps r) d.shared hd)
    (fun _ s hs => (wp_pure _).mpr ⟨hs, h.found d dir hd hdir⟩) fun _ _ hs => hs

/-! ### The handlers that drop nothing -/

theorem trackDir_keeps (h : Grows J P N) (hrec : Records J) {dir : Path} (hdir : P dir) :
    Preserves J (trackDir checks dir) := by
  intro d hd
  rw [trackDir, wp_bind]
  refine wp_imp (h.tree_finds hdir hd) (fun tree d' hd' => ?_) fun _ _ hd' => hd'
  refine Preserves.bind (Preserves.forM _ fun q hq => h.adoptDir_keeps (hd'.2 q (.inl hq))) (fun _ => ?_) d' hd'.1
  refine Preserves.bind (Preserves.forM _ fun q hq => h.adoptFile_keeps checks (hd'.2 q (.inr hq))) fun _ => ?_
  exact Preserves.ite (fun _ => h.calm.compile_keeps checks hrec) fun _ => Preserves.pure _

theorem created_keeps (h : Grows J P N) (hrec : Records J) {p : Path} (hp : P p) :
    Preserves J (created checks p) := by
  rw [created]
  refine Preserves.get_bind fun d _ => ?_
  split
  · exact Preserves.pure _
  · refine Preserves.ite (fun _ => h.trackDir_keeps checks hrec hp) fun _ => ?_
    refine Preserves.bind (h.trackFile_keeps hp) fun _ d hd => ?_
    rw [wp_bind, wp_get]
    dsimp only
    rw [wp_bind]
    refine wp_imp (h.work_keeps hp _ (.create _) hd) (fun made d hd => ?_) fun _ _ hd => hd
    refine Preserves.ite (fun _ => ?_) (fun _ => Preserves.pure _) d hd
    exact Preserves.bind (h.syncReplica_keeps hp) fun _ => h.calm.diagnose_keeps checks hrec p

/-- The text of a path that is not open may be replaced. -/
theorem rewritten_keeps (h : Grows J P N) (hrec : Records J) {p : Path} (hp : P p) (hclosed : N p)
    (content : String) :
    Preserves J (do
      let _ ← onReplica (Replica.write ((← get).workspace.replicaPath p) (Text.Utf8.encode content))
        "Failed to write mirror file"
      match ← Shared.revise p (.replace content) with
      | .ok _ => diagnose checks p
      | .error _ => pure ()) := by
  intro d hd
  rw [wp_bind, wp_get, wp_bind]
  refine wp_imp (h.work_keeps hp _ (.write _) hd) (fun _ d hd => ?_) fun _ _ hd => hd
  refine Preserves.bind (h.revise_keeps hclosed fun heq => by cases heq) (fun outcome => ?_) d hd
  split
  · exact h.calm.diagnose_keeps checks hrec p
  · exact Preserves.pure _

/-- The text of a written file is replaced, which is for a path that is not open. -/
theorem written_keeps (h : Grows J P N) (hrec : Records J) {p : Path} (hp : P p) (hclosed : N p) :
    Preserves J (written checks p) := by
  have hend := h.rewritten_keeps checks hrec hp hclosed
  rw [written]
  refine Preserves.get_bind fun d _ => Preserves.ite (fun _ => ?_) fun _ => Preserves.pure _
  split
  · exact Preserves.pure _
  · refine Preserves.get_bind fun d _ => Preserves.ite (fun _ => ?_) fun _ => hend _
    exact Preserves.bind (h.trackFile_keeps hp) fun _ => hend _

/-- The part of a rename that follows when the old path has been let go. -/
theorem renamed_end_keeps (h : Grows J P N) (hrec : Records J) (source target : Path) (htarget : P target) :
    Preserves J (do
      if (← get).shared.disk.hasDirectory target then trackDir checks target
      else
        trackFile target
        syncReplica target
        diagnose checks target
      resyncOpen source) := by
  refine Preserves.get_bind fun d _ => Preserves.ite (fun _ => ?_) fun _ => ?_
  · exact Preserves.bind (h.trackDir_keeps checks hrec htarget) fun _ => h.resyncOpen_keeps source
  · refine Preserves.bind (h.trackFile_keeps htarget) fun _ => ?_
    refine Preserves.bind (h.syncReplica_keeps htarget) fun _ => ?_
    exact Preserves.bind (h.calm.diagnose_keeps checks hrec target) fun _ => h.resyncOpen_keeps source

/-- The part of a removal that follows when the path has been let go. -/
theorem removed_end_keeps (h : Grows J P N) (hrec : Records J) {p : Path} (hp : P p) :
    Preserves J (do
      let _ ← onReplica (Replica.remove ((← get).workspace.replicaPath p)) "Failed to remove mirror entry"
      resyncOpen p
      compile checks) := by
  intro d hd
  rw [wp_bind, wp_get, wp_bind]
  refine wp_imp (h.work_keeps hp _ .remove hd) (fun _ d hd => ?_) fun _ _ hd => hd
  exact Preserves.bind (h.resyncOpen_keeps p) (fun _ => h.calm.compile_keeps checks hrec) d hd

theorem editorChanged_keeps (h : Grows J P N) (hrec : Records J) {p : Path} (hp : P p) :
    Preserves J (editorChanged checks p) := by
  rw [editorChanged]
  refine Preserves.get_bind fun d _ => Preserves.ite (fun _ => ?_) fun _ => Preserves.pure _
  exact Preserves.bind (h.syncReplica_keeps hp) fun _ => h.calm.diagnose_keeps checks hrec p

/-- The text of a path that is not open may be read again. -/
theorem reread_keeps (h : Grows J P N) (hrec : Records J) {p : Path} (hp : P p) (hclosed : N p) :
    Preserves J (do
      match ← Shared.reload p with
      | .error _ => pure ()
      | .ok _ =>
        track p
        syncReplica p
        diagnose checks p : Act Desk Unit) := by
  intro d hd
  rw [wp_bind]
  refine wp_imp (h.reload_track_keeps hp hclosed hd) (fun outcome d' hd' => ?_) fun _ _ hd => hd
  split
  · exact (wp_pure _).mpr hd'.1
  · rw [wp_bind, track, wp_modify]
    exact Preserves.bind (h.syncReplica_keeps hp) (fun _ => h.calm.diagnose_keeps checks hrec p) _ (hd'.2.2 rfl)

end Grows

/-! ### Letting go -/

theorem dropDocuments_keeps {ps : List Path}
    (hdrop : ∀ p ∈ ps, Preserves J (liftM (Shared.dropDocument p) : Act Desk (Option Document))) :
    Preserves J (dropDocuments ps) := by
  rw [dropDocuments]
  exact Preserves.bind (Preserves.mapM _ hdrop) fun _ => Preserves.pure _

/-- Letting go of a path drops what is tracked at and below it and not open, and the path's
    own document if that is not open. -/
theorem untrack_spares {p : Path} {d : Desk} (hrelease : ∀ q, Preserves J (release q))
    (hdrop : ∀ q, N q → Preserves J (liftM (Shared.dropDocument q) : Act Desk (Option Document)))
    (hbelow : ∀ q ∈ d.workspace.tracked, q.startsWith p = true → d.shared.store.isOpen q = false → N q)
    (hown : ∀ d, J d → d.shared.store.isOpen p = false → N p) (hd : J d) :
    wp (untrack p) (fun _ => J) (fun _ => J) d := by
  rw [untrack, wp_bind, wp_get]
  refine Preserves.bind (Preserves.forM _ fun q _ => hrelease q) (fun _ => ?_) d hd
  refine Preserves.bind (dropDocuments_keeps fun q hq => hdrop q ?_) fun below => ?_
  · obtain ⟨hfiles, hq⟩ := List.mem_filter.mp hq
    simp only [Bool.and_eq_true, Bool.not_eq_true'] at hq
    exact hbelow q (Path.mem_sort.mp hfiles) hq.1 hq.2
  · refine Preserves.get_bind fun d hd => Preserves.ite (fun _ => Preserves.pure _) fun hopen => ?_
    refine Preserves.bind (dropDocuments_keeps fun q hq => hdrop q ?_) fun _ => Preserves.pure _
    rw [List.mem_singleton] at hq
    exact hq ▸ hown d hd (Bool.eq_false_iff.mpr hopen)

/-- At desks like the given one, letting go of a path keeps a property. -/
def LetsGo (J : Desk → Prop) (p : Path) (d : Desk) : Prop :=
  ∀ d', J d' → d.Like d' → wp (untrack p) (fun _ => J) (fun _ => J) d'

/-- The path that is let go when an event of the disk is handled. -/
def leaving (e : Watch.Event) (d : Desk) : Option Path :=
  if d.shared.store.isOpen e.path then none
  else match e.kind, e.source with
    | .created, some source => if d.shared.disk.hasPath e.path then some source else none
    | .removed, _ => some e.path
    | _, _ => none

/-- The path whose document is dropped when an event of the editor is handled. -/
def forgetting (e : EditorEvent) (d : Desk) : Option Path :=
  match e with
  | .closed p => if d.shared.store.isOpen p || d.shared.disk.hasPath p then none else some p
  | _ => none

namespace Grows

theorem untrackAndClear_keeps (h : Grows J P N) {p : Path} {d : Desk}
    (hlet : wp (untrack p) (fun _ => J) (fun _ => J) d) : wp (untrackAndClear p) (fun _ => J) (fun _ => J) d := by
  rw [untrackAndClear, wp_bind]
  refine wp_imp hlet (fun dropped d hd => ?_) fun _ _ hd => hd
  exact Preserves.forM _ (fun doc _ => h.calm.clear_keeps doc) d hd

variable (checks : Checkers)

/-! ### The handlers -/

theorem renamed_keeps (h : Grows J P N) (hrec : Records J) {source target : Path} (hsource : P source)
    (htarget : P target) {d : Desk} (hlet : d.shared.disk.hasPath target = true → LetsGo J source d) (hd : J d) :
    wp (renamed checks source target) (fun _ => J) (fun _ => J) d := by
  rw [renamed, wp_bind, wp_get]
  refine (wp_ite _ _).mpr ⟨fun hpath => ?_, fun _ => (wp_pure _).mpr hd⟩
  have hend : ∀ d', J d' ∧ d.Like d' → wp (do
      untrackAndClear source
      if (← get).shared.disk.hasDirectory target then trackDir checks target
      else
        trackFile target
        syncReplica target
        diagnose checks target
      resyncOpen source) (fun _ => J) (fun _ => J) d' := by
    rintro d' ⟨hd', hlike⟩
    rw [wp_bind]
    refine wp_imp (h.untrackAndClear_keeps (hlet hpath d' hd' hlike)) (fun _ d hd => ?_) fun _ _ hd => hd
    exact h.renamed_end_keeps checks hrec source target htarget d hd
  refine (wp_ite _ _).mpr ⟨fun _ => ?_, fun _ => hend d ⟨hd, .refl d⟩⟩
  rw [wp_bind]
  refine wp_imp ((h.calm.and (like_calm d)).onReplica_keeps _ ⟨h.moved d source target hd hsource htarget, .refl d⟩)
    (fun _ d' hd' => hend d' hd') fun _ _ hd' => hd'.1

theorem removed_keeps (h : Grows J P N) (hrec : Records J) {p : Path} (hp : P p) {d : Desk} (hlet : LetsGo J p d)
    (hd : J d) : wp (removed checks p) (fun _ => J) (fun _ => J) d := by
  rw [removed, wp_bind]
  refine wp_imp (h.untrackAndClear_keeps (hlet d hd (.refl d))) (fun _ d hd => ?_) fun _ _ hd => hd
  exact h.removed_end_keeps checks hrec hp d hd

/-- Events of the disk keep what is kept when the path that they are about is let go. -/
theorem onDiskEvent_keeps (h : Grows J P N) (hrec : Records J) {event : Watch.Event} (hp : P event.path)
    (hsource : ∀ source, event.source = some source → P source) {d : Desk}
    (hlet : ∀ p, leaving event d = some p → LetsGo J p d) (hd : J d) :
    wp (onDiskEvent checks event) (fun _ => J) (fun _ => J) d := by
  have hend : Preserves J
      (if event.path.isConfigFile || event.source.any Path.isConfigFile then reloadConfig checks
        else pure ()) :=
    Preserves.ite (fun _ => h.calm.reloadConfig_keeps checks hrec) fun _ => Preserves.pure _
  rw [onDiskEvent, wp_bind, wp_get]
  refine (wp_ite _ _).mpr ⟨fun hopen => ?_, fun _ => (wp_pure _).mpr hd⟩
  rw [Bool.not_eq_true'] at hopen
  have hclosed : N event.path := h.closed d event.path hd hopen
  rw [leaving, hopen] at hlet
  dsimp only
  split
  · rename_i source hkind heq
    rw [hkind, heq] at hlet
    rw [wp_bind]
    refine wp_imp (h.renamed_keeps checks hrec (hsource source heq) hp (fun hpath => hlet source (if_pos hpath)) hd)
      (fun _ d hd => hend d hd) fun _ _ hd => hd
  · exact Preserves.bind (h.created_keeps checks hrec hp) (fun _ => hend) d hd
  · exact Preserves.bind (h.written_keeps checks hrec hp hclosed) (fun _ => hend) d hd
  · rename_i hkind
    rw [hkind] at hlet
    rw [wp_bind]
    refine wp_imp (h.removed_keeps checks hrec hp (hlet event.path rfl) hd) (fun _ d hd => hend d hd) fun _ _ hd => hd

/-- Dropping the document of a path, and removing its copy. -/
theorem forget_keeps (h : Grows J P N) {p : Path} (hp : P p) {d : Desk}
    (hdrop : J ({ d with workspace := d.workspace.release p }.withStore (d.shared.store.erase p))) :
    wp (do
      release p
      match ← Shared.dropDocument p with
      | some doc => Shared.clear doc
      | none => pure ()
      let _ ← onReplica (Replica.remove (d.workspace.replicaPath p)) "Failed to remove mirror file"
      : Act Desk Unit) (fun _ => J) (fun _ => J) d := by
  -- Where the copy is does not change before it is removed.
  have hcalm : Calm fun d' => J d' ∧ d'.workspace.replicaPath p = d.workspace.replicaPath p :=
    h.calm.and ⟨fun _ => ⟨fun _ _ hs => hs, fun _ _ hs => hs, fun _ _ _ _ hs _ => hs⟩, fun _ _ _ hs => hs⟩
  have hend : ∀ d', J d' ∧ d'.workspace.replicaPath p = d.workspace.replicaPath p → wp (do
      let _ ← onReplica (Replica.remove (d.workspace.replicaPath p)) "Failed to remove mirror file"
      pure ()) (fun _ => J) (fun _ => J) d' := by
    intro d' hd'
    rw [← hd'.2, wp_bind]
    exact wp_imp (h.work_keeps hp _ .remove hd'.1) (fun _ _ hd => (wp_pure _).mpr hd) fun _ _ hd => hd
  rw [wp_bind, release, wp_modify, wp_bind, wp_onShared, Shared.wp_dropDocument]
  split
  · rw [wp_bind]
    exact wp_imp (hcalm.clear_keeps _ _ ⟨hdrop, rfl⟩) (fun _ d' hd' => hend d' hd') fun _ _ hd' => hd'.1
  · exact hend _ ⟨hdrop, rfl⟩

/-- A closing that comes late finds the document open again, and leaves it alone. -/
theorem editorClosed_keeps (h : Grows J P N) (hrec : Records J) {p : Path} (hp : P p) {d : Desk}
    (hdrop : forgetting (.closed p) d = some p →
      J ({ d with workspace := d.workspace.release p }.withStore (d.shared.store.erase p))) (hd : J d) :
    wp (editorClosed checks p) (fun _ => J) (fun _ => J) d := by
  rw [editorClosed, wp_bind, wp_get]
  refine (wp_ite _ _).mpr ⟨fun hopen => ?_, fun _ => (wp_pure _).mpr hd⟩
  rw [Bool.not_eq_true'] at hopen
  refine (wp_ite _ _).mpr ⟨fun hmissing => h.forget_keeps hp (hdrop ?_), fun _ => ?_⟩
  · rw [Bool.not_eq_true'] at hmissing
    rw [forgetting, hopen, hmissing]
    rfl
  · exact h.reread_keeps checks hrec hp (h.closed d p hd hopen) d hd

/-- Events of the editor keep what is kept when the document that they forget is dropped. -/
theorem onEditorEvent_keeps (h : Grows J P N) (hrec : Records J) {event : EditorEvent} (hp : P event.path) {d : Desk}
    (hdrop : ∀ p, forgetting event d = some p →
      J ({ d with workspace := d.workspace.release p }.withStore (d.shared.store.erase p))) (hd : J d) :
    wp (onEditorEvent checks event) (fun _ => J) (fun _ => J) d := by
  have hend : ∀ p : Path, Preserves J (do
      if p.isConfigFile then reloadConfig checks
      return (.ok () : Except WorkspaceError Unit)) := fun p =>
    Preserves.ite
      (fun _ => Preserves.bind (h.calm.reloadConfig_keeps checks hrec) fun _ => Preserves.pure _)
      fun _ => Preserves.pure _
  rw [onEditorEvent, wp_bind, wp_get]
  refine (wp_ite _ _).mpr ⟨fun _ => ?_, fun hin => ?_⟩
  · exact Preserves.bind (h.calm.report_keeps _) (fun _ => Preserves.pure _) d hd
  · rw [Bool.not_eq_true', Bool.not_eq_false] at hin
    split
    · rw [wp_bind]
      exact wp_imp (h.editorOpened_keeps hp (h.tracked d _ hd hp hin)) (fun _ _ hd => (wp_pure _).mpr hd) fun _ _ hd => hd
    · exact Preserves.bind (h.editorChanged_keeps checks hrec hp) (fun _ => hend _) d hd
    · rename_i p
      rw [wp_bind]
      exact wp_imp (h.editorClosed_keeps checks hrec hp (hdrop p) hd) (fun _ d hd => hend p d hd) fun _ _ hd => hd

end Grows

namespace Kept

theorem grows (h : Kept J P N) : Grows J P N := h.toGrows

theorem release_keeps (h : Kept J P N) (p : Path) : Preserves J (release p) :=
  Preserves.modify fun d hd => h.released d p hd

theorem dropDocument_keeps (h : Kept J P N) {p : Path} (hp : N p) :
    Preserves J (liftM (Shared.dropDocument p) : Act Desk _) := by
  intro d hd
  rw [wp_onShared, Shared.wp_dropDocument]
  exact h.erased d p hd hp

/-- Letting go spares what is open: what it drops was found not open when it began. -/
theorem untrack_keeps (h : Kept J P N) (p : Path) : Preserves J (untrack p) := fun d hd =>
  untrack_spares (N := N) (fun q => h.release_keeps q) (fun _ hq => h.dropDocument_keeps hq)
    (fun q _ _ hclosed => h.closed d q hd hclosed) (fun d hd hclosed => h.closed d p hd hclosed) hd

theorem untrackAndClear_keeps (h : Kept J P N) (p : Path) : Preserves J (untrackAndClear p) := fun d hd =>
  h.grows.untrackAndClear_keeps (h.untrack_keeps p d hd)

theorem forget (h : Kept J P N) {event : EditorEvent} {p : Path} (d : Desk) (hd : J d)
    (hforget : forgetting event d = some p) :
    J ({ d with workspace := d.workspace.release p }.withStore (d.shared.store.erase p)) := by
  refine h.erased _ p (h.released d p hd) (h.closed d p hd ?_)
  cases event with
  | opened q => cases hforget
  | changed q => cases hforget
  | closed q =>
    unfold forgetting at hforget
    dsimp only at hforget
    split at hforget
    · cases hforget
    · rename_i hnot
      cases hforget
      rw [Bool.or_eq_true, not_or] at hnot
      exact Bool.eq_false_iff.mpr hnot.1

variable (checks : Checkers)

theorem editorClosed_keeps (h : Kept J P N) (hrec : Records J) {p : Path} (hp : P p) :
    Preserves J (editorClosed checks p) := fun d hd =>
  h.grows.editorClosed_keeps checks hrec hp (h.forget d hd) hd

/-- **Events of the disk keep what is kept.** -/
theorem onDiskEvent_keeps (h : Kept J P N) (hrec : Records J) {event : Watch.Event} (hp : P event.path)
    (hsource : ∀ source, event.source = some source → P source) : Preserves J (onDiskEvent checks event) := fun _ hd =>
  h.grows.onDiskEvent_keeps checks hrec hp hsource (fun p _ d' hd' _ => h.untrack_keeps p d' hd') hd

/-- **Events of the editor keep what is kept.** -/
theorem onEditorEvent_keeps (h : Kept J P N) (hrec : Records J) {event : EditorEvent} (hp : P event.path) :
    Preserves J (onEditorEvent checks event) := fun d hd =>
  h.grows.onEditorEvent_keeps checks hrec hp (fun _ => h.forget d hd) hd

end Kept

namespace Grows

variable (checks : Checkers)

/-! ### Opening a workspace -/

theorem adoptFound_keeps (h : Grows J P N) {p : Path} (hp : P p) : Preserves J (adoptFound checks p) := by
  intro d hd
  rw [adoptFound, wp_bind, wp_get]
  dsimp only
  rw [wp_bind]
  refine wp_imp (h.openPath_keeps hp hd) (fun isNew d hd => ?_) fun _ _ hd => hd
  cases isNew with
  | false => exact (wp_pure _).mpr hd.2
  | true =>
    rw [if_pos rfl, wp_bind, track, wp_modify]
    exact Preserves.bind (h.calm.check_keeps checks p) (fun _ => Preserves.pure _) _ hd.2

/-- Copying the tree changes the disk, and reports. -/
theorem replicate_keeps (h : Grows J P N) {d : Desk} (hd : J { d with shared := { d.shared with
      disk := (d.workspace.replica.replicate d.workspace.root d.shared.disk).disk } }) :
    wp replicate (fun _ => J) (fun _ => J) d := by
  have hreports : ∀ (rs : List Report) (d : Desk), J d →
      J { d with shared := { d.shared with reports := d.shared.reports ++ rs } } := by
    intro rs
    induction rs with
    | nil => intro d hd; rw [List.append_nil]; exact hd
    | cons r rest ih =>
      intro d hd
      rw [List.append_cons]
      exact ih _ ((h.shared d.workspace).report d.shared r hd)
  rw [replicate, wp_bind, wp_get]
  dsimp only
  rw [wp_bind, wp_set]
  exact Preserves.ite (fun _ => h.calm.report_keeps _) (fun _ => Preserves.pure _) _ (hreports _ _ hd)

theorem populate_keeps (h : Grows J P N) (hrec : Records J) (hroot : ∀ d, J d → P d.workspace.root) {d : Desk}
    (hd : J { d with shared := { d.shared with
      disk := (d.workspace.replica.replicate d.workspace.root d.shared.disk).disk } }) :
    wp (populate checks) (fun _ => J) (fun _ => J) d := by
  rw [populate, wp_bind]
  refine wp_imp (h.replicate_keeps hd) (fun _ d hd => ?_) fun _ _ hd => hd
  rw [wp_bind, wp_get, wp_bind]
  refine wp_imp (h.tree_finds (hroot d hd) hd) (fun tree d' hd' => ?_) fun _ _ hd' => hd'
  refine Preserves.bind (Preserves.forM _ fun p hp => h.adoptFound_keeps checks (hd'.2 p (.inr hp))) (fun _ => ?_)
    d' hd'.1
  exact Preserves.bind h.calm.loadConfig_keeps fun _ => h.calm.compile_keeps checks hrec

/-- Opening a workspace either changes nothing, or leaves a workspace that bears the property. -/
theorem create_keeps (h : Grows J P N) (hrec : Records J) (hroot : ∀ d, J d → P d.workspace.root)
    {root replicaRoot : Path} {s : Shared}
    (hstart : ∀ resolved, s.disk.canonicalize root = .ok resolved → s.disk.hasDirectory resolved = true →
      J ⟨{ s with disk := ((Replica.ofWorkspace replicaRoot resolved).replicate resolved s.disk).disk },
        Workspace.ofRoot resolved replicaRoot⟩) :
    wp (Workspace.create checks root replicaRoot)
      (fun outcome s' => match outcome with
        | .ok w => J ⟨s', w⟩
        | .error _ => s' = s) (fun _ s' => ∃ w, J ⟨s', w⟩) s := by
  rw [Workspace.create, wp_bind, wp_get]
  dsimp only
  split
  · exact (wp_pure _).mpr rfl
  · rename_i resolved hresolved
    refine (wp_ite _ _).mpr ⟨fun _ => (wp_pure _).mpr rfl, fun hdir => ?_⟩
    rw [Bool.not_eq_true', Bool.not_eq_false] at hdir
    have hrun := h.populate_keeps (d := ⟨s, Workspace.ofRoot resolved replicaRoot⟩) checks hrec hroot
      (hstart resolved hresolved hdir)
    cases hd : populate checks ⟨s, Workspace.ofRoot resolved replicaRoot⟩ with
    | ok a d =>
      refine (wp_of_ok (by simp only [hd]; rfl)).mpr ?_
      exact (wp_of_ok hd).mp hrun
    | error err d =>
      refine (wp_of_error (by simp only [hd]; rfl)).mpr ⟨d.workspace, ?_⟩
      exact (wp_of_error hd).mp hrun

end Grows

end Desk

/-! ### The loop -/

namespace Running

variable {J : Desk → Prop} {P N : Path → Prop} {r : Running} {s : Shared}

/-- The workspace of a loop bears a property, and the events that wait are for its paths. -/
structure Bears (J : Desk → Prop) (P : Path → Prop) (r : Running) (s : Shared) : Prop where
  desk : J ⟨s, r.workspace⟩
  queue : ∀ e ∈ r.queue, P e.path

theorem Bears.finish (h : r.Bears J P s) (how : Ending) : (r.finish how).Bears J P s := by
  rw [Running.finish]
  split
  · exact ⟨h.desk, fun _ he => absurd he List.not_mem_nil⟩
  · exact h

theorem Bears.report (h : r.Bears J P s) (hcalm : Desk.Calm J) (report : Report) :
    r.Bears J P { s with reports := s.reports ++ [report] } :=
  ⟨(hcalm.shared _).report s report h.desk, h.queue⟩

/-- A loop's work keeps what the work itself keeps. -/
theorem Bears.work {α : Type} {act : Act Desk α} (h : r.Bears J P s)
    (hact : wp act (fun _ => J) (fun _ => J) ⟨s, r.workspace⟩) {next : α → Running → Running}
    (hnext : ∀ a r s, r.Bears J P s → (next a r).Bears J P s) :
    (r.work s act next).1.Bears J P (r.work s act next).2 := by
  rw [Running.work]
  cases hd : act ⟨s, r.workspace⟩ with
  | ok a d => exact hnext a _ _ ⟨(wp_of_ok hd).mp hact, h.queue⟩
  | error err d =>
    have hr : ({ r with workspace := d.workspace } : Running).Bears J P d.shared := ⟨(wp_of_error hd).mp hact, h.queue⟩
    exact hr.finish .crashed

/-- An editor's event without a document ends the loop. -/
theorem Bears.outcome (h : r.Bears J P s) (outcome : Except WorkspaceError Unit) :
    (match outcome with
      | .ok _ => r
      | .error err => r.finish (.failed err)).Bears J P s := by
  cases outcome with
  | ok _ => exact h
  | error err => exact h.finish _

end Running

namespace Desk.Kept

open Running (Bears)

variable {J : Desk → Prop} {P N : Path → Prop} {r : Running} {s : Shared} (checks : Checkers)

theorem handleDisk_keeps (h : Kept J P N) (hrec : Records J) (event : Watch.Event) (hp : P event.path)
    (hsource : ∀ source, event.source = some source → P source) (hr : r.Bears J P s) :
    (r.handleDisk checks event s).1.Bears J P (r.handleDisk checks event s).2 := by
  rw [Running.handleDisk]
  split
  · exact hr.work (h.onDiskEvent_keeps checks hrec hp hsource _ hr.desk) fun _ _ _ hr => hr
  · exact hr

theorem handleWatchFailure_keeps (h : Kept J P N) (hr : r.Bears J P s) :
    (r.handleWatchFailure s).1.Bears J P (r.handleWatchFailure s).2 := by
  rw [Running.handleWatchFailure]
  split
  · exact hr.report h.grows.calm _
  · exact hr

theorem handleNext_keeps (h : Kept J P N) (hrec : Records J) (hr : r.Bears J P s) :
    (r.handleNext checks s).1.Bears J P (r.handleNext checks s).2 := by
  rw [Running.handleNext]
  split
  · rename_i event rest halive hqueue
    have hevent : P event.path := hr.queue event (by rw [hqueue]; exact List.mem_cons_self)
    have hrest : ({ r with queue := rest } : Running).Bears J P s :=
      ⟨hr.desk, fun e he => hr.queue e (by rw [hqueue]; exact List.mem_cons_of_mem _ he)⟩
    have hwork := hrest.work (h.onEditorEvent_keeps checks hrec hevent _ hrest.desk) fun outcome _ _ hr =>
      hr.outcome outcome
    dsimp only
    split
    · exact hwork.report h.grows.calm _
    · exact hwork
  · exact hr

theorem handleMany_keeps (h : Kept J P N) (hrec : Records J) (count : Nat) (hr : r.Bears J P s) :
    (r.handleMany checks count s).1.Bears J P (r.handleMany checks count s).2 := by
  induction count generalizing r s with
  | zero => exact hr
  | succ count ih => exact ih (h.handleNext_keeps checks hrec hr)

theorem submit_keeps (h : Kept J P N) (hrec : Records J) (event : EditorEvent) (hp : P event.path)
    (hr : r.Bears J P s) :
    (r.submit checks event s).2.1.Bears J P (r.submit checks event s).2.2 := by
  have hqueue : ∀ {r : Running} {s : Shared}, r.Bears J P s →
      (if r.isAlive then { r with queue := r.queue ++ [event] } else r).Bears J P s := by
    intro r s hr
    split
    · refine ⟨hr.desk, fun e he => ?_⟩
      rcases List.mem_append.mp he with he | he
      · exact hr.queue e he
      · rw [List.mem_singleton.mp he]
        exact hp
    · exact hr
  rw [Running.submit]
  split
  · exact hr
  · dsimp only
    split
    · exact hqueue (h.handleMany_keeps checks hrec _ hr)
    · exact hqueue hr

end Desk.Kept

end LiveWorkspace
