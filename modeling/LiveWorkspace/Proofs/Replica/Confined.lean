/-
  LiveWorkspace/Proofs/Replica/Confined.lean
  ==========================================
  **The operations of a replica keep to the replica, also when they fail.**

  `Effects.lean` says what an operation has done when it succeeds.  One that fails may have
  done a part of its work, such as making some of the directories above a file.  Whatever
  it has done, it was done at places of the replica (`Confined`): the paths that it works
  on go down from the replica's directory, and so do all paths above them that it looks at
  where something is missing.
-/
import LiveWorkspace.Proofs.Act
import LiveWorkspace.Proofs.Replica.Effects

namespace LiveWorkspace

/-! ### Operations on the disk -/

section Rules

variable {α : Type} {Q : α → Disk → Prop} {E : OsError → Disk → Prop} {d : Disk}

theorem DiskOp.wp_ask (f : Disk → Except OsError α) :
    wp (DiskOp.ask f) Q E d ↔ (∀ a, f d = .ok a → Q a d) ∧ ∀ e, f d = .error e → E e d := by
  simp only [wp, ask]
  cases f d <;> simp

/-- An operation on the disk does the same as an action of the replica. -/
theorem DiskOp.wp_as {E : ReplicaError → Disk → Prop} (op : DiskOp α) (action : String) (p : Path) :
    wp (op.as action p) Q E d ↔ wp op Q (fun cause => E ⟨action, p, cause⟩) d := by
  simp only [wp, DiskOp.as]
  cases op d <;> rfl

theorem Disk.wp_orDirectory {Q : Unit → Disk → Prop} (p : Path) (act : DiskOp Unit) :
    wp (orDirectory p act) Q E d
      ↔ wp act Q (fun e d' => if d'.hasDirectory p = true then Q () d' else E e d') d := by
  simp only [wp, orDirectory]
  cases act d with
  | ok a d' => rfl
  | error e d' => cases h : d'.hasDirectory p <;> simp [h]

end Rules

namespace Preserves

variable {α : Type} {I : Disk → Prop}

/-- A change that is made at once is made where it succeeds. -/
theorem change {f : Disk → Except OsError Disk} (h : ∀ d d', I d → (DiskOp.change f : DiskOp Unit) d = .ok () d' → I d') :
    Preserves I (DiskOp.change f) := by
  refine of_results (fun d _ d' => h d d') fun d e d' hd herror => ?_
  unfold DiskOp.change at herror
  split at herror
  · cases herror
  · cases herror
    exact hd

/-- Looking at the disk leaves it as it is. -/
theorem ask (f : Disk → Except OsError α) : Preserves I (DiskOp.ask f) :=
  fun _ hd => (DiskOp.wp_ask f).mpr ⟨fun _ _ => hd, fun _ _ => hd⟩

theorem as {op : DiskOp α} (h : Preserves I op) (action : String) (p : Path) : Preserves I (op.as action p) :=
  fun d hd => (DiskOp.wp_as op action p).mpr (h d hd)

end Preserves

namespace Disk

variable {I : Disk → Prop} {p : Path}

theorem orDirectory_preserves {I : Disk → Prop} {act : DiskOp Unit} (h : Preserves I act) (p : Path) :
    Preserves I (orDirectory p act) := by
  intro d hd
  rw [wp_orDirectory]
  refine wp_imp (h d hd) (fun _ _ hd => hd) fun _ _ hd => ?_
  split
  · exact hd
  · exact hd

/-- Making directories keeps what making each of them keeps; `Q` says which paths are made. -/
theorem makeDirsWithin_preserves {Q : Path → Prop} (hmake : ∀ p, Q p → Preserves I (makeDir p))
    (hparent : ∀ p q d d', Q p → I d → (makeDir p : DiskOp Unit) d = .error .notFound d' → p.parent? = some q →
      q.spelling.isEmpty = false → Q q) (depth : Nat) (hp : Q p) : Preserves I (makeDirsWithin depth p) := by
  induction depth generalizing p with
  | zero => exact orDirectory_preserves (hmake p hp) p
  | succ depth ih =>
    intro d hd
    have hfirst := hmake p hp d hd
    unfold wp makeDirsWithin
    cases hrun : (makeDir p : DiskOp Unit) d with
    | ok a d₁ => exact (wp_of_ok hrun).mp hfirst
    | error e d₁ =>
      have hd₁ := (wp_of_error hrun).mp hfirst
      by_cases hmissing : e = .notFound
      · subst hmissing
        cases hq : p.parent? with
        | none => exact hd₁
        | some q =>
          have habove : Preserves I (if q.spelling.isEmpty then pure () else makeDirsWithin depth q : DiskOp Unit) :=
            Preserves.ite (fun _ => Preserves.pure _) fun hne =>
              ih (hparent p q d d₁ hp hd hrun hq (Bool.eq_false_iff.mpr hne))
          have hway := habove d₁ hd₁
          dsimp only
          cases hmade : (if q.spelling.isEmpty then pure () else makeDirsWithin depth q : DiskOp Unit) d₁ with
          | ok u d₂ =>
            have hagain := orDirectory_preserves (hmake p hp) p d₂ ((wp_of_ok hmade).mp hway)
            rwa [wp] at hagain
          | error err d₂ => exact (wp_of_error hmade).mp hway
      · simp only
        cases d₁.hasDirectory p with
        | true => exact hd₁
        | false => exact hd₁

end Disk

/-- Removing keeps what it keeps to remove a file or a tree. -/
theorem Replica.remove_preserves {I : Disk → Prop} {p : Path}
    (hop : ∀ d, I d → wp (if d.hasDirectory p then Disk.removeTree p else Disk.removeFile p : DiskOp Unit)
      (fun _ => I) (fun _ => I) d) : Preserves I (Replica.remove p) := by
  intro d hd
  have hfirst := hop d hd
  unfold wp Replica.remove
  generalize (if d.hasDirectory p then Disk.removeTree p else Disk.removeFile p : DiskOp Unit) = op at hfirst ⊢
  have has : wp (op.as "remove" p) (fun _ => I) (fun _ => I) d := (DiskOp.wp_as op "remove" p).mpr hfirst
  dsimp only
  split
  · rename_i heq
    split at heq
    · rename_i hrun
      cases heq
      exact (wp_of_error hrun).mp hfirst
    · exact (wp_of_ok heq).mp has
  · rename_i heq
    split at heq
    · cases heq
    · exact (wp_of_error heq).mp has

/-! ### Keeping to the replica -/

namespace Site

variable {z : Site} {d₀ d d' : Disk} {p q : Path} {ns ms : List String}

/-- A disk that differs from another one in the replica only, and where the replica still
    stands. -/
structure Confined (z : Site) (d₀ d : Disk) : Prop where
  outside : Disk.SameOutside z.zone d₀ d
  stands : z.Stands d
  proper : d.Proper

theorem Confined.of_spares {dirs files : List String → Prop} (h : z.Confined d₀ d)
    (hspares : z.Spares dirs files d d') : z.Confined d₀ d' :=
  ⟨h.outside.trans hspares.outside, hspares.stands h.stands, hspares.proper h.proper⟩

/-! ### Directories -/

theorem makeDir_confined (hp : z.Spells p ns) (mode : Nat) : Preserves (z.Confined d₀) (Disk.makeDir p mode) :=
  Preserves.change fun _ _ h hok => h.of_spares (h.stands.makeDir_ok hp hok).1.spares

/-- Making directories on the way to some names keeps what making each of them keeps. -/
theorem makeDirs_preserves {I : Disk → Prop} (hstands : ∀ d, I d → z.Stands d)
    (hmake : ∀ p ms, z.Spells p ms → ms <+: ns → Preserves I (Disk.makeDir p)) (hp : z.Spells p ms) (hms : ms <+: ns) :
    Preserves I (Disk.makeDirs p) := by
  rw [Disk.makeDirs]
  refine Preserves.ite (fun _ => Preserves.pure _) fun _ => ?_
  refine Disk.makeDirsWithin_preserves (Q := fun p => ∃ ms, z.Spells p ms ∧ ms <+: ns) (fun p hp => ?_) ?_ _ ⟨ms, hp, hms⟩
  · obtain ⟨ms, hp, hms⟩ := hp
    exact hmake p ms hp hms
  · rintro p q d d' ⟨ms, hp, hms⟩ hd hrun hq -
    obtain ⟨-, hfree⟩ := makeDir_error hrun
    -- Something is missing above the path, so that the path above it is one of the replica.
    rcases List.eq_nil_or_concat ms with rfl | ⟨init, n, rfl⟩
    · exact absurd hfree ((hstands d hd).freeSlot_ne_notFound hp)
    · rw [List.concat_eq_append] at hp hms
      obtain ⟨q', hparent, hspells, -⟩ := hp.exists_parent (hstands d hd).proper
      rw [hq] at hparent
      cases hparent
      exact ⟨init, hspells, (List.prefix_append init [n]).trans hms⟩

theorem makeDirs_confined (hp : z.Spells p ns) : Preserves (z.Confined d₀) (Disk.makeDirs p) :=
  makeDirs_preserves (fun _ h => h.stands) (fun _ _ hp _ => makeDir_confined hp _) hp List.prefix_rfl

/-- No directory is made for a path that the operating system does not take. -/
theorem makeDirs_eq_error {err : OsError} (hflaw : p.flaw? = some err) (hne : p.spelling ≠ "") (d : Disk) :
    (Disk.makeDirs p : DiskOp Unit) d = .error err d := by
  have hempty : ¬ p.spelling.isEmpty = true := fun he => hne (String.isEmpty_iff.mp he)
  have hslot : d.freeSlot p = .error err := by
    simp only [Disk.freeSlot, Disk.slot, Disk.walkFrom, hflaw, bind, Except.bind]
  have hrun : (Disk.makeDir p : DiskOp Unit) d = .error err d := by
    simp only [Disk.makeDir, DiskOp.change, hslot, Except.map]
  have hnone : d.hasDirectory p = false := by
    simp only [Disk.hasDirectory, Disk.stat, Disk.resolve, Disk.walkFrom, hflaw]
    rfl
  have herr : err ≠ .notFound := fun he => flaw?_ne_notFound hne (he ▸ hflaw)
  rw [Disk.makeDirs, if_neg hempty]
  cases p.components.length with
  | zero => simp [Disk.makeDirsWithin, Disk.orDirectory, hrun, hnone]
  | succ depth => simp [Disk.makeDirsWithin, hrun, hnone]

theorem makeDirs_of_flaw {I : Disk → Prop} (hflaw : p.flaw? ≠ none) : Preserves I (Disk.makeDirs p) := by
  obtain ⟨err, hflaw⟩ := Option.ne_none_iff_exists'.mp hflaw
  by_cases hempty : p.spelling.isEmpty = true
  · rw [Disk.makeDirs, if_pos hempty]
    exact Preserves.pure _
  · have hne : p.spelling ≠ "" := fun he => hempty (String.isEmpty_iff.mpr he)
    exact fun d hd => (wp_of_error (makeDirs_eq_error hflaw hne d)).mpr hd

theorem ensureParent_confined (hp : z.Spells p ns) : Preserves (z.Confined d₀) (Replica.ensureParent p) := by
  intro d h
  unfold Replica.ensureParent
  rcases List.eq_nil_or_concat ns with rfl | ⟨init, n, rfl⟩
  · obtain ⟨q, hparent, -, hhas⟩ := hp.hasPath_parent h.stands
    rw [hparent]
    dsimp only
    rw [wp_bind, wp_get]
    refine (wp_ite _ _).mpr ⟨fun _ => (wp_pure _).mpr h, fun hmissing => ?_⟩
    exact (makeDirs_of_flaw fun hflaw => hmissing (hhas hflaw)).as _ _ d h
  · rw [List.concat_eq_append] at hp
    obtain ⟨q, hparent, hq, -⟩ := hp.exists_parent h.stands.proper
    rw [hparent]
    dsimp only
    rw [wp_bind, wp_get]
    exact (wp_ite _ _).mpr ⟨fun _ => (wp_pure _).mpr h, fun _ => (makeDirs_confined hq).as _ _ d h⟩

/-! ### Single entries -/

theorem diskWrite_confined (hp : z.Spells p ns) (content : Text.Bytes) :
    Preserves (z.Confined d₀) (Disk.write p content) :=
  Preserves.change fun _ _ h hok => h.of_spares (h.stands.diskWrite_ok hp hok).1

theorem setMode_confined (hp : z.Spells p ns) (mode : Nat) : Preserves (z.Confined d₀) (Replica.setMode p mode) := by
  refine Preserves.as (Preserves.change fun _ _ h hok => ?_) _ _
  exact h.of_spares (h.stands.setMode_ok hp (as_eq_ok.mpr hok))

theorem write_confined (hp : z.Spells p ns) (content : Text.Bytes) :
    Preserves (z.Confined d₀) (Replica.write p content) := by
  rw [Replica.write]
  exact Preserves.bind (ensureParent_confined hp) fun _ => (diskWrite_confined hp content).as _ _

theorem create_confined (hp : z.Spells p ns) (mode : Option Nat) :
    Preserves (z.Confined d₀) (do Replica.ensureParent p; Replica.createEmptyFile p mode) := by
  refine Preserves.bind (ensureParent_confined hp) fun _ => ?_
  unfold Replica.createEmptyFile
  refine Preserves.bind ((diskWrite_confined hp []).as _ _) fun _ => ?_
  split
  · exact setMode_confined hp _
  · exact Preserves.pure _

theorem createDir_confined (hp : z.Spells p ns) (mode : Nat) :
    Preserves (z.Confined d₀) (Replica.createDir p mode) := by
  rw [Replica.createDir]
  exact Preserves.bind ((makeDirs_confined hp).as _ _) fun _ => setMode_confined hp mode

theorem adopt_confined (hp : z.Spells p ns) (dir : Path) :
    Preserves (z.Confined d₀) (do Replica.createDir p (← Replica.modeOf dir)) :=
  Preserves.bind ((Preserves.ask _).as _ _) fun mode => createDir_confined hp mode

theorem remove_confined (hp : z.Spells p ns) : Preserves (z.Confined d₀) (Replica.remove p) := by
  have hfile : Preserves (z.Confined d₀) (Disk.removeFile p) := Preserves.change fun _ _ h hok => by
    rw [h.stands.removeFile_ok hp hok]
    exact h.of_spares (spares_erase z _ ns)
  have hop : ∀ d, z.Confined d₀ d →
      wp (if d.hasDirectory p then Disk.removeTree p else Disk.removeFile p : DiskOp Unit)
        (fun _ => z.Confined d₀) (fun _ => z.Confined d₀) d := by
    refine fun d h => (wp_ite _ _).mpr ⟨fun hdir => ?_, fun _ => hfile d h⟩
    have hhas := h.stands.hasDirectory_ok hp hdir
    have hflaw : p.flaw? = none := by
      cases hstat : d.stat p with
      | error err => rw [Disk.hasDirectory, hstat] at hdir; cases hdir
      | ok x => exact Disk.flaw?_of_stat hstat
    refine (wp_of_ok (h.stands.removeTree_eq hp hflaw hhas)).mpr ?_
    exact h.of_spares ((spares_eraseBelow z d ns).trans (spares_erase z _ ns))
  exact Replica.remove_preserves hop

theorem rename_confined (hp : z.Spells p ns) (hq : z.Spells q ms) :
    Preserves (z.Confined d₀) (Replica.rename p q) := by
  rw [Replica.rename]
  refine Preserves.bind (ensureParent_confined hq) fun _ => Preserves.as (Preserves.change fun _ _ h hok => ?_) _ _
  exact h.of_spares (h.stands.diskRename_ok hp hq hok).spares

/-- Copying a file changes nothing where the file comes from. -/
theorem copy_confined (hp : z.Spells p ns) (source : Path) : Preserves (z.Confined d₀) (Disk.copy source p) := by
  refine Preserves.change fun d d' h hok => ?_
  obtain ⟨loc, bytes, mode, mode?, -, hslot, rfl⟩ := h.stands.copy_eq hp hok
  exact h.of_spares (h.stands.put_ok hp hslot _ mode).1

end Site

/-! ### Copying a tree -/

namespace Replica

/-- Copying one entry keeps what it keeps when it succeeds and when it fails. -/
theorem Replication.step_keeps {ε : Type} {I : Disk → Prop} {op : EStateM ε Disk Unit} (hop : Preserves I op)
    {r : Replication} (hr : I r.disk) (failure : String) : I (r.step op failure).disk := by
  have hrun := hop r.disk hr
  rw [Replication.step]
  cases hd : op r.disk with
  | ok u d => exact (wp_of_ok hd).mp hrun
  | error err d => exact (wp_of_error hd).mp hrun

theorem Replication.foldl_keeps {ε : Type} {I : Disk → Prop} {op : Path → EStateM ε Disk Unit} {failure : String}
    (xs : List Path) (hop : ∀ x ∈ xs, Preserves I (op x)) {r : Replication} (hr : I r.disk) :
    I (xs.foldl (fun r x => r.step (op x) failure) r).disk := by
  induction xs generalizing r with
  | nil => exact hr
  | cons x rest ih =>
    refine ih (fun y hy => hop y (List.mem_cons_of_mem _ hy)) ?_
    exact step_keeps (hop x List.mem_cons_self) hr failure

/-- What the copying of each entry of a tree keeps, the copying of the tree keeps. -/
theorem replicate_keeps {I : Disk → Prop} {m : Replica} {source : Path} {d : Disk}
    (hdir : ∀ dir ∈ (d.tree source).1.dirs, Preserves I (m.copyDir source dir))
    (hfile : ∀ file ∈ (d.tree source).1.files, Preserves I (m.copyFile source file)) (hd : I d) :
    I (m.replicate source d).disk := by
  rw [replicate]
  exact Replication.foldl_keeps _ hfile (Replication.foldl_keeps _ hdir hd)

end Replica

end LiveWorkspace
