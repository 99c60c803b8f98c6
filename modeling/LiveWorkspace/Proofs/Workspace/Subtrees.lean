/-
  LiveWorkspace/Proofs/Workspace/Subtrees.lean
  ============================================
  **What taking up a directory and letting one go do to the agreement.**

  A directory is taken up file by file, and each file closes the gap that it opened.
  Letting go of a subtree opens no gap: what is dropped need not agree any more, and what
  is left below is open (`untrackAndClear_does`).  Writing the open documents of a subtree
  again closes the gaps there (`resyncOpen_does`).
-/
import LiveWorkspace.Proofs.Workspace.LettingGo
import LiveWorkspace.Proofs.Workspace.Pieces

namespace LiveWorkspace.Desk

variable {m : Premises} {t : Tally} {g : Gaps} {p : Path} {S : Path → Prop} {K : Disk → Prop}

/-! ### Taking up a directory -/

/-- A directory that is made in the replica harms nothing there. -/
theorem adoptDir_does {dir : Path} (hdir : m.root.Encloses dir)
    (hK : ∀ d d', m.site.Stands d → m.site.Spares Site.Everywhere Site.Everywhere d d' → K d → K d') :
    Does t (adoptDir dir) (fun d => Holds m g S d ∧ K d.shared.disk)
      fun _ d => (Holds m g S d ∧ K d.shared.disk) ∧ m.site.HasDirectory d.shared.disk (m.names dir) := by
  rw [adoptDir]
  refine Does.get_bind fun d₀ => Does.bind (Does.onReplica
    (Q := fun d => (Holds m g S d ∧ K d.shared.disk) ∧ m.site.HasDirectory d.shared.disk (m.names dir))
    (by decide) ?_) fun _ => ?_
  · rintro d u disk - ⟨⟨⟨h, hamong⟩, hk⟩, rfl⟩ hmake
    obtain ⟨mode, disk', hmode, hmake⟩ := bind_eq_ok.mp hmake
    rw [Site.modeOf_ok hmode, h.replicaPath_eq dir] at hmake
    obtain ⟨hspares, hhas⟩ := h.stands.createDir_ok (Premises.spells_copyOf hdir) hmake
    have hspared := h.spared hspares (fun _ _ _ => ⟨fun _ _ _ => trivial, trivial⟩) fun _ _ => trivial
    exact ⟨⟨⟨hspared, hamong⟩, hK _ _ h.stands hspares hk⟩, hhas⟩
  · refine Does.of_steady (Preserves.modify fun d hd => hd) ?_
    rintro d ht ⟨-, ⟨⟨h, hamong⟩, hk⟩, hhas⟩
    rw [wp_modify]
    exact .inr ⟨⟨ht.failures, ht.issued, ht.opened⟩, ⟨⟨{ h with owned := h.owned }, hamong⟩, hk⟩, hhas⟩

variable (checks : Checkers)

theorem adoptFile_does (hp : m.root.Encloses p) (hS : S p) (hgone : ¬ g.gone (m.names p)) :
    Does t (adoptFile checks p) (Holds m g S) fun _ => Holds m g S := by
  rw [adoptFile]
  refine Does.bind (trackFile_does hp hS) fun _ => ?_
  refine Does.step (syncReplica_does hp hgone) (fun _ _ hd => ⟨hd.1, hd.2.1, .inl hd.2.2⟩) fun _ => ?_
  exact Does.bind (check_does checks p) fun _ => Does.pure fun _ _ hd => hd

/-- The tree that is looked at is that of the disk. -/
theorem tree_does {P : Desk → Prop} (hP : Calm P) {G : Tree → Prop} {dir : Path} :
    Does t (liftM (Shared.tree dir) : Act Desk Tree) (fun d => P d ∧ G (d.shared.disk.tree dir).1)
      fun tree d => P d ∧ G tree := by
  refine Does.of_steady ((kept_spoilt t).grows.calm.tree_keeps dir) ?_
  rintro d ht ⟨hd, htree⟩
  rw [wp_onShared, Shared.tree, wp_bind, wp_get, wp_bind]
  refine wp_imp (Preserves.forM _ (fun r _ => (hP.unless.shared d.workspace).report_keeps r) d.shared
    (.inr ⟨ht, hd⟩)) (fun _ s hs => (wp_pure _).mpr ?_) fun _ s hs => hs.broken
  exact hs.imp fun _ hs => ⟨hs, htree⟩

/-- What is done with a tree. -/
theorem adoptTree_spoils (tree : Tree) :
    Spoils t (do
      tree.dirs.forM adoptDir
      tree.files.forM (adoptFile checks)
      if !tree.files.isEmpty then compile checks) := by
  have hkept := (kept_spoilt t).grows
  refine Preserves.bind (Preserves.forM _ fun d _ => hkept.adoptDir_keeps trivial) fun _ => ?_
  refine Preserves.bind (Preserves.forM _ fun p _ => hkept.adoptFile_keeps checks trivial) fun _ => ?_
  refine Preserves.ite (fun _ => ?_) fun _ => Preserves.pure _
  exact hkept.calm.compile_keeps checks (records_spoilt t)

/-- A directory that is taken up with all below it leaves no gap. -/
theorem trackDir_does {dir : Path} (hdir : m.root.Encloses dir)
    (hbelow : ∀ q, m.root.Encloses q → q.startsWith dir = true → S q ∧ ¬ g.gone (m.names q))
    (hg : g.Regular) (hgood : ∀ c, g.Fresh m c → t.good c) :
    Does t (trackDir checks dir) (Holds m g S) fun _ => Holds m g S := by
  rw [trackDir]
  refine Does.step (tree_does (P := Holds m g S) (holds_calm m g S)
    (G := fun tree => ∀ q, q ∈ tree.dirs ∨ q ∈ tree.files → m.root.Encloses q ∧ q.startsWith dir = true))
    (fun d _ hd => ⟨hd, fun q hq => Disk.encloses_of_mem_tree hd.1.proper hdir hq⟩) fun tree => ?_
  refine Does.of_pure (adoptTree_spoils checks tree) fun hin => ?_
  refine Does.bind (Does.forM_const fun q hq => ?_) fun _ => Does.bind (Does.forM_const fun q hq => ?_) fun _ => ?_
  · refine ((adoptDir_does (g := g) (S := S) (K := fun _ => True) (hin q (.inl hq)).1 fun _ _ _ _ _ => trivial).pre ?_).post ?_
    · exact fun _ _ hd => ⟨hd, trivial⟩
    · exact fun _ _ _ hd => hd.1.1
  · obtain ⟨hroot, hstarts⟩ := hin q (.inr hq)
    obtain ⟨hS, hgone⟩ := hbelow q hroot hstarts
    exact adoptFile_does checks hroot hS hgone
  · exact Does.ite (fun _ => compile_does checks hg hgood) fun _ => Does.pure fun _ _ hd => hd

/-- A directory cannot be taken up where its copy would take the place of a file. -/
theorem trackDir_fails {dir : Path} (hdir : m.root.Encloses dir) {Q : Unit → Desk → Prop} :
    Does t (trackDir checks dir)
      (fun d => (Holds m g S d ∧ d.shared.disk.hasDirectory dir = true)
        ∧ ∃ bytes, m.site.HasFile d.shared.disk (m.names dir) bytes) Q := by
  have hkept := (kept_spoilt t).grows
  rw [trackDir]
  refine Does.step (tree_does
    (P := fun d => Holds m g S d ∧ ∃ bytes, m.site.HasFile d.shared.disk (m.names dir) bytes)
    ((holds_calm m g S).and ?_) (G := fun tree => dir ∈ tree.dirs
      ∧ ∀ q, q ∈ tree.dirs ∨ q ∈ tree.files → m.root.Encloses q ∧ q.startsWith dir = true)) ?_ fun tree => ?_
  · exact ⟨fun _ => ⟨fun _ _ hd => hd, fun _ _ hd => hd, fun _ _ _ _ hd _ => hd⟩, fun _ _ _ hd => hd⟩
  · rintro d - ⟨⟨hd, hhas⟩, hfile⟩
    exact ⟨⟨hd, hfile⟩, Disk.mem_dirs_of_hasDirectory hhas,
      fun q hq => Disk.encloses_of_mem_tree hd.1.proper hdir hq⟩
  refine Does.of_pure (adoptTree_spoils checks tree) ?_
  rintro ⟨hself, hin⟩
  -- Once the directory itself had its turn, there would be a directory where the file is.
  refine Does.step (O := fun d => (Holds m g S d ∧ ∃ bytes, m.site.HasFile d.shared.disk (m.names dir) bytes)
      ∧ (dir ∈ ([] : List Path) → m.site.HasDirectory d.shared.disk (m.names dir)))
    (Does.forM (fun done d => (Holds m g S d ∧ ∃ bytes, m.site.HasFile d.shared.disk (m.names dir) bytes)
      ∧ (dir ∈ done → m.site.HasDirectory d.shared.disk (m.names dir))) tree.dirs ?_) ?_ fun _ => ?_
  · intro done q rest hdirs
    have hq : q ∈ tree.dirs := by
      rw [hdirs]
      simp
    refine ((adoptDir_does (g := g) (S := S) (hin q (.inl hq)).1 (K := fun disk =>
        (∃ bytes, m.site.HasFile disk (m.names dir) bytes)
          ∧ (dir ∈ done → m.site.HasDirectory disk (m.names dir))) ?_).pre ?_).post ?_
    · rintro d d' hd hspares ⟨⟨bytes, hfile⟩, hdone⟩
      refine ⟨⟨bytes, hspares.hasFile hd hfile (fun _ _ _ => trivial) trivial⟩, fun hmem => ?_⟩
      obtain ⟨hreach, hhas⟩ := hdone hmem
      exact ⟨hspares.reaches hd hreach fun _ _ _ => trivial, hspares.directory _ trivial hhas⟩
    · rintro d - ⟨⟨hd, hfile⟩, hdone⟩
      exact ⟨hd, hfile, hdone⟩
    · rintro _ d - ⟨⟨hd, hfile, hdone⟩, hhas⟩
      refine ⟨⟨hd, hfile⟩, fun hmem => ?_⟩
      rcases List.mem_append.mp hmem with hmem | hmem
      · exact hdone hmem
      · rwa [List.mem_singleton.mp hmem]
  · exact fun d _ hd => ⟨hd, fun hmem => absurd hmem List.not_mem_nil⟩
  · refine Does.of_false ?_ ?_
    · refine Preserves.bind (Preserves.forM _ fun p _ => hkept.adoptFile_keeps checks trivial) fun _ => ?_
      refine Preserves.ite (fun _ => ?_) fun _ => Preserves.pure _
      exact hkept.calm.compile_keeps checks (records_spoilt t)
    · rintro d - ⟨⟨-, bytes, hfile⟩, hdone⟩
      exact hfile.not_hasDirectory (hdone hself)

/-! ### Letting go -/

/-- What is left of a subtree that was let go is open. -/
def Remains (t : Tally) (p : Path) (S : Path → Prop) (q : Path) : Prop :=
  S q ∧ (q.startsWith p = true → t.isOpen q = true)

namespace Agrees

variable {d : Desk} {ps : List Path}

theorem releasedAll (h : Agrees m g d) (ps : List Path) :
    Agrees m (g.dropping ps) { d with workspace := ps.foldl Workspace.release d.workspace } := by
  induction ps generalizing g d with
  | nil => exact h.mono (fun _ _ hs => hs) (fun _ => .inl) fun _ hn => hn
  | cons p rest ih =>
    refine (ih (h.released p)).mono (fun _ _ hs => hs) ?_ fun _ hn => hn
    rintro q ((hu | hsame) | ⟨r, hr, hsame⟩)
    · exact .inl hu
    · exact .inr ⟨p, List.mem_cons_self, hsame⟩
    · exact .inr ⟨r, List.mem_cons_of_mem p hr, hsame⟩

theorem erasedAll (h : Agrees m (g.dropping ps) d) (hps : ∀ p ∈ ps, ∀ q ∈ d.workspace.tracked, p.same q = false) :
    Agrees m g (d.withStore (ps.foldl Store.erase d.shared.store)) := by
  induction ps generalizing d with
  | nil =>
    refine h.mono (fun _ _ hs => hs) ?_ fun _ hn => hn
    rintro q (hu | ⟨x, hx, -⟩)
    · exact hu
    · exact absurd hx List.not_mem_nil
  | cons p rest ih =>
    have herased : Agrees m (g.dropping rest) (d.withStore (d.shared.store.erase p)) := by
      refine h.erased (hps p List.mem_cons_self) ?_
      rintro q (hu | ⟨x, hx, hsame⟩)
      · exact .inl (.inl hu)
      · rcases List.mem_cons.mp hx with rfl | hx
        · exact .inr hsame
        · exact .inl (.inr ⟨x, hx, hsame⟩)
    exact ih herased fun r hr => hps r (List.mem_cons_of_mem p hr)

/-- A path may go with its document. -/
theorem forgotten (h : Agrees m g d) (p : Path) :
    Agrees m g ({ d with workspace := d.workspace.release p }.withStore (d.shared.store.erase p)) := by
  refine (h.releasedAll [p]).erasedAll fun r hr q hq => ?_
  rw [List.mem_singleton.mp hr, Path.same_comm]
  simpa using (List.mem_filter.mp hq).2

end Agrees

/-- What is tracked after a path was let go was tracked before, and is not among what went. -/
theorem mem_untracked {d : Desk} {q : Path} (h : q ∈ (d.untracked p).workspace.tracked) :
    q ∈ d.workspace.tracked ∧ (d.gone p).any (·.same q) = false := by
  have htracks : (d.untracked p).workspace.tracks q = true := List.any_eq_true.mpr ⟨q, h, Path.same_refl q⟩
  rw [show (d.untracked p).workspace = (d.gone p).foldl Workspace.release d.workspace from rfl,
    Workspace.tracks_foldl_release, Bool.and_eq_true, Bool.not_eq_true'] at htracks
  exact ⟨Workspace.mem_foldl_release h, htracks.2⟩

theorem isOpen_of_mem_untracked {d : Desk} {q : Path} (h : q ∈ (d.untracked p).workspace.tracked)
    (hstarts : q.startsWith p = true) : d.shared.store.isOpen q = true := by
  obtain ⟨hq, hstays⟩ := mem_untracked h
  cases hopen : d.shared.store.isOpen q with
  | true => rfl
  | false =>
    have hgone : (d.gone p).any (·.same q) = true :=
      List.any_eq_true.mpr ⟨q, mem_gone.mpr ⟨hq, hstarts, hopen⟩, Path.same_refl q⟩
    simp [hstays] at hgone

theorem Agrees.untracked {d : Desk} (h : Agrees m g d) (p : Path) : Agrees m g (d.untracked p) := by
  have hbelow := (h.releasedAll (d.gone p)).erasedAll fun r hr q hq =>
    Bool.eq_false_iff.mpr (List.any_eq_false.mp (mem_untracked hq).2 r hr)
  cases hopen : d.shared.store.isOpen p with
  | true => simpa [Desk.untracked, hopen, withStore] using hbelow
  | false =>
    have hdropping : Agrees m (g.dropping [p]) _ := hbelow.mono (fun _ _ hs => hs) (fun _ => .inl) fun _ hn => hn
    have hself := hdropping.erasedAll fun r hr q hq => ?_
    · simpa [Desk.untracked, hopen, withStore] using hself
    · -- What has the components of the path is at the path, and would be open.
      rw [List.mem_singleton.mp hr, Bool.eq_false_iff]
      intro hsame
      have hstarts : q.startsWith p = true := (Path.startsWith_congr hsame).symm.trans (Path.startsWith_refl p)
      have hq := isOpen_of_mem_untracked (p := p) hq hstarts
      rw [Store.isOpen, ← Store.get?_congr _ hsame, ← Store.isOpen, hopen] at hq
      cases hq

theorem Steady.untracked {d : Desk} (ht : Steady t d) (p : Path) : Steady t (d.untracked p) :=
  (ht.of_workspace _).of_store (isOpen_untracked d p)

/-- Once a subtree has been let go, what is tracked in it is open. -/
theorem untrackAndClear_does (p : Path) :
    Does t (untrackAndClear p) (fun d => Holds m g S d ∧ K d.shared.disk)
      fun _ d => Holds m g (Remains t p S) d ∧ K d.shared.disk := by
  rw [untrackAndClear]
  refine Does.bind (Does.of_steady ((kept_spoilt t).untrack_keeps p) ?_) fun dropped => Does.forM_const fun doc _ =>
    Does.of_preserves ?_
  · rintro d ht ⟨⟨h, hamong⟩, hk⟩
    refine wp_untrack (.inr ⟨ht.untracked p, ⟨h.untracked p, fun q hq => ⟨?_, fun hstarts => ?_⟩⟩, hk⟩)
    · exact hamong q (mem_untracked hq).1
    · rw [← ht.opened]
      exact isOpen_of_mem_untracked hq hstarts
  · refine Calm.clear_keeps (Calm.unless ((holds_calm m g _).and ?_)) doc
    exact ⟨fun _ => ⟨fun _ _ hd => hd, fun _ _ hd => hd, fun _ _ _ _ hd _ => hd⟩, fun _ _ _ hd => hd⟩

/-! ### Writing again what is open -/

variable {U : Path → Prop}

/-- The copies on `U` may be out of date, but for those that were written again. -/
def unwritten (g : Gaps) (U : Path → Prop) (done : List Path) : Gaps :=
  { g with stale := fun q => g.stale q ∨ U q ∧ ∀ r ∈ done, r.same q = false }

theorem unwritten_concat {done : List Path} {r q : Path} (h : (unwritten g U done).stale q) :
    (unwritten g U (done ++ [r])).stale q ∨ U q ∧ r.same q = true := by
  rcases h with hs | ⟨hq, hdone⟩
  · exact .inl (.inl hs)
  · cases hsame : r.same q with
    | true => exact .inr ⟨hq, rfl⟩
    | false =>
      refine .inl (.inr ⟨hq, fun x hx => ?_⟩)
      rcases List.mem_append.mp hx with hx | hx
      · exact hdone x hx
      · rwa [List.mem_singleton.mp hx]

/-- A path that is looked at is written again if its copy may be out of date. -/
theorem resync_does {done : List Path} {r : Path}
    (hU : ∀ q, S q → U q → q.startsWith p = true ∧ t.isOpen q = true) (hr : m.root.Encloses r)
    (hgone : ∀ ns, ¬ g.gone ns) :
    Does t (do if r.startsWith p && (← get).shared.store.isOpen r then syncReplica r)
      (Holds m (unwritten g U done) S) fun _ => Holds m (unwritten g U (done ++ [r])) S := by
  refine Does.get_bind fun d₀ => Does.ite (fun hc => ?_) fun hc => Does.pure ?_
  · rw [Bool.and_eq_true] at hc
    refine (syncReplica_does (g := unwritten g U (done ++ [r])) hr (hgone _)).pre ?_
    rintro d - ⟨⟨h, hamong⟩, rfl⟩
    have hin := Store.contains_of_isOpen hc.2
    refine ⟨⟨h.mono (fun q _ hs => ?_) (fun _ => .inl) fun _ hn => hn, hamong⟩, hin, h.held hr hin⟩
    refine (unwritten_concat hs).imp_right fun hsame => ?_
    rw [Path.same_comm]
    exact hsame.2
  · rintro d ht ⟨⟨h, hamong⟩, rfl⟩
    refine ⟨h.mono (fun q hq hs => (unwritten_concat hs).resolve_right ?_) (fun _ hu => hu) fun _ hn => hn, hamong⟩
    rintro ⟨hqU, hsame⟩
    obtain ⟨hstarts, hopen⟩ := hU q (hamong q hq) hqU
    apply hc
    rw [Path.startsWith_congr hsame, hstarts, ht.opened, ht.isOpen_congr hsame, hopen]
    rfl

/-- Copies of a subtree count again once all that is open there was written. -/
theorem resyncOpen_does (hU : ∀ q, S q → U q → q.startsWith p = true ∧ t.isOpen q = true)
    (hgone : ∀ ns, ¬ g.gone ns) :
    Does t (resyncOpen p) (Holds m { g with stale := fun q => g.stale q ∨ U q } S) fun _ => Holds m g S := by
  rw [resyncOpen]
  refine Does.get_bind fun d₀ => Does.pre (O := fun d => Holds m (unwritten g U []) (fun q => S q ∧ q ∈ d₀.workspace.files) d
    ∧ ∀ r ∈ d₀.workspace.files, m.root.Encloses r) (Does.of_pure ?_ fun hroot => ?_) ?_
  · refine Preserves.forM _ fun r _ => Preserves.get_bind fun d _ => Preserves.ite (fun _ => ?_) fun _ => Preserves.pure _
    exact (kept_spoilt t).grows.syncReplica_keeps trivial
  · refine (Does.forM (fun done => Holds m (unwritten g U done) fun q => S q ∧ q ∈ d₀.workspace.files) _
      fun done r rest hsplit => resync_does (fun q hq => hU q hq.1) (hroot r ?_) hgone).post ?_
    · simp [hsplit]
    · rintro - d - ⟨h, hamong⟩
      refine ⟨h.mono (fun q hq hs => hs.elim id fun hleft => ?_) (fun _ hu => hu) fun _ hn => hn,
        fun q hq => (hamong q hq).1⟩
      have hself := hleft.2 q (hamong q hq).2
      rw [Path.same_refl] at hself
      cases hself
  · rintro d - ⟨⟨h, hamong⟩, rfl⟩
    refine ⟨⟨h.mono (fun q _ hs => ?_) (fun _ hu => hu) fun _ hn => hn, fun q hq => ⟨hamong q hq, ?_⟩⟩, fun r hr => ?_⟩
    · exact hs.imp_right fun hq => ⟨hq, fun r hr => absurd hr List.not_mem_nil⟩
    · exact Path.mem_sort.mpr hq
    · exact h.below r (Path.mem_sort.mp hr)

end LiveWorkspace.Desk
