/-
  LiveWorkspace/Proofs/Watch/Outset.lean
  ======================================
  **A workspace that has just been opened has what its tree has.**

  When a workspace is opened where nothing has a document yet and where there is no replica,
  nothing stands in the way of the copies.  So its replica gets a copy of each directory and
  of each file, and each file gets its text (`Layout.Stage.populate`).
-/
import LiveWorkspace.Proofs.Watch.Following
import LiveWorkspace.Proofs.Workspace.Start

namespace LiveWorkspace

open Watch (View)

namespace Site

variable {z : Site} {d : Disk} {p source : Path} {q : List String} {content : Text.Bytes}

/-- A file is copied into a directory that is there. -/
theorem Tidy.copy_succeeds (h : z.Tidy d) (hp : z.Spells p q) (hflaw : p.flaw? = none) (hq : q ≠ [])
    (hparent : z.node d q.dropLast = some .directory) (hfree : z.Free d q (.file content))
    (hsource : ∃ loc mode, d.stat source = .ok (loc, .file content mode) ∧ ¬ z.zone <+: loc) :
    ∃ d', (Disk.copy source p : DiskOp Unit) d = .ok () d' ∧ z.node d' q = some (.file content) := by
  have hreach : z.Reaches d q := by
    rw [← List.dropLast_concat_getLast hq]
    exact h.reaches_concat hparent (hfree.short _ (List.mem_cons_of_mem _ (List.getLast_mem hq)))
  obtain ⟨mode?, hslot⟩ := h.stands.fileSlot_of_reaches hp hflaw hreach hfree
  obtain ⟨loc, mode, hstat, houtside⟩ := hsource
  have hne : z.place q ≠ loc := fun heq => houtside (heq ▸ zone_prefix_place z q)
  refine ⟨d.insert (z.place q) (.file content mode), ?_, node_insert_self _⟩
  simp only [Disk.copy, DiskOp.change, hstat, hslot, Except.map, if_neg hne]

theorem copy_attempt (h : z.Tidy d) (hp : z.Spells p q) (hq : q ≠ []) (hparent : z.node d q.dropLast = some .directory)
    (hsource : ∃ loc mode, d.stat source = .ok (loc, .file content mode) ∧ ¬ z.zone <+: loc)
    (hsame : ∀ d', z.Laid q (.file content) d d' → ∀ loc e, d'.stat source = .ok (loc, e) →
      e.node? = some (.file content) ∧ ¬ z.zone <+: loc) :
    wp (Disk.copy source p) (fun _ => z.Attempt p q (.file content) d)
      (fun _ => z.Attempt p q (.file content) d) d := by
  have hlaid := copy_lays hp hsame d (h.laid q _)
  cases hrun : (Disk.copy source p : DiskOp Unit) d with
  | ok u d' =>
    refine (wp_of_ok hrun).mpr ⟨(wp_of_ok hrun).mp hlaid, fun hflaw hfree => ?_⟩
    obtain ⟨d'', hok, hnode⟩ := h.copy_succeeds hp hflaw hq hparent hfree hsource
    rw [hrun] at hok
    cases hok
    exact hnode
  | error err d' =>
    refine (wp_of_error hrun).mpr ⟨(wp_of_error hrun).mp hlaid, fun hflaw hfree => ?_⟩
    obtain ⟨d'', hok, -⟩ := h.copy_succeeds hp hflaw hq hparent hfree hsource
    rw [hrun] at hok
    cases hok

end Site

/-- What is left by an operation that succeeds or fails. -/
theorem Replica.wp_diskAfter {op : ReplicaOp Unit} {P : Disk → Prop} {d : Disk} :
    wp op (fun _ => P) (fun _ => P) d ↔ P (diskAfter op d) := by
  rw [diskAfter]
  cases hrun : op d with
  | ok u d' => exact wp_of_ok hrun
  | error err d' => exact wp_of_error hrun

/-- What the copying of each entry establishes, whether it succeeds or fails. -/
theorem Replica.Replication.foldl_steps {ε : Type} {op : Path → EStateM ε Disk Unit} {failure : String}
    (I : List Path → Disk → Prop) (xs : List Path) {r : Replication} (hr : I [] r.disk)
    (hstep : ∀ done x rest d, xs = done ++ x :: rest → I done d →
      wp (op x) (fun _ => I (done ++ [x])) (fun _ => I (done ++ [x])) d) :
    I xs (xs.foldl (fun r x => r.step (op x) failure) r).disk := by
  suffices h : ∀ (rest done : List Path) (r : Replication), xs = done ++ rest → I done r.disk →
      I xs (rest.foldl (fun r x => r.step (op x) failure) r).disk from h xs [] r rfl hr
  intro rest
  induction rest with
  | nil =>
    intro done r hxs hI
    rw [List.append_nil] at hxs
    exact hxs ▸ hI
  | cons x rest ih =>
    intro done r hxs hI
    refine ih (done ++ [x]) (r.step (op x) failure) (by rw [hxs, List.append_assoc]; rfl) ?_
    have hrun := hstep done x rest r.disk hxs hI
    rw [Replication.step]
    cases hd : op x r.disk with
    | ok u d => exact (wp_of_ok hd).mp hrun
    | error err d => exact (wp_of_error hd).mp hrun

namespace Layout

variable {m : Layout} {v : View} {w : List Path} {d : Desk} {q : List String} {content : Text.Bytes}

namespace Stage

/-! ### Copying the tree -/

/-- Some places of the tree have been copied into a replica in which there was nothing. -/
def Copied (m : Layout) (v : View) (w : List Path) (d : Desk) (done : List Path) (disk : Disk) : Prop :=
  ∃ v', v.Mirrors (fun q => v.tree q ≠ none ∧ m.path q ∈ done) v' ∧ v'.text = v.text
    ∧ m.Stage v' w { d with shared := { d.shared with disk := disk } }

namespace Copied

variable {done : List Path} {disk : Disk}

theorem start (h : m.Stage v w d) : Copied m v w d [] d.shared.disk :=
  ⟨v, (View.Mirrors.refl rfl rfl).congr fun q => by simp, rfl, h⟩

/-- One more place is copied. -/
theorem next {v' v'' : View} (hrooted : v.Rooted) (hproper : ∀ r, v.tree r ≠ none → ∀ n ∈ r, Path.Proper n)
    (hq : v.tree q ≠ none) (hmirrors : v.Mirrors (fun q => v.tree q ≠ none ∧ m.path q ∈ done) v')
    (htext : v'.text = v.text) (hmirrors' : v'.Mirrors (· = q) v'') (htext' : v''.text = v'.text)
    (h : m.Stage v'' w { d with shared := { d.shared with disk := disk } }) :
    Copied m v w d (done ++ [m.path q]) disk := by
  refine ⟨v'', (hmirrors.trans hmirrors' hrooted).congr fun r => ?_, htext'.trans htext, h⟩
  rw [List.mem_append, List.mem_singleton, and_or_left]
  refine or_congr_right ⟨?_, fun hr => path_inj (hproper r hr.1) (hproper q hq) hr.2⟩
  rintro rfl
  exact ⟨hq, rfl⟩

/-- A directory is copied without what it holds. -/
theorem directory (hfits : m.AllFit v) (hrooted : v.Rooted) (hdir : v.tree q = some .directory)
    (h : Copied m v w d done disk) :
    wp ((Replica.mk m.site.dir).copyDir m.root (m.path q)) (fun _ => Copied m v w d (done ++ [m.path q]))
      (fun _ => Copied m v w d (done ++ [m.path q])) disk := by
  obtain ⟨v', hmirrors, htext, hstage⟩ := h
  have hdir' : v'.tree q = some .directory := by rw [hmirrors.tree, hdir]
  have hq := hstage.proper (q := q) (by simp [hdir'])
  obtain ⟨e, hstat, he⟩ :=
    hstage.tidy.exists_stat (spells_path hq) (hfits q (by simp [hdir])).1 (hstage.tree_eq ▸ hdir') true
  have hattempt := Site.adopt_attempt hstage.order.holds.replica (spells_copy hq) e.mode
    (by rw [Disk.modeOf, hstat]; rfl)
  obtain ⟨v'', hmirrors', htext', hstage'⟩ :=
    hstage.mirrors hdir' (k := .directory) trivial (hfits q (by simp [hdir])) hattempt
  refine Replica.wp_diskAfter.mpr ?_
  exact next hrooted (fun r hr => hstage.proper (hmirrors.tree ▸ hr))
    (by simp [hdir]) hmirrors htext hmirrors' htext' hstage'

/-- A file is copied into the copy of its directory. -/
theorem file (hfits : m.AllFit v) (hrooted : v.Rooted) (hnone : ∀ r, v.copy r = none)
    (hroot : v.tree [] = some .directory)
    (hfile : v.tree q = some (.file content)) (hdone : m.path q.dropLast ∈ done) (h : Copied m v w d done disk) :
    wp ((Replica.mk m.site.dir).copyFile m.root (m.path q)) (fun _ => Copied m v w d (done ++ [m.path q]))
      (fun _ => Copied m v w d (done ++ [m.path q])) disk := by
  obtain ⟨v', hmirrors, htext, hstage⟩ := h
  have hfile' : v'.tree q = some (.file content) := by rw [hmirrors.tree, hfile]
  have hproper := hstage.proper (q := q) (by simp [hfile'])
  have hspells := spells_path (m := m) hproper
  have hflaw := hfits q (by simp [hfile])
  have hne : q ≠ [] := by
    rintro rfl
    rw [hroot] at hfile
    cases hfile
  have hparent := hrooted.parent (q := q) (by simp [hfile]) hne
  obtain ⟨k, hk, hcopied⟩ := hmirrors.copied q.dropLast .directory ⟨by simp [hparent], hdone⟩ hparent fun r k _ hk => by
    simp [hnone] at hk
  rw [hstage.copy_eq, Node.isDirectory_eq_true_iff.mp hcopied.isDirectory.symm] at hk
  -- In the workspace the file is seen as it is, whatever happens in the replica.
  have hseen : ∀ {d' : Disk}, m.Holds d' → m.original.node d' q = some (.file content) → ∀ loc e,
      d'.stat (m.path q) = .ok (loc, e) → e.node? = some (.file content) ∧ ¬ m.site.zone <+: loc := by
    intro d' hholds hnode loc e hstat
    obtain ⟨-, rfl, hget⟩ := (hholds.original.stands.stat_eq_ok_iff hspells hflaw.1).mp hstat
    rw [Site.node, hget] at hnode
    exact ⟨hnode, fun hzone => m.apart.not_prefix (Site.zone_prefix_place _ q) hzone⟩
  obtain ⟨e, hstat, he⟩ := hstage.tidy.exists_stat hspells hflaw.1 (hstage.tree_eq ▸ hfile') true
  obtain ⟨-, houtside⟩ := hseen hstage.order.holds (hstage.tree_eq ▸ hfile') _ _ hstat
  have hsource : ∃ loc mode, disk.stat (m.path q) = .ok (loc, .file content mode) ∧ ¬ m.site.zone <+: loc := by
    cases e with
    | file bytes mode =>
      cases he
      exact ⟨_, mode, hstat, houtside⟩
    | directory mode => cases he
    | link target => cases he
  have hattempt :=
    Site.copy_attempt hstage.order.holds.replica (spells_copy hproper) hne hk hsource fun d' hlaid loc e hfound => by
    obtain ⟨hholds, hnode⟩ := hstage.order.holds.of_replica hlaid.lays.outside hlaid.tidy
    exact hseen hholds (by rw [hnode, ← hstage.tree_eq, hfile']) loc e hfound
  have hnext : ∀ disk', m.site.Attempt (m.copy q) q (.file content) disk disk' →
    Copied m v w d (done ++ [m.path q]) disk' := by
    intro disk' hattempt
    obtain ⟨v'', hmirrors', htext', hstage'⟩ := hstage.mirrors hfile' (k := .file content) (.inl rfl) hflaw hattempt
    exact next hrooted (fun r hr => hstage.proper (hmirrors.tree ▸ hr))
      (by simp [hfile]) hmirrors htext hmirrors' htext' hstage'
  exact wp_imp hattempt (fun _ => hnext) fun _ => hnext

end Copied

/-- **In a replica in which there was nothing all of the tree gets its copy.** -/
theorem replicate (h : m.Stage v w d) (hfits : m.AllFit v) (hroot : v.tree [] = some .directory)
    (hnone : ∀ r, v.copy r = none) :
    wp Desk.replicate (fun _ d' => ∃ v', v.Mirrors (fun q => v.tree q ≠ none) v' ∧ v'.text = v.text ∧ m.Stage v' w d')
      (fun _ _ => True) d := by
  have hlists := h.lists hfits hroot
  have hreplica : d.workspace.replica = ⟨m.site.dir⟩ := by rw [← h.order.replica]
  rw [Desk.replicate, wp_bind, wp_get, wp_bind, wp_set, h.order.registered.rooted, hreplica]
  have hcopied : Copied m v w d ((d.shared.disk.tree m.root).1.dirs ++ (d.shared.disk.tree m.root).1.files)
      ((Replica.mk m.site.dir).replicate m.root d.shared.disk).disk := by
    rw [Replica.replicate]
    refine Replica.Replication.foldl_steps
      (fun done => Copied m v w d ((d.shared.disk.tree m.root).1.dirs ++ done)) _ ?_
      fun done p rest disk hfiles hcopied => ?_
    · rw [List.append_nil]
      refine Replica.Replication.foldl_steps (Copied m v w d) _ (.start h) fun done p rest disk hdirs hcopied => ?_
      obtain ⟨q, -, hdir, rfl⟩ := (hlists.dirs p).mp (by
        show p ∈ (d.shared.disk.tree m.root).1.dirs
        rw [hdirs]
        simp)
      exact hcopied.directory hfits h.rooted hdir
    · obtain ⟨q, content, -, hfile, rfl⟩ := (hlists.files p).mp (by
        show p ∈ (d.shared.disk.tree m.root).1.files
        rw [hfiles]
        simp)
      rw [← List.append_assoc]
      refine hcopied.file hfits h.rooted hnone hroot hfile (List.mem_append_left _ ?_)
      refine (hlists.dirs _).mpr ⟨q.dropLast, List.nil_prefix, ?_, rfl⟩
      have hne : q ≠ [] := by
        rintro rfl
        rw [hroot] at hfile
        cases hfile
      exact h.rooted.parent (by simp [hfile]) hne
  obtain ⟨v', hmirrors, htext, hstage⟩ := hcopied
  have hmirrors : v.Mirrors (fun q => v.tree q ≠ none) v' := hmirrors.congr fun q => by
    rw [List.mem_append]
    exact and_iff_left_of_imp fun hq => (h.listed_iff hlists hq).mpr List.nil_prefix
  have hend : ∀ d', m.Stage v' w d' → ∃ v', v.Mirrors (fun q => v.tree q ≠ none) v' ∧ v'.text = v.text
    ∧ m.Stage v' w d' :=
    fun d' h' => ⟨v', hmirrors, htext, h'⟩
  refine (wp_ite _ _).mpr ⟨fun _ => ?_, fun _ => (wp_pure _).mpr (hend _ (hstage.reported _))⟩
  exact wp_imp ((stage_calm m v' w).report_keeps _ _ (hstage.reported _)) (fun _ d' => hend d') fun _ _ _ => trivial

/-! ### Reading the files -/

/-- Some files have been read where nothing had a text before. -/
structure Read (v : View) (m : Layout) (done : List Path) (v' : View) : Prop where
  tree : v'.tree = v.tree
  copy : v'.copy = v.copy
  read : ∀ q content, v.tree q = some (.file content) → m.path q ∈ done →
    v'.text q = some (Text.Utf8.decodeLossy content)
  right : ∀ q x, v'.text q = some x → ∃ content, v.tree q = some (.file content) ∧ x = Text.Utf8.decodeLossy content

/-- A file that was found gets its text. -/
theorem Read.withText {done : List Path} {v' : View} (h : Read v m done v') (hfile : v.tree q = some (.file content))
    (hproper : ∀ r, v.tree r ≠ none → ∀ n ∈ r, Path.Proper n) :
    Read v m (done ++ [m.path q]) (v'.withText q (Text.Utf8.decodeLossy content)) where
  tree := h.tree
  copy := h.copy
  read r c hr hin := by
    by_cases heq : r = q
    · subst heq
      rw [hfile] at hr
      cases hr
      exact if_pos rfl
    · refine (if_neg heq).trans (h.read r c hr ?_)
      rcases List.mem_append.mp hin with hin | hin
      · exact hin
      · exact absurd (path_inj (hproper r (by simp [hr])) (hproper q (by simp [hfile])) (List.mem_singleton.mp hin)) heq
  right r x hx := by
    by_cases heq : r = q
    · subst heq
      exact ⟨content, hfile, (Option.some.inj ((if_pos rfl).symm.trans hx)).symm⟩
    · exact h.right r x ((if_neg heq).symm.trans hx)

variable (checks : Checkers)

theorem adoptFound {done : List Path} {v' : View} (h : m.Stage v' w d) (hread : Read v m done v') (hfits : m.AllFit v)
    (hfile : v.tree q = some (.file content)) :
    wp (Desk.adoptFound checks (m.path q)) (fun _ d' => ∃ v'', Read v m (done ++ [m.path q]) v'' ∧ m.Stage v'' w d')
      (fun _ _ => True) d := by
  have hfile' : v'.tree q = some (.file content) := by rw [hread.tree, hfile]
  have hproper : ∀ r, v.tree r ≠ none → ∀ n ∈ r, Path.Proper n := fun r hr => h.proper (hread.tree ▸ hr)
  rw [Desk.adoptFound, wp_bind, wp_get, wp_bind, wp_onShared, Shared.wp_openPath]
  constructor
  · -- A file that has been read already has its text.
    intro hin
    obtain ⟨doc, hdoc⟩ := Option.isSome_iff_exists.mp hin
    have htext : v'.text q = some doc.content := by
      rw [h.text_eq (hproper q (by simp [hfile])), Desk.text?, hdoc]
      rfl
    obtain ⟨c, hc, heq⟩ := hread.right q _ htext
    rw [hfile] at hc
    cases hc
    have hnext := hread.withText hfile hproper
    rw [View.withText_eq (heq ▸ htext)] at hnext
    exact (wp_pure _).mpr ⟨v', hnext, h⟩
  · intro hout
    rw [if_pos rfl, wp_bind, Desk.track, wp_modify, wp_bind]
    refine wp_imp ((stage_calm m _ w).check_keeps checks _ _ (h.entered hfile' (hfits q (by simp [hfile])) hout))
      (fun _ d' h' => ?_) fun _ _ _ => trivial
    exact (wp_pure _).mpr ⟨_, hread.withText hfile hproper, h'⟩

/-- **A new workspace has a copy of all that its tree has, and the text of each file.** -/
theorem populate (h : m.Stage v w d) (hfits : m.AllFit v) (hroot : v.tree [] = some .directory)
    (hcopy : ∀ r, v.copy r = none)
    (htext : ∀ r, v.text r = none) :
    wp (Desk.populate checks)
      (fun _ d' => ∃ v', v.TakesUp (fun q => v.tree q ≠ none) v' ∧ m.Stage v' w d') (fun _ _ => True) d := by
  rw [Desk.populate, wp_bind]
  refine wp_imp (h.replicate hfits hroot hcopy) ?_ fun _ _ _ => trivial
  rintro _ d₁ ⟨v₁, hmirrors, htext₁, h₁⟩
  have hfits₁ : m.AllFit v₁ := fun q hq => hfits q (hmirrors.tree ▸ hq)
  rw [wp_bind, wp_get, h₁.order.registered.rooted, wp_bind]
  refine wp_imp (h₁.tree (a := []) hfits₁ (by rw [hmirrors.tree, hroot])) ?_ fun _ _ _ => trivial
  rintro tree d₂ ⟨hlists, h₂⟩
  rw [wp_bind]
  have hread : wp (tree.files.forM (Desk.adoptFound checks))
      (fun _ d' => ∃ v', Read v₁ m tree.files v' ∧ m.Stage v' w d') (fun _ _ => True) d₂ := by
    refine wp_forM
      (fun done d' => ∃ v', Read v₁ m done v' ∧ m.Stage v' w d') ⟨v₁, ⟨rfl, rfl, ?_, fun q x hx => ?_⟩, h₂⟩ ?_
    · exact fun q content _ hq => absurd hq List.not_mem_nil
    · rw [htext₁, htext] at hx
      cases hx
    · rintro done p rest d' hfiles ⟨v', hread, h'⟩
      obtain ⟨q, content, -, hfile, rfl⟩ := (hlists.files p).mp (by rw [hfiles]; simp)
      exact h'.adoptFound checks hread hfits₁ hfile
  refine wp_imp hread ?_ fun _ _ _ => trivial
  rintro _ d₃ ⟨v₃, hread, h₃⟩
  have htakes : v.TakesUp (fun q => v.tree q ≠ none) v₃ := by
    refine ⟨⟨hread.tree.trans hmirrors.tree, hmirrors.present, ?_, ?_⟩, fun p c hp hc => ?_, fun q hq => ?_⟩
    · rw [hread.copy]
      exact hmirrors.frame
    · rw [hread.copy]
      exact hmirrors.copied
    · rw [← hmirrors.tree] at hc
      exact hread.read p c hc ((hlists.files _).mpr ⟨p, c, List.nil_prefix, hc, rfl⟩)
    · rw [htext]
      refine Option.eq_none_iff_forall_ne_some.mpr fun x hx => ?_
      obtain ⟨c, hc, -⟩ := hread.right q x hx
      rw [hmirrors.tree] at hc
      exact hq c (by simp [hc]) hc
  rw [wp_bind]
  refine wp_imp ((stage_calm m v₃ w).loadConfig_keeps d₃ h₃) (fun _ d₄ h₄ => ?_) fun _ _ _ => trivial
  refine wp_imp ((stage_calm m v₃ w).compile_keeps checks (stage_records m v₃ w) d₄ h₄) (fun _ d₅ h₅ => ?_)
    fun _ _ _ => trivial
  exact ⟨v₃, htakes, h₅⟩

end Stage

end Layout

end LiveWorkspace
