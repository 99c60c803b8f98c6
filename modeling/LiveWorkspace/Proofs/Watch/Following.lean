/-
  LiveWorkspace/Proofs/Watch/Following.lean
  =========================================
  **Each handler takes up what has arrived, or lets go of what has departed.**

  What a handler is told of may have changed again by the time it looks.  So what is said of
  the handlers is said by the tree as they find it: those of arrivals take up all that is found
  where something is told to have arrived (`Layout.Stage.arrives`), and that of a removal
  leaves nothing where something is told to have gone (`Layout.Stage.departs`).  Operations on
  the replica may fail on the way; then what stood in their way is still there.
-/
import LiveWorkspace.Proofs.Watch.Stages

namespace LiveWorkspace

open Watch (View)

/-- The names that a notice is about can be spelled. -/
def Watch.Notice.Proper (e : Watch.Notice) : Prop := ∀ a ∈ e.ends, ∀ n ∈ a, Path.Proper n

namespace Layout

variable {m : Layout} {v : View} {w : List Path} {d : Desk} {q a : List String} {t : Node} {content : Text.Bytes}

/-- The paths of all that the tree has are taken by the operating system, and so are those of
    its copies. -/
def AllFit (m : Layout) (v : View) : Prop := ∀ q, v.tree q ≠ none → m.Fits q

/-- The event of a notice. -/
def event (m : Layout) : Watch.Notice → Watch.Event
  | .created ns => .created (m.path ns)
  | .written ns => .written (m.path ns)
  | .removed ns => .removed (m.path ns)
  | .renamed source target => .renamed (m.path source) (m.path target)

namespace Stage

/-! ### Files -/

theorem textOf (h : m.Stage v w d) (hfile : v.tree q = some (.file content)) (hfits : m.Fits q) :
    d.shared.disk.textOf (m.path q) = Text.Utf8.decodeLossy content := by
  have hread := (h.tidy.read_eq_ok_iff (spells_path (h.proper (by simp [hfile]))) hfits.1).mpr (h.tree_eq ▸ hfile)
  rw [Disk.textOf, hread]

/-- A file that has no document is entered with its text, and tracked. -/
theorem entered (h : m.Stage v w d) (hfile : v.tree q = some (.file content)) (hfits : m.Fits q)
    (hout : d.shared.store.contains (m.path q) = false) :
    m.Stage (v.withText q (Text.Utf8.decodeLossy content)) w
      ⟨{ d.shared.afterRead (m.path q) with
          store := d.shared.store.insert
            (d.shared.entered (m.path q) d.workspace.root false none (d.workspace.replicaPath (m.path q))) },
        d.workspace.track (m.path q)⟩ := by
  have hread := (stage_calm m v w).afterRead_keeps h (m.path q)
  have hentered := hread.enter (d.shared.entered (m.path q) d.workspace.root false none
    (d.workspace.replicaPath (m.path q))) (h.proper (by simp [hfile])) rfl (by rwa [Shared.afterRead_store]) rfl
  rw [← h.textOf hfile hfits]
  rwa [Desk.withStore, Shared.afterRead_store] at hentered

/-- A file that is taken up has its text. -/
theorem trackFile (h : m.Stage v w d) (hfile : v.tree q = some (.file content)) (hfits : m.Fits q) :
    wp (Desk.trackFile (m.path q)) (fun _ => m.Stage (v.withText q (Text.Utf8.decodeLossy content)) w)
      (fun _ _ => True) d := by
  have hq := h.proper (q := q) (by simp [hfile])
  have hread := (stage_calm m v w).afterRead_keeps h (m.path q)
  rw [Desk.trackFile, wp_bind, wp_get, wp_bind, wp_onShared, Shared.wp_openPath]
  constructor
  · intro hin
    simp only [wp_bind, wp_get, h.order.closed, Bool.not_false, Bool.and_self, if_true]
    rw [wp_onShared, Shared.reload, wp_bind, Shared.wp_readText, h.textOf hfile hfits, Shared.wp_revise]
    refine ⟨fun store hstore => ?_, fun hout => ?_⟩
    · rw [Desk.track, wp_modify]
      refine (hread.revise hq hstore (.inl rfl)).track hq ?_
      exact Store.contains_revise? hstore _ ▸ (Shared.afterRead_store d.shared _ ▸ hin)
    · rw [Shared.afterRead_store, hin] at hout
      cases hout
  · intro hout
    simp only [wp_bind, wp_get, Bool.not_true, Bool.false_and, Bool.false_eq_true, if_false]
    rw [Desk.track, wp_modify]
    exact h.entered hfile hfits hout

/-- The copy of a file is written with the text of its document. -/
theorem syncReplica (h : m.Stage v w d) (hfile : v.tree q = some (.file content)) (hfits : m.Fits q)
    (htext : v.text q = some (Text.Utf8.decodeLossy content)) :
    wp (Desk.syncReplica (m.path q)) (fun _ d' => ∃ v', v.Mirrors (· = q) v' ∧ v'.text = v.text ∧ m.Stage v' w d')
      (fun _ _ => True) d := by
  have hq := h.proper (q := q) (by simp [hfile])
  rw [h.text_eq hq, Desk.text?, Option.map_eq_some_iff] at htext
  obtain ⟨doc, hdoc, hcontent⟩ := htext
  rw [Desk.syncReplica, wp_bind, wp_get]
  simp only [hdoc, hcontent, h.order.replicaPath_eq]
  obtain ⟨v', hmirrors, htexts, hstage⟩ := h.mirrors hfile (Node.copiedAs_text content) hfits
    (Site.write_attempt h.order.holds.replica (spells_copy hq) (Text.Utf8.encode (Text.Utf8.decodeLossy content)))
  rw [wp_bind]
  refine wp_imp ((stage_calm m _ w).onReplica_keeps _ hstage) (fun _ d' hd' => ?_) fun _ _ _ => trivial
  exact (wp_pure _).mpr ⟨v', hmirrors, htexts, hd'⟩

/-- A file is taken up with its document, and then with its copy. -/
theorem takeFile (h : m.Stage v w d) (hfile : v.tree q = some (.file content)) (hfits : m.Fits q) {α : Type}
    {next : Act Desk α} {Q : α → Desk → Prop}
    (hnext : ∀ v' d', v.TakesUp (· = q) v' → m.Stage v' w d' → wp next Q (fun _ _ => True) d') :
    wp (do
      Desk.trackFile (m.path q)
      Desk.syncReplica (m.path q)
      next) Q (fun _ _ => True) d := by
  rw [wp_bind]
  refine wp_imp (h.trackFile hfile hfits) (fun _ d₁ h₁ => ?_) fun _ _ _ => trivial
  rw [wp_bind]
  refine wp_imp (h₁.syncReplica hfile hfits (by simp [View.withText])) ?_ fun _ _ _ => trivial
  rintro _ d₂ ⟨v₂, hmirrors, htext, h₂⟩
  exact hnext v₂ d₂ (hmirrors.of_texted.takesUp_file hfile htext) h₂

variable (checks : Checkers)

theorem adoptFile (h : m.Stage v w d) (hfile : v.tree q = some (.file content)) (hfits : m.Fits q) :
    wp (Desk.adoptFile checks (m.path q)) (fun _ d' => ∃ v', v.TakesUp (· = q) v' ∧ m.Stage v' w d')
      (fun _ _ => True) d := by
  refine h.takeFile hfile hfits fun v₁ d₁ htakes h₁ => ?_
  rw [wp_bind]
  refine wp_imp ((stage_calm m v₁ w).check_keeps checks (m.path q) d₁ h₁) (fun _ d₂ h₂ => ?_) fun _ _ _ => trivial
  exact (wp_pure _).mpr ⟨v₁, htakes, h₂⟩

/-! ### Directories -/

/-- A directory that is taken up is copied and put under watch. -/
theorem adoptDir (h : m.Stage v w d) (hdir : v.tree q = some .directory) (hfits : m.Fits q) :
    wp (Desk.adoptDir (m.path q))
      (fun _ d' => ∃ v', v.TakesUp (· = q) v' ∧ m.Stage v' (w ++ [m.path q]) d') (fun _ _ => True) d := by
  have hq := h.proper (q := q) (by simp [hdir])
  obtain ⟨e, hstat, he⟩ := h.tidy.exists_stat (spells_path hq) hfits.1 (h.tree_eq ▸ hdir) true
  rw [Desk.adoptDir, wp_bind, wp_get]
  simp only [h.order.replicaPath_eq]
  obtain ⟨v', hmirrors, htexts, hstage⟩ := h.mirrors hdir (k := .directory) trivial hfits
    (Site.adopt_attempt h.order.holds.replica (spells_copy hq) e.mode (by rw [Disk.modeOf, hstat]; rfl))
  rw [wp_bind]
  refine wp_imp ((stage_calm m _ w).onReplica_keeps _ hstage) (fun _ d₁ h₁ => ?_) fun _ _ _ => trivial
  rw [wp_modify]
  exact ⟨v', hmirrors.takesUp_directory hdir htexts, h₁.watch _⟩

/-- A loop over places of the tree, each of which is taken up. -/
theorem forM {f : Path → Act Desk PUnit} {g : List Path → List Path} {ps : List Path} (h : m.Stage v (w ++ g []) d)
    (hps : ∀ p ∈ ps, ∃ q, v.tree q ≠ none ∧ p = m.path q)
    (hf : ∀ done q v' d', v'.tree = v.tree → v.tree q ≠ none → m.path q ∈ ps → m.Stage v' (w ++ g done) d' →
      wp (f (m.path q)) (fun _ d'' => ∃ v'', v'.TakesUp (· = q) v'' ∧ m.Stage v'' (w ++ g (done ++ [m.path q])) d'')
        (fun _ _ => True) d') :
    wp (ps.forM f) (fun _ d' => ∃ v', v.TakesUp (fun q => v.tree q ≠ none ∧ m.path q ∈ ps) v'
      ∧ m.Stage v' (w ++ g ps) d') (fun _ _ => True) d := by
  refine wp_forM (fun done d' => ∃ v', v.TakesUp (fun q => v.tree q ≠ none ∧ m.path q ∈ done) v'
    ∧ m.Stage v' (w ++ g done) d') ⟨v, (View.TakesUp.refl v).congr fun q => by simp, h⟩ ?_
  rintro done p rest d' hsplit ⟨v', htakes, h'⟩
  have hp : p ∈ ps := by
    rw [hsplit]
    simp
  obtain ⟨q, hq, rfl⟩ := hps p hp
  refine wp_imp (hf done q v' d' htakes.tree hq hp h') (fun _ d'' hd'' => ?_) fun _ _ _ => trivial
  obtain ⟨v'', htakes', h''⟩ := hd''
  refine ⟨v'', (htakes.trans htakes' h.rooted).congr fun r => ?_, h''⟩
  rw [List.mem_append, List.mem_singleton, and_or_left]
  refine or_congr_right ⟨?_, fun hr => ?_⟩
  · rintro rfl
    exact ⟨hq, rfl⟩
  · exact path_inj (h.proper hr.1) (h.proper hq) hr.2

/-- A listing of what the tree has at and below a directory. -/
structure Lists (m : Layout) (v : View) (a : List String) (tree : Tree) : Prop where
  dirs : ∀ p, p ∈ tree.dirs ↔ ∃ q, a <+: q ∧ v.tree q = some .directory ∧ p = m.path q
  files : ∀ p, p ∈ tree.files ↔ ∃ q content, a <+: q ∧ v.tree q = some (.file content) ∧ p = m.path q

theorem lists (h : m.Stage v w d) (hfits : m.AllFit v) (hdir : v.tree a = some .directory) :
    Lists m v a (d.shared.disk.tree (m.path a)).1 := by
  rw [h.tree_eq] at hdir
  have hfits : ∀ q, m.original.node d.shared.disk q ≠ none → m.Fits q := h.tree_eq ▸ hfits
  constructor
  · intro p
    rw [h.tree_eq]
    exact h.order.holds.mem_dirs_iff hfits hdir
  · intro p
    rw [h.tree_eq]
    exact h.order.holds.mem_files_iff hfits hdir

/-- All that the tree has at and below the directory is listed. -/
theorem listed_iff {tree : Tree} (h : m.Stage v w d) (hlists : Lists m v a tree) (hq : v.tree q ≠ none) :
    m.path q ∈ tree.dirs ∨ m.path q ∈ tree.files ↔ a <+: q := by
  rw [hlists.dirs, hlists.files]
  constructor
  · rintro (⟨r, har, hr, heq⟩ | ⟨r, content, har, hr, heq⟩)
    · exact path_inj (h.proper hq) (h.proper (by simp [hr])) heq ▸ har
    · exact path_inj (h.proper hq) (h.proper (by simp [hr])) heq ▸ har
  · intro haq
    obtain ⟨t, ht⟩ := Option.ne_none_iff_exists'.mp hq
    cases t with
    | directory => exact .inl ⟨q, haq, ht, rfl⟩
    | file content => exact .inr ⟨q, content, haq, ht, rfl⟩

/-- To list a directory changes nothing. -/
theorem tree (h : m.Stage v w d) (hfits : m.AllFit v) (hdir : v.tree a = some .directory) :
    wp (liftM (Shared.tree (m.path a)) : Act Desk Tree) (fun tree d' => Lists m v a tree ∧ m.Stage v w d')
      (fun _ _ => True) d := by
  have hlists := h.lists hfits hdir
  rw [wp_onShared, Shared.tree, wp_bind, wp_get, wp_bind]
  refine wp_imp (Preserves.forM _ (fun r _ => ((stage_calm m v w).shared d.workspace).report_keeps r) d.shared h)
    (fun _ s h' => ?_) fun _ _ _ => trivial
  exact (wp_pure _).mpr ⟨hlists, h'⟩

/-- **A directory is taken up with all that lies below it.** -/
theorem trackDir (h : m.Stage v w d) (hfits : m.AllFit v) (hdir : v.tree a = some .directory) :
    wp (Desk.trackDir checks (m.path a))
      (fun _ d' => ∃ v' dirs, v.TakesUp (fun q => v.tree q ≠ none ∧ a <+: q) v' ∧ m.Stage v' (w ++ dirs) d'
        ∧ ∀ p, p ∈ dirs ↔ ∃ q, a <+: q ∧ v.tree q = some .directory ∧ p = m.path q) (fun _ _ => True) d := by
  rw [Desk.trackDir, wp_bind]
  refine wp_imp (h.tree hfits hdir) ?_ fun _ _ _ => trivial
  rintro tree d₁ ⟨hlists, h₁⟩
  rw [wp_bind]
  refine wp_imp (forM (g := id) (w := w) (by simpa using h₁) (fun p hp => ?_) fun done q v' d' htree hq hp h' => ?_)
    (fun _ d₂ hd₂ => ?_) fun _ _ _ => trivial
  · obtain ⟨q, -, hq, rfl⟩ := (hlists.dirs p).mp hp
    exact ⟨q, by simp [hq], rfl⟩
  · obtain ⟨r, -, hr, heq⟩ := (hlists.dirs _).mp hp
    obtain rfl := path_inj (h.proper hq) (h.proper (by simp [hr])) heq
    refine wp_imp (h'.adoptDir (htree ▸ hr) (hfits q hq)) (fun _ d'' hd'' => ?_) fun _ _ _ => trivial
    simpa using hd''
  obtain ⟨v₂, htakes₂, h₂⟩ := hd₂
  rw [wp_bind]
  refine wp_imp (forM (g := fun _ => tree.dirs) (w := w) h₂ (fun p hp => ?_) fun done q v' d' htree hq hp h' => ?_)
    (fun _ d₃ hd₃ => ?_) fun _ _ _ => trivial
  · obtain ⟨q, content, -, hq, rfl⟩ := (hlists.files p).mp hp
    exact ⟨q, by simp [htakes₂.tree, hq], rfl⟩
  · rw [htakes₂.tree] at htree hq
    obtain ⟨r, content, -, hr, heq⟩ := (hlists.files _).mp hp
    obtain rfl := path_inj (h.proper hq) (h.proper (by simp [hr])) heq
    exact h'.adoptFile checks (htree ▸ hr) (hfits q hq)
  obtain ⟨v₃, htakes₃, h₃⟩ := hd₃
  have htakes : v.TakesUp (fun q => v.tree q ≠ none ∧ a <+: q) v₃ := by
    refine (htakes₂.trans htakes₃ h.rooted).congr fun q => ?_
    rw [htakes₂.tree, ← and_or_left]
    exact and_congr_right fun hq => h.listed_iff hlists hq
  have hend : ∃ v' dirs, v.TakesUp (fun q => v.tree q ≠ none ∧ a <+: q) v' ∧ m.Stage v' (w ++ dirs) d₃
      ∧ ∀ p, p ∈ dirs ↔ ∃ q, a <+: q ∧ v.tree q = some .directory ∧ p = m.path q :=
    ⟨v₃, tree.dirs, htakes, h₃, hlists.dirs⟩
  refine (wp_ite _ _).mpr ⟨fun _ => ?_, fun _ => (wp_pure _).mpr hend⟩
  refine wp_imp ((stage_calm m v₃ _).compile_keeps checks (stage_records m v₃ _) d₃ h₃) (fun _ d₄ h₄ => ?_)
    fun _ _ _ => trivial
  exact ⟨v₃, tree.dirs, htakes, h₄, hlists.dirs⟩

/-! ### Arrivals -/

/-- What is found where something is told to have arrived is taken up, and the directories of
    it are put under watch. -/
def Settles (m : Layout) (e : Watch.Notice) (v : View) (w : List Path) (d : Desk) : Prop :=
  ∃ v' dirs, v.TakesUp (fun q => ∃ t, v.tree q = some t ∧ e.Covers q t) v' ∧ m.Stage v' (w ++ dirs) d
    ∧ ∀ p, p ∈ dirs ↔ ∃ q, v.tree q = some .directory ∧ e.Covers q .directory ∧ p = m.path q

/-- Where nothing is found, nothing is taken up. -/
theorem settles_nothing {e : Watch.Notice} (h : m.Stage v w d) (hnone : ∀ q t, v.tree q = some t → ¬ e.Covers q t) :
    Settles m e v w d := by
  refine ⟨v, [], (View.TakesUp.refl v).congr fun q => ?_, by simpa using h, fun p => ?_⟩
  · exact iff_of_false id fun hq => hq.elim fun t ht => hnone q t ht.1 ht.2
  · refine ⟨fun hp => absurd hp List.not_mem_nil, ?_⟩
    rintro ⟨q, hq, hcovers, -⟩
    exact absurd hcovers (hnone q _ hq)

/-- Steps that change nothing of a follower leave what has been taken up as it is. -/
theorem Settles.kept {e : Watch.Notice} {act : Act Desk Unit} (hact : ∀ v' w', Preserves (m.Stage v' w') act) :
    Preserves (Settles m e v w) act := by
  rintro d ⟨v', dirs, htakes, h', hdirs⟩
  exact wp_imp (hact v' _ d h')
    (fun _ _ h'' => ⟨v', dirs, htakes, h'', hdirs⟩) fun _ _ h'' => ⟨v', dirs, htakes, h'', hdirs⟩

/-- A file is all that is found at and below its place. -/
theorem settles_file {e : Watch.Notice} {v' : View} (htakes : v.TakesUp (· = q) v') (h : m.Stage v' w d)
    (hfile : v.tree q = some (.file content)) (hcovers : ∀ r t, v.tree r = some t → (e.Covers r t ↔ r = q)) :
    Settles m e v w d := by
  refine ⟨v', [], htakes.congr fun r => ?_, by simpa using h, fun p => ?_⟩
  · constructor
    · rintro rfl
      exact ⟨_, hfile, (hcovers r _ hfile).mpr rfl⟩
    · rintro ⟨t, ht, hr⟩
      exact (hcovers r t ht).mp hr
  · refine ⟨fun hp => absurd hp List.not_mem_nil, ?_⟩
    rintro ⟨r, hr, hcov, -⟩
    obtain rfl := (hcovers r _ hr).mp hcov
    rw [hfile] at hr
    cases hr

/-- Nothing lies below a file. -/
theorem prefix_iff_of_file (h : v.Rooted) (hfile : v.tree q = some (.file content)) {r : List String}
    (hr : v.tree r ≠ none) :
    q <+: r ↔ r = q := by
  refine ⟨fun hqr => ?_, fun hrq => hrq ▸ List.prefix_rfl⟩
  by_cases hne : q = r
  · exact hne.symm
  · rw [h.directory hr hqr hne] at hfile
    cases hfile

/-- A directory is taken up with all that is found at and below its place. -/
theorem settles_directory {e : Watch.Notice} (h : m.Stage v w d) (hfits : m.AllFit v)
    (hdir : v.tree a = some .directory) (hcovers : ∀ q t, e.Covers q t ↔ a <+: q) :
    wp (Desk.trackDir checks (m.path a)) (fun _ => Settles m e v w) (fun _ _ => True) d := by
  refine wp_imp (h.trackDir checks hfits hdir) (fun _ d' hd' => ?_) fun _ _ _ => trivial
  obtain ⟨v', dirs, htakes, h', hdirs⟩ := hd'
  refine ⟨v', dirs, htakes.congr fun q => ?_, h', fun p => (hdirs p).trans ?_⟩
  · simp only [hcovers, exists_and_right, ← Option.ne_none_iff_exists']
  · exact exists_congr fun q => by rw [hcovers, and_left_comm]

/-- A new file gets an empty copy first, and then its text. -/
theorem createdFile (h : m.Stage v w d) (hfile : v.tree a = some (.file content)) (hfits : m.Fits a) (mode : Nat) :
    wp (do
      Desk.trackFile (m.path a)
      let target := (← get).workspace.replicaPath (m.path a)
      let made ← Desk.onReplica (do Replica.ensureParent target; Replica.createEmptyFile target (some mode))
        "Failed to create mirror file"
      if made then
        Desk.syncReplica (m.path a)
        Desk.diagnose checks (m.path a)
      : Act Desk Unit) (fun _ d' => ∃ v', v.TakesUp (· = a) v' ∧ m.Stage v' w d') (fun _ _ => True) d := by
  have ha := h.proper (q := a) (by simp [hfile])
  rw [wp_bind]
  refine wp_imp (h.trackFile hfile hfits) (fun _ d₁ h₁ => ?_) fun _ _ _ => trivial
  have htidy := h₁.order.holds.replica
  rw [wp_bind, wp_get]
  simp only [h₁.order.replicaPath_eq]
  rw [wp_bind]
  refine Desk.wp_onReplica (fun u disk hrun => ?_) fun err disk hrun => ?_
  · rw [if_pos rfl, wp_bind]
    have hlaid : m.site.Laid a (.file []) d₁.shared.disk disk :=
      (wp_of_ok hrun).mp (Site.create_lays (spells_copy ha) _ _ (htidy.laid a _))
    have h₂ := h₁.of_replica hlaid.lays.outside hlaid.tidy
    have htext := h₂.text_eq ha
    simp only [View.withText, if_true] at htext
    rw [Desk.syncReplica, wp_bind, wp_get]
    obtain ⟨doc, hdoc, hcontent⟩ := Option.map_eq_some_iff.mp htext.symm
    simp only [hdoc, hcontent, h₂.order.replicaPath_eq]
    obtain ⟨v', hmirrors, htexts, hstage⟩ :=
      h₁.mirrors hfile (Node.copiedAs_text content) hfits (Site.write_after_create htidy (spells_copy ha) hrun)
    rw [wp_bind]
    refine wp_imp ((stage_calm m _ w).onReplica_keeps _ hstage) (fun _ d₃ h₃ => ?_) fun _ _ _ => trivial
    rw [wp_pure]
    refine wp_imp ((stage_calm m _ w).diagnose_keeps checks (stage_records m _ w) _ d₃ h₃) (fun _ d₄ h₄ => ?_)
      fun _ _ _ => trivial
    exact ⟨v', hmirrors.of_texted.takesUp_file hfile htexts, h₄⟩
  · rw [if_neg (by simp), wp_pure]
    obtain ⟨v', hmirrors, htexts, hstage⟩ :=
      h₁.mirrors hfile (Node.copiedAs_text content) hfits (Site.create_fails htidy (spells_copy ha) hrun _)
    exact ⟨v', hmirrors.of_texted.takesUp_file hfile htexts, hstage.reported _⟩

/-- A new entry is taken up with all below it, if it is still there. -/
theorem created (h : m.Stage v w d) (hfits : m.AllFit v) (ha : ∀ n ∈ a, Path.Proper n) :
    wp (Desk.created checks (m.path a)) (fun _ => Settles m (.created a) v w) (fun _ _ => True) d := by
  rw [Desk.created, wp_bind, wp_get]
  cases hstat : d.shared.disk.stat (m.path a) with
  | error err =>
    refine (wp_pure _).mpr (h.settles_nothing fun q t ht hcovers => ?_)
    obtain ⟨t', ht'⟩ :=
      Option.ne_none_iff_exists'.mp (h.rooted.tree_ne_none (show v.tree q ≠ none by simp [ht]) hcovers)
    obtain ⟨e, hfound, -⟩ := h.tidy.exists_stat (spells_path ha) (hfits a (by simp [ht'])).1 (h.tree_eq ▸ ht') true
    rw [hstat] at hfound
    cases hfound
  | ok x =>
    obtain ⟨loc, e⟩ := x
    obtain ⟨t, he, ht⟩ := h.tidy.stat_eq_ok (spells_path ha) hstat
    rw [← h.tree_eq] at ht
    dsimp only
    cases e with
    | link target => cases he
    | directory mode =>
      cases he
      exact h.settles_directory checks hfits ht fun _ _ => Iff.rfl
    | file content mode =>
      cases he
      refine wp_imp (h.createdFile checks ht (hfits a (by simp [ht])) _) (fun _ d' hd' => ?_) fun _ _ _ => trivial
      obtain ⟨v', htakes, h'⟩ := hd'
      exact settles_file htakes h' ht fun r t' ht' => prefix_iff_of_file h.rooted ht (by simp [ht'])

/-- A document has its text once its file has been written and read. -/
theorem rewritten (h : m.Stage v w d) (hfile : v.tree a = some (.file content)) (hfits : m.Fits a)
    (hin : v.text a ≠ none) :
    wp (do
      let _ ← Desk.onReplica (Replica.write ((← get).workspace.replicaPath (m.path a))
        (Text.Utf8.encode (Text.Utf8.decodeLossy content))) "Failed to write mirror file"
      match ← Shared.revise (m.path a) (.replace (Text.Utf8.decodeLossy content)) with
      | .ok _ => Desk.diagnose checks (m.path a)
      | .error _ => pure ()
      : Act Desk Unit) (fun _ d' => ∃ v', v.TakesUp (· = a) v' ∧ m.Stage v' w d') (fun _ _ => True) d := by
  have ha := h.proper (q := a) (by simp [hfile])
  rw [wp_bind, wp_get]
  simp only [h.order.replicaPath_eq]
  obtain ⟨v', hmirrors, htexts, hstage⟩ := h.mirrors hfile (Node.copiedAs_text content) hfits
    (Site.write_attempt h.order.holds.replica (spells_copy ha) (Text.Utf8.encode (Text.Utf8.decodeLossy content)))
  rw [wp_bind]
  refine wp_imp ((stage_calm m _ w).onReplica_keeps _ hstage) (fun _ d₁ h₁ => ?_) fun _ _ _ => trivial
  have hknown : d₁.shared.store.contains (m.path a) = true := by
    have htext := h₁.text_eq ha
    rw [Store.contains]
    cases hdoc : d₁.shared.store.get? (m.path a) with
    | some doc => rfl
    | none => exact absurd (by simpa [Desk.text?, hdoc, htexts] using htext) hin
  rw [wp_bind, wp_onShared, Shared.wp_revise]
  refine ⟨fun store hstore => ?_, fun hout => by rw [hknown] at hout; cases hout⟩
  refine wp_imp ((stage_calm m _ w).diagnose_keeps checks (stage_records m _ w) _ _ (h₁.revise ha hstore (.inr rfl)))
    (fun _ d₂ h₂ => ?_) fun _ _ _ => trivial
  exact ⟨_, (hmirrors.texted a _).takesUp_file hfile (View.text_withText_congr htexts a _), h₂⟩

/-- A file that was written is taken up with what it holds now. -/
theorem written (h : m.Stage v w d) (hfits : m.AllFit v) (ha : ∀ n ∈ a, Path.Proper n) :
    wp (Desk.written checks (m.path a)) (fun _ => Settles m (.written a) v w) (fun _ _ => True) d := by
  have hspells := spells_path (m := m) ha
  have hnothing : (∀ content, v.tree a ≠ some (.file content)) → Settles m (.written a) v w d := by
    refine fun hnone => h.settles_nothing fun q t ht hcovers => ?_
    obtain ⟨rfl, hkind⟩ := hcovers
    cases t with
    | directory => cases hkind
    | file content => exact hnone content ht
  rw [Desk.written, wp_bind, wp_get]
  dsimp only
  refine (wp_ite _ _).mpr ⟨fun _ => ?_, fun hdir => (wp_pure _).mpr (hnothing fun content hfile => ?_)⟩
  · cases hread : d.shared.disk.read (m.path a) with
    | error err =>
      refine (wp_pure _).mpr (hnothing fun content hfile => ?_)
      rw [(h.tidy.read_eq_ok_iff hspells (hfits a (by simp [hfile])).1).mpr (h.tree_eq ▸ hfile)] at hread
      cases hread
    | ok content =>
      have hfile := h.tree_eq ▸ h.tidy.node_of_read hspells hread
      have hfits := hfits a (by simp [hfile])
      have hsettles : ∀ d', (∃ v', v.TakesUp (· = a) v' ∧ m.Stage v' w d') → Settles m (.written a) v w d' := by
        rintro d' ⟨v', htakes, h'⟩
        refine settles_file htakes h' hfile fun r t ht => ⟨fun hcovers => hcovers.1.symm, ?_⟩
        rintro rfl
        rw [hfile] at ht
        cases ht
        exact ⟨rfl, rfl⟩
      dsimp only
      rw [wp_bind, wp_get]
      refine (wp_ite _ _).mpr ⟨fun _ => ?_, fun hin => ?_⟩
      · rw [wp_bind]
        refine wp_imp (h.trackFile hfile hfits) (fun _ d₁ h₁ => ?_) fun _ _ _ => trivial
        refine wp_imp (h₁.rewritten checks hfile hfits (by simp [View.withText])) ?_ fun _ _ _ => trivial
        rintro _ d₂ ⟨v₂, htakes, h₂⟩
        exact hsettles d₂ ⟨v₂, htakes.retexted hfile, h₂⟩
      · refine wp_imp (h.rewritten checks hfile hfits ?_) (fun _ d' => hsettles d') fun _ _ _ => trivial
        rw [h.text_eq ha, Desk.text?]
        simpa [Store.contains] using hin
  · have hflaw := (hfits a (by simp [hfile])).1
    rw [h.tree_eq, (h.tidy.hasDirectory_path_iff hspells hflaw).mp (by simpa using hdir)] at hfile
    cases hfile

/-! ### Departures -/

theorem untrackAndClear (h : m.Stage v w d) (ha : ∀ n ∈ a, Path.Proper n) :
    wp (Desk.untrackAndClear (m.path a)) (fun _ => m.Stage (v.withoutText a) w) (fun _ _ => True) d := by
  rw [Desk.untrackAndClear, wp_bind]
  apply Desk.wp_untrack
  refine wp_imp (Preserves.forM _ (fun doc _ => (stage_calm m _ w).clear_keeps doc) _ (h.untrack ha)) (fun _ _ h' => h')
    fun _ _ _ => trivial

/-- Where nothing is open, nothing is written again. -/
theorem resyncOpen_keeps (m : Layout) (v : View) (w : List Path) (p : Path) :
    Preserves (m.Stage v w) (Desk.resyncOpen p) := by
  rw [Desk.resyncOpen]
  refine Preserves.get_bind fun d _ => Preserves.forM _ fun q _ => Preserves.get_bind fun d h => ?_
  simp only [h.order.closed, Bool.and_false, Bool.false_eq_true, if_false]
  exact Preserves.pure _

/-- What is told to have gone is let go of, whatever is there now. -/
theorem removed (h : m.Stage v w d) (hfits : m.Fits a) (ha : ∀ n ∈ a, Path.Proper n) :
    wp (Desk.removed checks (m.path a)) (fun _ d' => ∃ v', v.LetsGo a v' ∧ m.Stage v' w d') (fun _ _ => True) d := by
  rw [Desk.removed, wp_bind]
  refine wp_imp (h.untrackAndClear ha) (fun _ d₁ h₁ => ?_) fun _ _ _ => trivial
  rw [wp_bind, wp_get]
  simp only [h₁.order.replicaPath_eq]
  have hcleared := Site.remove_clears h₁.order.holds.replica (spells_copy ha) hfits.2
  obtain ⟨v₂, hlets, h₂⟩ := h₁.lets hcleared
  rw [wp_bind]
  refine wp_imp ((stage_calm m _ w).onReplica_keeps _ h₂) (fun _ d₂ h₂ => ?_) fun _ _ _ => trivial
  rw [wp_bind]
  refine wp_imp (resyncOpen_keeps m v₂ w _ d₂ h₂) (fun _ d₃ h₃ => ?_) fun _ _ _ => trivial
  refine wp_imp ((stage_calm m v₂ w).compile_keeps checks (stage_records m v₂ w) d₃ h₃) (fun _ d₄ h₄ => ?_)
    fun _ _ _ => trivial
  exact ⟨v₂, hlets, h₄⟩

/-- What is told to have another place is taken up there. When the follower has nothing at the
    old place any more, there is nothing to move along. -/
theorem renamed {b : List String} (h : m.Stage v w d) (hfits : m.AllFit v) (ha : ∀ n ∈ a, Path.Proper n)
    (hb : ∀ n ∈ b, Path.Proper n) (hbare : v.Bare a) :
    wp (Desk.renamed checks (m.path a) (m.path b)) (fun _ => Settles m (.renamed a b) v w) (fun _ _ => True) d := by
  have hspells := spells_path (m := m) hb
  rw [Desk.renamed, wp_bind, wp_get]
  dsimp only
  refine (wp_ite _ _).mpr ⟨fun hhas => ?_, fun hmissing => (wp_pure _).mpr (h.settles_nothing fun q t ht hcovers => ?_)⟩
  · have hmissing : ¬ d.shared.disk.hasPath (d.workspace.replicaPath (m.path a)) = true := by
      rw [h.order.replicaPath_eq]
      intro hcopy
      refine h.order.holds.replica.node_of_hasPath (spells_copy ha) hcopy ?_
      rw [← h.copy_eq, (hbare a List.prefix_rfl).1]
    rw [if_neg hmissing, wp_bind]
    refine wp_imp (h.untrackAndClear ha) (fun _ d₁ h₁ => ?_) fun _ _ _ => trivial
    rw [View.withoutText_eq fun r hr => (hbare r hr).2] at h₁
    have hend : ∀ d', Settles m (.renamed a b) v w d' → wp (Desk.resyncOpen (m.path a))
        (fun _ => Settles m (.renamed a b) v w) (fun _ _ => True) d' := fun d' hd' =>
      wp_imp (Settles.kept (fun v' w' => resyncOpen_keeps m v' w' (m.path a)) d' hd')
        (fun _ _ hd => hd) fun _ _ _ => trivial
    have hnode := h.tidy.node_of_hasPath hspells hhas
    rw [← h.tree_eq] at hnode
    obtain ⟨t, ht⟩ := Option.ne_none_iff_exists'.mp hnode
    have hdir := h₁.tidy.hasDirectory_path_iff hspells (hfits b hnode).1
    rw [← h₁.tree_eq, ht] at hdir
    rw [wp_bind, wp_get]
    cases t with
    | directory =>
      rw [if_pos (hdir.mpr rfl), wp_bind]
      exact wp_imp (h₁.settles_directory checks hfits ht fun _ _ => Iff.rfl) (fun _ d' => hend d') fun _ _ _ => trivial
    | file content =>
      rw [if_neg fun hhas => by cases hdir.mp hhas]
      refine h₁.takeFile ht (hfits b hnode) fun v₂ d₂ htakes h₂ => ?_
      rw [wp_bind]
      refine wp_imp ((stage_calm m v₂ w).diagnose_keeps checks (stage_records m v₂ w) _ d₂ h₂) (fun _ d₃ h₃ => ?_)
        fun _ _ _ => trivial
      exact hend d₃ (settles_file htakes h₃ ht fun r t' ht' => prefix_iff_of_file h.rooted ht (by simp [ht']))
  · obtain ⟨t', ht'⟩ :=
      Option.ne_none_iff_exists'.mp (h.rooted.tree_ne_none (show v.tree q ≠ none by simp [ht]) hcovers)
    refine hmissing ((h.tidy.hasPath_iff hspells (hfits b (by simp [ht'])).1).mpr ?_)
    simp [← h.tree_eq, ht']

/-! ### Events -/

/-- Reading the configuration again changes nothing that a follower has. -/
theorem reload_keeps (m : Layout) (v : View) (w : List Path) (e : Watch.Event) :
    Preserves (m.Stage v w) (if e.path.isConfigFile || e.source.any Path.isConfigFile then Desk.reloadConfig checks
      else pure ()) :=
  Preserves.ite (fun _ => (stage_calm m v w).reloadConfig_keeps checks (stage_records m v w)) fun _ => Preserves.pure _

/-- **What is told to have arrived is taken up as it is found.** -/
theorem arrives {e : Watch.Notice} (h : m.Stage v w d) (hfits : m.AllFit v) (he : e.Proper)
    (hnone : ∀ a, e ≠ .removed a) (hbare : ∀ a b, e = .renamed a b → v.Bare a) :
    wp (Desk.onDiskEvent checks (m.event e)) (fun _ => Settles m e v w) (fun _ _ => True) d := by
  have hend : ∀ handler : Act Desk Unit, wp handler (fun _ => Settles m e v w) (fun _ _ => True) d →
      wp (do
        handler
        if (m.event e).path.isConfigFile || (m.event e).source.any Path.isConfigFile then Desk.reloadConfig checks)
      (fun _ => Settles m e v w) (fun _ _ => True) d := by
    intro handler hhandler
    rw [wp_bind]
    refine wp_imp hhandler (fun _ d' hd' => ?_) fun _ _ _ => trivial
    exact wp_imp (Settles.kept (fun v' w' => reload_keeps checks m v' w' (m.event e)) d' hd') (fun _ _ hd => hd)
      fun _ _ _ => trivial
  rw [Desk.onDiskEvent, wp_bind, wp_get]
  simp only [h.order.closed, Bool.not_false, if_true]
  cases e with
  | created a => exact hend _ (h.created checks hfits (he a (by simp [Watch.Notice.ends])))
  | written a => exact hend _ (h.written checks hfits (he a (by simp [Watch.Notice.ends])))
  | removed a => exact absurd rfl (hnone a)
  | renamed a b =>
    have ha := he a (by simp [Watch.Notice.ends])
    have hb := he b (by simp [Watch.Notice.ends])
    exact hend _ (h.renamed checks hfits ha hb (hbare a b rfl))

/-- **What is told to have gone is let go of.** -/
theorem departs (h : m.Stage v w d) (hfits : m.Fits a) (ha : ∀ n ∈ a, Path.Proper n) :
    wp (Desk.onDiskEvent checks (m.event (.removed a))) (fun _ d' => ∃ v', v.LetsGo a v' ∧ m.Stage v' w d')
      (fun _ _ => True) d := by
  rw [Desk.onDiskEvent, wp_bind, wp_get]
  simp only [h.order.closed, Bool.not_false, if_true]
  refine (wp_bind _ _).mpr (wp_imp (h.removed checks hfits ha) ?_ fun _ _ _ => trivial)
  rintro _ d' ⟨v', hlets, h'⟩
  refine wp_imp (reload_keeps checks m v' w (m.event (.removed a)) d' h') (fun _ d'' h'' => ?_) fun _ _ _ => trivial
  exact ⟨v', hlets, h''⟩

end Stage

end Layout

end LiveWorkspace
