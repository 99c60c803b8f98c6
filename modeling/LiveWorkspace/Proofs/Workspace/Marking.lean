/-
  LiveWorkspace/Proofs/Workspace/Marking.lean
  ===========================================
  **Each handler leaves markers that fit.**

  A check closes the gap of its path and makes it late, and a compilation ends all lateness:
  where it compiles, it publishes what it finds, and elsewhere the check's result stays.  So a
  handler that touches a document must check it afterwards, and compile after that.  All do,
  but for two: an opening leaves its path to the change behind it, and a closing does nothing
  when the path has been opened again.

  Checkers are taken to break down nowhere here.
-/
import LiveWorkspace.Proofs.Workspace.Markers
import LiveWorkspace.Workspace.Running

namespace LiveWorkspace

/-- The first checker has a result for every text. -/
def Checkers.Total (checks : Checkers) : Prop := ∀ p text, (checks.check p text).isSome = true

/-- An event leaves its path to another one: an opening does, and a closing that finds its
    path open again. -/
def EditorEvent.Defers (s : Store) : EditorEvent → Prop
  | .opened _ => True
  | .changed _ => False
  | .closed p => s.isOpen p = true

namespace Desk

variable {checks : Checkers} {since : Shared} {stale late : Path → Prop} {owed : List Document} {p : Path}

/-! ### Publishing -/

theorem reports_mark (rs : List Report) :
    Leads (Marked checks since stale late owed) (rs.forM fun r => (Shared.report r : Act Shared Unit) : Act Desk Unit)
      fun _ => Marked checks since stale late owed := by
  refine Leads.forM (fun _ => Marked checks since stale late owed) rs fun _ r _ _ d hd => ?_
  rw [wp_onShared, Shared.wp_report]
  exact hd.reported [r]

/-- The markers of a dropped document are taken away. -/
theorem clear_marks (doc : Document) :
    Leads (Marked checks since stale late (doc :: owed)) (liftM (Shared.clear doc) : Act Desk Unit)
      fun _ => Marked checks since stale late owed := by
  intro d hd
  rw [wp_onShared, Shared.clear, wp_ite]
  constructor
  · intro _
    cases hu : doc.uri with
    | none => exact (wp_pure _).mpr (hd.unowed fun _ => hu)
    | some u => exact (Shared.wp_publish hd.heard u []).mpr (hd.cleared hu)
  · intro hother
    exact (wp_pure _).mpr (hd.unowed fun hfaust => absurd hfaust hother)

theorem clears_mark (owed : List Document) :
    Leads (Marked checks since stale late owed)
      (owed.forM fun doc => (Shared.clear doc : Act Shared Unit) : Act Desk Unit)
      fun _ => Marked checks since stale late [] := by
  induction owed with
  | nil => exact Leads.pure fun _ hd => hd
  | cons doc rest ih => exact Leads.bind (clear_marks doc) fun _ => ih

/-! ### Checks -/

/-- A check shows what it finds, which is late then. -/
theorem check_marks (htotal : checks.Total) (p : Path) :
    Leads (Marked checks since (Touched stale p) late owed) (liftM (Shared.check checks p) : Act Desk Bool)
      fun isFaust d => Marked checks since stale (Touched late p) owed d
        ∧ (isFaust = false → Marked checks since stale late owed d) := by
  intro d h
  have hlate : ∀ q, p.same q = false → (Touched late p q ↔ late q) := fun q hsame => by simp [Touched, hsame]
  rw [wp_onShared, Shared.check, wp_bind, wp_get]
  cases hdoc : d.shared.store.get? p with
  | none =>
    have hout : d.shared.store.contains p = false := by simp [Store.contains, hdoc]
    exact (wp_pure _).mpr ⟨h.settled_of_absent hout hlate, fun _ => h.settled_of_absent hout fun _ _ => Iff.rfl⟩
  | some doc =>
    have hpath : doc.path.same p = true := Store.same_of_get?_eq_some hdoc
    refine (wp_ite _ _).mpr ⟨fun hother => (wp_pure _).mpr ?_, fun _ => ?_⟩
    · -- What is no document of the compiler's language needs no markers.
      have hnone : ∀ q, p.same q = true → (FileKind.ofPath q).isFaust ≠ true := by
        intro q hsame
        rw [← FileKind.ofPath_congr hsame, ← FileKind.ofPath_congr hpath]
        simpa [Document.kind] using hother
      exact ⟨h.settled hlate fun _ q _ hsame _ _ hfaust => absurd hfaust (hnone q hsame),
        fun _ => h.settled (fun _ _ => Iff.rfl) fun _ q _ hsame _ _ hfaust => absurd hfaust (hnone q hsame)⟩
    · obtain ⟨messages, hmessages⟩ := Option.isSome_iff_exists.mp (htotal p doc.content)
      simp only [hmessages, wp_bind, Shared.wp_revise]
      refine ⟨fun store hstore => ?_, fun hout => ?_⟩
      · have hrevised := h.revised hstore
        have hget := Store.get?_of_revise? hstore
        have hmarked : ∀ q doc', p.same q = true → store.get? q = some doc' →
            doc' = { doc with hasErrors := !messages.isEmpty } := by
          intro q doc' hsame hdoc'
          rw [hget, if_pos hsame, ← Store.get?_congr _ hsame, hdoc] at hdoc'
          exact (Option.some.inj hdoc').symm
        have htouched : ∀ q, Touched (Touched stale p) p q → Touched stale p q := fun q hq => hq.elim id .inr
        cases hu : doc.uri with
        | none =>
          simp only [wp_pure]
          refine ⟨(hrevised.mono htouched).settled hlate fun _ q doc' hsame hdoc' _ _ _ => ?_, by simp⟩
          obtain rfl := hmarked q doc' hsame hdoc'
          exact ⟨p, messages, hsame, hmessages, rfl, fun u hdu => by simp [hu] at hdu⟩
        | some u =>
          have hself : store.get? p = some { doc with hasErrors := !messages.isEmpty } := by
            rw [hget, if_pos (Path.same_refl p), hdoc]
            rfl
          simp only [wp_bind, Shared.wp_publish (s := { d.shared with store := store }) hrevised.heard, wp_pure]
          have hpublished := hrevised.published (p := p) hself hu messages
          refine ⟨(hpublished.mono fun q hq => ?_).settled hlate fun _ q doc' hsame hdoc' _ _ _ => ?_, by simp⟩
          · exact htouched q (hq.elim id .inr)
          · obtain rfl := hmarked q doc' hsame hdoc'
            refine ⟨p, messages, hsame, hmessages, rfl, fun v hv => ?_⟩
            obtain rfl : u = v := Option.some.inj (hu.symm.trans hv)
            refine ⟨fun _ => ?_, fun hnot => absurd (.inr hsame) hnot⟩
            exact (Shared.shown_append hrevised.later _ _).trans (if_pos rfl)
      · simp [Store.contains, hdoc] at hout

/-! ### Compilations -/

/-- A file that is compiled is late no more. -/
theorem compileFile_marks {s : Shared} {w : Workspace} (hp : w.compiles p = true) (replicaDir : Path)
    (config : ProjectConfig) (h : Marked checks since stale late owed ⟨s, w⟩) :
    wp (Shared.compileFile checks replicaDir config p)
      (fun _ s' => Marked checks since stale (fun q => late q ∧ p.same q = false) owed ⟨s', w⟩)
      (fun _ _ => False) s := by
  have hlate : ∀ q, p.same q = false → ((late q ∧ p.same q = false) ↔ late q) := fun q hsame => by simp [hsame]
  have htouched : Marked checks since (Touched stale p) late owed ⟨s, w⟩ := h.mono fun _ => .inl
  rw [Shared.compileFile, wp_bind, wp_get]
  cases hdoc : s.store.get? p with
  | none => exact (wp_pure _).mpr (htouched.settled_of_absent (by simp [Store.contains, hdoc]) hlate)
  | some doc =>
    have hfound : ∀ q doc', p.same q = true → s.store.get? q = some doc' → doc' = doc := by
      intro q doc' hsame hdoc'
      rw [← Store.get?_congr _ hsame, hdoc] at hdoc'
      exact (Option.some.inj hdoc').symm
    refine (wp_ite _ _).mpr ⟨fun herrors => (wp_pure _).mpr ?_, fun herrors => ?_⟩
    · -- A document with errors is not compiled, and shows these.
      refine htouched.settled hlate fun hok q doc' hsame hdoc' htracks hfaust hfresh => ?_
      obtain ⟨r, found, hr, hcheck, hmarked, hfit⟩ := h.fits hok q doc' hdoc' htracks hfaust hfresh
      obtain rfl := hfound q doc' hsame hdoc'
      have hnonempty : found.isEmpty = false := by simpa [herrors] using hmarked
      refine ⟨r, found, hr, hcheck, hmarked, fun u hu => ⟨fun hq => by simp [hsame] at hq, fun _ => ?_⟩⟩
      by_cases hq : late q
      · simpa [Shows, hnonempty] using (hfit u hu).1 hq
      · exact (hfit u hu).2 hq
    · rw [wp_bind, wp_get, wp_bind, wp_modify]
      have hcompiled := h.compiled ⟨⟨p, doc.replica, replicaDir, config⟩, (s.disk.read doc.replica).toOption,
        doc.content⟩
      cases hu : doc.uri with
      | none =>
        refine (wp_pure _).mpr (hcompiled.settled hlate fun hok q doc' hsame hdoc' htracks hfaust hfresh => ?_)
        obtain ⟨r, found, hr, hcheck, hmarked, -⟩ := h.fits hok q doc' hdoc' htracks hfaust hfresh
        obtain rfl := hfound q doc' hsame hdoc'
        exact ⟨r, found, hr, hcheck, hmarked, fun u hdu => by simp [hu] at hdu⟩
      | some u =>
        refine (Shared.wp_publish ?_ _ _).mpr ?_
        · exact h.heard
        have hpublished := hcompiled.published (p := p) hdoc hu (checks.compile ⟨p, doc.replica, replicaDir, config⟩
          (s.disk.read doc.replica).toOption)
        refine (hpublished.mono fun q hq => hq.elim id .inr).settled hlate ?_
        intro hok q doc' hsame hdoc' htracks hfaust hfresh
        obtain ⟨r, found, hr, hcheck, hmarked, -⟩ := h.fits hok q doc' hdoc' htracks hfaust hfresh
        obtain rfl := hfound q doc' hsame hdoc'
        refine ⟨r, found, hr, hcheck, hmarked, fun v hv => ⟨fun hq => by simp [hsame] at hq, fun _ => ?_⟩⟩
        obtain rfl : u = v := Option.some.inj (hu.symm.trans hv)
        have hnone : found.isEmpty = true := by simpa [herrors] using hmarked
        have hcompiles : w.compiles q = true := (w.compiles_congr hsame).symm.trans hp
        rw [Shows, if_pos (by simp [hnone, hcompiles])]
        refine ⟨_, (Shared.compilation?_append _ _ _).trans (if_pos hsame), ?_⟩
        exact (Shared.shown_append h.later _ _).trans (if_pos rfl)

/-- After a compilation nothing is late. -/
theorem compile_marks : Leads (Marked checks since stale late owed) (compile checks)
    fun _ => Marked checks since stale Never owed := by
  -- What is late and not compiled shows what it should.
  have hend : ∀ {late : Path → Prop} {d : Desk}, Marked checks since stale late owed d →
      (∀ q, late q → d.workspace.compiles q = false) → Marked checks since stale Never owed d := by
    intro late d h hnone
    refine { h with fits := fun hok q doc hdoc htracks hfaust hfresh => ?_ }
    obtain ⟨r, found, hr, hcheck, hmarked, hfit⟩ := h.fits hok q doc hdoc htracks hfaust hfresh
    refine ⟨r, found, hr, hcheck, hmarked, fun u hu => ⟨False.elim, fun _ => ?_⟩⟩
    by_cases hq : late q
    · simpa [Shows, hnone q hq] using (hfit u hu).1 hq
    · exact (hfit u hu).2 hq
  rintro ⟨s, w⟩ h
  rw [compile, wp_bind, wp_get, wp_onShared, Shared.compile, wp_ite]
  constructor
  · intro (hwanted : w.config.compilerDiagnostics = true)
    refine wp_imp (wp_forM (fun done s' => Marked checks since stale
      (fun q => late q ∧ ∀ x ∈ done, x.same q = false) owed ⟨s', w⟩) ?_ fun done x rest s' hpaths h' => ?_)
      (fun _ s' h' => hend h' fun q hq => ?_) fun _ _ hf => hf
    · simpa using h
    · have hx : w.compiles x = true := by
        simp only [Workspace.compiles, hwanted, Bool.true_and, List.any_eq_true]
        exact ⟨x, by simp [hpaths], Path.same_refl x⟩
      refine wp_imp (compileFile_marks hx _ _ h') (fun _ s'' h'' => h''.relate fun q => ?_) fun _ _ hf => hf
      simp [and_assoc, or_imp, forall_and]
    · simpa [Workspace.compiles] using fun _ => hq.2
  · intro (hunwanted : ¬ w.config.compilerDiagnostics = true)
    exact (wp_pure _).mpr (hend h fun q _ => by simp [Workspace.compiles, hunwanted])

/-- A path whose document is diagnosed is stale no more. -/
theorem diagnose_marks (htotal : checks.Total) (p : Path) :
    Leads (Marked checks since (Touched stale p) Never []) (diagnose checks p)
      fun _ => Marked checks since stale Never [] := by
  rw [diagnose]
  refine Leads.bind (check_marks htotal p) fun isFaust => ?_
  cases isFaust with
  | true => exact compile_marks.pre fun _ hd => hd.1
  | false => exact Leads.pure fun _ hd => hd.2 rfl

/-! ### Work on the replica and on the watch -/

/-- An operation on the replica leaves all markers alone, and its failure is reported. -/
theorem onReplica_marks (op : ReplicaOp Unit) {failure : String}
    (hfailure : Report.replicaFailures.contains (.error failure) = true) :
    Leads (Marked checks since stale late owed) (onReplica op failure)
      fun made d => Marked checks since stale late owed d ∧ (made = false → since.failures < d.shared.failures) := by
  intro d hd
  refine wp_onReplica (fun u disk _ => ⟨hd.withDisk disk, by simp⟩) fun err disk _ => ?_
  refine ⟨(hd.withDisk disk).reported [.error failure], fun _ => ?_⟩
  rw [Shared.failures_of_failed _ _ hfailure]
  exact Nat.lt_succ_of_le hd.failed

theorem syncReplica_marks (p : Path) :
    Leads (Marked checks since stale late owed) (syncReplica p) fun _ => Marked checks since stale late owed := by
  rw [syncReplica]
  refine Leads.get_bind fun d hd => ?_
  split
  · exact Leads.pure fun _ hd => hd.1
  · exact Leads.bind ((onReplica_marks _ (by decide)).pre fun _ hd => hd.1) fun _ => Leads.pure fun _ hd => hd.1

theorem resyncOpen_marks (p : Path) :
    Leads (Marked checks since stale late owed) (resyncOpen p) fun _ => Marked checks since stale late owed := by
  rw [resyncOpen]
  refine Leads.get_bind fun d _ => (Leads.forM (fun _ => Marked checks since stale late owed) _ fun _ q _ _ => ?_).pre
    fun _ hd => hd.1
  refine Leads.get_bind fun d' _ => Leads.ite (fun _ => ?_) fun _ => Leads.pure fun _ hd => hd.1
  exact (syncReplica_marks q).pre fun _ hd => hd.1

theorem adoptDir_marks (dir : Path) :
    Leads (Marked checks since stale late owed) (adoptDir dir) fun _ => Marked checks since stale late owed := by
  rw [adoptDir]
  refine Leads.get_bind fun d _ => Leads.bind ((onReplica_marks _ (by decide)).pre fun _ hd => hd.1) fun _ d hd => ?_
  rw [wp_modify]
  exact hd.1.of_aside rfl rfl rfl rfl (Nat.le_refl _)

theorem tree_marks (dir : Path) :
    Leads (Marked checks since stale late owed) (liftM (Shared.tree dir) : Act Desk Tree)
      fun _ => Marked checks since stale late owed := by
  intro d hd
  rw [wp_onShared, Shared.tree, wp_bind, wp_get, wp_bind]
  refine wp_imp (wp_forM (fun _ s => Marked checks since stale late owed ⟨s, d.workspace⟩) hd fun _ r _ s _ hs => ?_)
    (fun _ _ hs => (wp_pure _).mpr hs) fun _ _ hf => hf
  exact (Shared.wp_report r).mpr (hs.reported [r])

/-! ### Taking up and letting go -/

theorem Marked.afterRead {d : Desk} (h : Marked checks since stale late owed d) (p : Path) :
    Marked checks since stale late owed { d with shared := d.shared.afterRead p } := by
  unfold Shared.afterRead
  split
  · exact h
  · exact h.reported _

theorem Marked.twice {d : Desk} (h : Marked checks since (Touched (Touched stale p) p) late owed d) :
    Marked checks since (Touched stale p) late owed d := h.mono fun _ hq => hq.elim id .inr

theorem track_marks (p : Path) :
    Leads (Marked checks since (Touched stale p) late owed) (track p)
      fun _ => Marked checks since (Touched stale p) late owed := by
  intro d hd
  rw [track, wp_modify]
  exact hd.tracked

/-- A path that is read again is stale; without a document there is nothing to read. -/
theorem reload_marks (p : Path) :
    Leads (Marked checks since stale late owed) (liftM (Shared.reload p) : Act Desk _)
      fun outcome d => Marked checks since (Touched stale p) late owed d
        ∧ (outcome.isOk = false → d.shared.store.contains p = false) := by
  intro d hd
  rw [wp_onShared, Shared.reload, wp_bind, Shared.wp_readText, Shared.wp_revise]
  constructor
  · intro store hstore
    exact ⟨(hd.afterRead p).revised hstore, by simp [Except.isOk, Except.toBool]⟩
  · intro hout
    exact ⟨((hd.afterRead p).reported _).mono fun _ => .inl, fun _ => hout⟩

/-- A document that is entered has the URI of its path, and is stale. -/
theorem openPath_marks (p root : Path) (byEditor : Bool) (replica : Path) :
    Leads (Marked checks since stale late []) (liftM (Shared.openPath p root byEditor none replica) : Act Desk Bool)
      fun isNew d => Marked checks since (Touched stale p) late [] d
        ∧ (isNew = false → Marked checks since stale late [] d) := by
  intro d hd
  rw [wp_onShared, Shared.wp_openPath]
  refine ⟨fun _ => ⟨hd.mono fun _ => .inl, fun _ => hd⟩, fun hnew => ⟨?_, by simp⟩⟩
  generalize hdoc : d.shared.entered p root byEditor none replica = doc
  have hpath : doc.path = p := hdoc ▸ rfl
  have huri : ∀ u, doc.uri = some u → u.toPath? = some doc.path := by
    intro u hu
    rw [hpath]
    exact Path.toPath?_of_toUri? (by simpa [← hdoc, Shared.entered] using hu)
  have hentered := (hd.afterRead p).entered (by rwa [Shared.afterRead_store, hpath]) huri
  rw [hpath] at hentered
  simpa only [Desk.withStore, Shared.afterRead_store] using hentered

/-- A path that is taken up is stale. -/
theorem trackFile_marks (p : Path) :
    Leads (Marked checks since stale late []) (trackFile p) fun _ => Marked checks since (Touched stale p) late [] := by
  rw [trackFile]
  refine Leads.get_bind fun d _ => Leads.bind ((openPath_marks p _ _ _).pre fun _ hd => hd.1) fun isNew => ?_
  refine Leads.get_bind fun d _ => Leads.ite (fun _ => ?_) fun _ => (track_marks p).pre fun _ hd => hd.1.1
  exact Leads.bind ((reload_marks p).pre fun _ hd => hd.1.1) fun _ => (track_marks p).pre fun _ hd => hd.1.twice

theorem adoptFile_marks (htotal : checks.Total) (p : Path) :
    Leads (Marked checks since stale late []) (adoptFile checks p)
      fun _ => Marked checks since stale (Touched late p) [] := by
  rw [adoptFile]
  refine Leads.bind (trackFile_marks p) fun _ => Leads.bind (syncReplica_marks p) fun _ => ?_
  exact Leads.bind (check_marks htotal p) fun _ => Leads.pure fun _ hd => hd.1

theorem trackDir_marks (htotal : checks.Total) (dir : Path) :
    Leads (Marked checks since stale Never []) (trackDir checks dir) fun _ => Marked checks since stale Never [] := by
  rw [trackDir]
  refine Leads.bind (tree_marks dir) fun tree => Leads.bind (Leads.forM (fun _ => Marked checks since stale Never [])
    tree.dirs fun _ q _ _ => adoptDir_marks q) fun _ => ?_
  have hfiles : Leads (Marked checks since stale Never []) (tree.files.forM (adoptFile checks))
      fun _ => Marked checks since stale (fun q => ∃ x ∈ tree.files, x.same q = true) [] := by
    refine (Leads.forM (fun done => Marked checks since stale (fun q => ∃ x ∈ done, x.same q = true) []) tree.files
      fun done x rest _ => (adoptFile_marks htotal x).post fun _ d hd => Marked.relate hd fun q => ?_).pre fun d hd =>
        Marked.relate hd fun q => ?_
    · simp [Touched, or_and_right, exists_or]
    · simp [Never]
  refine Leads.bind hfiles fun _ => Leads.ite (fun _ => compile_marks) fun hnone => Leads.pure fun d hd => ?_
  have hempty : tree.files = [] := by simpa using hnone
  exact hd.relate fun q => by simp [hempty, Never]

/-- Documents are dropped, and are owed the lists that take their markers away. -/
theorem Marked.dropped {d : Desk} (h : Marked checks since stale late owed d) (ps : List Path) :
    Marked checks since stale late (owed ++ d.shared.store.droppedWith ps)
      (d.withStore (ps.foldl Store.erase d.shared.store)) := by
  induction ps generalizing d owed with
  | nil =>
    rw [Store.droppedWith, List.append_nil]
    exact h
  | cons p rest ih =>
    have hrest := ih (h.erased p)
    rw [List.append_assoc] at hrest
    exact hrest

theorem Marked.releasedAll {d : Desk} (h : Marked checks since stale late owed d) (ps : List Path) :
    Marked checks since stale late owed { d with workspace := ps.foldl Workspace.release d.workspace } := by
  induction ps generalizing d with
  | nil => exact h
  | cons p rest ih => exact ih (h.released p)

theorem untrackAndClear_marks (p : Path) :
    Leads (Marked checks since stale late []) (untrackAndClear p) fun _ => Marked checks since stale late [] := by
  intro d hd
  rw [untrackAndClear, wp_bind]
  refine wp_untrack (clears_mark (d.droppedAt p) _ ?_)
  have hbelow := (hd.releasedAll (d.gone p)).dropped (d.gone p)
  cases hopen : d.shared.store.isOpen p with
  | true => simpa [droppedAt, untracked, hopen] using hbelow
  | false => simpa [droppedAt, untracked, hopen, withStore] using hbelow.dropped [p]

/-! ### The configuration -/

/-- When all tracked paths are checked, none is stale. -/
theorem checkAll_marks (htotal : checks.Total) (w : Workspace) :
    Leads (fun d => Marked checks since (fun _ => True) Never [] d ∧ d.workspace = w)
      (w.files.forM fun p => do let _ ← (Shared.check checks p : Act Shared Bool) : Act Desk Unit)
      fun _ => Marked checks since stale (fun q => ∃ x ∈ w.files, x.same q = true) [] := by
  have hkeeps : ∀ x : Path, Preserves (fun d => d.workspace = w) (liftM (Shared.check checks x) : Act Desk Bool) :=
    fun x => onShared_keeps fun w' s hw => wp_imp (wp_true _ s) (fun _ _ _ => hw) fun _ _ _ => hw
  refine ((Leads.forM (fun done d => Marked checks since (fun q => ∀ x ∈ done, x.same q = false)
    (fun q => ∃ x ∈ done, x.same q = true) [] d ∧ d.workspace = w) w.files fun done x rest _ d hd => ?_).pre
      fun d hd => ?_).post fun _ d hd => ?_
  · have htouched : Marked checks since (Touched (fun q => ∀ y ∈ done ++ [x], y.same q = false) x)
        (fun q => ∃ x ∈ done, x.same q = true) [] d := by
      refine hd.1.mono fun q hq => ?_
      cases hsame : x.same q with
      | true => exact .inr hsame
      | false => exact .inl (by simpa [or_imp, forall_and, hsame] using hq)
    rw [wp_bind]
    refine wp_imp (wp_and (check_marks htotal x d htouched) (hkeeps x d hd.2)) (fun _ d' hd' => ?_) fun _ _ hf => hf.1
    refine (wp_pure _).mpr ⟨hd'.1.1.relate fun q => ?_, hd'.2⟩
    simp [Touched, or_and_right, exists_or]
  · exact ⟨(hd.1.mono fun _ _ => by simp).relate fun q => by simp [Never], hd.2⟩
  · refine { hd.1 with fits := fun hok q doc hdoc htracks hfaust _ => ?_ }
    refine hd.1.fits hok q doc hdoc htracks hfaust fun hnone => ?_
    obtain ⟨x, hx, hsame⟩ := List.any_eq_true.mp (hd.2 ▸ htracks)
    simp [hnone x (Path.mem_sort.mpr hx)] at hsame

/-- A new configuration leaves only markers that are late. -/
theorem loadConfig_marks : Leads (Marked checks since stale late owed) loadConfig
    fun _ => Marked checks since (fun q => stale q ∨ ¬ late q) late owed := by
  rw [loadConfig]
  refine Leads.get_bind fun d _ => Leads.bind ((reports_mark _).pre fun _ hd => hd.1) fun _ d' hd' => ?_
  rw [wp_modify]
  exact hd'.configured _

/-- All tracked paths are stale under another configuration, and are checked again. -/
theorem reloadConfig_marks (htotal : checks.Total) :
    Leads (Marked checks since stale Never []) (reloadConfig checks) fun _ => Marked checks since stale Never [] := by
  have hload : Leads (Marked checks since stale Never []) loadConfig
      fun _ => Marked checks since (fun _ => True) Never [] :=
    loadConfig_marks.post fun _ _ hd => hd.mono fun _ _ => trivial
  rw [reloadConfig, diagnoseAll]
  refine Leads.bind (fun d hd => ?_) fun _ => Leads.bind hload fun _ => Leads.get_bind fun d _ =>
    Leads.bind ((checkAll_marks htotal d.workspace).pre fun _ hd => ⟨hd.1, congrArg Desk.workspace hd.2⟩)
      fun _ => compile_marks
  rw [wp_onShared, Shared.wp_report]
  exact hd.reported _

/-! ### Opening a workspace -/

/-- In a new workspace all is late that has been found. -/
theorem adoptFound_marks (htotal : checks.Total) (p : Path) :
    Leads (Marked checks since stale (fun _ => True) []) (adoptFound checks p)
      fun _ => Marked checks since stale (fun _ => True) [] := by
  rw [adoptFound]
  refine Leads.get_bind fun d _ => Leads.bind ((openPath_marks p _ _ _).pre fun _ hd => hd.1) fun isNew => ?_
  cases isNew with
  | false => exact Leads.pure fun _ hd => hd.2 rfl
  | true =>
    refine Leads.bind ((track_marks p).pre fun _ hd => hd.1) fun _ => ?_
    refine Leads.bind (check_marks htotal p) fun _ => Leads.pure ?_
    exact fun _ hd => hd.1.relate fun q => by simp [Touched]

theorem populate_marks (htotal : checks.Total) :
    Leads (Marked checks since (fun _ => False) (fun _ => True) []) (populate checks)
      fun _ => Marked checks since (fun _ => False) Never [] := by
  have hreplicate : Leads (Marked checks since (fun _ => False) (fun _ => True) []) replicate
      fun _ => Marked checks since (fun _ => False) (fun _ => True) [] := by
    rw [replicate]
    refine Leads.get_bind fun d hd => ?_
    have hset := (hd.withDisk (d.workspace.replica.replicate d.workspace.root d.shared.disk).disk).reported
      (d.workspace.replica.replicate d.workspace.root d.shared.disk).reports
    refine Leads.bind (S := fun _ => Marked checks since (fun _ => False) (fun _ => True) []) ?_ fun _ =>
      Leads.ite (fun _ => ?_) fun _ => Leads.pure fun _ hd => hd
    · intro _ _
      rw [wp_set]
      exact hset
    · intro d hd
      rw [wp_onShared, Shared.wp_report]
      exact hd.reported _
  rw [populate]
  refine Leads.bind hreplicate fun _ => Leads.get_bind fun d _ => ?_
  refine Leads.bind ((tree_marks _).pre fun _ hd => hd.1) fun tree => ?_
  refine Leads.bind (Leads.forM (fun _ => Marked checks since (fun _ => False) (fun _ => True) []) tree.files
    fun _ p _ _ => adoptFound_marks htotal p) fun _ => ?_
  refine Leads.bind loadConfig_marks fun _ => compile_marks.post fun _ d hd => ?_
  exact hd.mono fun q hq => by simp at hq

/-- **A workspace is opened with markers that fit.** -/
theorem create_marks (htotal : checks.Total) {root replicaRoot : Path} {s : Shared} (hheard : s.isHeard = true)
    (hhonest : s.store.Honest) :
    wp (Workspace.create checks root replicaRoot)
      (fun outcome s' => match outcome with
        | .ok w => Marked checks s (fun _ => False) Never [] ⟨s', w⟩
        | .error _ => True) (fun _ _ => False) s := by
  have hstart : ∀ resolved, Marked checks s (fun _ => False) (fun _ => True) []
      ⟨s, Workspace.ofRoot resolved replicaRoot⟩ := by
    intro resolved
    refine ⟨hheard, Nat.le_refl _, Nat.le_refl _, hhonest, by simp, fun p u _ _ _ _ => ?_, fun _ p doc _ htracks => ?_⟩
    · simp [Shared.shown, Publication.last?]
    · simp [Workspace.ofRoot, Workspace.tracks] at htracks
  rw [Workspace.create, wp_bind, wp_get]
  dsimp only
  split
  · exact (wp_pure _).mpr trivial
  · rename_i resolved _
    refine (wp_ite _ _).mpr ⟨fun _ => (wp_pure _).mpr trivial, fun _ => ?_⟩
    have hrun := populate_marks htotal _ (hstart resolved)
    cases hd : populate checks ⟨s, Workspace.ofRoot resolved replicaRoot⟩ with
    | ok a d =>
      refine (wp_of_ok (by simp only [hd]; rfl)).mpr ?_
      exact (wp_of_ok hd).mp hrun
    | error err d => exact ((wp_of_error hd).mp hrun).elim

/-! ### Events of the disk -/

theorem created_marks (htotal : checks.Total) (p : Path) :
    Leads (Marked checks since stale Never []) (created checks p) fun _ => Marked checks since stale Never [] := by
  rw [created]
  refine Leads.get_bind fun d _ => ?_
  split
  · exact Leads.pure fun _ hd => hd.1
  · refine Leads.ite (fun _ => (trackDir_marks htotal p).pre fun _ hd => hd.1) fun _ => ?_
    refine Leads.bind ((trackFile_marks p).pre fun _ hd => hd.1) fun _ => Leads.get_bind fun d' _ => ?_
    refine Leads.bind ((onReplica_marks _ (by decide)).pre fun _ hd => hd.1) fun made => ?_
    refine Leads.ite (fun _ => ?_) fun hmade => ?_
    · exact Leads.bind ((syncReplica_marks p).pre fun _ hd => hd.1) fun _ => diagnose_marks htotal p
    · exact Leads.pure fun d hd => hd.1.settled_of_failed (hd.2 (by simpa using hmade))

theorem renamed_marks (htotal : checks.Total) (source target : Path) :
    Leads (Marked checks since stale Never []) (renamed checks source target)
      fun _ => Marked checks since stale Never [] := by
  have hend : Leads (Marked checks since stale Never []) (do
      untrackAndClear source
      if (← get).shared.disk.hasDirectory target then trackDir checks target
      else
        trackFile target
        syncReplica target
        diagnose checks target
      resyncOpen source) fun _ => Marked checks since stale Never [] := by
    refine Leads.bind (untrackAndClear_marks source) fun _ => Leads.get_bind fun d _ => ?_
    refine Leads.ite (fun _ => ?_) fun _ => ?_
    · exact Leads.bind ((trackDir_marks htotal target).pre fun _ hd => hd.1) fun _ => resyncOpen_marks source
    · refine Leads.bind ((trackFile_marks target).pre fun _ hd => hd.1) fun _ => ?_
      refine Leads.bind (syncReplica_marks target) fun _ => ?_
      exact Leads.bind (diagnose_marks htotal target) fun _ => resyncOpen_marks source
  rw [renamed]
  refine Leads.get_bind fun d _ => Leads.ite (fun _ => Leads.ite (fun _ => ?_) fun _ => ?_) fun _ =>
    Leads.pure fun _ hd => hd.1
  · exact Leads.bind ((onReplica_marks _ (by decide)).pre fun _ hd => hd.1) fun _ => hend.pre fun _ hd => hd.1
  · exact hend.pre fun _ hd => hd.1

theorem removed_marks (p : Path) :
    Leads (Marked checks since stale Never []) (removed checks p) fun _ => Marked checks since stale Never [] := by
  rw [removed]
  refine Leads.bind (untrackAndClear_marks p) fun _ => Leads.get_bind fun d _ => ?_
  refine Leads.bind ((onReplica_marks _ (by decide)).pre fun _ hd => hd.1) fun _ => ?_
  exact Leads.bind ((resyncOpen_marks p).pre fun _ hd => hd.1) fun _ => compile_marks

/-- A revision makes its path stale, and fails where there is no document. -/
theorem revise_marks (p : Path) (r : Revision) :
    Leads (Marked checks since stale late owed) (liftM (Shared.revise p r) : Act Desk _)
      fun outcome d => Marked checks since (Touched stale p) late owed d
        ∧ (outcome.isOk = false → d.shared.store.contains p = false) := by
  intro d hd
  rw [wp_onShared, Shared.wp_revise]
  constructor
  · intro store hstore
    exact ⟨hd.revised hstore, by simp [Except.isOk, Except.toBool]⟩
  · intro hout
    exact ⟨(hd.reported _).mono fun _ => .inl, fun _ => hout⟩

theorem rewritten_marks (htotal : checks.Total) (p : Path) (content : String) :
    Leads (Marked checks since (Touched stale p) Never []) (do
      let _ ← onReplica (Replica.write ((← get).workspace.replicaPath p) (Text.Utf8.encode content))
        "Failed to write mirror file"
      match ← Shared.revise p (.replace content) with
      | .ok _ => diagnose checks p
      | .error _ => pure ()) fun _ => Marked checks since stale Never [] := by
  refine Leads.get_bind fun d _ => Leads.bind ((onReplica_marks _ (by decide)).pre fun _ hd => hd.1) fun _ => ?_
  refine Leads.bind ((revise_marks p _).pre fun _ hd => hd.1) fun outcome => ?_
  split
  · exact (diagnose_marks htotal p).pre fun _ hd => hd.1.twice
  · exact Leads.pure fun d hd => hd.1.twice.settled_of_absent (hd.2 rfl) fun _ _ => Iff.rfl

theorem written_marks (htotal : checks.Total) (p : Path) :
    Leads (Marked checks since stale Never []) (written checks p) fun _ => Marked checks since stale Never [] := by
  rw [written]
  refine Leads.get_bind fun d _ => Leads.ite (fun _ => ?_) fun _ => Leads.pure fun _ hd => hd.1
  split
  · exact Leads.pure fun _ hd => hd.1
  · refine Leads.get_bind fun d _ => Leads.ite (fun _ => ?_) fun _ =>
      (rewritten_marks htotal p _).pre fun _ hd => hd.1.1.mono fun _ => .inl
    exact Leads.bind ((trackFile_marks p).pre fun _ hd => hd.1.1) fun _ => rewritten_marks htotal p _

/-- **Once an event of the disk is handled, no more paths are stale than before.** -/
theorem onDiskEvent_marks (htotal : checks.Total) (e : Watch.Event) :
    Leads (Marked checks since stale Never []) (onDiskEvent checks e) fun _ => Marked checks since stale Never [] := by
  have hend : Leads (Marked checks since stale Never [])
      (if e.path.isConfigFile || e.source.any Path.isConfigFile then reloadConfig checks else pure ())
      fun _ => Marked checks since stale Never [] :=
    Leads.ite (fun _ => reloadConfig_marks htotal) fun _ => Leads.pure fun _ hd => hd
  rw [onDiskEvent]
  refine Leads.get_bind fun d _ => Leads.ite (fun _ => ?_) fun _ => Leads.pure fun _ hd => hd.1
  dsimp only
  split
  · exact Leads.bind ((renamed_marks htotal _ _).pre fun _ hd => hd.1) fun _ => hend
  · exact Leads.bind ((created_marks htotal _).pre fun _ hd => hd.1) fun _ => hend
  · exact Leads.bind ((written_marks htotal _).pre fun _ hd => hd.1) fun _ => hend
  · exact Leads.bind ((removed_marks _).pre fun _ hd => hd.1) fun _ => hend

/-! ### Events of the editor -/

theorem editorOpened_marks (p : Path) :
    Leads (Marked checks since (Touched stale p) Never []) (editorOpened p)
      fun _ => Marked checks since (Touched stale p) Never [] := by
  rw [editorOpened]
  refine Leads.bind (track_marks p) fun _ => Leads.get_bind fun d _ => ?_
  exact Leads.bind ((onReplica_marks _ (by decide)).pre fun _ hd => hd.1) fun _ => Leads.pure fun _ hd => hd.1

theorem editorChanged_marks (htotal : checks.Total) (p : Path) :
    Leads (Marked checks since (Touched stale p) Never []) (editorChanged checks p)
      fun _ => Marked checks since stale Never [] := by
  rw [editorChanged]
  refine Leads.get_bind fun d _ => Leads.ite (fun _ => ?_) fun hout => Leads.pure ?_
  · exact Leads.bind ((syncReplica_marks p).pre fun _ hd => hd.1) fun _ => diagnose_marks htotal p
  · rintro d ⟨hd, rfl⟩
    exact hd.settled_of_absent (by simpa using hout) fun _ _ => Iff.rfl

/-- A document that is closed is dropped or read again. One that is open again is left to the
    events behind. -/
theorem editorClosed_marks (htotal : checks.Total) (p : Path) {d : Desk}
    (h : Marked checks since (Touched stale p) Never [] d) :
    wp (editorClosed checks p)
      (fun _ d' => Marked checks since (fun q => stale q ∨ p.same q = true ∧ d.shared.store.isOpen p = true) Never [] d')
      (fun _ _ => False) d := by
  rw [editorClosed, wp_bind, wp_get]
  refine (wp_ite _ _).mpr ⟨fun hclosed => ?_, fun hopen => (wp_pure _).mpr (h.mono fun q hq => ?_)⟩
  · have hstale : ∀ d', Marked checks since stale Never [] d' →
        Marked checks since (fun q => stale q ∨ p.same q = true ∧ d.shared.store.isOpen p = true) Never [] d' :=
      fun _ hd => hd.mono fun _ => .inl
    refine (wp_ite _ _).mpr ⟨fun _ => ?_, fun _ => ?_⟩
    · have hdropped : Marked checks since stale Never (d.shared.store.get? p).toList
          ({ d with workspace := d.workspace.release p }.withStore (d.shared.store.erase p)) := by
        refine ((h.released p).erased p).settled_of_absent ?_ fun _ _ => Iff.rfl
        simp [withStore, Store.contains_erase_eq, Path.same_refl]
      have hend : Leads (Marked checks since stale Never []) (do
          let _ ← onReplica (Replica.remove (d.workspace.replicaPath p)) "Failed to remove mirror file")
          fun _ => Marked checks since (fun q => stale q ∨ p.same q = true ∧ d.shared.store.isOpen p = true) Never [] :=
        Leads.bind (onReplica_marks _ (by decide)) fun _ => Leads.pure fun _ hd => hstale _ hd.1
      rw [wp_bind, release, wp_modify, wp_bind, wp_onShared, Shared.wp_dropDocument]
      dsimp only
      cases hdoc : d.shared.store.get? p with
      | none =>
        rw [hdoc] at hdropped
        exact hend _ hdropped
      | some doc =>
        rw [hdoc] at hdropped
        exact (Leads.bind (clear_marks doc) fun _ => hend) _ hdropped
    · refine (Leads.bind (reload_marks p) fun outcome => ?_ :
        Leads (Marked checks since (Touched stale p) Never []) _ _) d h
      split
      · exact Leads.pure fun d hd => hstale _ (hd.1.twice.settled_of_absent (hd.2 rfl) fun _ _ => Iff.rfl)
      · refine Leads.bind ((track_marks p).pre fun _ hd => hd.1.twice) fun _ => ?_
        refine Leads.bind (syncReplica_marks p) fun _ => ?_
        exact (diagnose_marks htotal p).post fun _ d hd => hstale _ hd
  · exact hq.imp_right fun hsame => ⟨hsame, by simpa using hopen⟩

/-- What an event of the editor leaves stale. -/
def Unsettled (e : EditorEvent) (d : Desk) (q : Path) : Prop := e.path.same q = true ∧ e.Defers d.shared.store

/-- **Once an event of the editor is handled, its path is stale no more, unless the event
    leaves that to another one.** -/
theorem onEditorEvent_marks (htotal : checks.Total) (e : EditorEvent) {d : Desk}
    (h : Marked checks since (Touched stale e.path) Never [] d) :
    wp (onEditorEvent checks e)
      (fun outcome => Marked checks since (fun q => outcome = .ok () → stale q ∨ Unsettled e d q) Never [])
      (fun _ _ => False) d := by
  have hend : ∀ (p : Path) (stale' : Path → Prop), (∀ q, stale' q → stale q ∨ Unsettled e d q) →
      Leads (Marked checks since stale' Never []) (do
        if p.isConfigFile then reloadConfig checks
        return (.ok () : Except WorkspaceError Unit))
        fun outcome => Marked checks since (fun q => outcome = .ok () → stale q ∨ Unsettled e d q) Never [] := by
    intro p stale' hstale
    refine Leads.ite (fun _ => Leads.bind (reloadConfig_marks htotal) fun _ => Leads.pure ?_) fun _ => Leads.pure ?_
    · exact fun _ hd => hd.mono fun q hq _ => hstale q hq
    · exact fun _ hd => hd.mono fun q hq _ => hstale q hq
  rw [onEditorEvent, wp_bind, wp_get]
  refine (wp_ite _ _).mpr ⟨fun _ => ?_, fun _ => ?_⟩
  · rw [wp_bind, wp_onShared, Shared.wp_report, wp_pure]
    exact (h.reported _).mono fun _ _ hok => by cases hok
  · cases e with
    | opened p =>
      rw [wp_bind]
      refine wp_imp (editorOpened_marks p d h) (fun _ d' hd' => (wp_pure _).mpr ?_) fun _ _ hf => hf
      exact hd'.mono fun q hq _ => hq.imp_right fun hsame => ⟨hsame, trivial⟩
    | changed p =>
      rw [wp_bind]
      have hchanged := hend p stale fun _ => .inl
      exact wp_imp (editorChanged_marks htotal p d h) (fun _ d' hd' => hchanged d' hd') fun _ _ hf => hf
    | closed p =>
      have hclosed := hend p (fun q => stale q ∨ p.same q = true ∧ d.shared.store.isOpen p = true) fun _ hq => hq
      rw [wp_bind]
      exact wp_imp (editorClosed_marks htotal p h) (fun _ d' hd' => hclosed d' hd') fun _ _ hf => hf

end Desk

end LiveWorkspace
