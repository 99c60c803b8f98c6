/-
  LiveWorkspace/Proofs/Workspace/Handing.lean
  ===========================================
  **What an event hands to the replica.**

  For a directory that is taken up the replica is handed a folder, and for a file a sheet with the
  text of its document (`Premises.parcels`).  The texts do not change while an event is handled:
  what an editor has open keeps its text, and all else gets that of the disk (`Ledger.shown`).
  So it can be said beforehand what is handed over, and in which order.
-/
import LiveWorkspace.Proofs.Workspace.Midway

namespace LiveWorkspace

/-! ### Names on the way to what is found -/

namespace Disk

/-- No name of a path that leads somewhere is too long. -/
theorem short_of_stat {d : Disk} {p : Path} {x : Location × Entry} (h : d.stat p = .ok x) : ∀ n ∈ p.names, n.utf8ByteSize ≤ maxName :=
  (walkLinks_eq_ok_iff.mp (walkLinks_names_of_stat h).2).short

end Disk

/-- What stands for a name in a path is one of its names. -/
theorem Path.mem_names_of_mem_components {p : Path} {n : String} (h : Component.name n ∈ p.components) : n ∈ p.names := by
  obtain ⟨x, hx, hcomponent⟩ := List.mem_filterMap.mp h
  have hpiece : Component.ofPiece? x.text = some (.name n) := by
    unfold pieces at hx
    split at hx
    · cases hx
    · rcases List.mem_cons.mp hx with rfl | hx
      · dsimp only at hcomponent ⊢
        split at hcomponent
        · split at hcomponent <;> cases hcomponent
        · split at hcomponent
          · cases hcomponent
          · exact hcomponent
      · obtain ⟨piece, -, rfl⟩ := List.mem_map.mp hx
        exact hcomponent
  rcases component_of_inner (x := ⟨x.text, some (.name n)⟩) hpiece.symm rfl with ⟨hup, -⟩ | ⟨hname, hne, -⟩
  · cases hup
  · rw [Component.name.inj hname, names_eq, namesOf]
    exact List.mem_map.mpr ⟨x.text, List.mem_filter.mpr ⟨List.mem_map.mpr ⟨x, hx, rfl⟩, by simpa using hne⟩, rfl⟩

theorem Premises.short_of_stat {m : Premises} {d : Disk} {p : Path} {x : Location × Entry} (h : d.stat p = .ok x) :
    ∀ n ∈ m.names p, n.utf8ByteSize ≤ maxName := by
  intro n hn
  obtain ⟨c, hc, hname⟩ := List.mem_filterMap.mp hn
  refine Disk.short_of_stat h n (Path.mem_names_of_mem_components ?_)
  cases c with
  | name s =>
    obtain rfl := Option.some.inj hname
    exact List.mem_of_mem_drop hc
  | _ => cases hname

/-! ### Texts -/

namespace Ledger

variable {l l' : Ledger} {fresh : Path → Document} {checks : Checkers} {checked : Bool} {p q : Path} {ps : List Path}

/-- The text that an editor has open. -/
def openText (l : Ledger) (p : Path) : Option String := ((l.documents p).filter (·.isOpen)).map (·.content)

/-- The text that the copy of a path gets: that which is open, or else that of the disk. -/
def shown (fresh : Path → Document) (l : Ledger) (p : Path) : String := (l.openText p).getD (fresh p).content

theorem opens_eq_openText (l : Ledger) (p : Path) : l.opens p = (l.openText p).isSome := by
  unfold opens openText
  cases l.documents p with
  | none => rfl
  | some doc => cases hopen : doc.isOpen <;> simp [Option.filter, hopen]

theorem openText_of_opens {doc : Document} (hdoc : l.documents p = some doc) (hopen : doc.isOpen = true) :
    l.openText p = some doc.content := by
  simp [openText, hdoc, Option.filter, hopen]

theorem openText_of_closed (h : l.opens p = false) : l.openText p = none := by
  rw [opens_eq_openText] at h
  simpa using h

/-- Letting a path go leaves what is open. -/
theorem openText_letGo (l : Ledger) (p : Path) : (l.letGo p).openText = l.openText := by
  funext q
  cases hdrops : l.drops p q with
  | false => simp [openText, letGo, hdrops]
  | true =>
    rw [drops, Bool.and_eq_true, Bool.not_eq_true'] at hdrops
    rw [openText_of_closed hdrops.2, openText_of_closed ((opens_letGo l p q).trans hdrops.2)]

/-- Checks leave what is open. -/
theorem openText_reviewed (checks : Checkers) (l : Ledger) (ps : List Path) : (l.reviewed checks ps).openText = l.openText := by
  funext q
  show (((l.documents q).map (review checks ps q)).filter (·.isOpen)).map (·.content) = l.openText q
  rw [openText]
  cases l.documents q with
  | none => rfl
  | some doc => cases hopen : doc.isOpen <;> simp [Option.filter, hopen]

/-- What is taken up gets the text that its copy is to have. -/
theorem exists_take (l : Ledger) (p : Path) :
    ∃ doc, (l.take fresh p).documents p = some doc ∧ doc.content = l.shown fresh p := by
  refine ⟨_, if_pos (Path.same_refl p), ?_⟩
  unfold shown openText
  cases hdoc : l.documents p with
  | none => rfl
  | some doc =>
    cases hopen : doc.isOpen with
    | true => simp [Document.reread, Option.filter, hopen]
    | false => simp [Document.reread, Option.filter, hopen]

variable (hclosed : ∀ p, (fresh p).isOpen = false)
include hclosed

theorem openText_adopted (l : Ledger) (ps : List Path) : (l.adopted checks checked fresh ps).openText = l.openText := by
  funext q
  cases hopen : l.opens q with
  | false => rw [openText_of_closed hopen, openText_of_closed ((opens_adopted hclosed l ps q).trans hopen)]
  | true =>
    unfold opens at hopen
    obtain ⟨doc, hdoc, hopen⟩ := (Option.any_eq_true _ _).mp hopen
    rw [openText_of_opens hdoc hopen]
    unfold openText adopted
    dsimp only
    cases hfound : ps.find? (·.same q) with
    | none => simp [hdoc, Option.filter, hopen]
    | some r =>
      have htaken : Ledger.taken checks checked fresh r (some doc) = if checked then doc.judged checks r else doc :=
        taken_of_settled fun hdoc => by rw [hopen] at hdoc; cases hdoc
      rw [hdoc]
      dsimp only
      rw [htaken]
      cases checked <;> simp [Option.filter, hopen]

end Ledger

/-! ### Parcels of paths -/

namespace Premises

variable {m : Premises} {text : Path → String} {dirs files : List Path} {p q : Path} {c x : Site.Parcel}

/-- The copy of a directory, without what it holds. -/
def folder (m : Premises) (p : Path) : Site.Parcel := ⟨m.copyOf p, m.names p, .directory⟩

/-- The copy of a file. -/
def sheet (m : Premises) (text : Path → String) (p : Path) : Site.Parcel :=
  ⟨m.copyOf p, m.names p, .file (Text.Utf8.encode (text p))⟩

/-- What is handed over for files, each behind the directory that it goes to. -/
def sheets (m : Premises) (text : Path → String) (files : List Path) : List Site.Parcel :=
  files.flatMap fun p => (m.sheet text p).chain

/-- What is handed over for some directories, and then for some files. -/
def parcels (m : Premises) (text : Path → String) (dirs files : List Path) : List Site.Parcel :=
  dirs.map m.folder ++ m.sheets text files

theorem mem_sheets : c ∈ m.sheets text files ↔ ∃ p ∈ files, (m.sheet text p).Brings c := by
  simp only [sheets, List.mem_flatMap, Site.Parcel.mem_chain]

theorem mem_parcels : c ∈ m.parcels text dirs files
    ↔ (∃ p ∈ dirs, c = m.folder p) ∨ ∃ p ∈ files, (m.sheet text p).Brings c := by
  rw [parcels, List.mem_append, mem_sheets, List.mem_map]
  exact or_congr_left ⟨fun ⟨p, hp, heq⟩ => ⟨p, hp, heq.symm⟩, fun ⟨p, hp, heq⟩ => ⟨p, hp, heq.symm⟩⟩

theorem sheets_concat (m : Premises) (text : Path → String) (files : List Path) (p : Path) :
    m.sheets text (files ++ [p]) = m.sheets text files ++ (m.sheet text p).chain := by
  simp [sheets]

theorem sheets_append (m : Premises) (text : Path → String) (files files' : List Path) :
    m.sheets text (files ++ files') = m.sheets text files ++ m.sheets text files' := by
  simp [sheets]

/-- A parcel is a directory, or the sheet of one of the files. -/
theorem directory_or_sheet (h : c ∈ m.parcels text dirs files) : c.node = .directory ∨ ∃ p ∈ files, c = m.sheet text p := by
  rcases mem_parcels.mp h with ⟨p, -, rfl⟩ | ⟨p, hp, rfl | hbefore⟩
  · exact .inl rfl
  · exact .inr ⟨p, hp, rfl⟩
  · exact .inl (Site.Parcel.of_before hbefore).2.2

/-- Parcels go together if files with the same names have the same text. -/
theorem suits_of_coherent (hcoherent : ∀ p ∈ files, ∀ q ∈ files, m.names p = m.names q → text p = text q)
    (hc : c ∈ m.parcels text dirs files) (hx : x ∈ m.parcels text dirs files) : c.Suits x := by
  rcases directory_or_sheet hc with hdir | ⟨p, hp, rfl⟩
  · exact Site.Parcel.suits_of_directory hdir x
  · intro hnames
    rcases directory_or_sheet hx with hdir | ⟨q, hq, rfl⟩
    · rw [hdir]
      exact .inr Bool.false_ne_true.symm
    · left
      show Node.file _ = Node.file _
      rw [hcoherent q hq p hp hnames]

end Premises

/-- What a tree lists is found. -/
theorem Disk.exists_stat_of_mem_tree {d : Disk} {p q : Path} (h : q ∈ (d.tree p).1.dirs ∨ q ∈ (d.tree p).1.files) :
    ∃ x, d.stat q = .ok x := by
  cases hstat : d.stat q with
  | ok x => exact ⟨x, rfl⟩
  | error err =>
    rcases h with hq | hq
    · have hhas := (Disk.mem_tree.1 hq).1
      rw [Disk.hasDirectory, hstat] at hhas
      cases hhas
    · have hhas := (Disk.mem_tree.2 hq).1
      rw [Disk.hasFile, hstat] at hhas
      cases hhas

/-! ### What is handed over -/

/-- What is found at a path is told apart by its spelling. -/
theorem Desk.Seated.distinct_at {m : Premises} {d : Desk} {p : Path} (h : d.Seated m) (hp : m.root.Encloses p) :
    ∀ x ∈ d.shared.disk.filesAt p, ∀ y ∈ d.shared.disk.filesAt p, x.same y = true → x = y := fun _ hx _ hy hsame =>
  h.eq_of_names_at hp (.inr hx) (.inr hy) (m.names_congr hsame)

namespace Desk.Midway

variable {m : Premises} {old : Disk} {config : ProjectConfig} {l : Ledger} {base : Disk} {cs : List Site.Parcel} {d : Desk}
  {p q : Path} {E : Crash → Desk → Prop} {text : Path → String}

/-- The copy of a document is handed over. -/
theorem hands {doc : Document} (h : d.Midway m old config l (m.site.Handed cs base)) (hbase : m.site.Tidy base)
    (hp : m.root.Encloses p) (hshort : ∀ n ∈ m.names p, n.utf8ByteSize ≤ maxName) (hdoc : l.documents p = some doc)
    (htext : doc.content = text p) :
    wp (Desk.syncReplica p) (fun _ => Midway m old config l (m.site.Handed (cs ++ (m.sheet text p).chain) base)) E d := by
  refine h.syncReplica hp hdoc fun disk _ hdisk => ?_
  rw [htext]
  exact hdisk.write hbase (c := m.sheet text p) (Premises.spells_copyOf hp) rfl hshort

variable (checks : Checkers)

/-- A file is taken up and checked, and its copy handed over. -/
theorem adoptFile (htotal : checks.Total) (h : d.Midway m old config l (m.site.Handed cs base)) (hbase : m.site.Tidy base)
    (hp : m.root.Encloses p) (hstat : d.shared.disk.stat p = old.stat p) {x : Location × Entry} (hfound : old.stat p = .ok x)
    (htext : l.shown (m.fresh old) p = text p) :
    wp (Desk.adoptFile checks p) (fun _ => Midway m old config ((l.take (m.fresh old) p).reviewed checks [p])
      (m.site.Handed (cs ++ (m.sheet text p).chain) base)) E d := by
  obtain ⟨doc, hdoc, hcontent⟩ : ∃ doc, (l.take (m.fresh old) p).documents p = some doc
      ∧ doc.content = l.shown (m.fresh old) p := Ledger.exists_take l p
  rw [Desk.adoptFile, wp_bind]
  refine wp_imp (h.trackFile hp (Disk.textOf_congr hstat)) (fun _ d₁ h₁ => ?_) fun _ _ he => he
  rw [wp_bind]
  refine wp_imp (h₁.hands hbase hp (Premises.short_of_stat hfound) hdoc (hcontent.trans htext)) (fun _ d₂ h₂ => ?_)
    fun _ _ he => he
  rw [wp_bind]
  exact wp_imp (h₂.check checks htotal p) (fun _ d₃ h₃ => (wp_pure _).mpr h₃) fun _ _ he => he

theorem tree (h : d.Midway m old config l (m.site.Handed cs base)) (htree : d.shared.disk.tree p = old.tree p) :
    wp (liftM (Shared.tree p) : Act Desk Tree)
      (fun tree d' => d'.Midway m old config l (m.site.Handed cs base) ∧ tree = (old.tree p).1) E d := by
  have hreports := Shared.Quiet.forM (d.shared.disk.tree p).2 Shared.report_quiet
  rw [wp_onShared, Shared.tree, wp_bind, wp_get, wp_bind]
  refine wp_imp (hreports _ _ d.shared ⟨rfl, rfl⟩) (fun _ s hs => ?_) fun _ _ hfalse => hfalse.elim
  exact (wp_pure _).mpr ⟨h.held hs, congrArg Prod.fst htree⟩

/-- Directories are copied one after the other. -/
theorem adoptDirs {dirs : List Path} (h : d.Midway m old config l (m.site.Handed cs base))
    (hin : ∀ x ∈ dirs, m.root.Encloses x ∧ ∃ y, old.stat x = .ok y)
    (hstat : ∀ disk, Disk.SameOutside m.site.zone old disk → ∀ x ∈ dirs, disk.stat x = old.stat x) :
    wp (dirs.forM Desk.adoptDir) (fun _ => Midway m old config l (m.site.Handed (cs ++ dirs.map m.folder) base)) E d := by
  refine wp_forM (fun done => Midway m old config l (m.site.Handed (cs ++ done.map m.folder) base)) ?_
    fun done x rest d₁ hxs h₁ => ?_
  · rwa [List.map_nil, List.append_nil]
  · have hx : x ∈ dirs := by simp [hxs]
    obtain ⟨hin, y, hy⟩ := hin x hx
    refine h₁.adoptDir hin fun disk hkempt hdisk => ?_
    have hmode : disk.modeOf x = .ok y.2.mode := by
      rw [Disk.modeOf_congr (hstat disk hkempt.outside x hx), Disk.modeOf, hy]
      rfl
    rw [List.map_append, ← List.append_assoc]
    exact hdisk.append (.one (Site.adopt_delivers hkempt.tidy (Premises.spells_copyOf hin) hmode (Premises.short_of_stat hy)))

/-- Files are taken up one after the other. -/
theorem adoptFiles {files : List Path} (htotal : checks.Total) (h : d.Midway m old config l (m.site.Handed cs base))
    (hbase : m.site.Tidy base) (hin : ∀ x ∈ files, m.root.Encloses x ∧ ∃ y, old.stat x = .ok y)
    (hstat : ∀ disk, Disk.SameOutside m.site.zone old disk → ∀ x ∈ files, disk.stat x = old.stat x)
    (hdistinct : ∀ x ∈ files, ∀ y ∈ files, x.same y = true → x = y) (htext : ∀ x ∈ files, l.shown (m.fresh old) x = text x) :
    wp (files.forM (Desk.adoptFile checks)) (fun _ => Midway m old config (l.adopted checks true (m.fresh old) files)
      (m.site.Handed (cs ++ m.sheets text files) base)) E d := by
  refine wp_forM (fun done => Midway m old config (l.adopted checks true (m.fresh old) done)
    (m.site.Handed (cs ++ m.sheets text done) base)) ?_ fun done x rest d₁ hxs h₁ => ?_
  · rwa [Ledger.adopted_nil, Premises.sheets, List.flatMap_nil, List.append_nil]
  · have hx : x ∈ files := by simp [hxs]
    obtain ⟨hin, y, hy⟩ := hin x hx
    have hother : ∀ q ∈ done, q.same x = true → q = x := fun q hq => hdistinct q (by simp [hxs, hq]) x hx
    have hshown : (l.adopted checks true (m.fresh old) done).shown (m.fresh old) x = text x := by
      rw [Ledger.shown, Ledger.openText_adopted (fun _ => rfl)]
      exact htext x hx
    rw [Ledger.adopted_concat l hother, if_pos rfl, Premises.sheets_concat, ← List.append_assoc]
    exact h₁.adoptFile checks htotal hbase hin (hstat _ h₁.outside x hx) hy hshown

/-- A directory is taken up with all below it. -/
theorem trackDir (htotal : checks.Total) (h : d.Midway m old config l (m.site.Handed cs base)) (hbase : m.site.Tidy base)
    (hp : m.root.Encloses p) (hdetached : m.Detached old p) (hdir : old.hasDirectory p = true)
    (htext : ∀ q ∈ old.filesAt p, l.shown (m.fresh old) q = text q) :
    wp (Desk.trackDir checks p) (fun _ => Midway m old config (l.adopted checks true (m.fresh old) (old.filesAt p))
      (m.site.Handed (cs ++ m.parcels text (old.dirsAt p) (old.filesAt p)) base)) E d := by
  have htree := hdetached.tree _ h.outside
  have hdirs : old.dirsAt p = (old.tree p).1.dirs := by rw [Disk.dirsAt, if_pos hdir]
  have hfiles : old.filesAt p = (old.tree p).1.files := by rw [Disk.filesAt, if_pos hdir]
  have hin : ∀ q, q ∈ (old.tree p).1.dirs ∨ q ∈ (old.tree p).1.files → m.root.Encloses q ∧ ∃ x, old.stat q = .ok x :=
    fun q hq => ⟨(Disk.encloses_of_mem_tree h.tidy.proper hp (htree ▸ hq)).1, Disk.exists_stat_of_mem_tree hq⟩
  have hdistinct : ∀ x ∈ (old.tree p).1.files, ∀ y ∈ (old.tree p).1.files, x.same y = true → x = y := by
    have hlisted : d.shared.disk.filesAt p = (old.tree p).1.files := by
      rw [Disk.filesAt, htree, Disk.hasDirectory, hdetached.stat _ h.outside, ← Disk.hasDirectory, if_pos hdir]
    exact hlisted ▸ h.toSeated.distinct_at hp
  rw [hdirs, hfiles, Premises.parcels, ← List.append_assoc]
  rw [hfiles] at htext
  rw [Desk.trackDir, wp_bind]
  refine wp_imp (h.tree htree) (fun tree d₁ hd₁ => ?_) fun _ _ he => he
  obtain ⟨h₁, rfl⟩ := hd₁
  rw [wp_bind]
  refine wp_imp (h₁.adoptDirs (fun x hx => hin x (.inl hx)) fun disk hout x hx => hdetached.listed disk hout x (.inl hx))
    (fun _ d₂ h₂ => ?_) fun _ _ he => he
  rw [wp_bind]
  refine wp_imp (h₂.adoptFiles checks htotal hbase (fun x hx => hin x (.inr hx))
    (fun disk hout x hx => hdetached.listed disk hout x (.inr hx)) hdistinct htext) (fun _ d₃ h₃ => ?_) fun _ _ he => he
  exact (wp_ite _ _).mpr ⟨fun _ => h₃.compile checks, fun _ => (wp_pure _).mpr h₃⟩

/-- The copies of the open documents at and below a path are handed over, in the order of their
    paths. -/
theorem resyncOpen (h : d.Midway m old config l (m.site.Handed cs base)) (hbase : m.site.Tidy base)
    (htext : ∀ q content, l.openText q = some content → text q = content)
    (hshort : ∀ q, l.places q → q.startsWith p = true → l.opens q = true → ∀ n ∈ m.names q, n.utf8ByteSize ≤ maxName) :
    wp (Desk.resyncOpen p) (fun _ => Midway m old config l (m.site.Handed
      (cs ++ m.sheets text (d.workspace.files.filter fun q => q.startsWith p && l.opens q)) base)) E d := by
  rw [Desk.resyncOpen, wp_bind, wp_get]
  refine wp_forM (fun done => Midway m old config l (m.site.Handed
    (cs ++ m.sheets text (done.filter fun q => q.startsWith p && l.opens q)) base)) ?_ fun done x rest d₁ hxs h₁ => ?_
  · rw [List.filter_nil, Premises.sheets, List.flatMap_nil, List.append_nil]
    exact h
  · have hx : l.places x := by
      rw [← h.mem_tracked]
      exact Path.mem_sort.mp (show x ∈ d.workspace.files by simp [hxs])
    rw [wp_bind, wp_get, List.filter_append]
    refine (wp_ite _ _).mpr ⟨fun hcond => ?_, fun hcond => (wp_pure _).mpr ?_⟩
    · rw [h₁.opens] at hcond
      have hboth := Bool.and_eq_true_iff.mp hcond
      obtain ⟨doc, hdoc, hopen⟩ := (Option.any_eq_true _ _).mp hboth.2
      have hhands := h₁.hands (E := E) hbase (h.encloses hx) (hshort x hx hboth.1 hboth.2) hdoc
        (htext x _ (Ledger.openText_of_opens hdoc hopen)).symm
      rwa [List.filter_cons_of_pos (by exact hcond), List.filter_nil, Premises.sheets_concat, ← List.append_assoc]
    · rw [h₁.opens] at hcond
      rw [List.filter_cons_of_neg (by exact hcond), List.filter_nil, List.append_nil]
      exact h₁

end Desk.Midway

end LiveWorkspace
