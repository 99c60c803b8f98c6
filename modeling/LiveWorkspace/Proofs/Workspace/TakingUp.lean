/-
  LiveWorkspace/Proofs/Workspace/TakingUp.lean
  ============================================
  **What is in the replica when paths have been taken up, or copies written again.**

  Taking up a directory copies it without what it holds, and taking up a file writes the text
  of its document; after letting go, the copies of open documents are written again.  Each is
  a loop over paths that puts one entry for each of them, so that in the end it is known what
  is at the names of these paths (`Premises.Put`), whatever the order.  Whether the tree that
  is taken up shows anything of the replica is a matter of links, and excluded
  (`Premises.Detached`).
-/
import LiveWorkspace.Proofs.Workspace.Accounts

namespace LiveWorkspace

/-! ### What is put -/

namespace Site

/-- Entries were put, one after the other, on a disk of which something is known. -/
def Filled (z : Site) (base : Disk → Prop) (put : List String → (Entry → Prop) → Prop) (d : Disk) : Prop :=
  ∃ d₀, base d₀ ∧ z.Fills put d₀ d

/-- A directory with the mode that a path has on a disk. -/
def DirectoryLike (old : Disk) (p : Path) (e : Entry) : Prop := ∃ mode, old.modeOf p = .ok mode ∧ e = .directory mode

/-- A file with the text of a path. -/
def Holding (text : Path → String) (p : Path) : Entry → Prop := FileOf (Text.Utf8.encode (text p))

theorem Holding.isDirectory (text : Path → String) (p : Path) (e : Entry) (h : Holding text p e) : e.isDirectory = false := by
  obtain ⟨mode, rfl⟩ := h
  rfl

theorem holding_congr {text : Path → String} {p q : Path} (h : text p = text q) : Holding text p = Holding text q := by
  rw [Holding, Holding, h]

end Site

namespace Premises

variable {m : Premises} {old : Disk} {like : Path → Entry → Prop} {dirs files dirs' files' S : Path → Prop} {p q : Path}
  {base : Disk → Prop} {disk disk' : Disk} {r : List String} {P : Entry → Prop}

theorem names_congr (m : Premises) (h : p.same q = true) : m.names p = m.names q := by
  rw [names, names, Path.namesBelow, Path.namesBelow, Path.same_iff.mp h]

/-- For some paths directories are put, with the modes that these have, and for others files. -/
def Put (m : Premises) (old : Disk) (like : Path → Entry → Prop) (dirs files : Path → Prop) (r : List String)
    (P : Entry → Prop) : Prop :=
  (∃ p, dirs p ∧ m.names p = r ∧ P = Site.DirectoryLike old p) ∨ ∃ p, files p ∧ m.names p = r ∧ P = like p

/-- Paths with the same names have the same modes, and files are alike. -/
structure Coherent (m : Premises) (old : Disk) (like : Path → Entry → Prop) (dirs files : Path → Prop) : Prop where
  modes : ∀ p q, dirs p → dirs q → m.names p = m.names q → old.modeOf p = old.modeOf q
  alike : ∀ p q, files p → files q → m.names p = m.names q → like p = like q

theorem Coherent.mono (h : m.Coherent old like dirs files) (hdirs : ∀ p, dirs' p → dirs p) (hfiles : ∀ p, files' p → files p) :
    m.Coherent old like dirs' files' :=
  ⟨fun p q hp hq => h.modes p q (hdirs p hp) (hdirs q hq), fun p q hp hq => h.alike p q (hfiles p hp) (hfiles q hq)⟩

theorem put_congr (hdirs : ∀ p, dirs p ↔ dirs' p) (hfiles : ∀ p, files p ↔ files' p) :
    m.Put old like dirs files = m.Put old like dirs' files' := by
  rw [funext fun p => propext (hdirs p), funext fun p => propext (hfiles p)]

/-- As long as nothing is put, the disk is what it was. -/
theorem filled_nothing (hdisk : base disk) (hdirs : ∀ p, ¬ dirs p) (hfiles : ∀ p, ¬ files p) :
    m.site.Filled base (m.Put old like dirs files) disk := by
  refine ⟨disk, hdisk, .refl ?_ disk⟩
  rintro r P (⟨q, hq, -⟩ | ⟨q, hq, -⟩)
  · exact hdirs q hq
  · exact hfiles q hq

/-- A directory is put for one more path. -/
theorem filled_directory (h : m.site.Filled base (m.Put old like dirs files) disk) (hlike : ∀ p e, like p e → e.isDirectory = false)
    (hlands : m.site.Lands (m.names p) (Site.DirectoryLike old p) disk disk')
    (hcoherent : m.Coherent old like (fun q => dirs q ∨ q = p) files) :
    m.site.Filled base (m.Put old like (fun q => dirs q ∨ q = p) files) disk' := by
  obtain ⟨d₀, hbase, hfills⟩ := h
  refine ⟨d₀, hbase, hfills.step hlands (fun X hX => ?_) fun r X => ?_⟩
  · rcases hX with ⟨q, hq, hnames, rfl⟩ | ⟨q, hq, hnames, rfl⟩
    · left
      funext e
      rw [Site.DirectoryLike, Site.DirectoryLike, hcoherent.modes q p (.inl hq) (.inr rfl) hnames]
    · right
      rintro e e' he ⟨_, -, rfl⟩
      rw [hlike q e he]
      simp [Entry.isDirectory]
  · constructor
    · rintro (⟨q, hq | rfl, hnames, rfl⟩ | ⟨q, hq, hnames, rfl⟩)
      · exact .inl (.inl ⟨q, hq, hnames, rfl⟩)
      · exact .inr ⟨hnames.symm, rfl⟩
      · exact .inl (.inr ⟨q, hq, hnames, rfl⟩)
    · rintro ((⟨q, hq, hnames, rfl⟩ | hfile) | ⟨rfl, rfl⟩)
      · exact .inl ⟨q, .inl hq, hnames, rfl⟩
      · exact .inr hfile
      · exact .inl ⟨p, .inr rfl, rfl, rfl⟩

/-- A file is put for a path, and so for all that are other spellings of it. -/
theorem filled_file (h : m.site.Filled base (m.Put old like dirs files) disk) (hlike : ∀ p e, like p e → e.isDirectory = false)
    (hlands : m.site.Lands (m.names p) (like p) disk disk')
    (hself : S p) (hS : ∀ q, S q → m.names q = m.names p)
    (hcoherent : m.Coherent old like dirs (fun q => files q ∨ S q)) :
    m.site.Filled base (m.Put old like dirs (fun q => files q ∨ S q)) disk' := by
  obtain ⟨d₀, hbase, hfills⟩ := h
  have halike : ∀ q, files q ∨ S q → m.names q = m.names p → like q = like p := fun q hq hnames =>
    hcoherent.alike q p hq (.inr hself) hnames
  refine ⟨d₀, hbase, hfills.step hlands (fun X hX => ?_) fun r X => ?_⟩
  · rcases hX with ⟨q, hq, hnames, rfl⟩ | ⟨q, hq, hnames, rfl⟩
    · right
      rintro e e' ⟨_, -, rfl⟩ he'
      rw [hlike p e' he']
      simp [Entry.isDirectory]
    · exact .inl (halike q (.inl hq) hnames)
  · constructor
    · rintro (hdir | ⟨q, hq | hq, hnames, rfl⟩)
      · exact .inl (.inl hdir)
      · exact .inl (.inr ⟨q, hq, hnames, rfl⟩)
      · exact .inr ⟨hnames.symm.trans (hS q hq), halike q (.inr hq) (hS q hq)⟩
    · rintro ((hdir | ⟨q, hq, hnames, rfl⟩) | ⟨rfl, rfl⟩)
      · exact .inl hdir
      · exact .inr ⟨q, .inl hq, hnames, rfl⟩
      · exact .inr ⟨p, .inr hself, rfl, rfl⟩

end Premises

theorem Disk.textOf_congr {d d' : Disk} {p : Path} (h : d'.stat p = d.stat p) : d'.textOf p = d.textOf p := by
  rw [textOf, textOf, read, read, h]

theorem Disk.modeOf_congr {d d' : Disk} {p : Path} (h : d'.stat p = d.stat p) : d'.modeOf p = d.modeOf p := by
  rw [modeOf, modeOf, h]

/-- All files of a list are taken up, one after the other. -/
def Account.takeAll (a : Account) (old : Disk) (ps : List Path) : Account :=
  ps.foldl (fun a p => a.take p (old.textOf p)) a

theorem Account.takeAll_concat (a : Account) (old : Disk) (ps : List Path) (p : Path) :
    a.takeAll old (ps ++ [p]) = (a.takeAll old ps).take p (old.textOf p) := by
  rw [takeAll, takeAll, List.foldl_append]
  rfl

theorem Account.textOr_takeAll (a : Account) (old : Disk) (ps : List Path) (q : Path) (text : String) :
    (a.takeAll old ps).textOr q text = a.textOr q text := by
  induction ps generalizing a with
  | nil => rfl
  | cons p rest ih => exact (ih (a.take p (old.textOf p))).trans (a.textOr_take p _ q text)

theorem Account.opens_takeAll (a : Account) (old : Disk) (ps : List Path) (q : Path) :
    (a.takeAll old ps).opens q = a.opens q := by
  induction ps generalizing a with
  | nil => rfl
  | cons p rest ih => exact (ih (a.take p (old.textOf p))).trans (a.opens_take p _ q)

theorem Account.tracks_takeAll (a : Account) (old : Disk) (ps : List Path) (q : Path) :
    (a.takeAll old ps).tracks q = (a.tracks q || ps.any (·.same q)) := by
  induction ps generalizing a with
  | nil => rw [List.any_nil, Bool.or_false]; rfl
  | cons p rest ih =>
    rw [List.any_cons, ← Bool.or_assoc]
    exact ih (a.take p (old.textOf p))

/-- The files that are taken up with a path. -/
def Disk.filesAt (d : Disk) (p : Path) : List Path := if d.hasDirectory p then (d.tree p).1.files else [p]

/-- The directories that are taken up with a path. -/
def Disk.dirsAt (d : Disk) (p : Path) : List Path := if d.hasDirectory p then (d.tree p).1.dirs else []

namespace Desk

/-- In the midst of an event directories are put for some paths, and for others files with
    their texts. -/
abbrev Putting (m : Premises) (since : Shared) (a : Account) (base : Disk → Prop) (text : Path → String)
    (dirs files : Path → Prop) : Desk → Prop :=
  Amid m since a (m.site.Filled base (m.Put since.disk (Site.Holding text) dirs files))

/-- When an event comes, nothing has been put yet. -/
theorem Seated.putting {m : Premises} {d : Desk} (h : d.Seated m) (text : Path → String) :
    d.Putting m d.shared d.account (· = d.shared.disk) text (fun _ => False) fun _ => False :=
  h.amid.imp fun _ _ heq => Premises.filled_nothing heq (fun _ => id) fun _ => id

end Desk

namespace Desk.Amid

variable {m : Premises} {since : Shared} {a : Account} {d : Desk} {p q : Path} {text : Path → String}
  {dirs files : Path → Prop} {base D D' : Disk → Prop} {E : Crash → Desk → Prop}

/-! ### One path -/

/-- The copy of a document is written. -/
theorem puts (h : d.Putting m since a base text dirs files) (hp : m.root.Encloses p)
    {isOpen : Bool} (hrecord : a.record p = some (text p, isOpen)) {S : Path → Prop} (hself : S p)
    (hS : ∀ q, S q → m.names q = m.names p) (hcoherent : m.Coherent since.disk (Site.Holding text) dirs fun q => files q ∨ S q) :
    wp (Desk.syncReplica p)
      (fun _ => Amid m since a (m.site.Filled base (m.Put since.disk (Site.Holding text) dirs fun q => files q ∨ S q))) E d :=
  h.syncReplica hp hrecord fun _ _ _ hfilled hlands =>
    Premises.filled_file hfilled (Site.Holding.isDirectory text) (hlands.imp fun _ hwritten => hwritten.fileOf) hself hS hcoherent

/-- A directory is put, or a failure is reported. -/
theorem adoptDir (h : d.Amid m since a D) (hp : m.root.Encloses p)
    (hD : ∀ disk disk', m.site.Kempt since.disk disk → D disk →
      m.site.Lands (m.names p) (Site.DirectoryLike disk p) disk disk' → D' disk') :
    wp (Desk.adoptDir p) (fun _ => Amid m since a D') E d := by
  have hspells := Premises.spells_copyOf hp
  have hput : ∀ (u : Unit) disk, D d.shared.disk →
      (do Replica.createDir (m.copyOf p) (← Replica.modeOf p) : ReplicaOp Unit) d.shared.disk = .ok u disk → D' disk := by
    intro u disk hdisk hadopt
    obtain ⟨mode, hmode, hlands⟩ := h.tidy.stands.adopt_lands hspells hadopt
    exact hD _ _ h.kempt hdisk (hlands.imp fun e he => ⟨mode, hmode, he⟩)
  rw [Desk.adoptDir, wp_bind, wp_get]
  simp only [h.replicaPath_eq]
  rw [wp_bind]
  refine wp_imp (h.onReplica (by decide) (Site.work_kempt hspells (.adopt p) since.disk) hput) (fun _ d' hd' => ?_)
    fun _ _ he => he
  rw [wp_modify]
  exact { hd'.1 with root := hd'.1.root }

variable (checks : Checkers)

/-- A file is taken up with the text that the disk has, and its copy is written, or a failure
    is reported. -/
theorem adoptFile (htotal : checks.Total) (h : d.Amid m since a D) (hp : m.root.Encloses p) {found : String}
    (hfound : d.shared.disk.textOf p = found)
    (hD : ∀ disk disk', m.site.Kempt since.disk disk → D disk →
      m.site.Lands (m.names p) (m.site.Written disk (m.names p) (Text.Utf8.encode (a.textOr p found))) disk disk' → D' disk') :
    wp (Desk.adoptFile checks p) (fun _ => Amid m since (a.take p found) D') E d := by
  rw [Desk.adoptFile, wp_bind]
  refine wp_imp (h.trackFile hp hfound) (fun _ d₁ h₁ => ?_) fun _ _ he => he
  rw [wp_bind]
  refine wp_imp (h₁.syncReplica hp (a.record_take_self p found) hD) (fun _ d₂ h₂ => ?_) fun _ _ he => he
  rw [wp_bind]
  refine wp_imp (((amid_calm _ _ _ _).check_keeps checks p).unbroken (onShared_ends (Shared.check_ends checks htotal p)) h₂)
    (fun _ d₃ h₃ => (wp_pure _).mpr h₃) fun _ _ he => he

/-! ### Whole trees -/

theorem tree (h : d.Amid m since a D) (htree : d.shared.disk.tree p = since.disk.tree p) :
    wp (liftM (Shared.tree p) : Act Desk Tree) (fun tree d' => d'.Amid m since a D ∧ tree = (since.disk.tree p).1) E d := by
  have hcalm := (amid_calm m since a D).shared d.workspace
  have hreports := Preserves.forM (d.shared.disk.tree p).2 fun r _ => hcalm.report_keeps r
  rw [wp_onShared, Shared.tree, wp_bind, wp_get, wp_bind]
  refine wp_imp (hreports.unbroken (Unbroken.forM _ Shared.report_ends) h) (fun _ s hs => ?_) fun _ _ he => he
  exact (wp_pure _).mpr ⟨hs, congrArg Prod.fst htree⟩

section Lists

variable {ps : List Path} (hin : ∀ x ∈ ps, m.root.Encloses x)
  (hstat : ∀ x ∈ ps, ∀ disk, Disk.SameOutside m.site.zone since.disk disk → disk.stat x = since.disk.stat x)
include hin hstat

/-- The directories of a list are put one after the other. -/
theorem adoptDirs (h : d.Putting m since a base text dirs files)
    (hcoherent : m.Coherent since.disk (Site.Holding text) (fun q => dirs q ∨ q ∈ ps) files) :
    wp (ps.forM Desk.adoptDir) (fun _ => Putting m since a base text (fun q => dirs q ∨ q ∈ ps) files) E d := by
  refine wp_forM (fun done => Putting m since a base text (fun q => dirs q ∨ q ∈ done) files) ?_
    fun done x rest d₁ hxs h₁ => ?_
  · simpa only [List.not_mem_nil, or_false] using h
  · have hx : x ∈ ps := by simp [hxs]
    have hnext : ∀ q, (dirs q ∨ q ∈ done) ∨ q = x ↔ dirs q ∨ q ∈ done ++ [x] := by simp [or_assoc]
    refine wp_imp (h₁.adoptDir (hin x hx) fun disk _ hkempt hfilled hlands => ?_) (fun _ d₂ h₂ => h₂) fun _ _ he => he
    rw [← Premises.put_congr hnext fun _ => Iff.rfl]
    refine Premises.filled_directory hfilled (Site.Holding.isDirectory text) (hlands.imp fun e he => ?_)
      (hcoherent.mono (fun q hq => ((hnext q).mp hq).imp_right fun hq => ?_) fun _ => id)
    · rwa [Site.DirectoryLike, Disk.modeOf_congr (hstat x hx disk hkempt.outside)] at he
    · rw [hxs, List.append_cons]
      exact List.mem_append_left rest hq

/-- The files of a list are taken up one after the other. -/
theorem adoptFiles (htotal : checks.Total) (h : d.Putting m since a base text dirs files)
    (htext : ∀ q ∈ ps, text q = a.textOr q (since.disk.textOf q))
    (hcoherent : m.Coherent since.disk (Site.Holding text) dirs fun q => files q ∨ q ∈ ps) :
    wp (ps.forM (Desk.adoptFile checks))
      (fun _ => Putting m since (a.takeAll since.disk ps) base text dirs fun q => files q ∨ q ∈ ps) E d := by
  refine wp_forM (fun done => Putting m since (a.takeAll since.disk done) base text dirs fun q => files q ∨ q ∈ done) ?_
    fun done x rest d₁ hxs h₁ => ?_
  · simpa only [Account.takeAll, List.foldl_nil, List.not_mem_nil, or_false] using h
  · have hx : x ∈ ps := by simp [hxs]
    have hnext : ∀ q, (files q ∨ q ∈ done) ∨ q = x ↔ files q ∨ q ∈ done ++ [x] := by simp [or_assoc]
    have hx' : text x = (a.takeAll since.disk done).textOr x (since.disk.textOf x) := by
      rw [Account.textOr_takeAll, htext x hx]
    have hfound := Disk.textOf_congr (hstat x hx _ h₁.outside)
    unfold Putting
    rw [Account.takeAll_concat, ← Premises.put_congr (fun _ => Iff.rfl) hnext]
    refine h₁.adoptFile checks htotal (hin x hx) hfound fun _ _ _ hfilled hlands => ?_
    refine Premises.filled_file hfilled (Site.Holding.isDirectory text) (hlands.imp fun _ hwritten => ?_) rfl
      (fun q hq => by rw [hq]) (hcoherent.mono (fun _ => id) fun q hq => ((hnext q).mp hq).imp_right fun hq => ?_)
    · rw [Site.Holding, hx']
      exact hwritten.fileOf
    · rw [hxs, List.append_cons]
      exact List.mem_append_left rest hq

end Lists

/-- A directory is taken up with all below it. -/
theorem trackDir (htotal : checks.Total) (h : d.Putting m since a base text dirs files)
    (hp : m.root.Encloses p) (htree : d.shared.disk.tree p = since.disk.tree p)
    (hlisted : ∀ disk, Disk.SameOutside m.site.zone since.disk disk →
      ∀ q, q ∈ (since.disk.tree p).1.dirs ∨ q ∈ (since.disk.tree p).1.files → disk.stat q = since.disk.stat q)
    (htext : ∀ q ∈ (since.disk.tree p).1.files, text q = a.textOr q (since.disk.textOf q))
    (hcoherent : m.Coherent since.disk (Site.Holding text) (fun q => dirs q ∨ q ∈ (since.disk.tree p).1.dirs)
      fun q => files q ∨ q ∈ (since.disk.tree p).1.files) :
    wp (Desk.trackDir checks p) (fun _ => Amid m since (a.takeAll since.disk (since.disk.tree p).1.files)
      (m.site.Filled base (m.Put since.disk (Site.Holding text) (fun q => dirs q ∨ q ∈ (since.disk.tree p).1.dirs)
        fun q => files q ∨ q ∈ (since.disk.tree p).1.files))) E d := by
  have hin : ∀ q, q ∈ (since.disk.tree p).1.dirs ∨ q ∈ (since.disk.tree p).1.files → m.root.Encloses q := fun q hq =>
    (Disk.encloses_of_mem_tree h.tidy.proper hp (htree ▸ hq)).1
  rw [Desk.trackDir, wp_bind]
  refine wp_imp (h.tree htree) (fun tree d₁ hd₁ => ?_) fun _ _ he => he
  obtain ⟨h₁, rfl⟩ := hd₁
  rw [wp_bind]
  refine wp_imp (adoptDirs (fun q hq => hin q (.inl hq)) (fun q hq disk hout => hlisted disk hout q (.inl hq)) h₁
    (hcoherent.mono (fun _ => id) fun _ => .inl)) (fun _ d₂ h₂ => ?_) fun _ _ he => he
  rw [wp_bind]
  refine wp_imp (adoptFiles checks (fun q hq => hin q (.inr hq)) (fun q hq disk hout => hlisted disk hout q (.inr hq))
    htotal h₂ htext hcoherent) (fun _ d₃ h₃ => ?_) fun _ _ he => he
  refine (wp_ite _ _).mpr ⟨fun _ => ?_, fun _ => (wp_pure _).mpr h₃⟩
  exact ((amid_calm _ _ _ _).compile_keeps checks (amid_records _ _ _ _)).unbroken (compile_ends checks) h₃

/-! ### Single paths -/

/-- A file that has come gets its copy, with its mode, or a failure is reported. -/
theorem createdFile (htotal : checks.Total) (h : d.Amid m since a D) (hp : m.root.Encloses p) {loc : Location} {e : Entry}
    (hstat : d.shared.disk.stat p = .ok (loc, e)) (he : e.isDirectory = false) {found : String}
    (hfound : d.shared.disk.textOf p = found)
    (hD : ∀ disk disk', m.site.Kempt since.disk disk → D disk →
      m.site.Lands (m.names p) (· = .file (Text.Utf8.encode (a.textOr p found)) e.mode) disk disk' → D' disk') :
    wp (created checks p) (fun _ => Amid m since (a.take p found) D') E d := by
  have hspells := Premises.spells_copyOf hp
  rw [created, wp_bind, wp_get, hstat]
  show wp (if e.isDirectory then Desk.trackDir checks p else do
    Desk.trackFile p
    let target := (← get).workspace.replicaPath p
    let made ← Desk.onReplica (do Replica.ensureParent target; Replica.createEmptyFile target (some e.mode))
      "Failed to create mirror file"
    if made then
      Desk.syncReplica p
      diagnose checks p) _ E d
  rw [he, if_neg Bool.false_ne_true, wp_bind]
  refine wp_imp (h.trackFile hp hfound) (fun _ d₁ h₁ => ?_) fun _ _ he => he
  rw [wp_bind, wp_get, wp_bind, h₁.replicaPath_eq]
  -- The file is made with its mode first, and keeps it when it is written.
  have hmake : ∀ (u : Unit) disk', D d₁.shared.disk →
      (do Replica.ensureParent (m.copyOf p); Replica.createEmptyFile (m.copyOf p) (some e.mode) : ReplicaOp Unit)
        d₁.shared.disk = .ok u disk' →
      ∃ disk, m.site.Kempt since.disk disk ∧ D disk ∧ m.site.Lands (m.names p) (· = .file [] e.mode) disk disk' := by
    intro u disk' hdisk hmade
    exact ⟨_, h₁.kempt, hdisk, h₁.tidy.stands.create_lands hspells hmade⟩
  refine wp_imp (h₁.onReplica (by decide) (Site.work_kempt hspells (.create _) since.disk) hmake) (fun made d₂ hd₂ => ?_)
    fun _ _ he => he
  obtain ⟨h₂, hfailed⟩ := hd₂
  cases made with
  | false =>
    rw [if_neg Bool.false_ne_true, wp_pure]
    exact { h₂ with filled := fun hnone => absurd hnone (Nat.ne_of_gt (hfailed rfl)) }
  | true =>
    rw [if_pos rfl, wp_bind]
    have hwrite : wp (Desk.syncReplica p) (fun _ => Amid m since (a.take p found) D') E d₂ := by
      apply h₂.syncReplica hp (a.record_take_self p found)
      rintro disk disk' - ⟨before, hkempt, hbefore, hlands⟩ hwritten
      refine hD before disk' hkempt hbefore (hlands.trans (hwritten.imp ?_))
      rintro e' ⟨mode', rfl, hkept⟩
      obtain ⟨e₀, he₀, rfl⟩ := hlands.there
      rw [hkept _ _ he₀]
    refine wp_imp hwrite (fun _ d₃ h₃ => ?_) fun _ _ he => he
    exact ((amid_calm _ _ _ _).diagnose_keeps checks (amid_records _ _ _ _) p).unbroken (diagnose_ends checks htotal p) h₃

theorem wp_created_directory {Q : Unit → Desk → Prop} (hdir : d.shared.disk.hasDirectory p = true)
    (h : wp (Desk.trackDir checks p) Q E d) : wp (created checks p) Q E d := by
  rw [created, wp_bind, wp_get]
  rw [Disk.hasDirectory] at hdir
  cases hstat : d.shared.disk.stat p with
  | error err =>
    rw [hstat] at hdir
    cases hdir
  | ok x =>
    obtain ⟨loc, e⟩ := x
    rw [hstat] at hdir
    cases e with
    | directory mode => exact h
    | file content mode => cases hdir
    | link target => cases hdir

/-- A directory is taken up as what is at it and below it. -/
theorem directoryAt (htotal : checks.Total) (h : d.Putting m since a base text dirs files) (hp : m.root.Encloses p)
    (htree : d.shared.disk.tree p = since.disk.tree p) (hdir : since.disk.hasDirectory p = true)
    (hlisted : ∀ disk, Disk.SameOutside m.site.zone since.disk disk →
      ∀ q, q ∈ since.disk.dirsAt p ∨ q ∈ since.disk.filesAt p → disk.stat q = since.disk.stat q)
    (htext : ∀ q ∈ since.disk.filesAt p, text q = a.textOr q (since.disk.textOf q))
    (hcoherent : m.Coherent since.disk (Site.Holding text) (fun q => dirs q ∨ q ∈ since.disk.dirsAt p)
      fun q => files q ∨ q ∈ since.disk.filesAt p) :
    wp (Desk.trackDir checks p) (fun _ => Putting m since (a.takeAll since.disk (since.disk.filesAt p)) base text
      (fun q => dirs q ∨ q ∈ since.disk.dirsAt p) fun q => files q ∨ q ∈ since.disk.filesAt p) E d := by
  have hdirs : since.disk.dirsAt p = (since.disk.tree p).1.dirs := by rw [Disk.dirsAt, if_pos hdir]
  have hfiles : since.disk.filesAt p = (since.disk.tree p).1.files := by rw [Disk.filesAt, if_pos hdir]
  rw [hdirs, hfiles] at hlisted hcoherent ⊢
  rw [hfiles] at htext
  exact h.trackDir checks htotal hp htree hlisted htext hcoherent

/-- What has come is put into the replica, and a file of its own has its mode there. -/
theorem created_puts (htotal : checks.Total) (h : d.Putting m since a base text dirs files) (hp : m.root.Encloses p)
    (hstat : d.shared.disk.stat p = since.disk.stat p) (htree : d.shared.disk.tree p = since.disk.tree p)
    (hpath : since.disk.hasPath p = true)
    (hlisted : ∀ disk, Disk.SameOutside m.site.zone since.disk disk →
      ∀ q, q ∈ since.disk.dirsAt p ∨ q ∈ since.disk.filesAt p → disk.stat q = since.disk.stat q)
    (htext : ∀ q ∈ since.disk.filesAt p, text q = a.textOr q (since.disk.textOf q))
    (hcoherent : m.Coherent since.disk (Site.Holding text) (fun q => dirs q ∨ q ∈ since.disk.dirsAt p)
      fun q => files q ∨ q ∈ since.disk.filesAt p) :
    wp (created checks p) (fun _ => Amid m since (a.takeAll since.disk (since.disk.filesAt p))
      fun disk => m.site.Filled base (m.Put since.disk (Site.Holding text) (fun q => dirs q ∨ q ∈ since.disk.dirsAt p)
          fun q => files q ∨ q ∈ since.disk.filesAt p) disk
        ∧ ∀ loc content mode, since.disk.stat p = .ok (loc, .file content mode) →
          ∃ content', m.site.entry disk (m.names p) = some (.file content' mode)) E d := by
  cases hdir : since.disk.hasDirectory p with
  | true =>
    have hdir' : d.shared.disk.hasDirectory p = true := by rw [Disk.hasDirectory, hstat, ← Disk.hasDirectory, hdir]
    apply wp_created_directory checks hdir'
    refine wp_imp (h.directoryAt checks htotal hp htree hdir hlisted htext hcoherent) (fun _ d' h' => ?_) fun _ _ he => he
    refine h'.imp fun disk _ hfilled => ⟨hfilled, fun loc content mode hfound => ?_⟩
    rw [Disk.hasDirectory, hfound] at hdir
    cases hdir
  | false =>
    obtain ⟨loc, e, hfound⟩ := Disk.exists_stat_of_hasPath hpath
    have he : e.isDirectory = false := by
      rw [Disk.hasDirectory, hfound] at hdir
      exact hdir
    have hdirs : since.disk.dirsAt p = [] := by rw [Disk.dirsAt, hdir, if_neg Bool.false_ne_true]
    have hfiles : since.disk.filesAt p = [p] := by rw [Disk.filesAt, hdir, if_neg Bool.false_ne_true]
    rw [hdirs, hfiles] at hcoherent ⊢
    have hnone : ∀ q, dirs q ↔ dirs q ∨ q ∈ [] := by simp
    have hone : ∀ q, files q ∨ q = p ↔ files q ∨ q ∈ [p] := by simp
    rw [← Premises.put_congr hnone hone]
    refine h.createdFile checks htotal hp (hstat.trans hfound) he (Disk.textOf_congr hstat) fun disk disk' _ hfilled hlands => ?_
    rw [← htext p (by rw [hfiles]; exact List.mem_singleton_self p)] at hlands
    constructor
    · exact Premises.filled_file hfilled (Site.Holding.isDirectory text) (hlands.imp fun e' he' => ⟨e.mode, he'⟩) rfl
        (fun q hq => by rw [hq]) (hcoherent.mono (fun q => (hnone q).mp) fun q => (hone q).mp)
    · intro loc' content mode hfound'
      rw [hfound] at hfound'
      cases hfound'
      obtain ⟨e', he', rfl⟩ := hlands.there
      exact ⟨_, he'⟩

/-! ### What is open -/

/-- The copies of the open documents at and below a path are written again. -/
theorem resyncOpen (h : d.Putting m since a base text dirs files)
    (htext : ∀ q, a.opens q = true → a.record q = some (text q, true))
    (hcoherent : m.Coherent since.disk (Site.Holding text) dirs
      fun q => files q ∨ a.tracks q = true ∧ q.startsWith p = true ∧ a.opens q = true) :
    wp (Desk.resyncOpen p) (fun _ => Amid m since a (m.site.Filled base (m.Put since.disk (Site.Holding text) dirs
      fun q => files q ∨ a.tracks q = true ∧ q.startsWith p = true ∧ a.opens q = true))) E d := by
  -- After some of the tracked paths, the copies are written of what is spelled by one of them.
  have hdone : ∀ done q, (∃ x ∈ done, x.same q = true) ∧ q.startsWith p = true ∧ a.opens q = true →
      done <+: d.workspace.files → a.tracks q = true ∧ q.startsWith p = true ∧ a.opens q = true := by
    rintro done q ⟨⟨x, hx, hsame⟩, hq⟩ hpre
    refine ⟨?_, hq⟩
    rw [← h.tracks]
    exact List.any_eq_true.mpr ⟨x, Path.mem_sort.mp (hpre.mem hx), hsame⟩
  rw [Desk.resyncOpen, wp_bind, wp_get]
  refine wp_imp (wp_forM (fun done => Amid m since a (m.site.Filled base (m.Put since.disk (Site.Holding text) dirs
    fun q => files q ∨ (∃ x ∈ done, x.same q = true) ∧ q.startsWith p = true ∧ a.opens q = true))) ?_
    fun done x rest d₁ hxs h₁ => ?_) (fun _ d₁ h₁ => ?_) fun _ _ he => he
  · simpa only [List.not_mem_nil, false_and, exists_false, or_false] using h
  · have hpre : done ++ [x] <+: d.workspace.files := ⟨rest, by rw [hxs, List.append_assoc]; rfl⟩
    have hx : x ∈ d.workspace.files := hpre.mem (by simp)
    have hin := h.below x (Path.mem_sort.mp hx)
    have hsplit : ∀ q, (files q ∨ (∃ y ∈ done, y.same q = true) ∧ q.startsWith p = true ∧ a.opens q = true)
        ∨ (x.same q = true ∧ q.startsWith p = true ∧ a.opens q = true)
        ↔ files q ∨ (∃ y ∈ done ++ [x], y.same q = true) ∧ q.startsWith p = true ∧ a.opens q = true := by
      intro q
      simp only [List.mem_append, List.mem_singleton, or_and_right, exists_or, exists_eq_left, or_assoc]
    rw [wp_bind, wp_get]
    refine (wp_ite _ _).mpr ⟨fun hcond => ?_, fun hcond => (wp_pure _).mpr ?_⟩
    · rw [Bool.and_eq_true, h₁.opens] at hcond
      have hputs := h₁.puts (E := E) hin (htext x hcond.2)
        (S := fun q => x.same q = true ∧ q.startsWith p = true ∧ a.opens q = true) ⟨Path.same_refl x, hcond⟩
        (fun q hq => (m.names_congr hq.1).symm) (hcoherent.mono (fun _ hq => hq) fun q hq => ?_)
      · rwa [Premises.put_congr (fun _ => Iff.rfl) hsplit] at hputs
      · exact ((hsplit q).mp hq).imp_right fun hq => hdone _ q hq hpre
    · rw [Bool.and_eq_true, h₁.opens] at hcond
      rw [Premises.put_congr (fun _ => Iff.rfl) fun q => (hsplit q).symm]
      have hnone : ∀ q, ¬ (x.same q = true ∧ q.startsWith p = true ∧ a.opens q = true) := by
        rintro q ⟨hsame, hstarts, hopen⟩
        exact hcond ⟨(Path.startsWith_congr hsame).trans hstarts, (h.opens_same hsame).symm.trans hopen⟩
      simpa only [hnone, or_false] using h₁
  · have hall : ∀ q, files q ∨ (∃ x ∈ d.workspace.files, x.same q = true) ∧ q.startsWith p = true ∧ a.opens q = true
        ↔ files q ∨ a.tracks q = true ∧ q.startsWith p = true ∧ a.opens q = true := by
      intro q
      rw [← h.tracks, Workspace.tracks, List.any_eq_true]
      simp only [Workspace.files, Path.mem_sort]
    rwa [Premises.put_congr (fun _ => Iff.rfl) hall] at h₁

end Desk.Amid

end LiveWorkspace
