/-
  LiveWorkspace/Proofs/Workspace/Repeating.lean
  =============================================
  **An event that is handled twice leaves what it leaves when it is handled once.**

  The disk is watched by several watchers, so that one change may be told of more than once.
  When an event is handled again, its handler finds what it has left the first time: the
  documents it has entered, the copies it has moved or taken away, and those it has written again.
  It does the same errand with them (`Desk.Amounts`), and hands over the same parcels, so that
  nothing changes any more (`Desk.Poised.same_of_twice`).
-/
import LiveWorkspace.Proofs.Workspace.Errands

namespace LiveWorkspace

/-! ### Errands that are done again -/

namespace Errand

variable {checks : Checkers} {e : Errand} {l l' : Ledger} {ps : List Path}

theorem openText_after (checks : Checkers) (e : Errand) (l : Ledger) : (e.after checks l).openText = l.openText := by
  rw [after, Ledger.openText_adopted e.closed, kept]
  split
  · rfl
  · exact l.openText_letGo _

/-- An errand is done where the same texts are open as somewhere else, and will leave the same paths
    tracked. -/
structure Resumes (checks : Checkers) (e : Errand) (l l' : Ledger) : Prop where
  openText : l'.openText = l.openText
  places : ∀ q, (e.after checks l').places q ↔ (e.after checks l).places q

namespace Resumes

theorem refl (checks : Checkers) (e : Errand) (l : Ledger) : e.Resumes checks l l := ⟨rfl, fun _ => Iff.rfl⟩

theorem opens (h : e.Resumes checks l l') (q : Path) : l'.opens q = l.opens q := by
  rw [Ledger.opens_eq_openText, Ledger.opens_eq_openText, h.openText]

theorem shown (h : e.Resumes checks l l') (fresh : Path → Document) : l'.shown fresh = l.shown fresh :=
  Ledger.shown_congr h.openText

theorem lists (h : e.Resumes checks l l') (hlists : (e.after checks l').Lists ps) : (e.after checks l).Lists ps := by
  obtain ⟨qs, hapart, hmem, heq⟩ := hlists
  exact ⟨qs, hapart, fun q => (hmem q).trans (h.places q), heq⟩

end Resumes

theorem resumes_after (checks : Checkers) (e : Errand) (l : Ledger) : e.Resumes checks l (e.after checks l) :=
  ⟨openText_after checks e l, places_again (fun _ => Iff.rfl) (opens_after checks e l)⟩

theorem resumes_reviewed (checks : Checkers) (e : Errand) (l : Ledger) (ps : List Path) :
    e.Resumes checks l ((e.after checks l).reviewed checks ps) := by
  refine ⟨(Ledger.openText_reviewed checks _ ps).trans (openText_after checks e l), places_again (fun _ => Iff.rfl) fun q => ?_⟩
  rw [Ledger.opens_reviewed, opens_after]

end Errand

/-- The errand of an event: what is let go, and what is taken up as it is found on a disk. -/
def Premises.errand (m : Premises) (old : Disk) (gone : Option Path) (files : List Path) (checked : Bool)
    (h : ∀ p ∈ files, ∀ q ∈ files, p.same q = true → p = q) : Errand where
  gone := gone
  files := files
  fresh := m.fresh old
  checked := checked
  distinct := h
  closed _ := rfl

namespace Desk

variable {m : Premises} {old : Disk} {checks : Checkers} {l : Ledger} {act : Act Desk Unit} {e : Errand}
  {R : Disk → Disk → Prop} {d d' : Desk} {p q : Path} {event : Watch.Event}

/-- Two desks have the same documents, tracked paths and configuration, and show the same in the
    replica. -/
structure Same (m : Premises) (d d' : Desk) : Prop where
  documents : ∀ q, d'.shared.store.get? q = d.shared.store.get? q
  tracked : ∀ q, q ∈ d'.workspace.tracked ↔ q ∈ d.workspace.tracked
  config : d'.workspace.config = d.workspace.config
  replica : m.site.Looks d.shared.disk d'.shared.disk

/-- What a handler comes down to, as often as it is called: an errand, and what becomes of the
    replica, which is nothing any more the second time. -/
structure Amounts (m : Premises) (old : Disk) (checks : Checkers) (l : Ledger) (act : Act Desk Unit) (e : Errand)
    (R : Disk → Disk → Prop) : Prop where
  runs : ∀ {l' config base d}, e.Resumes checks l l' → (∀ p, m.root.Encloses p → l'.Knows p) → (base = old ∨ R old base) →
    d.Midway m old config l' (· = base) →
      wp act (fun _ => Midway m old config (e.after checks l') (R base)) (fun _ _ => False) d
  steady : ∀ {d₁ d₂}, R old d₁ → R d₁ d₂ → m.site.Looks d₁ d₂

/-- Between two events: the workspace is in its place, no path is tracked under two spellings, and
    what has a document is tracked. -/
structure Poised (m : Premises) (d : Desk) : Prop extends Seated m d where
  apart : Path.Apart d.workspace.tracked
  known : ∀ p, m.root.Encloses p → d.ledger.Knows p

theorem Poised.midway (h : d.Poised m) : d.Midway m d.shared.disk d.workspace.config d.ledger (· = d.shared.disk) :=
  { h.toSeated with outside := .refl _ _, ledger := rfl, apart := h.apart, config := rfl, disk := rfl }

/-- What handling an event leaves: the errand of its handler is done, or moreover the configuration
    has been read again and all documents have been checked. -/
inductive Left (m : Premises) (old : Disk) (checks : Checkers) (event : Watch.Event) (config : ProjectConfig) (l : Ledger)
    (D : Disk → Prop) (d : Desk) : Prop
  | spared (hspares : (event.path.isConfigFile || event.source.any Path.isConfigFile) = false)
      (hd : d.Midway m old config l D)
  | configured (hconfigures : (event.path.isConfigFile || event.source.any Path.isConfigFile) = true) (ps : List Path)
      (hps : l.Lists ps) (hd : d.Midway m old (Midway.reloaded m l ps) (l.reviewed checks ps) D)

theorem Amounts.leaves {l' : Ledger} {base : Disk} {config : ProjectConfig} (htotal : checks.Total)
    (h : Amounts m old checks l (handler checks event) e R) (hclosed : d.shared.store.isOpen event.path = false)
    (hresumes : e.Resumes checks l l') (hknown : ∀ p, m.root.Encloses p → l'.Knows p) (hbase : base = old ∨ R old base)
    (hd : d.Midway m old config l' (· = base)) :
    ∃ d', onDiskEvent checks event d = .ok () d' ∧ Left m old checks event config (e.after checks l') (R base) d' := by
  have hrun : wp (onDiskEvent checks event) (fun _ => Left m old checks event config (e.after checks l') (R base))
      (fun _ _ => False) d := by
    refine wp_onDiskEvent_ends checks hclosed (fun d' h' => ?_) (h.runs hresumes hknown hbase hd)
    refine (wp_ite _ _).mpr ⟨fun hconfigures => ?_, fun hspares => (wp_pure _).mpr (.spared (by simpa using hspares) h')⟩
    exact wp_imp (h'.reloadConfig checks htotal) (fun _ d'' h'' => .configured hconfigures _ h'.lists h''.2) fun _ _ he => he
  exact exists_ok_of_wp hrun

/-- **What a handler comes down to changes nothing the second time.** -/
theorem Amounts.twice (htotal : checks.Total) (h : Amounts m d.shared.disk checks d.ledger (handler checks event) e R)
    (hd : d.Poised m) (hclosed : d.shared.store.isOpen event.path = false)
    (hstill : ∀ d₁, onDiskEvent checks event d = .ok () d₁ → d₁.Poised m) :
    ∃ d₁ d₂, onDiskEvent checks event d = .ok () d₁ ∧ onDiskEvent checks event d₁ = .ok () d₂ ∧ Same m d₁ d₂ := by
  obtain ⟨d₁, hrun₁, hleft₁⟩ := h.leaves htotal hclosed (.refl checks e d.ledger) hd.known (.inl rfl) hd.midway
  have hpoised := hstill d₁ hrun₁
  -- It is the same event, so that the configuration is read again both times, or not at all.
  have hsame : ∀ {d₂ : Desk} {config config' l₁ l₂ D}, d₁.Midway m d.shared.disk config l₁ (R d.shared.disk) →
      d₂.Midway m d.shared.disk config' l₂ D → l₂ = l₁ → config' = config →
        m.site.Looks d₁.shared.disk d₂.shared.disk → Same m d₁ d₂ := by
    rintro d₂ config config' l₁ l₂ D h₁ h₂ rfl rfl hlooks
    exact ⟨fun q => by rw [h₁.get?, h₂.get?], fun q => by rw [h₁.mem_tracked, h₂.mem_tracked],
      by rw [h₁.config, h₂.config], hlooks⟩
  have hopen₁ : ∀ {config l₁}, d₁.Midway m d.shared.disk config l₁ (R d.shared.disk) → e.Resumes checks d.ledger l₁ →
      d₁.shared.store.isOpen event.path = false := by
    intro config l₁ h₁ hresumes
    rw [h₁.opens, hresumes.opens]
    exact hclosed
  have hknown₁ : ∀ {config l₁ D}, d₁.Midway m d.shared.disk config l₁ D → ∀ p, m.root.Encloses p → l₁.Knows p := by
    intro config l₁ D h₁ p hp
    rw [← h₁.ledger]
    exact hpoised.known p hp
  cases hleft₁ with
  | spared hspares h₁ =>
    have hresumes := e.resumes_after checks d.ledger
    obtain ⟨d₂, hrun₂, hleft₂⟩ := h.leaves htotal (hopen₁ h₁ hresumes) hresumes (hknown₁ h₁) (.inr h₁.disk)
      { h₁ with disk := rfl }
    cases hleft₂ with
    | spared _ h₂ => exact ⟨d₁, d₂, hrun₁, hrun₂, hsame h₁ h₂ (e.after_after checks d.ledger) rfl (h.steady h₁.disk h₂.disk)⟩
    | configured hconfigures =>
      rw [hspares] at hconfigures
      cases hconfigures
  | configured hconfigures ps hps h₁ =>
    have hresumes := e.resumes_reviewed checks d.ledger ps
    obtain ⟨d₂, hrun₂, hleft₂⟩ := h.leaves htotal (hopen₁ h₁ hresumes) hresumes (hknown₁ h₁) (.inr h₁.disk)
      { h₁ with disk := rfl }
    cases hleft₂ with
    | spared hspares =>
      rw [hconfigures] at hspares
      cases hspares
    | configured _ ps' hps' h₂ =>
      obtain rfl := hps.unique (hresumes.lists hps') fun _ => Iff.rfl
      have hledger := e.after_reviewed checks d.ledger ps'
      refine ⟨d₁, d₂, hrun₁, hrun₂, hsame h₁ h₂ hledger ?_ (h.steady h₁.disk h₂.disk)⟩
      rw [Midway.reloaded, Midway.reloaded]
      have hcontents : ∀ l : Ledger, ((l.reviewed checks ps').documents (m.root.child configFileName)).map (·.content)
          = (l.documents (m.root.child configFileName)).map (·.content) := by
        intro l
        show ((l.documents _).map _).map _ = _
        rw [Option.map_map]
        exact congrArg (fun f => (l.documents _).map f) (funext fun doc => Ledger.content_review checks ps' _ doc)
      rw [← hcontents, hledger, hcontents]

/-! ### What each event amounts to -/

/-- Whatever has no effect at all amounts to nothing. -/
theorem amounts_nothing (hrun : ∀ {l' config base d}, d.Midway m old config l' (· = base) →
    wp act (fun _ => Midway m old config l' (· = base)) (fun _ _ => False) d) :
    Amounts m old checks l act (m.errand old none [] false fun _ hp => absurd hp List.not_mem_nil)
      fun base disk => disk = base where
  runs _ _ _ hd := by
    rw [Errand.after]
    show wp act (fun _ => Midway m old _ (Ledger.adopted checks false (m.fresh old) _ []) _) _ _
    rw [Ledger.adopted_nil]
    exact hrun hd
  steady _ h₂ := fun _ => by rw [h₂]

variable (checks)

/-- A directory that has come is taken up whole. -/
theorem Seated.amounts_directory (h : d.Seated m) (htotal : checks.Total) (hp : m.root.Encloses p)
    (hdetached : m.Detached d.shared.disk p) (hdir : d.shared.disk.hasDirectory p = true) :
    Amounts m d.shared.disk checks d.ledger (created checks p)
      (m.errand d.shared.disk none (d.shared.disk.filesAt p) true (h.distinct_at hp))
      (m.site.Handed (m.parcels (d.ledger.shown (m.fresh d.shared.disk)) (d.shared.disk.dirsAt p) (d.shared.disk.filesAt p))) where
  runs {l' config base d'} hresumes _ _ hd := by
    have hd' : d'.Midway m d.shared.disk config l' (m.site.Handed [] base) := hd
    have hdir' : d'.shared.disk.hasDirectory p = true := by
      rw [Disk.hasDirectory, hdetached.stat _ hd.outside, ← Disk.hasDirectory, hdir]
    refine Amid.wp_created_directory checks hdir' ?_
    exact hd'.trackDir checks htotal (hd.disk ▸ hd.tidy) hp hdetached hdir fun q _ => congrFun (hresumes.shown _) q
  steady h₁ h₂ := by
    refine h₁.idle h₂ h.tidy fun c hc x hx => Premises.suits_of_coherent (fun y hy z hz hnames => ?_) hc hx
    rw [h.eq_of_names_at hp (.inr hy) (.inr hz) hnames]

/-- A file that has come is taken up, and checked if its copy can be put. -/
theorem amounts_file {loc : Location} {found : Entry} {admitted : Bool} (htotal : checks.Total)
    (hp : m.root.Encloses p) (hdetached : m.Detached d.shared.disk p) (hfound : d.shared.disk.stat p = .ok (loc, found))
    (hfile : found.isDirectory = false)
    (hadmitted : admitted = true
      ↔ m.site.Admitted (m.sheet (d.ledger.shown (m.fresh d.shared.disk)) p) d.shared.disk) :
    Amounts m d.shared.disk checks d.ledger (created checks p)
      (m.errand d.shared.disk none [p] admitted (by simp))
      (Midway.Came m (d.ledger.shown (m.fresh d.shared.disk)) p admitted) where
  runs {l' config base d'} hresumes _ hbase hd := by
    refine hd.createdFile checks htotal (hd.disk ▸ hd.tidy) hp (hdetached.stat _ hd.outside) hfound hfile
      (hresumes.shown _) ?_
    rcases hbase with rfl | ⟨hdealt, hthere⟩
    · exact hadmitted
    · -- What has been put could be put again, and what could be put now could be put before.
      refine ⟨fun htrue => ⟨(hadmitted.mp htrue).1, ?_⟩, fun hput => hadmitted.mpr (hput.of_keepsKinds hdealt.kinds)⟩
      exact hdealt.tidy.free_of_node (hthere htrue) rfl
  steady h₁ h₂ := Site.Dealt.node_eq (fun _ => .inl rfl) h₂.1 h₁.1.tidy h₁.1.settled

/-- A file that was written is taken up and checked. -/
theorem Seated.amounts_written {bytes : Text.Bytes} (h : d.Seated m) (htotal : checks.Total) (hp : m.root.Encloses p)
    (hstat : ∀ disk, Disk.SameOutside m.site.zone d.shared.disk disk → disk.stat p = d.shared.disk.stat p)
    (hdir : d.shared.disk.hasDirectory p = false) (hread : d.shared.disk.read p = .ok bytes) (hclosed : d.ledger.opens p = false) :
    Amounts m d.shared.disk checks d.ledger (written checks p) (m.errand d.shared.disk none [p] true (by simp))
      (m.site.Handed (m.sheet (d.ledger.shown (m.fresh d.shared.disk)) p).chain) where
  runs {l' config base d'} hresumes hknown _ hd :=
    hd.written checks htotal (hd.disk ▸ hd.tidy) hp (hstat _ hd.outside) hdir hread ((hresumes.opens p).trans hclosed)
      (hknown p hp) (hresumes.shown _)
  steady h₁ h₂ := by
    have hchain : (m.sheet (d.ledger.shown (m.fresh d.shared.disk)) p).chain
        = m.parcels (d.ledger.shown (m.fresh d.shared.disk)) [] [p] := by simp [Premises.parcels, Premises.sheets]
    rw [hchain] at h₁ h₂
    refine h₁.idle h₂ h.tidy fun c hc x hx => Premises.suits_of_coherent (fun y hy z hz _ => ?_) hc hx
    rw [List.mem_singleton.mp hy, List.mem_singleton.mp hz]

/-- All that an editor has open has a copy with its text. -/
def Furnished (m : Premises) (d : Desk) : Prop := ∀ x ∈ d.workspace.tracked, ∀ content, d.ledger.openText x = some content →
  (m.copyOf x).flaw? = none ∧ m.site.node d.shared.disk (m.names x) = some (.file (Text.Utf8.encode content))

/-- What is handed over for a path lies at or below its copy, but for the directory that this is in. -/
theorem Seated.names_of_parcel {text : Path → String} {c : Site.Parcel} (h : d.Seated m) (hq : m.root.Encloses q)
    (hc : c ∈ m.parcels text (d.shared.disk.dirsAt q) (d.shared.disk.filesAt q)) :
    m.names q <+: c.names ∨ m.names q ≠ [] ∧ c.names = (m.names q).dropLast ∧ c.node = .directory := by
  have hway : ∀ x, x ∈ d.shared.disk.dirsAt q ∨ x ∈ d.shared.disk.filesAt q → m.names q <+: m.names x := fun x hx =>
    (Premises.names_prefix_iff hq (h.encloses_at hq hx)).mpr (h.startsWith_at hq hx)
  rcases Premises.mem_parcels.mp hc with ⟨x, hx, rfl⟩ | ⟨x, hx, rfl | hbefore⟩
  · exact .inl (hway x (.inl hx))
  · exact .inl (hway x (.inr hx))
  · obtain ⟨hne, hnames, hdir⟩ := Site.Parcel.of_before hbefore
    obtain ⟨rest, hrest⟩ := hway x (.inr hx)
    have hsheet : (m.sheet text x).names = m.names q ++ rest := hrest.symm
    rw [hsheet] at hne hnames
    by_cases hnil : rest = []
    · rw [hnil, List.append_nil] at hne hnames
      exact .inr ⟨hne, hnames, hdir⟩
    · rw [List.dropLast_append_of_ne_nil hnil] at hnames
      rw [hnames]
      exact .inl (List.prefix_append _ _)

/-- If a file is handed over for the path itself, then nothing else is at and below its copy. -/
theorem Seated.eq_of_parcels {text : Path → String} {c x : Site.Parcel} (h : d.Seated m) (hq : m.root.Encloses q)
    (hc : c ∈ m.parcels text (d.shared.disk.dirsAt q) (d.shared.disk.filesAt q)) (hnames : c.names = m.names q)
    (hfile : c.node.isDirectory = false) (hx : x ∈ m.parcels text (d.shared.disk.dirsAt q) (d.shared.disk.filesAt q))
    (hway : m.names q <+: x.names) : x = c := by
  obtain ⟨y, hy, rfl⟩ := (Premises.directory_or_sheet hc).resolve_left fun hdir => by
    rw [hdir] at hfile
    cases hfile
  obtain rfl := h.eq_of_names_at hq (.inr hy) (d.shared.disk.mem_at_self q) hnames
  have hdir : d.shared.disk.hasDirectory y = false := by
    rw [Bool.eq_false_iff]
    intro hdir
    rw [Disk.filesAt, if_pos hdir] at hy
    rw [Disk.hasDirectory_of_hasFile (Disk.mem_tree.2 hy).1] at hdir
    cases hdir
  rw [Disk.dirsAt, Disk.filesAt, hdir, if_neg Bool.false_ne_true, if_neg Bool.false_ne_true] at hx
  rcases Premises.mem_parcels.mp hx with ⟨z, hz, -⟩ | ⟨z, hz, hbrings⟩
  · exact absurd hz List.not_mem_nil
  rw [List.mem_singleton.mp hz] at hbrings
  exact Site.Retold.eq_of_brings hbrings rfl hway

/-- What has moved along, with the files that stay at the old path, is there the second time. -/
theorem Seated.looks_of_moved {found : Location × Entry} {text : Path → String} {stays : List Path} {d₁ d₂ : Disk}
    (h : d.Seated m) (hp : m.root.Encloses p) (hq : m.root.Encloses q) (hfound : d.shared.disk.stat q = .ok found)
    (hstays : ∀ x ∈ stays, m.names p <+: m.names x ∧ (m.copyOf x).flaw? = none
      ∧ m.site.node d.shared.disk (m.names x) = some (.file (Text.Utf8.encode (text x))))
    (hcoherent : ∀ x ∈ d.shared.disk.filesAt q ++ stays, ∀ y ∈ d.shared.disk.filesAt q ++ stays, m.names x = m.names y →
      text x = text y)
    (h₁ : m.site.Handed (m.parcels text (d.shared.disk.dirsAt q) (d.shared.disk.filesAt q ++ stays))
      (Site.moveAlong (m.copyOf p) (m.copyOf q) d.shared.disk) d₁)
    (h₂ : m.site.Handed (m.parcels text (d.shared.disk.dirsAt q) (d.shared.disk.filesAt q ++ stays))
      (Site.moveAlong (m.copyOf p) (m.copyOf q) d₁) d₂) : m.site.Looks d₁ d₂ := by
  have hspells := Premises.spells_copyOf hp
  have hspells' := Premises.spells_copyOf hq
  have hsuits : ∀ c ∈ m.parcels text (d.shared.disk.dirsAt q) (d.shared.disk.filesAt q ++ stays),
      ∀ x ∈ m.parcels text (d.shared.disk.dirsAt q) (d.shared.disk.filesAt q ++ stays), c.Suits x := fun c hc x hx =>
    Premises.suits_of_coherent hcoherent hc hx
  have hdealt₁ := h₁.dealt (h.tidy.moveAlong hspells hspells') hsuits
  have hdealt₂ := h₂.dealt (hdealt₁.tidy.moveAlong hspells hspells') hsuits
  have hretold : m.site.Retold (m.names p) (m.names q)
      (· ∈ m.parcels text (d.shared.disk.dirsAt q) (d.shared.disk.filesAt q)) (fun c => ∃ x ∈ stays, c = m.sheet text x)
      d.shared.disk := by
    refine ⟨fun c hc => h.names_of_parcel hq hc, fun c hc hnames hfile x hx hway => h.eq_of_parcels hq hc hnames hfile hx hway, ?_⟩
    rintro c ⟨x, hx, rfl⟩
    obtain ⟨hway, hflaw, hnode⟩ := hstays x hx
    exact ⟨hway, hflaw, rfl, hnode⟩
  have hbundle : ∀ c, Site.Bundle (· ∈ m.parcels text (d.shared.disk.dirsAt q) (d.shared.disk.filesAt q))
      (fun c => ∃ x ∈ stays, c = m.sheet text x) c
        ↔ c ∈ m.parcels text (d.shared.disk.dirsAt q) (d.shared.disk.filesAt q ++ stays) := by
    intro c
    rw [Site.Bundle, Premises.mem_parcels, Premises.mem_parcels]
    simp only [List.mem_append, or_and_right, exists_or, or_assoc]
    refine or_congr_right (or_congr_right ⟨?_, ?_⟩)
    · rintro ⟨_, ⟨x, hx, rfl⟩, hbrings⟩
      exact ⟨x, hx, hbrings⟩
    · rintro ⟨x, hx, hbrings⟩
      exact ⟨_, ⟨x, hx, rfl⟩, hbrings⟩
  have hbundled := hdealt₁.congr hbundle
  have hlacks := hretold.lacks h.tidy hspells hspells' (Premises.short_of_stat hfound) hbundled
  exact Site.Dealt.node_eq hlacks (hdealt₂.congr hbundle) hdealt₁.tidy hbundled.settled

/-- What has been taken away and written again below it is there the second time. -/
theorem Seated.looks_of_removed {text : Path → String} {stays : List Path} {d₁ d₂ : Disk} (h : d.Seated m)
    (hp : m.root.Encloses p) (hstays : ∀ x ∈ stays, m.names p <+: m.names x ∧ m.names p ≠ m.names x)
    (hcoherent : ∀ x ∈ stays, ∀ y ∈ stays, m.names x = m.names y → text x = text y)
    (h₁ : m.site.Handed (m.parcels text [] stays) (Replica.diskAfter (Replica.remove (m.copyOf p)) d.shared.disk) d₁)
    (h₂ : m.site.Handed (m.parcels text [] stays) (Replica.diskAfter (Replica.remove (m.copyOf p)) d₁) d₂) :
    m.site.Looks d₁ d₂ := by
  have hspells := Premises.spells_copyOf hp
  have htidy : m.site.Tidy (Replica.diskAfter (Replica.remove (m.copyOf p)) d.shared.disk) :=
    Replica.diskAfter_keeps (Site.work_keeps_tidy hspells .remove) h.tidy
  cases hflaw : (m.copyOf p).flaw? with
  | some err =>
    -- A path that the operating system does not take is not removed.
    have hremove : ∀ disk, Replica.diskAfter (Replica.remove (m.copyOf p)) disk = disk := fun disk => by
      rw [Replica.diskAfter, Site.remove_of_flaw hspells hflaw]
    rw [hremove] at h₁ h₂
    exact h₁.idle h₂ h.tidy fun c hc x hx => Premises.suits_of_coherent hcoherent hc hx
  | none =>
    have hcleared : ∀ disk, m.site.Tidy disk →
        m.site.Cleared (m.names p) disk (Replica.diskAfter (Replica.remove (m.copyOf p)) disk) := fun disk hdisk =>
      (hdisk.removal hspells hflaw).cleared hdisk
    refine h₁.again h₂ htidy (hcleared _ h.tidy).gone (hcleared d₁ (h₁.tidy htidy)) fun c hc => ?_
    obtain ⟨x, hx, hbrings⟩ := (Premises.mem_parcels.mp hc).resolve_left (by simp)
    obtain ⟨⟨rest, hrest⟩, hne⟩ := hstays x hx
    rcases hbrings with rfl | hbefore
    · exact ⟨rest, hrest⟩
    · have hnames : c.names = (m.names x).dropLast := (Site.Parcel.of_before hbefore).2.1
      rw [hnames, ← hrest, List.dropLast_append_of_ne_nil fun hnil => hne (by rw [← hrest, hnil, List.append_nil])]
      exact List.prefix_append _ _

namespace Poised

variable {x y : Path} {text : Path → String} {ps : List Path}

theorem opens_congr (h : d.Poised m) (hsame : x.same y = true) : d.ledger.opens x = d.ledger.opens y := by
  rw [Ledger.opens, Ledger.opens, h.midway.documents_congr hsame]

/-- What is open at and below a path after an errand was tracked before. -/
theorem tracked_of_after (h : d.Poised m) (hp : m.root.Encloses p) (hx : (e.after checks d.ledger).places x)
    (hstarts : x.startsWith p = true) (hopen : d.ledger.opens x = true) : x ∈ d.workspace.tracked := by
  rcases (Errand.places_after checks e d.ledger x).mp hx with ⟨hold, -⟩ | ⟨-, hfree⟩
  · exact hold
  · obtain ⟨r, hr, hsame⟩ := h.known p hp x hstarts fun hnone => by
      rw [Ledger.opens, hnone] at hopen
      cases hopen
    have hopen' : d.ledger.opens r = true := (h.opens_congr hsame).trans hopen
    have hkept : e.drops d.ledger r = false := by simp [Errand.drops, Ledger.drops, hopen']
    rw [hfree r hr hkept] at hsame
    cases hsame

/-- What is open at and below a path has its copy. -/
theorem copy_of_after (h : d.Poised m) (hfurnished : d.Furnished m) (hp : m.root.Encloses p)
    (hx : (e.after checks d.ledger).places x) (hstarts : x.startsWith p = true) (hopen : d.ledger.opens x = true) :
    m.root.Encloses x ∧ (m.copyOf x).flaw? = none ∧ m.site.node d.shared.disk (m.names x)
      = some (.file (Text.Utf8.encode (d.ledger.shown (m.fresh d.shared.disk) x))) := by
  have htracked := h.tracked_of_after checks hp hx hstarts hopen
  rw [Ledger.opens_eq_openText] at hopen
  obtain ⟨content, hcontent⟩ := Option.isSome_iff_exists.mp hopen
  obtain ⟨hflaw, hnode⟩ := hfurnished x htracked content hcontent
  rw [Ledger.text_of_openText rfl hcontent]
  exact ⟨h.below x htracked, hflaw, hnode⟩

/-- Whatever is written at some names has one text. -/
theorem coherent (h : d.Poised m) (hq : m.root.Encloses q) {files : List Path}
    (hfiles : ∀ x ∈ files, x ∈ d.shared.disk.filesAt q ∨ m.root.Encloses x ∧ d.ledger.opens x = true) (hx : x ∈ files)
    (hy : y ∈ files) (hnames : m.names x = m.names y) :
    d.ledger.shown (m.fresh d.shared.disk) x = d.ledger.shown (m.fresh d.shared.disk) y := by
  have hin : ∀ z ∈ files, m.root.Encloses z := fun z hz =>
    (hfiles z hz).elim (fun hat => h.encloses_at hq (.inr hat)) fun hopen => hopen.1
  have hsame := (Premises.names_eq_iff (hin x hx) (hin y hy)).mp hnames
  cases hopen : d.ledger.opens x with
  | true =>
    have htext : d.ledger.openText x = d.ledger.openText y := by
      rw [Ledger.openText, Ledger.openText, h.midway.documents_congr hsame]
    rw [Ledger.opens_eq_openText] at hopen
    obtain ⟨content, hcontent⟩ := Option.isSome_iff_exists.mp hopen
    rw [Ledger.text_of_openText rfl hcontent, Ledger.text_of_openText rfl (htext ▸ hcontent)]
  | false =>
    -- What is closed is written because it was found.
    have hat : ∀ z ∈ files, d.ledger.opens z = false → z ∈ d.shared.disk.filesAt q := fun z hz hclosed =>
      (hfiles z hz).resolve_right fun hboth => by
        rw [hclosed] at hboth
        cases hboth.2
    have hopen' := (h.opens_congr hsame).symm.trans hopen
    rw [h.eq_of_names_at hq (.inr (hat x hx hopen)) (.inr (hat y hy hopen')) hnames]

/-- So has what is written in the end, for files at one path and for what is open at and below another. -/
theorem coherent_after (h : d.Poised m) (hp : m.root.Encloses p) (hq : m.root.Encloses q)
    (hps : (e.after checks d.ledger).Lists ps) :
    ∀ x ∈ d.shared.disk.filesAt q ++ ps.filter fun x => x.startsWith p && (e.after checks d.ledger).opens x,
      ∀ y ∈ d.shared.disk.filesAt q ++ ps.filter fun x => x.startsWith p && (e.after checks d.ledger).opens x,
        m.names x = m.names y → d.ledger.shown (m.fresh d.shared.disk) x = d.ledger.shown (m.fresh d.shared.disk) y := by
  intro x hx y hy hnames
  refine h.coherent hq (fun z hz => (List.mem_append.mp hz).imp_right fun hz => ?_) hx hy hnames
  obtain ⟨hz, hcond⟩ := List.mem_filter.mp hz
  rw [Bool.and_eq_true, Errand.opens_after] at hcond
  exact ⟨h.below z (h.tracked_of_after checks hp (hps.mem_iff.mp hz) hcond.1 hcond.2), hcond.2⟩

/-- A path that has got another name is let go, and the other one taken up. -/
theorem amounts_renamed {found : Location × Entry} (h : d.Poised m) (htotal : checks.Total) (hp : m.root.Encloses p)
    (hq : m.root.Encloses q) (hdetached : m.Detached d.shared.disk q) (hfound : d.shared.disk.stat q = .ok found)
    (hfurnished : d.Furnished m) :
    Amounts m d.shared.disk checks d.ledger (renamed checks p q)
      (m.errand d.shared.disk (some p) (d.shared.disk.filesAt q) true (h.distinct_at hq)) fun base =>
        Midway.Refilled m (d.ledger.shown (m.fresh d.shared.disk))
          ((m.errand d.shared.disk (some p) (d.shared.disk.filesAt q) true (h.distinct_at hq)).after checks d.ledger) p
          (d.shared.disk.dirsAt q) (d.shared.disk.filesAt q) (Site.moveAlong (m.copyOf p) (m.copyOf q) base) := by
  generalize he : m.errand d.shared.disk (some p) (d.shared.disk.filesAt q) true (h.distinct_at hq) = e
  have hspells := Premises.spells_copyOf hp
  have hspells' := Premises.spells_copyOf hq
  have hcopy : ∀ x, _ → _ → _ → _ := fun x => h.copy_of_after checks hfurnished hp (e := e) (x := x)
  constructor
  · intro l' config base d' hresumes hknown _ hd
    have hafter : (l'.letGo p).adopted checks true (m.fresh d.shared.disk) (d.shared.disk.filesAt q) = e.after checks l' := by
      rw [← he]
      rfl
    refine wp_imp (hd.renamed checks htotal (hd.disk ▸ hd.tidy) hp hq hdetached hfound (hknown p hp) (hresumes.shown _) hafter
      fun x hx hstarts hopen => ?_) (fun _ d'' h'' => h''.imp fun disk _ hdisk => ?_) fun _ _ he => he
    · obtain ⟨-, -, hnode⟩ := hcopy x ((hresumes.places x).mp hx) hstarts ((hresumes.opens x).symm.trans hopen)
      exact fun n hn => (h.tidy.reaches_of_node hnode).short n (List.mem_cons_of_mem _ hn)
    · obtain ⟨ps, hps, hhanded⟩ := hdisk
      refine ⟨ps, hresumes.lists hps, ?_⟩
      have hopens : ∀ x, (e.after checks l').opens x = (e.after checks d.ledger).opens x := fun x => by
        rw [Errand.opens_after, Errand.opens_after, hresumes.opens]
      simpa only [hopens] using hhanded
  · rintro d₁ d₂ ⟨ps, hps, h₁⟩ ⟨ps', hps', h₂⟩
    obtain rfl := hps.unique hps' fun _ => Iff.rfl
    refine h.looks_of_moved hp hq hfound (fun x hx => ?_) (h.coherent_after checks hp hq hps) h₁ h₂
    obtain ⟨hx, hcond⟩ := List.mem_filter.mp hx
    rw [Bool.and_eq_true, Errand.opens_after] at hcond
    obtain ⟨hin, hflaw, hnode⟩ := hcopy x (hps.mem_iff.mp hx) hcond.1 hcond.2
    exact ⟨(Premises.names_prefix_iff hp hin).mpr hcond.1, hflaw, hnode⟩

/-- A path that is gone is let go. -/
theorem amounts_removed (h : d.Poised m) (hp : m.root.Encloses p) (hclosed : d.ledger.opens p = false)
    (hfurnished : d.Furnished m) :
    Amounts m d.shared.disk checks d.ledger (removed checks p)
      (m.errand d.shared.disk (some p) [] false fun _ hx => absurd hx List.not_mem_nil) fun base =>
        Midway.Refilled m (d.ledger.shown (m.fresh d.shared.disk)) (d.ledger.letGo p) p [] []
          (Replica.diskAfter (Replica.remove (m.copyOf p)) base) := by
  generalize he : m.errand d.shared.disk (some p) [] false _ = e
  have hafter : ∀ l', e.after checks l' = l'.letGo p := fun l' => by
    rw [← he]
    exact Ledger.adopted_nil (l'.letGo p)
  have hcopy : ∀ x, _ → _ → _ → _ := fun x => h.copy_of_after checks hfurnished hp (e := e) (x := x)
  have hopens : ∀ l' x, (e.after checks l').opens x = l'.opens x := Errand.opens_after checks e
  simp only [← hafter]
  constructor
  · intro l' config base d' hresumes hknown _ hd
    refine wp_imp (hd.removed checks (hd.disk ▸ hd.tidy) hp (hknown p hp) (hresumes.shown _) fun x hx hstarts hopen => ?_)
      (fun _ d'' h'' => ?_) fun _ _ he => he
    · have hkept : (e.after checks l').places x := by
        rw [hafter]
        exact ⟨hx, by simp [Ledger.drops, hopen]⟩
      obtain ⟨-, -, hnode⟩ := hcopy x ((hresumes.places x).mp hkept) hstarts ((hresumes.opens x).symm.trans hopen)
      exact fun n hn => (h.tidy.reaches_of_node hnode).short n (List.mem_cons_of_mem _ hn)
    · rw [← hafter] at h''
      refine h''.imp fun disk _ hdisk => ?_
      obtain ⟨ps, hps, hhanded⟩ := hdisk
      refine ⟨ps, hresumes.lists hps, ?_⟩
      simp only [hopens, hresumes.opens] at hhanded ⊢
      exact hhanded
  · rintro d₁ d₂ ⟨ps, hps, h₁⟩ ⟨ps', hps', h₂⟩
    obtain rfl := hps.unique hps' fun _ => Iff.rfl
    refine h.looks_of_removed hp (fun x hx => ?_) (fun x hx y hy => ?_) h₁ h₂
    · obtain ⟨hx, hcond⟩ := List.mem_filter.mp hx
      rw [Bool.and_eq_true, hopens] at hcond
      obtain ⟨hin, -, -⟩ := hcopy x (hps.mem_iff.mp hx) hcond.1 hcond.2
      refine ⟨(Premises.names_prefix_iff hp hin).mpr hcond.1, fun hnames => ?_⟩
      rw [← h.opens_congr ((Premises.names_eq_iff hp hin).mp hnames), hclosed] at hcond
      cases hcond.2
    · exact h.coherent_after checks hp hp hps x (List.mem_append_right _ hx) y (List.mem_append_right _ hy)

end Poised

/-! ### Events that are handled twice -/

/-- What is found where an event says that something has come or was written does not depend on what
    is in the replica. -/
def Unmirrored (m : Premises) (old : Disk) (event : Watch.Event) : Prop :=
  match event.kind with
  | .created => m.Detached old event.path
  | .written => ∀ disk, Disk.SameOutside m.site.zone old disk → disk.stat event.path = old.stat event.path
  | .removed => True

theorem Same.refl (m : Premises) (d : Desk) : Same m d d := ⟨fun _ => rfl, fun _ => Iff.rfl, rfl, fun _ => rfl⟩

/-- Each event amounts to an errand. -/
theorem Poised.exists_amounts (h : d.Poised m) (htotal : checks.Total) (hinside : Inside m event)
    (hclosed : d.shared.store.isOpen event.path = false) (hfurnished : d.Furnished m)
    (hunmirrored : Unmirrored m d.shared.disk event) :
    ∃ e R, Amounts m d.shared.disk checks d.ledger (handler checks event) e R := by
  obtain ⟨kind, path, source⟩ := event
  obtain ⟨hp, hsource⟩ := hinside
  cases kind with
  | created =>
    have hdetached : m.Detached d.shared.disk path := hunmirrored
    cases source with
    | none =>
      show ∃ e R, Amounts m d.shared.disk checks d.ledger (created checks path) e R
      cases hstat : d.shared.disk.stat path with
      | error err =>
        refine ⟨_, _, amounts_nothing fun {l' config base d'} hd => ?_⟩
        rw [created, wp_bind, wp_get, hdetached.stat _ hd.outside, hstat]
        exact (wp_pure _).mpr hd
      | ok x =>
        obtain ⟨loc, found⟩ := x
        cases hdir : found.isDirectory with
        | true => exact ⟨_, _, h.amounts_directory checks htotal hp hdetached (by rw [Disk.hasDirectory, hstat]; exact hdir)⟩
        | false =>
          obtain ⟨admitted, hadmitted⟩ : ∃ admitted : Bool, admitted = true
              ↔ m.site.Admitted (m.sheet (d.ledger.shown (m.fresh d.shared.disk)) path) d.shared.disk := by
            classical exact ⟨decide _, decide_eq_true_iff⟩
          exact ⟨_, _, amounts_file checks htotal hp hdetached hstat hdir hadmitted⟩
    | some source =>
      show ∃ e R, Amounts m d.shared.disk checks d.ledger (renamed checks source path) e R
      cases hstat : d.shared.disk.stat path with
      | error err =>
        refine ⟨_, _, amounts_nothing fun {l' config base d'} hd => hd.renamed_missing checks ?_⟩
        rw [Disk.hasPath, hdetached.stat _ hd.outside, hstat]
        rfl
      | ok x => exact ⟨_, _, h.amounts_renamed checks htotal (hsource source rfl) hp hdetached hstat hfurnished⟩
  | written =>
    have hstat : ∀ disk, Disk.SameOutside m.site.zone d.shared.disk disk → disk.stat path = d.shared.disk.stat path := hunmirrored
    show ∃ e R, Amounts m d.shared.disk checks d.ledger (written checks path) e R
    cases hdir : d.shared.disk.hasDirectory path with
    | true =>
      refine ⟨_, _, amounts_nothing fun {l' config base d'} hd => hd.written_unread checks (.inl ?_)⟩
      rw [Disk.hasDirectory, hstat _ hd.outside, ← Disk.hasDirectory, hdir]
    | false =>
      cases hread : d.shared.disk.read path with
      | error err =>
        refine ⟨_, _, amounts_nothing fun {l' config base d'} hd => hd.written_unread checks (.inr ⟨err, ?_⟩)⟩
        rw [Disk.read, hstat _ hd.outside, ← Disk.read, hread]
      | ok bytes => exact ⟨_, _, h.amounts_written checks htotal hp hstat hdir hread hclosed⟩
  | removed => exact ⟨_, _, h.amounts_removed checks hp hclosed hfurnished⟩

/-- **An event that is handled twice leaves what it leaves when it is handled once.** -/
theorem Poised.same_of_twice (h : d.Poised m) (htotal : checks.Total) (hinside : Inside m event)
    (hfurnished : d.Furnished m) (hunmirrored : Unmirrored m d.shared.disk event)
    (hstill : ∀ d₁, onDiskEvent checks event d = .ok () d₁ → d₁.Poised m) :
    ∃ d₁ d₂, onDiskEvent checks event d = .ok () d₁ ∧ onDiskEvent checks event d₁ = .ok () d₂ ∧ Same m d₁ d₂ := by
  cases hopen : d.shared.store.isOpen event.path with
  | true => exact ⟨d, d, onDiskEvent_of_open checks hopen, onDiskEvent_of_open checks hopen, .refl m d⟩
  | false =>
    obtain ⟨e, R, hamounts⟩ := h.exists_amounts checks htotal hinside hopen hfurnished hunmirrored
    exact hamounts.twice htotal h hopen hstill

end Desk

end LiveWorkspace
