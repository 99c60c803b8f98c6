/-
  LiveWorkspace/Proofs/Workspace/Errands.lean
  ===========================================
  **What an event comes down to.**

  Whatever the kind of an event, its handler lets go of one path at most, takes up the files that
  are found at another one, and hands over what belongs to these and to what stays open.  So each
  handler is known by what becomes of the ledger, and by what is handed over in which order.  The
  copy of the old path is moved along or taken away before that.
-/
import LiveWorkspace.Proofs.Workspace.Handing
import LiveWorkspace.Proofs.Replica.Moves

namespace LiveWorkspace

/-- Work that is done under a condition, before what is done anyway. -/
theorem wp_ite_first {ε σ α : Type} {c : Prop} [Decidable c] {first : EStateM ε σ Unit} {rest : EStateM ε σ α} {I : σ → Prop}
    {Q : α → σ → Prop} {E : ε → σ → Prop} {s : σ} (hskip : ¬ c → I s) (hfirst : c → wp first (fun _ => I) E s)
    (hrest : ∀ s', I s' → wp rest Q E s') : wp (if c then first >>= fun _ => rest else rest) Q E s := by
  refine (wp_ite _ _).mpr ⟨fun hc => ?_, fun hc => hrest s (hskip hc)⟩
  rw [wp_bind]
  exact wp_imp (hfirst hc) (fun _ => hrest) fun _ _ he => he

/-! ### Tracked paths in their order -/

namespace Ledger

variable {l l' : Ledger} {fresh : Path → Document} {checks : Checkers} {checked : Bool} {p q : Path} {ps ps' : List Path}

/-- The tracked paths in their order. -/
def Lists (l : Ledger) (ps : List Path) : Prop := ∃ qs, Path.Apart qs ∧ (∀ q, q ∈ qs ↔ l.places q) ∧ ps = Path.sort qs

theorem Lists.mem_iff (h : l.Lists ps) : q ∈ ps ↔ l.places q := by
  obtain ⟨qs, -, hmem, rfl⟩ := h
  rw [Path.mem_sort, hmem]

/-- The order of the tracked paths is that of their components. -/
theorem Lists.unique (h : l.Lists ps) (h' : l'.Lists ps') (hplaces : ∀ q, l'.places q ↔ l.places q) : ps' = ps := by
  obtain ⟨qs, hapart, hmem, rfl⟩ := h
  obtain ⟨qs', hapart', hmem', rfl⟩ := h'
  exact hapart'.sort_eq hapart fun q => by rw [hmem', hplaces, hmem]

theorem adopted_one (l : Ledger) (p : Path) :
    l.adopted checks checked fresh [p] = if checked then (l.take fresh p).reviewed checks [p] else l.take fresh p := by
  have hconcat : l.adopted checks checked fresh ([] ++ [p]) = _ := adopted_concat l fun q hq => absurd hq List.not_mem_nil
  rwa [List.nil_append, adopted_nil] at hconcat

/-- What has been taken up need not be taken up again. -/
theorem take_take (l : Ledger) (p : Path) : (l.take fresh p).take fresh p = l.take fresh p := by
  refine Ledger.ext (funext fun q => ?_) (funext fun q => propext ?_)
  · show (if p.same q then some ((((l.take fresh p).documents q).map (·.reread (fresh p).content)).getD (fresh p))
      else (l.take fresh p).documents q) = (l.take fresh p).documents q
    cases hsame : p.same q with
    | false => rfl
    | true =>
      have hdoc : (l.take fresh p).documents q = some (((l.documents q).map (·.reread (fresh p).content)).getD (fresh p)) :=
        if_pos hsame
      rw [if_pos rfl, hdoc, Option.map_some, Option.getD_some, Document.reread_eq]
      cases l.documents q with
      | none => exact fun _ => rfl
      | some doc => exact fun hclosed => Document.content_reread (by simpa using hclosed)
  · refine or_iff_left fun ⟨_, hnone⟩ => ?_
    have hfree : ∀ r, l.places r → r.same p = false := fun r hr => hnone r (.inl hr)
    have hself := hnone p (.inr ⟨rfl, hfree⟩)
    rw [Path.same_refl] at hself
    cases hself

/-- What has been taken up is tracked. -/
theorem places_take (fresh : Path → Document) (l : Ledger) (p : Path) : ∃ r, (l.take fresh p).places r ∧ r.same p = true := by
  by_cases htracked : ∃ r, l.places r ∧ r.same p = true
  · obtain ⟨r, hr, hsame⟩ := htracked
    exact ⟨r, .inl hr, hsame⟩
  · refine ⟨p, .inr ⟨rfl, fun r hr => ?_⟩, Path.same_refl p⟩
    rw [Bool.eq_false_iff]
    exact fun hsame => htracked ⟨r, hr, hsame⟩

theorem opens_take (hclosed : (fresh p).isOpen = false) (l : Ledger) (q : Path) : (l.take fresh p).opens q = l.opens q := by
  show (if p.same q then some (((l.documents q).map (·.reread (fresh p).content)).getD (fresh p)) else l.documents q).any
    (·.isOpen) = (l.documents q).any (·.isOpen)
  cases l.documents q <;> split <;> simp [hclosed]

theorem shown_congr (h : l'.openText = l.openText) : l'.shown fresh = l.shown fresh := by
  funext q
  rw [shown, shown, h]

theorem text_of_openText {text : Path → String} {content : String} (htext : l.shown fresh = text)
    (hopen : l.openText p = some content) : text p = content := by
  rw [← htext, shown, hopen]
  rfl

end Ledger

namespace Desk.Midway

variable {m : Premises} {old : Disk} {config : ProjectConfig} {l : Ledger} {base : Disk} {D : Disk → Prop} {d : Desk}
  {p q : Path} {E : Crash → Desk → Prop} {text : Path → String}

theorem lists (h : d.Midway m old config l D) : l.Lists d.workspace.files :=
  ⟨d.workspace.tracked, h.apart, fun _ => h.mem_tracked, rfl⟩

variable (checks : Checkers)

/-! ### Files that have come or were written -/

/-- What a file that has come leaves in the replica: its copy, if that can be put. -/
def Came (m : Premises) (text : Path → String) (p : Path) (admitted : Bool) (base disk : Disk) : Prop :=
  m.site.Dealt (m.sheet text p).Brings base disk
    ∧ (admitted = true → m.site.node disk (m.names p) = some (.file (Text.Utf8.encode (text p))))

/-- First an empty copy is put. If that succeeds then the text can be written there, too. -/
theorem emptyCopy {mode : Nat} {admitted : Bool} {failure : String} (h : d.Midway m old config l (· = base)) (hbase : m.site.Tidy base)
    (hp : m.root.Encloses p) (hshort : ∀ n ∈ m.names p, n.utf8ByteSize ≤ maxName)
    (hadmitted : admitted = true ↔ m.site.Admitted (m.sheet text p) base) :
    wp (Desk.onReplica (do Replica.ensureParent (m.copyOf p); Replica.createEmptyFile (m.copyOf p) (some mode)) failure)
      (fun made => Midway m old config l fun disk => made = admitted ∧ Came m text p made base
        (if made then Replica.diskAfter (Replica.write (m.copyOf p) (Text.Utf8.encode (text p))) disk else disk)) E d := by
  have hspells : m.site.Spells (m.sheet text p).copy (m.sheet text p).names := Premises.spells_copyOf hp
  have hnothing : m.site.Dealt (fun _ => False) base base := .refl hbase fun _ => id
  have hbrings : ∀ x, (m.sheet text p).Brings x ↔ False ∨ (m.sheet text p).Brings x := fun x => by simp
  refine h.onReplica (Site.work_kempt hspells (.create _) old) fun made disk _ hdisk hmade => ?_
  obtain rfl : disk = base := hdisk
  generalize hop : (do Replica.ensureParent (m.copyOf p); Replica.createEmptyFile (m.copyOf p) (some mode) : ReplicaOp Unit)
    = op at hmade ⊢
  cases hrun : op disk with
  | ok u t =>
    obtain rfl : made = true := hmade.mpr ⟨t, hrun⟩
    have hafter : Replica.diskAfter op disk = t := by rw [Replica.diskAfter, hrun]
    rw [hafter, if_pos rfl]
    rw [← hop] at hrun
    have hput : m.site.Admitted (m.sheet text p) disk := Site.admitted_of_create hbase hspells rfl hrun
    refine ⟨(hadmitted.mpr hput).symm, (hnothing.create hspells rfl hshort (fun _ => False.elim) hrun).congr hbrings, fun _ => ?_⟩
    exact (Site.create_delivers hbase hspells rfl hshort hrun).put hput
  | error err t =>
    obtain rfl : made = false := by
      rw [Bool.eq_false_iff]
      intro htrue
      obtain ⟨t', ht'⟩ := hmade.mp htrue
      rw [hrun] at ht'
      cases ht'
    have hafter : Replica.diskAfter op disk = t := by rw [Replica.diskAfter, hrun]
    rw [hafter, if_neg Bool.false_ne_true]
    rw [← hop] at hrun
    obtain ⟨hnot, hdealt⟩ : ¬ m.site.Admitted (m.sheet text p) disk ∧ _ :=
      hnothing.refuse hspells rfl hshort (fun _ => False.elim) hrun
    exact ⟨(Bool.eq_false_iff.mpr fun htrue => hnot (hadmitted.mp htrue)).symm, hdealt.congr hbrings, fun hfalse => by cases hfalse⟩

/-- A file that has come is taken up, and checked if its copy can be put. -/
theorem createdFile {loc : Location} {e : Entry} {admitted : Bool} (htotal : checks.Total)
    (h : d.Midway m old config l (· = base)) (hbase : m.site.Tidy base) (hp : m.root.Encloses p)
    (hstat : d.shared.disk.stat p = old.stat p) (hfound : old.stat p = .ok (loc, e)) (he : e.isDirectory = false)
    (htext : l.shown (m.fresh old) = text) (hadmitted : admitted = true ↔ m.site.Admitted (m.sheet text p) base) :
    wp (created checks p) (fun _ => Midway m old config (l.adopted checks admitted (m.fresh old) [p])
      (Came m text p admitted base)) E d := by
  obtain ⟨doc, hdoc, hcontent⟩ : ∃ doc, (l.take (m.fresh old) p).documents p = some doc
      ∧ doc.content = l.shown (m.fresh old) p := Ledger.exists_take l p
  rw [htext] at hcontent
  rw [created, wp_bind, wp_get, hstat, hfound]
  show wp (if e.isDirectory then Desk.trackDir checks p else do
    Desk.trackFile p
    let target := (← get).workspace.replicaPath p
    let made ← Desk.onReplica (do Replica.ensureParent target; Replica.createEmptyFile target (some e.mode))
      "Failed to create mirror file"
    if made then
      Desk.syncReplica p
      Desk.diagnose checks p) _ E d
  rw [he, if_neg Bool.false_ne_true, wp_bind]
  refine wp_imp (h.trackFile hp (Disk.textOf_congr hstat)) (fun _ d₁ h₁ => ?_) fun _ _ he => he
  rw [wp_bind, wp_get, wp_bind, h₁.replicaPath_eq]
  refine wp_imp (h₁.emptyCopy hbase hp (Premises.short_of_stat hfound) hadmitted) (fun made d₂ h₂ => ?_) fun _ _ he => he
  obtain rfl : made = admitted := h₂.disk.1
  rw [Ledger.adopted_one]
  cases made with
  | true =>
    rw [if_pos rfl, wp_bind, if_pos rfl]
    refine wp_imp (h₂.syncReplica (R := Came m text p true base) hp hdoc fun disk _ hdisk => ?_)
      (fun _ d₃ h₃ => h₃.diagnose checks htotal p) fun _ _ he => he
    rw [hcontent]
    exact hdisk.2
  | false =>
    rw [if_neg Bool.false_ne_true, wp_pure, if_neg Bool.false_ne_true]
    exact h₂.imp fun disk _ hdisk => hdisk.2

/-- A closed document that gets the text of its file is as if it were taken up. -/
theorem retold {doc : Document} {store : Store} (h : d.Midway m old config l D) (hdoc : l.documents p = some doc)
    (hclosed : doc.isOpen = false) (htracked : ∃ r, l.places r ∧ r.same p = true)
    (hstore : d.shared.store.revise? p (.replace (m.fresh old p).content) = .ok store) :
    Midway m old config (l.take (m.fresh old) p) D (d.withStore store) := by
  obtain ⟨r, hr, hsame⟩ := htracked
  refine h.revised hstore (fun q => ?_) fun q => or_iff_left ?_
  · show (if p.same q then _ else _) = _
    cases hpq : p.same q with
    | false => rfl
    | true =>
      rw [← h.documents_congr hpq, hdoc, if_pos rfl, if_pos rfl, Option.map_some, Option.map_some, Option.getD_some,
        Document.reread, if_neg (by simp [hclosed])]
      rfl
  · rintro ⟨-, hfree⟩
    rw [hfree r hr] at hsame
    cases hsame

/-- A file that was written is taken up if it is not known yet. Its copy is handed over, and it is
    checked. -/
theorem written {bytes : Text.Bytes} (htotal : checks.Total) (h : d.Midway m old config l (· = base))
    (hbase : m.site.Tidy base) (hp : m.root.Encloses p) (hstat : d.shared.disk.stat p = old.stat p)
    (hdir : old.hasDirectory p = false) (hread : old.read p = .ok bytes) (hclosed : l.opens p = false) (hknown : l.Knows p)
    (htext : l.shown (m.fresh old) = text) :
    wp (written checks p) (fun _ => Midway m old config (l.adopted checks true (m.fresh old) [p])
      (m.site.Handed (m.sheet text p).chain base)) E d := by
  have hspells : m.site.Spells (m.sheet text p).copy (m.sheet text p).names := Premises.spells_copyOf hp
  obtain ⟨x, hfound⟩ : ∃ x, old.stat p = .ok x := by
    cases hfound : old.stat p with
    | ok x => exact ⟨x, rfl⟩
    | error err =>
      rw [Disk.read, hfound] at hread
      cases hread
  have hcontent : Text.Utf8.decodeLossy bytes = (m.fresh old p).content := by
    show _ = old.textOf p
    rw [Disk.textOf, hread]
  have hshown : text p = (m.fresh old p).content := by
    rw [← htext, Ledger.shown, Ledger.openText_of_closed hclosed]
    rfl
  rw [Desk.written, wp_bind, wp_get]
  have hdir' : d.shared.disk.hasDirectory p = false := by rw [Disk.hasDirectory, hstat, ← Disk.hasDirectory, hdir]
  have hread' : d.shared.disk.read p = .ok bytes := by rw [Disk.read, hstat, ← Disk.read, hread]
  simp only [hdir', Bool.not_false, if_true, hread']
  rw [wp_bind, wp_get, hcontent]
  -- Whether it had to be taken up or not, taking it up now would only give it its text.
  refine wp_ite_first (I := fun d' => ∃ l', d'.Midway m old config l' (· = base)
    ∧ l'.take (m.fresh old) p = l.take (m.fresh old) p ∧ l'.opens p = false ∧ (∃ doc, l'.documents p = some doc)
    ∧ ∃ r, l'.places r ∧ r.same p = true) (fun hin => ?_) (fun hnew => ?_) ?_
  · rw [Bool.not_eq_true', Bool.not_eq_false, Store.contains, h.get?, Option.isSome_iff_exists] at hin
    refine ⟨l, h, rfl, hclosed, hin, hknown p (Path.startsWith_refl p) ?_⟩
    obtain ⟨doc, hdoc⟩ := hin
    rw [hdoc]
    exact Option.some_ne_none doc
  · refine wp_imp (h.trackFile hp (Disk.textOf_congr hstat)) (fun _ d₁ h₁ => ?_) fun _ _ he => he
    obtain ⟨doc, hdoc, -⟩ : ∃ doc, (l.take (m.fresh old) p).documents p = some doc ∧ _ := Ledger.exists_take l p
    exact ⟨_, h₁, Ledger.take_take l p, (Ledger.opens_take rfl l p).trans hclosed, ⟨doc, hdoc⟩,
      Ledger.places_take (m.fresh old) l p⟩
  · rintro d' ⟨l', h', htake, hclosed', ⟨doc, hdoc⟩, htracked⟩
    have hdocClosed : doc.isOpen = false := by rwa [Ledger.opens, hdoc] at hclosed'
    rw [wp_bind, wp_get, wp_bind, h'.replicaPath_eq]
    refine wp_imp (h'.onReplica (R := fun _ => m.site.Handed (m.sheet text p).chain base)
      (Site.work_kempt hspells (.write _) old) ?_) (fun _ d₁ h₁ => ?_) fun _ _ he => he
    · rintro _ disk - hdisk -
      rw [hdisk, ← hshown]
      exact (show m.site.Handed [] base base from rfl).write hbase hspells rfl (Premises.short_of_stat hfound)
    rw [wp_bind, wp_onShared, Shared.wp_revise, Ledger.adopted_one, if_pos rfl, ← htake]
    refine ⟨fun store hstore => (h₁.retold hdoc hdocClosed htracked hstore).diagnose checks htotal p, fun hout => ?_⟩
    rw [Store.contains, h₁.get?, hdoc] at hout
    cases hout

/-- What is no file, or cannot be read, is left alone. -/
theorem written_unread (h : d.Midway m old config l D)
    (hunread : d.shared.disk.hasDirectory p = true ∨ ∃ err, d.shared.disk.read p = .error err) :
    wp (Desk.written checks p) (fun _ => Midway m old config l D) E d := by
  rw [Desk.written, wp_bind, wp_get]
  cases hdir : d.shared.disk.hasDirectory p with
  | true =>
    simp only [hdir, Bool.not_true, Bool.false_eq_true, if_false]
    exact (wp_pure _).mpr h
  | false =>
    obtain ⟨err, hread⟩ := hunread.resolve_left (by simp [hdir])
    simp only [hdir, Bool.not_false, if_true, hread]
    exact (wp_pure _).mpr h

/-! ### Paths that have got another name, and paths that are gone -/

/-- What a path leaves in the replica that is taken up: what belongs to the directories and files
    there, and the copies of what is open at and below the path that was let go. -/
def Refilled (m : Premises) (text : Path → String) (l : Ledger) (p : Path) (dirs files : List Path) (base disk : Disk) : Prop :=
  ∃ ps, l.Lists ps ∧ m.site.Handed (m.parcels text dirs (files ++ ps.filter fun x => x.startsWith p && l.opens x)) base disk

/-- In the end the copies of what is open at and below the old path are handed over. -/
theorem refill {dirs files : List Path} (h : d.Midway m old config l (m.site.Handed (m.parcels text dirs files) base))
    (hbase : m.site.Tidy base) (htext : l.shown (m.fresh old) = text)
    (hshort : ∀ x, l.places x → x.startsWith p = true → l.opens x = true → ∀ n ∈ m.names x, n.utf8ByteSize ≤ maxName) :
    wp (Desk.resyncOpen p) (fun _ => Midway m old config l (Refilled m text l p dirs files base)) E d := by
  refine wp_imp (h.resyncOpen hbase (fun x content hx => Ledger.text_of_openText htext hx) hshort) (fun _ d' h' => ?_)
    fun _ _ he => he
  refine h'.imp fun disk _ hdisk => ⟨_, h.lists, ?_⟩
  rwa [Premises.parcels, Premises.sheets_append, ← List.append_assoc]

/-- Once the copy has been moved along, the old path is let go, and the new one is taken up. -/
theorem settle {found : Location × Entry} {l' : Ledger} (htotal : checks.Total) (h : d.Midway m old config l (· = base))
    (hbase : m.site.Tidy base) (hq : m.root.Encloses q) (hdetached : m.Detached old q) (hfound : old.stat q = .ok found)
    (hknown : l.Knows p) (htext : l.shown (m.fresh old) = text)
    (hafter : (l.letGo p).adopted checks true (m.fresh old) (old.filesAt q) = l')
    (hshort : ∀ x, l'.places x → x.startsWith p = true → l.opens x = true → ∀ n ∈ m.names x, n.utf8ByteSize ≤ maxName) :
    wp (Desk.settle checks p q) (fun _ => Midway m old config l'
      (Refilled m text l' p (old.dirsAt q) (old.filesAt q) base)) E d := by
  have hletGo : (l.letGo p).shown (m.fresh old) = text := (Ledger.shown_congr (l.openText_letGo p)).trans htext
  have hend : ∀ d', d'.Midway m old config l' (m.site.Handed (m.parcels text (old.dirsAt q) (old.filesAt q)) base) →
      wp (Desk.resyncOpen p) (fun _ => Midway m old config l' (Refilled m text l' p (old.dirsAt q) (old.filesAt q) base)) E d' := by
    intro d' h'
    have hopen : ∀ x, l'.opens x = l.opens x := fun x => by
      rw [← hafter, Ledger.opens_adopted fun _ => rfl, Ledger.opens_letGo]
    refine h'.refill hbase ((Ledger.shown_congr ?_).trans hletGo) fun x hx hstarts hx' => hshort x hx hstarts ?_
    · rw [← hafter]
      exact Ledger.openText_adopted (fun _ => rfl) _ _
    · rwa [hopen] at hx'
  rw [Desk.settle, wp_bind]
  refine wp_imp (h.untrackAndClear hknown) (fun _ d₁ h₁ => ?_) fun _ _ he => he
  have hstat := hdetached.stat _ h₁.outside
  have hsame : d₁.shared.disk.hasDirectory q = old.hasDirectory q := by rw [Disk.hasDirectory, hstat, Disk.hasDirectory]
  rw [wp_bind, wp_get]
  refine (wp_ite _ _).mpr ⟨fun hdir => ?_, fun hfile => ?_⟩
  · have h₁ : d₁.Midway m old config (l.letGo p) (m.site.Handed [] base) := h₁
    rw [wp_bind]
    refine wp_imp (h₁.trackDir checks htotal hbase hq hdetached (hsame ▸ hdir) fun x _ => congrFun hletGo x)
      (fun _ d₂ h₂ => ?_) fun _ _ he => he
    rw [List.nil_append, hafter] at h₂
    exact hend d₂ h₂
  · have hfile : old.hasDirectory q = false := by simpa [hsame] using hfile
    have hdirs : old.dirsAt q = [] := by rw [Disk.dirsAt, hfile, if_neg Bool.false_ne_true]
    have hfiles : old.filesAt q = [q] := by rw [Disk.filesAt, hfile, if_neg Bool.false_ne_true]
    rw [hfiles, Ledger.adopted_one, if_pos rfl] at hafter
    rw [hdirs, hfiles] at hend ⊢
    obtain ⟨doc, hdoc, hcontent⟩ : ∃ doc, ((l.letGo p).take (m.fresh old) q).documents q = some doc
        ∧ doc.content = (l.letGo p).shown (m.fresh old) q := Ledger.exists_take (l.letGo p) q
    rw [wp_bind]
    refine wp_imp (h₁.trackFile hq (Disk.textOf_congr hstat)) (fun _ d₂ h₂ => ?_) fun _ _ he => he
    have h₂ : d₂.Midway m old config ((l.letGo p).take (m.fresh old) q) (m.site.Handed [] base) := h₂
    rw [wp_bind]
    refine wp_imp (h₂.hands hbase hq (Premises.short_of_stat hfound) hdoc (hcontent.trans (congrFun hletGo q)))
      (fun _ d₃ h₃ => ?_) fun _ _ he => he
    rw [wp_bind]
    refine wp_imp (h₃.diagnose checks htotal q) (fun _ d₄ h₄ => hend d₄ ?_) fun _ _ he => he
    rw [hafter] at h₄
    refine h₄.imp fun disk _ hdisk => ?_
    rwa [Premises.parcels, List.map_nil, List.nil_append, Premises.sheets, List.flatMap_singleton]

/-- What has got another name moves along in the replica, and is settled there. -/
theorem renamed {found : Location × Entry} {l' : Ledger} (htotal : checks.Total) (h : d.Midway m old config l (· = base))
    (hbase : m.site.Tidy base) (hp : m.root.Encloses p) (hq : m.root.Encloses q) (hdetached : m.Detached old q)
    (hfound : old.stat q = .ok found) (hknown : l.Knows p) (htext : l.shown (m.fresh old) = text)
    (hafter : (l.letGo p).adopted checks true (m.fresh old) (old.filesAt q) = l')
    (hshort : ∀ x, l'.places x → x.startsWith p = true → l.opens x = true → ∀ n ∈ m.names x, n.utf8ByteSize ≤ maxName) :
    wp (Desk.renamed checks p q) (fun _ => Midway m old config l' (Refilled m text l' p (old.dirsAt q) (old.filesAt q)
      (Site.moveAlong (m.copyOf p) (m.copyOf q) base))) E d := by
  have hspells := Premises.spells_copyOf hp
  have hspells' := Premises.spells_copyOf hq
  have hpath : d.shared.disk.hasPath q = true := by
    rw [Disk.hasPath, hdetached.stat _ h.outside, hfound]
    rfl
  have hmoved : m.site.Tidy (Site.moveAlong (m.copyOf p) (m.copyOf q) base) := hbase.moveAlong hspells hspells'
  refine wp_renamed (I := Midway m old config l (· = Site.moveAlong (m.copyOf p) (m.copyOf q) base)) checks hpath
    (fun hcopy => ?_) (fun hcopy => ?_) fun d₁ h₁ => h₁.settle checks htotal hmoved hq hdetached hfound hknown htext hafter hshort
  · rw [h.replicaPath_eq, h.disk] at hcopy
    rw [h.replicaPath_eq, h.replicaPath_eq]
    refine h.onReplica (Site.rename_kempt hspells hspells' old) fun _ disk _ hdisk _ => ?_
    rw [hdisk, Site.moveAlong, if_pos hcopy]
  · rw [h.replicaPath_eq, h.disk] at hcopy
    refine h.imp fun disk _ hdisk => ?_
    rw [hdisk, Site.moveAlong, hcopy, if_neg Bool.false_ne_true]

/-- Where nothing is found at the new path, nothing is done. -/
theorem renamed_missing (h : d.Midway m old config l D) (hmissing : d.shared.disk.hasPath q = false) :
    wp (Desk.renamed checks p q) (fun _ => Midway m old config l D) E d := by
  rw [Desk.renamed, wp_bind, wp_get, hmissing]
  exact (wp_pure _).mpr h

/-- What is gone is let go, and its copy is taken away, but for what is open. -/
theorem removed (h : d.Midway m old config l (· = base)) (hbase : m.site.Tidy base) (hp : m.root.Encloses p)
    (hknown : l.Knows p) (htext : l.shown (m.fresh old) = text)
    (hshort : ∀ x, l.places x → x.startsWith p = true → l.opens x = true → ∀ n ∈ m.names x, n.utf8ByteSize ≤ maxName) :
    wp (Desk.removed checks p) (fun _ => Midway m old config (l.letGo p)
      (Refilled m text (l.letGo p) p [] [] (Replica.diskAfter (Replica.remove (m.copyOf p)) base))) E d := by
  have hspells := Premises.spells_copyOf hp
  rw [Desk.removed, wp_bind]
  refine wp_imp (h.untrackAndClear hknown) (fun _ d₁ h₁ => ?_) fun _ _ he => he
  rw [wp_bind, wp_get, wp_bind, h₁.replicaPath_eq]
  refine wp_imp (h₁.onReplica (R := fun _ => m.site.Handed (m.parcels text [] [])
    (Replica.diskAfter (Replica.remove (m.copyOf p)) base)) (Site.work_kempt hspells .remove old) fun _ disk _ hdisk _ => ?_)
    (fun _ d₂ h₂ => ?_) fun _ _ he => he
  · rw [hdisk]
    rfl
  rw [wp_bind]
  refine wp_imp (h₂.refill (Replica.diskAfter_keeps (Site.work_keeps_tidy hspells .remove) hbase)
    ((Ledger.shown_congr (l.openText_letGo p)).trans htext) fun x hx hstarts hopen => hshort x hx.1 hstarts ?_)
    (fun _ d₃ h₃ => h₃.compile checks) fun _ _ he => he
  rwa [Ledger.opens_letGo] at hopen

end Desk.Midway

end LiveWorkspace
