/-
  LiveWorkspace/Proofs/Workspace/Midway.lean
  ==========================================
  **What each step of an event does, whatever becomes of it.**

  The steps of an event are few: a path is let go, a file is taken up or checked, something is
  handed to the replica, the configuration is read again.  What each of them leaves can be said
  exactly (`Desk.Midway`): the documents and the tracked paths as a ledger, and of the disk what
  the operations on the replica leave there, also when they fail.  All the rest of the work only
  reports, publishes and compiles (`Shared.Quiet`).
-/
import LiveWorkspace.Proofs.Replica.Series
import LiveWorkspace.Proofs.Workspace.Ledgers
import LiveWorkspace.Proofs.Workspace.Renaming

namespace LiveWorkspace

/-! ### Work that changes no document and nothing on the disk -/

namespace Shared

/-- The documents and the disk are what they were. -/
def Held (store : Store) (disk : Disk) (s : Shared) : Prop := s.store = store ∧ s.disk = disk

/-- Work that changes neither the documents nor the disk, and does not break off. -/
def Quiet {α : Type} (act : Act Shared α) : Prop := ∀ store disk, Leads (Held store disk) act fun _ => Held store disk

theorem report_quiet (r : Report) : Quiet (report r) := fun _ _ _ hs => (wp_report r).mpr hs

theorem publish_quiet (u : Uri) (messages : List String) : Quiet (publish u messages) := fun _ _ _ hs =>
  (wp_publish_told u messages).mpr ⟨(told_store ..).trans hs.1, (told_disk ..).trans hs.2⟩

theorem Quiet.forM {α : Type} {f : α → Act Shared PUnit} (xs : List α) (h : ∀ x, Quiet (f x)) : Quiet (xs.forM f) :=
  fun store disk => Leads.forM (fun _ => Held store disk) xs fun _ x _ _ => h x store disk

theorem clear_quiet (doc : Document) : Quiet (clear doc) := by
  intro store disk
  rw [clear]
  refine Leads.ite (fun _ => ?_) fun _ => Leads.pure fun _ hs => hs
  split
  · exact publish_quiet _ _ store disk
  · exact Leads.pure fun _ hs => hs

variable (checks : Checkers)

theorem compileFile_quiet (replicaDir : Path) (config : ProjectConfig) (p : Path) :
    Quiet (compileFile checks replicaDir config p) := by
  intro store disk s hs
  rw [compileFile, wp_bind, wp_get]
  cases hdoc : s.store.get? p with
  | none => exact (wp_pure _).mpr hs
  | some doc =>
    refine (wp_ite _ _).mpr ⟨fun _ => (wp_pure _).mpr hs, fun _ => ?_⟩
    rw [wp_bind, wp_get, wp_bind, wp_modify]
    split
    · exact publish_quiet _ _ store disk _ hs
    · exact (wp_pure _).mpr hs

theorem compile_quiet (root replicaDir : Path) (config : ProjectConfig) : Quiet (compile checks root replicaDir config) := by
  intro store disk
  rw [compile]
  refine Leads.ite (fun _ => ?_) fun _ => Leads.pure fun _ hs => hs
  exact Quiet.forM _ (compileFile_quiet checks replicaDir config) store disk

end Shared

/-! ### Ledgers of desks -/

namespace Workspace

theorem tracked_foldl_release (ps : List Path) (w : Workspace) :
    (ps.foldl release w).tracked = w.tracked.filter fun q => !ps.any (·.same q) := by
  induction ps generalizing w with
  | nil => exact (List.filter_eq_self.mpr fun _ _ => rfl).symm
  | cons p rest ih =>
    rw [List.foldl_cons, ih, release, List.filter_filter]
    refine List.filter_congr fun q _ => ?_
    rw [List.any_cons, Path.same_comm p q, Bool.not_or, Bool.and_comm]

theorem mem_track {w : Workspace} {p q : Path} :
    q ∈ (w.track p).tracked ↔ q ∈ w.tracked ∨ q = p ∧ ∀ r ∈ w.tracked, r.same p = false := by
  unfold track tracks
  split
  · rename_i hin
    obtain ⟨r, hr, hsame⟩ := List.any_eq_true.mp hin
    refine ⟨.inl, fun hq => hq.elim id fun hq => ?_⟩
    rw [hq.2 r hr] at hsame
    cases hsame
  · rename_i hout
    have hfree : ∀ r ∈ w.tracked, r.same p = false := by simpa using hout
    simp only [List.mem_append, List.mem_singleton]
    exact or_congr_right ⟨fun hq => ⟨hq, hfree⟩, fun hq => hq.1⟩

theorem apart_track {w : Workspace} (h : Path.Apart w.tracked) (p : Path) : Path.Apart (w.track p).tracked := by
  unfold track tracks
  split
  · exact h
  · rename_i hout
    refine List.pairwise_append.mpr ⟨h, List.pairwise_singleton _ _, fun q hq r hr => ?_⟩
    rw [List.mem_singleton.mp hr]
    simpa using fun hsame => hout (List.any_eq_true.mpr ⟨q, hq, hsame⟩)

end Workspace

/-- The document that a path is entered with when it is found on a disk. -/
def Premises.fresh (m : Premises) (old : Disk) (p : Path) : Document :=
  Shared.entered { disk := old } p m.root false none (m.copyOf p)

namespace Ledger

variable {l : Ledger} {p : Path}

/-- All that has a document at and below a path is tracked. -/
def Knows (l : Ledger) (p : Path) : Prop :=
  ∀ q, q.startsWith p = true → l.documents q ≠ none → ∃ r, l.places r ∧ r.same q = true

theorem review_one (checks : Checkers) (p q : Path) (doc : Document) :
    review checks [p] q doc = if p.same q then doc.judged checks p else doc := by
  unfold review
  cases hsame : p.same q <;> simp [hsame]

theorem documents_reviewed_one (checks : Checkers) (l : Ledger) (p q : Path) : (l.reviewed checks [p]).documents q
    = if p.same q then (l.documents q).map (·.judged checks p) else l.documents q := by
  show (l.documents q).map (review checks [p] q) = _
  rw [funext (review_one checks p q)]
  cases p.same q <;> simp

/-- A check that finds nothing new leaves the ledger as it is. -/
theorem reviewed_eq_self {checks : Checkers}
    (h : ∀ q doc, p.same q = true → l.documents q = some doc → doc.judged checks p = doc) : l.reviewed checks [p] = l := by
  refine Ledger.ext (funext fun q => ?_) rfl
  rw [documents_reviewed_one]
  cases hsame : p.same q with
  | false => rfl
  | true => cases hdoc : l.documents q with
    | none => rfl
    | some doc => rw [if_pos rfl, Option.map_some, h q doc hsame hdoc]

@[simp] theorem reviewed_nil (checks : Checkers) (l : Ledger) : l.reviewed checks [] = l :=
  Ledger.ext (funext fun q => by simp [reviewed, review]) rfl

end Ledger

namespace Desk

/-- The documents and the tracked paths at a desk. -/
def ledger (d : Desk) : Ledger := ⟨d.shared.store.get?, (· ∈ d.workspace.tracked)⟩

/-- While an event is handled: how the workspace stands, what its documents and its tracked paths
    are, and what is known of the disk. -/
structure Midway (m : Premises) (old : Disk) (config : ProjectConfig) (l : Ledger) (D : Disk → Prop) (d : Desk) : Prop
    extends Seated m d where
  outside : Disk.SameOutside m.site.zone old d.shared.disk
  ledger : d.ledger = l
  apart : Path.Apart d.workspace.tracked
  config : d.workspace.config = config
  disk : D d.shared.disk

variable {m : Premises} {old : Disk} {config : ProjectConfig} {l : Ledger} {D D' : Disk → Prop} {d : Desk} {p q : Path}
  {E : Crash → Desk → Prop}

namespace Midway

theorem kempt (h : d.Midway m old config l D) : m.site.Kempt old d.shared.disk := ⟨h.tidy, h.outside⟩

theorem imp (h : d.Midway m old config l D) (himp : ∀ disk, m.site.Kempt old disk → D disk → D' disk) :
    d.Midway m old config l D' := { h with disk := himp _ h.kempt h.disk }

theorem get? (h : d.Midway m old config l D) (q : Path) : d.shared.store.get? q = l.documents q := by
  rw [← h.ledger]
  rfl

theorem opens (h : d.Midway m old config l D) (q : Path) : d.shared.store.isOpen q = l.opens q := by
  rw [← h.ledger]
  rfl

theorem mem_tracked (h : d.Midway m old config l D) : q ∈ d.workspace.tracked ↔ l.places q := by
  rw [← h.ledger]
  rfl

theorem documents_congr (h : d.Midway m old config l D) (hsame : p.same q = true) : l.documents p = l.documents q := by
  rw [← h.get?, ← h.get?, Store.get?_congr _ hsame]

theorem encloses (h : d.Midway m old config l D) (hq : l.places q) : m.root.Encloses q := h.below q (h.mem_tracked.mpr hq)

/-- What is about the documents, the disk and the workspace does not depend on the rest. -/
theorem held (h : d.Midway m old config l D) {s : Shared} (hs : s.Held d.shared.store d.shared.disk) :
    Midway m old config l D ⟨s, d.workspace⟩ := by
  obtain ⟨hstore, hdisk⟩ := hs
  refine { root := h.root, replica := h.replica, below := h.below, tidy := ?_, outside := ?_, ledger := ?_, apart := h.apart,
           config := h.config, disk := ?_ }
  · rw [hdisk]
    exact h.tidy
  · rw [hdisk]
    exact h.outside
  · rw [← h.ledger, Desk.ledger, Desk.ledger, hstore]
  · rw [hdisk]
    exact h.disk

theorem quiet {α : Type} {act : Act Shared α} (h : d.Midway m old config l D) (hact : Shared.Quiet act) :
    wp (liftM act : Act Desk α) (fun _ => Midway m old config l D) E d := by
  rw [wp_onShared]
  exact wp_imp (hact _ _ d.shared ⟨rfl, rfl⟩) (fun _ _ hs => h.held hs) fun _ _ hfalse => hfalse.elim

theorem compile (checks : Checkers) (h : d.Midway m old config l D) :
    wp (compile checks) (fun _ => Midway m old config l D) E d := by
  rw [Desk.compile, wp_bind, wp_get]
  exact h.quiet (Shared.compile_quiet checks _ _ _)

/-- The documents have changed, or the tracked paths. -/
theorem noting {l' : Ledger} {d' : Desk} (h : d.Midway m old config l D) (hseated : d'.Seated m)
    (hdisk : d'.shared.disk = d.shared.disk) (hledger : d'.ledger = l') (hapart : Path.Apart d'.workspace.tracked)
    (hconfig : d'.workspace.config = d.workspace.config) : d'.Midway m old config l' D where
  toSeated := hseated
  outside := hdisk ▸ h.outside
  ledger := hledger
  apart := hapart
  config := hconfig.trans h.config
  disk := hdisk ▸ h.disk

/-! ### Checks -/

/-- A document that is revised is revised under all spellings of its path. -/
theorem revised {r : Revision} {store : Store} {l' : Ledger} (h : d.Midway m old config l D)
    (hstore : d.shared.store.revise? p r = .ok store)
    (hdocuments : ∀ q, l'.documents q = if p.same q then (l.documents q).map (·.revise d.shared.store.encoding r)
      else l.documents q)
    (hplaces : ∀ q, l'.places q ↔ l.places q) : Midway m old config l' D (d.withStore store) := by
  refine h.noting { h with root := h.root } rfl (Ledger.ext (funext fun q => ?_) (funext fun q => propext ?_)) h.apart rfl
  · show store.get? q = l'.documents q
    rw [Store.get?_of_revise? hstore, h.get?, hdocuments]
  · show q ∈ d.workspace.tracked ↔ l'.places q
    rw [h.mem_tracked, hplaces]

variable (checks : Checkers)

/-- The document that is found at a path is that of all spellings of the path. -/
theorem eq_of_same {doc doc' : Document} (h : d.Midway m old config l D) (hdoc : d.shared.store.get? p = some doc)
    (hsame : p.same q = true) (hq : l.documents q = some doc') : doc' = doc := by
  rw [← h.documents_congr hsame, ← h.get?, hdoc] at hq
  exact (Option.some.inj hq).symm

/-- A check notes what it has found in the document of its path. -/
theorem check (htotal : checks.Total) (h : d.Midway m old config l D) (p : Path) :
    wp (liftM (Shared.check checks p) : Act Desk Bool) (fun _ => Midway m old config (l.reviewed checks [p]) D) E d := by
  rw [wp_onShared, Shared.check, wp_bind, wp_get]
  cases hdoc : d.shared.store.get? p with
  | none =>
    rw [wp_pure, Ledger.reviewed_eq_self]
    · exact h
    · intro q doc hsame hq
      rw [← h.documents_congr hsame, ← h.get?, hdoc] at hq
      cases hq
  | some doc =>
    refine (wp_ite _ _).mpr ⟨fun hother => ?_, fun hfaust => ?_⟩
    · rw [wp_pure, Ledger.reviewed_eq_self]
      · exact h
      · intro q doc' hsame hq
        rw [h.eq_of_same hdoc hsame hq, Document.judged, if_neg (by simpa using hother)]
    · obtain ⟨messages, hmessages⟩ := Option.isSome_iff_exists.mp (htotal p doc.content)
      have hfaust : doc.kind.isFaust = true := by simpa using hfaust
      simp only [hmessages, wp_bind, Shared.wp_revise]
      refine ⟨fun store hstore => ?_, fun hout => ?_⟩
      · have hmarked : Midway m old config (l.reviewed checks [p]) D (d.withStore store) := by
          refine h.revised hstore (fun q => ?_) fun _ => Iff.rfl
          rw [Ledger.documents_reviewed_one]
          cases hsame : p.same q with
          | false => rfl
          | true =>
            rw [if_pos rfl, if_pos rfl]
            refine Option.map_congr fun doc' hq => ?_
            rw [h.eq_of_same hdoc hsame hq, Document.judged, if_pos hfaust, hmessages]
            rfl
        cases hu : doc.uri with
        | none =>
          rw [wp_pure]
          exact hmarked
        | some u =>
          show wp (do Shared.publish u messages; pure true) _ _ _
          rw [wp_bind, Shared.wp_publish_told, wp_pure]
          exact hmarked.held ⟨Shared.told_store .., Shared.told_disk ..⟩
      · rw [Store.contains, hdoc] at hout
        cases hout

theorem diagnose (htotal : checks.Total) (h : d.Midway m old config l D) (p : Path) :
    wp (diagnose checks p) (fun _ => Midway m old config (l.reviewed checks [p]) D) E d := by
  rw [Desk.diagnose, wp_bind]
  refine wp_imp (h.check checks htotal p) (fun _ d' h' => ?_) fun _ _ he => he
  exact (wp_ite _ _).mpr ⟨fun _ => h'.compile checks, fun _ => (wp_pure _).mpr h'⟩

/-! ### Taking up and letting go -/

/-- A document has come, or has been read again, and its path is tracked. -/
theorem entered {fresh : Path → Document} {store : Store} (h : d.Midway m old config l D) (hp : m.root.Encloses p)
    (hstore : ∀ q, store.get? q = (l.take fresh p).documents q) :
    Midway m old config (l.take fresh p) D ({ d with workspace := d.workspace.track p }.withStore store) := by
  refine h.noting { h.toSeated.track hp with root := (h.toSeated.track hp).root } rfl
    (Ledger.ext (funext hstore) (funext fun q => propext ?_)) (Workspace.apart_track h.apart p) ?_
  · show q ∈ (d.workspace.track p).tracked ↔ l.places q ∨ q = p ∧ ∀ r, l.places r → r.same p = false
    rw [Workspace.mem_track, h.mem_tracked]
    exact or_congr_right (and_congr_right fun _ => ⟨fun hfree r hr => hfree r (h.mem_tracked.mpr hr),
      fun hfree r hr => hfree r (h.mem_tracked.mp hr)⟩)
  · show (d.workspace.track p).config = d.workspace.config
    unfold Workspace.track
    split <;> rfl

/-- A file is taken up with the text that the disk has. -/
theorem trackFile (h : d.Midway m old config l D) (hp : m.root.Encloses p) (htext : d.shared.disk.textOf p = old.textOf p) :
    wp (trackFile p) (fun _ => Midway m old config (l.take (m.fresh old) p) D) E d := by
  have hread : Midway m old config l D { d with shared := d.shared.afterRead p } :=
    h.held ⟨Shared.afterRead_store .., Shared.afterRead_disk ..⟩
  have hopen : ∀ q, p.same q = true → l.opens q = d.shared.store.isOpen p := fun q hsame => by
    rw [h.opens, Ledger.opens, Ledger.opens, h.documents_congr hsame]
  rw [Desk.trackFile, wp_bind, wp_get, wp_bind, wp_onShared, Shared.wp_openPath]
  refine ⟨fun hin => ?_, fun hnew => ?_⟩
  · obtain ⟨doc, hdoc⟩ := Option.isSome_iff_exists.mp hin
    rw [wp_bind, wp_get]
    refine (wp_ite _ _).mpr ⟨fun hclosed => ?_, fun hopened => ?_⟩
    · have hclosed : d.shared.store.isOpen p = false := by simpa using hclosed
      rw [wp_bind, wp_onShared, Shared.reload, wp_bind, Shared.wp_readText, Shared.wp_revise, htext]
      refine ⟨fun store hstore => ?_, fun hout => by simp [hin] at hout⟩
      rw [Desk.track, wp_modify]
      refine hread.entered hp fun q => ?_
      show store.get? q = if p.same q then _ else l.documents q
      rw [Store.get?_of_revise? hstore, hread.get?]
      cases hsame : p.same q with
      | false => rfl
      | true =>
        rw [← h.documents_congr hsame, ← h.get?, hdoc, if_pos rfl, if_pos rfl, Option.map_some, Option.map_some]
        rw [Store.isOpen, hdoc, Option.any_some] at hclosed
        rw [Option.getD_some, Document.reread, hclosed, if_neg Bool.false_ne_true, Document.revise, ← hclosed]
        rfl
    · have hopened : d.shared.store.isOpen p = true := by simpa using hopened
      rw [Desk.track, wp_modify]
      refine h.entered hp fun q => ?_
      show d.shared.store.get? q = if p.same q then _ else l.documents q
      rw [h.get?]
      cases hsame : p.same q with
      | false => rfl
      | true =>
        rw [← h.documents_congr hsame, ← h.get?, hdoc, if_pos rfl, Option.map_some, Option.getD_some]
        rw [Store.isOpen, hdoc, Option.any_some] at hopened
        rw [Document.reread, hopened, if_pos rfl]
  · rw [wp_bind, wp_get]
    simp only [Bool.not_true, Bool.false_and, Bool.false_eq_true, if_false]
    rw [Desk.track, wp_modify]
    refine hread.entered hp fun q => ?_
    have hfresh : d.shared.entered p d.workspace.root false none (d.workspace.replicaPath p) = m.fresh old p := by
      rw [Premises.fresh, Shared.entered, Shared.entered, htext, h.root, h.replicaPath_eq]
    show (d.shared.store.insert _).get? q = if p.same q then _ else l.documents q
    rw [hfresh]
    have hnew' : d.shared.store.contains (m.fresh old p).path = false := hnew
    cases hsame : p.same q with
    | false =>
      rw [Store.get?_insert_of_not_same _ (show (m.fresh old p).path.same q = false from hsame), h.get?]
      rfl
    | true =>
      rw [Store.contains, Option.isSome_eq_false_iff, Option.isNone_iff_eq_none] at hnew
      rw [← Store.get?_congr _ hsame, if_pos rfl, ← h.documents_congr hsame, ← h.get?, hnew]
      exact Store.get?_insert_self hnew'

theorem any_gone (h : d.Midway m old config l D) (hq : ∃ r, l.places r ∧ r.same q = true) :
    (d.gone p).any (·.same q) = l.drops p q := by
  obtain ⟨r, hr, hsame⟩ := hq
  rw [gone_iff_drops (List.any_eq_true.mpr ⟨r, h.mem_tracked.mpr hr, hsame⟩), Desk.drops, h.opens, Ledger.drops]

/-- The documents that stay when a path is let go, and all documents at and below it are tracked. -/
theorem get?_untracked_of_knows (h : d.Midway m old config l D) (hknown : l.Knows p) (q : Path) :
    (d.untracked p).shared.store.get? q = (l.letGo p).documents q := by
  have hdrops : d.drops p q = l.drops p q := by rw [Desk.drops, h.opens, Ledger.drops]
  rw [get?_untracked_of_known, hdrops, h.get?]
  · rfl
  · intro hcond hin
    rw [hdrops, Ledger.drops, Bool.and_eq_true] at hcond
    rw [Store.contains, h.get?] at hin
    obtain ⟨r, hr, hsame⟩ := hknown q hcond.1 (Option.isSome_iff_ne_none.mp hin)
    exact List.any_eq_true.mpr ⟨r, h.mem_tracked.mpr hr, hsame⟩

/-- A path is let go, when all documents at and below it are tracked. -/
theorem untracked (h : d.Midway m old config l D) (hknown : l.Knows p) : Midway m old config (l.letGo p) D (d.untracked p) := by
  have htracked : (d.untracked p).workspace.tracked = d.workspace.tracked.filter fun q => !(d.gone p).any (·.same q) :=
    Workspace.tracked_foldl_release _ _
  refine h.noting ⟨?_, ?_, ?_, h.tidy⟩ rfl ?_ ?_ ?_
  · exact (Workspace.root_foldl_release _ _).trans h.root
  · exact (Workspace.replica_foldl_release _ _).trans h.replica
  · exact fun q hq => h.below q (Workspace.mem_foldl_release hq)
  · refine Ledger.ext (funext (h.get?_untracked_of_knows hknown)) (funext fun q => propext ?_)
    show q ∈ (d.untracked p).workspace.tracked ↔ l.places q ∧ l.drops p q = false
    rw [htracked, List.mem_filter, h.mem_tracked]
    refine and_congr_right fun hq => ?_
    rw [h.any_gone ⟨q, hq, Path.same_refl q⟩, Bool.not_eq_true']
  · rw [htracked]
    exact h.apart.sublist List.filter_sublist
  · exact Workspace.config_foldl_release _ _

theorem untrackAndClear (h : d.Midway m old config l D) (hknown : l.Knows p) :
    wp (untrackAndClear p) (fun _ => Midway m old config (l.letGo p) D) E d := by
  rw [Desk.untrackAndClear, wp_bind]
  apply wp_untrack
  refine wp_forM (fun _ => Midway m old config (l.letGo p) D) (h.untracked hknown) fun _ doc _ d' _ h' => ?_
  exact h'.quiet (Shared.clear_quiet doc)

/-! ### The replica -/

/-- An operation on the replica leaves what it leaves, whether it has failed or not. -/
theorem onReplica {op : ReplicaOp Unit} {failure : String} {R : Bool → Disk → Prop} (h : d.Midway m old config l D)
    (hkeeps : Preserves (m.site.Kempt old) op)
    (hD : ∀ made disk, m.site.Kempt old disk → D disk → (made = true ↔ ∃ t, op disk = .ok () t) →
      R made (Replica.diskAfter op disk)) :
    wp (Desk.onReplica op failure) (fun made => Midway m old config l (R made)) E d := by
  have hrun := Replica.diskAfter_keeps hkeeps h.kempt
  have hafter : ∀ made, (made = true ↔ ∃ t, op d.shared.disk = .ok () t) →
      Midway m old config l (R made) (d.afterReplica op) := fun made hmade =>
    { h.toSeated.withDisk hrun.tidy with
      outside := hrun.outside, ledger := h.ledger, apart := h.apart, config := h.config
      disk := hD made _ h.kempt h.disk hmade }
  refine wp_onReplica (fun u disk hok => ?_) fun err disk herror => ?_
  · have hdisk := hafter true ⟨fun _ => ⟨disk, hok⟩, fun _ => rfl⟩
    simpa only [afterReplica, Replica.diskAfter, hok] using hdisk
  · have hfails : ¬ ∃ t, op d.shared.disk = .ok () t := by
      rintro ⟨t, ht⟩
      rw [herror] at ht
      cases ht
    have hdisk := hafter false (iff_of_false Bool.false_ne_true hfails)
    simp only [afterReplica, Replica.diskAfter, herror] at hdisk
    exact hdisk.held ⟨rfl, rfl⟩

/-- The copy of a document is written. -/
theorem syncReplica {doc : Document} {R : Disk → Prop} (h : d.Midway m old config l D) (hp : m.root.Encloses p) (hdoc : l.documents p = some doc)
    (hD : ∀ disk, m.site.Kempt old disk → D disk →
      R (Replica.diskAfter (Replica.write (m.copyOf p) (Text.Utf8.encode doc.content)) disk)) :
    wp (syncReplica p) (fun _ => Midway m old config l R) E d := by
  rw [Desk.syncReplica, wp_bind, wp_get]
  simp only [h.get?, hdoc, h.replicaPath_eq]
  rw [wp_bind]
  refine wp_imp (h.onReplica (R := fun _ => R) (Site.work_kempt (Premises.spells_copyOf hp) (.write _) old)
    fun _ disk hkempt hdisk _ => hD disk hkempt hdisk) (fun _ _ h' => (wp_pure _).mpr h') fun _ _ he => he

/-- A directory is copied without what it holds. -/
theorem adoptDir {R : Disk → Prop} (h : d.Midway m old config l D) (hp : m.root.Encloses p)
    (hD : ∀ disk, m.site.Kempt old disk → D disk →
      R (Replica.diskAfter (do Replica.createDir (m.copyOf p) (← Replica.modeOf p)) disk)) :
    wp (adoptDir p) (fun _ => Midway m old config l R) E d := by
  rw [Desk.adoptDir, wp_bind, wp_get]
  simp only [h.replicaPath_eq]
  rw [wp_bind]
  refine wp_imp (h.onReplica (R := fun _ => R) (Site.work_kempt (Premises.spells_copyOf hp) (.adopt p) old)
    fun _ disk hkempt hdisk _ => hD disk hkempt hdisk) (fun _ d' h' => ?_) fun _ _ he => he
  rw [wp_modify]
  exact h'.held ⟨rfl, rfl⟩

/-! ### The configuration -/

/-- What the configuration becomes when it is read again. -/
def reloaded (m : Premises) (l : Ledger) (ps : List Path) : ProjectConfig :=
  (ProjectConfig.ofDocument ((l.documents (m.root.child configFileName)).map (·.content))).1.withUnits
    ((ps.filter fun p => FileKind.ofPath p = .unit).map (·.relativeTo m.root))

/-- Paths that differ are checked one after the other. -/
theorem reviewed_concat {l : Ledger} {ps : List Path} (h : Path.Apart (ps ++ [p])) :
    (l.reviewed checks ps).reviewed checks [p] = l.reviewed checks (ps ++ [p]) := by
  refine Ledger.ext (funext fun q => ?_) rfl
  show ((l.documents q).map _).map _ = (l.documents q).map _
  rw [Option.map_map]
  congr 1
  funext doc
  rw [Function.comp_apply, Ledger.review_one]
  have hcross := (List.pairwise_append.mp h).2.2
  unfold Ledger.review
  rw [List.find?_append]
  cases hsame : p.same q with
  | false => cases ps.find? (·.same q) <;> simp [hsame]
  | true =>
    have hnone : ps.find? (·.same q) = none := by
      refine List.find?_eq_none.mpr fun r hr => ?_
      rw [Path.same_comm, ← Path.same_congr hsame, Path.same_comm, hcross r hr p (List.mem_singleton_self p)]
      exact Bool.false_ne_true
    simp [hnone, hsame]

/-- When the configuration is read again, all documents are checked. -/
theorem reloadConfig (htotal : checks.Total) (h : d.Midway m old config l D) :
    wp (reloadConfig checks) (fun _ d' => d'.workspace.tracked = d.workspace.tracked
      ∧ d'.Midway m old (reloaded m l d.workspace.files) (l.reviewed checks d.workspace.files) D) E d := by
  have hload : ∀ d', d'.Midway m old config l D ∧ d'.workspace = d.workspace →
      wp loadConfig (fun _ d' => d'.Midway m old (reloaded m l d.workspace.files) l D
        ∧ d'.workspace.tracked = d.workspace.tracked) E d' := by
    rintro d' ⟨h', hw⟩
    rw [loadConfig, wp_bind, wp_get, wp_bind]
    refine wp_imp (wp_forM (fun _ d' => d'.Midway m old config l D ∧ d'.workspace = d.workspace) ⟨h', hw⟩
      fun _ r _ d'' _ h'' => ?_) (fun _ d'' h'' => ?_) fun _ _ he => he
    · rw [wp_onShared, Shared.wp_report]
      exact ⟨h''.1.held ⟨rfl, rfl⟩, h''.2⟩
    · rw [wp_modify]
      obtain ⟨h'', hw'⟩ := h''
      refine ⟨⟨⟨h''.root, h''.replica, h''.below, h''.tidy⟩, h''.outside, h''.ledger, h''.apart, ?_, h''.disk⟩, ?_⟩
      · show ProjectConfig.withUnits _ _ = _
        rw [reloaded, h'.get?, Workspace.configPath, h'.root, Workspace.units, h''.root, hw']
      · show d''.workspace.tracked = _
        rw [hw']
  rw [Desk.reloadConfig, wp_bind, wp_onShared, Shared.wp_report, wp_bind]
  refine wp_imp (hload _ ⟨h.held ⟨rfl, rfl⟩, rfl⟩) (fun _ d₁ h₁ => ?_) fun _ _ he => he
  obtain ⟨h₁, htracked⟩ := h₁
  have hfiles : d₁.workspace.files = d.workspace.files := by rw [Workspace.files, Workspace.files, htracked]
  have hapart : Path.Apart d.workspace.files :=
    h.apart.perm (Path.sort_perm _).symm fun hpq => by rwa [Path.same_comm]
  rw [diagnoseAll, wp_bind, wp_get, wp_bind, hfiles]
  refine wp_imp (wp_forM (fun done d' => d'.workspace.tracked = d.workspace.tracked
    ∧ d'.Midway m old (reloaded m l d.workspace.files) (l.reviewed checks done) D) ⟨htracked, ?_⟩
      fun done p rest d₂ hps h₂ => ?_) (fun _ d₂ h₂ => ?_) fun _ _ he => he
  · rwa [Ledger.reviewed_nil]
  · have hpre : Path.Apart (done ++ [p]) := by
      rw [hps, List.append_cons] at hapart
      exact hapart.sublist (List.sublist_append_left _ _)
    rw [wp_bind]
    refine wp_imp (wp_and (h₂.2.check checks htotal p) (onShared_workspace _ d₂.workspace d₂ rfl)) (fun _ d₃ h₃ => ?_)
      fun _ _ he => he.1
    rw [reviewed_concat checks hpre] at h₃
    exact (wp_pure _).mpr ⟨(congrArg Workspace.tracked h₃.2).trans h₂.1, h₃.1⟩
  · have hcompile : Preserves (fun d' : Desk => d'.workspace = d₂.workspace) (Desk.compile checks) := by
      rw [Desk.compile]
      exact Preserves.get_bind fun _ _ => onShared_workspace _ _
    exact wp_imp (wp_and (h₂.2.compile checks) (hcompile d₂ rfl)) (fun _ d₃ h₃ =>
      ⟨(congrArg Workspace.tracked h₃.2).trans h₂.1, h₃.1⟩) fun _ _ he => he.1

end Midway

end Desk

end LiveWorkspace
