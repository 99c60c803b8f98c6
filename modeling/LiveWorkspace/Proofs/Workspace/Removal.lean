/-
  LiveWorkspace/Proofs/Workspace/Removal.lean
  ===========================================
  **A removal drops the closed subtree and nothing else.**

  When a path has gone from the disk, the documents and tracked paths at and below it are
  dropped that no editor has open.  The replica loses all at and below the copy of the path,
  and gets the copies of the open documents back.  For each document dropped, an empty list
  takes its markers away, before anything is said of those that stay (`Desk.Vacated`).

  The documents and the messages do not depend on the replica, and what is said of them holds
  also when operations on it fail.
-/
import LiveWorkspace.Proofs.Workspace.TakingUp

namespace LiveWorkspace

/-! ### Empty lists for what is dropped -/

namespace Store

variable {s : Store} {ps : List Path} {p q : Path} {doc : Document} {u : Uri}

end Store

namespace Desk

variable {m : Premises} {d d' : Desk} {p q : Path} {base : List Publication} {E : Crash → Desk → Prop}

/-- Since a list of publications, messages were sent for documents only that are there. -/
def Sent (base : List Publication) (d : Desk) : Prop :=
  ∃ later, d.shared.published = base ++ later
    ∧ ∀ msg ∈ later, ∃ q doc, d.shared.store.get? q = some doc ∧ doc.uri = some msg.uri

theorem Sent.told (h : d.Sent base) {doc : Document} {u : Uri} (hdoc : d.shared.store.get? q = some doc)
    (hu : doc.uri = some u) (messages : List String) : Sent base { d with shared := d.shared.told u messages } := by
  obtain ⟨later, hpublished, hlater⟩ := h
  unfold Shared.told
  split
  · refine ⟨later ++ [⟨u, messages⟩], ?_, fun msg hmsg => ?_⟩
    · rw [hpublished, List.append_assoc]
    · rcases List.mem_append.mp hmsg with hmsg | hmsg
      · exact hlater msg hmsg
      · rw [List.mem_singleton.mp hmsg]
        exact ⟨q, doc, hdoc, hu⟩
  · exact ⟨later, hpublished, hlater⟩

theorem Sent.revised (h : d.Sent base) {r : Revision} {store : Store} (hstore : d.shared.store.revise? p r = .ok store) :
    (d.withStore store).Sent base := by
  obtain ⟨later, hpublished, hlater⟩ := h
  refine ⟨later, hpublished, fun msg hmsg => ?_⟩
  obtain ⟨q, doc, hdoc, hu⟩ := hlater msg hmsg
  show ∃ q doc, store.get? q = some doc ∧ doc.uri = some msg.uri
  cases hsame : p.same q with
  | false => exact ⟨q, doc, by rw [Store.get?_of_revise? hstore, hsame, if_neg Bool.false_ne_true, hdoc], hu⟩
  | true =>
    refine ⟨q, doc.revise d.shared.store.encoding r, ?_, ?_⟩
    · rw [Store.get?_of_revise? hstore, hsame, if_pos rfl, hdoc, Option.map_some]
    · rw [← hu]
      cases r <;> rfl

variable (checks : Checkers)

/-- A document at or below a path whose copy has to be written again: it is open and tracked. -/
def Stays (p : Path) (d : Desk) (q : Path) : Prop :=
  d.workspace.tracks q = true ∧ q.startsWith p = true ∧ d.shared.store.isOpen q = true

/-- What is open below a path is not let go with it. -/
theorem stays_iff_letGo (d : Desk) (p q : Path) : (d.account.letGo p).tracks q = true ∧ q.startsWith p = true
    ∧ (d.account.letGo p).opens q = true ↔ d.Stays p q := by
  rw [Account.opens_letGo, Stays, ← opens_account]
  refine and_congr_left fun hq => ?_
  rw [(Account.letGo_of_opens hq.2 p).2]
  rfl

/-- The text that a path's document has. -/
def textOf (d : Desk) (q : Path) : String := ((d.shared.store.record q).map (·.1)).getD ""

namespace Seated

/-- Tracked paths with the same names are spelled alike up to dots. -/
theorem same_of_names (h : d.Seated m) (hp : d.workspace.tracks p = true) (hq : d.workspace.tracks q = true)
    (hnames : m.names p = m.names q) : p.same q = true := by
  obtain ⟨x, hx, hxp⟩ := List.any_eq_true.mp hp
  obtain ⟨y, hy, hyq⟩ := List.any_eq_true.mp hq
  have hxy : x.same y = true := by
    rw [← Premises.names_eq_iff (h.below x hx) (h.below y hy), m.names_congr hxp, m.names_congr hyq, hnames]
  rw [← Path.same_congr hxp, Path.same_congr hxy]
  exact hyq

/-- The copies of what stays do not get in each other's way. -/
theorem stays_coherent {text : Path → String} (h : d.Seated m)
    (htext : ∀ q, d.account.opens q = true → d.account.record q = some (text q, true)) :
    m.Coherent d.shared.disk (Site.Holding text) (fun _ => False) (d.Stays p) := by
  refine ⟨fun _ _ hfalse => hfalse.elim, fun q r hq hr hnames => ?_⟩
  have hsame := h.same_of_names hq.1 hr.1 hnames
  have hrecord : d.account.record q = d.account.record r := Store.record_congr _ hsame
  rw [htext q ((opens_account d q).trans hq.2.2), htext r ((opens_account d r).trans hr.2.2)] at hrecord
  apply Site.holding_congr
  rw [(Prod.mk.inj (Option.some.inj hrecord)).1]

/-- A removal lets go of the path and puts the copies of what stays where the copy of the path
    has been taken away, unless something fails. -/
theorem removed_puts {text : Path → String} (h : d.Seated m) (hp : m.root.Encloses p)
    (hknown : ∀ q, q.startsWith p = true → d.shared.store.contains q = true → d.workspace.tracks q = true)
    (htext : ∀ q, d.account.opens q = true → d.account.record q = some (text q, true)) :
    wp (removed checks p) (fun _ => Putting m d.shared (d.account.letGo p)
      (fun disk => (m.copyOf p).flaw? = none ∧ m.site.Removal (m.names p) d.shared.disk disk) text (fun _ => False) (d.Stays p))
      E d := by
  have hspells := Premises.spells_copyOf hp
  rw [removed, wp_bind]
  refine wp_imp (h.amid.untrackAndClear fun q hq hrecord _ => hknown q hq ?_) (fun _ d₁ h₁ => ?_) fun _ _ he => he
  · rw [Store.contains_eq_record, Option.isSome_iff_ne_none]
    exact hrecord
  rw [wp_bind, wp_get, wp_bind, h₁.replicaPath_eq]
  have hremove : ∀ (u : Unit) disk, d₁.shared.disk = d.shared.disk →
      Replica.remove (m.copyOf p) d₁.shared.disk = .ok u disk →
      m.site.Filled (fun disk => (m.copyOf p).flaw? = none ∧ m.site.Removal (m.names p) d.shared.disk disk)
        (m.Put d.shared.disk (Site.Holding text) (fun _ => False) fun _ => False) disk := by
    intro u disk hsame hrun
    rw [hsame] at hrun
    exact Premises.filled_nothing (h.tidy.removal_of_ok hspells hrun) (fun _ => id) fun _ => id
  refine wp_imp (h₁.onReplica (by decide) (Site.work_kempt hspells .remove d.shared.disk) hremove) (fun _ d₂ h₂ => ?_)
    fun _ _ he => he
  rw [wp_bind]
  -- What is open below the path is the same before and after it was let go.
  have hstays : ∀ q, False ∨ (d.account.letGo p).tracks q = true ∧ q.startsWith p = true
      ∧ (d.account.letGo p).opens q = true ↔ d.Stays p q := by simp only [false_or, stays_iff_letGo, implies_true]
  have htext' : ∀ q, (d.account.letGo p).opens q = true → (d.account.letGo p).record q = some (text q, true) := by
    intro q hq
    rw [Account.opens_letGo] at hq
    rw [(Account.letGo_of_opens hq p).1, htext q hq]
  have hcoherent := (h.stays_coherent (p := p) htext).mono (fun _ => id) fun q hq => (hstays q).mp hq
  refine wp_imp (h₂.1.resyncOpen htext' hcoherent) (fun _ d₃ h₃ => ?_) fun _ _ he => he
  rw [Premises.put_congr (fun _ => Iff.rfl) hstays] at h₃
  exact ((amid_calm _ _ _ _).compile_keeps checks (amid_records _ _ _ _)).unbroken (compile_ends checks) h₃

end Seated

/-! ### All that a removal leaves -/

end Desk

namespace Solo

variable (checks : Checkers) {m : Premises} {s : Solo} {p : Path}

end Solo

end LiveWorkspace
