/-
  LiveWorkspace/Proofs/Workspace/Accounts.lean
  ============================================
  **What an event does to the documents and the tracked paths does not depend on the replica.**

  While an event of the disk is handled, documents are taken up and let go, and so are places
  among the tracked paths.  Each such step can be computed (`Account.take`, `Account.letGo`),
  and goes the same way when operations on the replica fail.  What is in the replica is only
  known as long as none has failed since the event began.  So both are told apart from one
  another (`Desk.Amid`): an account that always holds, and a property of the disk that holds
  unless something has failed.
-/
import LiveWorkspace.Proofs.Workspace.Seating

namespace LiveWorkspace

/-! ### Work that does not break off -/

/-- Work that ends with a value wherever it starts. -/
abbrev Unbroken {ε σ α : Type} (act : EStateM ε σ α) : Prop := Leads (fun _ => True) act fun _ _ => True

/-- Work that cannot break off ends. -/
theorem exists_ok_of_wp {ε σ : Type} {act : EStateM ε σ Unit} {Q : Unit → σ → Prop} {s : σ}
    (h : wp act Q (fun _ _ => False) s) : ∃ s', act s = .ok () s' ∧ Q () s' := by
  cases hact : act s with
  | ok u s' => exact ⟨s', rfl, (wp_of_ok hact).mp h⟩
  | error err s' => exact ((wp_of_error hact).mp h).elim

/-- What unbroken work preserves holds when it ends. -/
theorem Preserves.unbroken {ε σ α : Type} {I : σ → Prop} {act : EStateM ε σ α} {E : ε → σ → Prop} {s : σ}
    (h : Preserves I act) (hends : Unbroken act) (hs : I s) : wp act (fun _ => I) E s :=
  wp_imp (wp_and (h s hs) (hends s trivial)) (fun _ _ hd => hd.1) fun _ _ hfalse => hfalse.2.elim

theorem Unbroken.forM {ε σ α : Type} {f : α → EStateM ε σ PUnit} (xs : List α) (h : ∀ x, Unbroken (f x)) :
    Unbroken (xs.forM f) := Leads.forM (fun _ _ => True) xs fun _ x _ _ => h x

namespace Shared

theorem report_ends (r : Report) : Unbroken (report r) := fun _ _ => (wp_report r).mpr trivial

theorem publish_ends (u : Uri) (messages : List String) : Unbroken (publish u messages) := fun _ _ =>
  (wp_publish_told u messages).mpr trivial

theorem clear_ends (doc : Document) : Unbroken (clear doc) := by
  rw [clear]
  refine Leads.ite (fun _ => ?_) fun _ => Leads.pure fun _ _ => trivial
  split
  · exact publish_ends _ _
  · exact Leads.pure fun _ _ => trivial

variable (checks : Checkers)

theorem check_ends (htotal : checks.Total) (p : Path) : Unbroken (check checks p) := by
  intro s _
  rw [check, wp_bind, wp_get]
  cases hdoc : s.store.get? p with
  | none => exact (wp_pure _).mpr trivial
  | some doc =>
    refine (wp_ite _ _).mpr ⟨fun _ => (wp_pure _).mpr trivial, fun _ => ?_⟩
    obtain ⟨messages, hmessages⟩ := Option.isSome_iff_exists.mp (htotal p doc.content)
    simp only [hmessages, wp_bind, wp_revise]
    refine ⟨fun store _ => ?_, fun _ => (wp_pure _).mpr trivial⟩
    cases hu : doc.uri with
    | none => simp only [wp_pure]
    | some u => simp only [wp_bind, wp_publish_told, wp_pure]

theorem compileFile_ends (replicaDir : Path) (config : ProjectConfig) (p : Path) :
    Unbroken (compileFile checks replicaDir config p) := by
  intro s _
  rw [compileFile, wp_bind, wp_get]
  cases hdoc : s.store.get? p with
  | none => exact (wp_pure _).mpr trivial
  | some doc =>
    refine (wp_ite _ _).mpr ⟨fun _ => (wp_pure _).mpr trivial, fun _ => ?_⟩
    rw [wp_bind, wp_get, wp_bind, wp_modify]
    split
    · exact publish_ends _ _ _ trivial
    · exact (wp_pure _).mpr trivial

end Shared

namespace Desk

theorem onShared_ends {α : Type} {act : Act Shared α} (h : Unbroken act) : Unbroken (liftM act : Act Desk α) := by
  intro d _
  rw [wp_onShared]
  exact h d.shared trivial

variable (checks : Checkers)

theorem compile_ends : Unbroken (compile checks) := by
  rw [compile]
  refine Leads.get_bind fun d _ => Leads.pre (onShared_ends ?_) fun _ _ => trivial
  rw [Shared.compile]
  refine Leads.ite (fun _ => Unbroken.forM _ fun p => ?_) fun _ => Leads.pure fun _ _ => trivial
  exact Shared.compileFile_ends checks _ _ p

theorem diagnose_ends (htotal : checks.Total) (p : Path) : Unbroken (diagnose checks p) := by
  rw [diagnose]
  refine Leads.bind (onShared_ends (Shared.check_ends checks htotal p)) fun isFaust => ?_
  exact Leads.ite (fun _ => compile_ends checks) fun _ => Leads.pure fun _ _ => trivial

theorem reloadConfig_ends (htotal : checks.Total) : Unbroken (reloadConfig checks) := by
  have hload : Unbroken loadConfig := by
    rw [loadConfig]
    refine Leads.get_bind fun d _ => Leads.bind (S := fun _ _ => True) (Leads.pre (Unbroken.forM _ fun r => ?_)
      fun _ _ => trivial) fun _ d' _ => (wp_modify _).mpr trivial
    exact onShared_ends (Shared.report_ends r)
  rw [reloadConfig, diagnoseAll]
  refine Leads.bind (onShared_ends (Shared.report_ends _)) fun _ => Leads.bind hload fun _ => ?_
  refine Leads.get_bind fun d _ => Leads.bind (S := fun _ _ => True) (Leads.pre (Unbroken.forM _ fun p => ?_)
    fun _ _ => trivial) fun _ => compile_ends checks
  exact Leads.bind (onShared_ends (Shared.check_ends checks htotal p)) fun _ => Leads.pure fun _ _ => trivial

end Desk

/-! ### What the store says of a path -/

namespace Store

variable {s s' : Store} {p q : Path}

/-- The text of a path's document, and whether an editor has it open. -/
def record (s : Store) (p : Path) : Option (String × Bool) := (s.get? p).map fun doc => (doc.content, doc.isOpen)

theorem record_congr (s : Store) (h : p.same q = true) : s.record p = s.record q := by
  rw [record, record, get?_congr s h]

theorem isOpen_eq_record (s : Store) (p : Path) : s.isOpen p = (s.record p).any (·.2) := by
  rw [isOpen, record, Option.any_map]

theorem contains_eq_record (s : Store) (p : Path) : s.contains p = (s.record p).isSome := by
  rw [contains, record, Option.isSome_map]

theorem record_insert {doc : Document} (h : s.contains doc.path = false) (q : Path) :
    (s.insert doc).record q = if doc.path.same q then some (doc.content, doc.isOpen) else s.record q := by
  cases hsame : doc.path.same q with
  | true => rw [if_pos rfl, record, ← get?_congr _ hsame, get?_insert_self h, Option.map_some]
  | false => rw [if_neg Bool.false_ne_true, record, get?_insert_of_not_same s hsame, record]

/-- A mark changes neither the text nor who has it open. -/
theorem record_marked {found : Bool} (h : s.revise? p (.markErrors found) = .ok s') : s'.record = s.record := by
  funext q
  rw [record, get?_of_revise? h, record]
  split
  · rw [Option.map_map]
    rfl
  · rfl

/-- A document that is read again has the text that was read, and is not open. -/
theorem record_reloaded {text : String} (h : s.revise? p (.reload text) = .ok s') (q : Path) :
    s'.record q = if p.same q then some (text, false) else s.record q := by
  rw [record, get?_of_revise? h, record]
  cases hsame : p.same q with
  | false => rw [if_neg Bool.false_ne_true, if_neg Bool.false_ne_true]
  | true =>
    obtain ⟨doc, hdoc⟩ := Option.isSome_iff_exists.mp (contains_of_revise? h)
    rw [if_pos rfl, if_pos rfl, ← get?_congr _ hsame, hdoc]
    rfl

end Store

/-- A path that is entered has the text that was read. -/
theorem Shared.record_entered {s : Shared} {p : Path} (hnew : s.store.contains p = false) (root replica q : Path) :
    (s.store.insert (s.entered p root false none replica)).record q
      = if p.same q then some (s.disk.textOf p, false) else s.store.record q := by
  have hnew : s.store.contains (s.entered p root false none replica).path = false := hnew
  exact Store.record_insert hnew q

/-! ### Accounts -/

/-- The texts of documents with whether an editor has them open, and which paths are tracked. -/
@[ext] structure Account where
  record : Path → Option (String × Bool)
  tracks : Path → Bool

namespace Account

variable {a : Account} {p q : Path} {text : String}

/-- Whether an editor has a path open. -/
def opens (a : Account) (p : Path) : Bool := (a.record p).any (·.2)

/-- A path is taken up with the text that the disk has. What is open keeps its text. -/
def take (a : Account) (p : Path) (text : String) : Account where
  record q := if p.same q && !a.opens q then some (text, false) else a.record q
  tracks q := a.tracks q || p.same q

/-- A path is let go with all below it, but for what is open. -/
def letGo (a : Account) (p : Path) : Account where
  record q := if q.startsWith p && !a.opens q then none else a.record q
  tracks q := a.tracks q && !(q.startsWith p && !a.opens q)

/-- The text that the copy of a path gets: that of its open document, or else the disk's. -/
def textOr (a : Account) (p : Path) (text : String) : String :=
  match a.record p with
  | some (content, true) => content
  | _ => text

theorem opens_take (a : Account) (p : Path) (text : String) (q : Path) : (a.take p text).opens q = a.opens q := by
  show (if p.same q && !a.opens q then some (text, false) else a.record q).any (·.2) = a.opens q
  split
  · rename_i hclosed
    simp only [Bool.and_eq_true, Bool.not_eq_true'] at hclosed
    exact hclosed.2.symm
  · rfl

theorem opens_letGo (a : Account) (p q : Path) : (a.letGo p).opens q = a.opens q := by
  show (if q.startsWith p && !a.opens q then none else a.record q).any (·.2) = a.opens q
  split
  · rename_i hclosed
    simp only [Bool.and_eq_true, Bool.not_eq_true'] at hclosed
    exact hclosed.2.symm
  · rfl

/-- What is open stays as it is when a path is let go. -/
theorem letGo_of_opens (h : a.opens q = true) (p : Path) :
    (a.letGo p).record q = a.record q ∧ (a.letGo p).tracks q = a.tracks q := by
  simp [letGo, h]

theorem record_of_opens (h : a.opens p = true) : ∃ content, a.record p = some (content, true) := by
  unfold opens at h
  cases hrecord : a.record p with
  | none => simp [hrecord] at h
  | some x =>
    obtain ⟨content, isOpen⟩ := x
    obtain rfl : isOpen = true := by simpa [hrecord] using h
    exact ⟨content, rfl⟩

theorem textOr_of_opens {content : String} (h : a.record p = some (content, true)) (text : String) :
    a.textOr p text = content := by
  rw [textOr, h]

theorem textOr_of_closed (h : a.opens p = false) (text : String) : a.textOr p text = text := by
  unfold textOr
  split
  · rename_i hrecord
    simp [opens, hrecord] at h
  · rfl

/-- What has been taken up has its text. -/
theorem record_take_self (a : Account) (p : Path) (text : String) :
    (a.take p text).record p = some (a.textOr p text, a.opens p) := by
  cases hopen : a.opens p with
  | true =>
    obtain ⟨content, hrecord⟩ := record_of_opens hopen
    simp [take, hopen, hrecord, textOr_of_opens hrecord]
  | false => simp [take, hopen, Path.same_refl, textOr_of_closed hopen]

/-- What is taken up changes no other text that is to be written. -/
theorem textOr_take (a : Account) (p : Path) (text : String) (q : Path) (text' : String) :
    (a.take p text).textOr q text' = a.textOr q text' := by
  cases hopen : a.opens q with
  | true =>
    obtain ⟨content, hrecord⟩ := record_of_opens hopen
    have hkept : (a.take p text).record q = some (content, true) := by simpa [take, hopen] using hrecord
    rw [textOr_of_opens hrecord, textOr_of_opens hkept]
  | false => rw [textOr_of_closed hopen, textOr_of_closed ((opens_take a p text q).trans hopen)]

theorem textOr_letGo (a : Account) (p q : Path) (text : String) : (a.letGo p).textOr q text = a.textOr q text := by
  cases hopen : a.opens q with
  | true =>
    obtain ⟨content, hrecord⟩ := record_of_opens hopen
    have hkept : (a.letGo p).record q = some (content, true) := by simpa [letGo, hopen] using hrecord
    rw [textOr_of_opens hrecord, textOr_of_opens hkept]
  | false => rw [textOr_of_closed hopen, textOr_of_closed ((opens_letGo a p q).trans hopen)]

end Account

namespace Desk

/-- What can be said of the documents and the tracked paths at a desk. -/
def account (d : Desk) : Account := ⟨d.shared.store.record, d.workspace.tracks⟩

theorem opens_account (d : Desk) (p : Path) : d.account.opens p = d.shared.store.isOpen p :=
  (Store.isOpen_eq_record _ p).symm

/-- What letting go of a path takes: the closed paths at and below it. -/
def drops (p : Path) (d : Desk) (q : Path) : Bool := q.startsWith p && !d.shared.store.isOpen q

theorem drops_congr {d : Desk} {p q r : Path} (hsame : q.same r = true) : d.drops p q = d.drops p r := by
  rw [drops, drops, Path.startsWith_congr hsame, Store.isOpen_congr _ hsame]

theorem drops_of_gone {d : Desk} {p q : Path} (h : (d.gone p).any (·.same q) = true) : d.drops p q = true := by
  obtain ⟨r, hr, hsame⟩ := List.any_eq_true.mp h
  obtain ⟨-, hstarts, hclosed⟩ := mem_gone.mp hr
  rw [← drops_congr hsame, drops, hstarts, hclosed]
  rfl

/-- A tracked path is among what is let go just if it is taken. -/
theorem gone_iff_drops {d : Desk} {p q : Path} (hq : d.workspace.tracks q = true) :
    (d.gone p).any (·.same q) = d.drops p q := by
  rw [Bool.eq_iff_iff]
  refine ⟨drops_of_gone, fun hdrops => ?_⟩
  obtain ⟨r, hr, hsame⟩ := List.any_eq_true.mp hq
  rw [← drops_congr hsame, drops, Bool.and_eq_true, Bool.not_eq_true'] at hdrops
  exact List.any_eq_true.mpr ⟨r, mem_gone.mpr ⟨hr, hdrops⟩, hsame⟩

/-- Where the closed documents at and below a path are tracked, it is these that go with it. -/
theorem get?_untracked_of_known {d : Desk} {p q : Path}
    (hknown : d.drops p q = true → d.shared.store.contains q = true → d.workspace.tracks q = true) :
    (d.untracked p).shared.store.get? q = if d.drops p q then none else d.shared.store.get? q := by
  rw [get?_untracked]
  cases hdrops : d.drops p q with
  | true =>
    cases hdoc : d.shared.store.get? q with
    | none => simp
    | some doc =>
      have htracks := hknown hdrops (by rw [Store.contains, hdoc]; rfl)
      simp [(gone_iff_drops htracks).trans hdrops]
  | false =>
    -- Neither is it among what is let go, nor is it the path itself.
    have hout : (d.gone p).any (·.same q) = false := by
      rw [Bool.eq_false_iff]
      exact fun hin => by simp [drops_of_gone hin] at hdrops
    have hother : (!d.shared.store.isOpen p && p.same q) = false := by
      rw [Bool.eq_false_iff]
      intro hboth
      rw [Bool.and_eq_true] at hboth
      rw [← drops_congr hboth.2, drops, Path.startsWith_refl, hboth.1] at hdrops
      cases hdrops
    simp [hout, hother]

/-! ### In the midst of an event -/

/-- While an event is handled that began at `since`: how the workspace stands, what its account
    is, and what is known of the disk unless an operation on the replica has failed. -/
structure Amid (m : Premises) (since : Shared) (a : Account) (D : Disk → Prop) (d : Desk) : Prop extends Seated m d where
  outside : Disk.SameOutside m.site.zone since.disk d.shared.disk
  account : d.account = a
  counted : since.failures ≤ d.shared.failures
  filled : d.shared.failures = since.failures → D d.shared.disk

variable {m : Premises} {since : Shared} {a : Account} {D D' : Disk → Prop} {d : Desk} {p q : Path} {text : String}
  {E : Crash → Desk → Prop}

theorem Seated.amid (h : d.Seated m) : d.Amid m d.shared d.account (· = d.shared.disk) :=
  { h with outside := .refl _ _, account := rfl, counted := Nat.le_refl _, filled := fun _ => rfl }

namespace Amid

theorem record (h : d.Amid m since a D) (q : Path) : d.shared.store.record q = a.record q := by rw [← h.account]; rfl

theorem tracks (h : d.Amid m since a D) (q : Path) : d.workspace.tracks q = a.tracks q := by rw [← h.account]; rfl

theorem opens (h : d.Amid m since a D) (q : Path) : d.shared.store.isOpen q = a.opens q := by
  rw [← h.account, opens_account]

theorem kempt (h : d.Amid m since a D) : m.site.Kempt since.disk d.shared.disk := ⟨h.tidy, h.outside⟩

theorem imp (h : d.Amid m since a D) (himp : ∀ disk, m.site.Kempt since.disk disk → D disk → D' disk) :
    d.Amid m since a D' := { h with filled := fun hnone => himp _ h.kempt (h.filled hnone) }

end Amid

theorem amid_calm (m : Premises) (since : Shared) (a : Account) (D : Disk → Prop) : Calm (Amid m since a D) where
  shared w :=
    { report := fun s r h => by
        have hle : s.failures ≤ Shared.failures { s with reports := s.reports ++ [r] } := by
          rw [Shared.failures_append]
          exact Nat.le_add_right _ _
        refine { h with root := h.root, counted := Nat.le_trans h.counted hle, filled := fun hnone => h.filled ?_ }
        exact Nat.le_antisymm (Nat.le_trans hle (Nat.le_of_eq hnone)) h.counted
      publish := fun _ _ h => { h with root := h.root }
      mark := fun s p found store h hstore => by
        refine { h with root := h.root, account := ?_ }
        rw [← h.account]
        exact Account.ext (Store.record_marked hstore) rfl }
  config _ _ _ h := { h with root := h.root }

theorem amid_records (m : Premises) (since : Shared) (a : Account) (D : Disk → Prop) : Records (Amid m since a D) :=
  fun _ _ _ _ h _ _ => { h with root := h.root }

namespace Amid

theorem afterRead (h : d.Amid m since a D) (p : Path) :
    Amid m since a D { d with shared := d.shared.afterRead p } := (amid_calm m since a D).afterRead_keeps h p

/-- An operation on the replica changes what is known of the disk, or fails. -/
theorem onReplica {op : ReplicaOp Unit} {failure : String} (h : d.Amid m since a D)
    (hfailure : Report.replicaFailures.contains (.error failure) = true) (hkeeps : Preserves (m.site.Kempt since.disk) op)
    (hD : ∀ u disk, D d.shared.disk → op d.shared.disk = .ok u disk → D' disk) :
    wp (Desk.onReplica op failure)
      (fun made d' => d'.Amid m since a D' ∧ (made = false → since.failures < d'.shared.failures)) E d := by
  have hrun := hkeeps _ h.kempt
  refine wp_onReplica (fun u disk hok => ?_) fun err disk herror => ?_
  · have hkempt := (wp_of_ok hok).mp hrun
    exact ⟨{ h.toSeated.withDisk hkempt.tidy with
      outside := hkempt.outside, account := h.account, counted := h.counted
      filled := fun hnone => hD u disk (h.filled hnone) hok }, fun hmade => by cases hmade⟩
  · have hkempt := (wp_of_error herror).mp hrun
    have hcount := Shared.failures_of_failed d.shared disk hfailure
    have hmore : since.failures < d.shared.failures + 1 := Nat.lt_succ_of_le h.counted
    refine ⟨?_, fun _ => hcount ▸ hmore⟩
    refine { root := h.root, replica := h.replica, below := h.below, tidy := hkempt.tidy, outside := hkempt.outside
             account := h.account, counted := hcount ▸ Nat.le_of_lt hmore, filled := fun hnone => ?_ }
    exact absurd (hcount.symm.trans hnone) (Nat.ne_of_gt hmore)

/-! ### Documents and places -/

/-- A document has been entered or read again, and its path is tracked. -/
theorem taken (h : d.Amid m since a D) (hp : m.root.Encloses p) {store : Store}
    (hstore : ∀ q, store.record q = (a.take p text).record q) :
    Amid m since (a.take p text) D ({ d with workspace := d.workspace.track p }.withStore store) := by
  refine { h.toSeated.track hp with
    outside := h.outside, account := ?_, counted := h.counted, filled := h.filled }
  exact Account.ext (funext hstore) (funext fun q => (d.workspace.tracks_track p q).trans (by rw [h.tracks]; rfl))

theorem opens_same (h : d.Amid m since a D) (hsame : p.same q = true) : a.opens q = a.opens p := by
  rw [← h.opens, ← h.opens, Store.isOpen_congr _ hsame]

/-- What is let go is neither tracked any more nor has it a document. -/
theorem untracked (h : d.Amid m since a D)
    (hknown : ∀ q, q.startsWith p = true → a.record q ≠ none → a.opens q = false → a.tracks q = true) :
    Amid m since (a.letGo p) D (d.untracked p) := by
  have hdrops : ∀ q, d.drops p q = (q.startsWith p && !a.opens q) := fun q => by rw [drops, h.opens]
  refine { h with root := ?_, replica := ?_, below := ?_, account := ?_ }
  · exact (Workspace.root_foldl_release _ _).trans h.root
  · exact (Workspace.replica_foldl_release _ _).trans h.replica
  · exact fun q hq => h.below q (Workspace.mem_foldl_release hq)
  · refine Account.ext (funext fun q => ?_) (funext fun q => ?_)
    · show (d.untracked p).shared.store.record q = if q.startsWith p && !a.opens q then none else a.record q
      rw [Store.record, get?_untracked_of_known, hdrops, ← h.record]
      · split <;> rfl
      · intro hcond hin
        rw [hdrops, Bool.and_eq_true, Bool.not_eq_true'] at hcond
        rw [Store.contains_eq_record, h.record] at hin
        rw [h.tracks]
        exact hknown q hcond.1 (Option.isSome_iff_ne_none.mp hin) hcond.2
    · show ((d.gone p).foldl Workspace.release d.workspace).tracks q = (a.tracks q && !(q.startsWith p && !a.opens q))
      rw [Workspace.tracks_foldl_release, ← h.tracks, ← hdrops]
      cases hq : d.workspace.tracks q with
      | false => rfl
      | true => rw [gone_iff_drops hq]

/-- A file is taken up with the text that the disk has. -/
theorem trackFile (h : d.Amid m since a D) (hp : m.root.Encloses p) (htext : d.shared.disk.textOf p = text) :
    wp (trackFile p) (fun _ => Amid m since (a.take p text) D) E d := by
  have hread := h.afterRead p
  rw [Desk.trackFile, wp_bind, wp_get, wp_bind, wp_onShared, Shared.wp_openPath]
  refine ⟨fun hin => ?_, fun hnew => ?_⟩
  · -- A document that is there is read again, unless it is open.
    rw [wp_bind, wp_get]
    refine (wp_ite _ _).mpr ⟨fun hclosed => ?_, fun hopen => ?_⟩
    · have hclosed : a.opens p = false := by
        rw [← h.opens p]
        simpa using hclosed
      rw [wp_bind, wp_onShared, Shared.reload, wp_bind, Shared.wp_readText, Shared.wp_revise, htext]
      refine ⟨fun store hstore => ?_, fun hout => by simp [hin] at hout⟩
      rw [Desk.track, wp_modify]
      refine hread.taken hp fun q => ?_
      rw [Store.record_reloaded hstore, hread.record]
      cases hsame : p.same q with
      | false => simp [Account.take, hsame]
      | true => simp [Account.take, hsame, h.opens_same hsame, hclosed]
    · have hopen : a.opens p = true := by
        rw [← h.opens p]
        simpa using hopen
      rw [Desk.track, wp_modify]
      refine h.taken hp fun q => ?_
      rw [h.record]
      cases hsame : p.same q with
      | false => simp [Account.take, hsame]
      | true => simp [Account.take, h.opens_same hsame, hopen]
  · rw [wp_bind, wp_get]
    simp only [Bool.not_true, Bool.false_and, Bool.false_eq_true, if_false]
    rw [Desk.track, wp_modify]
    refine hread.taken hp fun q => ?_
    rw [Shared.record_entered hnew, htext, h.record]
    cases hsame : p.same q with
    | false => simp [Account.take, hsame]
    | true =>
      have hclosed : a.opens p = false := by
        rw [← h.opens p, Bool.eq_false_iff]
        exact fun hopen => by simp [Store.contains_of_isOpen hopen] at hnew
      simp [Account.take, hsame, h.opens_same hsame, hclosed]

/-- A path is let go, when all closed documents at and below it are tracked. -/
theorem untrackAndClear (h : d.Amid m since a D)
    (hknown : ∀ q, q.startsWith p = true → a.record q ≠ none → a.opens q = false → a.tracks q = true) :
    wp (Desk.untrackAndClear p) (fun _ => Amid m since (a.letGo p) D) E d := by
  rw [Desk.untrackAndClear, wp_bind]
  apply wp_untrack
  have hpreserves := Preserves.forM (I := Amid m since (a.letGo p) D) (d.droppedAt p)
    fun doc _ => (amid_calm m since (a.letGo p) D).clear_keeps doc
  refine hpreserves.unbroken (Unbroken.forM _ fun doc => onShared_ends (Shared.clear_ends doc)) ?_
  exact h.untracked hknown

/-! ### Copies -/

/-- The copy of a document is written. -/
theorem syncReplica {isOpen : Bool} (h : d.Amid m since a D) (hp : m.root.Encloses p)
    (hrecord : a.record p = some (text, isOpen))
    (hD : ∀ disk disk', m.site.Kempt since.disk disk → D disk →
      m.site.Lands (m.names p) (m.site.Written disk (m.names p) (Text.Utf8.encode text)) disk disk' → D' disk') :
    wp (syncReplica p) (fun _ => Amid m since a D') E d := by
  have hcopy := h.replicaPath_eq p
  rw [← h.record, Store.record, Option.map_eq_some_iff] at hrecord
  obtain ⟨doc, hdoc, hshown⟩ := hrecord
  obtain ⟨rfl, -⟩ := Prod.mk.inj hshown
  rw [Desk.syncReplica, wp_bind, wp_get]
  simp only [hdoc, hcopy]
  have hspells := Premises.spells_copyOf hp
  rw [wp_bind]
  refine wp_imp (h.onReplica (by decide) (Site.work_kempt hspells (.write _) since.disk) fun u disk hdisk hwrite => ?_)
    (fun _ _ hd => (wp_pure _).mpr hd.1) fun _ _ he => he
  exact hD _ _ h.kempt hdisk (h.tidy.stands.write_lands hspells hwrite)

end Amid

/-! ### Events -/

section Events

variable (checks : Checkers)

/-- What is done about an event, before a configuration that it touches is read again. -/
def handler (e : Watch.Event) : Act Desk Unit :=
  match e.kind, e.source with
  | .created, some source => renamed checks source e.path
  | .created, none => created checks e.path
  | .written, _ => written checks e.path
  | .removed, _ => removed checks e.path

/-- After the handler a configuration may be read again. -/
theorem wp_onDiskEvent_ends {e : Watch.Event} {I : Desk → Prop} {Q : Unit → Desk → Prop}
    (hclosed : d.shared.store.isOpen e.path = false)
    (hend : ∀ d', I d' → wp (if e.path.isConfigFile || e.source.any Path.isConfigFile then reloadConfig checks else pure ()) Q E d')
    (h : wp (handler checks e) (fun _ => I) E d) : wp (onDiskEvent checks e) Q E d := by
  rw [onDiskEvent, wp_bind, wp_get]
  refine (wp_ite _ _).mpr ⟨fun _ => ?_, fun hopen => absurd hclosed (by simpa using hopen)⟩
  have hboth : wp (do
      handler checks e
      if e.path.isConfigFile || e.source.any Path.isConfigFile then reloadConfig checks) Q E d := by
    rw [wp_bind]
    exact wp_imp h (fun _ d' hd' => hend d' hd') fun _ _ he => he
  rw [handler] at hboth
  obtain ⟨kind, path, source⟩ := e
  cases kind with
  | created =>
    cases source with
    | none => exact hboth
    | some source => exact hboth
  | written => exact hboth
  | removed => exact hboth

theorem wp_onDiskEvent {e : Watch.Event} {I : Desk → Prop} (hclosed : d.shared.store.isOpen e.path = false)
    (hreload : ∀ d', I d' → wp (reloadConfig checks) (fun _ => I) E d') (h : wp (handler checks e) (fun _ => I) E d) :
    wp (onDiskEvent checks e) (fun _ => I) E d :=
  wp_onDiskEvent_ends checks hclosed
    (fun d' hd' => (wp_ite _ _).mpr ⟨fun _ => hreload d' hd', fun _ => (wp_pure _).mpr hd'⟩) h

/-- Events for a path that an editor has open are ignored. -/
theorem onDiskEvent_of_open {e : Watch.Event} (hopen : d.shared.store.isOpen e.path = true) :
    onDiskEvent checks e d = .ok () d := by
  have hrun : wp (onDiskEvent checks e) (fun _ d' => d' = d) (fun _ _ => False) d := by
    rw [onDiskEvent, wp_bind, wp_get, hopen]
    exact (wp_pure _).mpr rfl
  obtain ⟨d', hact, rfl⟩ := exists_ok_of_wp hrun
  exact hact

theorem Amid.onDiskEvent {e : Watch.Event} (htotal : checks.Total) (hclosed : d.shared.store.isOpen e.path = false)
    (h : wp (handler checks e) (fun _ => Amid m since a D) E d) :
    wp (onDiskEvent checks e) (fun _ => Amid m since a D) E d :=
  wp_onDiskEvent checks hclosed (fun _ hd' => ((amid_calm m since a D).reloadConfig_keeps checks
    (amid_records m since a D)).unbroken (reloadConfig_ends checks htotal) hd') h

end Events

end Desk

end LiveWorkspace
