/-
  LiveWorkspace/Proofs/Workspace/Triples.lean
  ===========================================
  **What a piece of work does, unless an operation on the replica fails.**

  Whether an operation on a replica failed is seen in the reports, and reports are only
  added.  So what a handler does is said under the proviso that the count of failures has
  stayed what it was (`Unless`): a triple `Does t act P Q` takes `P` to `Q` under this
  proviso, and triples compose although a handler goes on after a failure.

  All triples of one handler share a `Tally`.  Next to the count of failures it fixes
  which paths are open, which no handler changes, and what every compilation that the
  handler issues must be like; that much holds also where a checker breaks down.
-/
import LiveWorkspace.Proofs.Workspace.Keeping

namespace LiveWorkspace

/-! ### Failures of the replica -/

/-- The reports of operations on a replica that failed. -/
def Report.replicaFailures : List Report :=
  ["Failed to create mirror file", "Failed to write mirror file", "Failed to remove mirror file",
    "Failed to rename mirror entry", "Failed to remove mirror entry", "Failed to mirror directory",
    "Failed to mirror file"].map .error

/-- How many operations on replicas have failed. -/
def Shared.failures (s : Shared) : Nat := s.reports.countP Report.replicaFailures.contains

theorem Shared.failures_append (s : Shared) (rs : List Report) :
    Shared.failures { s with reports := s.reports ++ rs }
      = s.failures + rs.countP Report.replicaFailures.contains := by
  rw [Shared.failures, Shared.failures, List.countP_append]

/-- An operation that fails with its report is counted. -/
theorem Shared.failures_of_failed (s : Shared) (disk : Disk) {failure : String}
    (hfailure : Report.replicaFailures.contains (.error failure) = true) :
    Shared.failures { s with disk := disk, reports := s.reports ++ [.error failure] } = s.failures + 1 := by
  rw [show s.failures = Shared.failures { s with disk := disk } from rfl]
  exact (failures_append { s with disk := disk } _).trans (by rw [List.countP_singleton, hfailure]; rfl)

/-- A failure stays reported. -/
theorem Shared.kept_failed (n : Nat) : Shared.Kept (fun s => n < s.failures) fun _ => True where
  report s r hs := by
    rw [failures_append]
    exact Nat.lt_add_right _ hs
  publish _ _ hs := hs
  mark _ _ _ _ hs _ := hs
  closed _ _ _ _ := trivial
  disk _ _ hs := hs
  watch _ _ hs := hs
  insert _ _ _ hs := hs
  erase _ _ _ hs := hs
  revise _ _ _ _ _ _ hs _ := hs

theorem Shared.records_failed (n : Nat) : Shared.Records fun s => n < s.failures := fun _ _ _ hs _ _ => hs

/-! ### The state of a piece of work -/

/-- What had been reported and compiled when a piece of work began, which paths were open
    then, and what its compilations must be like. -/
structure Tally where
  failures : Nat
  compiled : List Compilation
  isOpen : Path → Bool
  good : Compilation → Prop

namespace Desk

/-- An operation on a replica has failed since. -/
def Spoilt (t : Tally) (d : Desk) : Prop := t.failures < d.shared.failures

/-- What was compiled since is good. -/
def Issued (t : Tally) (d : Desk) : Prop :=
  ∃ cs, d.shared.compiled = t.compiled ++ cs ∧ ∀ c ∈ cs, t.good c

/-- Nothing has failed, what was compiled is good, and the same paths are open. -/
structure Steady (t : Tally) (d : Desk) : Prop where
  failures : d.shared.failures = t.failures
  issued : Issued t d
  opened : ∀ p, d.shared.store.isOpen p = t.isOpen p

/-- Unless something has failed, the work goes steadily and a property holds. -/
def Unless (t : Tally) (P : Desk → Prop) (d : Desk) : Prop := Spoilt t d ∨ Steady t d ∧ P d

/-- What is left when a checker breaks down. -/
def Broken (t : Tally) (d : Desk) : Prop := Spoilt t d ∨ Issued t d

/-- Unless something fails, a piece of work leads from one property to another. -/
def Does {α : Type} (t : Tally) (act : Act Desk α) (P : Desk → Prop) (Q : α → Desk → Prop) : Prop :=
  ∀ d, Unless t P d → wp act (fun a => Unless t (Q a)) (fun _ => Broken t) d

variable {α β : Type} {t : Tally} {P O R : Desk → Prop} {act : Act Desk α} {Q Q' : α → Desk → Prop}

theorem Unless.imp {d : Desk} (h : Unless t P d) (himp : Steady t d → P d → R d) : Unless t R d :=
  h.imp_right fun ⟨ht, hd⟩ => ⟨ht, himp ht hd⟩

theorem Unless.broken {d : Desk} (h : Unless t P d) : Broken t d := h.imp_right fun ⟨ht, _⟩ => ht.issued

/-- All work leaves a failure reported. -/
abbrev Spoils (t : Tally) (act : Act Desk α) : Prop := Preserves (Spoilt t) act

namespace Does

/-- The triple of a piece of work that is looked at from a steady state. -/
theorem of_steady (hspoils : Spoils t act)
    (h : ∀ d, Steady t d → P d → wp act (fun a => Unless t (Q a)) (fun _ => Broken t) d) :
    Does t act P Q := by
  intro d hd
  rcases hd with hspoilt | ⟨ht, hd⟩
  · exact wp_imp (hspoils d hspoilt) (fun _ _ => .inl) fun _ _ => .inl
  · exact h d ht hd

theorem of_preserves (h : Preserves (Unless t P) act) : Does t act P fun _ => P := fun d hd =>
  wp_imp (h d hd) (fun _ _ h' => h') fun _ _ h' => h'.broken

theorem pre (h : Does t act O Q) (himp : ∀ d, Steady t d → P d → O d) : Does t act P Q := fun d hd =>
  h d (hd.imp (himp d))

theorem post (h : Does t act P Q) (himp : ∀ a d, Steady t d → Q a d → Q' a d) : Does t act P Q' :=
  fun d hd => wp_imp (h d hd) (fun a d' hd' => hd'.imp (himp a d')) fun _ _ he => he

theorem pure {a : α} (h : ∀ d, Steady t d → P d → Q a d) : Does t (Pure.pure a : Act Desk α) P Q := fun d hd =>
  (wp_pure a).mpr (hd.imp (h d))

theorem bind {act : Act Desk β} {Q : β → Desk → Prop} {next : β → Act Desk α} {R : α → Desk → Prop}
    (h : Does t act P Q) (hnext : ∀ b, Does t (next b) (Q b) R) : Does t (act >>= next) P R := by
  intro d hd
  rw [wp_bind]
  exact wp_imp (h d hd) (fun b d' hd' => hnext b d' hd') fun _ _ he => he

/-- The first piece of some work, with what it needs of the desk. -/
theorem step {act : Act Desk β} {Q : β → Desk → Prop} {next : β → Act Desk α} {R : α → Desk → Prop}
    (h : Does t act O Q) (himp : ∀ d, Steady t d → P d → O d)
    (hnext : ∀ b, Does t (next b) (Q b) R) : Does t (act >>= next) P R :=
  (h.pre himp).bind hnext

/-- What work reads of the desk it starts at is known of that desk. -/
theorem get_bind {next : Desk → Act Desk α} (h : ∀ d, Does t (next d) (fun d' => P d' ∧ d' = d) Q) :
    Does t (MonadState.get >>= next) P Q := by
  intro d hd
  rw [wp_bind, wp_get]
  exact h d d (hd.imp fun _ hd => ⟨hd, rfl⟩)

theorem ite {c : Prop} [Decidable c] {yes no : Act Desk α} (hyes : c → Does t yes P Q)
    (hno : ¬ c → Does t no P Q) : Does t (if c then yes else no) P Q := by
  split
  · exact hyes ‹_›
  · exact hno ‹_›

theorem forM {ι : Type} {f : ι → Act Desk PUnit} (I : List ι → Desk → Prop) (xs : List ι)
    (step : ∀ done x rest, xs = done ++ x :: rest → Does t (f x) (I done) fun _ => I (done ++ [x])) :
    Does t (xs.forM f) (I []) fun _ => I xs := by
  intro d hd
  exact wp_forM (fun done => Unless t (I done)) hd fun done x rest d' hxs hd' => step done x rest hxs d' hd'

/-- A loop over things that all leave a property true. -/
theorem forM_const {ι : Type} {f : ι → Act Desk PUnit} {xs : List ι}
    (h : ∀ x ∈ xs, Does t (f x) P fun _ => P) : Does t (xs.forM f) P fun _ => P :=
  forM (fun _ => P) xs fun done x rest hxs => h x (by rw [hxs]; simp)

theorem or (h : Does t act P Q) (h' : Does t act O Q) : Does t act (fun d => P d ∨ O d) Q := by
  rintro d (hspoilt | ⟨ht, hd | hd⟩)
  · exact h d (.inl hspoilt)
  · exact h d (.inr ⟨ht, hd⟩)
  · exact h' d (.inr ⟨ht, hd⟩)

/-- What is known whatever the desk. -/
theorem of_pure {φ : Prop} (hspoils : Spoils t act) (h : φ → Does t act P Q) :
    Does t act (fun d => P d ∧ φ) Q :=
  of_steady hspoils fun d ht ⟨hd, hφ⟩ => h hφ d (.inr ⟨ht, hd⟩)

/-- A piece of work from whose start nothing can be reached but a failure. -/
theorem of_false (hspoils : Spoils t act) (h : ∀ d, Steady t d → ¬ P d) : Does t act P Q :=
  of_steady hspoils fun d ht hd => absurd hd (h d ht)

end Does

/-! ### Runs -/

/-- The desk after some work, also when a checker broke down in it. -/
def after (act : Act Desk α) (d : Desk) : Desk :=
  match act d with
  | .ok _ d' | .error _ d' => d'

theorem after_of_ok {a : α} {d d' : Desk} (h : act d = .ok a d') : after act d = d' := by rw [after, h]

theorem after_of_error {e : Crash} {d d' : Desk} (h : act d = .error e d') : after act d = d' := by
  rw [after, h]

theorem after_of_wp {Q : Desk → Prop} {d : Desk} (h : wp act (fun _ => Q) (fun _ => Q) d) : Q (after act d) := by
  cases hact : act d with
  | ok a d' => exact after_of_ok hact ▸ (wp_of_ok hact).mp h
  | error e d' => exact after_of_error hact ▸ (wp_of_error hact).mp h

theorem after_preserves (h : Preserves P act) {d : Desk} (hd : P d) : P (after act d) := after_of_wp (h d hd)

theorem after_bind_of_ok {act : Act Desk β} {next : β → Act Desk α} {b : β} {d d' : Desk}
    (h : act d = .ok b d') : (act >>= next) d = next b d' := by
  rw [bind, Monad.toBind, EStateM.instMonad]
  simp only [EStateM.bind, h]

theorem after_bind_of_error {act : Act Desk β} {next : β → Act Desk α} {e : Crash} {d d' : Desk}
    (h : act d = .error e d') : (act >>= next) d = .error e d' := by
  rw [bind, Monad.toBind, EStateM.instMonad]
  simp only [EStateM.bind, h]

/-- What is known after a piece of work in which nothing failed. -/
theorem Does.run {d : Desk} (h : Does t act P Q) (ht : Steady t d) (hd : P d) (hok : ¬ Spoilt t (after act d)) :
    Issued t (after act d) ∧ ∀ a d', act d = .ok a d' → Steady t d' ∧ Q a d' := by
  have hrun := h d (.inr ⟨ht, hd⟩)
  cases hact : act d with
  | ok a d' =>
    rw [after_of_ok hact] at hok ⊢
    obtain ⟨ht', hQ⟩ := ((wp_of_ok hact).mp hrun).resolve_left hok
    refine ⟨ht'.issued, fun a' d'' heq => ?_⟩
    cases heq
    exact ⟨ht', hQ⟩
  | error e d' =>
    rw [after_of_error hact] at hok ⊢
    exact ⟨((wp_of_error hact).mp hrun).resolve_left hok, fun a' d'' heq => by cases heq⟩

/-! ### Steadiness -/

namespace Steady

variable {d : Desk}

theorem isOpen_congr (h : Steady t d) {p q : Path} (hsame : p.same q = true) : t.isOpen p = t.isOpen q := by
  rw [← h.opened p, ← h.opened q, Store.isOpen, Store.get?_congr _ hsame, Store.isOpen]

theorem of_disk (h : Steady t d) (disk : Disk) :
    Steady t { d with shared := { d.shared with disk := disk } } := ⟨h.failures, h.issued, h.opened⟩

theorem of_workspace (h : Steady t d) (w : Workspace) : Steady t { d with workspace := w } :=
  ⟨h.failures, h.issued, h.opened⟩

theorem of_store (h : Steady t d) {store : Store} (hopen : ∀ p, store.isOpen p = d.shared.store.isOpen p) :
    Steady t { d with shared := { d.shared with store := store } } :=
  ⟨h.failures, h.issued, fun p => (hopen p).trans (h.opened p)⟩

theorem of_report (h : Steady t d) {r : Report} (hr : Report.replicaFailures.contains r = false) :
    Steady t { d with shared := { d.shared with reports := d.shared.reports ++ [r] } } := by
  refine ⟨?_, h.issued, h.opened⟩
  rw [Shared.failures_append, h.failures, List.countP_singleton, hr]
  rfl

theorem afterRead (h : Steady t d) (p : Path) : Steady t { d with shared := d.shared.afterRead p } := by
  unfold Shared.afterRead
  split
  · exact h
  · exact h.of_report (by decide)

/-- A report is that of a failure, or leaves the work steady. -/
theorem report (h : Steady t d) (r : Report) :
    Spoilt t { d with shared := { d.shared with reports := d.shared.reports ++ [r] } }
      ∨ Steady t { d with shared := { d.shared with reports := d.shared.reports ++ [r] } } := by
  cases hr : Report.replicaFailures.contains r with
  | false => exact .inr (h.of_report hr)
  | true =>
    refine .inl ?_
    rw [Spoilt, Shared.failures_append, h.failures, List.countP_singleton, hr]
    exact Nat.lt_succ_self _

end Steady

/-- What has failed stays so. -/
theorem kept_spoilt (t : Tally) : Kept (Spoilt t) (fun _ => True) fun _ => True :=
  (Shared.kept_failed t.failures).desk

theorem records_spoilt (t : Tally) : Records (Spoilt t) := fun _ => Shared.records_failed _

/-- A property that reports, publications, marks and new configurations leave alone still is
    one when nothing may fail. -/
theorem Calm.unless (h : Calm P) : Calm (Unless t P) := by
  refine ⟨fun w => ⟨fun s r hs => ?_, fun s msg hs => ?_, fun s p found store hs hstore => ?_⟩,
    fun s w c hs => ?_⟩
  · rcases hs with hs | ⟨ht, hs⟩
    · exact .inl (((kept_spoilt t).shared w).report s r hs)
    · exact (ht.report r).imp_right fun ht' => ⟨ht', (h.shared w).report s r hs⟩
  · rcases hs with hs | ⟨ht, hs⟩
    · exact .inl hs
    · exact .inr ⟨⟨ht.failures, ht.issued, ht.opened⟩, (h.shared w).publish s msg hs⟩
  · rcases hs with hs | ⟨ht, hs⟩
    · exact .inl hs
    · refine .inr ⟨ht.of_store ?_, (h.shared w).mark s p found store hs hstore⟩
      exact Store.isOpen_of_revise? hstore fun _ _ => rfl
  · rcases hs with hs | ⟨ht, hs⟩
    · exact .inl hs
    · exact .inr ⟨ht.of_workspace _, h.config s w c hs⟩

/-- Where all compilations are good, a property that they leave alone still is one. -/
theorem Records.unless (h : Records P) (hgood : ∀ c, t.good c) : Records (Unless t P) := by
  rintro w s c doc (hs | ⟨ht, hs⟩) hdoc hcopy
  · exact .inl hs
  · obtain ⟨cs, hcs, hall⟩ := ht.issued
    refine .inr ⟨⟨ht.failures, ⟨cs ++ [c], ?_, ?_⟩, ht.opened⟩, h w s c doc hs hdoc hcopy⟩
    · rw [← List.append_assoc, ← hcs]
    · intro x hx
      rcases List.mem_append.mp hx with hx | hx
      · exact hall x hx
      · exact hgood x

/-- An operation on the replica fails with a report, or changes the disk. -/
theorem Does.onReplica {op : ReplicaOp Unit} {failure : String} {Q : Desk → Prop}
    (hfailure : Report.replicaFailures.contains (.error failure) = true)
    (hop : ∀ d u disk, Steady t d → P d → op d.shared.disk = .ok u disk →
      Q { d with shared := { d.shared with disk := disk } }) :
    Does t (onReplica op failure) P fun made d => made = true ∧ Q d := by
  refine of_steady (fun _ hs => (kept_spoilt t).grows.calm.onReplica_keeps failure hs) fun d ht hd => ?_
  refine wp_onReplica (fun u disk hrun => .inr ⟨ht.of_disk disk, rfl, hop d u disk ht hd hrun⟩) fun err disk _ => .inl ?_
  rw [Spoilt, Shared.failures_of_failed _ _ hfailure, ht.failures]
  exact Nat.lt_succ_self _

end Desk

end LiveWorkspace
