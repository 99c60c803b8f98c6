/-
  LiveWorkspace/Proofs/Act.lean
  =============================
  **What must hold before a piece of work.**

  Work on a state ends with a value or breaks off, and leaves a state either way.  `wp`
  turns what is wanted of both endings into what must hold before; it is pushed through
  a handler from the back, so that proofs follow the handler's own text.  `Preserves`
  is the special case of one property that holds before and after, however the work
  ends: the form in which an invariant is handed from the smallest step to a whole run.
  `Leads` is that of work that does not break off.
-/
import LiveWorkspace.Workspace.Basic
import LiveWorkspace.Session.Basic

namespace LiveWorkspace

variable {ε σ α β : Type}

/-! ### Preconditions -/

/-- From the state `s` the work ends with `Q`, or breaks off with `E`. -/
def wp (act : EStateM ε σ α) (Q : α → σ → Prop) (E : ε → σ → Prop) (s : σ) : Prop :=
  match act s with
  | .ok a s' => Q a s'
  | .error e s' => E e s'

section Rules

variable {Q Q' : α → σ → Prop} {E E' : ε → σ → Prop} {s : σ}

theorem wp_of_ok {act : EStateM ε σ α} {a : α} {s' : σ} (h : act s = .ok a s') :
    wp act Q E s ↔ Q a s' := by
  simp only [wp, h]

theorem wp_of_error {act : EStateM ε σ α} {e : ε} {s' : σ} (h : act s = .error e s') :
    wp act Q E s ↔ E e s' := by
  simp only [wp, h]

/-- Work ends in one way if its ending is known. -/
theorem ok_of_wp {act : EStateM ε σ α} {t : σ} {a : α}
    (h : wp act (fun b s' => b = a ∧ s' = t) (fun _ _ => False) s) : act s = .ok a t := by
  cases hact : act s with
  | ok b s' =>
    obtain ⟨rfl, rfl⟩ := (wp_of_ok hact).mp h
    rfl
  | error e s' => exact ((wp_of_error hact).mp h).elim

theorem wp_pure (a : α) : wp (pure a : EStateM ε σ α) Q E s ↔ Q a s := Iff.rfl

theorem wp_bind (act : EStateM ε σ β) (next : β → EStateM ε σ α) :
    wp (act >>= next) Q E s ↔ wp act (fun b s' => wp (next b) Q E s') E s := by
  simp only [wp, bind, EStateM.bind]
  cases act s <;> rfl

theorem wp_get {Q : σ → σ → Prop} : wp (get : EStateM ε σ σ) Q E s ↔ Q s s := Iff.rfl

theorem wp_set {Q : PUnit → σ → Prop} (t : σ) :
    wp (set t : EStateM ε σ PUnit) Q E s ↔ Q ⟨⟩ t := Iff.rfl

theorem wp_modify {Q : PUnit → σ → Prop} (f : σ → σ) :
    wp (modify f : EStateM ε σ PUnit) Q E s ↔ Q ⟨⟩ (f s) := Iff.rfl

theorem wp_modifyGet (f : σ → α × σ) :
    wp (modifyGet f : EStateM ε σ α) Q E s ↔ Q (f s).1 (f s).2 := Iff.rfl

theorem wp_throw (e : ε) : wp (throw e : EStateM ε σ α) Q E s ↔ E e s := Iff.rfl

theorem wp_ite {c : Prop} [Decidable c] (yes no : EStateM ε σ α) :
    wp (if c then yes else no) Q E s ↔ (c → wp yes Q E s) ∧ (¬ c → wp no Q E s) := by
  split <;> simp_all

/-- Work that ends well enough ends well. -/
theorem wp_imp {act : EStateM ε σ α} (h : wp act Q' E' s) (hQ : ∀ a s', Q' a s' → Q a s')
    (hE : ∀ e s', E' e s' → E e s') : wp act Q E s := by
  simp only [wp] at h ⊢
  cases hact : act s with
  | ok a s' =>
    rw [hact] at h
    exact hQ a s' h
  | error e s' =>
    rw [hact] at h
    exact hE e s' h

theorem wp_true (act : EStateM ε σ α) (s : σ) : wp act (fun _ _ => True) (fun _ _ => True) s := by
  simp only [wp]
  cases act s with
  | ok a s' => trivial
  | error e s' => trivial

/-- Two things that are known of one piece of work hold together. -/
theorem wp_and {act : EStateM ε σ α} (h : wp act Q E s) (h' : wp act Q' E' s) :
    wp act (fun a s' => Q a s' ∧ Q' a s') (fun e s' => E e s' ∧ E' e s') s := by
  simp only [wp] at h h' ⊢
  cases hact : act s with
  | ok a s' =>
    rw [hact] at h h'
    exact ⟨h, h'⟩
  | error e s' =>
    rw [hact] at h h'
    exact ⟨h, h'⟩

end Rules

/-! ### Loops -/

/-- A loop over a list, by what holds when some of the list is done. -/
theorem wp_forM {E : ε → σ → Prop} (I : List α → σ → Prop) {f : α → EStateM ε σ PUnit} {xs : List α}
    {s : σ} (start : I [] s)
    (step : ∀ done x rest s, xs = done ++ x :: rest → I done s →
      wp (f x) (fun _ => I (done ++ [x])) E s) :
    wp (xs.forM f) (fun _ => I xs) E s := by
  suffices h : ∀ (rest done : List α) (s : σ), xs = done ++ rest → I done s →
      wp (rest.forM f) (fun _ => I xs) E s from h xs [] s rfl start
  intro rest
  induction rest with
  | nil =>
    intro done s hxs hI
    rw [List.append_nil] at hxs
    exact hxs ▸ hI
  | cons x rest ih =>
    intro done s hxs hI
    simp only [List.forM, wp_bind]
    refine wp_imp (step done x rest s hxs hI) (fun _ s' hs' => ?_) (fun _ _ h => h)
    exact ih (done ++ [x]) s' (by rw [hxs, List.append_assoc]; rfl) hs'

/-! ### Work on a part -/

theorem wp_onShared {Q : α → Desk → Prop} {E : Crash → Desk → Prop} {d : Desk} (act : Act Shared α) :
    wp (liftM act : Act Desk α) Q E d
      ↔ wp act (fun a s => Q a { d with shared := s }) (fun e s => E e { d with shared := s })
          d.shared := by
  simp only [wp, liftM, monadLift, MonadLift.monadLift, Desk.onShared]
  cases act d.shared <;> rfl

theorem wp_onShared_session {Q : α → Session → Prop} {E : Crash → Session → Prop} {ses : Session}
    (act : Act Shared α) :
    wp (liftM act : Act Session α) Q E ses
      ↔ wp act (fun a s => Q a { ses with shared := s }) (fun e s => E e { ses with shared := s })
          ses.shared := by
  simp only [wp, liftM, monadLift, MonadLift.monadLift, Session.onShared]
  cases act ses.shared <;> rfl

/-! ### Properties that work leaves true -/

/-- The work leaves a property true, whether it ends or breaks off. -/
def Preserves (I : σ → Prop) (act : EStateM ε σ α) : Prop :=
  ∀ s, I s → wp act (fun _ => I) (fun _ => I) s

namespace Preserves

variable {I : σ → Prop}

theorem of_results {act : EStateM ε σ α} (hok : ∀ s a s', I s → act s = .ok a s' → I s')
    (herror : ∀ s e s', I s → act s = .error e s' → I s') : Preserves I act := by
  intro s hs
  cases hact : act s with
  | ok a s' => exact (wp_of_ok hact).mpr (hok s a s' hs hact)
  | error e s' => exact (wp_of_error hact).mpr (herror s e s' hs hact)

theorem pure (a : α) : Preserves I (pure a : EStateM ε σ α) := fun _ h => h

theorem throw (e : ε) : Preserves I (throw e : EStateM ε σ α) := fun _ h => h

theorem modify {f : σ → σ} (h : ∀ s, I s → I (f s)) : Preserves I (modify f : EStateM ε σ PUnit) := h

theorem bind {act : EStateM ε σ β} {next : β → EStateM ε σ α} (h : Preserves I act)
    (hnext : ∀ b, Preserves I (next b)) : Preserves I (act >>= next) := by
  intro s hs
  rw [wp_bind]
  exact wp_imp (h s hs) (fun b s' hs' => hnext b s' hs') (fun _ _ he => he)

/-- What work reads of the state it starts in has the property. -/
theorem get_bind {next : σ → EStateM ε σ α} (hnext : ∀ s, I s → Preserves I (next s)) :
    Preserves I (MonadState.get >>= next) := fun s hs => hnext s hs s hs

theorem ite {c : Prop} [Decidable c] {yes no : EStateM ε σ α} (hyes : c → Preserves I yes)
    (hno : ¬ c → Preserves I no) : Preserves I (if c then yes else no) := by
  split
  · exact hyes ‹_›
  · exact hno ‹_›

theorem forM {f : α → EStateM ε σ PUnit} (xs : List α) (h : ∀ x ∈ xs, Preserves I (f x)) :
    Preserves I (xs.forM f) := by
  intro s hs
  refine wp_forM (fun _ => I) hs fun done x rest s' hxs hs' => h x ?_ s' hs'
  rw [hxs]
  simp

theorem mapM {f : α → EStateM ε σ β} (xs : List α) (h : ∀ x ∈ xs, Preserves I (f x)) :
    Preserves I (xs.mapM f) := by
  induction xs with
  | nil => exact pure []
  | cons x rest ih =>
    rw [List.mapM_cons]
    refine bind (h x (by simp)) fun b => bind (ih fun y hy => h y (by simp [hy])) fun bs => ?_
    exact pure (b :: bs)

theorem onShared_session {I : Shared → Prop} {act : Act Shared α} (h : Preserves I act) :
    Preserves (fun ses : Session => I ses.shared) (liftM act : Act Session α) := by
  intro ses hs
  rw [wp_onShared_session]
  exact h ses.shared hs

end Preserves

/-! ### Work that does not break off -/

/-- Work that does not break off leads from one property to another. -/
def Leads (P : σ → Prop) (act : EStateM ε σ α) (Q : α → σ → Prop) : Prop :=
  ∀ s, P s → wp act Q (fun _ _ => False) s

namespace Leads

variable {P R : σ → Prop} {Q : α → σ → Prop}

theorem pre {act : EStateM ε σ α} (h : Leads R act Q) (himp : ∀ s, P s → R s) : Leads P act Q :=
  fun s hs => h s (himp s hs)

theorem post {act : EStateM ε σ α} {Q' : α → σ → Prop} (h : Leads P act Q') (himp : ∀ a s, Q' a s → Q a s) :
    Leads P act Q := fun s hs => wp_imp (h s hs) himp fun _ _ hf => hf

theorem pure {a : α} (h : ∀ s, P s → Q a s) : Leads P (pure a : EStateM ε σ α) Q := fun s hs => (wp_pure a).mpr (h s hs)

theorem bind {act : EStateM ε σ β} {next : β → EStateM ε σ α} {S : β → σ → Prop} (h : Leads P act S)
    (hnext : ∀ b, Leads (S b) (next b) Q) : Leads P (act >>= next) Q := by
  intro s hs
  rw [wp_bind]
  exact wp_imp (h s hs) (fun b s' hs' => hnext b s' hs') fun _ _ hf => hf

/-- What work reads of the state it starts in is known of that state. -/
theorem get_bind {next : σ → EStateM ε σ α} (h : ∀ s, P s → Leads (fun s' => P s' ∧ s' = s) (next s) Q) :
    Leads P (MonadState.get >>= next) Q := by
  intro s hs
  rw [wp_bind, wp_get]
  exact h s hs s ⟨hs, rfl⟩

theorem ite {c : Prop} [Decidable c] {yes no : EStateM ε σ α} (hyes : c → Leads P yes Q) (hno : ¬ c → Leads P no Q) :
    Leads P (if c then yes else no) Q := by
  split
  · exact hyes ‹_›
  · exact hno ‹_›

theorem forM {f : α → EStateM ε σ PUnit} (I : List α → σ → Prop) (xs : List α)
    (step : ∀ done x rest, xs = done ++ x :: rest → Leads (I done) (f x) fun _ => I (done ++ [x])) :
    Leads (I []) (xs.forM f) fun _ => I xs := fun _ hs =>
  wp_forM I hs fun done x rest s hxs hI => step done x rest hxs s hI

end Leads

-- Handlers are opened by the rules only: unfolded, `wp` would run them.
attribute [irreducible] wp

end LiveWorkspace
