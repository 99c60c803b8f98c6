/-
  LiveWorkspace/Proofs/Workspace/Checkable.lean
  =============================================
  **Whether a run is fair can be found out by running it.**

  What a fair turn asks of others' changes of the disk speaks of all disks that differ in
  the replica.  On a disk without links it is enough to look at the disk itself: at the
  directories that lead to the replica and at the entries in it (`Premises.Spelled.spared`).
  So fairness can be decided turn by turn, and the premises of a run, once they are given
  by names, can be decided as well.
-/
import LiveWorkspace.Proofs.Disk.Clear
import LiveWorkspace.Proofs.Replica.Contents
import LiveWorkspace.Proofs.Workspace.Start
import LiveWorkspace.Proofs.Workspace.Turns

namespace LiveWorkspace

/-! ### Premises given by names -/

/-- The names that lead to a workspace's root, and to where its replica stands. -/
structure Premises.Spelled (m : Premises) (ns ps : List String) : Prop where
  root : m.root = ns.foldl Path.child ⟨"/"⟩
  parent : m.site.parent = ps.foldl Path.child ⟨"/"⟩
  base : m.site.base = ps.map .text
  proper : ∀ n ∈ m.site.name :: ns ++ ps, Path.Proper n
  reached : ps ≠ []
  sound : m.site.parent.flaw? = none
  aside : ¬ m.site.zone <+: ns.map .text ∧ ¬ ns.map .text <+: m.site.zone

namespace Premises.Spelled

variable {m : Premises} {ns ps : List String} {d : Disk} {s : Shared}

theorem stands (h : m.Spelled ns ps) (hclear : d.isClear = true) (hleads : d.leads ps = true) :
    m.site.Stands d := by
  have hparent : ∀ n ∈ ps, Path.Proper n := fun n hn => h.proper n (List.mem_append_right _ hn)
  refine Site.Stands.of_directories (h.proper _ (by simp)) hparent h.reached h.base h.parent h.sound
    (Disk.reach_of_leads hleads) ?_ fun loc target _ => Disk.get?_ne_link_of_clear hclear loc target
  rw [h.base]
  exact Disk.directory_of_leads hleads List.prefix_rfl

/-- A disk without links shows nothing of the replica. -/
theorem detached (h : m.Spelled ns ps) (hclear : d.isClear = true) (hroot : d.leads ns = true) : m.Detached d m.root :=
  .of_plain (Disk.proper_of_clear hclear) h.root
    (Disk.plain_of_clear hclear hroot fun n hn => h.proper n (by simp [hn])) h.aside

/-- A workspace can be opened on a disk without links. -/
theorem ground (h : m.Spelled ns ps) (hclear : s.disk.isClear = true) (hroot : s.disk.leads ns = true)
    (hparent : s.disk.leads ps = true) (hunknown : ∀ p, s.store.contains p = true → ¬ m.root.Encloses p) :
    Ground m s :=
  Ground.of_detached (h.stands hclear hparent) (Disk.proper_of_clear hclear) hunknown (h.detached hclear hroot)

theorem spared {old new : Disk} (h : m.Spelled ns ps) (hclear : new.isClear = true)
    (hleads : new.leads ps = true) (hzone : new.within m.site.zone = old.within m.site.zone) :
    Solo.Spared m old new :=
  ⟨Disk.proper_of_clear hclear, (h.stands hclear hleads).reached, fun _ => Disk.get?_of_within hzone⟩

end Premises.Spelled

/-! ### Deciding along a run -/

/-- An outcome that can be looked at is a success. -/
theorem eq_ok_of_toOption {ε α : Type} {x : Except ε α} {a : α} (h : x.toOption = some a) : x = .ok a := by
  cases x with
  | ok b => rw [Option.some.inj h]
  | error e => cases h

instance (m : Premises) (e : Watch.Event) : Decidable (Desk.Inside m e) :=
  decidable_of_iff (m.root.Encloses e.path ∧ ∀ source ∈ e.source.toList, m.root.Encloses source)
    (and_congr Iff.rfl (forall_congr' fun _ => by rw [Option.mem_toList]))

instance (queue : List EditorEvent) (p : Path) : Decidable (Pending queue p) :=
  inferInstanceAs (Decidable (∃ e ∈ queue, e.renews = true ∧ e.path.same p = true))

instance (queue : List EditorEvent) (p : Path) (d : Desk) : Decidable (Desk.Buries (waiting queue) p d) :=
  have (q : Path) : Decidable ((waiting queue).stale q) := inferInstanceAs (Decidable (Pending queue q))
  inferInstanceAs (Decidable (_ ∧ _ ∧ ∃ q ∈ d.workspace.tracked, _ ∧ _ ∧ ¬ (waiting queue).stale q))

instance (rest : List EditorEvent) (e : EditorEvent) (d : Desk) : Decidable (Desk.BuriesNext rest e d) :=
  match e with
  | .closed p => decidable_of_iff (d.shared.store.contains p = true ∧ Desk.Buries (waiting rest) p d)
      ⟨fun h => ⟨p, rfl, h⟩, fun ⟨_, he, h⟩ => EditorEvent.closed.inj he ▸ h⟩
  | .opened _ | .changed _ => .isFalse fun ⟨_, he, _⟩ => nomatch he

namespace Solo

variable (checks : Checkers) {m : Premises} {s : Solo}

/-- What can be seen of a turn that abides: others leave a disk without links, and the
    entries of the replica as they were. -/
def Clear (m : Premises) (ps : List String) (s : Solo) : Turn → Prop
  | .disk d => d.isClear = true ∧ d.leads ps = true
    ∧ d.within m.site.zone = s.shared.disk.within m.site.zone
  | turn => Abides m s turn

instance (m : Premises) (ps : List String) (s : Solo) (turn : Turn) : Decidable (Clear m ps s turn) :=
  match turn with
  | .call c => inferInstanceAs (Decidable (m.root.Encloses c.path))
  | .handleDisk e => inferInstanceAs (Decidable (Desk.Inside m e))
  | .disk _ => inferInstanceAs (Decidable (_ ∧ _ ∧ _))
  | .handleNext | .handleWatchFailure => inferInstanceAs (Decidable True)

instance (s : Solo) (turn : Turn) : Decidable (Buries s turn) :=
  match turn, hqueue : s.running.queue with
  | .handleNext, e :: rest => decidable_of_iff (Desk.BuriesNext rest e s.desk)
      ⟨fun h => ⟨rfl, e, rest, hqueue, h⟩, fun ⟨_, _, _, heq, h⟩ => by
        rw [hqueue] at heq
        cases heq
        exact h⟩
  | .handleNext, [] => .isFalse fun ⟨_, _, _, heq, _⟩ => by
      rw [hqueue] at heq
      cases heq
  | .call _, _ | .handleDisk _, _ | .handleWatchFailure, _ | .disk _, _ => .isFalse fun ⟨he, _⟩ => nomatch he

/-- Whether something holds of every turn of a run is found out by running it. -/
def decideAlong {P : Solo → Turn → Solo → Prop} (decideTurn : ∀ s turn s', Decidable (P s turn s')) :
    (turns : List Turn) → (s : Solo) → Decidable (s.Along checks P turns)
  | [], _ => .isTrue trivial
  | turn :: rest, s =>
    have := decideTurn s turn (s.step checks turn)
    have := decideAlong decideTurn rest (s.step checks turn)
    inferInstanceAs (Decidable (_ ∧ _))

instance (P : Solo → Turn → Solo → Prop) [h : ∀ s turn s', Decidable (P s turn s')] (turns : List Turn) (s : Solo) :
    Decidable (s.Along checks P turns) := decideAlong checks h turns s

theorem Along.imp {P Q : Solo → Turn → Solo → Prop} (himp : ∀ s turn s', P s turn s' → Q s turn s')
    {turns : List Turn} (h : s.Along checks P turns) : s.Along checks Q turns := by
  induction turns generalizing s with
  | nil => trivial
  | cons turn rest ih => exact ⟨himp _ _ _ h.1, ih h.2⟩

theorem abides_of_clear {ns ps : List String} (hspelled : m.Spelled ns ps) {turn : Turn} (h : Clear m ps s turn) :
    Abides m s turn := by
  cases turn with
  | disk d => exact hspelled.spared h.1 h.2.1 h.2.2
  | call c => exact h
  | handleDisk e => exact h
  | handleNext => trivial
  | handleWatchFailure => trivial

theorem fair_of_clear {ns ps : List String} (hspelled : m.Spelled ns ps) (turn : Turn) (s' : Solo)
    (h : Clear m ps s turn ∧ s'.shared.failures = s.shared.failures) : Fair m s turn s' :=
  ⟨abides_of_clear hspelled h.1, h.2⟩

end Solo

end LiveWorkspace
