/-
  LiveWorkspace/Proofs/Watch/Checkable.lean
  =========================================
  **Whether a run that is watched is fair can be found out by running it.**

  On a disk that is given, what a site holds is seen from the entries in its zone
  (`Site.Listed`).  So it can be decided whether the site is tidy, and whether the operating
  system takes all of its paths, and with that whether a turn is fair (`Observed.Clear`).
-/
import LiveWorkspace.Proofs.Watch.Observed
import LiveWorkspace.Proofs.Workspace.Checkable

namespace LiveWorkspace

/-! ### What a site holds -/

theorem Disk.any_isDirectory_iff (d : Disk) (loc : Location) :
    (d.get? loc).any Entry.isDirectory = true ↔ ∃ mode, d.get? loc = some (.directory mode) := by
  cases d.get? loc with
  | none => simp
  | some e => cases e <;> simp [Entry.isDirectory]

instance Disk.decidableReach (d : Disk) : (loc : Location) → (ns : List String) → Decidable (d.Reach loc ns)
  | _, [] => .isTrue trivial
  | loc, n :: rest =>
    have := decidableReach d (loc ++ [.text n]) rest
    decidable_of_iff
      ((d.get? loc).any Entry.isDirectory = true ∧ n.utf8ByteSize ≤ maxName ∧ d.Reach (loc ++ [.text n]) rest)
      (and_congr_left' (any_isDirectory_iff d loc))

namespace Site

variable {z : Site} {d : Disk} {P : List String → Prop} {q : List String}

instance (z : Site) (d : Disk) (q : List String) : Decidable (z.Reaches d q) :=
  inferInstanceAs (Decidable (d.Reach _ _))

/-- All that a site holds is at names of which something is true. -/
def Listed (z : Site) (d : Disk) (P : List String → Prop) : Prop :=
  ∀ x ∈ d.within z.zone, ∃ q ∈ ((x.1.drop z.zone.length).mapM Name.text?).toList, x.1 = z.place q ∧ P q

instance [DecidablePred P] : Decidable (z.Listed d P) := inferInstanceAs (Decidable (∀ _ ∈ _, ∃ _ ∈ _, _ ∧ _))

theorem Listed.exists_place (h : z.Listed d P) {loc : Location} {e : Entry} (hloc : z.zone <+: loc)
    (hget : d.get? loc = some e) : ∃ q, loc = z.place q ∧ P q := by
  obtain ⟨q, -, hq⟩ := h (loc, e) (List.mem_filter.mpr ⟨Disk.mem_of_get? hget, List.isPrefixOf_iff_prefix.mpr hloc⟩)
  exact ⟨q, hq⟩

theorem Listed.tidy (h : z.Listed d (z.Reaches d)) (hstands : z.Stands d) (hproper : d.Proper) : z.Tidy d :=
  ⟨hstands, hproper, fun _ _ => h.exists_place⟩

end Site

/-! ### Layouts given by names -/

/-- The names that lead to where a workspace stands, or its replica. -/
structure Site.Spelled (z : Site) (ns : List String) : Prop where
  parent : z.parent = ns.foldl Path.child ⟨"/"⟩
  base : z.base = ns.map .text
  proper : ∀ n ∈ z.name :: ns, Path.Proper n
  reached : ns ≠ []
  sound : z.parent.flaw? = none

theorem Site.Spelled.stands {z : Site} {ns : List String} {d : Disk} (h : z.Spelled ns) (hclear : d.isClear = true)
    (hleads : d.leads ns = true) : z.Stands d := by
  have hproper : ∀ n ∈ ns, Path.Proper n := fun n hn => h.proper n (List.mem_cons_of_mem _ hn)
  refine Site.Stands.of_directories (h.proper _ List.mem_cons_self) hproper h.reached h.base h.parent h.sound
    (Disk.reach_of_leads hleads) ?_ fun loc target _ => Disk.get?_ne_link_of_clear hclear loc target
  rw [h.base]
  exact Disk.directory_of_leads hleads List.prefix_rfl

namespace Layout

variable {m : Layout} {z : Site} {ns : List String} {d : Disk}

end Layout

/-! ### Deciding along a run -/

namespace Observed

variable (checks : Checkers) {m : Layout} {o : Observed}

instance (m : Layout) (o : Observed) (turn : Turn) : Decidable (Abides m o turn) :=
  match turn with
  | .deed _ _ => inferInstanceAs (Decidable (_ ∧ _))
  | .handle => inferInstanceAs (Decidable True)

instance (m : Layout) (o : Observed) : Decidable (o.Nested m) :=
  inferInstanceAs (Decidable (∀ p ∈ o.handed, m.names p = [] ∨ m.path (m.names p).dropLast ∈ o.handed))

/-- What can be seen of a fair turn. -/
def Clear (m : Layout) (o : Observed) (turn : Turn) (o' : Observed) : Prop :=
  Abides m o turn ∧ o'.Nested m ∧ m.original.Listed o'.solo.shared.disk m.Fits

instance (m : Layout) (o : Observed) (turn : Turn) (o' : Observed) : Decidable (Clear m o turn o') :=
  inferInstanceAs (Decidable (_ ∧ _ ∧ _))

/-- Whether something holds of every turn of a run is found out by running it. -/
def decideAlong {P : Observed → Turn → Observed → Prop} (decideTurn : ∀ o turn o', Decidable (P o turn o')) :
    (turns : List Turn) → (o : Observed) → Decidable (o.Along checks P turns)
  | [], _ => .isTrue trivial
  | turn :: rest, o =>
    have := decideTurn o turn (o.step checks turn)
    have := decideAlong decideTurn rest (o.step checks turn)
    inferInstanceAs (Decidable (_ ∧ _))

instance (P : Observed → Turn → Observed → Prop) [h : ∀ o turn o', Decidable (P o turn o')] (turns : List Turn)
    (o : Observed) : Decidable (o.Along checks P turns) := decideAlong checks h turns o

theorem Along.imp {P Q : Observed → Turn → Observed → Prop} (himp : ∀ o turn o', P o turn o' → Q o turn o')
    {turns : List Turn} (h : o.Along checks P turns) : o.Along checks Q turns := by
  induction turns generalizing o with
  | nil => trivial
  | cons turn rest ih => exact ⟨himp _ _ _ h.1, ih h.2⟩

end Observed

end LiveWorkspace
