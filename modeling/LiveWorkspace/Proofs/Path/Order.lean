/-
  LiveWorkspace/Proofs/Path/Order.lean
  ====================================
  **Lists of paths in their order.**

  Paths are ordered by their components, and compare equal just if they are spellings of the same
  path.  So where no path is listed twice, what a list is like once it has been put in order does
  not depend on the order that it was in (`Path.Apart.sort_eq`).
-/
import LiveWorkspace.Proofs.Disk.Stock

namespace LiveWorkspace.Path

variable {p q : Path} {ps qs : List Path}

/-! ### Lists of paths that differ -/

/-- No path is listed twice, however it is spelled. -/
def Apart (ps : List Path) : Prop := ps.Pairwise fun p q => p.same q = false

namespace Apart

theorem eq_of_same (h : Apart ps) (hp : p ∈ ps) (hq : q ∈ ps) (hsame : p.same q = true) : p = q := by
  induction ps with
  | nil => cases hp
  | cons r rest ih =>
    obtain ⟨hr, hrest⟩ := List.pairwise_cons.mp h
    rcases List.mem_cons.mp hp with rfl | hp'
    · rcases List.mem_cons.mp hq with rfl | hq'
      · rfl
      · rw [hr q hq'] at hsame
        cases hsame
    · rcases List.mem_cons.mp hq with rfl | hq'
      · rw [same_comm, hr p hp'] at hsame
        cases hsame
      · exact ih hrest hp' hq'

end Apart

/-! ### The order of paths -/

/-- The text of a name. -/
def Component.text : Component → String
  | .name text => text
  | _ => ""

theorem Component.compare_eq : Component.compare = compareLex (compareOn Component.rank) (compareOn Component.text) := by
  funext a b
  cases a with
  | name a =>
    cases b with
    | name b =>
      simp only [Component.compare, compareLex, compareOn, Component.rank, Component.text]
      rfl
    | _ => rfl
  | _ => cases b <;> rfl

instance : Std.TransCmp Component.compare := by
  rw [Component.compare_eq]
  infer_instance

theorem Component.eq_of_compare {a b : Component} (h : Component.compare a b = .eq) : a = b := by
  rw [Component.compare_eq, compareLex, Ordering.then_eq_eq] at h
  obtain ⟨hrank, htext⟩ := h
  have hrank : a.rank = b.rank := Std.LawfulEqOrd.eq_of_compare hrank
  have htext : a.text = b.text := Std.LawfulEqOrd.eq_of_compare htext
  cases a <;> cases b <;> cases hrank <;> simp_all [Component.text]

instance : Std.LawfulEqCmp Component.compare := ⟨Component.eq_of_compare⟩

theorem compare_eq_swap (p q : Path) : p.compare q = (q.compare p).swap :=
  (inferInstance : Std.TransCmp (List.compareLex Component.compare)).eq_swap

theorem le_trans {r : Path} (h : p.le q = true) (h' : q.le r = true) : p.le r = true :=
  (inferInstance : Std.TransCmp (List.compareLex Component.compare)).isLE_trans h h'

theorem same_of_le (h : p.le q = true) (h' : q.le p = true) : p.same q = true := by
  refine same_iff.mpr ((inferInstance : Std.LawfulEqCmp (List.compareLex Component.compare)).eq_of_compare ?_)
  show p.compare q = .eq
  rw [le] at h h'
  rw [compare_eq_swap] at h'
  cases hcompare : p.compare q with
  | eq => rfl
  | lt => simp [hcompare] at h'
  | gt => simp [hcompare] at h

theorem le_of_not_le (h : ¬ p.le q = true) : q.le p = true := by
  rw [le, compare_eq_swap]
  rw [le] at h
  cases hcompare : p.compare q with
  | gt => rfl
  | lt => simp [hcompare] at h
  | eq => rfl

theorem sorted_sort (ps : List Path) : (sort ps).Pairwise fun p q => p.le q = true := by
  have hinsert : ∀ p (ps : List Path), (ps.Pairwise fun p q => p.le q = true) →
      (insertInOrder p ps).Pairwise fun p q => p.le q = true := by
    intro p ps h
    induction ps with
    | nil => exact List.pairwise_singleton _ _
    | cons q rest ih =>
      obtain ⟨hq, hrest⟩ := List.pairwise_cons.mp h
      rw [insertInOrder]
      split
      · rename_i hle
        refine List.pairwise_cons.mpr ⟨fun r hr => ?_, h⟩
        rcases List.mem_cons.mp hr with rfl | hr
        · exact hle
        · exact le_trans hle (hq r hr)
      · rename_i hle
        refine List.pairwise_cons.mpr ⟨fun r hr => ?_, ih hrest⟩
        rcases mem_insertInOrder.mp hr with rfl | hr
        · exact le_of_not_le hle
        · exact hq r hr
  induction ps with
  | nil => exact List.Pairwise.nil
  | cons p rest ih => exact hinsert p _ ih

/-- What has been put in order does not depend on the order that it was in. -/
theorem Apart.sort_eq (h : Apart ps) (h' : Apart qs) (hmem : ∀ p, p ∈ ps ↔ p ∈ qs) : sort ps = sort qs := by
  have hnodup : ∀ {ps : List Path}, Apart ps → ps.Nodup := fun h => h.imp fun hne heq => by
    rw [heq, same_refl] at hne
    cases hne
  have hperm : (sort ps).Perm (sort qs) :=
    (sort_perm ps).trans (((List.perm_ext_iff_of_nodup (hnodup h) (hnodup h')).mpr hmem).trans (sort_perm qs).symm)
  refine hperm.eq_of_pairwise (fun p q hp hq hle hle' => ?_) (sorted_sort ps) (sorted_sort qs)
  exact h.eq_of_same (mem_sort.mp hp) ((hmem q).mpr (mem_sort.mp hq)) (same_of_le hle hle')

end LiveWorkspace.Path
