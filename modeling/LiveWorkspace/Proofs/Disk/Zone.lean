/-
  LiveWorkspace/Proofs/Disk/Zone.lean
  ===================================
  **Disks that differ in one zone.**

  A zone is a location with all below it.  Every change of the disk at locations of a
  zone leaves the entries outside of it as they were, and in their order
  (`SameOutside`); inside, each change is known by what is found at each location after
  it.
-/
import LiveWorkspace.Disk.Change

namespace LiveWorkspace

/-! ### Disks that differ in one zone -/

namespace Disk

/-- Two disks have the same entries outside of a zone. -/
structure SameOutside (zone : Location) (d d' : Disk) : Prop where
  workingDir : d'.workingDir = d.workingDir
  entries : d'.entries.filter (fun x => !zone.isPrefixOf x.1)
    = d.entries.filter fun x => !zone.isPrefixOf x.1

variable {zone loc : Location} {d d' d'' : Disk}

namespace SameOutside

theorem refl (zone : Location) (d : Disk) : SameOutside zone d d := ⟨rfl, rfl⟩

theorem trans (h : SameOutside zone d d') (h' : SameOutside zone d' d'') : SameOutside zone d d'' :=
  ⟨h'.1.trans h.1, h'.2.trans h.2⟩

theorem get? (h : SameOutside zone d d') (hloc : ¬ zone <+: loc) : d'.get? loc = d.get? loc := by
  have hfind : ∀ d : Disk, d.get? loc
      = ((d.entries.filter fun x => !zone.isPrefixOf x.1).find? (·.1 == loc)).map (·.2) := by
    intro d
    simp only [Disk.get?, List.find?_filter]
    congr 2
    funext x
    by_cases hx : x.1 = loc
    · have hout : zone.isPrefixOf loc = false := by
        rw [Bool.eq_false_iff]
        exact fun hp => hloc (List.isPrefixOf_iff_prefix.mp hp)
      simp [hx, hout]
    · simp [hx]
  rw [hfind d', hfind d, h.entries]

end SameOutside

theorem filter_filter_of_imp {α : Type} {p q : α → Bool} (xs : List α) (h : ∀ x ∈ xs, p x = true → q x = true) :
    (xs.filter q).filter p = xs.filter p := by
  rw [List.filter_filter]
  apply List.filter_congr
  intro x hx
  cases hp : p x with
  | false => rfl
  | true => rw [h x hx hp]; rfl

/-- What lies below a location in the zone lies in the zone. -/
theorem not_isPrefixOf_of_outside (hloc : zone <+: loc) {other : Location}
    (h : (!zone.isPrefixOf other) = true) : (!loc.isPrefixOf other) = true := by
  rw [Bool.not_eq_true'] at h ⊢
  rw [Bool.eq_false_iff] at h ⊢
  exact fun hp => h (List.isPrefixOf_iff_prefix.mpr (hloc.trans (List.isPrefixOf_iff_prefix.mp hp)))

theorem sameOutside_insert (d : Disk) (hloc : zone <+: loc) (e : Entry) :
    SameOutside zone d (d.insert loc e) := by
  refine ⟨rfl, ?_⟩
  have hin : (!zone.isPrefixOf loc) = false := by rw [List.isPrefixOf_iff_prefix.mpr hloc]; rfl
  rw [insert, List.filter_cons_of_neg (by simp [hin])]
  apply filter_filter_of_imp
  intro x _ hx
  rw [bne_iff_ne]
  intro he
  rw [he, hin] at hx
  cases hx

theorem sameOutside_erase (d : Disk) (hloc : zone <+: loc) : SameOutside zone d (d.erase loc) :=
  ⟨rfl, filter_filter_of_imp _ fun _ _ hx => not_isPrefixOf_of_outside hloc hx⟩

theorem sameOutside_eraseBelow (d : Disk) (hloc : zone <+: loc) :
    SameOutside zone d (d.eraseBelow loc) := by
  refine ⟨rfl, filter_filter_of_imp _ fun x _ hx => ?_⟩
  rw [not_isPrefixOf_of_outside hloc hx, Bool.or_true]

theorem sameOutside_move (d : Disk) {source target : Location} (hs : zone <+: source)
    (ht : zone <+: target) : SameOutside zone d (d.move source target) := by
  refine ⟨rfl, ?_⟩
  rw [move, List.filter_append]
  have hmoved : ((d.entries.filter fun x => source.isPrefixOf x.1).map fun x =>
      (target ++ x.1.drop source.length, x.2)).filter (fun x => !zone.isPrefixOf x.1) = [] := by
    rw [List.filter_eq_nil_iff]
    intro x hx
    obtain ⟨y, -, rfl⟩ := List.mem_map.mp hx
    simp [List.isPrefixOf_iff_prefix.mpr (ht.trans (List.prefix_append _ _))]
  rw [hmoved, List.append_nil]
  apply filter_filter_of_imp
  intro x _ hx
  rw [not_isPrefixOf_of_outside hs hx, not_isPrefixOf_of_outside ht hx]
  rfl

/-! ### Entries after a change -/

theorem get?_eraseBelow (d : Disk) (loc : Location) {other : Location}
    (h : other = loc ∨ ¬ loc <+: other) : (d.eraseBelow loc).get? other = d.get? other := by
  simp only [get?, eraseBelow, List.find?_filter]
  congr 2
  funext x
  by_cases hx : x.1 = other
  · rcases h with rfl | h
    · simp [hx]
    · have hn : loc.isPrefixOf other = false := by
        rw [Bool.eq_false_iff]
        exact fun hp => h (List.isPrefixOf_iff_prefix.mp hp)
      simp [hx, hn]
  · simp [hx]

theorem below_eraseBelow (d : Disk) (loc : Location) : (d.eraseBelow loc).below loc = [] := by
  rw [below, eraseBelow, List.map_eq_nil_iff, List.filter_filter, List.filter_eq_nil_iff]
  intro x _ hx
  cases hp : loc.isPrefixOf x.1 with
  | false => simp [hp] at hx
  | true => simp [hp] at hx

/-- Where there is something, an entry says so. -/
theorem mem_of_get? {e : Entry} (h : d.get? loc = some e) : (loc, e) ∈ d.entries := by
  rw [get?, Option.map_eq_some_iff] at h
  obtain ⟨x, hfind, rfl⟩ := h
  have hx := List.find?_some hfind
  rw [beq_iff_eq] at hx
  rw [← hx]
  exact List.mem_of_find?_eq_some hfind

theorem get?_ne_none_of_mem {e : Entry} (h : (loc, e) ∈ d.entries) : d.get? loc ≠ none := by
  rw [get?, Ne, Option.map_eq_none_iff, List.find?_eq_none]
  exact fun hnone => hnone (loc, e) h (beq_self_eq_true loc)

theorem below_ne_nil {e : Entry} (h : d.get? (loc ++ zone) = some e) (hne : zone ≠ []) :
    d.below loc ≠ [] := by
  intro hnil
  rw [below, List.map_eq_nil_iff, List.filter_eq_nil_iff] at hnil
  have hx := hnil _ (mem_of_get? h)
  simp [hne] at hx

theorem get?_move_of_not_prefix (d : Disk) {source target other : Location}
    (hs : ¬ source <+: other) (ht : ¬ target <+: other) :
    (d.move source target).get? other = d.get? other := by
  have hs' : source.isPrefixOf other = false := by
    rw [Bool.eq_false_iff]
    exact fun hp => hs (List.isPrefixOf_iff_prefix.mp hp)
  have ht' : target.isPrefixOf other = false := by
    rw [Bool.eq_false_iff]
    exact fun hp => ht (List.isPrefixOf_iff_prefix.mp hp)
  have hnone : ((d.entries.filter fun x => source.isPrefixOf x.1).map fun x =>
      (target ++ x.1.drop source.length, x.2)).find? (·.1 == other) = none := by
    rw [List.find?_eq_none]
    intro x hx he
    obtain ⟨y, -, rfl⟩ := List.mem_map.mp hx
    rw [beq_iff_eq] at he
    exact ht ⟨_, he⟩
  simp only [get?, move, List.find?_append, hnone, Option.or_none, List.find?_filter]
  congr 2
  funext x
  by_cases hx : x.1 = other
  · simp [hx, hs', ht']
  · simp [hx]

/-- Where nothing moves to, the old place is empty after a move. -/
theorem get?_move_source (d : Disk) {source target other : Location} (hs : source <+: other)
    (ht : ¬ target <+: other) : (d.move source target).get? other = none := by
  simp only [get?, move, Option.map_eq_none_iff, List.find?_eq_none, List.mem_append, List.mem_filter,
    List.mem_map]
  rintro x (⟨-, hx⟩ | ⟨y, -, rfl⟩) he
  · rw [beq_iff_eq] at he
    simp [he, List.isPrefixOf_iff_prefix.mpr hs] at hx
  · rw [beq_iff_eq] at he
    exact ht ⟨_, he⟩

/-- What was moved is found at its new place. -/
theorem get?_move_target (d : Disk) {source target : Location} (rest : Location) :
    (d.move source target).get? (target ++ rest) = d.get? (source ++ rest) := by
  have hkept : (d.entries.filter fun x => !source.isPrefixOf x.1 && !target.isPrefixOf x.1).find?
      (·.1 == target ++ rest) = none := by
    rw [List.find?_eq_none]
    intro x hx he
    rw [beq_iff_eq] at he
    have hx := (List.mem_filter.mp hx).2
    rw [he, List.isPrefixOf_iff_prefix.mpr (List.prefix_append target rest)] at hx
    simp at hx
  simp only [get?, move, List.find?_append, hkept, Option.none_or, List.find?_map, List.find?_filter,
    Option.map_map]
  congr 1
  congr 1
  funext x
  by_cases hx : source <+: x.1
  · obtain ⟨more, hmore⟩ := hx
    simp only [← hmore, List.isPrefixOf_iff_prefix.mpr (List.prefix_append source more),
      Function.comp_apply, List.drop_left]
    rw [Bool.eq_iff_iff, decide_eq_true_iff, true_and, beq_iff_eq, beq_iff_eq,
      List.append_cancel_left_eq, List.append_cancel_left_eq]
  · have hne : x.1 ≠ source ++ rest := fun e => hx ⟨rest, e.symm⟩
    have hn : source.isPrefixOf x.1 = false := by
      rw [Bool.eq_false_iff]
      exact fun hp => hx (List.isPrefixOf_iff_prefix.mp hp)
    simp [hn, hne]

end Disk

end LiveWorkspace
