/-
  LiveWorkspace/Text/Offset.lean
  ==============================
  **Byte offsets into a list of characters.**

  An offset counts the octets that precede a place.  It is a *boundary* when whole
  characters precede it (`IsBoundary`); a text can be cut at its boundaries and nowhere
  else, so the functions that cut answer with an option.  What they cut off put together
  again is the text: `takeBytes?` and `dropBytes?` are the two halves of one splitting
  (`takeBytes?_eq_some_iff`, `dropBytes?_eq_some_iff`).
-/

namespace LiveWorkspace.Text

/-! ### Length in octets -/

/-- The number of octets of a text. -/
def byteLength (cs : List Char) : Nat := cs.foldr (fun c n => c.utf8Size + n) 0

@[simp] theorem byteLength_nil : byteLength [] = 0 := rfl

@[simp] theorem byteLength_cons (c : Char) (cs : List Char) :
    byteLength (c :: cs) = c.utf8Size + byteLength cs := rfl

@[simp] theorem byteLength_append (as bs : List Char) :
    byteLength (as ++ bs) = byteLength as + byteLength bs := by
  induction as with
  | nil => simp only [List.nil_append, byteLength_nil, Nat.zero_add]
  | cons c rest ih => simp only [List.cons_append, byteLength_cons, ih, Nat.add_assoc]

theorem byteLength_eq_zero_iff {cs : List Char} : byteLength cs = 0 ↔ cs = [] := by
  cases cs with
  | nil => simp
  | cons c rest =>
    have := c.utf8Size_pos
    simp only [byteLength_cons, reduceCtorEq, iff_false]
    omega

/-! ### Cutting -/

/-- What follows byte offset `n`, when a character starts or the text ends there. -/
def dropBytes? : (n : Nat) → List Char → Option (List Char)
  | 0, cs => some cs
  | _ + 1, [] => none
  | n + 1, c :: rest => if c.utf8Size ≤ n + 1 then dropBytes? (n + 1 - c.utf8Size) rest else none

/-- What precedes byte offset `n`, when a character starts or the text ends there. -/
def takeBytes? : (n : Nat) → List Char → Option (List Char)
  | 0, _ => some []
  | _ + 1, [] => none
  | n + 1, c :: rest =>
    if c.utf8Size ≤ n + 1 then (takeBytes? (n + 1 - c.utf8Size) rest).map (c :: ·) else none

/-- The text between two byte offsets, when both are boundaries and in order. -/
def sliceBytes? (start stop : Nat) (cs : List Char) : Option (List Char) :=
  if start ≤ stop then (dropBytes? start cs).bind (takeBytes? (stop - start)) else none

/-- A text with the characters between two byte offsets replaced. -/
def splice (cs : List Char) (start stop : Nat) (new : List Char) : List Char :=
  (takeBytes? start cs).getD [] ++ new ++ (dropBytes? stop cs).getD []

/-! ### What cutting gives -/

theorem dropBytes?_eq_some_iff {n : Nat} {cs after : List Char} :
    dropBytes? n cs = some after ↔ ∃ before, cs = before ++ after ∧ byteLength before = n := by
  induction cs generalizing n with
  | nil =>
    cases n with
    | zero =>
      simp only [dropBytes?, Option.some.injEq]
      constructor
      · rintro rfl; exact ⟨[], rfl, rfl⟩
      · rintro ⟨before, h, _⟩; exact (List.append_eq_nil_iff.mp h.symm).2.symm
    | succ n =>
      simp only [dropBytes?, reduceCtorEq, false_iff, not_exists, not_and]
      intro before h
      simp [(List.append_eq_nil_iff.mp h.symm).1]
  | cons c rest ih =>
    have pos := c.utf8Size_pos
    cases n with
    | zero => simp [dropBytes?, byteLength_eq_zero_iff]
    | succ n =>
      simp only [dropBytes?]
      constructor
      · intro h
        split at h
        · obtain ⟨before, rfl, hb⟩ := ih.mp h
          exact ⟨c :: before, rfl, by rw [byteLength_cons]; omega⟩
        · simp at h
      · rintro ⟨before, h, hb⟩
        cases before with
        | nil => simp at hb
        | cons d before =>
          simp only [List.cons_append, List.cons.injEq] at h
          obtain ⟨rfl, rfl⟩ := h
          rw [byteLength_cons] at hb
          rw [if_pos (by omega)]
          exact ih.mpr ⟨before, rfl, by omega⟩

theorem takeBytes?_eq_some_iff {n : Nat} {cs before : List Char} :
    takeBytes? n cs = some before ↔ byteLength before = n ∧ ∃ after, cs = before ++ after := by
  induction cs generalizing n before with
  | nil =>
    cases n with
    | zero =>
      simp only [takeBytes?, Option.some.injEq]
      constructor
      · rintro rfl; exact ⟨rfl, [], rfl⟩
      · rintro ⟨_, after, h⟩; exact (List.append_eq_nil_iff.mp h.symm).1.symm
    | succ n =>
      simp only [takeBytes?, reduceCtorEq, false_iff, not_and, not_exists]
      intro hb after h
      simp [(List.append_eq_nil_iff.mp h.symm).1] at hb
  | cons c rest ih =>
    have pos := c.utf8Size_pos
    cases n with
    | zero =>
      simp only [takeBytes?, Option.some.injEq, byteLength_eq_zero_iff]
      constructor
      · rintro rfl; exact ⟨rfl, c :: rest, rfl⟩
      · rintro ⟨rfl, _⟩; rfl
    | succ n =>
      simp only [takeBytes?]
      constructor
      · intro h
        split at h
        · obtain ⟨tail, ht, rfl⟩ := Option.map_eq_some_iff.mp h
          obtain ⟨hb, after, rfl⟩ := ih.mp ht
          exact ⟨by rw [byteLength_cons]; omega, after, rfl⟩
        · simp at h
      · rintro ⟨hb, after, h⟩
        cases before with
        | nil => simp at hb
        | cons d before =>
          simp only [List.cons_append, List.cons.injEq] at h
          obtain ⟨rfl, rfl⟩ := h
          rw [byteLength_cons] at hb
          rw [if_pos (by omega), Option.map_eq_some_iff]
          exact ⟨before, ih.mpr ⟨by omega, after, rfl⟩, rfl⟩

theorem dropBytes?_byteLength_append (before after : List Char) :
    dropBytes? (byteLength before) (before ++ after) = some after :=
  dropBytes?_eq_some_iff.mpr ⟨before, rfl, rfl⟩

theorem takeBytes?_byteLength_append (before after : List Char) :
    takeBytes? (byteLength before) (before ++ after) = some before :=
  takeBytes?_eq_some_iff.mpr ⟨rfl, after, rfl⟩

/-- Splicing at two boundaries replaces exactly what lies between them. -/
theorem splice_append (before old after new : List Char) :
    splice (before ++ old ++ after) (byteLength before) (byteLength (before ++ old)) new
      = before ++ new ++ after := by
  simp only [splice, dropBytes?_byteLength_append, Option.getD_some]
  rw [List.append_assoc before old after, takeBytes?_byteLength_append, Option.getD_some]

/-! ### Boundaries -/

/-- Whole characters precede the offset. -/
def IsBoundary (n : Nat) (cs : List Char) : Prop := ∃ before after, cs = before ++ after ∧ byteLength before = n

theorem isBoundary_iff_isSome {n : Nat} {cs : List Char} :
    IsBoundary n cs ↔ (dropBytes? n cs).isSome = true := by
  simp only [Option.isSome_iff_exists, dropBytes?_eq_some_iff, IsBoundary]
  exact exists_comm

instance (n : Nat) (cs : List Char) : Decidable (IsBoundary n cs) :=
  decidable_of_iff _ isBoundary_iff_isSome.symm

theorem isBoundary_zero (cs : List Char) : IsBoundary 0 cs := ⟨[], cs, rfl, rfl⟩

theorem isBoundary_byteLength (cs : List Char) : IsBoundary (byteLength cs) cs :=
  ⟨cs, [], by simp, rfl⟩

theorem IsBoundary.le_byteLength {n : Nat} {cs : List Char} (h : IsBoundary n cs) :
    n ≤ byteLength cs := by
  obtain ⟨before, after, rfl, rfl⟩ := h
  simp

end LiveWorkspace.Text
