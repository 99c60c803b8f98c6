/-
  LiveWorkspace/Proofs/Text/Outdated.lean
  =======================================
  **An index may be asked about a text that it was not built from.**

  Between an edit and the next look at a text, the index at hand can be that of an older
  version: its starts of lines then lie inside characters, on other lines, or behind the end.
  It is asked all the same, and answers without harm.  The text itself says where it can be
  cut, so an offset is only built from a start where a cut succeeded, and a cut that fails
  leads to the end of the text (`isBoundary_of_offset`).  The starts are in ascending order
  whatever the text is, and the first of them is zero, so the search for an offset always
  finds a line of the index that does not start behind it (`exists_start_of_lineAt`).
-/
import LiveWorkspace.Proofs.Text.Changes

namespace LiveWorkspace.Text

/-! ### Where the places of another text lead -/

section AnyIndex

variable (e : Encoding) (text : String) (ix : LineIndex)

theorem isBoundary_of_slice {cs line run : List Char} {start stop : Nat} (h : sliceBytes? start stop cs = some line)
    (hrun : run <+: line) : IsBoundary (start + byteLength run) cs := by
  rw [sliceBytes?] at h
  split at h
  · obtain ⟨after, hafter, hline⟩ := Option.bind_eq_some_iff.mp h
    obtain ⟨before, rfl, rfl⟩ := dropBytes?_eq_some_iff.mp hafter
    obtain ⟨-, more, rfl⟩ := takeBytes?_eq_some_iff.mp hline
    rw [← byteLength_append]
    exact isBoundary_of_isPrefix
      ((List.prefix_append_right_inj before).mpr (hrun.trans (List.prefix_append line more)))
  · cases h

/-- **An offset is a boundary**, whatever text the index is of. -/
theorem isBoundary_of_offset {p : LineCol} {n : Nat} (h : ix.offset p text e = .ok n) : IsBoundary n text.toList := by
  rw [LineIndex.offset] at h
  by_cases hempty : text.toList.isEmpty = true
  · rw [if_pos hempty, Except.ok.injEq] at h
    exact h ▸ isBoundary_zero text.toList
  by_cases hlt : ix.lineCount < p.line.toNat
  · rw [if_neg hempty, if_pos hlt] at h
    cases h
  rw [if_neg hempty, if_neg hlt] at h
  cases hstart : ix.lineStarts[p.line.toNat]? with
  | none =>
    rw [hstart, Except.ok.injEq] at h
    exact h ▸ isBoundary_byteLength text.toList
  | some start =>
    cases hslice : sliceBytes? start (ix.lineEnd p.line.toNat) text.toList with
    | none =>
      rw [hstart] at h
      simp only [hslice, Except.ok.injEq] at h
      exact h ▸ isBoundary_byteLength text.toList
    | some line =>
      rw [hstart] at h
      simp only [hslice, Except.ok.injEq] at h
      rw [← h, bytesToColumn_eq]
      exact isBoundary_of_slice hslice (reach_isPrefix e p.column.toNat line)

/-- The one way to fail is a line that the index does not have. -/
theorem lineCount_lt_of_offset {p : LineCol} {err : PositionError} (h : ix.offset p text e = .error err) :
    ix.lineCount < p.line.toNat ∧ err = .lineOutOfRange p.line ix.lineCount := by
  rw [LineIndex.offset] at h
  by_cases hempty : text.toList.isEmpty = true
  · rw [if_pos hempty] at h
    cases h
  by_cases hlt : ix.lineCount < p.line.toNat
  · rw [if_neg hempty, if_pos hlt, Except.error.injEq] at h
    exact ⟨hlt, h.symm⟩
  · rw [if_neg hempty, if_neg hlt] at h
    split at h
    · cases h
    · split at h <;> cases h

theorem isBoundary_offsetClamped_of_index (p : LineCol) : IsBoundary (ix.offsetClamped p text e) text.toList := by
  rw [LineIndex.offsetClamped]
  cases hoffset : ix.offset p text e with
  | ok n => exact isBoundary_of_offset e text ix hoffset
  | error err => exact isBoundary_byteLength text.toList

end AnyIndex

/-! ### The line of an offset -/

/-- In ascending order, the numbers up to a bound come first. -/
theorem exists_le_of_lt_countP {l : List Nat} (hsorted : l.Pairwise (· < ·)) {n i : Nat}
    (hi : i < l.countP (· ≤ n)) : ∃ k, l[i]? = some k ∧ k ≤ n := by
  induction l generalizing i with
  | nil => exact absurd hi (Nat.not_lt_zero i)
  | cons k rest ih =>
    obtain ⟨hfirst, hrest⟩ := List.pairwise_cons.mp hsorted
    by_cases hk : k ≤ n
    · cases i with
      | zero => exact ⟨k, rfl, hk⟩
      | succ i =>
        rw [List.countP_cons_of_pos (by simpa using hk)] at hi
        exact ih hrest (Nat.lt_of_succ_lt_succ hi)
    · -- Behind a number that is too large, all are.
      have hnone : (k :: rest).countP (· ≤ n) = 0 := by
        refine List.countP_eq_zero.mpr fun m hm => ?_
        rcases List.mem_cons.mp hm with rfl | hm
        · simpa using hk
        · have hlt := hfirst m hm
          simp only [decide_eq_true_eq]
          omega
      exact absurd (hnone ▸ hi) (Nat.not_lt_zero i)

/-- **The line that is found** is one of the index, and does not start behind the offset. -/
theorem exists_start_of_lineAt (other : String) (n : Nat) :
    ∃ start, (LineIndex.ofText other).lineStarts[(LineIndex.ofText other).lineAt n]? = some start ∧ start ≤ n := by
  have hfirst : 0 < (LineIndex.ofText other).lineStarts.countP (· ≤ n) := by
    rw [LineIndex.ofText, List.countP_cons_of_pos (by simp)]
    exact Nat.succ_pos _
  apply exists_le_of_lt_countP (pairwise_lineStarts other)
  rw [LineIndex.lineAt]
  omega

/-- The place of an offset of a text is on the line that the index finds, also when the text is
    not its own. -/
theorem line_position_of_index (e : Encoding) (text other : String) (hother : byteLength other.toList < 2 ^ 32) (n : Nat) :
    ((LineIndex.ofText other).position n text e).line.toNat
      = (LineIndex.ofText other).lineAt (min n (byteLength text.toList)) := by
  rw [LineIndex.position]
  by_cases hstart : text.toList.isEmpty = true ∨ n = 0
  · have hnone : min n (byteLength text.toList) = 0 := by
      rcases hstart with hempty | rfl
      · rw [List.isEmpty_iff.mp hempty, byteLength_nil, Nat.min_zero]
      · exact Nat.zero_min _
    rw [if_pos hstart, hnone, lineAt_ofText, leading_zero]
    rfl
  · rw [if_neg hstart]
    obtain ⟨start, hfound, -⟩ := exists_start_of_lineAt other (min n (byteLength text.toList))
    obtain ⟨hline, -⟩ := List.getElem?_eq_some_iff.mp hfound
    have hcount : (LineIndex.ofText other).lineStarts.length = other.toList.count '\n' + 1 := lineCount_ofText other
    have hfeeds := count_feed_le_byteLength other.toList
    have hsize : UInt32.size = 2 ^ 32 := rfl
    rw [LineCol.ofNat, Nat.min_eq_left (by omega), UInt32.toNat_ofNat_of_lt' (by omega)]

/-! ### An index of another text -/

/-- **An outdated index does no harm.**  The index of one text is asked about another.  Its walks
    have a result, as the machine takes them, and no search of its starts leads elsewhere.  A
    place leads to a boundary of the text or to a line that the index does not have, and is
    clamped to a boundary; an offset of the text, or its end, lies on a line that the index has
    and does not precede the start of that line. -/
theorem outdated_index_safe (e : Encoding) (text other : String) (h : byteLength text.toList < 2 ^ 32)
    (hother : byteLength other.toList < 2 ^ 32) :
    let ix := LineIndex.ofText other
    let size := byteLength text.toList
    (∀ p, Words.offset? ix p text e = some (ix.offset p text e)
      ∧ Words.offsetClamped? ix p text e = some (ix.offsetClamped p text e))
    ∧ (∀ n, Words.position? ix n text e = some (ix.position n text e)
      ∧ ∀ answer, Answers ix.lineStarts (min n size) answer →
        lineOfAnswer answer = (ix.position n text e).line.toNat)
    ∧ (∀ p, (ix.lineCount < p.line.toNat ∧ ix.offset p text e = .error (.lineOutOfRange p.line ix.lineCount))
      ∨ ∃ n, ix.offset p text e = .ok n ∧ IsBoundary n text.toList ∧ n ≤ size)
    ∧ (∀ p, IsBoundary (ix.offsetClamped p text e) text.toList ∧ ix.offsetClamped p text e ≤ size)
    ∧ ∀ n, ∃ start, ix.lineStarts[(ix.position n text e).line.toNat]? = some start ∧ start ≤ min n size := by
  intro ix size
  have hline : ∀ n, (ix.position n text e).line.toNat = ix.lineAt (min n size) :=
    line_position_of_index e text other hother
  refine ⟨fun p => ⟨Words.offset?_eq e h ix p, Words.offsetClamped?_eq e h ix p⟩, fun n => ?_, fun p => ?_,
    fun p => ?_, fun n => ?_⟩
  · refine ⟨Words.position?_eq e h ix (List.cons_ne_nil _ _) n, fun answer hanswer => ?_⟩
    rw [hline, lineOfAnswer_eq (pairwise_lineStarts other) hanswer]
  · cases hoffset : ix.offset p text e with
    | error err =>
      obtain ⟨hlt, rfl⟩ := lineCount_lt_of_offset e text ix hoffset
      exact .inl ⟨hlt, rfl⟩
    | ok n =>
      have hboundary := isBoundary_of_offset e text ix hoffset
      exact .inr ⟨n, rfl, hboundary, hboundary.le_byteLength⟩
  · have hboundary := isBoundary_offsetClamped_of_index e text ix p
    exact ⟨hboundary, hboundary.le_byteLength⟩
  · rw [hline]
    exact exists_start_of_lineAt other (min n size)

/-- The second line of the old text starts inside a character of the new one, the third behind
    its end: both lead to the end of the text, whose place is on the second line all the same. -/
theorem outdated_index_safe_inside_character :
    byteLength "😀".toList < 2 ^ 32 ∧ byteLength "a\nbcdef\ng".toList < 2 ^ 32
    ∧ (LineIndex.ofText "a\nbcdef\ng").lineStarts = [0, 2, 8]
    ∧ Words.offset? (LineIndex.ofText "a\nbcdef\ng") ⟨1, 1⟩ "😀" .utf16 = some (.ok 4)
    ∧ Words.offset? (LineIndex.ofText "a\nbcdef\ng") ⟨2, 0⟩ "😀" .utf16 = some (.ok 4)
    ∧ Words.offset? (LineIndex.ofText "a\nbcdef\ng") ⟨4, 0⟩ "😀" .utf16 = some (.error (.lineOutOfRange 4 3))
    ∧ Words.offsetClamped? (LineIndex.ofText "a\nbcdef\ng") ⟨4, 0⟩ "😀" .utf16 = some 4
    ∧ Words.position? (LineIndex.ofText "a\nbcdef\ng") 9 "😀" .utf16 = some ⟨1, 0⟩ := by
  have h : byteLength "😀".toList < 2 ^ 32 := by decide
  have hother : byteLength "a\nbcdef\ng".toList < 2 ^ 32 := by decide
  obtain ⟨hoffset, hposition, -⟩ := outdated_index_safe .utf16 "😀" "a\nbcdef\ng" h hother
  refine ⟨h, hother, by decide, ?_, ?_, ?_, ?_, ?_⟩
  · rw [(hoffset _).1]
    decide
  · rw [(hoffset _).1]
    decide
  · rw [(hoffset _).1]
    decide
  · rw [(hoffset _).2]
    decide
  · rw [(hposition 9).1]
    decide

end LiveWorkspace.Text
