/-
  LiveWorkspace/Proofs/Text/Places.lean
  =====================================
  **The place between two characters is found again at their offset.**

  An editor that wants to name the end of some leading characters scans them: a line
  feed starts a line, every other character is as wide as its units (`scan`).  The
  index looks the line up, cuts it out and walks its columns.  Both agree on every
  boundary whose place can be spelled in words, however long the text behind it is
  (`offset_placeAfter`), so that a range between two scanned places is replaced by
  exactly what was meant (`replaceRange_placeAfter`).

  The proof cuts the characters in front of the place behind their last line feed, and
  those that follow in front of their first; the line that the index cuts out is what
  lies between the two cuts.  A walk over a line's columns is described by the run of
  characters that it goes over (`reach`), whatever column it is to reach.
-/
import Mathlib
import LiveWorkspace.Text.LineIndex

namespace LiveWorkspace.Text

/-! ### Scanning -/

/-- The line and the column that a scan reaches over some characters. -/
def scan (e : Encoding) : (line column : Nat) → List Char → Nat × Nat
  | line, column, [] => (line, column)
  | line, column, c :: rest =>
    if c = '\n' then scan e (line + 1) 0 rest else scan e line (column + e.units c) rest

/-- The place behind some leading characters. -/
def placeAfter (e : Encoding) (before : List Char) : LineCol :=
  ⟨UInt32.ofNat (scan e 0 0 before).1, UInt32.ofNat (scan e 0 0 before).2⟩

/-- The units of some characters. -/
def width (e : Encoding) (cs : List Char) : Nat := cs.foldr (fun c n => e.units c + n) 0

theorem width_le_byteLength (e : Encoding) (cs : List Char) : width e cs ≤ byteLength cs := by
  induction cs with
  | nil => simp [width]
  | cons c rest ih =>
    have hc := e.units_le_utf8Size c
    simp only [width, List.foldr_cons, byteLength_cons] at ih ⊢
    omega

theorem width_cons (e : Encoding) (c : Char) (rest : List Char) : width e (c :: rest) = e.units c + width e rest := rfl

theorem width_append (e : Encoding) (as bs : List Char) : width e (as ++ bs) = width e as + width e bs := by
  induction as with
  | nil => exact (Nat.zero_add _).symm
  | cons c as ih => rw [List.cons_append, width_cons, width_cons, ih, Nat.add_assoc]

theorem width_mono (e : Encoding) {run line : List Char} (h : run <+: line) : width e run ≤ width e line := by
  obtain ⟨after, rfl⟩ := h
  rw [width_append]
  exact Nat.le_add_right _ _

theorem scan_append (e : Encoding) (line column : Nat) (as bs : List Char) :
    scan e line column (as ++ bs)
      = scan e (scan e line column as).1 (scan e line column as).2 bs := by
  induction as generalizing line column with
  | nil => rfl
  | cons c rest ih =>
    simp only [List.cons_append, scan]
    split
    · exact ih _ _
    · exact ih _ _

/-- Within a line only the column moves. -/
theorem scan_of_no_feed (e : Encoding) (line column : Nat) {cs : List Char} (h : '\n' ∉ cs) :
    scan e line column cs = (line, column + width e cs) := by
  induction cs generalizing column with
  | nil => simp [scan, width]
  | cons c rest ih =>
    simp only [List.mem_cons, not_or] at h
    rw [scan, if_neg (Ne.symm h.1), ih _ h.2]
    simp only [width, List.foldr_cons, Nat.add_assoc]

theorem scan_line (e : Encoding) (line column : Nat) (cs : List Char) :
    (scan e line column cs).1 = line + cs.count '\n' := by
  induction cs generalizing line column with
  | nil => simp [scan]
  | cons c rest ih =>
    simp only [scan]
    split
    · rename_i hc
      rw [ih, hc, List.count_cons_self]
      omega
    · rename_i hc
      rw [ih, List.count_cons_of_ne hc]

/-! ### Up to a column -/

/-- The shortest run of leading characters that is at least `column` units wide, or all of
    them. -/
def reach (e : Encoding) : (column : Nat) → List Char → List Char
  | 0, _ => []
  | _ + 1, [] => []
  | n + 1, c :: rest => c :: reach e (n + 1 - e.units c) rest

section Reach

variable (e : Encoding)

theorem reach_zero (cs : List Char) : reach e 0 cs = [] := by rw [reach]

theorem reach_nil (n : Nat) : reach e n [] = [] := by cases n <;> rw [reach]

theorem reach_cons {n : Nat} (h : 0 < n) (c : Char) (rest : List Char) :
    reach e n (c :: rest) = c :: reach e (n - e.units c) rest := by
  obtain ⟨n, rfl⟩ := Nat.exists_eq_succ_of_ne_zero (Nat.ne_of_gt h)
  rw [Nat.succ_eq_add_one, reach]

theorem bytesToColumn_eq (n : Nat) (line : List Char) : bytesToColumn e n line = byteLength (reach e n line) := by
  induction line generalizing n with
  | nil => cases n <;> rfl
  | cons c rest ih =>
    cases n with
    | zero => rfl
    | succ n => rw [bytesToColumn, reach, byteLength_cons, ih]

theorem reach_isPrefix (n : Nat) (line : List Char) : reach e n line <+: line := by
  induction line generalizing n with
  | nil => rw [reach_nil]
  | cons c rest ih =>
    rcases Nat.eq_zero_or_pos n with rfl | hn
    · rw [reach_zero]
      exact List.nil_prefix
    · rw [reach_cons e hn, List.cons_prefix_cons]
      exact ⟨rfl, ih _⟩

/-- The run is as wide as the column, as far as the line is. -/
theorem min_le_width_reach (n : Nat) (line : List Char) : min n (width e line) ≤ width e (reach e n line) := by
  induction line generalizing n with
  | nil => simp [width]
  | cons c rest ih =>
    rcases Nat.eq_zero_or_pos n with rfl | hn
    · simp
    · have hrest := ih (n - e.units c)
      rw [reach_cons e hn, width_cons, width_cons]
      omega

/-- No shorter run is as wide as the column. -/
theorem reach_prefix_of_le {n : Nat} {run line : List Char} (hrun : run <+: line) (h : n ≤ width e run) :
    reach e n line <+: run := by
  -- Along the given run: each of its characters takes its units off the column.
  induction run generalizing n line with
  | nil =>
    obtain rfl : n = 0 := Nat.le_zero.mp h
    rw [reach_zero]
  | cons c run ih =>
    rcases Nat.eq_zero_or_pos n with rfl | hn
    · rw [reach_zero]
      exact List.nil_prefix
    · obtain ⟨after, rfl⟩ := hrun
      rw [width_cons] at h
      rw [List.cons_append, reach_cons e hn, List.cons_prefix_cons]
      exact ⟨rfl, ih (List.prefix_append run after) (by omega)⟩

theorem reach_eq_self {n : Nat} {line : List Char} (h : width e line ≤ n) : reach e n line = line := by
  induction line generalizing n with
  | nil => rw [reach_nil]
  | cons c rest ih =>
    have hc := e.units_pos c
    rw [width_cons] at h
    rw [reach_cons e (by omega), ih (by omega)]

/-- A greater column is not reached by a shorter run. -/
theorem reach_mono {m n : Nat} (h : m ≤ n) (line : List Char) : reach e m line <+: reach e n line := by
  by_cases hwide : n ≤ width e line
  · have hreach := min_le_width_reach e n line
    rw [Nat.min_eq_left hwide] at hreach
    exact reach_prefix_of_le e (reach_isPrefix e n line) (Nat.le_trans h hreach)
  · rw [reach_eq_self e (Nat.le_of_not_le hwide)]
    exact reach_isPrefix e m line

end Reach

/-! ### Where lines start -/

theorem lineStartsFrom_append (pos : Nat) (as bs : List Char) :
    lineStartsFrom pos (as ++ bs)
      = lineStartsFrom pos as ++ lineStartsFrom (pos + byteLength as) bs := by
  induction as generalizing pos with
  | nil => simp [lineStartsFrom]
  | cons c rest ih =>
    simp only [List.cons_append, lineStartsFrom, ih, byteLength_cons, Nat.add_assoc]
    split
    · rfl
    · rfl

theorem lineStartsFrom_of_no_feed (pos : Nat) {cs : List Char} (h : '\n' ∉ cs) :
    lineStartsFrom pos cs = [] := by
  induction cs generalizing pos with
  | nil => rfl
  | cons c rest ih =>
    simp only [List.mem_cons, not_or] at h
    rw [lineStartsFrom, if_neg (Ne.symm h.1)]
    exact ih _ h.2

theorem length_lineStartsFrom (pos : Nat) (cs : List Char) :
    (lineStartsFrom pos cs).length = cs.count '\n' := by
  induction cs generalizing pos with
  | nil => rfl
  | cons c rest ih =>
    simp only [lineStartsFrom]
    split
    · rename_i hc
      rw [hc, List.count_cons_self, List.length_cons, ih]
    · rename_i hc
      rw [List.count_cons_of_ne hc, ih]

theorem byteLength_append_feed (cs : List Char) : byteLength (cs ++ ['\n']) = byteLength cs + 1 := by
  rw [byteLength_append]
  rfl

theorem count_feed_le_byteLength (cs : List Char) : cs.count '\n' ≤ byteLength cs := by
  induction cs with
  | nil => simp
  | cons c rest ih =>
    have pos := c.utf8Size_pos
    have hc : (c :: rest).count '\n' ≤ rest.count '\n' + 1 := by
      rw [List.count_cons]
      split <;> omega
    rw [byteLength_cons]
    omega

/-! ### Cutting at line feeds -/

/-- What a line starts behind: nothing, or a line feed. -/
inductive Closed : List Char → Prop
  | start : Closed []
  | feed (cs : List Char) : Closed (cs ++ ['\n'])

/-- Leading characters are closed lines, and the beginning of one more. -/
theorem exists_closed_append (before : List Char) :
    ∃ lead tail, before = lead ++ tail ∧ Closed lead ∧ '\n' ∉ tail := by
  induction before with
  | nil => exact ⟨[], [], rfl, .start, by simp⟩
  | cons c cs ih =>
    obtain ⟨lead, tail, rfl, hlead, htail⟩ := ih
    cases hlead with
    | feed cs => exact ⟨c :: (cs ++ ['\n']), tail, rfl, .feed (c :: cs), htail⟩
    | start =>
      by_cases hc : c = '\n'
      · exact ⟨[c], tail, rfl, hc ▸ .feed [], htail⟩
      · refine ⟨[], c :: tail, rfl, .start, ?_⟩
        simp only [List.mem_cons, not_or]
        exact ⟨Ne.symm hc, htail⟩

/-- What follows is the rest of a line, and then nothing or a line feed. -/
theorem exists_rest_append (after : List Char) :
    ∃ rest more, after = rest ++ more ∧ '\n' ∉ rest ∧ (more = [] ∨ ∃ cs, more = '\n' :: cs) := by
  induction after with
  | nil => exact ⟨[], [], rfl, by simp, .inl rfl⟩
  | cons c cs ih =>
    by_cases hc : c = '\n'
    · exact ⟨[], c :: cs, rfl, by simp, .inr ⟨cs, by rw [hc]⟩⟩
    · obtain ⟨rest, more, rfl, hrest, hmore⟩ := ih
      refine ⟨c :: rest, more, rfl, ?_, hmore⟩
      simp only [List.mem_cons, not_or]
      exact ⟨Ne.symm hc, hrest⟩

/-- The line behind closed lines starts where they end. -/
theorem lineStart_of_closed {lead : List Char} (h : Closed lead) (rest : List Nat) :
    (0 :: (lineStartsFrom 0 lead ++ rest))[lead.count '\n']? = some (byteLength lead) := by
  cases h with
  | start => rfl
  | feed cs =>
    rw [lineStartsFrom_append, List.count_append, List.count_singleton_self, List.getElem?_cons_succ,
      List.append_assoc, ← length_lineStartsFrom 0 cs, List.getElem?_append_right (Nat.le_refl _),
      Nat.sub_self, byteLength_append_feed, Nat.zero_add]
    rfl

/-- A walk over a line's columns ends behind the characters that are as wide. -/
theorem bytesToColumn_width (e : Encoding) (tail rest : List Char) :
    bytesToColumn e (width e tail) (tail ++ rest) = byteLength tail := by
  induction tail with
  | nil => cases rest <;> rfl
  | cons c tail ih =>
    have pos := e.units_pos c
    have hw : width e (c :: tail) = (e.units c + width e tail - 1) + 1 := by
      simp only [width, List.foldr_cons]
      omega
    rw [hw, List.cons_append, bytesToColumn, byteLength_cons]
    rw [show e.units c + width e tail - 1 + 1 - e.units c = width e tail by omega, ih]

/-! ### From a place to its offset -/

theorem scan_of_closed (e : Encoding) {lead : List Char} (h : Closed lead) :
    scan e 0 0 lead = (lead.count '\n', 0) := by
  have hline : (scan e 0 0 lead).1 = lead.count '\n' := by rw [scan_line, Nat.zero_add]
  refine Prod.ext hline ?_
  cases h with
  | start => rfl
  | feed cs =>
    rw [scan_append]
    rfl

/-- The place in a line is spelled without loss when the text in front of it is short. -/
theorem placeAfter_eq {e : Encoding} {lead tail : List Char} (hlead : Closed lead) (htail : '\n' ∉ tail)
    (h : byteLength (lead ++ tail) < 2 ^ 32) :
    (placeAfter e (lead ++ tail)).line.toNat = lead.count '\n'
      ∧ (placeAfter e (lead ++ tail)).column.toNat = width e tail := by
  have hcount := count_feed_le_byteLength lead
  have hwidth := width_le_byteLength e tail
  rw [byteLength_append] at h
  have hscan : scan e 0 0 (lead ++ tail) = (lead.count '\n', width e tail) := by
    rw [scan_append, scan_of_closed e hlead, scan_of_no_feed e _ _ htail, Nat.zero_add]
  have hsize : UInt32.size = 2 ^ 32 := rfl
  rw [placeAfter, hscan]
  exact ⟨UInt32.toNat_ofNat_of_lt' (by omega), UInt32.toNat_ofNat_of_lt' (by omega)⟩

/-- The index cuts the line out that a place lies in. -/
theorem sliceBytes?_line (lead : List Char) {tail rest more : List Char} (htail : '\n' ∉ tail) (hrest : '\n' ∉ rest)
    (hmore : more = [] ∨ ∃ cs, more = '\n' :: cs) :
    let cs := lead ++ (tail ++ (rest ++ more))
    sliceBytes? (byteLength lead) ((LineIndex.ofText (String.ofList cs)).lineEnd (lead.count '\n')) cs
      = some (tail ++ rest) := by
  intro cs
  have hnone : '\n' ∉ tail ++ rest := by
    simp only [List.mem_append, not_or]
    exact ⟨htail, hrest⟩
  have hcs : cs = lead ++ ((tail ++ rest) ++ more) := by simp only [cs, List.append_assoc]
  have hend : (LineIndex.ofText (String.ofList cs)).lineEnd (lead.count '\n')
      = byteLength lead + byteLength (tail ++ rest) := by
    have hstarts : lineStartsFrom 0 cs = lineStartsFrom 0 lead
        ++ lineStartsFrom (byteLength lead + byteLength (tail ++ rest)) more := by
      rw [hcs, lineStartsFrom_append, lineStartsFrom_append, lineStartsFrom_of_no_feed _ hnone,
        List.nil_append, Nat.zero_add]
    simp only [LineIndex.lineEnd, LineIndex.ofText, String.toList_ofList, hstarts,
      List.getElem?_cons_succ]
    rw [List.getElem?_append_right (Nat.le_of_eq (length_lineStartsFrom 0 lead)),
      length_lineStartsFrom, Nat.sub_self]
    rcases hmore with rfl | ⟨cs', rfl⟩
    · simp only [lineStartsFrom, List.getElem?_nil, hcs, byteLength_append, byteLength_nil]
      omega
    · rfl
  rw [hend, sliceBytes?, if_pos (Nat.le_add_right _ _), hcs, dropBytes?_byteLength_append,
    Nat.add_sub_cancel_left, Option.bind_some, takeBytes?_byteLength_append]

/-- **The offset of a scanned place.**  The place behind some leading characters of a text has
    the offset at which they end, if that is below 2^32; what follows them does not matter. -/
theorem offset_placeAfter (e : Encoding) {before : List Char} (after : List Char)
    (h : byteLength before < 2 ^ 32) :
    (LineIndex.ofText (String.ofList (before ++ after))).offset (placeAfter e before)
      (String.ofList (before ++ after)) e = .ok (byteLength before) := by
  obtain ⟨lead, tail, rfl, hlead, htail⟩ := exists_closed_append before
  obtain ⟨rest, more, rfl, hrest, hmore⟩ := exists_rest_append after
  have hplace := placeAfter_eq (e := e) hlead htail h
  have hstart : (LineIndex.ofText (String.ofList (lead ++ (tail ++ (rest ++ more))))).lineStarts[
      lead.count '\n']? = some (byteLength lead) := by
    simp only [LineIndex.ofText, String.toList_ofList]
    rw [lineStartsFrom_append]
    exact lineStart_of_closed hlead _
  have hcount : ¬ (LineIndex.ofText (String.ofList (lead ++ (tail ++ (rest ++ more))))).lineCount
      < lead.count '\n' := by
    obtain ⟨hlt, -⟩ := List.getElem?_eq_some_iff.mp hstart
    exact Nat.not_lt.mpr (Nat.le_of_lt hlt)
  have hslice := sliceBytes?_line lead htail hrest hmore
  rw [List.append_assoc]
  simp only [LineIndex.offset, String.toList_ofList, hplace.1, hplace.2]
  by_cases hempty : (lead ++ (tail ++ (rest ++ more))).isEmpty = true
  · rw [if_pos hempty]
    simp only [List.isEmpty_iff, List.append_eq_nil_iff] at hempty
    obtain ⟨rfl, rfl, -, -⟩ := hempty
    rfl
  · rw [if_neg hempty, if_neg hcount, hstart]
    simp only at hslice ⊢
    rw [hslice]
    simp only [bytesToColumn_width, byteLength_append]

theorem offsetClamped_placeAfter (e : Encoding) {before : List Char} (after : List Char)
    (h : byteLength before < 2 ^ 32) :
    (LineIndex.ofText (String.ofList (before ++ after))).offsetClamped (placeAfter e before)
      (String.ofList (before ++ after)) e = byteLength before := by
  rw [LineIndex.offsetClamped, offset_placeAfter e after h]

/-! ### Edits between places -/

/-- **A range between two scanned places is replaced by what was meant**, also when it
    is written backwards. -/
theorem replaceRange_placeAfter (e : Encoding) {before old : List Char} (after : List Char) (new : String)
    (h : byteLength (before ++ old) < 2 ^ 32) :
    replaceRange (String.ofList (before ++ old ++ after)) (placeAfter e before)
        (placeAfter e (before ++ old)) new e = String.ofList (before ++ new.toList ++ after)
      ∧ replaceRange (String.ofList (before ++ old ++ after)) (placeAfter e (before ++ old))
        (placeAfter e before) new e = String.ofList (before ++ new.toList ++ after) := by
  have hle : byteLength before ≤ byteLength (before ++ old) := by simp
  have hstop := offsetClamped_placeAfter e after h
  have hstart : (LineIndex.ofText (String.ofList (before ++ old ++ after))).offsetClamped
      (placeAfter e before) (String.ofList (before ++ old ++ after)) e = byteLength before := by
    rw [List.append_assoc]
    exact offsetClamped_placeAfter e (old ++ after) (Nat.lt_of_le_of_lt hle h)
  constructor
  · simp only [replaceRange, hstart, hstop, Nat.min_eq_left hle, Nat.max_eq_right hle,
      String.toList_ofList, splice_append]
  · simp only [replaceRange, hstart, hstop, Nat.min_eq_right hle, Nat.max_eq_left hle,
      String.toList_ofList, splice_append]

end LiveWorkspace.Text
