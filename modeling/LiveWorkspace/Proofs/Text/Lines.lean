/-
  LiveWorkspace/Proofs/Text/Lines.lean
  ====================================
  **A place leads into the line that it names.**

  The lines of a text are what its line feeds leave between them.  Every place in one of them
  leads to the end of the shortest run of the line's characters that is as wide as the place's
  column, or to the end of the line where that is narrower (`offset_of_line`); the line just
  behind the last one is the end of the text (`offsetClamped_of_lineCount_le`).  So a place that
  is turned into an offset and back gets the next column that its line has
  (`position_offset`).

  A line is given together with what precedes it and what follows, as it is cut out of the
  text (`Line`): the cut is all that the proofs need to know of the index.
-/
import LiveWorkspace.Proofs.Text.Rounding

namespace LiveWorkspace.Text

/-! ### Rounding a column -/

section Rounds

variable (e : Encoding)

/-- The runs of leading characters of a line that are as wide as a column, by their widths. -/
def widthsFrom (column : Nat) (line : List Char) : Set Nat := {w | column ≤ w ∧ ∃ run, run <+: line ∧ width e run = w}

/-- A column that a line rounds another one to: the least width of leading characters that is
    not less, or the width of the whole line when there is none. -/
def Rounds (line : List Char) (column rounded : Nat) : Prop :=
  IsLeast (widthsFrom e column line) rounded ∨ widthsFrom e column line = ∅ ∧ rounded = width e line

/-- **The run is as wide as the column is rounded to.** -/
theorem rounds_width_reach (column : Nat) (line : List Char) :
    Rounds e line column (width e (reach e column line)) := by
  have hreach := min_le_width_reach e column line
  by_cases hwide : column ≤ width e line
  · rw [Nat.min_eq_left hwide] at hreach
    refine .inl ⟨⟨hreach, _, reach_isPrefix e column line, rfl⟩, ?_⟩
    rintro w ⟨hw, run, hrun, rfl⟩
    exact width_mono e (reach_prefix_of_le e hrun hw)
  · refine .inr ⟨?_, congrArg _ (reach_eq_self e (Nat.le_of_not_le hwide))⟩
    refine Set.eq_empty_of_forall_notMem ?_
    rintro w ⟨hw, run, hrun, rfl⟩
    exact hwide (Nat.le_trans hw (width_mono e hrun))

/-- A column is left as it is just when leading characters of the line are as wide. -/
theorem width_reach_eq_iff {column : Nat} {line : List Char} :
    width e (reach e column line) = column ↔ ∃ run, run <+: line ∧ width e run = column := by
  constructor
  · intro h
    exact ⟨_, reach_isPrefix e column line, h⟩
  · rintro ⟨run, hrun, rfl⟩
    have hle := width_mono e (reach_prefix_of_le e hrun (Nat.le_refl _))
    have hreach := min_le_width_reach e (width e run) line
    rw [Nat.min_eq_left (width_mono e hrun)] at hreach
    exact Nat.le_antisymm hle hreach

end Rounds

/-! ### Cutting a line out -/

/-- A line of a text, with what precedes it and what follows. -/
structure Line (cs lead line more : List Char) : Prop where
  whole : cs = lead ++ (line ++ more)
  closed : Closed lead
  unbroken : '\n' ∉ line
  ended : more = [] ∨ ∃ rest, more = '\n' :: rest

theorem Closed.after_feed {lead : List Char} (h : Closed lead) (line : List Char) : Closed (line ++ '\n' :: lead) := by
  cases h with
  | start => exact .feed line
  | feed cs =>
    have hsame : line ++ '\n' :: (cs ++ ['\n']) = (line ++ '\n' :: cs) ++ ['\n'] := by
      rw [List.append_assoc, List.cons_append]
    rw [hsame]
    exact .feed _

theorem beq_feed_of_mem {line : List Char} (h : '\n' ∉ line) {c : Char} (hc : c ∈ line) : (c == '\n') = false := by
  rw [beq_eq_false_iff_ne]
  rintro rfl
  exact h hc

theorem splitOn_of_no_feed {line : List Char} (h : '\n' ∉ line) : line.splitOn '\n' = [line] := by
  rw [List.splitOn_eq_splitOnP]
  exact List.splitOnP_eq_singleton fun _ => beq_feed_of_mem h

theorem splitOn_append_feed {line : List Char} (h : '\n' ∉ line) (rest : List Char) :
    (line ++ '\n' :: rest).splitOn '\n' = line :: rest.splitOn '\n' := by
  rw [List.splitOn_eq_splitOnP, List.splitOn_eq_splitOnP]
  exact List.splitOnP_append_cons_of_forall_mem (fun _ => beq_feed_of_mem h) '\n' (beq_self_eq_true _) rest

/-- **Each of the lines of a text can be cut out**, behind as many line feeds as lines. -/
theorem exists_line {cs line : List Char} {i : Nat} (h : (cs.splitOn '\n')[i]? = some line) :
    ∃ lead more, Line cs lead line more ∧ lead.count '\n' = i := by
  -- Each step leaves the first line of the text behind, and its line feed with it.
  induction i generalizing cs with
  | zero =>
    obtain ⟨first, more, rfl, hfirst, hmore⟩ := exists_rest_append cs
    obtain rfl : first = line := by
      rcases hmore with rfl | ⟨rest, rfl⟩
      · rw [List.append_nil, splitOn_of_no_feed hfirst] at h
        exact Option.some.inj h
      · rw [splitOn_append_feed hfirst] at h
        exact Option.some.inj h
    exact ⟨[], more, ⟨rfl, .start, hfirst, hmore⟩, rfl⟩
  | succ i ih =>
    obtain ⟨first, more, rfl, hfirst, rfl | ⟨rest, rfl⟩⟩ := exists_rest_append cs
    · rw [List.append_nil, splitOn_of_no_feed hfirst] at h
      cases h
    · rw [splitOn_append_feed hfirst, List.getElem?_cons_succ] at h
      obtain ⟨lead, more, hline, rfl⟩ := ih h
      refine ⟨first ++ '\n' :: lead, more, ⟨?_, hline.closed.after_feed first, hline.unbroken, hline.ended⟩, ?_⟩
      · rw [hline.whole, List.append_assoc, List.cons_append]
      · rw [List.count_append, List.count_eq_zero.mpr hfirst, List.count_cons_self, Nat.zero_add]

theorem length_splitOn_feed (cs : List Char) : (cs.splitOn '\n').length = cs.count '\n' + 1 := by
  generalize hn : cs.count '\n' = n
  induction n generalizing cs with
  | zero =>
    rw [splitOn_of_no_feed (List.count_eq_zero.mp hn)]
    rfl
  | succ n ih =>
    obtain ⟨first, more, rfl, hfirst, rfl | ⟨rest, rfl⟩⟩ := exists_rest_append cs
    · rw [List.append_nil, List.count_eq_zero.mpr hfirst] at hn
      cases hn
    · rw [List.count_append, List.count_eq_zero.mpr hfirst, List.count_cons_self, Nat.zero_add] at hn
      rw [splitOn_append_feed hfirst, List.length_cons, ih rest (Nat.succ.inj hn)]

theorem lineCount_ofText (text : String) : (LineIndex.ofText text).lineCount = text.toList.count '\n' + 1 := by
  rw [LineIndex.lineCount, LineIndex.ofText, List.length_cons, length_lineStartsFrom]

theorem lineCount_eq (text : String) : (LineIndex.ofText text).lineCount = (text.toList.splitOn '\n').length := by
  rw [lineCount_ofText, length_splitOn_feed]

theorem exists_line_of_lt {text : String} {i : Nat} (h : i < (LineIndex.ofText text).lineCount) :
    ∃ line, (text.toList.splitOn '\n')[i]? = some line ∧ ∃ lead more, Line text.toList lead line more
      ∧ lead.count '\n' = i := by
  rw [lineCount_eq] at h
  have hline := List.getElem?_eq_getElem h
  exact ⟨_, hline, exists_line hline⟩

/-! ### From any place to its offset -/

section Offset

variable {e : Encoding} {text : String} {p : LineCol} {lead line more : List Char}

/-- **A place in a line** leads behind the shortest run of the line's characters that is as wide
    as its column. -/
theorem offset_of_line (h : Line text.toList lead line more) (hp : p.line.toNat = lead.count '\n') :
    (LineIndex.ofText text).offset p text e = .ok (byteLength (lead ++ reach e p.column.toNat line)) := by
  have hstart : (LineIndex.ofText text).lineStarts[p.line.toNat]? = some (byteLength lead) := by
    rw [hp, LineIndex.ofText, h.whole, lineStartsFrom_append]
    exact lineStart_of_closed h.closed _
  have hslice : sliceBytes? (byteLength lead) ((LineIndex.ofText text).lineEnd p.line.toNat) text.toList
    = some line := by
    have hcut := sliceBytes?_line lead List.not_mem_nil h.unbroken h.ended
    simp only [List.nil_append, ← h.whole, String.ofList_toList, ← hp] at hcut
    exact hcut
  have hknown : ¬ (LineIndex.ofText text).lineCount < p.line.toNat := by
    obtain ⟨hlt, -⟩ := List.getElem?_eq_some_iff.mp hstart
    exact Nat.not_lt.mpr (Nat.le_of_lt hlt)
  rw [LineIndex.offset]
  by_cases hempty : text.toList.isEmpty = true
  · rw [if_pos hempty]
    have hnil := h.whole.symm.trans (List.isEmpty_iff.mp hempty)
    simp only [List.append_eq_nil_iff] at hnil
    obtain ⟨rfl, rfl, -⟩ := hnil
    rw [reach_nil]
    rfl
  · simp only [if_neg hempty, if_neg hknown, hstart, hslice, bytesToColumn_eq, byteLength_append]

theorem offsetClamped_of_line (h : Line text.toList lead line more) (hp : p.line.toNat = lead.count '\n') :
    (LineIndex.ofText text).offsetClamped p text e = byteLength (lead ++ reach e p.column.toNat line) := by
  rw [LineIndex.offsetClamped, offset_of_line h hp]

/-- The line just behind the last one is the end of the text. -/
theorem offset_of_lineCount (hp : p.line.toNat = (LineIndex.ofText text).lineCount) :
    (LineIndex.ofText text).offset p text e = .ok (byteLength text.toList) := by
  have hnone : (LineIndex.ofText text).lineStarts[p.line.toNat]? = none :=
    List.getElem?_eq_none (Nat.le_of_eq hp.symm)
  rw [LineIndex.offset]
  by_cases hempty : text.toList.isEmpty = true
  · rw [if_pos hempty, List.isEmpty_iff.mp hempty]
    rfl
  · simp only [if_neg hempty, if_neg (Nat.not_lt.mpr (Nat.le_of_eq hp)), hnone]

/-- Lines behind that one are refused, except that an empty text has any line. -/
theorem offset_of_lineCount_lt (hne : text ≠ "") (hp : (LineIndex.ofText text).lineCount < p.line.toNat) :
    (LineIndex.ofText text).offset p text e
      = .error (.lineOutOfRange p.line (LineIndex.ofText text).lineCount) := by
  have hempty : ¬ text.toList.isEmpty = true := by
    rw [List.isEmpty_iff, String.toList_eq_nil_iff]
    exact hne
  simp only [LineIndex.offset, if_neg hempty, if_pos hp]

/-- All lines that a text does not have are its end, when they are not refused. -/
theorem offsetClamped_of_lineCount_le (hp : (LineIndex.ofText text).lineCount ≤ p.line.toNat) :
    (LineIndex.ofText text).offsetClamped p text e = byteLength text.toList := by
  rcases Nat.eq_or_lt_of_le hp with heq | hlt
  · rw [LineIndex.offsetClamped, offset_of_lineCount heq.symm]
  · by_cases hne : text = ""
    · rw [hne]
      rfl
    · rw [LineIndex.offsetClamped, offset_of_lineCount_lt hne hlt]

theorem position_of_line (h : Line text.toList lead line more) (hshort : byteLength text.toList < 2 ^ 32)
    {run : List Char} (hrun : run <+: line) :
    ((LineIndex.ofText text).position (byteLength (lead ++ run)) text e).line.toNat = lead.count '\n'
      ∧ ((LineIndex.ofText text).position (byteLength (lead ++ run)) text e).column.toNat = width e run := by
  obtain ⟨rest, rfl⟩ := hrun
  have hcut : text.toList = (lead ++ run) ++ (rest ++ more) := by
    rw [h.whole]
    simp only [List.append_assoc]
  have hbefore : byteLength (lead ++ run) < 2 ^ 32 := by
    rw [hcut, byteLength_append] at hshort
    omega
  have hunbroken : '\n' ∉ run := fun hmem => h.unbroken (List.mem_append_left _ hmem)
  rw [position_byteLength e hshort hcut]
  exact placeAfter_eq h.closed hunbroken hbefore

/-- Every offset has its place in a line. -/
theorem line_position_lt (e : Encoding) (hshort : byteLength text.toList < 2 ^ 32) (n : Nat) :
    ((LineIndex.ofText text).position n text e).line.toNat < (LineIndex.ofText text).lineCount := by
  obtain ⟨after, hafter⟩ := leading_isPrefix (min n (byteLength text.toList)) text.toList
  rw [position_eq_placeAfter e hshort, lineCount_ofText]
  generalize leading (min n (byteLength text.toList)) text.toList = before at hafter
  have hbefore : byteLength before < 2 ^ 32 := by
    rw [← hafter, byteLength_append] at hshort
    omega
  rw [(placeAfter_toNat e hbefore).1, scan_line, ← hafter, List.count_append]
  omega

end Offset

/-! ### There and back -/

section Back

variable {e : Encoding} {text : String} {p : LineCol} {line : List Char}

/-- Only places behind the line behind the last one are refused. -/
theorem offset_eq_error_iff (hne : text ≠ "") {err : PositionError} :
    (LineIndex.ofText text).offset p text e = .error err
      ↔ (LineIndex.ofText text).lineCount < p.line.toNat
        ∧ err = .lineOutOfRange p.line (LineIndex.ofText text).lineCount := by
  constructor
  · intro herr
    by_cases hlt : (LineIndex.ofText text).lineCount < p.line.toNat
    · rw [offset_of_lineCount_lt hne hlt] at herr
      exact ⟨hlt, (Except.error.inj herr).symm⟩
    · rcases Nat.eq_or_lt_of_le (Nat.not_lt.mp hlt) with heq | hlt
      · rw [offset_of_lineCount heq] at herr
        cases herr
      · obtain ⟨line, -, lead, more, hline, hcount⟩ := exists_line_of_lt hlt
        rw [offset_of_line hline hcount.symm] at herr
        cases herr
  · rintro ⟨hlt, rfl⟩
    exact offset_of_lineCount_lt hne hlt

variable (h : byteLength text.toList < 2 ^ 32)
include h

/-- A place in a line comes back there, behind the run that is as wide as its column. -/
theorem exists_position_offset (hline : (text.toList.splitOn '\n')[p.line.toNat]? = some line) :
    ∃ n, (LineIndex.ofText text).offset p text e = .ok n
      ∧ ((LineIndex.ofText text).position n text e).line = p.line
      ∧ ((LineIndex.ofText text).position n text e).column.toNat = width e (reach e p.column.toNat line) := by
  obtain ⟨lead, more, hcut, hcount⟩ := exists_line hline
  obtain ⟨hl, hc⟩ := position_of_line (e := e) hcut h (reach_isPrefix e p.column.toNat line)
  exact ⟨_, offset_of_line hcut hcount.symm, UInt32.toNat_inj.mp (hl.trans hcount), hc⟩

/-- The places that come back as they are, are those behind some characters of their line. -/
theorem position_offset_eq_self_iff :
    (∃ n, (LineIndex.ofText text).offset p text e = .ok n ∧ (LineIndex.ofText text).position n text e = p)
      ↔ ∃ line, (text.toList.splitOn '\n')[p.line.toNat]? = some line
        ∧ ∃ run, run <+: line ∧ width e run = p.column.toNat := by
  constructor
  · rintro ⟨n, hn, hsame⟩
    have hlt := line_position_lt e h n
    rw [hsame] at hlt
    obtain ⟨line, hline, -⟩ := exists_line_of_lt hlt
    obtain ⟨n', hn', -, hc⟩ := exists_position_offset (e := e) h hline
    rw [hn] at hn'
    obtain rfl := Except.ok.inj hn'
    rw [hsame] at hc
    exact ⟨line, hline, (width_reach_eq_iff e).mp hc.symm⟩
  · rintro ⟨line, hline, hrun⟩
    obtain ⟨n, hn, hl, hc⟩ := exists_position_offset (e := e) h hline
    rw [(width_reach_eq_iff e).mpr hrun] at hc
    have hplace : (LineIndex.ofText text).position n text e = ⟨p.line, p.column⟩ := by
      rw [← hl, ← UInt32.toNat_inj.mp hc]
    exact ⟨n, hn, hplace⟩

end Back

/-- **From a place to its offset and back.**  In a text below 2^32 octets that is not empty, just
    the places whose line number is greater than that of the lines are refused, and a line
    number that is equal leads to the text's end.  Any other place comes back in its own line,
    with its column rounded to one that the line has; so the places that come back as they are
    are those behind some characters of their line. -/
theorem position_offset (e : Encoding) {text : String} (hne : text ≠ "") (h : byteLength text.toList < 2 ^ 32)
    (p : LineCol) :
    let ix := LineIndex.ofText text
    let lines := text.toList.splitOn '\n'
    ix.lineCount = lines.length
    ∧ (∀ err, ix.offset p text e = .error err ↔ ix.lineCount < p.line.toNat ∧ err = .lineOutOfRange p.line ix.lineCount)
    ∧ (p.line.toNat = ix.lineCount → ∃ n, ix.offset p text e = .ok n ∧ ix.position n text e = ix.endPosition text e)
    ∧ (∀ line, lines[p.line.toNat]? = some line → ∃ n c, ix.offset p text e = .ok n
      ∧ ix.position n text e = ⟨p.line, c⟩ ∧ Rounds e line p.column.toNat c.toNat)
    ∧ ((∃ n, ix.offset p text e = .ok n ∧ ix.position n text e = p)
      ↔ ∃ line, lines[p.line.toNat]? = some line ∧ ∃ run, run <+: line ∧ width e run = p.column.toNat) := by
  intro ix lines
  refine ⟨lineCount_eq text, fun err => offset_eq_error_iff hne, fun hp => ⟨_, offset_of_lineCount hp, rfl⟩,
    fun line hline => ?_, position_offset_eq_self_iff h⟩
  obtain ⟨n, hn, hl, hc⟩ := exists_position_offset (e := e) h hline
  have hplace : ix.position n text e = ⟨p.line, (ix.position n text e).column⟩ := by rw [← hl]
  exact ⟨n, _, hn, hplace, hc ▸ rounds_width_reach e p.column.toNat line⟩

/-- A place inside a pair of words, in a line that ends before a carriage return and a line
    feed, comes back behind the pair. -/
theorem position_offset_inside_pair :
    "a😀\r\nb" ≠ "" ∧ byteLength "a😀\r\nb".toList < 2 ^ 32
    ∧ (LineIndex.ofText "a😀\r\nb").offset ⟨0, 2⟩ "a😀\r\nb" .utf16 = .ok 5
    ∧ ∃ c, (LineIndex.ofText "a😀\r\nb").position 5 "a😀\r\nb" .utf16 = ⟨0, c⟩
      ∧ Rounds .utf16 "a😀\r".toList 2 c.toNat := by
  have hne : "a😀\r\nb" ≠ "" := by decide
  have h : byteLength "a😀\r\nb".toList < 2 ^ 32 := by decide
  have hoffset : (LineIndex.ofText "a😀\r\nb").offset ⟨0, 2⟩ "a😀\r\nb" .utf16 = .ok 5 := by rfl
  obtain ⟨-, -, -, hlines, -⟩ := position_offset .utf16 hne h ⟨0, 2⟩
  obtain ⟨n, c, hn, hplace, hrounds⟩ := hlines "a😀\r".toList (by decide)
  rw [hoffset] at hn
  obtain rfl := Except.ok.inj hn
  exact ⟨hne, h, hoffset, c, hplace, hrounds⟩

end LiveWorkspace.Text
