/-
  LiveWorkspace/Proofs/Text/Rounding.lean
  =======================================
  **From an offset to its place and back leads to the next boundary.**

  The place of a byte offset is the place behind all characters that start in front of it
  (`position_eq_placeAfter`), whichever way the index finds it: the line by counting the
  starts up to the offset, or by any search of them, since they ascend (`lineOfAnswer_eq`);
  the column by a walk from the last of them.  So the index finds what a scan from the start
  of the text finds (`position_eq_scanBefore`).  An offset inside a character counts as the
  end of that character, and one behind the text as the text's end.

  The way back is that of any place behind some characters, so that the two together round
  an offset forward to the next boundary, and leave a boundary where it is
  (`offset_position`).
-/
import LiveWorkspace.Proofs.Text.Places

namespace LiveWorkspace.Text

/-! ### The characters in front of an offset -/

/-- The characters that start before byte offset `n`. -/
def leading : (n : Nat) → List Char → List Char
  | 0, _ => []
  | _ + 1, [] => []
  | n + 1, c :: rest => c :: leading (n + 1 - c.utf8Size) rest

theorem leading_zero (cs : List Char) : leading 0 cs = [] := by rw [leading]

theorem leading_nil (n : Nat) : leading n [] = [] := by cases n <;> rw [leading]

theorem leading_cons {n : Nat} (h : 0 < n) (c : Char) (rest : List Char) :
    leading n (c :: rest) = c :: leading (n - c.utf8Size) rest := by
  obtain ⟨n, rfl⟩ := Nat.exists_eq_succ_of_ne_zero (Nat.ne_of_gt h)
  rw [Nat.succ_eq_add_one, leading]

theorem leading_append (n : Nat) (as bs : List Char) :
    leading n (as ++ bs) = leading n as ++ leading (n - byteLength as) bs := by
  induction as generalizing n with
  | nil => rw [leading_nil, List.nil_append, List.nil_append, byteLength_nil, Nat.sub_zero]
  | cons c as ih =>
    rcases Nat.eq_zero_or_pos n with rfl | hn
    · simp only [leading_zero, Nat.zero_sub, List.append_nil]
    · rw [List.cons_append, leading_cons hn, leading_cons hn, ih, byteLength_cons, Nat.sub_sub, List.cons_append]

/-- A character starts before an offset when the octets in front of it do not reach it yet. -/
theorem leading_eq_reach (n : Nat) (cs : List Char) : leading n cs = reach .utf8 n cs := by
  induction cs generalizing n with
  | nil => rw [leading_nil, reach_nil]
  | cons c rest ih =>
    rcases Nat.eq_zero_or_pos n with rfl | hn
    · rw [leading_zero, reach_zero]
    · rw [leading_cons hn, reach_cons .utf8 hn, ih]
      rfl

theorem leading_isPrefix (n : Nat) (cs : List Char) : leading n cs <+: cs := by
  rw [leading_eq_reach]
  exact reach_isPrefix .utf8 n cs

/-- The characters that start before an offset reach up to it, as far as the text does. -/
theorem min_le_byteLength_leading (n : Nat) (cs : List Char) :
    min n (byteLength cs) ≤ byteLength (leading n cs) := by
  rw [leading_eq_reach]
  exact min_le_width_reach .utf8 n cs

/-- Beginnings that reach up to an offset hold all that starts before it. -/
theorem byteLength_leading_le {n : Nat} {before : List Char} (after : List Char) (h : n ≤ byteLength before) :
    byteLength (leading n (before ++ after)) ≤ byteLength before := by
  rw [leading_eq_reach]
  exact width_mono .utf8 (reach_prefix_of_le .utf8 (List.prefix_append before after) h)

/-- At a boundary, just the characters in front of it start before it. -/
theorem leading_byteLength (before after : List Char) :
    leading (byteLength before) (before ++ after) = before := by
  obtain ⟨rest, hrest⟩ := leading_isPrefix (byteLength before) before
  have hreach := min_le_byteLength_leading (byteLength before) before
  have hlength := congrArg byteLength hrest
  rw [byteLength_append] at hlength
  have hnil : rest = [] := byteLength_eq_zero_iff.mp (by omega)
  rw [leading_append, Nat.sub_self, leading_zero, List.append_nil]
  rw [hnil, List.append_nil] at hrest
  exact hrest

/-- What of a whole starts before an offset when the whole does is the part itself. -/
theorem leading_eq_self_of_append {n : Nat} {lead tail : List Char} (h : leading n (lead ++ tail) = lead ++ tail) :
    leading n lead = lead := by
  induction lead generalizing n with
  | nil => exact leading_nil n
  | cons c lead ih =>
    rcases Nat.eq_zero_or_pos n with rfl | hn
    · simp [leading_zero] at h
    · rw [List.cons_append, leading_cons hn, List.cons.injEq] at h
      rw [leading_cons hn, ih h.2]

theorem leading_leading (n : Nat) (cs : List Char) : leading n (leading n cs) = leading n cs := by
  induction cs generalizing n with
  | nil => rw [leading_nil, leading_nil]
  | cons c rest ih =>
    rcases Nat.eq_zero_or_pos n with rfl | hn
    · simp only [leading_zero]
    · rw [leading_cons hn, leading_cons hn, ih]

/-! ### What the index finds at an offset -/

/-- A walk that stops at an offset is as wide as the characters that start before it. -/
theorem widthBefore_eq (e : Encoding) (stop pos : Nat) (cs : List Char) :
    widthBefore e stop pos cs = width e (leading (stop - pos) cs) := by
  induction cs generalizing pos with
  | nil => simp [widthBefore, leading_nil, width]
  | cons c rest ih =>
    rw [widthBefore]
    split
    · rename_i hlt
      rw [leading_cons (Nat.sub_pos_of_lt hlt), ih, Nat.sub_sub]
      rfl
    · rename_i hge
      rw [Nat.sub_eq_zero_of_le (Nat.not_lt.mp hge), leading_zero]
      rfl

/-- The lines that start up to an offset are those whose line feeds start before it. -/
theorem countP_lineStartsFrom (n pos : Nat) (cs : List Char) :
    (lineStartsFrom pos cs).countP (· ≤ n) = (leading (n - pos) cs).count '\n' := by
  induction cs generalizing pos with
  | nil => simp [lineStartsFrom, leading_nil]
  | cons c rest ih =>
    have hsize := c.utf8Size_pos
    by_cases hlt : pos < n
    · rw [leading_cons (Nat.sub_pos_of_lt hlt), Nat.sub_sub, lineStartsFrom]
      split
      · rename_i hc
        subst hc
        have hle : pos + ('\n' : Char).utf8Size ≤ n := hlt
        rw [List.countP_cons_of_pos (by simpa using hle), List.count_cons_self, ih]
      · rename_i hc
        rw [List.count_cons_of_ne hc, ih]
    · -- Behind the offset there are only later starts.
      have hnone : (lineStartsFrom (pos + c.utf8Size) rest).countP (· ≤ n) = 0 := by
        rw [ih, Nat.sub_eq_zero_of_le (by omega), leading_zero, List.count_nil]
      rw [Nat.sub_eq_zero_of_le (Nat.not_lt.mp hlt), leading_zero, List.count_nil, lineStartsFrom]
      split
      · rw [List.countP_cons_of_neg (by simp only [decide_eq_true_eq]; omega), hnone]
      · exact hnone

theorem lineAt_ofText (text : String) (n : Nat) :
    (LineIndex.ofText text).lineAt n = (leading n text.toList).count '\n' := by
  rw [LineIndex.lineAt, LineIndex.ofText, List.countP_cons_of_pos (by simp), countP_lineStartsFrom,
    Nat.add_sub_cancel, Nat.sub_zero]

/-! ### Searching the line starts -/

theorem lt_of_mem_lineStartsFrom {pos k : Nat} {cs : List Char} (h : k ∈ lineStartsFrom pos cs) : pos < k := by
  induction cs generalizing pos with
  | nil => cases h
  | cons c rest ih =>
    have hsize := c.utf8Size_pos
    have hrest : k ∈ lineStartsFrom (pos + c.utf8Size) rest → pos < k := fun hk => by
      have hlt := ih hk
      omega
    rw [lineStartsFrom] at h
    split at h
    · rcases List.mem_cons.mp h with rfl | hk
      · omega
      · exact hrest hk
    · exact hrest h

theorem pairwise_lineStartsFrom (pos : Nat) (cs : List Char) : (lineStartsFrom pos cs).Pairwise (· < ·) := by
  induction cs generalizing pos with
  | nil => exact .nil
  | cons c rest ih =>
    rw [lineStartsFrom]
    split
    · exact .cons (fun k hk => lt_of_mem_lineStartsFrom hk) (ih _)
    · exact ih _

theorem pairwise_lineStarts (text : String) : (LineIndex.ofText text).lineStarts.Pairwise (· < ·) :=
  .cons (fun _ hk => lt_of_mem_lineStartsFrom hk) (pairwise_lineStartsFrom 0 text.toList)

/-- What a search of a list in ascending order answers: where the number is, or else where it
    belongs. -/
inductive Answers (l : List Nat) (n : Nat) : Except Nat Nat → Prop
  | found {before after : List Nat} (h : l = before ++ n :: after) : Answers l n (.ok before.length)
  | missing {before after : List Nat} (h : l = before ++ after) (hbefore : ∀ k ∈ before, k < n)
      (hafter : ∀ k ∈ after, n < k) : Answers l n (.error before.length)

/-- The line of an offset, from what a search of the line starts answers. -/
def lineOfAnswer : Except Nat Nat → Nat
  | .ok i => i
  | .error i => i - 1

theorem countP_le_of_cut {n : Nat} {before after : List Nat} (hbefore : ∀ k ∈ before, k ≤ n)
    (hafter : ∀ k ∈ after, n < k) : (before ++ after).countP (· ≤ n) = before.length := by
  have hall : before.countP (· ≤ n) = before.length :=
    List.countP_eq_length.mpr fun k hk => decide_eq_true (hbefore k hk)
  have hnone : after.countP (· ≤ n) = 0 :=
    List.countP_eq_zero.mpr fun k hk => by simpa using hafter k hk
  rw [List.countP_append, hall, hnone, Nat.add_zero]

/-- **Any search finds the line** that the index gives. -/
theorem lineOfAnswer_eq {ix : LineIndex} (hsorted : ix.lineStarts.Pairwise (· < ·)) {n : Nat} {answer : Except Nat Nat}
    (h : Answers ix.lineStarts n answer) : lineOfAnswer answer = ix.lineAt n := by
  rw [LineIndex.lineAt]
  cases h with
  | missing h hbefore hafter =>
    rw [h, countP_le_of_cut (fun k hk => Nat.le_of_lt (hbefore k hk)) hafter]
    rfl
  | @found before after h =>
    rw [h, List.pairwise_append] at hsorted
    obtain ⟨-, hafter, hbefore⟩ := hsorted
    -- The start that was found counts among those up to the offset.
    have hupto : ∀ k ∈ before ++ [n], k ≤ n := by
      intro k hk
      rcases List.mem_append.mp hk with hk | hk
      · exact Nat.le_of_lt (hbefore k hk n List.mem_cons_self)
      · exact Nat.le_of_eq (List.mem_singleton.mp hk)
    rw [h, List.append_cons, countP_le_of_cut hupto (fun k hk => List.rel_of_pairwise_cons hafter hk),
      List.length_append]
    rfl

/-! ### The place of an offset -/

/-- **The place of an offset** is that behind the characters which start before it. -/
theorem position_eq_placeAfter (e : Encoding) {text : String} (h : byteLength text.toList < 2 ^ 32) (n : Nat) :
    (LineIndex.ofText text).position n text e
      = placeAfter e (leading (min n (byteLength text.toList)) text.toList) := by
  by_cases hstart : text.toList.isEmpty = true ∨ n = 0
  · have hnone : leading (min n (byteLength text.toList)) text.toList = [] := by
      rcases hstart with hempty | rfl
      · rw [List.isEmpty_iff.mp hempty, leading_nil]
      · rw [Nat.zero_min, leading_zero]
    rw [LineIndex.position, if_pos hstart, hnone]
    rfl
  · generalize hn : min n (byteLength text.toList) = n'
    obtain ⟨after, hafter⟩ := leading_isPrefix n' text.toList
    obtain ⟨lead, tail, hcut, hlead, htail⟩ := exists_closed_append (leading n' text.toList)
    have hwhole : text.toList = lead ++ (tail ++ after) := by rw [← hafter, hcut, List.append_assoc]
    have hline : (LineIndex.ofText text).lineAt n' = lead.count '\n' := by
      rw [lineAt_ofText, hcut, List.count_append, List.count_eq_zero.mpr htail, Nat.add_zero]
    have hfrom : (LineIndex.ofText text).lineStarts.getD (lead.count '\n') 0 = byteLength lead := by
      rw [List.getD_eq_getElem?_getD, LineIndex.ofText, hwhole, lineStartsFrom_append,
        lineStart_of_closed hlead, Option.getD_some]
    have hself : leading n' lead = lead := by
      have hall : leading n' (lead ++ tail) = lead ++ tail := by rw [← hcut, leading_leading]
      exact leading_eq_self_of_append hall
    have hrest : leading (n' - byteLength lead) (tail ++ after) = tail := by
      have hall := hcut
      rw [hwhole, leading_append, hself] at hall
      exact List.append_cancel_left hall
    have hshort : byteLength (lead ++ tail) < 2 ^ 32 := by
      rw [hwhole, ← List.append_assoc, byteLength_append] at h
      omega
    have hplace := placeAfter_eq (e := e) hlead htail hshort
    have hcount := count_feed_le_byteLength lead
    rw [byteLength_append] at hshort
    have hsize : UInt32.size = 2 ^ 32 := rfl
    rw [LineIndex.position, if_neg hstart]
    simp only [hn, hline, hfrom]
    rw [hcut, hwhole, dropBytes?_byteLength_append, Option.getD_some, widthBefore_eq, hrest, LineCol.ofNat,
      Nat.min_eq_left (by omega)]
    rw [placeAfter, scan_append, scan_of_closed e hlead, scan_of_no_feed e _ _ htail, Nat.zero_add]

theorem position_byteLength (e : Encoding) {text : String} (h : byteLength text.toList < 2 ^ 32)
    {before after : List Char} (hcut : text.toList = before ++ after) :
    (LineIndex.ofText text).position (byteLength before) text e = placeAfter e before := by
  have hle : byteLength before ≤ byteLength text.toList := by simp [hcut]
  rw [position_eq_placeAfter e h, Nat.min_eq_left hle, hcut, leading_byteLength]

/-- A place is spelled as the scan finds it when the text in front of it is short. -/
theorem placeAfter_toNat (e : Encoding) {before : List Char} (h : byteLength before < 2 ^ 32) :
    (placeAfter e before).line.toNat = (scan e 0 0 before).1
      ∧ (placeAfter e before).column.toNat = (scan e 0 0 before).2 := by
  obtain ⟨lead, tail, rfl, hlead, htail⟩ := exists_closed_append before
  obtain ⟨hline, hcolumn⟩ := placeAfter_eq (e := e) hlead htail h
  rw [hline, hcolumn, scan_append, scan_of_closed e hlead, scan_of_no_feed e _ _ htail, Nat.zero_add]
  exact ⟨rfl, rfl⟩

/-! ### Scanning up to an offset -/

/-- A scan that stops at the first character that does not start before byte offset `stop`,
    where the first one starts at `pos`. -/
def scanBefore (e : Encoding) (stop : Nat) : (pos line column : Nat) → List Char → Nat × Nat
  | _, line, column, [] => (line, column)
  | pos, line, column, c :: rest =>
    if pos < stop then
      if c = '\n' then scanBefore e stop (pos + c.utf8Size) (line + 1) 0 rest
      else scanBefore e stop (pos + c.utf8Size) line (column + e.units c) rest
    else (line, column)

theorem scanBefore_eq (e : Encoding) (stop pos line column : Nat) (cs : List Char) :
    scanBefore e stop pos line column cs = scan e line column (leading (stop - pos) cs) := by
  induction cs generalizing pos line column with
  | nil => rw [leading_nil, scanBefore, scan]
  | cons c rest ih =>
    rw [scanBefore]
    by_cases hlt : pos < stop
    · rw [if_pos hlt, leading_cons (Nat.sub_pos_of_lt hlt), scan, ih, ih, Nat.sub_sub]
    · rw [if_neg hlt, Nat.sub_eq_zero_of_le (Nat.not_lt.mp hlt), leading_zero, scan]

/-- **The index finds what a scan finds.**  In a text below 2^32 octets, the place of any byte
    offset is the line and the column that a scan from the start reaches over the characters
    which start before the offset, or before the text's end if that comes first; and any search
    of the line starts finds that line. -/
theorem position_eq_scanBefore (e : Encoding) {text : String} (h : byteLength text.toList < 2 ^ 32) (n : Nat) :
    let ix := LineIndex.ofText text
    let stop := min n (byteLength text.toList)
    ((ix.position n text e).line.toNat, (ix.position n text e).column.toNat) = scanBefore e stop 0 0 0 text.toList
    ∧ ∀ answer, Answers ix.lineStarts stop answer → lineOfAnswer answer = (scanBefore e stop 0 0 0 text.toList).1 := by
  intro ix stop
  have hscan : scanBefore e stop 0 0 0 text.toList = scan e 0 0 (leading stop text.toList) := by
    rw [scanBefore_eq, Nat.sub_zero]
  constructor
  · obtain ⟨after, hafter⟩ := leading_isPrefix stop text.toList
    have hbefore : byteLength (leading stop text.toList) < 2 ^ 32 := by
      rw [← hafter, byteLength_append] at h
      omega
    obtain ⟨hline, hcolumn⟩ := placeAfter_toNat e hbefore
    rw [position_eq_placeAfter e h n, hline, hcolumn, hscan]
  · intro answer hanswer
    rw [lineOfAnswer_eq (pairwise_lineStarts text) hanswer, lineAt_ofText, hscan, scan_line, Nat.zero_add]

/-- At an offset inside a pair of words the scan has counted the whole pair. -/
theorem position_eq_scanBefore_inside_pair :
    byteLength "é\n😀b".toList < 2 ^ 32
    ∧ scanBefore .utf16 (min 4 (byteLength "é\n😀b".toList)) 0 0 0 "é\n😀b".toList = (1, 2)
    ∧ ((LineIndex.ofText "é\n😀b").position 4 "é\n😀b" .utf16).column.toNat = 2 := by
  have h : byteLength "é\n😀b".toList < 2 ^ 32 := by decide
  have hscan : scanBefore .utf16 (min 4 (byteLength "é\n😀b".toList)) 0 0 0 "é\n😀b".toList = (1, 2) := by decide
  have hplace := (position_eq_scanBefore .utf16 h 4).1.trans hscan
  exact ⟨h, hscan, (Prod.mk.inj hplace).2⟩

/-! ### There and back -/

/-- **The way back** ends behind the characters which start before the offset. -/
theorem offset_position_eq (e : Encoding) {text : String} (h : byteLength text.toList < 2 ^ 32) (n : Nat) :
    (LineIndex.ofText text).offset ((LineIndex.ofText text).position n text e) text e
      = .ok (byteLength (leading (min n (byteLength text.toList)) text.toList)) := by
  rw [position_eq_placeAfter e h]
  obtain ⟨after, hafter⟩ := leading_isPrefix (min n (byteLength text.toList)) text.toList
  generalize leading (min n (byteLength text.toList)) text.toList = before at hafter
  have hshort : byteLength before < 2 ^ 32 := by
    rw [← hafter, byteLength_append] at h
    omega
  have hback := offset_placeAfter e after hshort
  rwa [hafter, String.ofList_toList] at hback

theorem offset_position_of_isBoundary (e : Encoding) {text : String} (h : byteLength text.toList < 2 ^ 32) {n : Nat}
    (hn : IsBoundary n text.toList) :
    (LineIndex.ofText text).offset ((LineIndex.ofText text).position n text e) text e = .ok n := by
  rw [offset_position_eq e h, Nat.min_eq_left hn.le_byteLength]
  obtain ⟨before, after, hcut, rfl⟩ := hn
  rw [hcut, leading_byteLength]

/-- **Round trip with rounding.**  In a text below 2^32 octets, the place of any byte offset
    leads to the least boundary that is not before the offset, or before the text's end if that
    comes first; a boundary is left where it is, so that places tell boundaries apart. -/
theorem offset_position (e : Encoding) {text : String} (h : byteLength text.toList < 2 ^ 32) :
    let ix := LineIndex.ofText text
    (∀ n, ∃ m, ix.offset (ix.position n text e) text e = .ok m
      ∧ IsLeast {b | IsBoundary b text.toList ∧ min n (byteLength text.toList) ≤ b} m)
    ∧ (∀ n, IsBoundary n text.toList → ix.offset (ix.position n text e) text e = .ok n)
    ∧ ∀ a b, IsBoundary a text.toList → IsBoundary b text.toList →
      ix.position a text e = ix.position b text e → a = b := by
  intro ix
  refine ⟨fun n => ?_, fun n hn => offset_position_of_isBoundary e h hn, ?_⟩
  · generalize hend : min n (byteLength text.toList) = n'
    refine ⟨byteLength (leading n' text.toList), hend ▸ offset_position_eq e h n, ⟨?_, ?_⟩, ?_⟩
    · obtain ⟨after, hafter⟩ := leading_isPrefix n' text.toList
      exact ⟨_, after, hafter.symm, rfl⟩
    · have hreach := min_le_byteLength_leading n' text.toList
      omega
    · rintro b ⟨⟨before, after, hcut, rfl⟩, hle⟩
      rw [hcut]
      exact byteLength_leading_le after hle
  · intro a b ha hb hsame
    have hback := offset_position_of_isBoundary e h ha
    rw [show (LineIndex.ofText text).position a text e = (LineIndex.ofText text).position b text e from hsame,
      offset_position_of_isBoundary e h hb] at hback
    exact (Except.ok.inj hback).symm

/-- An offset inside a pair of words behind a line feed goes to the end of the pair. -/
theorem offset_position_inside_pair :
    byteLength "é\n😀".toList < 2 ^ 32
    ∧ (LineIndex.ofText "é\n😀").position 5 "é\n😀" .utf16 = ⟨1, 2⟩
    ∧ (LineIndex.ofText "é\n😀").offset ⟨1, 2⟩ "é\n😀" .utf16 = .ok 7
    ∧ IsLeast {b | IsBoundary b "é\n😀".toList ∧ 5 ≤ b} 7 := by
  have h : byteLength "é\n😀".toList < 2 ^ 32 := by decide
  have hplace : (LineIndex.ofText "é\n😀").position 5 "é\n😀" .utf16 = ⟨1, 2⟩ := by decide
  have hoffset : (LineIndex.ofText "é\n😀").offset ⟨1, 2⟩ "é\n😀" .utf16 = .ok 7 := by rfl
  obtain ⟨m, hm, hleast⟩ := (offset_position .utf16 h).1 5
  rw [hplace, hoffset] at hm
  obtain rfl := Except.ok.inj hm
  exact ⟨h, hplace, hoffset, hleast⟩

end LiveWorkspace.Text
