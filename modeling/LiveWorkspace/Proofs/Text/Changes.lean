/-
  LiveWorkspace/Proofs/Text/Changes.lean
  ======================================
  **Any two places delimit a range that can be replaced, and put back.**

  Whatever places an editor sends, the offsets they lead to are boundaries of the text, in the
  order of the places (`offsetClamped_mono`): an edit cuts the text into what precedes its
  range, the range, and what follows (`exists_range`), and so a second edit can put the first
  one's range back (`replaceRange_undo`).

  Nothing in this counts beyond a word or cuts inside a character.  To say so, the walks are
  written down once more as a machine takes them, step by step in words: a sum that is no word,
  a difference below zero, and a cut at no boundary have no result (`Words`).  On the index of
  a text that is not longer than the greatest word they all have one, and it is that of the
  plain functions (`replaceRange_safe`).
-/
import LiveWorkspace.Proofs.Text.Lines

namespace LiveWorkspace.Text

/-! ### Where places lead -/

theorem Line.run_isPrefix {cs lead line more run : List Char} (h : Line cs lead line more) (hrun : run <+: line) :
    lead ++ run <+: cs := by
  rw [h.whole, List.prefix_append_right_inj]
  exact hrun.trans (List.prefix_append line more)

/-- A line ends before the lines behind it start. -/
theorem Line.end_le_start {cs lead line more lead' line' more' : List Char} (h : Line cs lead line more)
    (h' : Line cs lead' line' more') (hlt : lead.count '\n' < lead'.count '\n') : lead ++ line <+: lead' := by
  have hsame : (lead ++ line) ++ more = lead' ++ (line' ++ more') := by
    rw [List.append_assoc, ← h.whole, h'.whole]
  rcases List.append_eq_append_iff.mp hsame with ⟨between, hlead', -⟩ | ⟨between, hlead, -⟩
  · rw [hlead']
    exact List.prefix_append _ _
  · -- Else the later line would start in the earlier one, behind no more line feeds.
    have hcount := congrArg (List.count '\n') hlead
    rw [List.count_append, List.count_append, List.count_eq_zero.mpr h.unbroken] at hcount
    omega

theorem byteLength_mono {as bs : List Char} (h : as <+: bs) : byteLength as ≤ byteLength bs := by
  obtain ⟨rest, rfl⟩ := h
  rw [byteLength_append]
  exact Nat.le_add_right _ _

theorem isBoundary_of_isPrefix {before cs : List Char} (h : before <+: cs) : IsBoundary (byteLength before) cs := by
  obtain ⟨after, rfl⟩ := h
  exact ⟨before, after, rfl, rfl⟩

theorem LineCol.line_lt_or_column_le {p q : LineCol} (h : (Ord.compare p q).isLE = true) :
    p.line < q.line ∨ p.line = q.line ∧ p.column ≤ q.column := by
  change ((Ord.compare p.line q.line).then (Ord.compare p.column q.column)).isLE = true at h
  rw [Ordering.isLE_then_iff_or] at h
  rcases h with hline | ⟨hline, hcolumn⟩
  · exact .inl (Std.compare_eq_lt.mp hline)
  · exact .inr ⟨Std.LawfulEqOrd.compare_eq_iff_eq.mp hline, Std.isLE_compare.mp hcolumn⟩

section Places

variable (e : Encoding) (text : String)

/-- **Every place leads to a boundary.** -/
theorem isBoundary_offsetClamped (p : LineCol) :
    IsBoundary ((LineIndex.ofText text).offsetClamped p text e) text.toList := by
  by_cases hp : p.line.toNat < (LineIndex.ofText text).lineCount
  · obtain ⟨line, -, lead, more, hline, hcount⟩ := exists_line_of_lt hp
    rw [offsetClamped_of_line hline hcount.symm]
    exact isBoundary_of_isPrefix (hline.run_isPrefix (reach_isPrefix e p.column.toNat line))
  · rw [offsetClamped_of_lineCount_le (Nat.not_lt.mp hp)]
    exact isBoundary_byteLength _

/-- **Later places do not lead to earlier offsets.** -/
theorem offsetClamped_mono {p q : LineCol} (h : (compare p q).isLE = true) :
    (LineIndex.ofText text).offsetClamped p text e ≤ (LineIndex.ofText text).offsetClamped q text e := by
  by_cases hq : q.line.toNat < (LineIndex.ofText text).lineCount
  · obtain ⟨line', -, lead', more', hline', hcount'⟩ := exists_line_of_lt hq
    rw [offsetClamped_of_line hline' hcount'.symm]
    rcases LineCol.line_lt_or_column_le h with hlt | ⟨heq, hcolumn⟩
    · have hlt : p.line.toNat < q.line.toNat := hlt
      obtain ⟨line, -, lead, more, hline, hcount⟩ := exists_line_of_lt (Nat.lt_trans hlt hq)
      rw [offsetClamped_of_line hline hcount.symm]
      -- Whatever run of the earlier line it is, the line ends before the later one starts.
      apply byteLength_mono
      calc lead ++ reach e p.column.toNat line
          <+: lead ++ line := (List.prefix_append_right_inj lead).mpr (reach_isPrefix e _ line)
        _ <+: lead' := hline.end_le_start hline' (by omega)
        _ <+: lead' ++ reach e q.column.toNat line' := List.prefix_append lead' _
    · rw [offsetClamped_of_line hline' (heq ▸ hcount'.symm)]
      exact byteLength_mono ((List.prefix_append_right_inj lead').mpr (reach_mono e hcolumn line'))
  · rw [offsetClamped_of_lineCount_le (Nat.not_lt.mp hq)]
    exact (isBoundary_offsetClamped e text p).le_byteLength

end Places

/-! ### The range of an edit -/

/-- Between two boundaries lies a range of the text. -/
theorem exists_range {cs : List Char} {a b : Nat} (ha : IsBoundary a cs) (hb : IsBoundary b cs) (hle : a ≤ b) :
    ∃ before old after, cs = before ++ old ++ after ∧ byteLength before = a ∧ byteLength (before ++ old) = b := by
  obtain ⟨before, rest, rfl, rfl⟩ := ha
  obtain ⟨upto, after, hcut, rfl⟩ := hb
  rcases List.append_eq_append_iff.mp hcut with ⟨old, rfl, rfl⟩ | ⟨old, rfl, rfl⟩
  · exact ⟨before, old, after, (List.append_assoc before old after).symm, rfl, rfl⟩
  · rw [byteLength_append] at hle
    obtain rfl : old = [] := byteLength_eq_zero_iff.mp (by omega)
    refine ⟨upto, [], rest, ?_, ?_, ?_⟩
    · simp only [List.append_nil]
    · rw [List.append_nil]
    · rw [List.append_nil]

/-- The offset at which the range between two places starts, and the one at which it stops. -/
def rangeOf (text : String) (start stop : LineCol) (e : Encoding) : Nat × Nat :=
  let a := (LineIndex.ofText text).offsetClamped start text e
  let b := (LineIndex.ofText text).offsetClamped stop text e
  (min a b, max a b)

/-- **An edit replaces the range between its places**, whatever they are. -/
theorem exists_range_of_places (e : Encoding) (text : String) (start stop : LineCol) :
    ∃ before old after, text.toList = before ++ old ++ after
      ∧ rangeOf text start stop e = (byteLength before, byteLength (before ++ old))
      ∧ ∀ new, replaceRange text start stop new e = String.ofList (before ++ new.toList ++ after) := by
  have hstart := isBoundary_offsetClamped e text start
  have hstop := isBoundary_offsetClamped e text stop
  have hmin : IsBoundary (rangeOf text start stop e).1 text.toList := min_rec' (IsBoundary · text.toList) hstart hstop
  have hmax : IsBoundary (rangeOf text start stop e).2 text.toList := max_rec' (IsBoundary · text.toList) hstart hstop
  obtain ⟨before, old, after, hcut, hbefore, hold⟩ :=
    exists_range hmin hmax (Nat.le_trans (Nat.min_le_left _ _) (Nat.le_max_left _ _))
  refine ⟨before, old, after, hcut, Prod.ext hbefore.symm hold.symm, fun new => ?_⟩
  show String.ofList (splice text.toList (rangeOf text start stop e).1 (rangeOf text start stop e).2 new.toList) = _
  rw [← hbefore, ← hold, hcut, splice_append]

/-! ### Putting back -/

/-- **An edit can be undone.**  An edit replaces the range between two offsets of a text.  When
    its result is below 2^32 octets, the edit of the new text, which is found at the places that
    its two ends have in the result, puts the old text back. -/
theorem replaceRange_undo (e : Encoding) (text : String) (start stop : LineCol) (new : String)
    (h : byteLength (replaceRange text start stop new e).toList < 2 ^ 32) :
    let range := rangeOf text start stop e
    let result := replaceRange text start stop new e
    let there := LineIndex.ofText result
    ∃ old, sliceBytes? range.1 range.2 text.toList = some old
      ∧ replaceRange result (there.position range.1 result e)
        (there.position (range.1 + byteLength new.toList) result e) (String.ofList old) e = text := by
  intro range result there
  obtain ⟨before, old, after, hcut, hrange, hreplace⟩ := exists_range_of_places e text start stop
  have hrange : range = (byteLength before, byteLength (before ++ old)) := hrange
  have hresult : result.toList = before ++ new.toList ++ after := by
    rw [show result = _ from hreplace new, String.toList_ofList]
  have hshort : byteLength (before ++ new.toList) < 2 ^ 32 := by
    have hall : byteLength result.toList < 2 ^ 32 := h
    rw [hresult, byteLength_append] at hall
    omega
  have hfirst : there.position range.1 result e = placeAfter e before := by
    rw [hrange]
    exact position_byteLength e h (hresult.trans (List.append_assoc before new.toList after))
  have hlast : there.position (range.1 + byteLength new.toList) result e = placeAfter e (before ++ new.toList) := by
    rw [hrange, ← byteLength_append]
    exact position_byteLength e h hresult
  refine ⟨old, ?_, ?_⟩
  · rw [hrange, sliceBytes?, if_pos (by rw [byteLength_append]; exact Nat.le_add_right _ _), hcut, List.append_assoc,
      dropBytes?_byteLength_append, Option.bind_some, byteLength_append, Nat.add_sub_cancel_left,
      takeBytes?_byteLength_append]
  · have hback := (replaceRange_placeAfter e after (String.ofList old) hshort).1
    rw [← hresult, String.ofList_toList, String.toList_ofList, ← hcut, String.ofList_toList] at hback
    rw [hfirst, hlast]
    exact hback

/-- A range written backwards, from behind the text to the inside of a pair of words: what is
    put in stands where a carriage return and a line feed have been, and goes again. -/
theorem replaceRange_undo_backwards :
    byteLength (replaceRange "é😀\r\nb" ⟨7, 7⟩ ⟨0, 2⟩ "x\n" .utf16).toList < 2 ^ 32
    ∧ replaceRange "é😀\r\nb" ⟨7, 7⟩ ⟨0, 2⟩ "x\n" .utf16 = "é😀x\n"
    ∧ rangeOf "é😀\r\nb" ⟨7, 7⟩ ⟨0, 2⟩ .utf16 = (6, 9)
    ∧ ∃ old, sliceBytes? 6 9 "é😀\r\nb".toList = some old
      ∧ replaceRange "é😀x\n" ((LineIndex.ofText "é😀x\n").position 6 "é😀x\n" .utf16)
        ((LineIndex.ofText "é😀x\n").position 8 "é😀x\n" .utf16) (String.ofList old) .utf16 = "é😀\r\nb" := by
  have hresult : replaceRange "é😀\r\nb" ⟨7, 7⟩ ⟨0, 2⟩ "x\n" .utf16 = "é😀x\n" := by decide
  have hrange : rangeOf "é😀\r\nb" ⟨7, 7⟩ ⟨0, 2⟩ .utf16 = (6, 9) := by decide
  have h : byteLength (replaceRange "é😀\r\nb" ⟨7, 7⟩ ⟨0, 2⟩ "x\n" .utf16).toList < 2 ^ 32 := by
    rw [hresult]
    decide
  obtain ⟨old, hold, hback⟩ := replaceRange_undo .utf16 "é😀\r\nb" ⟨7, 7⟩ ⟨0, 2⟩ "x\n" h
  rw [hrange] at hold hback
  rw [hresult] at hback
  exact ⟨h, hresult, hrange, old, hold, hback⟩

/-! ### Counting in words -/

namespace Words

/-- The sum of a word and a number, when it is a word. -/
def add? (a : UInt32) (n : Nat) : Option UInt32 :=
  if a.toNat + n < UInt32.size then some (a + UInt32.ofNat n) else none

/-- The difference of two numbers, when it is not below zero. -/
def sub? (a b : Nat) : Option Nat := if b ≤ a then some (a - b) else none

/-- The walk of `bytesToColumn`, where some units have been counted and an offset has been
    reached. -/
def bytesToColumn? (e : Encoding) (column : UInt32) : (units : UInt32) → (offset : Nat) → List Char → Option Nat
  | _, offset, [] => some offset
  | units, offset, c :: rest =>
    if column ≤ units then some offset
    else (add? units (e.units c)).bind fun units => bytesToColumn? e column units (offset + c.utf8Size) rest

/-- The walk of `widthBefore`, where some units have been counted. -/
def widthBefore? (e : Encoding) (stop : Nat) : (units : UInt32) → (pos : Nat) → List Char → Option UInt32
  | units, _, [] => some units
  | units, pos, c :: rest =>
    if pos < stop then
      (add? units (e.units c)).bind fun units => widthBefore? e stop units (pos + c.utf8Size) rest
    else some units

/-- The steps of `LineIndex.offset`. -/
def offset? (ix : LineIndex) (p : LineCol) (text : String) (e : Encoding) : Option (Except PositionError Nat) :=
  let cs := text.toList
  if cs.isEmpty then some (.ok 0)
  else if ix.lineCount < p.line.toNat then some (.error (.lineOutOfRange p.line ix.lineCount))
  else if p.line.toNat = ix.lineCount then some (.ok (byteLength cs))
  else ix.lineStarts[p.line.toNat]?.bind fun start =>
    match sliceBytes? start (ix.lineEnd p.line.toNat) cs with
    | none => some (.ok (byteLength cs))
    | some line => (bytesToColumn? e p.column 0 start line).map .ok

def offsetClamped? (ix : LineIndex) (p : LineCol) (text : String) (e : Encoding) : Option Nat :=
  (offset? ix p text e).map fun
    | .ok n => n
    | .error _ => byteLength text.toList

/-- The steps of `LineIndex.position`. -/
def position? (ix : LineIndex) (n : Nat) (text : String) (e : Encoding) : Option LineCol :=
  let cs := text.toList
  if cs.isEmpty ∨ n = 0 then some (LineCol.ofNat 0 0)
  else
    let stop := min n (byteLength cs)
    let line := ix.lineAt stop
    ix.lineStarts[line]?.bind fun start =>
      (widthBefore? e stop 0 start ((dropBytes? start cs).getD [])).map fun column =>
        ⟨UInt32.ofNat (min line (UInt32.size - 1)), column⟩

/-- The steps of `replaceRange`: the ends of the range are put in order, room is made for the
    new text, and what precedes the range and what follows is cut off. -/
def replaceRange? (text : String) (start stop : LineCol) (new : String) (e : Encoding) : Option String := do
  let ix := LineIndex.ofText text
  let cs := text.toList
  let a ← offsetClamped? ix start text e
  let b ← offsetClamped? ix stop text e
  let (first, last) := if a ≤ b then (a, b) else (b, a)
  let gone ← sub? last first
  let _room ← sub? (byteLength cs) gone
  let before ← takeBytes? first cs
  let after ← dropBytes? last cs
  return String.ofList (before ++ new.toList ++ after)

theorem add?_eq {a : UInt32} {n : Nat} (h : a.toNat + n < 2 ^ 32) :
    ∃ sum, add? a n = some sum ∧ sum.toNat = a.toNat + n := by
  refine ⟨_, if_pos h, ?_⟩
  have hn : (UInt32.ofNat n).toNat = n := UInt32.toNat_ofNat_of_lt' (Nat.lt_of_le_of_lt (Nat.le_add_left n _) h)
  rw [UInt32.toNat_add, hn, Nat.mod_eq_of_lt h]

theorem sub?_eq {a b : Nat} (h : b ≤ a) : sub? a b = some (a - b) := if_pos h

theorem inOrder_eq (a b : Nat) : (if a ≤ b then (a, b) else (b, a)) = (min a b, max a b) := by
  split
  · rename_i hle
    rw [Nat.min_eq_left hle, Nat.max_eq_right hle]
  · rename_i hgt
    rw [Nat.min_eq_right (Nat.le_of_not_le hgt), Nat.max_eq_left (Nat.le_of_not_le hgt)]

theorem byteLength_le_of_dropBytes? {n : Nat} {cs after : List Char} (h : dropBytes? n cs = some after) :
    byteLength after ≤ byteLength cs := by
  obtain ⟨before, rfl, -⟩ := dropBytes?_eq_some_iff.mp h
  rw [byteLength_append]
  exact Nat.le_add_left _ _

theorem byteLength_le_of_sliceBytes? {start stop : Nat} {cs line : List Char}
    (h : sliceBytes? start stop cs = some line) :
    byteLength line ≤ byteLength cs := by
  rw [sliceBytes?] at h
  split at h
  · obtain ⟨after, hafter, hline⟩ := Option.bind_eq_some_iff.mp h
    obtain ⟨-, rest, rfl⟩ := takeBytes?_eq_some_iff.mp hline
    exact Nat.le_trans (byteLength_mono (List.prefix_append line rest)) (byteLength_le_of_dropBytes? hafter)
  · cases h

section Walks

variable (e : Encoding) {cs : List Char}

/-- The units that a walk counts are no more than the octets it goes over. -/
theorem bytesToColumn?_eq (column units : UInt32) (offset : Nat) (h : units.toNat + byteLength cs < 2 ^ 32) :
    bytesToColumn? e column units offset cs = some (offset + bytesToColumn e (column.toNat - units.toNat) cs) := by
  induction cs generalizing units offset with
  | nil =>
    cases column.toNat - units.toNat with
    | zero => rfl
    | succ n => rfl
  | cons c rest ih =>
    rw [bytesToColumn?]
    by_cases hcolumn : column ≤ units
    · have hnone : column.toNat - units.toNat = 0 := Nat.sub_eq_zero_of_le hcolumn
      rw [if_pos hcolumn, hnone]
      rfl
    · have hunits := e.units_le_utf8Size c
      have hless : units.toNat < column.toNat := Nat.not_le.mp hcolumn
      rw [byteLength_cons] at h
      obtain ⟨sum, hsum, htoNat⟩ := add?_eq (a := units) (n := e.units c) (by omega)
      obtain ⟨k, hk⟩ : ∃ k, column.toNat - units.toNat = k + 1 := ⟨column.toNat - units.toNat - 1, by omega⟩
      rw [if_neg hcolumn, hsum, Option.bind_some, ih sum _ (by omega), hk, bytesToColumn, htoNat, Nat.add_assoc,
        show column.toNat - (units.toNat + e.units c) = k + 1 - e.units c by omega]

theorem widthBefore?_eq (stop : Nat) (units : UInt32) (pos : Nat) (h : units.toNat + byteLength cs < 2 ^ 32) :
    widthBefore? e stop units pos cs = some (UInt32.ofNat (units.toNat + widthBefore e stop pos cs)) := by
  induction cs generalizing units pos with
  | nil => rw [widthBefore?, widthBefore, Nat.add_zero, UInt32.ofNat_toNat]
  | cons c rest ih =>
    rw [widthBefore?, widthBefore]
    by_cases hpos : pos < stop
    · have hunits := e.units_le_utf8Size c
      rw [byteLength_cons] at h
      obtain ⟨sum, hsum, htoNat⟩ := add?_eq (a := units) (n := e.units c) (by omega)
      rw [if_pos hpos, if_pos hpos, hsum, Option.bind_some, ih sum _ (by omega), htoNat, Nat.add_assoc]
    · rw [if_neg hpos, if_neg hpos, Nat.add_zero, UInt32.ofNat_toNat]

end Walks

section Index

variable (e : Encoding) {text : String} (h : byteLength text.toList < 2 ^ 32) (ix : LineIndex)
include h

/-- **The way from a place to its offset** stays in words, for any index. -/
theorem offset?_eq (p : LineCol) : offset? ix p text e = some (ix.offset p text e) := by
  rw [offset?, LineIndex.offset]
  by_cases hempty : text.toList.isEmpty = true
  · simp only [if_pos hempty]
  by_cases hlt : ix.lineCount < p.line.toNat
  · simp only [if_neg hempty, if_pos hlt]
  by_cases heq : p.line.toNat = ix.lineCount
  · have hnone : ix.lineStarts[p.line.toNat]? = none := List.getElem?_eq_none (Nat.le_of_eq heq.symm)
    simp only [if_neg hempty, if_neg hlt, if_pos heq, hnone]
  · have hline : p.line.toNat < ix.lineStarts.length := by
      have hcount : ix.lineCount = ix.lineStarts.length := rfl
      omega
    simp only [if_neg hempty, if_neg hlt, if_neg heq, List.getElem?_eq_getElem hline, Option.bind_some]
    cases hslice : sliceBytes? ix.lineStarts[p.line.toNat] (ix.lineEnd p.line.toNat) text.toList with
    | none => rfl
    | some line =>
      have hshort : (0 : UInt32).toNat + byteLength line < 2 ^ 32 := by
        have hline := byteLength_le_of_sliceBytes? hslice
        rw [UInt32.toNat_zero, Nat.zero_add]
        omega
      simp only [bytesToColumn?_eq e p.column 0 _ hshort]
      rfl

theorem offsetClamped?_eq (p : LineCol) : offsetClamped? ix p text e = some (ix.offsetClamped p text e) := by
  rw [offsetClamped?, offset?_eq e h, LineIndex.offsetClamped]
  cases ix.offset p text e with
  | ok n => rfl
  | error err => rfl

/-- **The way from an offset to its place** stays in words, for any index that has a line. -/
theorem position?_eq (hlines : ix.lineStarts ≠ []) (n : Nat) : position? ix n text e = some (ix.position n text e) := by
  rw [position?, LineIndex.position]
  by_cases hstart : text.toList.isEmpty = true ∨ n = 0
  · simp only [if_pos hstart]
  · generalize hstop : min n (byteLength text.toList) = stop
    have hline : ix.lineAt stop < ix.lineStarts.length := by
      have hcount : ix.lineStarts.countP (· ≤ stop) ≤ ix.lineStarts.length := List.countP_le_length
      have hpos := List.length_pos_iff.mpr hlines
      rw [LineIndex.lineAt]
      omega
    have hshort : ∀ start, (0 : UInt32).toNat + byteLength ((dropBytes? start text.toList).getD []) < 2 ^ 32 := by
      intro start
      rw [UInt32.toNat_zero, Nat.zero_add]
      cases hdrop : dropBytes? start text.toList with
      | none =>
        rw [Option.getD_none, byteLength_nil]
        omega
      | some after =>
        have hafter := byteLength_le_of_dropBytes? hdrop
        rw [Option.getD_some]
        omega
    simp only [if_neg hstart, List.getElem?_eq_getElem hline, Option.bind_some,
      widthBefore?_eq e stop 0 _ (hshort _), Option.map_some, UInt32.toNat_zero, Nat.zero_add,
      List.getD_eq_getElem?_getD, Option.getD_some]
    rfl

end Index

/-- **An edit** neither counts beyond a word nor cuts inside a character. -/
theorem replaceRange?_eq (e : Encoding) {text : String} (h : byteLength text.toList < 2 ^ 32) (start stop : LineCol)
    (new : String) : replaceRange? text start stop new e = some (replaceRange text start stop new e) := by
  obtain ⟨before, old, after, hcut, hrange, hreplace⟩ := exists_range_of_places e text start stop
  rw [rangeOf, Prod.mk.injEq] at hrange
  obtain ⟨hmin, hmax⟩ := hrange
  rw [hreplace]
  simp only [replaceRange?, offsetClamped?_eq e h, Option.bind_eq_bind, Option.bind_some]
  have hgone : byteLength before ≤ byteLength (before ++ old) := byteLength_mono (List.prefix_append before old)
  have hroom : byteLength (before ++ old) - byteLength before ≤ byteLength text.toList := by
    rw [hcut, byteLength_append (before ++ old)]
    omega
  have htake : takeBytes? (byteLength before) text.toList = some before := by
    rw [hcut, List.append_assoc]
    exact takeBytes?_byteLength_append before (old ++ after)
  have hdrop : dropBytes? (byteLength (before ++ old)) text.toList = some after := by
    rw [hcut]
    exact dropBytes?_byteLength_append (before ++ old) after
  simp only [inOrder_eq, hmin, hmax, sub?_eq hgone, sub?_eq hroom, htake, hdrop, Option.bind_some]
  rfl

end Words

/-- **All places are safe to edit at.**  In a text that is not longer than the greatest word,
    places lead to boundaries of the text, in the order that they have themselves; the walks
    from a place to its offset and back never count beyond a word; and an edit between any two
    places neither takes more from the text than there is nor cuts it inside a character. -/
theorem replaceRange_safe (e : Encoding) {text : String} (h : byteLength text.toList ≤ 2 ^ 32 - 1) :
    let ix := LineIndex.ofText text
    (∀ p q, (compare p q).isLE = true → ix.offsetClamped p text e ≤ ix.offsetClamped q text e)
    ∧ (∀ p, ix.offsetClamped p text e ≤ byteLength text.toList ∧ IsBoundary (ix.offsetClamped p text e) text.toList)
    ∧ (∀ p, Words.offset? ix p text e = some (ix.offset p text e))
    ∧ (∀ n, Words.position? ix n text e = some (ix.position n text e))
    ∧ ∀ start stop new, Words.replaceRange? text start stop new e = some (replaceRange text start stop new e) := by
  intro ix
  have hshort : byteLength text.toList < 2 ^ 32 := by omega
  refine ⟨fun p q => offsetClamped_mono e text, fun p => ?_, Words.offset?_eq e hshort ix,
    Words.position?_eq e hshort ix (List.cons_ne_nil _ _), Words.replaceRange?_eq e hshort⟩
  have hboundary := isBoundary_offsetClamped e text p
  exact ⟨hboundary.le_byteLength, hboundary⟩

/-- The greatest column leads no further than the line, whose last character is a pair of words,
    and an edit from there back into another line keeps both characters whole. -/
theorem replaceRange_safe_behind_pair :
    byteLength "é\na😀".toList ≤ 2 ^ 32 - 1
    ∧ (LineIndex.ofText "é\na😀").offsetClamped ⟨0, 9⟩ "é\na😀" .utf16
      ≤ (LineIndex.ofText "é\na😀").offsetClamped ⟨1, 4294967295⟩ "é\na😀" .utf16
    ∧ Words.offset? (LineIndex.ofText "é\na😀") ⟨1, 4294967295⟩ "é\na😀" .utf16 = some (.ok 8)
    ∧ Words.replaceRange? "é\na😀" ⟨1, 2⟩ ⟨0, 9⟩ "-" .utf16 = some "é-" := by
  have h : byteLength "é\na😀".toList ≤ 2 ^ 32 - 1 := by decide
  have hoffset : (LineIndex.ofText "é\na😀").offset ⟨1, 4294967295⟩ "é\na😀" .utf16 = .ok 8 := by
    have hcut : Line "é\na😀".toList ['é', '\n'] ['a', '😀'] [] := ⟨by decide, .feed ['é'], by decide, .inl rfl⟩
    rw [offset_of_line hcut (by decide), reach_eq_self .utf16 (by decide)]
    decide
  have hedit : replaceRange "é\na😀" ⟨1, 2⟩ ⟨0, 9⟩ "-" .utf16 = "é-" := by decide
  obtain ⟨hmono, -, hwalk, -, hsafe⟩ := replaceRange_safe .utf16 h
  refine ⟨h, hmono _ _ (by decide), ?_, ?_⟩
  · rw [hwalk, hoffset]
  · rw [hsafe, hedit]

end LiveWorkspace.Text
