/-
  LiveWorkspace/Proofs/Uri/Derivation.lean
  ========================================
  **Which absolute paths have a URI.**

  An octet that needs no escape is written as a character that the path of a URI may hold,
  with one exception: the backslash is neither escaped nor derived (`allOrEscaped_escapeByte`).
  So an absolute path has a URI if and only if there is no backslash in its spelling
  (`Path.toUri?_eq_none_iff`).
-/
import LiveWorkspace.Proofs.Uri

namespace LiveWorkspace

/-! ### The octets of a character -/

/-- An ASCII character is encoded as its number, and no other character has that octet. -/
theorem Text.Utf8.mem_utf8EncodeChar_iff {b : UInt8} (hb : b.toNat < 0x80) (c : Char) :
    b ∈ String.utf8EncodeChar c ↔ c.toNat = b.toNat := by
  have hranges := toNat_ranges c
  unfold String.utf8EncodeChar
  rw [show c.val.toNat = c.toNat from rfl]
  generalize c.toNat = v at hranges
  have htoNat : ∀ n, n < 256 → (UInt8.ofNat n).toNat = n := fun n hn => UInt8.toNat_ofNat_of_lt hn
  -- Each octet of a longer character is at least 0x80.
  have hne : ∀ n, 0x80 ≤ n → n < 256 → b ≠ UInt8.ofNat n := by
    intro n hlow hhigh heq
    rw [heq, htoNat n hhigh] at hb
    omega
  dsimp only
  split
  · rw [List.mem_singleton, ← UInt8.toNat_inj, htoNat v (by omega)]
    exact eq_comm
  · have hv : v ≠ b.toNat := by omega
    split
    · simp only [List.mem_cons, List.not_mem_nil, or_false, hv, iff_false, not_or]
      exact ⟨hne _ (by omega) (by omega), hne _ (by omega) (by omega)⟩
    · split
      · simp only [List.mem_cons, List.not_mem_nil, or_false, hv, iff_false, not_or]
        exact ⟨hne _ (by omega) (by omega), hne _ (by omega) (by omega), hne _ (by omega) (by omega)⟩
      · simp only [List.mem_cons, List.not_mem_nil, or_false, hv, iff_false, not_or]
        exact ⟨hne _ (by omega) (by omega), hne _ (by omega) (by omega), hne _ (by omega) (by omega),
          hne _ (by omega) (by omega)⟩

namespace Uri

/-! ### What is written for an octet -/

/-- What holds of the first 256 numbers holds of all octets. -/
theorem forall_octet {P : UInt8 → Prop} (h : ∀ k : Fin 256, P (UInt8.ofNat k.val)) (b : UInt8) : P b := by
  have hb := h ⟨b.toNat, b.toNat_lt⟩
  rwa [UInt8.ofNat_toNat] at hb

/-- An octet is written without a delimiter of the parts behind the path. -/
theorem not_mem_escapeByte (b : UInt8) : '#' ∉ escapeByte b ∧ '?' ∉ escapeByte b :=
  forall_octet (P := fun b => '#' ∉ escapeByte b ∧ '?' ∉ escapeByte b) (by decide +kernel) b

/-- An octet that is escaped is written in hexadecimal digits. -/
theorem isHex_escape (b : UInt8) :
    Text.isHex (Text.hexDigit (b.toNat / 16)) = true ∧ Text.isHex (Text.hexDigit (b.toNat % 16)) = true :=
  forall_octet (P := fun b => Text.isHex (Text.hexDigit (b.toNat / 16)) = true
    ∧ Text.isHex (Text.hexDigit (b.toNat % 16)) = true) (by decide +kernel) b

/-- The backslash alone is neither escaped nor a character of paths. -/
theorem isPathChar_of_not_needsEscape :
    ∀ b : UInt8, needsEscape b = false → (isPathChar (Char.ofNat b.toNat) = !(b == 0x5C)) :=
  forall_octet (by decide +kernel)

/-- An octet is derived as part of a path, unless it is a backslash. -/
theorem allOrEscaped_escapeByte (b : UInt8) (rest : List Char) :
    allOrEscaped isPathChar (escapeByte b ++ rest) = (!(b == 0x5C) && allOrEscaped isPathChar rest) := by
  cases hneeds : needsEscape b with
  | false =>
    obtain ⟨hplain, -⟩ := char_of_not_needsEscape hneeds
    have hchar := isPathChar_of_not_needsEscape b hneeds
    rw [escapeByte, hneeds, if_neg Bool.false_ne_true, List.singleton_append]
    rw [allOrEscaped, hchar, bne_iff_ne.mpr hplain, Bool.true_and]
    intro a b' rest' heq
    exact absurd heq hplain
  | true =>
    obtain ⟨hhigh, hlow⟩ := isHex_escape b
    have hother : (b == 0x5C) = false := by
      refine beq_eq_false_iff_ne.mpr fun heq => ?_
      rw [heq] at hneeds
      exact absurd hneeds (by decide)
    rw [escapeByte, hneeds, if_pos rfl]
    simp only [List.cons_append, List.nil_append, allOrEscaped, hhigh, hlow, hother, Bool.not_false,
      Bool.true_and]

/-- Octets are derived as a path if and only if there is no backslash among them. -/
theorem allOrEscaped_escape (bs : Text.Bytes) :
    allOrEscaped isPathChar (bs.flatMap escapeByte) = true ↔ 0x5C ∉ bs := by
  induction bs with
  | nil => simp [allOrEscaped]
  | cons b rest ih =>
    rw [List.flatMap_cons, allOrEscaped_escapeByte, Bool.and_eq_true, ih, List.mem_cons, not_or,
      Bool.not_eq_true', beq_eq_false_iff_ne, ne_comm]

/-! ### Cutting a text apart -/

theorem cutAt_of_not_mem {sep : Char} {cs : List Char} (h : sep ∉ cs) : cutAt sep cs = (cs, none) := by
  have hall : ∀ c ∈ cs, decide (c ≠ sep) = true := fun c hc => decide_eq_true fun heq => h (heq ▸ hc)
  have htake : (cs ++ []).takeWhile (· ≠ sep) = cs ++ [].takeWhile (· ≠ sep) := List.takeWhile_append_of_pos hall
  have hdrop : (cs ++ []).dropWhile (· ≠ sep) = [].dropWhile (· ≠ sep) := List.dropWhile_append_of_pos hall
  rw [List.append_nil, List.takeWhile_nil, List.append_nil] at htake
  rw [List.append_nil, List.dropWhile_nil] at hdrop
  rw [cutAt, htake, hdrop]

theorem cutAt_append {sep : Char} {cs : List Char} (h : sep ∉ cs) (rest : List Char) :
    cutAt sep (cs ++ sep :: rest) = (cs, some rest) := by
  have hall : ∀ c ∈ cs, decide (c ≠ sep) = true := fun c hc => decide_eq_true fun heq => h (heq ▸ hc)
  rw [cutAt, List.takeWhile_append_of_pos hall, List.dropWhile_append_of_pos hall]
  simp

/-! ### The text of an absolute path -/

/-- What is written behind the scheme and two slashes is derived as an empty authority and a
    path, when it begins with a slash. -/
theorem derives_filePrefix {cs : List Char} (hplain : '#' ∉ cs ∧ '?' ∉ cs) (hslash : cs.head? = some '/') :
    derives (String.ofList (filePrefix ++ cs)) = allOrEscaped isPathChar cs := by
  have hcuts : ∀ sep, sep ∉ filePrefix → sep ∉ cs →
      cutAt sep (filePrefix ++ cs) = (filePrefix ++ cs, none) := by
    intro sep hprefix hsep
    exact cutAt_of_not_mem fun hmem => (List.mem_append.mp hmem).elim hprefix hsep
  have hscheme : cutAt ':' (filePrefix ++ cs) = ("file".toList, some ('/' :: '/' :: cs)) :=
    cutAt_append (by decide : ':' ∉ "file".toList) ('/' :: '/' :: cs)
  have hauthority : cs.takeWhile (· ≠ '/') = [] ∧ cs.dropWhile (· ≠ '/') = cs := by
    cases cs with
    | nil => cases hslash
    | cons c rest =>
      rw [List.head?_cons, Option.some.injEq] at hslash
      simp [hslash]
  rw [derives, String.toList_ofList, hcuts '#' (by decide) hplain.1]
  dsimp only
  rw [hcuts '?' (by decide) hplain.2]
  dsimp only
  rw [hscheme]
  dsimp only
  rw [isHierPart, hauthority.1, hauthority.2, show isScheme "file".toList = true by decide,
    show isAuthority [] = true by decide]
  simp only [Bool.true_and, Bool.and_true]

end Uri

namespace Path

/-- **An absolute path has a URI if and only if there is no backslash in it.** -/
theorem toUri?_eq_none_iff {p : Path} (h : p.isAbsolute = true) : p.toUri? = none ↔ '\\' ∈ p.spelling.toList := by
  have hplain : ∀ bs : Text.Bytes, '#' ∉ bs.flatMap Uri.escapeByte ∧ '?' ∉ bs.flatMap Uri.escapeByte := by
    intro bs
    simp only [List.mem_flatMap, not_exists, not_and]
    exact ⟨fun b _ => (Uri.not_mem_escapeByte b).1, fun b _ => (Uri.not_mem_escapeByte b).2⟩
  have hslash : ((Text.Utf8.encode p.spelling).flatMap Uri.escapeByte).head? = some '/' := by
    rw [isAbsolute, beq_iff_eq] at h
    rw [Text.Utf8.encode]
    cases hcs : p.spelling.toList with
    | nil => rw [hcs] at h; cases h
    | cons c rest =>
      rw [hcs, List.head?_cons, Option.some.injEq] at h
      rw [h, List.flatMap_cons, show String.utf8EncodeChar '/' = [0x2F] by decide, List.singleton_append,
        List.flatMap_cons, show Uri.escapeByte 0x2F = ['/'] by decide]
      rfl
  have hbackslash : 0x5C ∈ Text.Utf8.encode p.spelling ↔ '\\' ∈ p.spelling.toList := by
    have hchar : ∀ c : Char, c.toNat = (0x5C : UInt8).toNat ↔ c = '\\' := fun c => Char.toNat_inj (c := c) (d := '\\')
    simp only [Text.Utf8.encode, List.mem_flatMap,
      Text.Utf8.mem_utf8EncodeChar_iff (b := 0x5C) (by decide), hchar, exists_eq_right]
  rw [toUri?, Uri.parse?, ← hbackslash]
  have hderives := Uri.derives_filePrefix (hplain (Text.Utf8.encode p.spelling)) hslash
  split
  · rename_i hderived
    rw [hderives, Uri.allOrEscaped_escape] at hderived
    simp [hderived]
  · rename_i hderived
    rw [hderives, Uri.allOrEscaped_escape, Classical.not_not] at hderived
    simp [hderived]

end Path

end LiveWorkspace
