/-
  LiveWorkspace/Proofs/Uri.lean
  =============================
  **The URI of a path names that path.**

  An escape is two hexadecimal digits that `unescape` puts together again, and what is
  written without one is a single ASCII character; so the octets of a path come back, and
  with them its text (`Path.toPath?_of_toUri?`).
-/
import LiveWorkspace.Proofs.Text.Utf8
import LiveWorkspace.Uri

namespace LiveWorkspace

/-- What was encoded is decoded, and nothing in it is refused. -/
theorem Text.Utf8.decode?_encode (text : String) : decode? (encode text) = some text := by
  have hall : ∀ cs : List Char, (cs.map some).mapM id = some cs := by
    intro cs
    induction cs with
    | nil => rfl
    | cons c rest ih => simp [ih]
  rw [decode?, encode, scan_encode, hall]
  simp

/-- A digit is read as the value that it was written for. -/
theorem Text.hexValue?_hexDigit {n : Nat} (h : n < 16) : hexValue? (hexDigit n) = some n := by
  have hall : ∀ k : Fin 16, hexValue? (hexDigit k) = some k.val := by decide
  exact hall ⟨n, h⟩

namespace Uri

variable {b : UInt8}

/-- An octet that needs no escape is written as an ASCII character, and not as a percent sign. -/
theorem char_of_not_needsEscape (h : needsEscape b = false) :
    Char.ofNat b.toNat ≠ '%' ∧ String.utf8EncodeChar (Char.ofNat b.toNat) = [b] := by
  simp only [needsEscape, Bool.or_eq_false_iff, decide_eq_false_iff_not] at h
  obtain ⟨⟨-, hascii⟩, hdelim⟩ := h
  simp only [UInt8.le_iff_toNat_le, UInt8.reduceToNat, Nat.not_le] at hascii
  have hvalid : b.toNat.isValidChar := .inl (by omega)
  have hval : (Char.ofNat b.toNat).val.toNat = b.toNat := by
    rw [Char.ofNat, dif_pos hvalid]
    rfl
  constructor
  · intro heq
    simp [heq, escapedDelims] at hdelim
  · simp only [String.utf8EncodeChar, hval]
    rw [if_pos (by omega)]
    simp

theorem unescape_plain {c : Char} (h : c ≠ '%') (rest : List Char) :
    unescape (c :: rest) = String.utf8EncodeChar c ++ unescape rest := by
  rw [unescape]
  rintro a b rest' rfl
  exact absurd rfl h

/-- An octet is read as it was written. -/
theorem unescape_escapeByte (b : UInt8) (rest : List Char) : unescape (escapeByte b ++ rest) = b :: unescape rest := by
  cases hneeds : needsEscape b with
  | false =>
    obtain ⟨hplain, hencode⟩ := char_of_not_needsEscape hneeds
    simp [escapeByte, hneeds, unescape_plain hplain, hencode]
  | true =>
    have hhigh := Text.hexValue?_hexDigit (n := b.toNat / 16) (by have := b.toNat_lt; omega)
    have hlow := Text.hexValue?_hexDigit (n := b.toNat % 16) (by omega)
    have hsum : 16 * (b.toNat / 16) + b.toNat % 16 = b.toNat := Nat.div_add_mod _ _
    simp [escapeByte, hneeds, unescape, hhigh, hlow, hsum]

/-- Octets are read as they were written. -/
theorem unescape_escape (bs : Text.Bytes) : unescape (bs.flatMap escapeByte) = bs := by
  induction bs with
  | nil => rfl
  | cons b rest ih => rw [List.flatMap_cons, unescape_escapeByte, ih]

end Uri

/-- **The URI of a path names that path.** -/
theorem Path.toPath?_of_toUri? {p : Path} {u : Uri} (h : p.toUri? = some u) : u.toPath? = some p := by
  have htext := Uri.text_of_parse? h
  rw [Uri.toPath?, htext, String.toList_ofList]
  simp [List.isPrefixOf_iff_prefix, Uri.unescape_escape, Text.Utf8.decode?_encode]

end LiveWorkspace
