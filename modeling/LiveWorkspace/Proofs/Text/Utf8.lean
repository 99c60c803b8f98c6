/-
  LiveWorkspace/Proofs/Text/Utf8.lean
  ===================================
  **What was encoded is decoded.**

  The decoder reads the octets of one character and is then between two characters
  again (`scan_encoded`); so the octets of a text give back its characters.
-/
import LiveWorkspace.Text.Utf8

namespace LiveWorkspace.Text.Utf8

/-- The numbers of characters leave out the surrogates. -/
theorem toNat_ranges (c : Char) : c.toNat < 0xD800 ∨ (0xDFFF < c.toNat ∧ c.toNat < 0x110000) := by
  rcases c.valid with h | h
  · exact .inl h
  · exact .inr h

/-- A first octet, by its number. -/
theorem lead_ofNat {n : Nat} (h : n < 256) :
    lead (UInt8.ofNat n) =
      if n < 0x80 then .whole (Char.ofNat n)
      else if n < 0xC2 then .stray
      else if n < 0xE0 then .begins ⟨1, 0x80, 0xBF, n - 0xC0⟩
      else if n = 0xE0 then .begins ⟨2, 0xA0, 0xBF, 0⟩
      else if n = 0xED then .begins ⟨2, 0x80, 0x9F, n - 0xE0⟩
      else if n < 0xF0 then .begins ⟨2, 0x80, 0xBF, n - 0xE0⟩
      else if n = 0xF0 then .begins ⟨3, 0x90, 0xBF, 0⟩
      else if n < 0xF4 then .begins ⟨3, 0x80, 0xBF, n - 0xF0⟩
      else if n = 0xF4 then .begins ⟨3, 0x80, 0x8F, n - 0xF0⟩
      else .stray := by
  have hn : (UInt8.ofNat n).toNat = n := UInt8.toNat_ofNat_of_lt h
  simp only [lead, UInt8.lt_iff_toNat_lt, ← UInt8.toNat_inj, hn]
  rfl

section Scan

variable {low high : UInt8} {code n : Nat}

/-- An octet that fits ends a character that needs no more. -/
theorem scan_last (hlow : low.toNat ≤ n) (hhigh : n ≤ high.toNat) (rest : Bytes) :
    scan (some ⟨1, low, high, code⟩) (UInt8.ofNat n :: rest)
      = some (Char.ofNat (code * 64 + (n - 0x80))) :: scan none rest := by
  have hn : (UInt8.ofNat n).toNat = n := UInt8.toNat_ofNat_of_lt (Nat.lt_of_le_of_lt hhigh high.toNat_lt)
  rw [scan, if_pos]
  · simp only [hn, Nat.le_refl, if_true]
  · simp only [UInt8.le_iff_toNat_le, hn]
    exact ⟨hlow, hhigh⟩

/-- An octet that fits goes on with a character that needs more. -/
theorem scan_more {owed : Nat} (hlow : low.toNat ≤ n) (hhigh : n ≤ high.toNat) (rest : Bytes) :
    scan (some ⟨owed + 2, low, high, code⟩) (UInt8.ofNat n :: rest)
      = scan (some ⟨owed + 1, 0x80, 0xBF, code * 64 + (n - 0x80)⟩) rest := by
  have hn : (UInt8.ofNat n).toNat = n := UInt8.toNat_ofNat_of_lt (Nat.lt_of_le_of_lt hhigh high.toNat_lt)
  rw [scan, if_pos]
  · rw [if_neg (by simp only; omega), hn]
    rfl
  · simp only [UInt8.le_iff_toNat_le, hn]
    exact ⟨hlow, hhigh⟩

theorem scan_begins {p : Pending} (h : lead (UInt8.ofNat n) = .begins p) (rest : Bytes) :
    scan none (UInt8.ofNat n :: rest) = scan (some p) rest := by
  simp only [scan, start, h]

end Scan

/-! ### The characters of each length -/

section Lengths

variable {v : Nat}

theorem lead_two (hlow : 0x7F < v) (hhigh : v ≤ 0x7FF) :
    lead (UInt8.ofNat (v / 64 % 32 + 0xC0)) = .begins ⟨1, 0x80, 0xBF, v / 64⟩ := by
  rw [lead_ofNat (by omega), if_neg (by omega), if_neg (by omega), if_pos (by omega)]
  rw [show v / 64 % 32 + 0xC0 - 0xC0 = v / 64 by omega]

/-- The range of a second octet holds that of the character. -/
theorem lead_three (hlow : 0x7FF < v) (hhigh : v ≤ 0xFFFF) (h : v < 0xD800 ∨ 0xDFFF < v) :
    ∃ low high, lead (UInt8.ofNat (v / 4096 % 16 + 0xE0)) = .begins ⟨2, low, high, v / 4096⟩
      ∧ low.toNat ≤ v / 64 % 64 + 0x80 ∧ v / 64 % 64 + 0x80 ≤ high.toNat := by
  rw [lead_ofNat (by omega), if_neg (by omega), if_neg (by omega), if_neg (by omega)]
  by_cases hE0 : v / 4096 % 16 + 0xE0 = 0xE0
  · refine ⟨0xA0, 0xBF, ?_, ?_⟩
    · rw [if_pos hE0, show v / 4096 = 0 by omega]
    · simp only [UInt8.reduceToNat]
      omega
  by_cases hED : v / 4096 % 16 + 0xE0 = 0xED
  · refine ⟨0x80, 0x9F, ?_, ?_⟩
    · rw [if_neg hE0, if_pos hED, show v / 4096 % 16 + 0xE0 - 0xE0 = v / 4096 by omega]
    · simp only [UInt8.reduceToNat]
      omega
  refine ⟨0x80, 0xBF, ?_, ?_⟩
  · rw [if_neg hE0, if_neg hED, if_pos (by omega), show v / 4096 % 16 + 0xE0 - 0xE0 = v / 4096 by omega]
  · simp only [UInt8.reduceToNat]
    omega

theorem lead_four (hlow : 0xFFFF < v) (hhigh : v < 0x110000) :
    ∃ low high, lead (UInt8.ofNat (v / 262144 % 8 + 0xF0)) = .begins ⟨3, low, high, v / 262144⟩
      ∧ low.toNat ≤ v / 4096 % 64 + 0x80 ∧ v / 4096 % 64 + 0x80 ≤ high.toNat := by
  rw [lead_ofNat (by omega), if_neg (by omega), if_neg (by omega), if_neg (by omega), if_neg (by omega),
    if_neg (by omega), if_neg (by omega)]
  by_cases hF0 : v / 262144 % 8 + 0xF0 = 0xF0
  · refine ⟨0x90, 0xBF, ?_, ?_⟩
    · rw [if_pos hF0, show v / 262144 = 0 by omega]
    · simp only [UInt8.reduceToNat]
      omega
  by_cases hF4 : v / 262144 % 8 + 0xF0 < 0xF4
  · refine ⟨0x80, 0xBF, ?_, ?_⟩
    · rw [if_neg hF0, if_pos hF4, show v / 262144 % 8 + 0xF0 - 0xF0 = v / 262144 by omega]
    · simp only [UInt8.reduceToNat]
      omega
  refine ⟨0x80, 0x8F, ?_, ?_⟩
  · rw [if_neg hF0, if_neg hF4, if_pos (by omega),
      show v / 262144 % 8 + 0xF0 - 0xF0 = v / 262144 by omega]
  · simp only [UInt8.reduceToNat]
    omega

end Lengths

/-- The octets of a character are read as that character. -/
theorem scan_encoded (c : Char) (rest : Bytes) :
    scan none (String.utf8EncodeChar c ++ rest) = some c :: scan none rest := by
  have hchar : Char.ofNat c.toNat = c := Char.ofNat_toNat c
  have hranges := toNat_ranges c
  have hlow : ∀ n, (0x80 : UInt8).toNat ≤ n % 64 + 0x80 := fun n => Nat.le_add_left _ _
  have hhigh : ∀ n, n % 64 + 0x80 ≤ (0xBF : UInt8).toNat := by
    intro n
    simp only [UInt8.reduceToNat]
    omega
  unfold String.utf8EncodeChar
  rw [show c.val.toNat = c.toNat from rfl]
  generalize c.toNat = v at hchar hranges
  dsimp only
  split
  · rw [List.cons_append, List.nil_append, scan, start, lead_ofNat (by omega), if_pos (by omega), hchar]
  · split
    · simp only [List.cons_append, List.nil_append]
      rw [scan_begins (lead_two (by omega) ‹_›), scan_last (hlow v) (hhigh v)]
      rw [show v / 64 * 64 + (v % 64 + 128 - 128) = v by omega, hchar]
    · split
      · obtain ⟨low, high, hlead, hsecond⟩ := lead_three (v := v) (by omega) ‹_› (by omega)
        simp only [List.cons_append, List.nil_append]
        rw [scan_begins hlead, scan_more hsecond.1 hsecond.2, scan_last (hlow v) (hhigh v)]
        rw [show (v / 4096 * 64 + (v / 64 % 64 + 128 - 128)) * 64 + (v % 64 + 128 - 128) = v by omega,
          hchar]
      · obtain ⟨low, high, hlead, hsecond⟩ := lead_four (v := v) (by omega) (by omega)
        simp only [List.cons_append, List.nil_append]
        rw [scan_begins hlead, scan_more hsecond.1 hsecond.2, scan_more (hlow _) (hhigh _),
          scan_last (hlow v) (hhigh v)]
        rw [show ((v / 262144 * 64 + (v / 4096 % 64 + 128 - 128)) * 64 + (v / 64 % 64 + 128 - 128)) * 64
          + (v % 64 + 128 - 128) = v by omega, hchar]

theorem scan_encode (cs : List Char) :
    scan none (cs.flatMap String.utf8EncodeChar) = cs.map some := by
  induction cs with
  | nil => rfl
  | cons c rest ih => rw [List.flatMap_cons, scan_encoded, ih, List.map_cons]

/-- **What was encoded is decoded.** -/
theorem decodeLossy_encode (text : String) : decodeLossy (encode text) = text := by
  rw [decodeLossy, encode, scan_encode, List.map_map]
  have hid : ((fun c : Option Char => c.getD '\uFFFD') ∘ some) = id := rfl
  rw [hid, List.map_id, String.ofList_toList]

end LiveWorkspace.Text.Utf8
