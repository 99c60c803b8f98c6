/-
  LiveWorkspace/Proofs/Uri/Spellings.lean
  =======================================
  **All spellings of a path behind the scheme and two slashes name the path.**

  A URI may write any octet of a path as an escape, in capital or small digits, and has to
  for those that it cannot hold otherwise (`Uri.Spelled`).  An escape and a character are both
  read as the one octet that they stand for, whatever was done about their neighbours, also
  inside a character of several octets; so every spelling is read as the same octets
  (`Uri.unescape_of_spelled`), and all of them address one document (`Uri.named_by_spellings`).

  Nothing is cut off behind the slashes.  A URI that names its host there names a path
  that begins with the host (`Uri.host_in_path`).
-/
import LiveWorkspace.Proofs.Checking
import LiveWorkspace.Proofs.Uri.Derivation

namespace LiveWorkspace

/-! ### Digits in either case -/

/-- A hexadecimal digit of a value, in capital or small letters. -/
def Text.IsDigitOf (n : Nat) (c : Char) : Prop := c = hexDigit n ∨ c = (hexDigit n).toLower

/-- A digit is read as its value in either case. -/
theorem Text.IsDigitOf.hexValue? {n : Nat} {c : Char} (h : IsDigitOf n c) (hn : n < 16) : Text.hexValue? c = some n := by
  have hsmall : ∀ k : Fin 16, Text.hexValue? (hexDigit k).toLower = some k.val := by decide
  rcases h with rfl | rfl
  · exact hexValue?_hexDigit hn
  · exact hsmall ⟨n, hn⟩

namespace Uri

variable {u u' : Uri} {p q : Path} {cs ds : List Char} {bs bs' : Text.Bytes}

/-! ### Spellings -/

/-- Octets as a URI may write them: each as the ASCII character that it is, unless that is the
    percent sign, or as an escape in digits of either case. -/
inductive Spelled : List Char → Text.Bytes → Prop
  | nil : Spelled [] []
  | plain {c : Char} {cs : List Char} {bs : Text.Bytes} (hascii : c.toNat < 0x80) (hplain : c ≠ '%')
      (rest : Spelled cs bs) : Spelled (c :: cs) (UInt8.ofNat c.toNat :: bs)
  | escape (b : UInt8) {high low : Char} {cs : List Char} {bs : Text.Bytes} (hhigh : Text.IsDigitOf (b.toNat / 16) high)
      (hlow : Text.IsDigitOf (b.toNat % 16) low) (rest : Spelled cs bs) : Spelled ('%' :: high :: low :: cs) (b :: bs)

/-- An ASCII character is encoded as one octet. -/
theorem utf8EncodeChar_ascii {c : Char} (h : c.toNat < 0x80) : String.utf8EncodeChar c = [UInt8.ofNat c.toNat] := by
  unfold String.utf8EncodeChar
  rw [show c.val.toNat = c.toNat from rfl]
  dsimp only
  rw [if_pos (by omega)]

/-- **Every spelling of octets is read as these octets.** -/
theorem unescape_of_spelled (h : Spelled cs bs) : unescape cs = bs := by
  induction h with
  | nil => rfl
  | plain hascii hplain _ ih => rw [unescape_plain hplain, utf8EncodeChar_ascii hascii, ih, List.singleton_append]
  | escape b hhigh hlow _ ih =>
    have hhigh := hhigh.hexValue? (by have := b.toNat_lt; omega)
    have hlow := hlow.hexValue? (by omega)
    have hsum : 16 * (b.toNat / 16) + b.toNat % 16 = b.toNat := Nat.div_add_mod _ _
    simp only [unescape, hhigh, hlow, hsum, UInt8.ofNat_toNat, ih]

theorem Spelled.append (h : Spelled cs bs) (h' : Spelled ds bs') : Spelled (cs ++ ds) (bs ++ bs') := by
  induction h with
  | nil => exact h'
  | plain hascii hplain _ ih => exact .plain hascii hplain ih
  | escape b hhigh hlow _ ih => exact .escape b hhigh hlow ih

/-- A text of ASCII characters without a percent sign spells itself. -/
theorem spelled_self {text : String} (h : ∀ c ∈ text.toList, c.toNat < 0x80 ∧ c ≠ '%') :
    Spelled text.toList (Text.Utf8.encode text) := by
  rw [Text.Utf8.encode]
  generalize text.toList = cs at h
  induction cs with
  | nil => exact .nil
  | cons c rest ih =>
    obtain ⟨hascii, hplain⟩ := h c List.mem_cons_self
    rw [List.flatMap_cons, utf8EncodeChar_ascii hascii]
    exact .plain hascii hplain (ih fun d hd => h d (List.mem_cons_of_mem _ hd))

/-! ### What a URI names -/

/-- A URI names the path whose octets are spelled behind its scheme and two slashes. -/
theorem toPath?_of_spelled (htext : u.text.toList = filePrefix ++ cs) (h : Spelled cs (Text.Utf8.encode p.spelling)) :
    u.toPath? = some p := by
  have hpre : filePrefix.isPrefixOf (filePrefix ++ cs) = true := List.isPrefixOf_iff_prefix.mpr (List.prefix_append _ _)
  rw [toPath?, htext, if_pos hpre, List.drop_left, unescape_of_spelled h, Text.Utf8.decode?_encode, Option.map_some]

/-- A host behind the two slashes is taken for the beginning of the path. -/
theorem host_in_path {host : String} (hhost : ∀ c ∈ host.toList, c.toNat < 0x80 ∧ c ≠ '%')
    (htext : u.text.toList = filePrefix ++ (host.toList ++ cs)) (h : Spelled cs (Text.Utf8.encode p.spelling)) :
    u.toPath? = some ⟨host ++ p.spelling⟩ := by
  apply toPath?_of_spelled htext
  have hencode : Text.Utf8.encode (host ++ p.spelling) = Text.Utf8.encode host ++ Text.Utf8.encode p.spelling := by
    simp only [Text.Utf8.encode, String.toList_append, List.flatMap_append]
  rw [hencode]
  exact (spelled_self hhost).append h

/-- What begins with the octet of a slash is the text of an absolute path. -/
theorem isAbsolute_of_decode? {text : String} (h : Text.Utf8.decode? (0x2F :: bs) = some text) :
    (Path.mk text).isAbsolute = true := by
  have hscan : Text.Utf8.scan none (0x2F :: bs) = some '/' :: Text.Utf8.scan none bs :=
    Text.Utf8.scan_encoded '/' bs
  rw [Text.Utf8.decode?, hscan, List.mapM_cons] at h
  cases hrest : (Text.Utf8.scan none bs).mapM id with
  | none => simp [hrest] at h
  | some rest =>
    simp only [hrest, id, Option.pure_def, Option.bind_eq_bind, Option.bind_some, Option.map_some,
      Option.some.injEq] at h
    rw [← h, Path.isAbsolute, String.toList_ofList]
    rfl

/-- Behind three slashes only absolute paths are named. -/
theorem isAbsolute_of_toPath? (htext : u.text.toList = filePrefix ++ '/' :: cs) (h : u.toPath? = some q) :
    q.isAbsolute = true := by
  have hpre : filePrefix.isPrefixOf (filePrefix ++ '/' :: cs) = true :=
    List.isPrefixOf_iff_prefix.mpr (List.prefix_append _ _)
  rw [toPath?, htext, if_pos hpre, List.drop_left, unescape_plain (by decide)] at h
  obtain ⟨text, htext, rfl⟩ := Option.map_eq_some_iff.mp h
  exact isAbsolute_of_decode? htext

end Uri

/-! ### Documents by their URIs -/

/-- A URI of a path that has a document finds it, and changes nothing. -/
theorem Shared.openUri_of_contains {s : Shared} {u : Uri} {p : Path} (hu : u.toPath? = some p)
    (hin : s.store.contains p = true) (root : Path) (byEditor : Bool) (replica : Path) :
    openUri u root byEditor replica s = .ok false s := by
  apply ok_of_wp
  rw [openUri, hu]
  show wp (openPath p root byEditor (some u) replica) _ _ s
  rw [wp_openPath]
  exact ⟨fun _ => ⟨rfl, rfl⟩, fun hout => absurd hin (by simp [hout])⟩

/-- After a URI has been opened, there is a document at the path that it names. -/
theorem Shared.openUri_enters {s : Shared} {u : Uri} {p : Path} (hu : u.toPath? = some p) (root : Path) (byEditor : Bool)
    (replica : Path) : wp (openUri u root byEditor replica) (fun _ s' => s'.store.contains p = true) (fun _ _ => False) s := by
  rw [openUri, hu]
  show wp (openPath p root byEditor (some u) replica) _ _ s
  rw [wp_openPath]
  constructor
  · intro hin
    exact hin
  · intro hout
    rw [Store.contains]
    exact Option.isSome_iff_exists.mpr ⟨_, Store.get?_insert_self hout⟩

/-- What is left when an editor has opened some URIs outside of all workspaces. -/
def Shared.afterUris (s : Shared) (us : List Uri) : Shared :=
  us.foldl (fun s u => match openUri u ⟨""⟩ true ⟨""⟩ s with | .ok _ s' | .error _ s' => s') s

namespace Uri

/-- **All spellings of a path behind the scheme and two slashes name the path.**  Whichever of
    the octets of a path are escaped, in digits of either case, the URI names the path; and
    after one spelling of it has been opened, its document is there, is found under any other
    one, and nothing is changed.  Behind three slashes only absolute paths are named.  A URI
    that has the local host behind the two slashes does not name the path, but one that
    begins with the host, and is not absolute. -/
theorem named_by_spellings (p : Path) (u : Uri) {cs : List Char} (h : Spelled cs (Text.Utf8.encode p.spelling)) :
    (u.text.toList = filePrefix ++ cs → u.toPath? = some p
        ∧ ∀ (u' : Uri) (cs' : List Char), Spelled cs' (Text.Utf8.encode p.spelling) → u'.text.toList = filePrefix ++ cs' →
          ∀ (s : Shared) (root root' : Path) (byEditor byEditor' : Bool) (replica replica' : Path),
            wp (Shared.openUri u root byEditor replica)
              (fun _ s' => s'.store.contains p = true
                ∧ Shared.openUri u' root' byEditor' replica' s' = .ok false s') (fun _ _ => False) s)
      ∧ (∀ rest q, u.text.toList = filePrefix ++ '/' :: rest → u.toPath? = some q → q.isAbsolute = true)
      ∧ (u.text.toList = filePrefix ++ ("localhost".toList ++ cs) →
          u.toPath? = some ⟨"localhost" ++ p.spelling⟩ ∧ (Path.mk ("localhost" ++ p.spelling)).isAbsolute = false) := by
  refine ⟨fun htext => ⟨toPath?_of_spelled htext h, fun u' cs' h' htext' s root root' byEditor byEditor' replica replica' => ?_⟩,
    fun rest q => isAbsolute_of_toPath?, fun htext => ⟨host_in_path (by simp) htext h, ?_⟩⟩
  · refine wp_imp (Shared.openUri_enters (toPath?_of_spelled htext h) root byEditor replica) ?_ fun _ _ hfalse => hfalse
    intro _ s' hin
    exact ⟨hin, Shared.openUri_of_contains (toPath?_of_spelled htext' h') hin root' byEditor' replica'⟩
  · rw [Path.isAbsolute, String.toList_append]
    rfl

/-- Two spellings of a path with a character of two octets, one of which escapes a separator. -/
theorem named_by_spellings_of_pair :
    let p : Path := ⟨"/é/b"⟩
    let u : Uri := ⟨"file:///%c3%A9/b", by decide +kernel⟩
    let u' : Uri := ⟨"file:///%C3%a9%2Fb", by decide +kernel⟩
    Spelled "/%c3%A9/b".toList (Text.Utf8.encode p.spelling) ∧ Spelled "/%C3%a9%2Fb".toList (Text.Utf8.encode p.spelling)
      ∧ u.toPath? = some p
      ∧ wp (Shared.openUri u ⟨""⟩ true ⟨""⟩)
          (fun _ s => s.store.contains p = true ∧ Shared.openUri u' ⟨""⟩ true ⟨""⟩ s = .ok false s) (fun _ _ => False)
          { disk := Disk.blank } := by
  intro p u u'
  have hoctets : Text.Utf8.encode p.spelling = [0x2F, 0xC3, 0xA9, 0x2F, 0x62] := by decide
  have h : Spelled "/%c3%A9/b".toList (Text.Utf8.encode p.spelling) := by
    rw [hoctets]
    exact .plain (by decide) (by decide) (.escape 0xC3 (.inr (by decide)) (.inl (by decide))
      (.escape 0xA9 (.inl (by decide)) (.inl (by decide)) (.plain (by decide) (by decide)
        (.plain (by decide) (by decide) .nil))))
  have h' : Spelled "/%C3%a9%2Fb".toList (Text.Utf8.encode p.spelling) := by
    rw [hoctets]
    exact .plain (by decide) (by decide) (.escape 0xC3 (.inl (by decide)) (.inl (by decide))
      (.escape 0xA9 (.inr (by decide)) (.inl (by decide)) (.escape 0x2F (.inl (by decide)) (.inl (by decide))
        (.plain (by decide) (by decide) .nil))))
  obtain ⟨hpath, hopen⟩ := (named_by_spellings p u h).1 (by decide)
  exact ⟨h, h', hpath, hopen u' _ h' (by decide) _ _ _ _ _ _ _⟩

/-- **With the local host before it, a path is another one.**  The URI is derived by the grammar
    and names a relative path, and a document is entered for it beside that of the path. -/
theorem local_host_elsewhere :
    let u : Uri := ⟨"file:///d/a.dsp", by decide +kernel⟩
    let u' : Uri := ⟨"file://localhost/d/a.dsp", by decide +kernel⟩
    u.toPath? = some ⟨"/d/a.dsp"⟩ ∧ u'.toPath? = some ⟨"localhost/d/a.dsp"⟩
      ∧ (Path.mk "localhost/d/a.dsp").isAbsolute = false
      ∧ (({ disk := Disk.blank } : Shared).afterUris [u, u']).store.documents.map (·.path)
        = [⟨"/d/a.dsp"⟩, ⟨"localhost/d/a.dsp"⟩] := by
  decide +kernel

end Uri

end LiveWorkspace
