/-
  LiveWorkspace/Proofs/Document/EditLists.lean
  ============================================
  **Edits applied from the last to the first replace all their ranges at once.**

  An editor that changes many ranges of a text finds the places of all of them in the text as
  it is, and sends the last one first.  Each edit then meets a text that is no longer the one
  in which its places were found: what follows its range may be another text by now, with other
  line feeds right behind it.  What precedes the range is as it was, and that alone decides
  where a place leads (`offset_placeAfter`).  So the induction is on the ranges from some
  boundary on, and keeps all characters in front of that boundary.
-/
import LiveWorkspace.Proofs.Checking
import LiveWorkspace.Proofs.Text.Rounding

namespace LiveWorkspace

open Text (Encoding LineIndex IsBoundary byteLength placeAfter dropBytes? sliceBytes?)

/-! ### Patches -/

/-- A range of a text, by the byte offsets of its ends, and what takes its place. -/
structure Patch where
  start : Nat
  stop : Nat
  text : String
deriving DecidableEq, Repr

namespace Patch

/-- Ranges that follow each other in a text, from an offset on, and end between characters. -/
def InOrder (cs : List Char) : (pos : Nat) → List Patch → Prop
  | _, [] => True
  | pos, p :: rest =>
    pos ≤ p.start ∧ p.start ≤ p.stop ∧ IsBoundary p.start cs ∧ IsBoundary p.stop cs ∧ InOrder cs p.stop rest

instance decidableInOrder (cs : List Char) : (pos : Nat) → (ps : List Patch) → Decidable (InOrder cs pos ps)
  | _, [] => isTrue trivial
  | pos, p :: rest =>
    have := decidableInOrder cs p.stop rest
    inferInstanceAs (Decidable (pos ≤ p.start ∧ p.start ≤ p.stop ∧ IsBoundary p.start cs
      ∧ IsBoundary p.stop cs ∧ InOrder cs p.stop rest))

/-- A text from an offset on, with all ranges replaced at once. -/
def replaceAll (cs : List Char) : (pos : Nat) → List Patch → List Char
  | pos, [] => (dropBytes? pos cs).getD []
  | pos, p :: rest => (sliceBytes? pos p.start cs).getD [] ++ p.text.toList ++ replaceAll cs p.stop rest

/-- The edit of a patch, with the places that its ends have in a text. -/
def edit (text : String) (e : Encoding) (p : Patch) : Revision :=
  .edit ((LineIndex.ofText text).position p.start text e) ((LineIndex.ofText text).position p.stop text e) p.text

/-- Apply the edit of a patch to what has become of the text. -/
def apply (text : String) (e : Encoding) (p : Patch) (current : String) : String :=
  Text.replaceRange current ((LineIndex.ofText text).position p.start text e)
    ((LineIndex.ofText text).position p.stop text e) p.text e

/-! ### Texts -/

/-- Of two cuts of a text, the later one lies behind the earlier. -/
theorem exists_between {before after before' after' : List Char} (h : before ++ after = before' ++ after')
    (hle : byteLength before ≤ byteLength before') : ∃ mid, before' = before ++ mid ∧ after = mid ++ after' := by
  rcases List.append_eq_append_iff.mp h with ⟨mid, hbefore, hafter⟩ | ⟨mid, hbefore, hafter⟩
  · exact ⟨mid, hbefore, hafter⟩
  · rw [hbefore, Text.byteLength_append] at hle
    have hnil : mid = [] := Text.byteLength_eq_zero_iff.mp (by omega)
    refine ⟨[], ?_, ?_⟩
    · rw [hbefore, hnil, List.append_nil, List.append_nil]
    · rw [hafter, hnil, List.nil_append, List.nil_append]

/-- The edits of ranges behind a boundary, the last one first, replace them all at once and
    leave what precedes the boundary as it is. -/
theorem foldr_apply (e : Encoding) {text : String} (h : byteLength text.toList < 2 ^ 32) {ps : List Patch}
    {before after : List Char} (htext : text.toList = before ++ after)
    (hps : InOrder text.toList (byteLength before) ps) :
    ps.foldr (apply text e) text = String.ofList (before ++ replaceAll text.toList (byteLength before) ps) := by
  induction ps generalizing before after with
  | nil =>
    rw [List.foldr_nil, replaceAll, htext, Text.dropBytes?_byteLength_append, Option.getD_some, ← htext,
      String.ofList_toList]
  | cons p rest ih =>
    obtain ⟨hfirst, hle, ⟨beforeStart, fromStart, hstart, hstartLength⟩,
      ⟨beforeStop, fromStop, hstop, hstopLength⟩, hrest⟩ := hps
    obtain ⟨kept, rfl, rfl⟩ := exists_between (htext.symm.trans hstart) (hstartLength ▸ hfirst)
    obtain ⟨old, rfl, rfl⟩ := exists_between (hstart.symm.trans hstop) (by omega)
    rw [← hstopLength] at hrest
    have hshort : byteLength (before ++ kept ++ old) < 2 ^ 32 := by
      rw [hstop, Text.byteLength_append] at h
      omega
    have hpstart : (LineIndex.ofText text).position p.start text e = placeAfter e (before ++ kept) := by
      rw [← hstartLength, Text.position_byteLength e h hstart]
    have hpstop : (LineIndex.ofText text).position p.stop text e = placeAfter e (before ++ kept ++ old) := by
      rw [← hstopLength, Text.position_byteLength e h hstop]
    have hkept : sliceBytes? (byteLength before) p.start text.toList = some kept := by
      rw [sliceBytes?, if_pos hfirst, htext, Text.dropBytes?_byteLength_append, Option.bind_some, ← hstartLength,
        Text.byteLength_append, Nat.add_sub_cancel_left, Text.takeBytes?_byteLength_append]
    calc (p :: rest).foldr (apply text e) text
        = apply text e p (String.ofList (before ++ kept ++ old
            ++ replaceAll text.toList (byteLength (before ++ kept ++ old)) rest)) := by
          rw [List.foldr_cons, ih hstop hrest]
      _ = String.ofList (before ++ kept ++ p.text.toList
            ++ replaceAll text.toList (byteLength (before ++ kept ++ old)) rest) := by
          rw [apply, hpstart, hpstop, (Text.replaceRange_placeAfter e _ p.text hshort).1]
      _ = String.ofList (before ++ replaceAll text.toList (byteLength before) (p :: rest)) := by
          rw [replaceAll, hkept, Option.getD_some, hstopLength]
          simp only [List.append_assoc]

/-! ### Documents -/

/-- What edits, the last one first, make of a document's text. -/
theorem get?_of_foldrM_edit {s : Store} {path : Path} {doc : Document} (h : s.get? path = some doc)
    (text : String) (ps : List Patch) :
    ∃ s', ps.foldrM (fun p t => t.revise? path (p.edit text s.encoding)) s = .ok s' ∧ s'.encoding = s.encoding
      ∧ s'.get? path = some { doc with content := ps.foldr (apply text s.encoding) doc.content } := by
  induction ps with
  | nil => exact ⟨s, rfl, rfl, h⟩
  | cons p rest ih =>
    obtain ⟨s₁, hs₁, hencoding, hget⟩ := ih
    have hcontains : s₁.contains path = true := by rw [Store.contains, hget, Option.isSome_some]
    obtain ⟨s₂, hs₂⟩ := Store.exists_revise? hcontains (p.edit text s.encoding)
    refine ⟨s₂, ?_, ?_, ?_⟩
    · rw [List.foldrM_cons, hs₁]
      exact hs₂
    · exact (Store.encoding_revise? hs₂).trans hencoding
    · rw [Store.get?_of_revise? hs₂, Path.same_refl, if_pos rfl, hget, hencoding]
      rfl

/-- **Edits from the last to the first.**  The places of ranges that follow each other in a text
    below 2^32 octets are found in that text.  Then the edits, the last one first and each
    applied to what the one before has left, give the text with all ranges replaced at once;
    and so they do as revisions of a stored document with that text. -/
theorem replaceAll_of_edits (e : Encoding) {text : String} (h : byteLength text.toList < 2 ^ 32) {ps : List Patch}
    (hps : InOrder text.toList 0 ps) :
    ps.foldr (apply text e) text = String.ofList (replaceAll text.toList 0 ps)
    ∧ ∀ (s : Store) (path : Path) (doc : Document), s.encoding = e → s.get? path = some doc → doc.content = text →
      ∃ s', ps.foldrM (fun p s => s.revise? path (p.edit text e)) s = .ok s'
        ∧ s'.get? path = some { doc with content := String.ofList (replaceAll text.toList 0 ps) } := by
  have hall : ps.foldr (apply text e) text = String.ofList (replaceAll text.toList 0 ps) :=
    foldr_apply e h (List.nil_append text.toList).symm hps
  refine ⟨hall, ?_⟩
  rintro s path doc rfl hget rfl
  obtain ⟨s', hs', -, hget'⟩ := get?_of_foldrM_edit hget doc.content ps
  exact ⟨s', hs', by rw [hget', hall]⟩

/-- Three ranges that meet: a line feed goes, one comes, and a text is put in at the end. -/
theorem replaceAll_of_meeting_edits :
    byteLength "ab\ncd".toList < 2 ^ 32
    ∧ InOrder "ab\ncd".toList 0 [⟨1, 3, "é"⟩, ⟨3, 4, "\n😀"⟩, ⟨5, 5, "\n"⟩]
    ∧ [(⟨1, 3, "é"⟩ : Patch), ⟨3, 4, "\n😀"⟩, ⟨5, 5, "\n"⟩].foldr (apply "ab\ncd" .utf16) "ab\ncd" = "aé\n😀d\n" := by
  have h : byteLength "ab\ncd".toList < 2 ^ 32 := by decide
  have hps : InOrder "ab\ncd".toList 0 [⟨1, 3, "é"⟩, ⟨3, 4, "\n😀"⟩, ⟨5, 5, "\n"⟩] := by decide
  refine ⟨h, hps, ?_⟩
  rw [(replaceAll_of_edits .utf16 h hps).1]
  decide

end Patch

end LiveWorkspace
