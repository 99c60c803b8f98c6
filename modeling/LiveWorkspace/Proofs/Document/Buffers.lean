/-
  LiveWorkspace/Proofs/Document/Buffers.lean
  ==========================================
  **The store has the text of every document that an editor has open.**

  What the editors of a session hold is a text for each path they have open
  (`Buffers`); the store *carries* it when every such path has an open document with
  that text.  A document is dropped, or read again from the disk, only where it is not
  open, and a path that is not open is one for which no editor holds a text
  (`Carries.free`).  So carrying is a property that every handler keeps
  (`carries_kept`).
-/
import LiveWorkspace.Proofs.Workspace.Keeping

namespace LiveWorkspace

open Text (Encoding)

/-! ### What editors hold -/

/-- The texts that editors hold, by path. -/
abbrev Buffers := Path → Option String

namespace Buffers

/-- The text of a path, however it is spelled, is another one now, or none. -/
def set (b : Buffers) (p : Path) (text : Option String) : Buffers :=
  fun q => if p.same q then text else b q

theorem set_of_same {b : Buffers} {p q : Path} {text : Option String} (h : p.same q = true) :
    b.set p text q = text := if_pos h

theorem set_of_not_same {b : Buffers} {p q : Path} {text : Option String} (h : p.same q = false) :
    b.set p text q = b q := if_neg (Bool.eq_false_iff.mp h)

/-- No editor holds a text of the path. -/
def Free (b : Buffers) (p : Path) : Prop := ∀ q, p.same q = true → b q = none

theorem free_set_none (b : Buffers) (p : Path) : (b.set p none).Free p := fun _ h => set_of_same h

end Buffers

/-- The store counts in the encoding `e`, and has each text that an editor holds in a
    document that is open. -/
structure Store.Carries (e : Encoding) (b : Buffers) (s : Store) : Prop where
  encoding : s.encoding = e
  holds : ∀ p text, b p = some text →
    ∃ doc, s.get? p = some doc ∧ doc.isOpen = true ∧ doc.content = text

/-! ### Changes of the store -/

namespace Store.Carries

variable {e : Encoding} {b : Buffers} {s s' : Store} {p : Path}

/-- Where no document is open no editor holds a text. -/
theorem free (h : s.Carries e b) (hp : s.isOpen p = false) : b.Free p := by
  intro q hq
  cases hb : b q with
  | none => rfl
  | some text =>
    obtain ⟨doc, hdoc, hopen, -⟩ := h.holds q text hb
    rw [Store.isOpen, Store.get?_congr s hq, hdoc, Option.any_some, hopen] at hp
    exact absurd hp (by decide)

/-- The text that an editor holds of a path is that of every spelling. -/
theorem set_self (h : s.Carries e b) {text : String} (hp : b p = some text) :
    s.Carries e (b.set p (some text)) := by
  refine ⟨h.encoding, fun q t hq => ?_⟩
  cases hsame : p.same q with
  | false =>
    rw [Buffers.set_of_not_same hsame] at hq
    exact h.holds q t hq
  | true =>
    rw [Buffers.set_of_same hsame] at hq
    rw [← Store.get?_congr s hsame, ← Option.some.inj hq]
    exact h.holds p text hp

theorem insert (h : s.Carries e b) (doc : Document) : (s.insert doc).Carries e b := by
  refine ⟨?_, fun p text hp => ?_⟩
  · rw [← h.encoding, Store.insert]
    split
    · rfl
    · rfl
  · obtain ⟨found, hfound, hrest⟩ := h.holds p text hp
    refine ⟨found, ?_, hrest⟩
    cases hsame : doc.path.same p with
    | false => rw [Store.get?_insert_of_not_same s hsame, hfound]
    | true =>
      have hin : s.contains doc.path = true := by
        rw [Store.contains, Store.get?_congr s hsame, hfound]
        rfl
      rw [Store.insert, if_pos hin, hfound]

theorem erase (h : s.Carries e b) (hp : b.Free p) : (s.erase p).Carries e b := by
  refine ⟨h.encoding, fun q text hq => ?_⟩
  have hsame : p.same q = false := by
    cases hsame : p.same q with
    | false => rfl
    | true => exact absurd (hp q hsame) (by rw [hq]; exact Option.some_ne_none text)
  rw [Store.get?_erase_of_not_same s hsame]
  exact h.holds q text hq

/-- After a revision the store carries other buffers, when what they hold of other paths
    is as before and what they hold of the revised path is what became of it. -/
theorem revise? (h : s.Carries e b) {r : Revision} {b' : Buffers} (hs' : s.revise? p r = .ok s')
    (hothers : ∀ q, p.same q = false → b' q = b q)
    (hown : ∀ q doc text, p.same q = true → b' q = some text → s.get? q = some doc →
      (doc.revise e r).isOpen = true ∧ (doc.revise e r).content = text) :
    s'.Carries e b' := by
  refine ⟨(Store.encoding_revise? hs').trans h.encoding, fun q text hq => ?_⟩
  rw [Store.get?_of_revise? hs' q, h.encoding]
  cases hsame : p.same q with
  | false => exact h.holds q text (hothers q hsame ▸ hq)
  | true =>
    have hin := Store.contains_of_revise? hs'
    rw [Store.contains, Store.get?_congr s hsame] at hin
    obtain ⟨doc, hdoc⟩ := Option.isSome_iff_exists.mp hin
    rw [hdoc]
    exact ⟨doc.revise e r, rfl, hown q doc text hsame hq hdoc⟩

/-- A revision of what no editor has open changes no editor's text. -/
theorem revise?_of_free (h : s.Carries e b) {r : Revision} (hs' : s.revise? p r = .ok s')
    (hp : b.Free p) : s'.Carries e b :=
  h.revise? hs' (fun _ _ => rfl) fun q _ _ hsame hq _ => by
    rw [hp q hsame] at hq
    cases hq

/-- A revision takes an open document from the editor's text to the editor's text. -/
theorem revise?_text {text next : String} (h : s.Carries e (b.set p (some text))) {r : Revision}
    (hs' : s.revise? p r = .ok s')
    (hr : ∀ doc : Document, doc.isOpen = true → doc.content = text →
      (doc.revise e r).isOpen = true ∧ (doc.revise e r).content = next) :
    s'.Carries e (b.set p (some next)) := by
  refine h.revise? hs' (fun q hsame => ?_) fun q doc t hsame ht hdoc => ?_
  · rw [Buffers.set_of_not_same hsame, Buffers.set_of_not_same hsame]
  · rw [Buffers.set_of_same hsame] at ht
    obtain ⟨doc', hdoc', hopen, htext⟩ := h.holds q text (Buffers.set_of_same hsame)
    cases hdoc.symm.trans hdoc'
    cases ht
    exact hr doc hopen htext

/-- A document that is opened again keeps its text. -/
theorem reopen (h : s.Carries e b) (hs' : s.revise? p .reopen = .ok s') : s'.Carries e b :=
  h.revise? hs' (fun _ _ => rfl) fun q _ text _ hq hdoc => by
    obtain ⟨doc, hdoc', -, htext⟩ := h.holds q text hq
    cases hdoc.symm.trans hdoc'
    exact ⟨rfl, htext⟩

/-- Noting the outcome of a check changes no text. -/
theorem markErrors (h : s.Carries e b) {found : Bool} (hs' : s.revise? p (.markErrors found) = .ok s') :
    s'.Carries e b :=
  h.revise? hs' (fun _ _ => rfl) fun q _ text _ hq hdoc => by
    obtain ⟨doc, hdoc', hopen, htext⟩ := h.holds q text hq
    cases hdoc.symm.trans hdoc'
    exact ⟨hopen, htext⟩

end Store.Carries

/-! ### What is shared -/

/-- What is shared carries what its store carries. -/
def Shared.Carries (e : Encoding) (b : Buffers) (s : Shared) : Prop := s.store.Carries e b

/-- **Handlers never touch the text of a document that an editor has open.** -/
theorem Shared.carries_kept (e : Encoding) (b : Buffers) : Shared.Kept (Shared.Carries e b) b.Free where
  report _ _ h := h
  publish _ _ h := h
  mark _ _ _ _ h hrev := Store.Carries.markErrors h hrev
  closed _ _ h hclosed := Store.Carries.free h hclosed
  disk _ _ h := h
  watch _ _ h := h
  insert _ doc _ h := Store.Carries.insert h doc
  erase _ _ hfree h := Store.Carries.erase h hfree
  revise _ _ _ _ hfree _ h hrev := Store.Carries.revise?_of_free h hrev hfree

theorem Shared.carries_records (e : Encoding) (b : Buffers) : Shared.Records (Shared.Carries e b) :=
  fun _ _ _ h _ _ => h

end LiveWorkspace
