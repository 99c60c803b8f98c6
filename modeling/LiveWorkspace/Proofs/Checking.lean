/-
  LiveWorkspace/Proofs/Checking.lean
  ==================================
  **What the small steps on the shared state do.**

  One rule for each step that handlers are made of: what must hold before it for
  something to hold behind it.  Callers use the rules and never look into the steps.
-/
import LiveWorkspace.Proofs.Act

namespace LiveWorkspace

/-! ### Revisions -/

namespace Store

theorem contains_of_revise? {s s' : Store} {p : Path} {r : Revision} (h : s.revise? p r = .ok s') :
    s.contains p = true := by
  rw [revise?] at h
  split at h
  · assumption
  · cases h

theorem exists_revise? {s : Store} {p : Path} (h : s.contains p = true) (r : Revision) :
    ∃ s', s.revise? p r = .ok s' := by
  rw [revise?, if_pos h]
  exact ⟨_, rfl⟩

theorem encoding_revise? {s s' : Store} {p : Path} {r : Revision} (h : s.revise? p r = .ok s') :
    s'.encoding = s.encoding := by
  rw [revise?, if_pos (contains_of_revise? h)] at h
  cases h
  rfl

/-- A path with an open document has a document. -/
theorem contains_of_isOpen {s : Store} {p : Path} (h : s.isOpen p = true) : s.contains p = true := by
  rw [isOpen] at h
  rw [contains]
  cases hdoc : s.get? p with
  | none => rw [hdoc] at h; cases h
  | some doc => rfl

theorem isOpen_of_reopen {s s' : Store} {p : Path} (h : s.revise? p .reopen = .ok s') :
    s'.isOpen p = true := by
  have hin := contains_of_revise? h
  rw [contains] at hin
  obtain ⟨doc, hdoc⟩ := Option.isSome_iff_exists.mp hin
  rw [isOpen, get?_of_revise? h, if_pos (Path.same_refl p), hdoc]
  rfl

/-- A revision neither enters nor drops a document. -/
theorem contains_revise? {s s' : Store} {p : Path} {r : Revision} (h : s.revise? p r = .ok s') (q : Path) :
    s'.contains q = s.contains q := by
  rw [contains, contains, get?_of_revise? h]
  split
  · rw [Option.isSome_map]
  · rfl

/-- A revision that leaves the flag of its document alone leaves all paths as they are. -/
theorem isOpen_of_revise? {s s' : Store} {p : Path} {r : Revision} (h : s.revise? p r = .ok s')
    (hr : ∀ doc, s.get? p = some doc → (doc.revise s.encoding r).isOpen = doc.isOpen) (q : Path) :
    s'.isOpen q = s.isOpen q := by
  rw [isOpen, isOpen, get?_of_revise? h]
  split
  · rename_i hsame
    rw [← get?_congr _ hsame]
    cases hdoc : s.get? p with
    | none => rfl
    | some doc =>
      rw [Option.map_some, Option.any_some, Option.any_some]
      exact hr doc hdoc
  · rfl

theorem contains_insert_eq {s : Store} {doc : Document} (h : s.contains doc.path = false) (q : Path) :
    (s.insert doc).contains q = (s.contains q || doc.path.same q) := by
  cases hsame : doc.path.same q with
  | false => simp [contains, get?_insert_of_not_same s hsame]
  | true =>
    rw [contains, ← get?_congr _ hsame, get?_insert_self h]
    simp

theorem contains_erase_eq (s : Store) (p q : Path) : (s.erase p).contains q = (s.contains q && !p.same q) := by
  cases hsame : p.same q with
  | false => simp [contains, get?_erase_of_not_same s hsame]
  | true =>
    rw [contains, ← get?_congr _ hsame, get?_erase_self]
    simp

theorem isOpen_insert_closed {s : Store} {doc : Document} (hout : s.contains doc.path = false)
    (hclosed : doc.isOpen = false) (q : Path) : (s.insert doc).isOpen q = s.isOpen q := by
  cases hsame : doc.path.same q with
  | false => rw [isOpen, isOpen, get?_insert_of_not_same _ hsame]
  | true =>
    rw [isOpen, isOpen, ← get?_congr _ hsame, get?_insert_self hout, ← get?_congr _ hsame]
    rw [contains, Option.isSome_eq_false_iff, Option.isNone_iff_eq_none] at hout
    rw [hout, Option.any_some, hclosed]
    rfl

theorem isOpen_erase {s : Store} {p : Path} (hclosed : s.isOpen p = false) (q : Path) :
    (s.erase p).isOpen q = s.isOpen q := by
  cases hsame : p.same q with
  | false => rw [isOpen, isOpen, get?_erase_of_not_same _ hsame]
  | true =>
    have hq : s.isOpen q = false := by rwa [isOpen, ← get?_congr _ hsame]
    rw [hq, isOpen, ← get?_congr _ hsame, get?_erase_self]
    rfl

theorem isOpen_insert {s : Store} {doc : Document} (hout : s.contains doc.path = false)
    (hopen : doc.isOpen = true) : (s.insert doc).isOpen doc.path = true := by
  rw [isOpen, get?_insert_self hout, Option.any_some, hopen]

end Store

/-! ### Reading files -/

/-- The text that is read from a path; a file that cannot be read counts as empty. -/
def Disk.textOf (d : Disk) (p : Path) : String :=
  match d.read p with
  | .ok bytes => Text.Utf8.decodeLossy bytes
  | .error _ => ""

namespace Shared

/-- The shared state after a path was read, which reports a file that cannot be read. -/
def afterRead (s : Shared) (p : Path) : Shared :=
  match s.disk.read p with
  | .ok _ => s
  | .error _ => { s with reports := s.reports ++ [.error "Failed to read file"] }

@[simp] theorem afterRead_store (s : Shared) (p : Path) : (s.afterRead p).store = s.store := by
  rw [afterRead]
  split <;> rfl

@[simp] theorem afterRead_disk (s : Shared) (p : Path) : (s.afterRead p).disk = s.disk := by
  rw [afterRead]
  split <;> rfl

@[simp] theorem afterRead_compiled (s : Shared) (p : Path) : (s.afterRead p).compiled = s.compiled := by
  rw [afterRead]
  split <;> rfl

variable {s : Shared} {E : Crash → Shared → Prop}

theorem wp_report {Q : PUnit → Shared → Prop} (r : Report) :
    wp (report r) Q E s ↔ Q ⟨⟩ { s with reports := s.reports ++ [r] } := wp_modify _

/-- What is published reaches somebody who listens. -/
theorem wp_publish {Q : PUnit → Shared → Prop} (h : s.isHeard = true) (u : Uri) (messages : List String) :
    wp (publish u messages) Q E s ↔ Q ⟨⟩ { s with published := s.published ++ [⟨u, messages⟩] } := by
  simp only [publish, wp_bind, wp_get, wp_ite, wp_modify, h, true_implies, not_true_eq_false, false_implies,
    and_true]

theorem wp_readText {Q : String → Shared → Prop} (p : Path) :
    wp (readText p) Q E s ↔ Q (s.disk.textOf p) (s.afterRead p) := by
  simp only [readText, wp_bind, wp_get, Disk.textOf, afterRead]
  cases s.disk.read p with
  | ok bytes => exact wp_pure _
  | error err => rw [wp_bind, wp_report, wp_pure]

/-! ### Documents -/

/-- The document that a path is entered with. -/
def entered (s : Shared) (p root : Path) (byEditor : Bool) (uri : Option Uri) (replica : Path) :
    Document :=
  { path := p
    relative := p.relativeTo root
    replica := replica
    uri := uri <|> p.toUri?
    content := s.disk.textOf p
    isOpen := byEditor
    hasErrors := false }

/-- A document that is entered without a URI gets that of its path. -/
theorem uri_entered (s : Shared) (p root : Path) (byEditor : Bool) (replica : Path) :
    (s.entered p root byEditor none replica).uri = p.toUri? := by
  simp [entered]

theorem wp_openPath {Q : Bool → Shared → Prop} (p root : Path) (byEditor : Bool) (uri : Option Uri)
    (replica : Path) :
    wp (openPath p root byEditor uri replica) Q E s
      ↔ (s.store.contains p = true → Q false s)
        ∧ (s.store.contains p = false → Q true { s.afterRead p with
            store := s.store.insert (s.entered p root byEditor uri replica) }) := by
  simp only [openPath, wp_bind, wp_get, wp_ite, wp_pure, wp_readText, wp_modify, Bool.not_eq_true,
    entered, afterRead_store]

theorem wp_revise {Q : Except StoreError Unit → Shared → Prop} (p : Path) (r : Revision) :
    wp (revise p r) Q E s
      ↔ (∀ store, s.store.revise? p r = .ok store → Q (.ok ()) { s with store := store })
        ∧ (s.store.contains p = false → Q (.error (.untracked p)) { s with
            reports := s.reports ++ [.error s!"Cannot {r.verb} file not in file store"] }) := by
  simp only [revise, wp_bind, wp_get]
  cases hrev : s.store.revise? p r with
  | ok store =>
    have hin := Store.contains_of_revise? hrev
    simp only [wp_bind, wp_modify, wp_pure, Except.ok.injEq, forall_eq', hin, Bool.true_eq_false,
      false_implies, and_true]
  | error err =>
    obtain ⟨hin, rfl⟩ := Store.revise?_eq_error_iff.mp hrev
    simp only [wp_bind, wp_report, wp_pure, reduceCtorEq, false_implies, implies_true, true_and, hin,
      forall_const]

theorem wp_dropDocument {Q : Option Document → Shared → Prop} (p : Path) :
    wp (dropDocument p) Q E s ↔ Q (s.store.get? p) { s with store := s.store.erase p } := by
  simp only [dropDocument, wp_bind, wp_get, wp_modify, wp_pure]

/-- Reading a document again enters none and drops none, and succeeds only where there is one. -/
theorem reload_contains (p : Path) (s : Shared) :
    wp (reload p) (fun outcome s' => s'.store.contains p = s.store.contains p
      ∧ (outcome = .ok () → s.store.contains p = true)) (fun _ _ => True) s := by
  rw [reload, wp_bind, wp_readText, wp_revise]
  constructor
  · intro store hstore
    rw [afterRead_store] at hstore
    exact ⟨Store.contains_revise? hstore p, fun _ => Store.contains_of_revise? hstore⟩
  · intro _
    simp

-- What is read is of no account to most proofs, and comparing desks should not run it.
attribute [irreducible] afterRead

end Shared

end LiveWorkspace
