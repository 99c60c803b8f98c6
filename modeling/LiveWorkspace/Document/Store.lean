/-
  LiveWorkspace/Document/Store.lean
  =================================
  **The documents of a session.**

  A document is the text that the session holds for a file, together with where the
  file belongs.  While an editor has it open, the text is the editor's; otherwise it
  is what the disk held when it was last read.  The store has one document for each
  path, paths being the same when their components are; a document keeps the spelling
  it was entered with.

  What can be done to a stored document is a `Revision`.  Every revision of a path
  without a document fails, and changes nothing.
-/
import LiveWorkspace.Document.Kind
import LiveWorkspace.Text.LineIndex
import LiveWorkspace.Uri

namespace LiveWorkspace

/-! ### Documents -/

/-- A document: its path, that path seen from the workspace's root, the path of its
    copy in the replica, the URI under which an editor knows it, its text, whether an
    editor has it open, and whether its last check found errors. -/
structure Document where
  path : Path
  relative : Path
  replica : Path
  uri : Option Uri
  content : String
  isOpen : Bool
  hasErrors : Bool
deriving DecidableEq

def Document.kind (doc : Document) : FileKind := FileKind.ofPath doc.path

/-! ### Revisions -/

/-- A change of one document. A `reload` takes the disk's text over the editor's. -/
inductive Revision where
  | replace (text : String)
  | edit (start stop : Text.LineCol) (text : String)
  | reopen
  | close
  | reload (text : String)
  | markErrors (found : Bool)
deriving DecidableEq, Repr

/-- What a revision does, as reports call it. -/
def Revision.verb : Revision → String
  | .replace _ | .edit .. => "modify"
  | .reopen => "reopen"
  | .close => "close"
  | .reload _ => "reload"
  | .markErrors _ => "record diagnostics for"

/-- A document after a revision; columns are counted in the units of an encoding. -/
def Document.revise (e : Text.Encoding) (doc : Document) : Revision → Document
  | .replace text => { doc with content := text }
  | .edit start stop text => { doc with content := Text.replaceRange doc.content start stop text e }
  | .reopen => { doc with isOpen := true }
  | .close => { doc with isOpen := false }
  | .reload text => { doc with content := text, isOpen := false }
  | .markErrors found => { doc with hasErrors := found }

theorem Document.revise_path (e : Text.Encoding) (doc : Document) (r : Revision) :
    (doc.revise e r).path = doc.path := by
  cases r <;> rfl

/-! ### The store -/

/-- The documents, in the order in which they were entered, and the units that editors
    count columns in. -/
structure Store where
  encoding : Text.Encoding := .utf16
  documents : List Document := []
deriving DecidableEq

/-- Why a revision fails. -/
inductive StoreError where
  | untracked (p : Path)
deriving DecidableEq, Repr

def StoreError.message : StoreError → String
  | .untracked p => s!"file not in file store: {p.spelling}"

namespace Store

def get? (s : Store) (p : Path) : Option Document := s.documents.find? (·.path.same p)

def contains (s : Store) (p : Path) : Bool := (s.get? p).isSome

/-- Whether an editor has a path open. -/
def isOpen (s : Store) (p : Path) : Bool := (s.get? p).any (·.isOpen)

/-- The paths of all documents, in their order. -/
def paths (s : Store) : List Path := Path.sort (s.documents.map (·.path))

/-- Enter a document, unless its path has one. -/
def insert (s : Store) (doc : Document) : Store :=
  if s.contains doc.path then s else { s with documents := s.documents ++ [doc] }

/-- Drop the document of a path. -/
def erase (s : Store) (p : Path) : Store :=
  { s with documents := s.documents.filter fun doc => !doc.path.same p }

/-- Change the document of a path. -/
def revise? (s : Store) (p : Path) (r : Revision) : Except StoreError Store :=
  if s.contains p then
    .ok { s with documents := s.documents.map fun doc =>
      if doc.path.same p then doc.revise s.encoding r else doc }
  else .error (.untracked p)

/-! ### What look-ups find -/

/-- The document that a look-up finds has the path that was asked for. -/
theorem same_of_get?_eq_some {s : Store} {p : Path} {doc : Document} (h : s.get? p = some doc) :
    doc.path.same p = true := by
  simp only [get?] at h
  exact List.find?_some (p := fun d : Document => d.path.same p) h

/-- Look-ups do not see how a path is spelled. -/
theorem get?_congr (s : Store) {p q : Path} (h : p.same q = true) : s.get? p = s.get? q := by
  simp only [get?, Path.same_comm _ p, Path.same_comm _ q, Path.same_congr h]

theorem get?_insert_self {s : Store} {doc : Document} (h : s.contains doc.path = false) :
    (s.insert doc).get? doc.path = some doc := by
  simp only [contains, Option.isSome_eq_false_iff, Option.isNone_iff_eq_none] at h
  simp only [get?] at h
  simp only [insert, contains, get?, h, Option.isSome_none, Bool.false_eq_true, if_false,
    List.find?_append, Option.none_or, List.find?_cons, Path.same_refl]

theorem get?_insert_of_not_same (s : Store) {doc : Document} {p : Path}
    (h : doc.path.same p = false) : (s.insert doc).get? p = s.get? p := by
  simp only [insert]
  split
  · rfl
  · simp only [get?, List.find?_append, List.find?_cons, h, List.find?_nil, Option.or_none]

theorem get?_erase_self (s : Store) (p : Path) : (s.erase p).get? p = none := by
  simp [get?, erase]

theorem get?_erase_of_not_same (s : Store) {p q : Path} (h : p.same q = false) :
    (s.erase p).get? q = s.get? q := by
  simp only [get?, erase, List.find?_filter]
  congr 1
  funext doc
  cases hq : doc.path.same q with
  | false => simp
  | true =>
    rw [Path.same_congr hq, Path.same_comm, h]
    rfl

theorem revise?_eq_error_iff {s : Store} {p : Path} {r : Revision} {err : StoreError} :
    s.revise? p r = .error err ↔ s.contains p = false ∧ err = .untracked p := by
  simp only [revise?]
  split <;> rename_i h
  · simp [h]
  · simp [h, eq_comm]

/-- A revision changes the document of its path, and no other. -/
theorem get?_of_revise? {s s' : Store} {p : Path} {r : Revision} (h : s.revise? p r = .ok s')
    (q : Path) :
    s'.get? q =
      if p.same q then (s.get? q).map (·.revise s.encoding r) else s.get? q := by
  simp only [revise?] at h
  split at h
  · simp only [Except.ok.injEq] at h
    subst h
    simp only [get?]
    induction s.documents with
    | nil => simp
    | cons doc rest ih =>
      simp only [List.map_cons, List.find?_cons]
      cases hp : doc.path.same p with
      | true =>
        simp only [if_true, Document.revise_path]
        rw [Path.same_congr hp]
        cases hq : p.same q with
        | true => simp
        | false => simpa [hq] using ih
      | false =>
        simp only [Bool.false_eq_true, if_false]
        cases hq : doc.path.same q with
        | true =>
          rw [Path.same_congr hq, Path.same_comm] at hp
          simp [hp]
        | false => exact ih
  · simp at h

end Store

end LiveWorkspace
