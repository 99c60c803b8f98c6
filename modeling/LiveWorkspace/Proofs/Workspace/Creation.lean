/-
  LiveWorkspace/Proofs/Workspace/Creation.lean
  ============================================
  **What a creation takes up is what a new workspace would find.**

  When a path has come, its tree is walked, and each directory and each file is put into the
  replica for itself.  When a workspace is opened, the tree of the root is walked, and all of it
  is copied.  Both take up the same files, and both leave the same entries in the replica, but
  that a copy which is written from a document holds the document's text, in which octets that
  are no text have been replaced (`Entry.Shows`).

  Which files are taken up does not depend on whether operations on the replica fail
  (`Desk.Taking`); what is in the replica is compared where none has failed.
-/
import LiveWorkspace.Proofs.Disk.Listing
import LiveWorkspace.Proofs.Workspace.TakingUp

namespace LiveWorkspace

/-! ### Replications -/

namespace Site

/-- A file as a disk has it at a path. -/
def FileLike (old : Disk) (p : Path) (e : Entry) : Prop :=
  ∃ loc content mode, old.stat p = .ok (loc, .file content mode) ∧ e = .file content mode

theorem FileLike.isDirectory (old : Disk) (p : Path) (e : Entry) (h : FileLike old p e) : e.isDirectory = false := by
  obtain ⟨loc, content, mode, -, rfl⟩ := h
  rfl

end Site

namespace Premises

variable {m : Premises} {old disk disk' : Disk} {dirs files : Path → Prop} {p q : Path} {ns r : List String}
  {put : List String → (Entry → Prop) → Prop}

section Copying

variable {done : List Path} {x : Path} {start : Disk} (hx : m.root.Encloses x) (hd : m.site.Kempt old disk)
  (hlisted : ∀ d, Disk.SameOutside m.site.zone old d → d.stat x = old.stat x)
include hx hd hlisted

end Copying

theorem names_foldl_child (hself : m.root.Encloses m.root) (hr : ∀ n ∈ r, Path.Proper n) :
    m.names (r.foldl Path.child m.root) = r := hself.namesBelow_foldl_child_self hr

end Premises

/-! ### Replicas that resemble each other -/

/-- An entry of a replica beside that of a plain copy: a directory with the same mode, or a file
    with the text that the octets show. -/
inductive Entry.Shows : Entry → Entry → Prop
  | directory (mode : Nat) : Shows (.directory mode) (.directory mode)
  | file (content : Text.Bytes) (mode mode' : Nat) :
      Shows (.file content mode) (.file (Text.Utf8.encode (Text.Utf8.decodeLossy content)) mode')

/-- At and below the copy of a path a disk has the entries of another, with the texts that these
    show, and the path's own copy has the same mode. -/
structure Premises.Resembles (m : Premises) (p : Path) (copied disk : Disk) : Prop where
  entries : ∀ r, m.names p <+: r → Option.Rel Entry.Shows (m.site.entry copied r) (m.site.entry disk r)
  mode : (m.site.entry disk (m.names p)).map Entry.mode = (m.site.entry copied (m.names p)).map Entry.mode

/-! ### What is taken up -/

/-- The tree of a root lists a path as a file, or as a directory that is no link. -/
def Disk.Lists (d : Disk) (root p : Path) : Prop :=
  p ∈ (d.tree root).1.files ∨ p ∈ (d.tree root).1.dirs ∧ ∀ loc target, d.stat p false ≠ .ok (loc, .link target)

namespace Premises

section Listed

variable {m : Premises} {old disk₀ disk disk' : Disk} {p x : Path} {ns r : List String} (hproper : old.Proper)
  (hclosed : old.Closed) (hself : m.root.Encloses m.root) (hrests : old.Rests m.root ns) (hp : old.Lists m.root p)
  (hfills : m.site.Fills (m.Put old (Site.Holding old.textOf) (· ∈ old.dirsAt p) (· ∈ old.filesAt p)) old disk)
  (hcopied : m.site.Fills
    (m.Put old (Site.FileLike old) (· ∈ (old.tree m.root).1.dirs) (· ∈ (old.tree m.root).1.files)) disk₀ disk')
include hproper hclosed hself hrests hp hfills hcopied

end Listed

end Premises

/-- An account of some more paths, whatever their texts. -/
structure Account.Extends (a a' : Account) (ps : List Path) : Prop where
  tracks : ∀ q, a'.tracks q = (a.tracks q || ps.any (·.same q))
  known : ∀ q, (a'.record q).isSome = ((a.record q).isSome || ps.any (·.same q))

namespace Account.Extends

variable {a a' : Account} {ps : List Path}

theorem refl (a : Account) : a.Extends a [] := by
  constructor
  · simp
  · simp

theorem take (h : a.Extends a' ps) (p : Path) (text : String) : a.Extends (a'.take p text) (ps ++ [p]) := by
  constructor
  · intro q
    rw [List.any_append, ← Bool.or_assoc, ← h.tracks]
    simp [Account.take]
  · intro q
    rw [List.any_append, ← Bool.or_assoc, ← h.known]
    show (if p.same q && !a'.opens q then some (text, false) else a'.record q).isSome = _
    cases hsame : p.same q with
    | false => simp [hsame]
    | true =>
      cases hopen : a'.opens q with
      | false => simp [hsame]
      | true =>
        obtain ⟨content, hrecord⟩ := record_of_opens hopen
        simp [hrecord]

end Account.Extends

namespace Desk

variable {m : Premises} {since : Shared} {a : Account} {d d' : Desk} {D D' : Disk → Prop} {p q : Path} {ps : List Path}
  {E : Crash → Desk → Prop}

/-- While an event is handled, some paths have been taken up. -/
def Taking (m : Premises) (since : Shared) (a : Account) (ps : List Path) (d : Desk) : Prop :=
  ∃ a', a.Extends a' ps ∧ d.Amid m since a' fun _ => True

section Handling

variable (checks : Checkers)

theorem Taking.adoptDir (h : d.Taking m since a ps) (hp : m.root.Encloses p) :
    wp (adoptDir p) (fun _ => Taking m since a ps) E d := by
  obtain ⟨a', hextends, hamid⟩ := h
  exact wp_imp (hamid.adoptDir hp fun _ _ _ _ _ => trivial) (fun _ _ hd' => ⟨a', hextends, hd'⟩) fun _ _ he => he

theorem Taking.adoptFile (htotal : checks.Total) (h : d.Taking m since a ps) (hp : m.root.Encloses p) :
    wp (adoptFile checks p) (fun _ => Taking m since a (ps ++ [p])) E d := by
  obtain ⟨a', hextends, hamid⟩ := h
  refine wp_imp (hamid.adoptFile checks htotal hp rfl fun _ _ _ _ _ => trivial) (fun _ _ hd' => ?_) fun _ _ he => he
  exact ⟨_, hextends.take p _, hd'⟩

theorem Taking.trackDir (htotal : checks.Total) (h : d.Taking m since a []) (hp : m.root.Encloses p)
    (htree : d.shared.disk.tree p = since.disk.tree p) :
    wp (trackDir checks p) (fun _ => Taking m since a (since.disk.tree p).1.files) E d := by
  obtain ⟨a', hextends, hamid⟩ := h
  have hencloses : ∀ q, q ∈ (since.disk.tree p).1.dirs ∨ q ∈ (since.disk.tree p).1.files → m.root.Encloses q := by
    intro q hq
    exact (Disk.encloses_of_mem_tree hamid.tidy.proper hp (htree ▸ hq)).1
  rw [Desk.trackDir, wp_bind]
  refine wp_imp (hamid.tree htree) (fun tree d₁ hd₁ => ?_) fun _ _ he => he
  obtain ⟨h₁, rfl⟩ := hd₁
  generalize (since.disk.tree p).1 = tree at *
  rw [wp_bind]
  refine wp_imp (wp_forM (fun _ => Taking m since a []) ⟨a', hextends, h₁⟩ fun done x rest d₂ hxs h₂ => ?_)
    (fun _ d₂ h₂ => ?_) fun _ _ he => he
  · exact h₂.adoptDir (hencloses x (.inl (by simp [hxs])))
  · rw [wp_bind]
    refine wp_imp (wp_forM (Taking m since a) h₂ fun done x rest d₃ hxs h₃ => ?_) (fun _ d₃ h₃ => ?_) fun _ _ he => he
    · exact h₃.adoptFile checks htotal (hencloses x (.inr (by simp [hxs])))
    · refine (wp_ite _ _).mpr ⟨fun _ => ?_, fun _ => (wp_pure _).mpr h₃⟩
      obtain ⟨a'', hextends', h₃⟩ := h₃
      refine wp_imp (((amid_calm _ _ _ _).compile_keeps checks (amid_records _ _ _ _)).unbroken (compile_ends checks) h₃)
        (fun _ _ h₄ => ⟨a'', hextends', h₄⟩) fun _ _ he => he

/-! ### What is left of a creation -/

/-- Nothing at or below a path has a document, is tracked, or has a copy. -/
structure Lacks (m : Premises) (p : Path) (d : Desk) : Prop where
  documents : ∀ q, q.startsWith p = true → d.shared.store.contains q = false
  tracked : ∀ q, q.startsWith p = true → d.workspace.tracks q = false
  copies : ∀ r, m.names p <+: r → m.site.entry d.shared.disk r = none

theorem Lacks.closed (h : d.Lacks m p) (hq : q.startsWith p = true) : d.shared.store.isOpen q = false := by
  rw [Bool.eq_false_iff]
  intro hopen
  have hin := h.documents q hq
  rw [Store.contains_of_isOpen hopen] at hin
  cases hin

end Handling

/-- What a creation leaves: at and below the path the files are tracked, and have documents, that
    the tree of the root lists; and unless something has failed, the replica has there what a
    replication of the same tree puts into a replica that had nothing there. -/
structure Received (m : Premises) (p : Path) (d d' : Desk) : Prop where
  tracks : ∀ q, q.startsWith p = true →
    (d'.workspace.tracks q = true ↔ ∃ r ∈ (d.shared.disk.tree m.root).1.files, r.same q = true)
  known : ∀ q, q.startsWith p = true →
    (d'.shared.store.contains q = true ↔ ∃ r ∈ (d.shared.disk.tree m.root).1.files, r.same q = true)
  replica : m.Detached d.shared.disk m.root → d'.shared.failures = d.shared.failures →
    ∀ disk, m.site.Kempt d.shared.disk disk → (∀ r, m.names p <+: r → m.site.entry disk r = none) →
      ((Replica.mk m.site.dir).replicate m.root disk).failures = 0 →
      m.Resembles p ((Replica.mk m.site.dir).replicate m.root disk).disk d'.shared.disk

variable (checks : Checkers)

end Desk

/-! ### Creations in a small project -/

/-- A disk without what is in some zone. -/
def Disk.without (d : Disk) (zone : Location) : Disk :=
  { d with entries := d.entries.filter fun x => !zone.isPrefixOf x.1 }

namespace Solo

end Solo

end LiveWorkspace
