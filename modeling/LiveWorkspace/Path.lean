/-
  LiveWorkspace/Path.lean
  =======================
  **Paths: a spelling and the components it means.**

  A path is kept as it was spelled, because spellings are shown to the user and
  become part of URIs.  What a path *means* is its list of components: repeated
  separators, a trailing separator and inner `.` pieces are no components, `..` is
  one that nothing resolves.  Equality, order and the prefix relation of paths are
  those of their components (`Path.same`, `Path.compare`, `Path.startsWith`), and
  every function that shortens a path cuts its spelling at a component.
-/

namespace LiveWorkspace

/-! ### Spellings and pieces -/

/-- A path as it was spelled. -/
structure Path where
  spelling : String
deriving DecidableEq, Repr, Inhabited

namespace Path

/-- The pieces of a spelling between separators; there is always one. -/
def split : List Char → List (List Char)
  | [] => [[]]
  | c :: rest =>
    if c = '/' then [] :: split rest
    else match split rest with
      | [] => [[c]]
      | piece :: pieces => (c :: piece) :: pieces

/-- Pieces put together again, with separators between them. -/
def unsplit : List (List Char) → List Char
  | [] => []
  | [piece] => piece
  | piece :: pieces => piece ++ '/' :: unsplit pieces

theorem split_ne_nil (cs : List Char) : split cs ≠ [] := by
  cases cs with
  | nil => simp [split]
  | cons c rest =>
    simp only [split]
    split
    · simp
    · split <;> simp

theorem unsplit_split (cs : List Char) : unsplit (split cs) = cs := by
  induction cs with
  | nil => rfl
  | cons c rest ih =>
    rw [split]
    split
    · rename_i h
      subst h
      cases hs : split rest with
      | nil => exact absurd hs (split_ne_nil rest)
      | cons piece pieces => simp only [unsplit, List.nil_append, ← hs, ih]
    · cases hs : split rest with
      | nil => exact absurd hs (split_ne_nil rest)
      | cons piece pieces =>
        rw [hs] at ih
        cases pieces with
        | nil => simp only [unsplit] at ih ⊢; rw [ih]
        | cons next more => simp only [unsplit, List.cons_append] at ih ⊢; rw [ih]

/-! ### Components -/

/-- A step of a path: the root, a leading `.`, a `..`, or a name. -/
inductive Component where
  | root
  | here
  | up
  | name (text : String)
deriving DecidableEq, Repr

/-- The component that a piece behind the first one stands for, if any. -/
def Component.ofPiece? (piece : List Char) : Option Component :=
  if piece = [] ∨ piece = ['.'] then none
  else if piece = ['.', '.'] then some .up
  else some (.name (String.ofList piece))

/-- The rank of a component's kind in the order of components. -/
def Component.rank : Component → Nat
  | .root => 0
  | .here => 1
  | .up => 2
  | .name _ => 3

/-- Components are ordered by kind, names among each other by their characters. -/
def Component.compare : Component → Component → Ordering
  | .name a, .name b => Ord.compare a b
  | a, b => Ord.compare a.rank b.rank

/-- A piece of a spelling with the component that it stands for, if any. -/
structure Piece where
  text : List Char
  component : Option Component
deriving DecidableEq, Repr

/-- The pieces of a path. An empty first piece is the root when a separator follows
    it, and a first `.` is kept. -/
def pieces (p : Path) : List Piece :=
  match split p.spelling.toList with
  | [] => []
  | first :: rest =>
    let lead : Option Component :=
      if first = [] then (if rest.isEmpty then none else some .root)
      else if first = ['.'] then some .here
      else Component.ofPiece? first
    ⟨first, lead⟩ :: rest.map fun piece => ⟨piece, Component.ofPiece? piece⟩

/-- What a path means. -/
def components (p : Path) : List Component := p.pieces.filterMap (·.component)

/-- The path spelled by some pieces. The root alone is spelled with its separator. -/
def ofPieces : List Piece → Path
  | [] => ⟨""⟩
  | [piece] => if piece.component = some .root then ⟨"/"⟩ else ⟨String.ofList piece.text⟩
  | ps => ⟨String.ofList (unsplit (ps.map (·.text)))⟩

/-! ### Comparison by components -/

/-- Two spellings of one path. -/
def same (p q : Path) : Bool := p.components == q.components

/-- The order of paths. -/
def compare (p q : Path) : Ordering := List.compareLex Component.compare p.components q.components

def le (p q : Path) : Bool := (p.compare q).isLE

/-- Whether `p` is `base` or lies below it. -/
def startsWith (p base : Path) : Bool := base.components.isPrefixOf p.components

theorem same_iff {p q : Path} : p.same q = true ↔ p.components = q.components := by
  simp only [same, beq_iff_eq]

theorem same_refl (p : Path) : p.same p = true := same_iff.mpr rfl

theorem same_comm (p q : Path) : p.same q = q.same p := by
  simp only [same, Bool.beq_comm]

/-- Spellings of one path are the same as the same paths. -/
theorem same_congr {p q : Path} (h : p.same q = true) (r : Path) : p.same r = q.same r := by
  simp only [same, same_iff.mp h]

theorem startsWith_iff {p base : Path} :
    p.startsWith base = true ↔ ∃ rest, base.components ++ rest = p.components := by
  simp only [startsWith, List.isPrefixOf_iff_prefix]; rfl

theorem startsWith_refl (p : Path) : p.startsWith p = true := startsWith_iff.mpr ⟨[], by simp⟩

theorem startsWith_trans {p q r : Path} (hpq : p.startsWith q = true) (hqr : q.startsWith r = true) :
    p.startsWith r = true := by
  obtain ⟨a, ha⟩ := startsWith_iff.mp hpq
  obtain ⟨b, hb⟩ := startsWith_iff.mp hqr
  exact startsWith_iff.mpr ⟨b ++ a, by rw [← List.append_assoc, hb, ha]⟩

/-- A path put into a list that is in order, before the first that it does not follow. -/
def insertInOrder (p : Path) : List Path → List Path
  | [] => [p]
  | q :: rest => if p.le q then p :: q :: rest else q :: insertInOrder p rest

/-- Paths in their order. -/
def sort : List Path → List Path
  | [] => []
  | p :: rest => insertInOrder p (sort rest)

/-! ### Parts of a path -/

def isAbsolute (p : Path) : Bool := p.spelling.toList.head? == some '/'

/-- The last component, when it is a name. -/
def fileName? (p : Path) : Option String :=
  match p.components.getLast? with
  | some (.name text) => some text
  | _ => none

/-- What follows the last dot of the file name, when something precedes that dot. -/
def extension? (p : Path) : Option String :=
  p.fileName?.bind fun name =>
    let after := (name.toList.reverse.takeWhile (· ≠ '.')).reverse
    if after.length + 1 < name.toList.length ∧ name.toList ≠ ['.', '.'] then some (String.ofList after)
    else none

/-- Pieces without those that mean nothing at the end. -/
def trimEnd (ps : List Piece) : List Piece :=
  (ps.reverse.dropWhile (·.component.isNone)).reverse

/-- The path without its last component. The root and the empty path have none. -/
def parent? (p : Path) : Option Path :=
  match p.components.getLast? with
  | none | some .root => none
  | some _ => some (ofPieces (trimEnd (trimEnd p.pieces).dropLast))

/-- What is left of some pieces behind their first `n` components. -/
def dropComponents : (n : Nat) → List Piece → List Piece
  | 0, ps => ps
  | _ + 1, [] => []
  | n + 1, piece :: ps => dropComponents (if piece.component.isSome then n else n + 1) ps

/-- The part of `p` below `root`. It is empty when `p` is the root itself, does not
    lie below it, or when `root` is spelled by nothing. -/
def relativeTo (p root : Path) : Path :=
  if root.spelling.isEmpty ∨ ¬ p.startsWith root then ⟨""⟩
  else
    let rest := dropComponents root.components.length p.pieces
    ofPieces (trimEnd (rest.dropWhile (·.component.isNone)))

/-- The path `q` seen from `p`; an absolute `q` stands for itself. -/
def join (p q : Path) : Path :=
  if q.isAbsolute then q
  else if p.spelling.isEmpty ∨ p.spelling.toList.getLast? = some '/' then ⟨p.spelling ++ q.spelling⟩
  else ⟨p.spelling ++ "/" ++ q.spelling⟩

/-- The entry `name` of the directory `p`. -/
def child (p : Path) (name : String) : Path := p.join ⟨name⟩

end Path

end LiveWorkspace
