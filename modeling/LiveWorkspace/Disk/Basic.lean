/-
  LiveWorkspace/Disk/Basic.lean
  =============================
  **The disk: files, directories and symbolic links at locations.**

  A *location* is the list of names that leads from the root to an entry, without
  links, `.` or `..`; each entry has exactly one.  The disk is a finite map from
  locations to entries, so that a subtree is all that lies below a location and moving
  or erasing one touches nothing else.  How a spelled path leads to a location is the
  subject of `LiveWorkspace.Disk.Resolve`.
-/
import LiveWorkspace.Text.Utf8
import LiveWorkspace.Path

namespace LiveWorkspace

/-! ### Names and locations -/

/-- The name of an entry in its directory. Almost every name is text; one that is not
    UTF-8 is kept as octets, and no path can spell it. -/
inductive Name where
  | text (s : String)
  | octets (raw : Text.Bytes)
deriving DecidableEq, Repr

namespace Name

def ofBytes (raw : Text.Bytes) : Name :=
  match Text.Utf8.decode? raw with
  | some s => .text s
  | none => .octets raw

def bytes : Name → Text.Bytes
  | .text s => Text.Utf8.encode s
  | .octets raw => raw

def text? : Name → Option String
  | .text s => some s
  | .octets _ => none

end Name

/-- Where an entry is: the names from the root to it. -/
abbrev Location := List Name

/-! ### Entries -/

/-- What is found at a location. A mode holds the permission bits. -/
inductive Entry where
  | file (content : Text.Bytes) (mode : Nat)
  | directory (mode : Nat)
  | link (target : Path)
deriving DecidableEq, Repr

namespace Entry

def isDirectory : Entry → Bool
  | .directory _ => true
  | _ => false

def isFile : Entry → Bool
  | .file .. => true
  | _ => false

/-- The permission bits; those of a link are never asked for. -/
def mode : Entry → Nat
  | .file _ m => m
  | .directory m => m
  | .link _ => 0o777

def withMode (m : Nat) : Entry → Entry
  | .file content _ => .file content m
  | .directory _ => .directory m
  | .link target => .link target

end Entry

/-- The permission bits of new files and directories. -/
def newFileMode : Nat := 0o644

def newDirectoryMode : Nat := 0o755

/-! ### The disk -/

/-- All entries with their locations, and the location that relative paths start from. -/
structure Disk where
  entries : List (Location × Entry)
  workingDir : Location := []
deriving Repr

namespace Disk

/-- A disk with an empty root directory. -/
def blank : Disk := ⟨[([], .directory newDirectoryMode)], []⟩

def get? (d : Disk) (loc : Location) : Option Entry := (d.entries.find? (·.1 == loc)).map (·.2)

/-- Put an entry at a location, over what was there. -/
def insert (d : Disk) (loc : Location) (e : Entry) : Disk :=
  { d with entries := (loc, e) :: d.entries.filter (·.1 != loc) }

/-- The disk without a location and all below it. -/
def erase (d : Disk) (loc : Location) : Disk :=
  { d with entries := d.entries.filter fun x => !loc.isPrefixOf x.1 }

/-- The disk without what lies below a location. -/
def eraseBelow (d : Disk) (loc : Location) : Disk :=
  { d with entries := d.entries.filter fun x => x.1 == loc || !loc.isPrefixOf x.1 }

/-- The disk with a location and all below it moved elsewhere, over what was there. -/
def move (d : Disk) (source target : Location) : Disk :=
  let moved := d.entries.filter fun x => source.isPrefixOf x.1
  let kept := d.entries.filter fun x => !source.isPrefixOf x.1 && !target.isPrefixOf x.1
  { d with entries := kept ++ moved.map fun x => (target ++ x.1.drop source.length, x.2) }

/-- All below a location, with the names from there on. -/
def below (d : Disk) (loc : Location) : List (Location × Entry) :=
  (d.entries.filter fun x => loc.isPrefixOf x.1 && x.1 != loc).map fun x =>
    (x.1.drop loc.length, x.2)

theorem get?_insert_self (d : Disk) (loc : Location) (e : Entry) :
    (d.insert loc e).get? loc = some e := by
  simp [get?, insert]

theorem get?_insert_of_ne (d : Disk) {loc other : Location} (e : Entry) (h : other ≠ loc) :
    (d.insert loc e).get? other = d.get? other := by
  have hl : (loc == other) = false := by simp [Ne.symm h]
  simp only [get?, insert, List.find?_cons, hl, List.find?_filter]
  congr 2
  funext x
  by_cases hx : x.1 = other
  · simp [hx, h]
  · simp [hx]

theorem get?_erase_of_prefix (d : Disk) {loc other : Location} (h : loc <+: other) :
    (d.erase loc).get? other = none := by
  simp only [get?, erase, Option.map_eq_none_iff, List.find?_eq_none, List.mem_filter]
  rintro x ⟨_, hx⟩ he
  rw [beq_iff_eq] at he
  rw [he, List.isPrefixOf_iff_prefix.mpr h] at hx
  simp at hx

theorem get?_erase_of_not_prefix (d : Disk) {loc other : Location} (h : ¬ loc <+: other) :
    (d.erase loc).get? other = d.get? other := by
  simp only [get?, erase, List.find?_filter]
  congr 2
  funext x
  by_cases hx : x.1 = other
  · have hn : loc.isPrefixOf other = false := by
      rw [Bool.eq_false_iff]
      exact fun hp => h (List.isPrefixOf_iff_prefix.mp hp)
    simp [hx, hn]
  · simp [hx]

end Disk

end LiveWorkspace
