/-
  LiveWorkspace/Disk/Change.lean
  ==============================
  **Operations that change the disk.**

  Each operation either changes the disk or says why it could not.  The larger ones,
  such as making a directory with all that is missing above it, may have done a part
  of their work when they fail; a failure therefore leaves the disk as it is then.
-/
import LiveWorkspace.Disk.Resolve

namespace LiveWorkspace

/-- An operation on the disk. -/
abbrev DiskOp (α : Type) := EStateM OsError Disk α

namespace DiskOp

/-- Look at the disk. -/
def ask {α : Type} (f : Disk → Except OsError α) : DiskOp α := fun d =>
  match f d with
  | .ok a => .ok a d
  | .error err => .error err d

/-- Change the disk at once. -/
def change (f : Disk → Except OsError Disk) : DiskOp Unit := fun d =>
  match f d with
  | .ok d' => .ok () d'
  | .error err => .error err d

end DiskOp

namespace Disk

/-! ### Files -/

/-- The location at which a path may have a file, with the mode of the one there. A
    path that ends in a separator cannot have one. -/
def fileSlot (d : Disk) (p : Path) : Except OsError (Location × Option Nat) :=
  if p.endsInSeparator then (d.slot p).bind fun _ => .error .isDirectory
  else match d.resolve p with
    | .ok (.present loc (.file _ mode)) => .ok (loc, some mode)
    | .ok (.present ..) => .error .isDirectory
    | .ok (.absent dir name) => .ok (dir ++ [name], none)
    | .error err => .error err

/-- The location at which a path may have a new entry. -/
def freeSlot (d : Disk) (p : Path) : Except OsError Location := do
  let slot ← d.slot p
  match slot.name with
  | none => .error .alreadyExists
  | some name =>
    match ← d.entryAt slot.dir name with
    | none => .ok (slot.dir ++ [.text name])
    | some _ => .error .alreadyExists

/-- Write a file, a new one if need be. An old one keeps its mode. -/
def write (p : Path) (content : Text.Bytes) : DiskOp Unit :=
  DiskOp.change fun d => (d.fileSlot p).map fun (loc, mode) =>
    d.insert loc (.file content (mode.getD newFileMode))

/-- Copy a file with its mode. The target is emptied before anything is read, so that a
    file that is copied onto itself loses what it holds. -/
def copy (source target : Path) : DiskOp Unit :=
  DiskOp.change fun d =>
    match d.stat source with
    | .ok (found, .file content mode) =>
      (d.fileSlot target).map fun (loc, _) => d.insert loc (.file (if loc = found then [] else content) mode)
    | .ok _ => .error .notRegular
    | .error err => .error err

/-- Set the mode of the entry that a path leads to. -/
def setMode (p : Path) (mode : Nat) : DiskOp Unit :=
  DiskOp.change fun d => (d.stat p).map fun (loc, e) => d.insert loc (e.withMode mode)

/-- Make a symbolic link where nothing is. -/
def makeLink (target p : Path) : DiskOp Unit :=
  DiskOp.change fun d => do
    let loc ← d.freeSlot p
    if p.endsInSeparator then .error .notFound else .ok (d.insert loc (.link target))

/-- Remove a file or a link. -/
def removeFile (p : Path) : DiskOp Unit :=
  DiskOp.change fun d => do
    let slot ← d.slot p
    match slot.name with
    | none => .error .isDirectory
    | some name =>
      match ← d.entryAt slot.dir name with
      | none => .error .notFound
      | some (.directory _) => .error .isDirectory
      | some _ =>
        if p.endsInSeparator then .error .notDirectory else .ok (d.erase (slot.dir ++ [.text name]))

/-! ### Directories -/

/-- Make a directory where nothing is. -/
def makeDir (p : Path) (mode : Nat := newDirectoryMode) : DiskOp Unit :=
  DiskOp.change fun d => (d.freeSlot p).map fun loc => d.insert loc (.directory mode)

/-- Take a failure to make a directory as success where one is found. -/
def orDirectory (p : Path) (act : DiskOp Unit) : DiskOp Unit := fun d =>
  match act d with
  | .ok a d' => .ok a d'
  | .error err d' => if d'.hasDirectory p then .ok () d' else .error err d'

/-- Make a directory and what is missing above it; `depth` bounds the number of
    directories on the way. -/
def makeDirsWithin : (depth : Nat) → Path → DiskOp Unit
  | 0, p => orDirectory p (makeDir p)
  | depth + 1, p => fun d =>
    match (makeDir p : DiskOp Unit) d with
    | .ok a d' => .ok a d'
    | .error .notFound d' =>
      match p.parent? with
      | none => .error .notFound d'
      | some parent =>
        match (if parent.spelling.isEmpty then pure () else makeDirsWithin depth parent) d' with
        | .ok _ d' => orDirectory p (makeDir p) d'
        | .error err d' => .error err d'
    | .error err d' => if d'.hasDirectory p then .ok () d' else .error err d'

/-- Make a directory and what is missing above it. The empty path names the directory
    one is in. -/
def makeDirs (p : Path) : DiskOp Unit :=
  if p.spelling.isEmpty then pure () else makeDirsWithin p.components.length p

/-- Remove an empty directory. It needs a name: neither `.` nor `..` can be removed. -/
def removeDir (p : Path) : DiskOp Unit :=
  DiskOp.change fun d => do
    let slot ← d.slot p
    match slot.name with
    | none =>
      .error <| match p.names.getLast? with
        | some "." => .invalidArgument
        | some _ => .notEmpty
        | none => .busy
    | some name =>
      let loc := slot.dir ++ [.text name]
      match ← d.entryAt slot.dir name with
      | none => .error .notFound
      | some (.directory _) => if (d.below loc).isEmpty then .ok (d.erase loc) else .error .notEmpty
      | some _ => .error .notDirectory

/-- Remove a directory with all below it; of a link only the link. What lies below goes
    first. If the path leads nowhere after that, it is removed. -/
def removeTree (p : Path) : DiskOp Unit := fun d =>
  match d.stat p false with
  | .error err => .error err d
  | .ok (_, .link _) => removeFile p d
  | .ok (_, .file ..) => .error .notDirectory d
  | .ok (loc, .directory _) =>
    match removeDir p (d.eraseBelow loc) with
    | .error .notFound d' => .ok () d'
    | r => r

/-! ### Renaming -/

/-- Whether an entry may take the place of what is at a target. -/
def mayReplace (d : Disk) (e : Entry) (target : Location) : Except OsError Unit :=
  match d.get? target with
  | none => .ok ()
  | some old =>
    match e.isDirectory, old.isDirectory with
    | true, false => .error .notDirectory
    | false, true => .error .isDirectory
    | true, true => if (d.below target).isEmpty then .ok () else .error .notEmpty
    | false, false => .ok ()

/-- Give an entry another path. It replaces a file, or a directory that is empty, and
    never moves into itself. -/
def rename (source target : Path) : DiskOp Unit :=
  DiskOp.change fun d => do
    let a ← d.slot source
    let b ← d.slot target
    match a.name, b.name with
    | some x, some y =>
      let old := a.dir ++ [.text x]
      let new := b.dir ++ [.text y]
      match ← d.entryAt a.dir x with
      | none => .error .notFound
      | some e =>
        let _ ← d.entryAt b.dir y
        if ¬ e.isDirectory ∧ (source.endsInSeparator ∨ target.endsInSeparator) then
          .error .notDirectory
        else if old = new then .ok d
        else if old.isPrefixOf new then .error .invalidArgument
        else if new.isPrefixOf old then .error .notEmpty
        else (d.mayReplace e new).map fun _ => d.move old new
    | _, _ => .error .busy

end Disk

end LiveWorkspace
