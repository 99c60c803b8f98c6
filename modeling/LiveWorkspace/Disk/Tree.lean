/-
  LiveWorkspace/Disk/Tree.lean
  ============================
  **All files and directories below a path.**

  A tree is listed without any exceptions for hidden or ignored names.  Directories
  and files are told apart as one sees them, through links, but no linked directory is
  entered; only the path one starts from may itself be a link.  Both lists come in the
  order of paths, which puts every directory before what it holds.
-/
import LiveWorkspace.Disk.Resolve
import LiveWorkspace.Log

namespace LiveWorkspace

/-- The directories and the files of a tree. -/
structure Tree where
  dirs : List Path
  files : List Path
deriving DecidableEq, Repr

namespace Disk

/-- The path of what lies some names below a path, when all of them are text. -/
def descend? (p : Path) (names : Location) : Option Path :=
  (names.mapM Name.text?).map fun ns => ns.foldl Path.child p

/-- The path itself and all below it; `none` for an entry that no path can spell. -/
def pathsFrom (d : Disk) (p : Path) : Except OsError (List (Option Path)) :=
  match d.stat p false with
  | .error err => .error err
  | .ok (_, .link _) =>
    (d.stat p).map fun (loc, e) =>
      some p :: if e.isDirectory then (d.below loc).map fun x => descend? p x.1 else []
  | .ok (loc, _) => .ok (some p :: (d.below loc).map fun x => descend? p x.1)

/-- The tree below a path, and what there is to report about it. -/
def tree (d : Disk) (p : Path) : Tree × List Report :=
  match d.pathsFrom p with
  | .error _ => (⟨[], []⟩, [.warning "Skipping unreadable entry"])
  | .ok found =>
    let paths := found.filterMap id
    let skipped := found.filter Option.isNone
    (⟨Path.sort (paths.filter d.hasDirectory), Path.sort (paths.filter d.hasFile)⟩,
      skipped.map fun _ => .warning "Skipping non UTF-8 path")

end Disk

end LiveWorkspace
