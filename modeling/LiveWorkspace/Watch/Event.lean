/-
  LiveWorkspace/Watch/Event.lean
  ==============================
  **Changes on the disk, as they are told and as they are handled.**

  The operating system tells of a change with a kind and some paths.  Handlers know
  three kinds of event, each about one path: something was created, written or
  removed.  A rename that is told in one piece becomes a creation that remembers where
  the entry came from; one that is told in two halves becomes a removal and a creation.
-/
import LiveWorkspace.Path

namespace LiveWorkspace.Watch

/-! ### Events -/

inductive Kind where
  | created
  | written
  | removed
deriving DecidableEq, Repr

/-- A change of one path. A created entry may have come from another path. -/
structure Event where
  kind : Kind
  path : Path
  source : Option Path := none
deriving DecidableEq, Repr

def Event.created (p : Path) : Event := ⟨.created, p, none⟩
def Event.written (p : Path) : Event := ⟨.written, p, none⟩
def Event.removed (p : Path) : Event := ⟨.removed, p, none⟩
def Event.renamed (source target : Path) : Event := ⟨.created, target, some source⟩

/-! ### What the operating system tells -/

/-- Which end of a rename is told of. -/
inductive RenameEnd where
  | old
  | new
  | both
deriving DecidableEq, Repr

/-- The kind of a change as it is told. Changes of content and changes that are not
    told more closely are both modifications. -/
inductive Change where
  | creation
  | removal
  | rename (told : RenameEnd)
  | attributes
  | modification
  | other
deriving DecidableEq, Repr

/-- The events that a change of some paths amounts to. -/
def Change.events (c : Change) (paths : List Path) : List Event :=
  match c with
  | .creation | .rename .new => paths.map Event.created
  | .removal | .rename .old => paths.map Event.removed
  | .modification => paths.map Event.written
  | .rename .both =>
    match paths with
    | [source, target] => [Event.renamed source target]
    | _ => []
  | .attributes | .other => []

end LiveWorkspace.Watch
