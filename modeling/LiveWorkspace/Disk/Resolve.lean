/-
  LiveWorkspace/Disk/Resolve.lean
  ===============================
  **From a spelled path to a location.**

  A path is walked step by step: a name leads down, `..` leads up, a link leads to
  what it names.  Every step has to be taken in a directory.  The walk ends at an entry,
  or at a name that is free in an existing directory, which is where a new file may be
  made.  Links are counted, so that the walk ends also when they lead in a circle.

  Operations that make, remove or rename an entry do not follow the last name of a path.
  They ask for its `Slot`: the directory that is reached, and the name to look up there.
-/
import LiveWorkspace.Disk.Basic

namespace LiveWorkspace

/-! ### Failures -/

/-- Why the operating system refuses an operation. -/
inductive OsError where
  | notFound
  | busy
  | alreadyExists
  | notDirectory
  | isDirectory
  | invalidArgument
  | nameTooLong
  | notEmpty
  | tooManyLinks
  | nulInName
  | notRegular
  | nameNotText
deriving DecidableEq, Repr

def OsError.message : OsError → String
  | .notFound => "No such file or directory (os error 2)"
  | .busy => "Device or resource busy (os error 16)"
  | .alreadyExists => "File exists (os error 17)"
  | .notDirectory => "Not a directory (os error 20)"
  | .isDirectory => "Is a directory (os error 21)"
  | .invalidArgument => "Invalid argument (os error 22)"
  | .nameTooLong => "File name too long (os error 36)"
  | .notEmpty => "Directory not empty (os error 39)"
  | .tooManyLinks => "Too many levels of symbolic links (os error 40)"
  | .nulInName => "file name contained an unexpected NUL byte"
  | .notRegular => "the source path is neither a regular file nor a symlink to a regular file"
  | .nameNotText => "non-UTF-8 path"

/-! ### Steps of a path -/

/-- The names of a path: its pieces between separators, empty ones left out. -/
def Path.names (p : Path) : List String :=
  ((Path.split p.spelling.toList).filter (· ≠ [])).map String.ofList

/-- Whether a path ends in a separator. -/
def Path.endsInSeparator (p : Path) : Bool := p.spelling.toList.getLast? == some '/'

/-- The steps of a path. A separator at the end asks for a directory, as a `.` does. -/
def Path.steps (p : Path) : List String := p.names ++ if p.endsInSeparator then ["."] else []

/-- The greatest number of octets in a name, and in a path. -/
def maxName : Nat := 255

def maxPath : Nat := 4095

/-- What is wrong with the spelling of a path that cannot lead anywhere. -/
def Path.flaw? (p : Path) : Option OsError :=
  if p.spelling.toList.contains '\x00' then some .nulInName
  else if p.spelling.isEmpty then some .notFound
  else if maxPath < p.spelling.utf8ByteSize then some .nameTooLong
  else none

/-- Where a walk ends. -/
inductive Target where
  | present (loc : Location) (e : Entry)
  | absent (parent : Location) (name : Name)
deriving DecidableEq, Repr

namespace Disk

/-- The greatest number of links that a walk follows. -/
def maxLinks : Nat := 40

/-- What a directory has under a name. -/
def entryAt (d : Disk) (dir : Location) (name : String) : Except OsError (Option Entry) :=
  if maxName < name.utf8ByteSize then .error .nameTooLong else .ok (d.get? (dir ++ [.text name]))

/-- Walk some steps from a location. `onLink` goes on from a directory with the target
    of a link and the steps that are left; the last step follows a link only if
    `follow` is set. -/
def walk (d : Disk) (follow : Bool) (onLink : Location → Path → List String → Except OsError Target) :
    Location → List String → Except OsError Target
  | loc, [] =>
    match d.get? loc with
    | some e => .ok (.present loc e)
    | none => .error .notFound
  | loc, step :: rest =>
    match d.get? loc with
    | some (.directory _) =>
      if step = "." then walk d follow onLink loc rest
      else if step = ".." then walk d follow onLink loc.dropLast rest
      else match d.entryAt loc step with
        | .error err => .error err
        | .ok none => if rest.isEmpty then .ok (.absent loc (.text step)) else .error .notFound
        | .ok (some (.link target)) =>
          if rest.isEmpty ∧ follow = false then .ok (.present (loc ++ [.text step]) (.link target))
          else onLink loc target rest
        | .ok (some _) => walk d follow onLink (loc ++ [.text step]) rest
    | some _ => .error .notDirectory
    | none => .error .notFound

/-- Walk some steps from a location and follow at most `links` links. -/
def walkLinks (d : Disk) (follow : Bool) :
    (links : Nat) → Location → List String → Except OsError Target
  | 0 => walk d follow fun _ _ _ => .error .tooManyLinks
  | links + 1 => walk d follow fun loc target rest =>
    walkLinks d follow links (if target.isAbsolute then [] else loc) (target.steps ++ rest)

/-- Walk some of a path's steps, from where the path starts. -/
def walkFrom (d : Disk) (p : Path) (follow : Bool) (steps : List String) : Except OsError Target :=
  match p.flaw? with
  | some err => .error err
  | none => d.walkLinks follow maxLinks (if p.isAbsolute then [] else d.workingDir) steps

/-- Where a path leads. -/
def resolve (d : Disk) (p : Path) (follow : Bool := true) : Except OsError Target :=
  d.walkFrom p follow p.steps

/-- Where the last name of a path is looked up. There is no name to look up in a path
    that ends in `.` or `..`, nor in the root's. -/
structure Slot where
  dir : Location
  name : Option String
deriving DecidableEq, Repr

/-- The slot of a path. The last name itself is not looked at. -/
def slot (d : Disk) (p : Path) : Except OsError Slot :=
  match d.walkFrom p true p.names.dropLast with
  | .error err => .error err
  | .ok (.absent ..) => .error .notFound
  | .ok (.present loc e) =>
    if e.isDirectory then .ok ⟨loc, p.names.getLast?.filter fun n => n ≠ "." ∧ n ≠ ".."⟩
    else .error .notDirectory

/-! ### Questions about a path -/

/-- The entry that a path leads to. -/
def stat (d : Disk) (p : Path) (follow : Bool := true) : Except OsError (Location × Entry) :=
  match d.resolve p follow with
  | .ok (.present loc e) => .ok (loc, e)
  | .ok (.absent ..) => .error .notFound
  | .error err => .error err

def hasPath (d : Disk) (p : Path) : Bool := (d.stat p).toOption.isSome

def hasDirectory (d : Disk) (p : Path) : Bool := (d.stat p).toOption.any (·.2.isDirectory)

def hasFile (d : Disk) (p : Path) : Bool := (d.stat p).toOption.any (·.2.isFile)

/-- The permission bits of the entry that a path leads to. -/
def modeOf (d : Disk) (p : Path) : Except OsError Nat := (d.stat p).map (·.2.mode)

/-- The octets of the file that a path leads to. -/
def read (d : Disk) (p : Path) : Except OsError Text.Bytes :=
  match d.stat p with
  | .ok (_, .file content _) => .ok content
  | .ok _ => .error .isDirectory
  | .error err => .error err

/-- The absolute path that spells a location. -/
def spell? (loc : Location) : Option Path :=
  (loc.mapM Name.text?).map fun names => ⟨"/" ++ String.intercalate "/" names⟩

/-- The absolute path of what a path leads to, without links and dots. -/
def canonicalize (d : Disk) (p : Path) : Except OsError Path :=
  (d.stat p).bind fun x =>
    match spell? x.1 with
    | some q => .ok q
    | none => .error .nameNotText

end Disk

end LiveWorkspace
