/-
  LiveWorkspace/Replica.lean
  ==========================
  **The replica: a private copy of a workspace on the disk.**

  A compiler reads the replica in place of the workspace, so that it sees the text that
  editors hold.  The replica has a directory of its own and knows nothing of documents:
  its operations take paths below that directory.  Each fails with the path it was
  working on; one that works on many entries goes on after a failure and counts.
-/
import LiveWorkspace.Disk.Change
import LiveWorkspace.Disk.Tree

namespace LiveWorkspace

/-! ### Failures -/

/-- What the replica was doing to which path when the operating system refused. -/
structure ReplicaError where
  action : String
  path : Path
  cause : OsError
deriving DecidableEq, Repr

def ReplicaError.message (err : ReplicaError) : String :=
  s!"failed to {err.action} {err.path.spelling}: {err.cause.message}"

/-- An operation on the replica. -/
abbrev ReplicaOp (α : Type) := EStateM ReplicaError Disk α

/-- An operation on the disk, as an action of the replica on a path. -/
def DiskOp.as {α : Type} (op : DiskOp α) (action : String) (p : Path) : ReplicaOp α := fun d =>
  match op d with
  | .ok a d' => .ok a d'
  | .error cause d' => .error ⟨action, p, cause⟩ d'

/-! ### Where the replica is -/

/-- A replica, given by its directory. -/
structure Replica where
  dir : Path
deriving DecidableEq, Repr

namespace Replica

/-- The replica of a workspace: named like its root, among the replicas of a session. -/
def ofWorkspace (replicaRoot root : Path) : Replica :=
  ⟨replicaRoot.child (root.fileName?.getD "workspace")⟩

/-- The place of a path that is seen from the workspace's root. -/
def pathOf (m : Replica) (relative : Path) : Path :=
  if relative.spelling.isEmpty then m.dir else m.dir.join relative

/-! ### Single entries -/

/-- The permission bits of an entry outside the replica. -/
def modeOf (p : Path) : ReplicaOp Nat := (DiskOp.ask (·.modeOf p)).as "stat" p

def setMode (p : Path) (mode : Nat) : ReplicaOp Unit := (Disk.setMode p mode).as "set permissions on" p

/-- Make the directories above a path. -/
def ensureParent (p : Path) : ReplicaOp Unit := do
  match p.parent? with
  | none => pure ()
  | some parent =>
    if (← get).hasPath parent then pure ()
    else (Disk.makeDirs parent).as "create directory" parent

/-- Make a file, or empty the one there is. -/
def createEmptyFile (p : Path) (mode : Option Nat) : ReplicaOp Unit := do
  (Disk.write p []).as "create" p
  match mode with
  | some m => setMode p m
  | none => pure ()

/-- Make a directory and those above it, and set its mode. It may be there already. -/
def createDir (p : Path) (mode : Nat) : ReplicaOp Unit := do
  (Disk.makeDirs p).as "create directory" p
  setMode p mode

/-- Write a file and make the directories above it. -/
def write (p : Path) (content : Text.Bytes) : ReplicaOp Unit := do
  ensureParent p
  (Disk.write p content).as "write" p

/-- Remove a file or a whole directory. There may be nothing to remove. -/
def remove (p : Path) : ReplicaOp Unit := fun d =>
  let op := if d.hasDirectory p then Disk.removeTree p else Disk.removeFile p
  match op d with
  | .error .notFound d' => .ok () d'
  | _ => op.as "remove" p d

/-- Move an entry and make the directories above its new path. -/
def rename (source target : Path) : ReplicaOp Unit := do
  ensureParent target
  (Disk.rename source target).as "rename" source

/-! ### Whole trees -/

/-- Copy one directory of a tree, without what it holds. -/
def copyDir (m : Replica) (source dir : Path) : ReplicaOp Unit := do
  createDir (m.pathOf (dir.relativeTo source)) (← modeOf dir)

/-- Copy one file of a tree. -/
def copyFile (m : Replica) (source file : Path) : DiskOp Unit :=
  Disk.copy file (m.pathOf (file.relativeTo source))

/-- The disk after a tree was copied, how many entries could not be copied, and what
    there is to report. -/
structure Replication where
  disk : Disk
  failures : Nat
  reports : List Report

/-- Take the outcome of copying one entry into account. -/
def Replication.step {ε : Type} (r : Replication) (op : EStateM ε Disk Unit) (failure : String) :
    Replication :=
  match op r.disk with
  | .ok _ d => { r with disk := d }
  | .error _ d => ⟨d, r.failures + 1, r.reports ++ [.error failure]⟩

/-- Copy the tree below a path into the replica: first all directories, then all files,
    with their modes. -/
def replicate (m : Replica) (source : Path) (d : Disk) : Replication :=
  let (tree, reports) := d.tree source
  let start : Replication := ⟨d, 0, reports⟩
  let withDirs := tree.dirs.foldl
    (fun r dir => r.step (m.copyDir source dir) "Failed to mirror directory") start
  tree.files.foldl (fun r file => r.step (m.copyFile source file) "Failed to mirror file") withDirs

end Replica

end LiveWorkspace
