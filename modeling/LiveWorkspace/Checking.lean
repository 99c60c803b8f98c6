/-
  LiveWorkspace/Checking.lean
  ===========================
  **Checking documents and publishing what was found.**

  Two checkers are given from outside: one looks at a document's text, the other
  compiles a file of the replica.  Both report for a document under its URI, and each
  report replaces the one before, so an empty list is a report as well: it takes the
  markers away.

  The workspaces of a session work on one `Shared` state: the disk, the store, and
  the lists of what has been published, compiled, put under watch and reported so far.
  A checker may break down while it looks at a text; what has happened until then
  stays as it is, and the work in hand ends there.
-/
import LiveWorkspace.Workspace.Config
import LiveWorkspace.Document.Store
import LiveWorkspace.Replica

namespace LiveWorkspace

/-! ### The checkers -/

/-- A file to compile: its path, the copy in the replica that is compiled in its place,
    the replica's directory, and the project's configuration. -/
structure CompileRequest where
  path : Path
  replicaPath : Path
  replicaDir : Path
  config : ProjectConfig
deriving DecidableEq, Repr

/-- The checkers. The first may break down, and then has no result; the second is given
    what the file in the replica holds, if it can be read. -/
structure Checkers where
  check : (path : Path) → (content : String) → Option (List String)
  compile : CompileRequest → Option Text.Bytes → List String

/-- A checker broke down. -/
inductive Crash where
  | checker
deriving DecidableEq, Repr

/-! ### The shared state -/

/-- Messages published for a URI. They replace all that were published for it before. -/
structure Publication where
  uri : Uri
  messages : List String
deriving DecidableEq

/-- A compilation, with what the file in the replica held and the text that the path's
    document had then. -/
structure Compilation where
  request : CompileRequest
  input : Option Text.Bytes
  text : String
deriving DecidableEq, Repr

/-- What all workspaces of a session share. Nobody may be listening for publications
    any more. -/
structure Shared where
  disk : Disk
  store : Store := {}
  isHeard : Bool := true
  published : List Publication := []
  compiled : List Compilation := []
  watched : List Path := []
  reports : List Report := []

/-- A piece of work on a state, which a breakdown may cut short. -/
abbrev Act (σ α : Type) := EStateM Crash σ α

namespace Shared

/-! ### Small steps -/

def report (r : Report) : Act Shared Unit :=
  modify fun s => { s with reports := s.reports ++ [r] }

/-- Let an operation change the disk; its failure is a value. -/
def onDisk {ε α : Type} (op : EStateM ε Disk α) : Act Shared (Except ε α) :=
  modifyGet fun s =>
    match op s.disk with
    | .ok a d => (.ok a, { s with disk := d })
    | .error err d => (.error err, { s with disk := d })

/-- The tree below a path. -/
def tree (p : Path) : Act Shared Tree := do
  let (tree, reports) := (← get).disk.tree p
  reports.forM report
  return tree

def publish (uri : Uri) (messages : List String) : Act Shared Unit := do
  if (← get).isHeard then
    modify fun s => { s with published := s.published ++ [⟨uri, messages⟩] }
  else report (.warning "Diagnostics receiver dropped")

/-! ### Documents -/

/-- The text of a file on the disk; one that cannot be read is reported and taken for
    empty. -/
def readText (p : Path) : Act Shared String := do
  match (← get).disk.read p with
  | .ok bytes => return Text.Utf8.decodeLossy bytes
  | .error _ =>
    report (.error "Failed to read file")
    return ""

/-- Enter a document with the text from the disk, unless its path has one. Without a
    URI given, it gets that of its path. -/
def openPath (p root : Path) (byEditor : Bool) (uri : Option Uri) (replica : Path) :
    Act Shared Bool := do
  if (← get).store.contains p then return false
  let content ← readText p
  let doc : Document :=
    { path := p
      relative := p.relativeTo root
      replica := replica
      uri := uri <|> p.toUri?
      content := content
      isOpen := byEditor
      hasErrors := false }
  modify fun s => { s with store := s.store.insert doc }
  return true

/-- Enter the document of a URI, when that names a file. -/
def openUri (uri : Uri) (root : Path) (byEditor : Bool) (replica : Path) : Act Shared Bool := do
  match uri.toPath? with
  | some p => openPath p root byEditor (some uri) replica
  | none =>
    report (.error "Cannot open non-file URI")
    return false

/-- Change a document. -/
def revise (p : Path) (r : Revision) : Act Shared (Except StoreError Unit) := do
  match (← get).store.revise? p r with
  | .ok store =>
    modify fun s => { s with store := store }
    return .ok ()
  | .error err =>
    report (.error s!"Cannot {r.verb} file not in file store")
    return .error err

/-- Take the text from the disk over the editor's. -/
def reload (p : Path) : Act Shared (Except StoreError Unit) := do
  let content ← readText p
  revise p (.reload content)

/-- Drop the document of a path, and give it back. -/
def dropDocument (p : Path) : Act Shared (Option Document) := do
  let doc := (← get).store.get? p
  modify fun s => { s with store := s.store.erase p }
  return doc

/-! ### Diagnostics -/

/-- Look for errors in a document of the compiler's language, note the outcome and
    publish it. Says whether the path has such a document. -/
def check (checks : Checkers) (p : Path) : Act Shared Bool := do
  match (← get).store.get? p with
  | none => return false
  | some doc =>
    if !doc.kind.isFaust then return false
    match checks.check p doc.content with
    | none => throw .checker
    | some messages =>
      match ← revise p (.markErrors !messages.isEmpty) with
      | .error _ => return false
      | .ok _ =>
        match doc.uri with
        | some uri => publish uri messages
        | none => pure ()
        return true

/-- Compile one file of a project, when it has a document without errors, and publish
    the outcome. -/
def compileFile (checks : Checkers) (replicaDir : Path) (config : ProjectConfig) (p : Path) :
    Act Shared Unit := do
  match (← get).store.get? p with
  | none => pure ()
  | some doc =>
    if doc.hasErrors then return
    let request : CompileRequest := ⟨p, doc.replica, replicaDir, config⟩
    let input := ((← get).disk.read doc.replica).toOption
    modify fun s => { s with compiled := s.compiled ++ [⟨request, input, doc.content⟩] }
    match doc.uri with
    | some uri => publish uri (checks.compile request input)
    | none => pure ()

/-- Compile the files of a project that its configuration names, if it wants that. -/
def compile (checks : Checkers) (root replicaDir : Path) (config : ProjectConfig) : Act Shared Unit := do
  if config.compilerDiagnostics then
    (config.processPaths root).forM (compileFile checks replicaDir config)

/-- Take away the markers of a document that has been dropped. -/
def clear (doc : Document) : Act Shared Unit := do
  if doc.kind.isFaust then
    match doc.uri with
    | some uri => publish uri []
    | none => pure ()

end Shared

end LiveWorkspace
