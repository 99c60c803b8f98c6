/-
  LiveWorkspace/Session/Opening.lean
  ==================================
  **Starting and ending a session, and opening workspaces in it.**

  A session starts with settings, an encoding and a directory of its own for its
  replicas.  Workspaces are opened one at a time, each at its resolved root, and no
  root twice.  An editor starts a session with a list of folders; when one of them
  cannot be opened there is no session, and nothing of it is left on the disk.
-/
import LiveWorkspace.Session.Basic

namespace LiveWorkspace.Session

/-! ### Settings of a project's directory -/

/-- The names of the files with settings in a project's directory, the less important
    one first. -/
def settingsFiles : List String := [".faustls.toml", "faustls.toml"]

/-- The text of a file with settings: also under its name with the ending once more. -/
def settingsText (d : Disk) (p : Path) : Option String :=
  let found := [p, ⟨p.spelling ++ ".toml"⟩].find? d.hasFile
  (found.bind fun q => (d.read q).toOption).map Text.Utf8.decodeLossy

/-- The settings for a project's directory. -/
def loadSettings (d : Disk) (root : Path) : Option Settings :=
  Settings.ofFiles? (none :: settingsFiles.map fun name => settingsText d (root.child name))

/-! ### Starting and ending -/

/-- What the name of a session's directory begins with. -/
def dirPrefix : String := "faustlsp-"

/-- Where the directory of a session is made if its settings do not say. -/
def systemTemp : Path := ⟨"/tmp"⟩

/-- Start a session: make its directory under a name that is not in use. -/
def start (settings : Settings) (encoding : Text.Encoding) (freshName : String) (s : Shared) :
    Except SessionError Session × Shared :=
  let dir := (settings.replicaDir.getD systemTemp).child (dirPrefix ++ freshName)
  match (Disk.makeDir dir 0o700 : DiskOp Unit) s.disk with
  | .error cause d => (.error (.noReplicaDirectory cause), { s with disk := d })
  | .ok _ d =>
    let s := { s with disk := d, reports := s.reports ++ [.info "Session started"] }
    let own := { s with store := { encoding := encoding }, isHeard := true, published := [] }
    (.ok { settings := settings, replicaRoot := dir, shared := own }, s)

/-- The disk after a session is over: its directory is gone. -/
def discard (ses : Session) : Disk :=
  match Disk.removeTree ses.replicaRoot ses.shared.disk with
  | .ok _ d | .error _ d => d

/-! ### Opening workspaces -/

variable (checks : Checkers)

/-- Open a workspace, and say at which root; it may be open already. -/
def openWorkspace (root : Path) : Act Session (Except SessionError Path) := do
  let ses ← get
  match ses.shared.disk.canonicalize root with
  | .ok resolved =>
    if ses.workspaces.any (·.workspace.root.same resolved) then return .ok resolved
  | .error _ => pure ()
  match ← Workspace.create checks root ses.replicaRoot with
  | .error cause => return .error (.cannotOpen root cause)
  | .ok w =>
    let _ ← Shared.tree w.root
    Shared.report (.info "Workspace opened")
    modify fun ses => { ses with workspaces := ses.workspaces ++ [{ workspace := w }] }
    return .ok w.root

/-- Open workspaces until one fails. -/
def openAll : List Path → Act Session (Except SessionError Unit)
  | [] => return .ok ()
  | root :: rest => do
    match ← openWorkspace checks root with
    | .error err => return .error err
    | .ok _ => openAll rest

/-- Start a session as an editor asks for it: with the encoding agreed on, the settings
    of its first folder, and a workspace for each folder. Folders that are no files are
    passed over. If one cannot be opened, there is no session and nothing of it is
    left. -/
def fromEditor (offered : Option (List String)) (folders : List Uri) (freshName : String) (s : Shared) :
    Except SessionError Session × Shared :=
  let roots := folders.filterMap Uri.toPath?
  let (settings, s) : Settings × Shared :=
    match roots with
    | [] => ({}, s)
    | root :: _ =>
      match loadSettings s.disk root with
      | some settings => (settings, s)
      | none =>
        ({}, { s with reports := s.reports ++ [.warning "Failed to load settings, using defaults"] })
  match start settings (Text.Encoding.negotiate offered) freshName s with
  | (.error err, s) => (.error err, s)
  | (.ok ses, s) =>
    let abandon (ses : Session) : Shared :=
      { s with disk := ses.discard, compiled := ses.shared.compiled, reports := ses.shared.reports }
    match openAll checks roots ses with
    | .ok (.ok _) ses => (.ok ses, s)
    | .ok (.error err) ses => (.error err, abandon ses)
    | .error _ ses => (.error (.loopStopped ses.replicaRoot), abandon ses)

end LiveWorkspace.Session
