/-
  LiveWorkspace/Proofs/Workspace/Configured.lean
  ==============================================
  **Which configuration is in force.**

  The configuration is read from a document and from the list of the units that are tracked,
  and is kept until it is read again.  That happens when the loop handles an event for a path
  with the name of a configuration file (`Solo.reads`), so the document counts as it is now
  unless an event for it waits.  The list of units counts as it was then: a unit that comes or
  goes is no reason to read the configuration again, and is compiled, or not, as if nothing had
  happened.
-/
import LiveWorkspace.Proofs.Workspace.Heeding
import LiveWorkspace.Proofs.Workspace.Trailing

namespace LiveWorkspace

theorem ProjectConfig.load_of_names {content : Option String} (h : (ofDocument content).1.asksForUnits = false)
    (units units' : List Path) : load content units = load content units' := by
  simp only [load, withUnits, h, Bool.false_eq_true, if_false]

/-! ### The file that configures a project -/

/-- The configuration's file in a root. -/
abbrev Path.configFile (root : Path) : Path := root.child configFileName

theorem Path.components_configFile (root : Path) :
    root.configFile.components = root.components ++ [.name configFileName] := components_child root (by decide)

theorem Path.isConfigFile_of_same {p root : Path} (h : p.same root.configFile = true) : p.isConfigFile = true := by
  simp [isConfigFile, fileName?, same_iff.mp h, components_configFile]

/-- A path strictly below another one. -/
def Path.StrictlyBelow (root p : Path) : Prop := root.Below p ∧ p.same root = false

/-- Apart from the file itself, nothing strictly below the root has it below. -/
theorem Path.StrictlyBelow.spares {root p : Path} (h : root.StrictlyBelow p) (hother : p.same root.configFile = false) :
    Desk.Throughout (fun q => q.same root.configFile = false) p := by
  intro q hq
  rw [Bool.eq_false_iff]
  intro hsame
  obtain ⟨rest, hrest⟩ := startsWith_iff.mp hq
  obtain ⟨own, hown⟩ := startsWith_iff.mp h.1
  rw [same_iff.mp hsame, components_configFile, ← hown, List.append_assoc] at hrest
  have hone : own ++ rest = [.name configFileName] := List.append_cancel_left hrest
  rcases List.append_eq_singleton_iff.mp hone with ⟨rfl, -⟩ | ⟨rfl, -⟩
  · rw [List.append_nil] at hown
    exact absurd (same_iff.mpr hown.symm) (by simp [h.2])
  · rw [← components_configFile] at hown
    exact absurd (same_iff.mpr hown.symm) (by simp [hother])

namespace Desk

variable (checks : Checkers) {root p : Path} {units : List Path} {d : Desk}

/-- The text of the document that holds the configuration. -/
def configText (d : Desk) : Option String := (d.shared.store.get? d.workspace.configPath).map (·.content)

/-- The configuration in force is what the document's text says, given some units. -/
def Loaded (units : List Path) (d : Desk) : Prop := d.workspace.config = ProjectConfig.load d.configText units

/-- That a workspace has its root bears all that handlers do. -/
theorem rooted_heeds (root : Path) : Heeds checks (fun _ d => d.workspace.root = root) fun _ => True :=
  workspace_heeds checks fun r _ => r = root

/-- The configuration and the text of its document are those of another desk. -/
structure SameConfig (root : Path) (d₀ d : Desk) : Prop where
  rooted : d.workspace.root = root
  config : d.workspace.config = d₀.workspace.config
  text : (d.shared.store.get? root.configFile).map (·.content) = (d₀.shared.store.get? root.configFile).map (·.content)

theorem SameConfig.loaded {d₀ : Desk} (h : SameConfig root d₀ d) (hrooted : d₀.workspace.root = root)
    (hloaded : d₀.Loaded units) : d.Loaded units := by
  simp only [Loaded, configText, Workspace.configPath, hrooted] at hloaded
  rw [Loaded, configText, Workspace.configPath, h.rooted, h.text, h.config]
  exact hloaded

/-- The configuration and its document are left alone by all work on other paths. -/
theorem sameConfig_heeds (root : Path) (d₀ : Desk) :
    Heeds checks (fun _ => SameConfig root d₀) fun q => q.same root.configFile = false where
  aside _ _ _ hd haside :=
    ⟨haside.root.trans hd.rooted, haside.config.trans hd.config, by rw [haside.store]; exact hd.text⟩
  revised _ _ _ _ hd hq hstore := by
    refine { hd with text := ?_ }
    rw [withStore, Store.get?_of_revise? hstore, hq]
    exact hd.text
  entered _ _ hd hq _ _ := by
    refine { hd with text := ?_ }
    rw [withStore, Store.get?_insert_of_not_same _ hq]
    exact hd.text
  erased _ _ _ hd hq := by
    refine { hd with text := ?_ }
    rw [withStore, Store.get?_erase_of_not_same _ hq]
    exact hd.text
  cleared _ _ _ _ hd _ _ := { hd with text := by rw [Shared.told_store]; exact hd.text }
  unowed _ _ _ hd _ := hd
  checked _ _ _ _ _ hd _ _ _ _ := { hd with text := by rw [Shared.told_store]; exact hd.text }
  compiled _ _ _ hd _ _ := ⟨{ hd with }, fun u _ => { hd with text := by rw [Shared.told_store]; exact hd.text }⟩

/-! ### Reading the configuration -/

/-- The workspace has its root, and the disk gives its entries names that a path can spell. -/
structure Placed (root : Path) (d : Desk) : Prop where
  proper : d.shared.disk.Proper
  rooted : d.workspace.root = root

/-- The configuration is what the document says, given the units that are tracked. -/
structure UpToDate (root : Path) (d : Desk) : Prop extends Placed root d where
  loaded : d.Loaded d.workspace.units

theorem loadConfig_loads (root : Path) {E : Crash → Desk → Prop} (hE : ∀ err d, E err d) (hd : d.Placed root) :
    wp loadConfig (fun _ => UpToDate root) E d := by
  rw [loadConfig, wp_bind, wp_get, wp_bind]
  have hreports : ∀ rs : List Report, Preserves (fun d' : Desk => d'.workspace = d.workspace
      ∧ d'.shared.store = d.shared.store ∧ d'.shared.disk = d.shared.disk)
      (rs.forM fun r => (Shared.report r : Act Shared Unit) : Act Desk Unit) := fun rs =>
    Preserves.forM rs fun r _ d' hd' => by
      rw [wp_onShared, Shared.wp_report]
      exact hd'
  refine wp_imp (hreports _ d ⟨rfl, rfl, rfl⟩) (fun _ d' hd' => ?_) fun _ _ _ => hE _ _
  obtain ⟨hworkspace, hstore, hdisk⟩ := hd'
  rw [wp_modify]
  refine ⟨⟨by rw [hdisk]; exact hd.proper, by rw [hworkspace]; exact hd.rooted⟩, ?_⟩
  rw [Loaded, configText, hstore, hworkspace]
  rfl

theorem upToDate_calm (root : Path) (w : Workspace) : Shared.Calm fun s => UpToDate root ⟨s, w⟩ where
  report _ _ h := ⟨⟨h.proper, h.rooted⟩, h.loaded⟩
  publish _ _ h := ⟨⟨h.proper, h.rooted⟩, h.loaded⟩
  mark s p found store h hstore := by
    refine ⟨⟨h.proper, h.rooted⟩, ?_⟩
    have htext : (store.get? w.configPath).map (·.content) = (s.store.get? w.configPath).map (·.content) := by
      rw [Store.get?_of_revise? hstore]
      split
      · cases s.store.get? w.configPath <;> rfl
      · rfl
    rw [Loaded, configText, htext]
    exact h.loaded

theorem compile_upToDate (root : Path) : Preserves (UpToDate root) (compile checks) := by
  rw [compile]
  refine Preserves.get_bind fun d _ => onShared_keeps fun w => ?_
  exact (upToDate_calm root w).compile_keeps checks (fun _ _ _ h _ _ => ⟨⟨h.proper, h.rooted⟩, h.loaded⟩) _ _ _

/-- Once the configuration has been read again, it is what the document says. -/
theorem reloadConfig_loads (hd : d.Placed root) :
    wp (reloadConfig checks) (fun _ => UpToDate root) (fun _ _ => True) d := by
  rw [reloadConfig, diagnoseAll, wp_bind, wp_onShared, Shared.wp_report, wp_bind]
  refine wp_imp (loadConfig_loads root (fun _ _ => trivial) ⟨hd.proper, hd.rooted⟩) (fun _ d' hd' => ?_)
    fun _ _ he => he
  have hkept : Preserves (UpToDate root) (do
      (← get).workspace.files.forM fun p => do let _ ← (Shared.check checks p : Act Shared Bool)
      compile checks) := by
    refine Preserves.get_bind fun d₀ _ => Preserves.bind (Preserves.forM _ fun p _ => ?_) fun _ => ?_
    · exact Preserves.bind (onShared_keeps fun w => (upToDate_calm root w).check_keeps checks p) fun _ => Preserves.pure _
    · exact compile_upToDate checks root
  exact wp_imp (hkept d' hd') (fun _ _ hd => hd) fun _ _ _ => trivial

/-! ### Events -/

/-- An event of the disk is a reason to read the configuration again. -/
def reads (e : Watch.Event) (d : Desk) : Bool :=
  !d.shared.store.isOpen e.path && (e.path.isConfigFile || e.source.any Path.isConfigFile)

theorem onDiskEvent_reads {e : Watch.Event} (hreads : d.reads e = true) (hd : d.Placed root) :
    wp (onDiskEvent checks e) (fun _ => UpToDate root) (fun _ _ => True) d := by
  simp only [reads, Bool.and_eq_true, Bool.not_eq_true'] at hreads
  refine (rooted_heeds checks root).onDiskEvent_heeds (fun _ _ => trivial) (fun _ _ _ _ => trivial) ⟨hd.proper, hd.rooted⟩
    (fun hopen => by simp [hreads.1] at hopen) (fun _ _ _ => trivial) fun d' hd' => ?_
  rw [if_pos hreads.2]
  exact reloadConfig_loads checks ⟨hd'.1, hd'.2⟩

/-- An event of the disk that is no reason to read the configuration again leaves it and its
    document alone. -/
theorem onDiskEvent_keeps_loaded (units : List Path) {e : Watch.Event} (hreads : d.reads e = false)
    (hp : root.StrictlyBelow e.path) (hsource : ∀ source, e.source = some source → root.StrictlyBelow source) (hd : d.Placed root) :
    wp (onDiskEvent checks e) (fun _ d' => d'.Placed root ∧ (d.Loaded units → d'.Loaded units)) (fun _ _ => True) d := by
  cases hopen : d.shared.store.isOpen e.path with
  | true =>
    rw [onDiskEvent, wp_bind, wp_get]
    exact (wp_ite _ _).mpr ⟨fun hclosed => by simp [hopen] at hclosed, fun _ => (wp_pure _).mpr ⟨hd, id⟩⟩
  | false =>
    have hconfig : (e.path.isConfigFile || e.source.any Path.isConfigFile) = false := by simpa [reads, hopen] using hreads
    obtain ⟨hpath, hany⟩ := Bool.or_eq_false_iff.mp hconfig
    have hspares : ∀ q, root.StrictlyBelow q → q.isConfigFile = false →
        Throughout (fun r => r.same root.configFile = false) q := fun q hq hno => hq.spares <| by
      rw [Bool.eq_false_iff]
      exact fun hsame => by simp [Path.isConfigFile_of_same hsame] at hno
    refine (sameConfig_heeds checks root d).onDiskEvent_heeds (hspares _ hp hpath)
      (fun source heq => hspares _ (hsource source heq) (by simpa [heq] using hany)) ⟨hd.proper, ⟨hd.rooted, rfl, rfl⟩⟩
      (fun h => by simp [hopen] at h) (fun _ _ _ => trivial) fun d' hd' => ?_
    rw [hconfig, if_neg (by simp), wp_pure]
    exact ⟨⟨hd'.1, hd'.2.rooted⟩, hd'.2.loaded hd.rooted⟩

end Desk

/-- An event of the editor is a reason to read the configuration again. -/
def EditorEvent.reads : EditorEvent → Bool
  | .opened _ => false
  | .changed p | .closed p => p.isConfigFile

theorem EditorEvent.reads_eq {e : EditorEvent} (h : ∀ p, e ≠ .opened p) : e.reads = e.path.isConfigFile := by
  cases e with
  | opened p => exact absurd rfl (h p)
  | changed p => rfl
  | closed p => rfl

/-- Where the configuration is not read again with an event for its file, a later one waits: the
    event is an opening, which leaves the text to the change behind it. -/
theorem EditorEvent.waits_of_not_reads {e : EditorEvent} {rest : List EditorEvent} {store : Store} {root : Path}
    (htrailed : Trailed store (e :: rest)) (hreads : e.reads = false) (hsame : e.path.same root.configFile = true) :
    Waits rest root.configFile := by
  have hdefers : e.Defers store := by
    cases e with
    | opened p => trivial
    | changed p => exact absurd (Path.isConfigFile_of_same hsame) (Bool.eq_false_iff.mp hreads)
    | closed p => exact absurd (Path.isConfigFile_of_same hsame) (Bool.eq_false_iff.mp hreads)
  obtain ⟨x, hx, hxe⟩ := htrailed.1 hdefers
  exact ⟨x, hx, (Path.same_congr hxe _).trans hsame⟩

namespace Desk

variable (checks : Checkers) {root : Path} {units : List Path} {d : Desk} {e : EditorEvent}

theorem onEditorEvent_reads (hreads : e.reads = true) (hd : d.Placed root) :
    wp (onEditorEvent checks e) (fun outcome d' => outcome = .ok () → d'.UpToDate root) (fun _ _ => True) d := by
  refine (rooted_heeds checks root).onEditorEvent_heeds trivial ⟨hd.proper, hd.rooted⟩ (fun _ _ hok => by cases hok)
    (fun _ _ _ => trivial) (fun p he => ?_) fun hother d' hd' => ?_
  · simp [he, EditorEvent.reads] at hreads
  · rw [if_pos (EditorEvent.reads_eq hother ▸ hreads), wp_bind]
    exact wp_imp (reloadConfig_loads checks ⟨hd'.1, hd'.2⟩) (fun _ _ hd => (wp_pure _).mpr fun _ => hd) fun _ _ he => he

/-- An event of the editor that is no reason to read the configuration again leaves it alone,
    and its document as well, unless it is the one that is opened. -/
theorem onEditorEvent_keeps_loaded (units : List Path) (hreads : e.reads = false) (hd : d.Placed root) :
    wp (onEditorEvent checks e)
      (fun outcome d' => outcome = .ok () → d'.Placed root
        ∧ (e.path.same root.configFile = false → d.Loaded units → d'.Loaded units))
      (fun _ _ => True) d := by
  cases hsame : e.path.same root.configFile with
  | true =>
    have hconfig := Path.isConfigFile_of_same hsame
    refine (rooted_heeds checks root).onEditorEvent_heeds trivial ⟨hd.proper, hd.rooted⟩ (fun _ _ hok => by cases hok)
      (fun _ _ _ => trivial) (fun p he d' hd' _ => ⟨⟨hd'.1, hd'.2⟩, by simp⟩) fun hother => ?_
    simp [EditorEvent.reads_eq hother, hconfig] at hreads
  | false =>
    have hsound : ∀ d', Heeded (fun _ => SameConfig root d) d' → d'.Placed root ∧ (d.Loaded units → d'.Loaded units) :=
      fun d' hd' => ⟨⟨hd'.1, hd'.2.rooted⟩, hd'.2.loaded hd.rooted⟩
    refine (sameConfig_heeds checks root d).onEditorEvent_heeds hsame ⟨hd.proper, ⟨hd.rooted, rfl, rfl⟩⟩
      (fun _ _ hok => by cases hok) (fun _ _ _ => trivial) (fun p _ d' hd' _ => ?_) fun hother d' hd' => ?_
    · exact ⟨(hsound d' hd').1, fun _ => (hsound d' hd').2⟩
    · refine (wp_ite _ _).mpr ⟨fun hconfig => ?_, fun _ => ?_⟩
      · simp [EditorEvent.reads_eq hother, hconfig] at hreads
      · exact (wp_pure _).mpr fun _ => ⟨(hsound d' hd').1, fun _ => (hsound d' hd').2⟩

end Desk

/-! ### Turns -/

namespace Solo

variable (checks : Checkers) {root : Path} {units : List Path} {s : Solo} {turn : Turn}

/-- The configuration is read again in a turn. -/
def reads (s : Solo) : Turn → Bool
  | .handleNext => s.running.queue.head?.any EditorEvent.reads
  | .handleDisk e => s.desk.reads e
  | .call _ | .handleWatchFailure | .disk _ => false

/-- The units that were tracked when the configuration was read the last time, given those of
    the time before the turns. -/
def unitsRead (units : List Path) (s : Solo) : List Turn → List Path
  | [] => units
  | turn :: rest =>
    unitsRead (if s.reads turn then (s.step checks turn).running.workspace.units else units) (s.step checks turn) rest

/-- Events of the disk are for paths strictly below the root, and others give the disk names
    that a path can spell. -/
def Keeps (root : Path) : Turn → Prop
  | .handleDisk e => root.StrictlyBelow e.path ∧ ∀ source, e.source = some source → root.StrictlyBelow source
  | .disk d => d.Proper
  | .call _ | .handleNext | .handleWatchFailure => True

/-- The configuration in force is what its document says, unless an event for that waits. -/
structure Configured (root : Path) (units : List Path) (s : Solo) : Prop where
  placed : s.desk.Placed root
  loaded : ¬ Waits s.running.queue root.configFile → s.desk.Loaded units

theorem afterCall_configured {c : Call} (h : s.Configured root units) (halive : s.running.isAlive = true) :
    (s.afterCall c).Configured root units := by
  obtain ⟨es, hrunning, hes⟩ := s.afterCall_trails (c := c) halive
  have hworkspace : (s.afterCall c).desk.workspace = s.desk.workspace := by
    rw [desk, hrunning]
    rfl
  have hshared : (s.afterCall c).desk.shared = (s.afterCall c).shared := rfl
  refine ⟨⟨?_, ?_⟩, fun hnone => ?_⟩
  · rw [hshared, hes.disk]
    exact h.placed.proper
  · rw [hworkspace]
    exact h.placed.rooted
  · rw [hrunning] at hnone
    have hbefore : ¬ Waits s.running.queue root.configFile := by
      rintro ⟨e, he, hsame⟩
      exact hnone ⟨e, List.mem_append_left _ he, hsame⟩
    have hold := h.loaded hbefore
    rcases hes.apart root.configFile with htext | ⟨e, he, hsame⟩
    · refine Desk.SameConfig.loaded ⟨?_, ?_, ?_⟩ h.placed.rooted hold
      · rw [hworkspace]
        exact h.placed.rooted
      · rw [hworkspace]
      · rw [hshared, htext]
        rfl
    · exact absurd ⟨e, List.mem_append_right _ he, hsame⟩ hnone

/-- **No turn leaves the configuration behind its document, unless an event for that waits.** -/
theorem step_configured (h : s.Configured root units) (htrails : s.Trails) (hturn : Keeps root turn)
    (halive' : (s.step checks turn).running.isAlive = true) :
    (s.step checks turn).Configured root
      (if s.reads turn then (s.step checks turn).running.workspace.units else units) := by
  have halive := isAlive_of_step checks halive'
  cases turn with
  | call c => exact afterCall_configured h halive
  | disk d => exact ⟨⟨hturn, h.placed.rooted⟩, h.loaded⟩
  | handleWatchFailure =>
    rw [step, Running.handleWatchFailure, if_pos halive]
    exact ⟨⟨h.placed.proper, h.placed.rooted⟩, h.loaded⟩
  | handleNext =>
    cases hqueue : s.running.queue with
    | nil => simpa [step, Running.handleNext, halive, hqueue, ofPair, reads] using h
    | cons e rest =>
      obtain ⟨d, hrun, hstep⟩ := (step_handleNext checks halive hqueue).2.2 halive'
      have htrailed := htrails halive
      have hloaded := h.loaded
      rw [hqueue] at htrailed hloaded
      have hreads : s.reads .handleNext = e.reads := by simp [reads, hqueue]
      rw [hreads, hstep]
      cases hread : e.reads with
      | true =>
        have hnow := (wp_of_ok hrun).mp (Desk.onEditorEvent_reads checks hread h.placed) rfl
        exact ⟨hnow.toPlaced, fun _ => hnow.loaded⟩
      | false =>
        obtain ⟨hplaced, hkept⟩ := (wp_of_ok hrun).mp
          (Desk.onEditorEvent_keeps_loaded checks units hread h.placed) rfl
        refine ⟨hplaced, fun hnone => hkept ?_ (hloaded fun hwaits => ?_)⟩
        · exact Bool.eq_false_iff.mpr fun hsame => hnone (EditorEvent.waits_of_not_reads htrailed hread hsame)
        · exact (waits_cons_iff.mp hwaits).elim
            (fun hsame => hnone (EditorEvent.waits_of_not_reads htrailed hread hsame)) hnone
  | handleDisk e =>
    obtain ⟨d, hrun, hstep⟩ := (step_handleDisk (e := e) checks halive).2 halive'
    rw [hstep]
    cases hread : s.desk.reads e with
    | true =>
      have hnow := (wp_of_ok hrun).mp (Desk.onDiskEvent_reads checks hread h.placed)
      simp only [reads, hread, if_true]
      exact ⟨hnow.toPlaced, fun _ => hnow.loaded⟩
    | false =>
      obtain ⟨hplaced, hkept⟩ := (wp_of_ok hrun).mp
        (Desk.onDiskEvent_keeps_loaded checks units hread hturn.1 hturn.2 h.placed)
      simp only [reads, hread, Bool.false_eq_true, if_false]
      exact ⟨hplaced, fun hnone => hkept (h.loaded hnone)⟩

theorem run_configured {turns : List Turn} (h : s.running.isAlive = true → s.Configured root units) (htrails : s.Trails)
    (hturns : ∀ turn ∈ turns, Keeps root turn) (halive : (s.run checks turns).running.isAlive = true) :
    (s.run checks turns).Configured root (s.unitsRead checks units turns) := by
  induction turns generalizing s units with
  | nil => exact h halive
  | cons turn rest ih =>
    refine ih (fun halive' => ?_) (step_trails checks htrails) (fun t ht => hturns t (List.mem_cons_of_mem _ ht)) halive
    exact step_configured checks (h (isAlive_of_step checks halive')) htrails (hturns turn List.mem_cons_self) halive'

/-! ### From the opening on -/

variable {given replicaRoot : Path} {shared : Shared} {start : Solo} {turns : List Turn}

/-- A workspace is opened with the configuration that its document says. -/
theorem configured_of_opened (h : opened checks given replicaRoot shared = some start)
    (hroot : shared.disk.canonicalize given = .ok root) (hproper : shared.disk.Proper) :
    start.Configured root start.running.workspace.units := by
  obtain ⟨w, hrunning, hcreate⟩ := create_of_opened checks h
  have hnow : Desk.UpToDate root ⟨start.shared, w⟩ := by
    refine (Desk.rooted_heeds checks root).create_heeds (fun _ => trivial) hcreate (fun resolved hresolved => ?_)
      fun d hd => ?_
    · obtain rfl : root = resolved := by simpa [hroot] using hresolved
      exact ⟨hproper, rfl⟩
    · rw [wp_bind]
      refine wp_imp (Desk.loadConfig_loads root (fun _ _ => trivial) ⟨hd.1, hd.2⟩) (fun _ d' hd' => ?_) fun _ _ he => he
      exact wp_imp (Desk.compile_upToDate checks root d' hd') (fun _ _ hd => hd) fun _ _ _ => trivial
  have hdesk : start.desk = ⟨start.shared, w⟩ := by rw [desk, hrunning]
  rw [← hdesk] at hnow
  exact ⟨hnow.toPlaced, fun _ => hnow.loaded⟩

/-- **The configuration is that of the document as it is, and of the units as they were.**  From
    the opening of a workspace on, and as long as the loop runs and no event waits for the
    configuration's file, the configuration in force is what the text of that file's document
    says, given the units that were tracked when the configuration was read the last time.  So
    it is what a workspace would read now if the document names the files to compile, or if the
    same units are tracked as then. -/
theorem configured_of_run (h : opened checks given replicaRoot shared = some start)
    (hroot : shared.disk.canonicalize given = .ok root) (hproper : shared.disk.Proper)
    (hturns : ∀ turn ∈ turns, Keeps root turn) :
    let s := start.run checks turns
    let units := start.unitsRead checks start.running.workspace.units turns
    s.running.isAlive = true → (∀ e ∈ s.running.queue, e.path.same root.configFile = false) →
      s.running.workspace.config = ProjectConfig.load s.desk.configText units
        ∧ ((ProjectConfig.ofDocument s.desk.configText).1.asksForUnits = false ∨ units = s.running.workspace.units →
          s.running.workspace.config = ProjectConfig.load s.desk.configText s.running.workspace.units) := by
  intro s units halive hnone
  have hs : s.Configured root units :=
    run_configured checks (fun _ => configured_of_opened checks h hroot hproper) (trails_of_opened checks h) hturns halive
  have hloaded : s.running.workspace.config = ProjectConfig.load s.desk.configText units := by
    refine hs.loaded ?_
    rintro ⟨e, he, hsame⟩
    simp [hnone e he] at hsame
  refine ⟨hloaded, fun hfixed => hloaded.trans ?_⟩
  rcases hfixed with hnames | hunits
  · exact ProjectConfig.load_of_names hnames _ _
  · rw [hunits]

/-- An editor writes a configuration that names a program, and the program appears. -/
def configuringTurns : List Turn :=
  [.call (.didOpen ⟨"/w/.faustcfg.json"⟩ "\x7b\"process_files\": [\"b.dsp\"]\x7d"), .handleNext, .handleNext,
    .disk (small.shared.disk.insert [.text "w", .text "b.dsp"] (.file (Text.Utf8.encode "new") 0o644)),
    .handleDisk (.created ⟨"/w/b.dsp"⟩)]

/-- The configuration that is in force then is what the workspace would read. -/
theorem configured_while_growing :
    (small.run contentCheckers configuringTurns).running.workspace.config
        = ProjectConfig.load (small.run contentCheckers configuringTurns).desk.configText
          (small.run contentCheckers configuringTurns).running.workspace.units
      ∧ (small.run contentCheckers configuringTurns).running.workspace.config.processFiles = [⟨"b.dsp"⟩] := by
  have hend : (small.run contentCheckers configuringTurns).running.isAlive = true
      ∧ (small.run contentCheckers configuringTurns).running.queue = []
      ∧ (ProjectConfig.ofDocument (small.run contentCheckers configuringTurns).desk.configText).1.asksForUnits = false
      ∧ (small.run contentCheckers configuringTurns).running.workspace.config.processFiles = [⟨"b.dsp"⟩] := by
    decide +kernel
  have hturns : ∀ turn ∈ configuringTurns, Keeps ⟨"/w"⟩ turn := by
    intro turn hturn
    simp only [configuringTurns, List.mem_cons, List.not_mem_nil, or_false] at hturn
    rcases hturn with rfl | rfl | rfl | rfl | rfl
    · trivial
    · trivial
    · trivial
    · exact Disk.proper_of_clear (by decide +kernel)
    · exact ⟨⟨(by decide : Path.startsWith ⟨"/w/b.dsp"⟩ ⟨"/w"⟩ = true), by decide⟩, fun _ hsource => by cases hsource⟩
  obtain ⟨halive, hqueue, hnames, hfiles⟩ := hend
  have hconfigured := configured_of_run contentCheckers small_begins.opened small_begins.resolved
    small_begins.ground.proper hturns halive (by simp [hqueue])
  exact ⟨hconfigured.2 (.inl hnames), hfiles⟩

/-- A program appears where no document holds a configuration. -/
def growingTurns : List Turn :=
  [.disk (small.shared.disk.insert [.text "w", .text "b.dsp"] (.file (Text.Utf8.encode "new") 0o644)),
    .handleDisk (.created ⟨"/w/b.dsp"⟩)]

/-- It is tracked, but the configuration does not name it, as one that is read now would. -/
theorem config_behind_units :
    (small.run contentCheckers growingTurns).running.isAlive = true
      ∧ (small.run contentCheckers growingTurns).running.queue = []
      ∧ (small.run contentCheckers growingTurns).running.workspace.config
        ≠ ProjectConfig.load (small.run contentCheckers growingTurns).desk.configText
          (small.run contentCheckers growingTurns).running.workspace.units := by decide +kernel

end Solo

end LiveWorkspace
