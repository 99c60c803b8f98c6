/-
  LiveWorkspace/Proofs/Session/Addressing.lean
  ============================================
  **Under which URIs the documents of a session are known.**

  A document is entered under the URI of its path, if the path has one, and nothing changes
  that later (`Session.run_addressed`).  URIs name the paths that they were made of, so two
  documents with one URI have one spelling (`Session.spelled_alike_of_run`).  What is found
  out about a document is published under its URI; for a document without one nothing is
  published and nothing reported, and of the absolute paths these are the ones with a
  backslash (`Session.told_of_run`).
-/
import LiveWorkspace.Proofs.Session.Routing
import LiveWorkspace.Proofs.Uri.Derivation

namespace LiveWorkspace

/-! ### Stores whose documents have the URIs of their paths -/

/-- Each document has the URI of its path, if there is one. -/
def Store.Addressed (s : Store) : Prop := ∀ doc ∈ s.documents, doc.uri = doc.path.toUri?

/-- Each document's URI names its path. -/
def Store.Named (s : Store) : Prop := ∀ doc ∈ s.documents, ∀ u, doc.uri = some u → u.toPath? = some doc.path

namespace Store

variable {s s' : Store} {p : Path}

theorem mem_insert {doc other : Document} (h : other ∈ (s.insert doc).documents) : other ∈ s.documents ∨ other = doc := by
  rw [insert] at h
  split at h
  · exact .inl h
  · rcases List.mem_append.mp h with h | h
    · exact .inl h
    · exact .inr (List.mem_singleton.mp h)

/-- A revision changes neither the paths nor the URIs of documents. -/
theorem exists_of_mem_revise? {r : Revision} (h : s.revise? p r = .ok s') {doc : Document} (hdoc : doc ∈ s'.documents) :
    ∃ old ∈ s.documents, old.path = doc.path ∧ old.uri = doc.uri := by
  rw [revise?, if_pos (contains_of_revise? h)] at h
  cases h
  obtain ⟨old, hold, rfl⟩ := List.mem_map.mp hdoc
  refine ⟨old, hold, ?_⟩
  split
  · cases r <;> exact ⟨rfl, rfl⟩
  · exact ⟨rfl, rfl⟩

namespace Addressed

theorem revise? (hs : s.Addressed) {r : Revision} (h : s.revise? p r = .ok s') : s'.Addressed := by
  intro doc hdoc
  obtain ⟨old, hold, hpath, huri⟩ := exists_of_mem_revise? h hdoc
  rw [← hpath, ← huri]
  exact hs old hold

theorem insert (hs : s.Addressed) {doc : Document} (hdoc : doc.uri = doc.path.toUri?) : (s.insert doc).Addressed := by
  intro other hother
  rcases mem_insert hother with hother | rfl
  · exact hs other hother
  · exact hdoc

theorem erase (hs : s.Addressed) (p : Path) : (s.erase p).Addressed := fun doc hdoc => hs doc (List.mem_filter.mp hdoc).1

theorem named (hs : s.Addressed) : s.Named := by
  intro doc hdoc u hu
  rw [hs doc hdoc] at hu
  exact Path.toPath?_of_toUri? hu

end Addressed

/-- Documents with one URI have one spelling. -/
theorem Named.spelled_alike (hs : s.Named) {doc other : Document} (hdoc : doc ∈ s.documents)
    (hother : other ∈ s.documents) {u : Uri} (hu : doc.uri = some u) (hu' : other.uri = some u) :
    doc.path.spelling = other.path.spelling := by
  have hpath := (hs doc hdoc u hu).symm.trans (hs other hother u hu')
  rw [Option.some.inj hpath]

end Store

/-- A document that is entered for a URI has the path that the URI names. -/
theorem Shared.openUri_named {s : Shared} (hs : s.store.Named) (uri : Uri) (root : Path) (byEditor : Bool)
    (replica : Path) : wp (openUri uri root byEditor replica) (fun _ s' => s'.store.Named) (fun _ _ => False) s := by
  rw [openUri]
  split
  · rename_i p hp
    rw [wp_openPath]
    refine ⟨fun _ => hs, fun _ doc hdoc u hu => ?_⟩
    rcases Store.mem_insert hdoc with hdoc | rfl
    · exact hs doc hdoc u hu
    · have huri : uri = u := by simpa [entered] using hu
      exact huri ▸ hp
  · rw [wp_bind, wp_report, wp_pure]
    exact hs

/-! ### What is published for a document -/

/-- The publication of messages for a document, if it has a URI. -/
def Document.news (doc : Document) (messages : List String) : List Publication :=
  match doc.uri with
  | some u => [⟨u, messages⟩]
  | none => []

namespace Shared

variable {s : Shared} (checks : Checkers)

/-- The outcome of a check is noted and published. -/
theorem check_tells {p : Path} {doc : Document} {messages : List String} (hdoc : s.store.get? p = some doc)
    (hfaust : doc.kind.isFaust = true) (hheard : s.isHeard = true) (hmessages : checks.check p doc.content = some messages) :
    wp (check checks p) (fun isFaust s' => isFaust = true ∧ s'.published = s.published ++ doc.news messages)
      (fun _ _ => False) s := by
  have hin : s.store.contains p = true := by rw [Store.contains, hdoc]; rfl
  rw [check, wp_bind, wp_get]
  simp only [hdoc, hfaust, hmessages, Bool.not_true, Bool.false_eq_true, if_false]
  rw [wp_bind, wp_revise]
  refine ⟨fun store _ => ?_, fun hout => ?_⟩
  · dsimp only
    rw [Document.news]
    cases doc.uri with
    | none => exact (wp_pure _).mpr ⟨rfl, (List.append_nil _).symm⟩
    | some u =>
      dsimp only
      rw [wp_bind, wp_publish (s := { s with store := store }) hheard, wp_pure]
      exact ⟨rfl, rfl⟩
  · rw [hin] at hout
    cases hout

/-- What the compiler has to say of a file is published. -/
theorem compileFile_tells {p : Path} {doc : Document} (hdoc : s.store.get? p = some doc) (hclean : doc.hasErrors = false)
    (hheard : s.isHeard = true) (replicaDir : Path) (config : ProjectConfig) :
    wp (compileFile checks replicaDir config p) (fun _ s' => s'.published = s.published
        ++ doc.news (checks.compile ⟨p, doc.replica, replicaDir, config⟩ (s.disk.read doc.replica).toOption))
      (fun _ _ => False) s := by
  rw [compileFile, wp_bind, wp_get]
  simp only [hdoc, hclean, Bool.false_eq_true, if_false]
  rw [wp_bind, wp_get, wp_bind, wp_modify, Document.news]
  cases doc.uri with
  | none => exact (wp_pure _).mpr (List.append_nil _).symm
  | some u =>
    dsimp only
    exact (wp_publish (by exact hheard) u _).mpr rfl

/-- The markers of a dropped document are taken away. -/
theorem clear_tells {doc : Document} (hfaust : doc.kind.isFaust = true) (hheard : s.isHeard = true) :
    wp (clear doc) (fun _ s' => s'.published = s.published ++ doc.news []) (fun _ _ => False) s := by
  rw [clear, if_pos hfaust, Document.news]
  cases doc.uri with
  | none => exact (wp_pure _).mpr (List.append_nil _).symm
  | some u => exact (wp_publish hheard u []).mpr rfl

/-- A work on any paths leaves documents under the URIs of their paths. -/
theorem addressed_serves (ρ root : Path) : Serves ρ (fun _ _ => True) root fun s => s.store.Addressed where
  report _ _ hs := hs
  publish _ _ hs := hs
  compiled _ _ _ hs _ _ := hs
  revised _ _ _ _ hs hstore := hs.revise? hstore
  erased _ p hs := hs.erase p
  found _ _ _ _ _ _ := trivial
  watched _ _ hs := hs
  entered _ _ hs _ _ _ huri := hs.insert huri
  worked _ _ _ hs _ _ := hs
  moved _ _ _ hs _ _ := hs

end Shared

namespace Session

variable {ses : Session} {t : Turn} {turns : List Turn} (checks : Checkers)

/-- A session all of whose documents have the URIs of their paths. -/
def Addressed (ses : Session) : Prop :=
  ∃ roots, ses.Bears ses.replicaRoot (fun _ _ => True) roots fun s => s.store.Addressed

theorem Addressed.of_bears {ρ : Path} {roots : List Path}
    (h : ses.Bears ρ (fun _ _ => True) roots fun s => s.store.Addressed) : ses.Addressed :=
  ⟨roots, h.replicaRoot.symm ▸ h⟩

/-- A session begins without workspaces and without documents. -/
theorem Addressed.of_start (hnone : ses.workspaces = []) (hempty : ses.shared.store.documents = []) : ses.Addressed := by
  refine ⟨[], rfl, by simp [openRoots, hnone], ?_, ?_, ?_⟩
  · intro doc hdoc
    rw [hempty] at hdoc
    cases hdoc
  · simp [hnone]
  · simp [hnone]

/-- **A turn leaves documents under the URIs of their paths.** -/
theorem step_addressed (hses : ses.Addressed) (t : Turn) : (ses.step checks t).Addressed := by
  obtain ⟨roots, hbears⟩ := hses
  have hserves := Shared.addressed_serves ses.replicaRoot
  have hedits : Shared.Edits fun s => s.store.Addressed := (hserves ses.replicaRoot).toEdits
  have hcares : ∀ p, Cares ses.replicaRoot (fun _ _ => True) roots (fun s => s.store.Addressed) p := fun p root _ =>
    ⟨trivial, hserves root⟩
  cases t with
  | didOpen p text =>
    refine .of_bears (bears_after (didOpen_bears checks hedits text (hcares p) fun _ s doc hs hdoc huri => ?_) hbears)
    exact hs.insert (huri.trans (congrArg Path.toUri? hdoc.symm))
  | didChange p changes => exact .of_bears (bears_after (didChange_bears checks hedits (hcares p) changes) hbears)
  | didClose p => exact .of_bears (bears_after (didClose_bears checks hedits (hcares p)) hbears)
  | diagnose p => exact .of_bears (bears_after (diagnose_bears checks hedits p) hbears)
  | disk d => exact .of_bears (hbears.withShared (s := { ses.shared with disk := d }) hbears.shared)
  | handleNext root =>
    exact .of_bears (afterLoop_bears hbears fun _ r hr =>
      (hserves root).kept.handleNext_keeps checks (hserves root).records hr)
  | handleDisk root event =>
    exact .of_bears (afterLoop_bears hbears fun _ r hr =>
      (hserves root).kept.handleDisk_keeps checks (hserves root).records event trivial (fun _ _ => trivial) hr)
  | handleWatchFailure root =>
    exact .of_bears (afterLoop_bears hbears fun _ r hr => (hserves root).kept.handleWatchFailure_keeps hr)
  | openWorkspace root =>
    have hopen : wp (openWorkspace checks root) _ _ ses := openWorkspace_bears checks
      (N := fun _ s => s.store.Addressed) (fun _ _ hs => hs)
      (fun resolved _ _ => ⟨trivial, hserves resolved, hbears.shared⟩) hbears
    rw [step, after]
    cases hrun : openWorkspace checks root ses with
    | error err ses' => exact .of_bears ((wp_of_error hrun).mp hopen)
    | ok outcome ses' =>
      rcases (wp_of_ok hrun).mp hopen with hses' | ⟨resolved, -, -, hses'⟩
      · exact .of_bears hses'
      · exact .of_bears hses'

/-- **All documents of a session have the URIs of their paths**, whatever happens. -/
theorem run_addressed (hses : ses.Addressed) (turns : List Turn) : (ses.run checks turns).shared.store.Addressed := by
  have hrun : (ses.run checks turns).Addressed := by
    induction turns generalizing ses with
    | nil => exact hses
    | cons t rest ih => exact ih (step_addressed checks hses t)
  obtain ⟨roots, hbears⟩ := hrun
  exact hbears.shared

/-! ### One spelling for each URI -/

/-- **A URI has one spelling.**  The URI of a path names the path as it is spelled, so that no
    two paths have one URI; and in a session, whatever happens in it, documents with one URI
    are spelled alike.  That holds as well of documents that are entered for a URI. -/
theorem spelled_alike_of_run (ses : Session) (hnone : ses.workspaces = []) (hempty : ses.shared.store.documents = [])
    (turns : List Turn) :
    (∀ p : Path, ∀ u, p.toUri? = some u → u.toPath? = some ⟨p.spelling⟩)
      ∧ (∀ p q : Path, ∀ u, p.toUri? = some u → q.toUri? = some u → p.spelling = q.spelling)
      ∧ (∀ doc ∈ (ses.run checks turns).shared.store.documents, ∀ other ∈ (ses.run checks turns).shared.store.documents,
          ∀ u, doc.uri = some u → other.uri = some u → doc.path.spelling = other.path.spelling)
      ∧ ∀ (uri : Uri) (root : Path) (byEditor : Bool) (replica : Path),
          wp (Shared.openUri uri root byEditor replica)
            (fun _ s => ∀ doc ∈ s.store.documents, ∀ other ∈ s.store.documents, ∀ u,
              doc.uri = some u → other.uri = some u → doc.path.spelling = other.path.spelling)
            (fun _ _ => False) (ses.run checks turns).shared := by
  have hnamed : (ses.run checks turns).shared.store.Named :=
    (run_addressed checks (.of_start hnone hempty) turns).named
  refine ⟨fun p u hu => Path.toPath?_of_toUri? hu, fun p q u hp hq => ?_, fun doc hdoc other hother u hu hu' => ?_,
    fun uri root byEditor replica => ?_⟩
  · have hpath := (Path.toPath?_of_toUri? hp).symm.trans (Path.toPath?_of_toUri? hq)
    rw [Option.some.inj hpath]
  · exact hnamed.spelled_alike hdoc hother hu hu'
  · refine wp_imp (Shared.openUri_named hnamed uri root byEditor replica) (fun _ s hs => ?_) fun _ _ hs => hs
    exact fun doc hdoc other hother u hu hu' => hs.spelled_alike hdoc hother hu hu'

/-- Two documents of one session, whose paths look alike once they are escaped. -/
theorem spelled_alike_while_escaping :
    let checks : Checkers := ⟨fun _ _ => some [], fun _ _ => []⟩
    let ses := (inHarbor Disk.blank).run checks [.didOpen ⟨"/w/my synth.dsp"⟩ "x", .didOpen ⟨"/w/my%20synth.dsp"⟩ "y"]
    ∀ doc ∈ ses.shared.store.documents, ∀ other ∈ ses.shared.store.documents,
      ∀ u, doc.uri = some u → other.uri = some u → doc.path.spelling = other.path.spelling := by
  intro checks ses
  exact (spelled_alike_of_run checks (inHarbor Disk.blank) rfl rfl
    [.didOpen ⟨"/w/my synth.dsp"⟩ "x", .didOpen ⟨"/w/my%20synth.dsp"⟩ "y"]).2.2.1

/-! ### What is told of absolute paths -/

/-- **What is found out of an absolute path is published, unless there is a backslash in it.**
    An absolute path has a URI if and only if there is no backslash in its spelling, and the
    same goes for the documents of a session, whatever happens in it.  What a check or the
    compiler has to say of a document, and that its markers are to be taken away, is published
    under its URI; without one nothing is published. -/
theorem told_of_run (ses : Session) (hnone : ses.workspaces = []) (hempty : ses.shared.store.documents = [])
    (turns : List Turn) {p : Path} {doc : Document} (hdoc : (ses.run checks turns).shared.store.get? p = some doc)
    (habsolute : doc.path.isAbsolute = true) (hheard : (ses.run checks turns).shared.isHeard = true) :
    let s := (ses.run checks turns).shared
    (∀ q : Path, q.isAbsolute = true → (q.toUri? = none ↔ '\\' ∈ q.spelling.toList))
      ∧ (doc.uri = none ↔ '\\' ∈ doc.path.spelling.toList)
      ∧ (∀ u, doc.uri = some u → u.toPath? = some doc.path)
      ∧ (∀ messages, doc.kind.isFaust = true → checks.check p doc.content = some messages →
          wp (Shared.check checks p) (fun isFaust s' => isFaust = true ∧ s'.published = s.published ++ doc.news messages)
            (fun _ _ => False) s)
      ∧ (∀ replicaDir config, doc.hasErrors = false →
          wp (Shared.compileFile checks replicaDir config p) (fun _ s' => s'.published = s.published
              ++ doc.news (checks.compile ⟨p, doc.replica, replicaDir, config⟩ (s.disk.read doc.replica).toOption))
            (fun _ _ => False) s)
      ∧ (doc.kind.isFaust = true →
          wp (Shared.clear doc) (fun _ s' => s'.published = s.published ++ doc.news []) (fun _ _ => False) s) := by
  intro s
  have haddressed : s.store.Addressed := run_addressed checks (.of_start hnone hempty) turns
  have huri := haddressed doc (List.mem_of_find?_eq_some hdoc)
  refine ⟨fun q hq => Path.toUri?_eq_none_iff hq, ?_, fun u hu => ?_, fun messages hfaust hmessages => ?_,
    fun replicaDir config hclean => ?_, fun hfaust => ?_⟩
  · rw [huri]
    exact Path.toUri?_eq_none_iff habsolute
  · rw [huri] at hu
    exact Path.toPath?_of_toUri? hu
  · exact Shared.check_tells checks hdoc hfaust hheard hmessages
  · exact Shared.compileFile_tells checks hdoc hclean hheard replicaDir config
  · exact Shared.clear_tells hfaust hheard

/-- A document whose path needs escapes is told of. -/
theorem told_while_escaping :
    let checks : Checkers := ⟨fun _ _ => some ["bad"], fun _ _ => []⟩
    let p : Path := ⟨"/w/my synth/#1%.dsp"⟩
    let s := ((inHarbor Disk.blank).run checks [.didOpen p "x"]).shared
    ∃ doc, s.store.get? p = some doc ∧ doc.path.isAbsolute = true ∧ s.isHeard = true
      ∧ (doc.uri = none ↔ '\\' ∈ doc.path.spelling.toList)
      ∧ wp (Shared.check checks p) (fun isFaust s' => isFaust = true ∧ s'.published = s.published ++ doc.news ["bad"])
          (fun _ _ => False) s := by
  intro checks p s
  have hdoc : s.store.get? p = some ⟨p, ⟨""⟩, ⟨""⟩, p.toUri?, "x", true, true⟩ := by decide +kernel
  have hheard : s.isHeard = true := by decide +kernel
  have habsolute : p.isAbsolute = true := by decide +kernel
  have hfaust : (FileKind.ofPath p).isFaust = true := by decide +kernel
  obtain ⟨-, huri, -, hcheck, -⟩ := told_of_run checks (inHarbor Disk.blank) rfl rfl [.didOpen p "x"] hdoc habsolute hheard
  exact ⟨_, hdoc, habsolute, hheard, huri, hcheck ["bad"] hfaust rfl⟩

/-- **Of a path with a backslash nothing is told.**  The path is absolute and its document has
    errors, but it has no URI, nothing is published, and nothing is reported. -/
theorem untold_with_backslash :
    let checks : Checkers := ⟨fun _ _ => some ["bad"], fun _ _ => []⟩
    let p : Path := ⟨"/w/a\\b.dsp"⟩
    let s := ((inHarbor Disk.blank).run checks [.didOpen p "x"]).shared
    p.isAbsolute = true ∧ p.toUri? = none ∧ s.isHeard = true
      ∧ (s.store.get? p).map (fun doc => (doc.uri, doc.hasErrors)) = some (none, true)
      ∧ s.published = [] ∧ s.reports = ((inHarbor Disk.blank).run checks [.didOpen ⟨"/w/ab.dsp"⟩ "x"]).shared.reports := by
  decide +kernel

end Session

end LiveWorkspace
