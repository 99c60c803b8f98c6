/-
  LiveWorkspace/Proofs/Session/EditorText.lean
  ============================================
  **An editor's text is the session's text, from its opening to its closing.**

  An editor keeps a text for each document it has open and tells the session what it
  does to it: it opens with a text, sends changes, and closes (`Client`).  In between,
  anything may happen in any order: the loops handle what waits, the disk changes and
  its events come early, late or not at all, and workspaces are opened (`Turn`).  Each
  turn takes the texts that the store carries to those that the editor then holds
  (`step_carries`), so that along a whole run the two never part (`text_of_run`).

  A change of a range names two places in the editor's text.  That they are found
  again in the store's text is what `replaceRange_placeAfter` says.
-/
import Mathlib
import LiveWorkspace.Proofs.Document.Buffers
import LiveWorkspace.Proofs.Session.Turns
import LiveWorkspace.Proofs.Text.Places

namespace LiveWorkspace

open Text (Encoding placeAfter byteLength)

/-! ### Editors -/

/-- Changes that an editor sends, and the text they start from and end in. A range lies
    between the places of two characters, and may be written backwards. -/
inductive Edits (e : Encoding) : String → List TextChange → String → Prop
  | done (text : String) : Edits e text [] text
  | whole {text new last : String} {changes : List TextChange} (rest : Edits e new changes last) :
      Edits e text (⟨none, new⟩ :: changes) last
  | range {before old after : List Char} {new last : String} {changes : List TextChange}
      {places : Text.LineCol × Text.LineCol}
      (short : byteLength (before ++ old ++ after) < 2 ^ 32)
      (ends : places = (placeAfter e before, placeAfter e (before ++ old))
        ∨ places = (placeAfter e (before ++ old), placeAfter e before))
      (rest : Edits e (String.ofList (before ++ new.toList ++ after)) changes last) :
      Edits e (String.ofList (before ++ old ++ after)) (⟨some places, new⟩ :: changes) last

/-- What an editor holds before and after a turn. It opens only what it does not hold,
    and changes and closes only what it holds. -/
inductive Client (e : Encoding) : Buffers → Turn → Buffers → Prop
  | didOpen {b : Buffers} {p : Path} {text : String} (closed : b.Free p) :
      Client e b (.didOpen p text) (b.set p (some text))
  | didChange {b : Buffers} {p : Path} {text last : String} {changes : List TextChange}
      (held : b p = some text) (edits : Edits e text changes last) :
      Client e b (.didChange p changes) (b.set p (some last))
  | didClose {b : Buffers} {p : Path} {text : String} (held : b p = some text) :
      Client e b (.didClose p) (b.set p none)
  | openWorkspace (b : Buffers) (root : Path) : Client e b (.openWorkspace root) b
  | diagnose (b : Buffers) (p : Path) : Client e b (.diagnose p) b
  | handleNext (b : Buffers) (root : Path) : Client e b (.handleNext root) b
  | handleDisk (b : Buffers) (root : Path) (event : Watch.Event) :
      Client e b (.handleDisk root event) b
  | handleWatchFailure (b : Buffers) (root : Path) : Client e b (.handleWatchFailure root) b
  | disk (b : Buffers) (d : Disk) : Client e b (.disk d) b

/-- What an editor holds before and after a run. -/
inductive ClientRun (e : Encoding) : Buffers → List Turn → Buffers → Prop
  | nil (b : Buffers) : ClientRun e b [] b
  | cons {b b' b'' : Buffers} {t : Turn} {turns : List Turn} (first : Client e b t b')
      (rest : ClientRun e b' turns b'') : ClientRun e b (t :: turns) b''

/-! ### Sessions -/

namespace Session

variable (checks : Checkers)

/-- A session carries what its shared part carries. -/
def Carries (e : Encoding) (b : Buffers) (ses : Session) : Prop := ses.shared.Carries e b

/-! ### Handing on -/

variable {e : Encoding} {b : Buffers}

theorem kept : Shared.Kept (Shared.Carries e b) b.Free := Shared.carries_kept e b

theorem records : Shared.Records (Shared.Carries e b) := Shared.carries_records e b

/-- A loop bears what the session carries. -/
theorem bears {s : Shared} (r : Running) (h : s.Carries e b) :
    r.Bears (fun d => d.shared.Carries e b) (fun _ => True) s := ⟨h, fun _ _ => trivial⟩

theorem create_carries (root replicaRoot : Path) :
    Preserves (Shared.Carries e b) (Workspace.create checks root replicaRoot) := fun s hs => by
  refine wp_imp (kept.desk.grows.create_keeps checks (fun _ => records) (fun _ _ => trivial) fun _ _ _ => hs) ?_ ?_
  · intro outcome s' hs'
    cases outcome with
    | ok w => exact hs'
    | error cause => exact hs' ▸ hs
  · rintro _ s' ⟨w, hs'⟩
    exact hs'

theorem onShared_carries {α : Type} {act : Act Shared α} (h : Preserves (Shared.Carries e b) act) :
    Preserves (Session.Carries e b) (liftM act : Act Session α) := Preserves.onShared_session h

theorem submit_carries (event : EditorEvent) :
    Preserves (Session.Carries e b) (submit checks event) := by
  rw [submit]
  refine Preserves.get_bind fun ses hs => ?_
  split
  · exact Preserves.pure _
  · rename_i r _
    have h := kept.desk.submit_keeps checks (fun _ => records) event trivial (bears r hs)
    dsimp only
    refine Preserves.bind (fun _ _ => (wp_set _).mpr h.desk) fun _ => ?_
    split
    · exact Preserves.pure _
    · exact Preserves.pure _

theorem diagnose_carries (p : Path) : Preserves (Session.Carries e b) (diagnose checks p) := by
  rw [diagnose]
  refine Preserves.get_bind fun ses _ => ?_
  split
  · refine Preserves.bind (onShared_carries (kept.check_keeps checks p)) fun _ => ?_
    exact Preserves.pure _
  · rename_i r _
    intro ses hs
    have h := kept.desk.grows.calm.diagnose_keeps checks (fun _ => records) p ⟨ses.shared, r.workspace⟩ hs
    cases hrun : Desk.diagnose checks p ⟨ses.shared, r.workspace⟩ with
    | ok a d =>
      refine (wp_of_ok (by simp only [hrun]; rfl)).mpr ?_
      exact (wp_of_ok hrun).mp h
    | error err d =>
      refine (wp_of_error (by simp only [hrun]; rfl)).mpr ?_
      exact (wp_of_error hrun).mp h

/-- What follows when the workspace was made, or was not. -/
theorem opened_carries (root : Path) (outcome : Except WorkspaceError Workspace) :
    Preserves (Session.Carries e b) (do
      match outcome with
      | .error cause => return .error (.cannotOpen root cause)
      | .ok w =>
        let _ ← Shared.tree w.root
        Shared.report (.info "Workspace opened")
        modify fun ses => { ses with workspaces := ses.workspaces ++ [{ workspace := w }] }
        return .ok w.root : Act Session (Except SessionError Path)) := by
  split
  · exact Preserves.pure _
  · refine Preserves.bind (onShared_carries (kept.tree_keeps _)) fun _ => ?_
    refine Preserves.bind (onShared_carries (kept.report_keeps _)) fun _ => ?_
    exact Preserves.bind (Preserves.modify fun _ h => h) fun _ => Preserves.pure _

theorem openWorkspace_carries (root : Path) :
    Preserves (Session.Carries e b) (openWorkspace checks root) := by
  have hopened := opened_carries (e := e) (b := b) root
  rw [openWorkspace]
  refine Preserves.get_bind fun ses _ => ?_
  dsimp only
  split
  · refine Preserves.ite (fun _ => Preserves.pure _) fun _ => ?_
    exact Preserves.bind (onShared_carries (create_carries checks _ _)) hopened
  · exact Preserves.bind (onShared_carries (create_carries checks _ _)) hopened

/-! ### Calls of the editor -/

/-- What is carried for a path is in the store. -/
theorem contains_of_carries {s : Store} (h : s.Carries e b) {p : Path} {text : String}
    (hp : b p = some text) : s.contains p = true := by
  obtain ⟨doc, hdoc, -⟩ := h.holds p text hp
  rw [Store.contains, hdoc]
  rfl

/-- The text that an editor opens a document with takes the place of what an open
    document held. -/
theorem carries_of_replace {s s' : Store} (h : s.Carries e b) {p : Path} (hopen : s.isOpen p = true)
    {text : String} (hs' : s.revise? p (.replace text) = .ok s') :
    s'.Carries e (b.set p (some text)) := by
  refine h.revise? hs' (fun q hsame => Buffers.set_of_not_same hsame) fun q doc t hsame ht hdoc => ?_
  rw [Buffers.set_of_same hsame] at ht
  rw [Store.isOpen, Store.get?_congr s hsame, hdoc, Option.any_some] at hopen
  exact ⟨hopen, Option.some.inj ht⟩

theorem submitOpening_carries (p : Path) : Preserves (Session.Carries e b) (do
    match ← submit checks (.opened p) with
    | .error err => return .error err
    | .ok _ => submit checks (.changed p)) := by
  refine Preserves.bind (submit_carries checks _) fun outcome => ?_
  split
  · exact Preserves.pure _
  · exact submit_carries checks _

/-- An open document gets the text that was opened; what follows leaves the text alone. -/
theorem replaceText_carries (p : Path) (text : String) (owned : Bool) {ses : Session} (hs : ses.Carries e b)
    (hopen : ses.shared.store.isOpen p = true) :
    wp (do
      match ← revise p (.replace text) with
      | .error err => return .error err
      | .ok _ => pure ()
      if owned then
        let _ ← Shared.check checks p
        return .ok ()
      match ← submit checks (.opened p) with
      | .error err => return .error err
      | .ok _ => submit checks (.changed p))
      (fun _ => Session.Carries e (b.set p (some text)))
      (fun _ => Session.Carries e (b.set p (some text))) ses := by
  rw [wp_bind]
  refine wp_revise (Store.contains_of_isOpen hopen) fun store hstore => ?_
  have hcarries := carries_of_replace hs hopen hstore
  refine Preserves.ite (fun _ => ?_) (fun _ => submitOpening_carries checks p) _ hcarries
  refine Preserves.bind (onShared_carries (kept.check_keeps checks p)) fun _ => ?_
  exact Preserves.pure _

/-- After an opening the store carries the text that was opened. First the path gets an
    open document, an old one or a new one, and then that document gets the text. -/
theorem didOpen_carries (p : Path) (text : String) {ses : Session} (hs : ses.Carries e b) :
    wp (didOpen checks p text) (fun _ => Session.Carries e (b.set p (some text)))
      (fun _ => Session.Carries e (b.set p (some text))) ses := by
  rw [didOpen, wp_bind, wp_get, wp_bind, wp_onShared_session, Shared.wp_openPath]
  refine ⟨fun hin => ?_, fun hout => ?_⟩
  · rw [Bool.not_false, if_pos rfl, wp_bind]
    refine wp_revise hin fun store hstore => replaceText_carries checks p text _ ?_ ?_
    · exact hs.reopen hstore
    · exact Store.isOpen_of_reopen hstore
  · rw [Bool.not_true, if_neg (by decide)]
    refine replaceText_carries checks p text _ (Store.Carries.insert hs _) ?_
    exact Store.isOpen_insert hout rfl

/-- Changes take the store from the editor's text to the editor's text. -/
theorem applyChanges_carries {p : Path} {text last : String} {changes : List TextChange}
    (h : Edits e text changes last) {ses : Session} (hs : ses.Carries e (b.set p (some text))) :
    wp (applyChanges p changes)
      (fun outcome ses' => outcome = .ok () ∧ ses'.Carries e (b.set p (some last)))
      (fun _ _ => False) ses := by
  induction h generalizing ses with
  | done text => exact (wp_pure _).mpr ⟨rfl, hs⟩
  | @whole text new last changes _ ih =>
    have hin := contains_of_carries hs (Buffers.set_of_same (Path.same_refl p))
    rw [applyChanges, wp_bind]
    refine wp_revise hin fun store hstore => ih ?_
    exact hs.revise?_text hstore fun _ hopen _ => ⟨hopen, rfl⟩
  | @range before old after new last changes places short ends _ ih =>
    have hin := contains_of_carries hs (Buffers.set_of_same (Path.same_refl p))
    have hends : byteLength (before ++ old) < 2 ^ 32 := by
      rw [Text.byteLength_append] at short
      omega
    have hedit := Text.replaceRange_placeAfter e after new hends
    rw [applyChanges, wp_bind]
    refine wp_revise hin fun store hstore => ih ?_
    refine hs.revise?_text hstore fun doc hopen htext => ⟨hopen, ?_⟩
    rcases ends with rfl | rfl
    · simp only [TextChange.revision, Document.revise, htext, hedit.1]
    · simp only [TextChange.revision, Document.revise, htext, hedit.2]

theorem didChange_carries {p : Path} {text last : String} {changes : List TextChange}
    (h : Edits e text changes last) {ses : Session} (hs : ses.Carries e b) (hp : b p = some text) :
    wp (didChange checks p changes) (fun _ => Session.Carries e (b.set p (some last)))
      (fun _ => Session.Carries e (b.set p (some last))) ses := by
  have hend : Preserves (Session.Carries e (b.set p (some last))) (do
      if ((← get).owner? p).isNone then
        let _ ← Shared.check checks p
        return (.ok () : Except SessionError Unit)
      submit checks (.changed p)) := by
    refine Preserves.get_bind fun ses _ => Preserves.ite (fun _ => ?_) fun _ => submit_carries checks _
    exact Preserves.bind (onShared_carries (kept.check_keeps checks p)) fun _ => Preserves.pure _
  rw [didChange, wp_bind]
  refine wp_imp (applyChanges_carries h (Store.Carries.set_self hs hp)) ?_ fun _ _ hfalse => hfalse.elim
  rintro _ ses' ⟨rfl, hs'⟩
  exact hend ses' hs'

/-- What follows the closing of a path leaves the texts alone. -/
theorem closed_carries (p : Path) : Preserves (Session.Carries e (b.set p none)) (do
    if ((← get).owner? p).isNone then
      match ← Shared.dropDocument p with
      | some doc => Shared.clear doc
      | none => pure ()
      return (.ok () : Except SessionError Unit)
    submit checks (.closed p)) := by
  refine Preserves.get_bind fun ses _ => Preserves.ite (fun _ => ?_) fun _ => submit_carries checks _
  have hdrop := (kept (e := e)).dropDocument_keeps (Buffers.free_set_none b p)
  refine Preserves.bind (onShared_carries hdrop) fun dropped => ?_
  split
  · refine Preserves.bind (onShared_carries (kept.clear_keeps _)) fun _ => ?_
    exact Preserves.pure _
  · exact Preserves.pure _

theorem didClose_carries (p : Path) {text : String} {ses : Session} (hs : ses.Carries e b)
    (hp : b p = some text) :
    wp (didClose checks p) (fun _ => Session.Carries e (b.set p none))
      (fun _ => Session.Carries e (b.set p none)) ses := by
  rw [didClose, wp_bind]
  refine wp_revise (contains_of_carries hs hp) fun store hstore => closed_carries checks p _ ?_
  refine Store.Carries.revise? hs hstore (fun q hsame => Buffers.set_of_not_same hsame) ?_
  intro q doc t hsame ht _
  rw [Buffers.set_of_same hsame] at ht
  cases ht

/-! ### Runs -/

theorem after_carries {α : Type} {act : Act Session α} {ses : Session}
    (h : wp act (fun _ => Session.Carries e b) (fun _ => Session.Carries e b) ses) :
    (ses.after act).Carries e b := by
  rw [after]
  cases hrun : act ses with
  | ok a ses' => exact (wp_of_ok hrun).mp h
  | error err ses' => exact (wp_of_error hrun).mp h

theorem afterLoop_carries {ses : Session} (root : Path) {work : Running → Shared → Running × Shared}
    (h : ∀ r, (work r ses.shared).2.Carries e b) (hs : ses.Carries e b) :
    (ses.afterLoop root work).Carries e b := by
  rw [afterLoop]
  split
  · exact hs
  · exact h _

/-- A turn takes what the store carries to what the editor then holds. -/
theorem step_carries {b' : Buffers} {t : Turn} (h : Client e b t b') {ses : Session}
    (hs : ses.Carries e b) : (ses.step checks t).Carries e b' := by
  cases h with
  | didOpen _ => exact after_carries (didOpen_carries checks _ _ hs)
  | didChange held edits => exact after_carries (didChange_carries checks edits hs held)
  | didClose held => exact after_carries (didClose_carries checks _ hs held)
  | openWorkspace root => exact after_carries (openWorkspace_carries checks root ses hs)
  | diagnose p => exact after_carries (diagnose_carries checks p ses hs)
  | handleNext root =>
    exact afterLoop_carries root (fun r => (kept.desk.handleNext_keeps checks (fun _ => records) (bears r hs)).desk) hs
  | handleDisk root event =>
    exact afterLoop_carries root (fun r =>
      (kept.desk.handleDisk_keeps checks (fun _ => records) event trivial (fun _ _ => trivial) (bears r hs)).desk) hs
  | handleWatchFailure root =>
    exact afterLoop_carries root (fun r => (kept.desk.handleWatchFailure_keeps (bears r hs)).desk) hs
  | disk d => exact hs

theorem run_carries {b' : Buffers} {turns : List Turn} (h : ClientRun e b turns b') {ses : Session}
    (hs : ses.Carries e b) : (ses.run checks turns).Carries e b' := by
  induction h generalizing ses with
  | nil b => exact hs
  | cons first _ ih => exact ih (step_carries checks first hs)

/-- **The editor's text has authority.**  Whatever an editor does, and in whatever order
    the loops, the disk and further workspaces come in between: a document that the
    editor has open is in the store, open, and holds exactly the editor's text. -/
theorem open_document_of_run (ses : Session) {turns : List Turn} {b : Buffers}
    (h : ClientRun ses.shared.store.encoding (fun _ => none) turns b) {p : Path} {text : String}
    (hp : b p = some text) :
    ∃ doc, (ses.run checks turns).shared.store.get? p = some doc ∧ doc.isOpen = true
      ∧ doc.content = text :=
  (run_carries checks h ⟨rfl, fun _ _ hnone => by cases hnone⟩).holds p text hp

/-- A document is opened, edited in its second line, closed and, while that waits, removed
    from the disk and opened again. -/
theorem open_document_of_reopening :
    let checks : Checkers := ⟨fun _ _ => some [], fun _ _ => []⟩
    let disk : Disk := (Disk.blank.insert [.text "w"] (.directory 0o755)).insert [.text "replicas"]
      (.directory 0o700)
    let ses : Session := ⟨{}, ⟨"/replicas"⟩, { disk := disk }, [], []⟩
    let root : Path := ⟨"/w"⟩
    let p : Path := ⟨"/w/a.dsp"⟩
    ∃ doc, (ses.run checks [.openWorkspace root, .didOpen p "a\nb", .handleNext root,
        .didChange p [⟨some (⟨1, 0⟩, ⟨1, 1⟩), "c"⟩], .didClose p, .handleDisk root (.removed p),
        .didOpen p "d", .handleNext root, .handleNext root]).shared.store.get? p = some doc
      ∧ doc.isOpen = true ∧ doc.content = "d" := by
  intro checks disk ses root p
  have hedit : Edits .utf16 "a\nb" [⟨some (⟨1, 0⟩, ⟨1, 1⟩), "c"⟩] "a\nc" :=
    @Edits.range .utf16 ['a', '\n'] ['b'] [] "c" "a\nc" [] (⟨1, 0⟩, ⟨1, 1⟩) (by decide) (.inl (by decide))
      (.done _)
  have hheld : ∀ (b : Buffers) (text : String), b.set p (some text) p = some text := fun _ _ =>
    Buffers.set_of_same (Path.same_refl p)
  let opened : Buffers := Buffers.set (fun _ => none) p (some "a\nb")
  let closed : Buffers := (opened.set p (some "a\nc")).set p none
  have hclient : ClientRun .utf16 (fun _ => none) [.openWorkspace root, .didOpen p "a\nb",
      .handleNext root, .didChange p [⟨some (⟨1, 0⟩, ⟨1, 1⟩), "c"⟩], .didClose p,
      .handleDisk root (.removed p), .didOpen p "d", .handleNext root, .handleNext root]
      (closed.set p (some "d")) :=
    .cons (.openWorkspace _ root) <| .cons (.didOpen fun _ _ => rfl) <| .cons (.handleNext _ root) <|
    .cons (.didChange (hheld _ _) hedit) <| .cons (.didClose (hheld _ _)) <|
    .cons (.handleDisk _ root _) <| .cons (.didOpen (Buffers.free_set_none _ p)) <|
    .cons (.handleNext _ root) <| .cons (.handleNext _ root) <| .nil _
  exact open_document_of_run checks ses hclient (hheld closed "d")

end Session

end LiveWorkspace
