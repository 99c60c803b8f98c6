/-
  LiveWorkspace/Proofs/Session/Bearing.lean
  =========================================
  **What a session bears through a turn.**

  In a session all workspaces lodge where they should, and their shared state has a
  property (`Session.Bears`).  A turn keeps the property if the work for the root that owns
  the turn's path keeps it; nothing is asked of the work for other roots.  So a property may
  be chosen for the one turn, and say what the disk was when the turn began.

  Who owns a path is seen from the roots alone (`ownerOf`), which only the opening of a
  workspace changes.
-/
import LiveWorkspace.Proofs.Session.Turns
import LiveWorkspace.Proofs.Workspace.Lodging

namespace LiveWorkspace

/-! ### Owners -/

/-- The one of two roots that is longer, the second one if they are equally long. -/
def longerRoot (a b : Path) : Path := if a.spelling.utf8ByteSize ≤ b.spelling.utf8ByteSize then b else a

/-- The root that a path belongs to. -/
def ownerOf (roots : List Path) (p : Path) : Option Path :=
  match roots.filter p.startsWith with
  | [] => none
  | root :: rest => some (rest.foldl longerRoot root)

theorem foldl_longerRoot_mem (rest : List Path) (root : Path) : rest.foldl longerRoot root ∈ root :: rest := by
  induction rest generalizing root with
  | nil => exact List.mem_cons_self
  | cons next rest ih =>
    rw [List.foldl_cons]
    rcases List.mem_cons.mp (ih (longerRoot root next)) with h | h
    · rw [h, longerRoot]
      split
      · simp
      · simp
    · simp [h]

/-- The owner of a path is a root above it. -/
theorem startsWith_of_ownerOf {roots : List Path} {p root : Path} (h : ownerOf roots p = some root) :
    root ∈ roots ∧ p.startsWith root = true := by
  rw [ownerOf] at h
  split at h
  · cases h
  · rename_i first rest hfilter
    cases h
    exact List.mem_filter.mp (hfilter ▸ foldl_longerRoot_mem rest first)

/-- A path without an owner is below no root. -/
theorem not_startsWith_of_ownerOf {roots : List Path} {p root : Path} (h : ownerOf roots p = none)
    (hroot : root ∈ roots) : p.startsWith root = false := by
  rw [ownerOf] at h
  split at h
  · rename_i hfilter
    exact Bool.eq_false_iff.mpr (List.filter_eq_nil_iff.mp hfilter root hroot)
  · cases h

namespace Session

/-- The roots of the open workspaces, in the order in which they were opened. -/
def openRoots (ses : Session) : List Path := ses.workspaces.map (·.workspace.root)

theorem foldl_longer (rest : List Running) (r : Running) :
    (rest.foldl longer r).workspace.root
      = (rest.map (·.workspace.root)).foldl longerRoot r.workspace.root := by
  induction rest generalizing r with
  | nil => rfl
  | cons next rest ih =>
    have hlonger : (longer r next).workspace.root = longerRoot r.workspace.root next.workspace.root := by
      unfold longer longerRoot
      split <;> rfl
    rw [List.foldl_cons, ih, List.map_cons, List.foldl_cons, hlonger]

theorem owner?_root (ses : Session) (p : Path) :
    (ses.owner? p).map (·.workspace.root) = ownerOf ses.openRoots p := by
  have hfilter : ses.openRoots.filter p.startsWith
      = (ses.workspaces.filter fun r => p.startsWith r.workspace.root).map (·.workspace.root) := by
    rw [openRoots, List.filter_map]
    rfl
  rw [owner?, ownerOf, hfilter]
  cases ses.workspaces.filter fun r => p.startsWith r.workspace.root with
  | nil => rfl
  | cons r rest =>
    rw [List.map_cons]
    exact congrArg some (foldl_longer rest r)

theorem mem_of_owner? {ses : Session} {p : Path} {r : Running} (h : ses.owner? p = some r) :
    r ∈ ses.workspaces := by
  have hmem : ∀ (rest : List Running) (first : Running), rest.foldl longer first ∈ first :: rest := by
    intro rest
    induction rest with
    | nil => exact fun _ => List.mem_cons_self
    | cons next rest ih =>
      intro first
      rw [List.foldl_cons]
      rcases List.mem_cons.mp (ih (longer first next)) with h | h
      · rw [h, longer]
        split
        · simp
        · simp
      · simp [h]
  rw [owner?] at h
  split at h
  · cases h
  · rename_i first rest hfilter
    cases h
    exact (List.mem_filter.mp (hfilter ▸ hmem rest first)).1

/-! ### Sessions that bear a property -/

/-- All workspaces lodge where they should, what waits for them is for their paths, and
    their shared state has a property. -/
structure Bears (ρ : Path) (P : Path → Path → Prop) (roots : List Path) (G : Shared → Prop) (ses : Session) :
    Prop where
  replicaRoot : ses.replicaRoot = ρ
  roots : ses.openRoots = roots
  shared : G ses.shared
  lodged : ∀ r ∈ ses.workspaces, r.workspace.Lodged ρ P
  queued : ∀ r ∈ ses.workspaces, ∀ e ∈ r.queue, P r.workspace.root e.path

/-- What a session needs for a path: that the work for its owner keeps the property. -/
def Cares (ρ : Path) (P : Path → Path → Prop) (roots : List Path) (G : Shared → Prop) (p : Path) : Prop :=
  ∀ root, ownerOf roots p = some root → P root p ∧ Shared.Serves ρ P root G

variable {ρ : Path} {P : Path → Path → Prop} {roots : List Path} {G G' : Shared → Prop} {ses : Session}

namespace Bears

theorem mono (h : ses.Bears ρ P roots G) (hG : G ses.shared → G' ses.shared) : ses.Bears ρ P roots G' :=
  { h with shared := hG h.shared }

theorem withShared (h : ses.Bears ρ P roots G) {s : Shared} (hs : G' s) :
    Bears ρ P roots G' { ses with shared := s } :=
  ⟨h.replicaRoot, h.roots, hs, h.lodged, h.queued⟩

/-- The workspace of a root bears what the session bears. -/
theorem running (h : ses.Bears ρ P roots G) {r : Running} (hr : r ∈ ses.workspaces) :
    r.Bears (Desk.Lodges ρ P r.workspace.root G) (P r.workspace.root) ses.shared :=
  ⟨⟨rfl, h.lodged r hr, h.shared⟩, h.queued r hr⟩

/-- A session bears what one of its workspaces bears after a piece of work. -/
theorem replace (h : ses.Bears ρ P roots G) {root : Path} {r : Running} {s : Shared} (ready : List Path)
    (hr : r.Bears (Desk.Lodges ρ P root G) (P root) s) :
    (Session.replace { ses with shared := s, ready := ready } r).Bears ρ P roots G := by
  have hlodged : ∀ q ∈ (Session.replace { ses with shared := s, ready := ready } r).workspaces,
      q.workspace.Lodged ρ P ∧ ∀ e ∈ q.queue, P q.workspace.root e.path := by
    intro q hq
    obtain ⟨x, hx, rfl⟩ := List.mem_map.mp hq
    split
    · exact ⟨hr.desk.lodged, hr.desk.root.symm ▸ hr.queue⟩
    · exact ⟨h.lodged x hx, h.queued x hx⟩
  refine ⟨h.replicaRoot, ?_, hr.desk.shared, fun q hq => (hlodged q hq).1, fun q hq => (hlodged q hq).2⟩
  rw [← h.roots, openRoots, openRoots, Session.replace, List.map_map]
  refine List.map_congr_left fun q _ => ?_
  rw [Function.comp_apply]
  split
  · rename_i hsame
    exact hsame.symm
  · rfl

end Bears

/-! ### Work in a session -/

theorem onShared_bears {α : Type} {act : Act Shared α} (h : Preserves G act) :
    Preserves (Bears ρ P roots G) (liftM act : Act Session α) := by
  intro ses hses
  rw [wp_onShared_session]
  exact wp_imp (h ses.shared hses.shared) (fun _ _ hs => hses.withShared hs) fun _ _ hs => hses.withShared hs

variable (checks : Checkers)

theorem submit_bears {e : EditorEvent} (hcares : Cares ρ P roots G e.path) :
    Preserves (Bears ρ P roots G) (submit checks e) := by
  rw [submit]
  refine Preserves.get_bind fun ses hses => ?_
  split
  · exact Preserves.pure _
  · rename_i r howner
    obtain ⟨hp, hserves⟩ := hcares r.workspace.root (by rw [← hses.roots, ← owner?_root, howner]; rfl)
    have h := hserves.kept.submit_keeps checks hserves.records e hp (hses.running (mem_of_owner? howner))
    dsimp only
    refine Preserves.bind (fun _ _ => (wp_set _).mpr (hses.replace _ h)) fun _ => ?_
    split
    · exact Preserves.pure _
    · exact Preserves.pure _

theorem revise_bears (h : Shared.Edits G) (p : Path) (r : Revision) :
    Preserves (Bears ρ P roots G) (revise p r) := by
  rw [revise]
  refine Preserves.bind (onShared_bears (h.revise_keeps p r)) fun outcome => ?_
  split
  · exact Preserves.pure _
  · exact Preserves.pure _

theorem check_bears (h : Shared.Edits G) (p : Path) : Preserves (Bears ρ P roots G) (do
    let _ ← Shared.check checks p
    return .ok () : Act Session (Except SessionError Unit)) :=
  Preserves.bind (onShared_bears (h.calm.check_keeps checks p)) fun _ => Preserves.pure _

theorem diagnose_bears (h : Shared.Edits G) (p : Path) :
    Preserves (Bears ρ P roots G) (diagnose checks p) := by
  rw [diagnose]
  refine Preserves.get_bind fun ses _ => ?_
  split
  · exact Preserves.bind (onShared_bears (h.calm.check_keeps checks p)) fun _ => Preserves.pure _
  · rename_i r _
    intro ses hses
    have hcalm : Desk.Calm fun d => G d.shared := ⟨fun _ => h.calm, fun _ _ _ hs => hs⟩
    have hdesk := hcalm.diagnose_keeps checks (fun _ => h.compiled) p ⟨ses.shared, r.workspace⟩ hses.shared
    cases hrun : Desk.diagnose checks p ⟨ses.shared, r.workspace⟩ with
    | ok a d =>
      refine (wp_of_ok (by simp only [hrun]; rfl)).mpr ?_
      exact hses.withShared ((wp_of_ok hrun).mp hdesk)
    | error err d =>
      refine (wp_of_error (by simp only [hrun]; rfl)).mpr ?_
      exact hses.withShared ((wp_of_error hrun).mp hdesk)

/-! ### Calls of the editor -/

/-- What an opening does once the document is entered. -/
theorem opening_bears (h : Shared.Edits G) {p : Path} (hcares : Cares ρ P roots G p) (text : String) (owned : Bool) :
    Preserves (Bears ρ P roots G) (do
      match ← revise p (.replace text) with
      | .error err => return .error err
      | .ok _ => pure ()
      if owned then
        let _ ← Shared.check checks p
        return .ok ()
      match ← submit checks (.opened p) with
      | .error err => return .error err
      | .ok _ => submit checks (.changed p)) := by
  refine Preserves.bind (revise_bears h p _) fun outcome => ?_
  split
  · exact Preserves.pure _
  · refine Preserves.ite (fun _ => check_bears checks h p) fun _ => ?_
    refine Preserves.bind (submit_bears checks (e := .opened p) hcares) fun outcome => ?_
    split
    · exact Preserves.pure _
    · exact submit_bears checks (e := .changed p) hcares

/-- The document that an opening enters, with the places that the owner of its path gives it. -/
def newDocument (ses : Session) (p : Path) : Document :=
  ses.shared.entered p (((ses.owner? p).map (·.workspace.root)).getD ⟨""⟩) true none
    (((ses.owner? p).map (·.workspace.replicaPath p)).getD ⟨""⟩)

/-- The entering of a document keeps what it keeps for an owner, and what it keeps without one. -/
theorem entered_bears (h : Shared.Edits G) {p : Path} (hcares : Cares ρ P roots G p) (hses : ses.Bears ρ P roots G)
    (hlone : ownerOf roots p = none → ∀ s doc, G s → doc.path = p → doc.uri = p.toUri? →
      G { s with store := s.store.insert doc }) :
    G { ses.shared.afterRead p with store := ses.shared.store.insert (ses.newDocument p) } := by
  have hread : G (ses.shared.afterRead p) := by
    have hread := h.calm.readText_keeps p ses.shared hses.shared
    rwa [Shared.wp_readText] at hread
  rw [← Shared.afterRead_store ses.shared p]
  have howner := owner?_root ses p
  rw [hses.roots] at howner
  cases hr : ses.owner? p with
  | none =>
    rw [hr] at howner
    exact hlone howner.symm _ _ hread rfl (Shared.uri_entered ..)
  | some r =>
    rw [hr] at howner
    obtain ⟨hp, hserves⟩ := hcares r.workspace.root howner.symm
    have hplaces : (ses.newDocument p).relative = p.relativeTo r.workspace.root
        ∧ (ses.newDocument p).replica = r.workspace.replicaPath p := by
      simp only [newDocument, Shared.entered, hr, Option.map_some, Option.getD_some, and_self]
    refine hserves.entered _ (ses.newDocument p) hread hp hplaces.1 ?_ (Shared.uri_entered ..)
    rw [hplaces.2]
    exact (hses.lodged r (mem_of_owner? hr)).replicaPath_eq p

/-- An opening keeps a property that the entering of the document keeps, be it of an owner or not. -/
theorem didOpen_bears (h : Shared.Edits G) {p : Path} (text : String) (hcares : Cares ρ P roots G p)
    (hlone : ownerOf roots p = none → ∀ s doc, G s → doc.path = p → doc.uri = p.toUri? →
      G { s with store := s.store.insert doc }) :
    Preserves (Bears ρ P roots G) (didOpen checks p text) := by
  intro ses hses
  rw [didOpen, wp_bind, wp_get, wp_bind, wp_onShared_session, Shared.wp_openPath]
  refine ⟨fun _ => ?_, fun _ => ?_⟩
  · rw [Bool.not_false, if_pos rfl]
    refine Preserves.bind (revise_bears h p _) (fun outcome => ?_) ses hses
    split
    · exact Preserves.pure _
    · exact opening_bears checks h hcares text _
  · rw [Bool.not_true, if_neg (by decide)]
    exact opening_bears checks h hcares text _ _ (hses.withShared (entered_bears h hcares hses hlone))

theorem applyChanges_bears (h : Shared.Edits G) (p : Path) (changes : List TextChange) :
    Preserves (Bears ρ P roots G) (applyChanges p changes) := by
  induction changes with
  | nil => exact Preserves.pure _
  | cons c rest ih =>
    rw [applyChanges]
    refine Preserves.bind (revise_bears h p _) fun outcome => ?_
    split
    · exact Preserves.pure _
    · exact ih

theorem didChange_bears (h : Shared.Edits G) {p : Path} (hcares : Cares ρ P roots G p) (changes : List TextChange) :
    Preserves (Bears ρ P roots G) (didChange checks p changes) := by
  rw [didChange]
  refine Preserves.bind (applyChanges_bears h p changes) fun outcome => ?_
  split
  · exact Preserves.pure _
  · refine Preserves.get_bind fun ses _ => Preserves.ite (fun _ => check_bears checks h p) fun _ => ?_
    exact submit_bears checks (e := .changed p) hcares

theorem didClose_bears (h : Shared.Edits G) {p : Path} (hcares : Cares ρ P roots G p) :
    Preserves (Bears ρ P roots G) (didClose checks p) := by
  rw [didClose]
  refine Preserves.bind (revise_bears h p _) fun outcome => ?_
  split
  · exact Preserves.pure _
  · refine Preserves.get_bind fun ses _ => Preserves.ite (fun _ => ?_) fun _ => ?_
    · refine Preserves.bind (onShared_bears (h.dropDocument_keeps p)) fun dropped => ?_
      split
      · exact Preserves.bind (onShared_bears (h.calm.clear_keeps _)) fun _ => Preserves.pure _
      · exact Preserves.pure _
    · exact submit_bears checks (e := .closed p) hcares

/-! ### Opening a workspace -/

/-- A workspace that was made joins the others. -/
theorem joined_bears (h : Shared.Edits G) {w : Workspace} (hw : w.Lodged ρ P) (hses : ses.Bears ρ P roots G) :
    wp (do
      let _ ← Shared.tree w.root
      Shared.report (.info "Workspace opened")
      modify fun ses => { ses with workspaces := ses.workspaces ++ [{ workspace := w }] }
      return .ok w.root : Act Session (Except SessionError Path))
      (fun _ => Bears ρ P (roots ++ [w.root]) G) (fun _ => Bears ρ P roots G) ses := by
  rw [wp_bind]
  refine wp_imp (onShared_bears (h.calm.tree_keeps w.root) ses hses) (fun _ ses hses => ?_) fun _ _ hses => hses
  rw [wp_bind]
  refine wp_imp (onShared_bears (h.calm.report_keeps _) ses hses) (fun _ ses hses => ?_) fun _ _ hses => hses
  rw [wp_bind, wp_modify, wp_pure]
  have hall : ∀ r ∈ ses.workspaces ++ [({ workspace := w } : Running)],
      r.workspace.Lodged ρ P ∧ ∀ e ∈ r.queue, P r.workspace.root e.path := by
    intro r hr
    rcases List.mem_append.mp hr with hr | hr
    · exact ⟨hses.lodged r hr, hses.queued r hr⟩
    · rw [List.mem_singleton.mp hr]
      exact ⟨hw, fun _ he => absurd he List.not_mem_nil⟩
  refine ⟨hses.replicaRoot, ?_, hses.shared, fun r hr => (hall r hr).1, fun r hr => (hall r hr).2⟩
  rw [← hses.roots, openRoots, openRoots, List.map_append]
  rfl

/-- Without a root that can be resolved, no workspace is made. -/
theorem wp_create_unresolved {root : Path} {cause : OsError} {s : Shared} {Q : Except WorkspaceError Workspace → Shared → Prop}
    {E : Crash → Shared → Prop} (h : s.disk.canonicalize root = .error cause) :
    wp (Workspace.create checks root ρ) Q E s ↔ Q (.error (.unresolvedRoot root cause)) s := by
  rw [Workspace.create, wp_bind, wp_get]
  dsimp only
  rw [h]
  exact wp_pure _

/-- **Opening a workspace** changes nothing when it is open already, and else leaves what the
    work for the new root keeps; `N` is what that is for a new root. -/
theorem openWorkspace_bears {N : Path → Shared → Prop} {root : Path} (hweak : ∀ resolved s, N resolved s → G s)
    (hnew : ∀ resolved, ses.shared.disk.canonicalize root = .ok resolved → (∀ r ∈ roots, r.same resolved = false) →
      P resolved resolved ∧ Shared.Serves ρ P resolved (N resolved) ∧ N resolved { ses.shared with
        disk := ((Replica.ofWorkspace ρ resolved).replicate resolved ses.shared.disk).disk })
    (hses : ses.Bears ρ P roots G) :
    wp (openWorkspace checks root)
      (fun _ ses' => ses'.Bears ρ P roots G ∨ ∃ resolved, ses.shared.disk.canonicalize root = .ok resolved
        ∧ (∀ r ∈ roots, r.same resolved = false) ∧ ses'.Bears ρ P (roots ++ [resolved]) (N resolved))
      (fun _ ses' => ses'.Bears ρ P roots G) ses := by
  rw [openWorkspace, wp_bind, wp_get]
  cases hcanonical : ses.shared.disk.canonicalize root with
  | error cause =>
    dsimp only
    rw [wp_bind, wp_onShared_session, wp_create_unresolved checks hcanonical]
    exact (wp_pure _).mpr (.inl hses)
  | ok resolved =>
    dsimp only
    refine (wp_ite _ _).mpr ⟨fun _ => (wp_pure _).mpr (.inl hses), fun hopen => ?_⟩
    have hother : ∀ r ∈ roots, r.same resolved = false := by
      intro r hr
      rw [← hses.roots] at hr
      obtain ⟨x, hx, rfl⟩ := List.mem_map.mp hr
      exact Bool.eq_false_iff.mpr fun hsame => hopen (List.any_eq_true.mpr ⟨x, hx, hsame⟩)
    obtain ⟨hown, hserves, hstart⟩ := hnew resolved hcanonical hother
    have hcreate : wp (Workspace.create checks root ses.replicaRoot) _ _ ses.shared :=
      hserves.kept.grows.create_keeps checks hserves.records (fun d hd => hd.root.symm ▸ hown) (fun q hq _ => by
        rw [hcanonical] at hq
        cases hq
        rw [hses.replicaRoot]
        exact ⟨rfl, ⟨rfl, hown, fun _ hq => absurd hq List.not_mem_nil⟩, hstart⟩)
    rw [wp_bind, wp_onShared_session]
    refine wp_imp hcreate (fun outcome s hs => ?_) fun _ s hs => ?_
    · split
      · refine (wp_pure _).mpr (.inl (hses.withShared ?_))
        exact hs.symm ▸ hses.shared
      · rename_i w
        have hjoined := joined_bears hserves.toEdits hs.lodged (hses.withShared hs.shared)
        refine wp_imp hjoined (fun _ ses' hses' => .inr ⟨resolved, rfl, hother, ?_⟩) fun _ _ hses' =>
          hses'.mono (hweak resolved _)
        have hroot : w.root = resolved := hs.root
        exact hroot ▸ hses'
    · obtain ⟨w, hw⟩ := hs
      exact hses.withShared (hweak resolved s hw.shared)

/-! ### Turns of the loops -/

/-- A session bears what the loop of one of its roots keeps. -/
theorem afterLoop_bears {root : Path} {work : Running → Shared → Running × Shared} (hses : ses.Bears ρ P roots G)
    (hwork : root ∈ roots → ∀ r : Running, r.Bears (Desk.Lodges ρ P root G) (P root) ses.shared →
      (work r ses.shared).1.Bears (Desk.Lodges ρ P root G) (P root) (work r ses.shared).2) :
    (ses.afterLoop root work).Bears ρ P roots G := by
  rw [afterLoop]
  split
  · exact hses
  · rename_i r hfind
    have hroot : r.workspace.root = root := by
      have hfound := List.find?_some hfind
      exact of_decide_eq_true hfound
    have hmem := List.mem_of_find?_eq_some hfind
    have hopen : r.workspace.root ∈ roots := hses.roots ▸ List.mem_map_of_mem hmem
    have hr := hses.running hmem
    rw [hroot] at hr hopen
    exact hses.replace ses.ready (hwork hopen r hr)

/-- What a piece of work leaves, whether it ended or not. -/
theorem bears_after {α : Type} {act : Act Session α} (h : Preserves (Bears ρ P roots G) act)
    (hses : ses.Bears ρ P roots G) : (ses.after act).Bears ρ P roots G := by
  rw [after]
  cases hrun : act ses with
  | ok a ses' => exact (wp_of_ok hrun).mp (h ses hses)
  | error err ses' => exact (wp_of_error hrun).mp (h ses hses)

end Session

end LiveWorkspace
