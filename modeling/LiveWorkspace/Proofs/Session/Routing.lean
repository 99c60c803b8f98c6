/-
  LiveWorkspace/Proofs/Session/Routing.lean
  =========================================
  **Documents are routed by the resolved root.**

  A workspace is known by its resolved root, and a path belongs to it when the components
  of the path begin with those of that root.  Of several such roots the longest spelling
  wins; for resolved roots that is the deepest one.  So a path goes to a root, or to one
  below it, just if it starts with the root as it was resolved (`routed_of_run`), and
  a call on such a path reaches the loop there, which writes the text to its replica.

  Paths are not resolved.  A path that starts with the root as the editor spelled it, and
  not as it was resolved, is one outside of all workspaces (`outside_by_link`).
-/
import Mathlib
import LiveWorkspace.Proofs.Disk.Rewrite
import LiveWorkspace.Proofs.Replica.Naming
import LiveWorkspace.Proofs.Session.Confinement
import LiveWorkspace.Proofs.Workspace.Triples

namespace LiveWorkspace

/-! ### Resolved paths -/

namespace Path

variable {p q : Path} {n : String}

/-- A path that is spelled by the names from the root on. -/
def Resolved (p : Path) : Prop := ∃ ns : List String, (∀ n ∈ ns, Proper n) ∧ p = ns.foldl child ⟨"/"⟩

theorem size_lt_child (p : Path) (h : Proper n) :
    p.spelling.utf8ByteSize < (p.child n).spelling.utf8ByteSize := by
  have hpos : 0 < n.utf8ByteSize := by
    rw [Nat.pos_iff_ne_zero]
    simpa using h.1
  rw [child, join, h.isAbsolute_mk]
  simp only [Bool.false_eq_true, if_false]
  split <;> simp only [String.utf8ByteSize_append] <;> omega

theorem size_le_foldl_child (p : Path) {ns : List String} (h : ∀ n ∈ ns, Proper n) :
    p.spelling.utf8ByteSize + ns.length ≤ (ns.foldl child p).spelling.utf8ByteSize := by
  induction ns generalizing p with
  | nil => simp
  | cons n rest ih =>
    have hchild := size_lt_child p (h n List.mem_cons_self)
    have hrest := ih (p.child n) fun m hm => h m (List.mem_cons_of_mem _ hm)
    simp only [List.foldl_cons, List.length_cons]
    omega

namespace Resolved

/-- A resolved path below another one goes on from it by names. -/
theorem exists_names (hp : p.Resolved) (hq : q.Resolved) (h : q.startsWith p = true) :
    ∃ ms : List String, (∀ m ∈ ms, Proper m) ∧ q = ms.foldl child p := by
  obtain ⟨ns, hns, rfl⟩ := hp
  obtain ⟨ks, hks, rfl⟩ := hq
  obtain ⟨rest, hrest⟩ := startsWith_iff.mp h
  rw [components_foldl_child _ hns, components_foldl_child _ hks, List.append_assoc, List.append_cancel_left_eq] at hrest
  obtain ⟨ls, ms, rfl, hls, -⟩ := List.map_eq_append_iff.mp hrest.symm
  obtain rfl : ls = ns := (List.map_inj_right fun _ _ => Component.name.inj).mp hls
  exact ⟨ms, fun m hm => hks m (List.mem_append_right _ hm), List.foldl_append⟩

/-- Of two resolved paths above a third one, the one with the longer spelling is the deeper one. -/
theorem startsWith_of_size_le {r : Path} (hp : p.Resolved) (hq : q.Resolved) (hrp : r.startsWith p = true)
    (hrq : r.startsWith q = true) (hsize : p.spelling.utf8ByteSize ≤ q.spelling.utf8ByteSize) :
    q.startsWith p = true := by
  rcases startsWith_or_startsWith hrp hrq with hpq | hqp
  · obtain ⟨ms, hms, rfl⟩ := hq.exists_names hp hpq
    have hlonger := size_le_foldl_child q hms
    obtain rfl : ms = [] := by
      rw [← List.length_eq_zero_iff]
      omega
    exact startsWith_refl q
  · exact hqp

end Resolved

end Path

theorem Disk.resolved_of_canonicalize {d : Disk} {p q : Path} (hd : d.Proper) (h : d.canonicalize p = .ok q) :
    q.Resolved := by
  obtain ⟨ns, -, -, hns, rfl⟩ := exists_names_of_canonicalize hd h
  exact ⟨ns, hns, rfl⟩

/-! ### The longest root -/

/-- Roots as workspaces have them: resolved, and no two the same. -/
structure Path.Distinct (roots : List Path) : Prop where
  resolved : ∀ root ∈ roots, root.Resolved
  apart : roots.Pairwise fun a b => a.same b = false

theorem Path.Distinct.append {roots : List Path} (h : Distinct roots) {root : Path} (hroot : root.Resolved)
    (hother : ∀ r ∈ roots, r.same root = false) : Distinct (roots ++ [root]) := by
  constructor
  · intro r hr
    rcases List.mem_append.mp hr with hr | hr
    · exact h.resolved r hr
    · rwa [List.mem_singleton.mp hr]
  · refine List.pairwise_append.mpr ⟨h.apart, List.pairwise_singleton _ _, ?_⟩
    intro a ha b hb
    rw [List.mem_singleton.mp hb]
    exact hother a ha

theorem size_le_foldl_longerRoot (rest : List Path) (root : Path) :
    ∀ r ∈ root :: rest, r.spelling.utf8ByteSize ≤ (rest.foldl longerRoot root).spelling.utf8ByteSize := by
  induction rest generalizing root with
  | nil => simp
  | cons next rest ih =>
    have hlonger : root.spelling.utf8ByteSize ≤ (longerRoot root next).spelling.utf8ByteSize
        ∧ next.spelling.utf8ByteSize ≤ (longerRoot root next).spelling.utf8ByteSize := by
      unfold longerRoot
      split <;> constructor <;> omega
    have hrest := ih (longerRoot root next)
    have hfirst := hrest _ List.mem_cons_self
    intro r hr
    rw [List.foldl_cons]
    rcases List.mem_cons.mp hr with rfl | hr
    · omega
    rcases List.mem_cons.mp hr with rfl | hr
    · omega
    · exact hrest r (List.mem_cons_of_mem _ hr)

/-- A path below an open root belongs to that root or to a deeper one. -/
theorem exists_ownerOf {roots : List Path} (h : ∀ root ∈ roots, root.Resolved) {p root : Path} (hroot : root ∈ roots)
    (hp : p.startsWith root = true) : ∃ owner, ownerOf roots p = some owner ∧ owner.startsWith root = true := by
  have hmem : root ∈ roots.filter p.startsWith := List.mem_filter.mpr ⟨hroot, hp⟩
  cases hfilter : roots.filter p.startsWith with
  | nil => simp [hfilter] at hmem
  | cons first rest =>
    have howner : ownerOf roots p = some (rest.foldl longerRoot first) := by simp [ownerOf, hfilter]
    obtain ⟨hin, hstarts⟩ := startsWith_of_ownerOf howner
    have hsize := size_le_foldl_longerRoot rest first root (hfilter ▸ hmem)
    exact ⟨_, howner, (h root hroot).startsWith_of_size_le (h _ hin) hp hstarts hsize⟩

/-! ### Sessions with distinct roots -/

/-- Others give the disk names that a path can spell. -/
def Turn.Spells (t : Turn) : Prop := ∀ d, t = .disk d → d.Proper

namespace Session

/-- A workspace works on any path, as far as only the names on the disk matter. -/
theorem proper_serves (ρ root : Path) :
    Shared.Serves ρ (fun _ _ => True) root fun s => s.disk.Proper where
  report _ _ hs := hs
  publish _ _ hs := hs
  compiled _ _ _ hs _ _ := hs
  revised _ _ _ _ hs _ := hs
  erased _ _ hs := hs
  found _ _ _ _ _ _ := trivial
  watched _ _ hs := hs
  entered _ _ hs _ _ _ _ := hs
  worked _ _ _ hs _ hop := Replica.diskAfter_keeps (Replica.work_proper hop) hs
  moved _ _ _ hs _ _ := Replica.diskAfter_keeps (Replica.rename_proper _ _) hs

/-- A session whose workspaces have some roots, which are distinct. -/
structure Rooted (roots : List Path) (ses : Session) : Prop where
  distinct : Path.Distinct roots
  bears : ses.Bears ses.replicaRoot (fun _ _ => True) roots fun s => s.disk.Proper

variable {ses : Session} {roots : List Path} {t : Turn} {turns : List Turn} {p root resolved : Path} {r : Running}

theorem Rooted.of_bears {ρ : Path} (hroots : Path.Distinct roots)
    (h : ses.Bears ρ (fun _ _ => True) roots fun s => s.disk.Proper) : ses.Rooted roots :=
  ⟨hroots, h.replicaRoot.symm ▸ h⟩

theorem Rooted.of_start (hnone : ses.workspaces = []) (hd : ses.shared.disk.Proper) : ses.Rooted [] := by
  refine ⟨⟨by simp, by simp⟩, rfl, by simp [openRoots, hnone], hd, ?_, ?_⟩ <;> simp [hnone]

/-- There is but one workspace at a root. -/
theorem Rooted.find? (hses : ses.Rooted roots) (hr : r ∈ ses.workspaces) :
    ses.workspaces.find? (·.workspace.root = r.workspace.root) = some r := by
  have hapart : ses.workspaces.Pairwise fun a b => a.workspace.root.same b.workspace.root = false := by
    have hroots := hses.distinct.apart
    rw [← hses.bears.roots, openRoots, List.pairwise_map] at hroots
    exact hroots
  generalize ses.workspaces = ws at hr hapart
  induction ws with
  | nil => simp at hr
  | cons w rest ih =>
    obtain ⟨hfirst, hrest⟩ := List.pairwise_cons.mp hapart
    rcases List.mem_cons.mp hr with rfl | hr
    · simp
    · have hne : w.workspace.root ≠ r.workspace.root := by
        intro heq
        have hother := hfirst r hr
        rw [heq, Path.same_refl] at hother
        cases hother
      simp [hne, ih hr hrest]

variable (checks : Checkers)

/-- **A turn keeps the roots, and opens at most one more, at a distinct place.** -/
theorem step_rooted (hses : ses.Rooted roots) (ht : t.Spells) :
    ∃ more, (ses.step checks t).Rooted (roots ++ more)
      ∧ ∀ r ∈ more, ∃ root, t = .openWorkspace root ∧ ses.shared.disk.canonicalize root = .ok r := by
  obtain ⟨hroots, hbears⟩ := hses
  have hedits : Shared.Edits fun s => s.disk.Proper := (proper_serves ses.replicaRoot ses.replicaRoot).toEdits
  have hserves := proper_serves ses.replicaRoot
  have hcares : ∀ p, Cares ses.replicaRoot (fun _ _ => True) roots (fun s => s.disk.Proper) p := fun p root _ =>
    ⟨trivial, hserves root⟩
  have hsame : ∀ {after : Session}, after.Bears ses.replicaRoot (fun _ _ => True) roots (fun s => s.disk.Proper) →
      ∃ more, after.Rooted (roots ++ more)
        ∧ ∀ r ∈ more, ∃ root, t = .openWorkspace root ∧ ses.shared.disk.canonicalize root = .ok r := by
    intro after h
    refine ⟨[], ?_, by simp⟩
    rw [List.append_nil]
    exact .of_bears hroots h
  cases t with
  | didOpen p text => exact hsame (bears_after (didOpen_bears checks hedits text (hcares p) fun _ _ _ hs _ _ => hs) hbears)
  | didChange p changes => exact hsame (bears_after (didChange_bears checks hedits (hcares p) changes) hbears)
  | didClose p => exact hsame (bears_after (didClose_bears checks hedits (hcares p)) hbears)
  | diagnose p => exact hsame (bears_after (diagnose_bears checks hedits p) hbears)
  | disk d => exact hsame (hbears.withShared (s := { ses.shared with disk := d }) (ht d rfl))
  | handleNext root =>
    exact hsame (afterLoop_bears hbears fun _ r hr => (hserves root).kept.handleNext_keeps checks (hserves root).records hr)
  | handleDisk root event =>
    exact hsame (afterLoop_bears hbears fun _ r hr =>
      (hserves root).kept.handleDisk_keeps checks (hserves root).records event trivial (fun _ _ => trivial) hr)
  | handleWatchFailure root =>
    exact hsame (afterLoop_bears hbears fun _ r hr => (hserves root).kept.handleWatchFailure_keeps hr)
  | openWorkspace root =>
    have hopen : wp (openWorkspace checks root) _ _ ses := openWorkspace_bears checks
      (N := fun _ s => s.disk.Proper) (fun _ _ hs => hs)
      (fun resolved _ _ => ⟨trivial, hserves resolved, Replica.replicate_proper _ _ hbears.shared⟩) hbears
    rw [step, after]
    cases hrun : openWorkspace checks root ses with
    | error err ses' => exact hsame ((wp_of_error hrun).mp hopen)
    | ok outcome ses' =>
      rcases (wp_of_ok hrun).mp hopen with hses' | ⟨resolved, hresolved, hother, hses'⟩
      · exact hsame hses'
      · have hmore := hroots.append (Disk.resolved_of_canonicalize hbears.shared hresolved) hother
        refine ⟨[resolved], .of_bears hmore hses', fun r hr => ⟨root, rfl, ?_⟩⟩
        rwa [List.mem_singleton.mp hr]

theorem run_rooted (hses : ses.Rooted roots) (hturns : ∀ t ∈ turns, t.Spells) :
    ∃ more, (ses.run checks turns).Rooted (roots ++ more) := by
  induction turns generalizing ses roots with
  | nil => exact ⟨[], by rwa [List.append_nil]⟩
  | cons t turns ih =>
    obtain ⟨more, hstep, -⟩ := step_rooted checks hses (hturns t List.mem_cons_self)
    obtain ⟨others, hrun⟩ := ih hstep fun t ht => hturns t (List.mem_cons_of_mem _ ht)
    exact ⟨more ++ others, by rwa [← List.append_assoc]⟩

/-! ### Opening a root -/

/-- A workspace that is made joins the open ones. -/
theorem create_opens (root : Path) (ses : Session) :
    wp (do
      match ← Workspace.create checks root ses.replicaRoot with
      | .error cause => return .error (.cannotOpen root cause)
      | .ok w =>
        let _ ← Shared.tree w.root
        Shared.report (.info "Workspace opened")
        modify fun ses => { ses with workspaces := ses.workspaces ++ [{ workspace := w }] }
        return .ok w.root : Act Session (Except SessionError Path))
      (fun outcome ses' => ∀ resolved, outcome = .ok resolved → ∃ r ∈ ses'.openRoots, r.same resolved = true)
      (fun _ _ => True) ses := by
  rw [wp_bind]
  refine wp_imp (wp_true _ ses) (fun outcome ses' _ => ?_) fun _ _ _ => trivial
  cases outcome with
  | error cause => simp [wp_pure]
  | ok w =>
    rw [wp_bind]
    refine wp_imp (wp_true _ ses') (fun _ ses' _ => ?_) fun _ _ _ => trivial
    rw [wp_bind]
    refine wp_imp (wp_true _ ses') (fun _ ses' _ => ?_) fun _ _ _ => trivial
    rw [wp_bind, wp_modify, wp_pure]
    rintro _ ⟨⟩
    exact ⟨w.root, by simp [openRoots], Path.same_refl _⟩

/-- What the opening of a root gives back when it succeeds: the root as it was resolved. -/
def openedAt (ses : Session) (root : Path) : Option Path :=
  match openWorkspace checks root ses with
  | .ok (.ok resolved) _ => some resolved
  | .ok (.error _) _ | .error _ _ => none

/-- When a root is opened, a workspace is there whose root is the resolved one. -/
theorem mem_of_openedAt (h : ses.openedAt checks root = some resolved) :
    ∃ r ∈ (ses.step checks (.openWorkspace root)).openRoots, r.same resolved = true := by
  have hopens : wp (openWorkspace checks root)
      (fun outcome ses' => ∀ resolved, outcome = .ok resolved → ∃ r ∈ ses'.openRoots, r.same resolved = true)
      (fun _ _ => True) ses := by
    rw [openWorkspace, wp_bind, wp_get]
    cases hcanonical : ses.shared.disk.canonicalize root with
    | error cause => exact create_opens checks root ses
    | ok resolved =>
      refine (wp_ite _ _).mpr ⟨fun hopen => ?_, fun _ => create_opens checks root ses⟩
      rw [wp_pure]
      rintro _ ⟨⟩
      obtain ⟨r, hr, hsame⟩ := List.any_eq_true.mp hopen
      exact ⟨r.workspace.root, List.mem_map_of_mem hr, hsame⟩
  rw [openedAt] at h
  split at h
  · rename_i resolved' opened hrun
    rw [step, after, hrun]
    exact (wp_of_ok hrun).mp hopens resolved (by rw [Option.some.inj h])
  · cases h
  · cases h

/-! ### Handing on -/

theorem foldl_longer_map {f : Running → Running} (hf : ∀ r, (f r).workspace.root = r.workspace.root)
    (rest : List Running) (first : Running) : (rest.map f).foldl longer (f first) = f (rest.foldl longer first) := by
  induction rest generalizing first with
  | nil => rfl
  | cons next rest ih =>
    have hlonger : longer (f first) (f next) = f (longer first next) := by
      simp only [longer, hf]
      split <;> rfl
    rw [List.map_cons, List.foldl_cons, List.foldl_cons, hlonger, ih]

/-- A workspace has become another one of the same root, and the others stay what they are. -/
def becoming (r' q : Running) : Running := if q.workspace.root = r'.workspace.root then r' else q

theorem root_becoming (r' q : Running) : (becoming r' q).workspace.root = q.workspace.root := by
  unfold becoming
  split
  · rename_i heq
    exact heq.symm
  · rfl

/-- The owner of a path is found with what it has become. -/
theorem owner?_replace {s : Shared} {ready : List Path} {r' : Running} (howner : ses.owner? p = some r)
    (hroot : r'.workspace.root = r.workspace.root) :
    (Session.replace { ses with shared := s, ready := ready } r').owner? p = some r' := by
  have hfilter : (ses.workspaces.map (becoming r')).filter (fun q => p.startsWith q.workspace.root)
      = (ses.workspaces.filter fun q => p.startsWith q.workspace.root).map (becoming r') := by
    simp only [List.filter_map, Function.comp_def, root_becoming]
  have hworkspaces : (Session.replace { ses with shared := s, ready := ready } r').workspaces
      = ses.workspaces.map (becoming r') := rfl
  rw [owner?] at howner
  rw [owner?, hworkspaces, hfilter]
  split at howner
  · cases howner
  · rename_i first rest hsome
    cases howner
    rw [hsome, List.map_cons]
    simp only [foldl_longer_map (root_becoming r')]
    rw [becoming, if_pos hroot.symm]

/-- Events have been handed to the owner of a path, which was `r` before.  If it ran and had
    room, they wait behind what waited then; and if it still runs, the last of them waits
    last. -/
def Delivered (r : Running) (es : List EditorEvent) (p : Path) (ses : Session) : Prop :=
  ∃ r', ses.owner? p = some r' ∧ r'.workspace.root = r.workspace.root
    ∧ (r.isAlive = true → r.queue.length + es.length ≤ Running.capacity → r'.queue = r.queue ++ es ∧ r'.isAlive = true)
    ∧ (r'.isAlive = true → r.isAlive = true ∧ r'.queue.getLast? = es.getLast?)

theorem Delivered.trans {r' : Running} {es more : List EditorEvent} {after : Session} (hne : more ≠ [])
    (howner : ses.owner? p = some r') (h : ses.Delivered r es p) (h' : after.Delivered r' more p) :
    after.Delivered r (es ++ more) p := by
  obtain ⟨x, hx, hroot, hroom, hlast⟩ := h
  obtain ⟨r'', howner'', hroot', hroom', hlast'⟩ := h'
  obtain rfl : r' = x := Option.some.inj (howner.symm.trans hx)
  refine ⟨r'', howner'', hroot'.trans hroot, fun halive hlength => ?_, fun halive => ?_⟩
  · rw [List.length_append] at hlength
    obtain ⟨hqueue, halive'⟩ := hroom halive (by omega)
    obtain ⟨hqueue', halive''⟩ := hroom' halive' (by rw [hqueue, List.length_append]; omega)
    exact ⟨by rw [hqueue', hqueue, List.append_assoc], halive''⟩
  · obtain ⟨halive', hend⟩ := hlast' halive
    refine ⟨(hlast halive').1, ?_⟩
    rw [hend, List.getLast?_append, List.getLast?_eq_some_getLast hne]
    rfl

/-- Handing an event to a loop succeeds if it runs. The event then waits last, unless the
    loop ends when it has to make room. -/
theorem submit_queue (e : EditorEvent) (r : Running) (s : Shared) :
    (r.isAlive = true → (r.submit checks e s).1 = .ok ())
      ∧ (r.isAlive = true → r.queue.length < Running.capacity →
        (r.submit checks e s).2.1 = { r with queue := r.queue ++ [e] })
      ∧ ((r.submit checks e s).2.1.isAlive = true →
        r.isAlive = true ∧ (r.submit checks e s).2.1.queue.getLast? = some e) := by
  have hend : ∀ r' : Running, (if r'.isAlive then { r' with queue := r'.queue ++ [e] } else r').isAlive = true →
      (if r'.isAlive then { r' with queue := r'.queue ++ [e] } else r').queue.getLast? = some e := by
    intro r' hlast
    cases hr' : r'.isAlive with
    | true => simp
    | false => simp [hr'] at hlast
  cases halive : r.isAlive with
  | false => simp [Running.submit, halive]
  | true =>
    simp only [Running.submit, halive, Bool.not_true, Bool.false_eq_true, if_false]
    refine ⟨fun _ => trivial, fun _ hroom => ?_, fun hlast => ⟨trivial, hend _ hlast⟩⟩
    simp [Nat.not_le.mpr hroom, halive]

/-- An event is handed to the loop that its path belongs to. -/
theorem submit_delivers {e : EditorEvent} (hses : ses.Rooted roots) (howner : ses.owner? e.path = some r) :
    wp (submit checks e) (fun outcome ses' => (r.isAlive = true → outcome = .ok ()) ∧ ses'.Rooted roots
      ∧ ses'.Delivered r [e] e.path) (fun _ _ => False) ses := by
  have hserves := proper_serves ses.replicaRoot r.workspace.root
  have hkeeps := hserves.kept.submit_keeps checks hserves.records e trivial (hses.bears.running (mem_of_owner? howner))
  obtain ⟨hok, hroom, hlast⟩ := submit_queue checks e r ses.shared
  have hdelivered : (Session.replace { ses with
      shared := (r.submit checks e ses.shared).2.2
      ready := if ses.ready.contains (r.submit checks e ses.shared).2.1.workspace.root then ses.ready
        else ses.ready ++ [(r.submit checks e ses.shared).2.1.workspace.root] }
      (r.submit checks e ses.shared).2.1).Delivered r [e] e.path := by
    refine ⟨_, owner?_replace howner hkeeps.desk.root, hkeeps.desk.root, fun halive hlength => ?_, hlast⟩
    rw [hroom halive hlength]
    exact ⟨rfl, halive⟩
  rw [submit, wp_bind, wp_get]
  simp only [howner]
  rw [wp_bind, wp_set]
  split
  · exact (wp_pure _).mpr ⟨fun _ => rfl, .of_bears hses.distinct (hses.bears.replace _ hkeeps), hdelivered⟩
  · rename_i hfailed
    rw [wp_pure]
    refine ⟨fun halive => ?_, .of_bears hses.distinct (hses.bears.replace _ hkeeps), hdelivered⟩
    simp [hok halive] at hfailed

/-! ### Calls on a path that belongs to a workspace -/

theorem Rooted.withStore (hses : ses.Rooted roots) {s : Shared} (hs : s.disk = ses.shared.disk) :
    Rooted roots { ses with shared := s } :=
  ⟨hses.distinct, hses.bears.withShared (hs ▸ hses.bears.shared)⟩

/-- What an opening does once the document is entered. -/
theorem opening_delivers (text : String) {owned : Bool} (howned : owned = false) (hses : ses.Rooted roots)
    (howner : ses.owner? p = some r) (hin : ses.shared.store.contains p = true) :
    wp (do
      match ← revise p (.replace text) with
      | .error err => return .error err
      | .ok _ => pure ()
      if owned then
        let _ ← Shared.check checks p
        return .ok ()
      match ← submit checks (.opened p) with
      | .error err => return .error err
      | .ok _ => submit checks (.changed p))
      (fun _ ses' => ses'.Delivered r [.opened p, .changed p] p) (fun _ _ => False) ses := by
  rw [wp_bind]
  refine wp_revise hin fun store _ => ?_
  simp only [howned, Bool.false_eq_true, if_false]
  have hses' : Rooted roots { ses with shared := { ses.shared with store := store } } := hses.withStore rfl
  have hopened := submit_delivers checks (e := .opened p) hses' howner
  rw [wp_bind]
  refine wp_imp hopened ?_ fun _ _ hfalse => hfalse
  rintro outcome ses₁ ⟨hok, hses₁, hdelivered⟩
  obtain ⟨r₁, howner₁, hroot, hroom, hlast⟩ := hdelivered
  cases outcome with
  | error err =>
    have hended : ¬ r.isAlive = true := fun halive => by cases hok halive
    rw [wp_pure]
    exact ⟨r₁, howner₁, hroot, fun halive => absurd halive hended, fun halive => absurd (hlast halive).1 hended⟩
  | ok _ =>
    refine wp_imp (submit_delivers checks (e := .changed p) hses₁ howner₁) ?_ fun _ _ hfalse => hfalse
    rintro _ ses₂ ⟨-, -, hdelivered₂⟩
    exact Delivered.trans (by simp) howner₁ ⟨r₁, howner₁, hroot, hroom, hlast⟩ hdelivered₂

/-- **An opening reaches the loop that the path belongs to.** -/
theorem didOpen_delivers (text : String) (hses : ses.Rooted roots) (howner : ses.owner? p = some r) :
    wp (didOpen checks p text) (fun _ ses' => ses'.Delivered r [.opened p, .changed p] p) (fun _ _ => False) ses := by
  rw [didOpen, wp_bind, wp_get, wp_bind, wp_onShared_session, Shared.wp_openPath]
  constructor
  · intro hin
    simp only [Bool.not_false, if_true]
    rw [wp_bind]
    refine wp_revise hin fun store hstore => ?_
    have hin' : store.contains p = true := (Store.contains_revise? hstore p).trans hin
    exact opening_delivers checks text (by simp [howner]) (hses.withStore rfl) howner hin'
  · intro hout
    simp only [Bool.not_true, Bool.false_eq_true, if_false]
    refine opening_delivers checks text (by simp [howner]) (hses.withStore ?_) howner ?_
    · simp [Shared.afterRead_disk]
    · exact Store.contains_of_isOpen (Store.isOpen_insert hout rfl)

/-- Changes of a document succeed, and touch nothing but the store. -/
theorem applyChanges_total (changes : List TextChange) {ses : Session} (hin : ses.shared.store.contains p = true)
    (hses : ses.Rooted roots) (howner : ses.owner? p = some r) :
    wp (applyChanges p changes) (fun outcome ses' => outcome = .ok () ∧ ses'.Rooted roots ∧ ses'.owner? p = some r)
      (fun _ _ => False) ses := by
  induction changes generalizing ses with
  | nil => exact (wp_pure _).mpr ⟨rfl, hses, howner⟩
  | cons c rest ih =>
    rw [applyChanges, wp_bind]
    refine wp_revise hin fun store hstore => ?_
    exact ih ((Store.contains_revise? hstore p).trans hin) (hses.withStore rfl) howner

/-- **A change reaches the loop that the path belongs to.** -/
theorem didChange_delivers (changes : List TextChange) (hses : ses.Rooted roots) (howner : ses.owner? p = some r)
    (hin : ses.shared.store.contains p = true) :
    wp (didChange checks p changes) (fun _ ses' => ses'.Delivered r [.changed p] p) (fun _ _ => False) ses := by
  rw [didChange, wp_bind]
  refine wp_imp (applyChanges_total changes hin hses howner) ?_ fun _ _ hfalse => hfalse
  rintro _ ses' ⟨rfl, hses', howner'⟩
  simp only [wp_bind, wp_get, howner', Option.isNone_some, Bool.false_eq_true, if_false]
  refine wp_imp (submit_delivers checks (e := .changed p) hses' howner') ?_ fun _ _ hfalse => hfalse
  exact fun _ _ h => h.2.2

/-- **A closing reaches the loop that the path belongs to.** -/
theorem didClose_delivers (hses : ses.Rooted roots) (howner : ses.owner? p = some r)
    (hin : ses.shared.store.contains p = true) :
    wp (didClose checks p) (fun _ ses' => ses'.Delivered r [.closed p] p) (fun _ _ => False) ses := by
  rw [didClose, wp_bind]
  refine wp_revise hin fun store _ => ?_
  simp only [wp_bind, wp_get]
  have howner' : owner? { ses with shared := { ses.shared with store := store } } p = some r := howner
  simp only [howner', Option.isNone_some, Bool.false_eq_true, if_false]
  refine wp_imp (submit_delivers checks (e := .closed p) (hses.withStore rfl) howner') ?_ fun _ _ hfalse => hfalse
  exact fun _ _ h => h.2.2

end Session

/-! ### The copy of a changed document -/

namespace Desk

/-- An operation on a replica has failed since, or a text is read from a path. -/
def Copied (failures : Nat) (q : Path) (text : String) (s : Shared) : Prop :=
  failures < s.failures ∨ s.disk.read q = .ok (Text.Utf8.encode text)

theorem copied_calm (failures : Nat) (q : Path) (text : String) : Shared.Calm (Copied failures q text) where
  report s r h := h.imp_left fun h => (Shared.kept_failed failures).report s r h
  publish _ _ h := h
  mark _ _ _ _ h _ := h

/-- A changed document has its text in the replica, unless that fails. -/
theorem syncReplica_copies {p : Path} {d : Desk} {doc : Document} (hdoc : d.shared.store.get? p = some doc) :
    wp (syncReplica p) (fun _ d' => Copied d.shared.failures (d.workspace.replicaPath p) doc.content d'.shared)
      (fun _ _ => False) d := by
  rw [syncReplica, wp_bind, wp_get]
  simp only [hdoc]
  rw [wp_bind]
  refine wp_onReplica (fun u disk hrun => (wp_pure _).mpr (.inr (Replica.read_of_write hrun))) fun err disk _ => ?_
  rw [wp_pure]
  left
  rw [Shared.failures_of_failed _ _ (by decide)]
  exact Nat.lt_succ_self _

/-- When a change is handled, the copy of its document gets the document's text, unless that fails. -/
theorem changed_copies (checks : Checkers) {p : Path} {d : Desk} {doc : Document} (hdoc : d.shared.store.get? p = some doc) :
    wp (onEditorEvent checks (.changed p))
      (fun _ d' => Copied d.shared.failures (d.workspace.replicaPath p) doc.content d'.shared)
      (fun _ d' => Copied d.shared.failures (d.workspace.replicaPath p) doc.content d'.shared) d := by
  have hin : d.shared.store.contains p = true := by simp [Store.contains, hdoc]
  have hcalm : Calm fun d' => Copied d.shared.failures (d.workspace.replicaPath p) doc.content d'.shared :=
    ⟨fun _ => copied_calm _ _ _, fun _ _ _ h => h⟩
  have hrec : Records fun d' => Copied d.shared.failures (d.workspace.replicaPath p) doc.content d'.shared :=
    fun _ _ _ _ h _ _ => h
  rw [onEditorEvent, wp_bind, wp_get]
  simp only [EditorEvent.path, hin, Bool.not_true, Bool.false_eq_true, if_false]
  rw [wp_bind, editorChanged, wp_bind, wp_get]
  simp only [hin, if_true]
  rw [wp_bind]
  refine wp_imp (syncReplica_copies hdoc) (fun _ d' hd' => ?_) fun _ _ hfalse => hfalse.elim
  refine wp_imp (hcalm.diagnose_keeps checks hrec p d' hd') (fun _ d' hd' => ?_) fun _ _ h => h
  refine Preserves.ite (fun _ => ?_) (fun _ => Preserves.pure _) d' hd'
  exact Preserves.bind (hcalm.reloadConfig_keeps checks hrec) fun _ => Preserves.pure _

end Desk

namespace Session

variable {ses : Session} {roots : List Path} {turns : List Turn} {p root resolved : Path} {r : Running} (checks : Checkers)

/-- When the loop that a path belongs to handles a change, the text of the path's document is
    in the replica, unless that fails. -/
theorem handleNext_copies (hses : ses.Rooted roots) (howner : ses.owner? p = some r) (halive : r.isAlive = true)
    {rest : List EditorEvent} (hqueue : r.queue = .changed p :: rest) {doc : Document}
    (hdoc : ses.shared.store.get? p = some doc) :
    Desk.Copied ses.shared.failures (r.workspace.replicaPath p) doc.content
      (ses.step checks (.handleNext r.workspace.root)).shared := by
  have hfind := hses.find? (mem_of_owner? howner)
  have hcopies := Desk.changed_copies checks (d := ⟨ses.shared, r.workspace⟩) hdoc
  have hcopied : Desk.Copied ses.shared.failures (r.workspace.replicaPath p) doc.content
      (r.handleNext checks ses.shared).2 := by
    unfold Running.handleNext Running.work
    simp only [halive, hqueue]
    cases hrun : Desk.onEditorEvent checks (.changed p) ⟨ses.shared, r.workspace⟩ with
    | error err d =>
      have hd := (wp_of_error hrun).mp hcopies
      dsimp only
      split
      · exact (Desk.copied_calm _ _ _).report _ _ hd
      · exact hd
    | ok outcome d =>
      have hd := (wp_of_ok hrun).mp hcopies
      dsimp only
      split
      · exact (Desk.copied_calm _ _ _).report _ _ hd
      · exact hd
  rw [step, afterLoop, hfind]
  exact hcopied

theorem after_of_wp {α : Type} {act : Act Session α} {Q : Session → Prop}
    (h : wp act (fun _ => Q) (fun _ _ => False) ses) : Q (ses.after act) := by
  rw [after]
  cases hrun : act ses with
  | ok a ses' => exact (wp_of_ok hrun).mp h
  | error err ses' => exact ((wp_of_error hrun).mp h).elim

/-! ### From the opening on -/

/-- **Calls on the paths below a root reach the workspace that was opened there.**  Whatever
    came before and comes after the opening of a root: a path belongs to the workspace at the
    root, or to one at a deeper root, just if it starts with the root as it was resolved.
    The calls of the editor on such a path are handed to that workspace's loop, and when
    the loop handles a change, the text is in the replica, unless writing it fails. -/
theorem routed_of_run (ses : Session) (hnone : ses.workspaces = []) (hproper : ses.shared.disk.Proper)
    {before after : List Turn} (hbefore : ∀ t ∈ before, t.Spells) (hafter : ∀ t ∈ after, t.Spells)
    (hopen : (ses.run checks before).openedAt checks root = some resolved) :
    let now := ses.run checks (before ++ .openWorkspace root :: after)
    ∀ p, (p.startsWith resolved = true ↔
        ∃ r, now.owner? p = some r ∧ r.workspace.root.startsWith resolved = true ∧ p.startsWith r.workspace.root = true)
      ∧ ∀ r, now.owner? p = some r →
        (∀ text, (now.step checks (.didOpen p text)).Delivered r [.opened p, .changed p] p)
        ∧ (now.shared.store.contains p = true →
            (∀ changes, (now.step checks (.didChange p changes)).Delivered r [.changed p] p)
            ∧ (now.step checks (.didClose p)).Delivered r [.closed p] p)
        ∧ ∀ rest doc, r.isAlive = true → r.queue = .changed p :: rest → now.shared.store.get? p = some doc →
            let handled := now.step checks (.handleNext r.workspace.root)
            now.shared.failures < handled.shared.failures
              ∨ handled.shared.disk.read (r.workspace.replicaPath p) = .ok (Text.Utf8.encode doc.content) := by
  intro now p
  obtain ⟨roots, hroots⟩ := run_rooted checks (Rooted.of_start hnone hproper) hbefore
  obtain ⟨more, hopened, -⟩ := step_rooted checks hroots (t := .openWorkspace root) fun _ hd => by cases hd
  obtain ⟨others, hrest⟩ := run_rooted checks hopened hafter
  have hnow : now.Rooted ([] ++ roots ++ more ++ others) := by
    simp only [now]
    rw [run_append]
    exact hrest
  obtain ⟨r₀, hr₀, hsame⟩ := mem_of_openedAt checks hopen
  rw [hopened.bears.roots] at hr₀
  have hmem : r₀ ∈ [] ++ roots ++ more ++ others := List.mem_append_left _ hr₀
  have hcongr : ∀ q : Path, q.startsWith resolved = q.startsWith r₀ := by
    intro q
    simp only [Path.startsWith, Path.same_iff.mp hsame]
  refine ⟨⟨fun hp => ?_, ?_⟩, fun r howner => ⟨fun text => ?_, fun hin => ⟨fun changes => ?_, ?_⟩, fun rest doc halive hqueue hdoc => ?_⟩⟩
  · obtain ⟨owner, howner, hdeeper⟩ := exists_ownerOf hnow.distinct.resolved hmem ((hcongr p).symm.trans hp)
    have hstarts := (startsWith_of_ownerOf howner).2
    rw [← hnow.bears.roots, ← owner?_root, Option.map_eq_some_iff] at howner
    obtain ⟨r, hr, rfl⟩ := howner
    exact ⟨r, hr, (hcongr _).trans hdeeper, hstarts⟩
  · rintro ⟨r, -, hdeeper, hstarts⟩
    exact Path.startsWith_trans hstarts hdeeper
  · exact after_of_wp (didOpen_delivers checks text hnow howner)
  · exact after_of_wp (didChange_delivers checks changes hnow howner hin)
  · exact after_of_wp (didClose_delivers checks hnow howner hin)
  · exact handleNext_copies checks hnow howner halive hqueue hdoc

/-- A project with a program and a directory. -/
def projectDisk : Disk :=
  [([Name.text "r"], Entry.directory 0o700), ([.text "w"], .directory 0o755), ([.text "w", .text "s"], .directory 0o755),
    ([.text "w", .text "a.dsp"], .file [0x61] 0o644)].foldl (fun d x => d.insert x.1 x.2) Disk.blank

/-- An opening below a root that is spelled with too many separators reaches the root's loop. -/
theorem routed_while_opening :
    let checks : Checkers := ⟨fun _ _ => some [], fun _ _ => []⟩
    let p : Path := ⟨"//w/a.dsp"⟩
    let now := (inHarbor projectDisk).run checks [.openWorkspace ⟨"//w/"⟩, .openWorkspace ⟨"/w/s"⟩]
    ∃ r, now.owner? p = some r ∧ (now.step checks (.didOpen p "x")).Delivered r [.opened p, .changed p] p := by
  intro checks p now
  have hproper : (inHarbor projectDisk).shared.disk.Proper := Disk.proper_of_clear (by decide)
  have hbefore : ∀ t ∈ ([] : List Turn), t.Spells := by simp
  have hafter : ∀ t ∈ [Turn.openWorkspace ⟨"/w/s"⟩], t.Spells := by simp [Turn.Spells]
  have hopen : ((inHarbor projectDisk).run checks []).openedAt checks ⟨"//w/"⟩ = some ⟨"/w"⟩ := by decide +kernel
  obtain ⟨hstarts, hcalls⟩ := routed_of_run checks (inHarbor projectDisk) rfl hproper hbefore hafter hopen p
  obtain ⟨r, howner, -⟩ := hstarts.mp (by decide)
  exact ⟨r, howner, (hcalls r howner).1 "x"⟩

/-- **A path that starts with a root as it was spelled may belong to no workspace.**  The root
    is a link; what is opened below it is checked as a file outside of all workspaces, and
    the replica keeps the text that the disk has. -/
theorem outside_by_link :
    let checks : Checkers := ⟨fun _ _ => some [], fun _ _ => []⟩
    let p : Path := ⟨"/l/a.dsp"⟩
    let ses := inHarbor (projectDisk.insert [.text "l"] (.link ⟨"/w"⟩))
    let opened := ses.step checks (.openWorkspace ⟨"/l"⟩)
    let edited := opened.run checks [.didOpen p "x", .handleNext ⟨"/w"⟩, .handleNext ⟨"/w"⟩]
    ses.openedAt checks ⟨"/l"⟩ = some ⟨"/w"⟩ ∧ p.startsWith ⟨"/l"⟩ = true ∧ (opened.owner? p).isSome = false
      ∧ edited.shared.store.isOpen p = true
      ∧ (edited.shared.disk.read ⟨"/r/w/a.dsp"⟩).toOption = some [0x61] := by
  decide +kernel

end Session

end LiveWorkspace
