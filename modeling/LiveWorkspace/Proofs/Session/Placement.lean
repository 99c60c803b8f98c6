/-
  LiveWorkspace/Proofs/Session/Placement.lean
  ===========================================
  **Documents say where their owner has them.**

  A document is entered with the place that its path has below a root, and with the place of
  its copy.  Neither changes any more, and the compiler is given the copy that the document
  names.  Who owns the path is told anew at each turn.  The two agree as long as roots are
  apart and a root is opened before the documents below it (`placed_of_run`): then whoever
  enters a document is the only one that can ever own it.

  A document that was there first keeps the places of nobody, and its workspace is given
  nothing to compile (`places_of_nobody`).
-/
import Mathlib
import LiveWorkspace.Proofs.Replica.Naming
import LiveWorkspace.Proofs.Session.Confinement

namespace LiveWorkspace

/-! ### Roots that are apart -/

/-- No root is below another one, or spelled by nothing. -/
structure Path.Separate (roots : List Path) : Prop where
  named : ∀ root ∈ roots, root.components ≠ []
  apart : ∀ a ∈ roots, ∀ b ∈ roots, a.startsWith b = true → a = b

namespace Path

namespace Separate

variable {roots : List Path}

/-- Roots that are apart share no path. -/
theorem unique (h : Separate roots) {a b p : Path} (ha : a ∈ roots) (hb : b ∈ roots) (hpa : p.startsWith a = true)
    (hpb : p.startsWith b = true) : a = b := by
  rcases startsWith_or_startsWith hpa hpb with hab | hba
  · exact h.apart a ha b hb hab
  · exact (h.apart b hb a ha hba).symm

theorem append (h : Separate roots) {root : Path} (hne : root.components ≠ [])
    (hout : ∀ r ∈ roots, r.startsWith root = false ∧ root.startsWith r = false) : Separate (roots ++ [root]) := by
  have hmem : ∀ {a : Path}, a ∈ roots ++ [root] → a ∈ roots ∨ a = root := fun ha =>
    (List.mem_append.mp ha).imp_right List.mem_singleton.mp
  refine ⟨fun a ha => ?_, fun a ha b hb hab => ?_⟩
  · rcases hmem ha with ha | rfl
    · exact h.named a ha
    · exact hne
  · rcases hmem ha with hold | ha
    · rcases hmem hb with hb | rfl
      · exact h.apart a hold b hb hab
      · exact absurd hab (Bool.eq_false_iff.mp (hout a hold).1)
    · rcases hmem hb with hb | rfl
      · exact absurd (ha ▸ hab) (Bool.eq_false_iff.mp (hout b hb).2)
      · exact ha

end Separate

end Path

/-! ### Places of documents -/

/-- A document has the places that its path has for a root. -/
structure Document.PlacedBy (ρ root : Path) (doc : Document) : Prop where
  relative : doc.relative = doc.path.relativeTo root
  replica : doc.replica = Replica.copyFor ρ root doc.path

/-- Every document below a root is placed by it. -/
def Store.Placed (ρ : Path) (roots : List Path) (s : Store) : Prop :=
  ∀ doc ∈ s.documents, ∀ root ∈ roots, doc.path.startsWith root = true → doc.PlacedBy ρ root

theorem Document.PlacedBy.revise {ρ root : Path} {doc : Document} (h : doc.PlacedBy ρ root) (e : Text.Encoding)
    (r : Revision) : (doc.revise e r).PlacedBy ρ root := by
  cases r with
  | replace | edit | reopen | close | reload | markErrors => exact ⟨h.relative, h.replica⟩

namespace Store.Placed

variable {ρ : Path} {roots : List Path} {s s' : Store}

theorem insert (h : s.Placed ρ roots) {doc : Document}
    (hdoc : ∀ root ∈ roots, doc.path.startsWith root = true → doc.PlacedBy ρ root) : (s.insert doc).Placed ρ roots := by
  rw [Store.insert]
  split
  · exact h
  · intro x hx
    rcases List.mem_append.mp hx with hx | hx
    · exact h x hx
    · exact List.mem_singleton.mp hx ▸ hdoc

theorem erase (h : s.Placed ρ roots) (p : Path) : (s.erase p).Placed ρ roots := fun doc hdoc =>
  h doc (List.mem_filter.mp hdoc).1

theorem revise? (h : s.Placed ρ roots) {p : Path} {r : Revision} (hs' : s.revise? p r = .ok s') :
    s'.Placed ρ roots := by
  rw [Store.revise?] at hs'
  split at hs'
  · cases hs'
    intro x hx root hroot hbelow
    obtain ⟨doc, hdoc, rfl⟩ := List.mem_map.mp hx
    split at hbelow
    · rename_i hsame
      rw [Document.revise_path] at hbelow
      rw [if_pos hsame]
      exact (h doc hdoc root hroot hbelow).revise _ _
    · rename_i hsame
      rw [if_neg hsame]
      exact h doc hdoc root hroot hbelow
  · cases hs'

theorem get? (h : s.Placed ρ roots) {p root : Path} {doc : Document} (hdoc : s.get? p = some doc) (hroot : root ∈ roots)
    (hbelow : doc.path.startsWith root = true) : doc.PlacedBy ρ root :=
  h doc (List.mem_of_find?_eq_some hdoc) root hroot hbelow

end Store.Placed

/-! ### Places in the shared state -/

/-- Documents below roots are placed by them, and what was compiled after `old` was the copy
    that the root of its path has. -/
structure Shared.Placed (ρ : Path) (roots : List Path) (old : List Compilation) (s : Shared) : Prop where
  proper : s.disk.Proper
  store : s.store.Placed ρ roots
  compiled : ∃ new, s.compiled = old ++ new ∧ ∀ c ∈ new, ∀ root ∈ roots, c.request.path.startsWith root = true →
    c.request.replicaPath.same (Replica.copyFor ρ root c.request.path) = true

namespace Shared.Placed

variable {ρ : Path} {roots : List Path} {old : List Compilation} {s : Shared}

/-- From now on. -/
theorem renew (h : s.Placed ρ roots old) : s.Placed ρ roots s.compiled :=
  ⟨h.proper, h.store, [], (List.append_nil _).symm, fun _ hc => absurd hc List.not_mem_nil⟩

theorem mono {more : List Path} (h : s.Placed ρ more old) (hsub : ∀ root ∈ roots, root ∈ more) : s.Placed ρ roots old := by
  obtain ⟨new, hnew, hall⟩ := h.compiled
  exact ⟨h.proper, fun doc hdoc root hroot => h.store doc hdoc root (hsub root hroot), new, hnew,
    fun c hc root hroot => hall c hc root (hsub root hroot)⟩

/-- A root without documents below it places all of them. -/
theorem withRoot (h : s.Placed ρ roots s.compiled) {root : Path}
    (hnone : ∀ doc ∈ s.store.documents, doc.path.startsWith root = false) : s.Placed ρ (roots ++ [root]) s.compiled := by
  refine ⟨h.proper, fun doc hdoc other hother hbelow => ?_, [], (List.append_nil _).symm, fun _ hc => absurd hc List.not_mem_nil⟩
  rcases List.mem_append.mp hother with hother | hother
  · exact h.store doc hdoc other hother hbelow
  · rw [List.mem_singleton.mp hother, hnone doc hdoc] at hbelow
    cases hbelow

theorem withDisk (h : s.Placed ρ roots old) {d : Disk} (hd : d.Proper) :
    Placed ρ roots old { s with disk := d } := ⟨hd, h.store, h.compiled⟩

theorem withStore (h : s.Placed ρ roots old) {store : Store} (hstore : store.Placed ρ roots) :
    Placed ρ roots old { s with store := store } := ⟨h.proper, hstore, h.compiled⟩

/-- No work for any root misplaces documents. -/
theorem edits (hroots : Path.Separate roots) : Shared.Edits (Placed ρ roots old) where
  report _ _ hs := ⟨hs.proper, hs.store, hs.compiled⟩
  publish _ _ hs := ⟨hs.proper, hs.store, hs.compiled⟩
  compiled s c doc hs hdoc hcopy := by
    obtain ⟨new, hnew, hall⟩ := hs.compiled
    refine ⟨hs.proper, hs.store, new ++ [c], ?_, fun x hx root hroot hbelow => ?_⟩
    · rw [← List.append_assoc, ← hnew]
    · rcases List.mem_append.mp hx with hx | hx
      · exact hall x hx root hroot hbelow
      · rw [List.mem_singleton.mp hx] at hbelow ⊢
        -- The document may be spelled in another way than what is compiled.
        have hsame := Store.same_of_get?_eq_some hdoc
        have hdocBelow : doc.path.startsWith root = true := (Path.startsWith_congr hsame).trans hbelow
        rw [hcopy, (hs.store.get? hdoc hroot hdocBelow).replica]
        exact Replica.same_copyFor ρ (hroots.named root hroot) hdocBelow hsame
  revised _ _ _ _ hs hstore := hs.withStore (hs.store.revise? hstore)
  erased _ p hs := hs.withStore (hs.store.erase p)

/-- The work for one of the roots places documents where this root has them, which no other
    root can own. -/
theorem serves (hroots : Path.Separate roots) {root : Path} (hroot : root ∈ roots) :
    Shared.Serves ρ Path.Below root (Placed ρ roots old) where
  toEdits := edits hroots
  found _ _ hs hdir _ hp := Path.startsWith_trans (Disk.startsWith_of_mem_tree hs.proper hp) hdir
  watched _ _ hs := ⟨hs.proper, hs.store, hs.compiled⟩
  entered s doc hs hbelow hrelative hreplica _ := by
    refine hs.withStore (hs.store.insert fun other hother hbelow' => ?_)
    rw [hroots.unique hother hroot hbelow' hbelow]
    exact ⟨hrelative, hreplica⟩
  worked s p op hs _ hop := hs.withDisk (Replica.diskAfter_keeps (Replica.work_proper hop) hs.proper)
  moved s p q hs _ _ := hs.withDisk (Replica.diskAfter_keeps (Replica.rename_proper _ _) hs.proper)

end Shared.Placed

namespace Session

/-! ### Turns that misplace nothing -/

/-- A root that is opened lies apart from the open ones, and no document below it is there
    yet; an event is of paths of its root; and others give the disk names that a path can
    spell. -/
def Fits (ses : Session) : Turn → Prop
  | .openWorkspace root => ∀ resolved, ses.shared.disk.canonicalize root = .ok resolved →
    (∀ r ∈ ses.openRoots, r.same resolved = false) →
    (∀ r ∈ ses.openRoots, r.startsWith resolved = false ∧ resolved.startsWith r = false)
      ∧ ∀ doc ∈ ses.shared.store.documents, doc.path.startsWith resolved = false
  | .handleDisk root event => root.Below event.path ∧ ∀ source, event.source = some source → root.Below source
  | .disk d => d.Proper
  | .didOpen .. | .didChange .. | .didClose _ | .diagnose _ | .handleNext _ | .handleWatchFailure _ => True

/-- All documents of a session are placed by the roots above them, which lie apart. -/
structure Placed (ρ : Path) (old : List Compilation) (ses : Session) : Prop where
  separate : Path.Separate ses.openRoots
  bears : ses.Bears ρ Path.Below ses.openRoots (Shared.Placed ρ ses.openRoots old)

namespace Placed

variable {ρ : Path} {old : List Compilation} {ses : Session}

theorem of_bears {roots : List Path} (hroots : Path.Separate roots)
    (h : ses.Bears ρ Path.Below roots (Shared.Placed ρ roots old)) : ses.Placed ρ old := by
  obtain rfl := h.roots
  exact ⟨hroots, h⟩

theorem of_start (hnone : ses.workspaces = []) (hd : ses.shared.disk.Proper) :
    ses.Placed ses.replicaRoot ses.shared.compiled := by
  have hroots : ses.openRoots = [] := by rw [openRoots, hnone]; rfl
  refine ⟨?_, rfl, rfl, ⟨hd, ?_, [], (List.append_nil _).symm, ?_⟩, ?_, ?_⟩
  · rw [hroots]
    exact ⟨fun _ hroot => absurd hroot List.not_mem_nil, fun _ hroot => absurd hroot List.not_mem_nil⟩
  · rw [hroots]
    exact fun _ _ _ hroot => absurd hroot List.not_mem_nil
  · exact fun _ hc => absurd hc List.not_mem_nil
  · rw [hnone]
    exact fun _ hr => absurd hr List.not_mem_nil
  · rw [hnone]
    exact fun _ hr => absurd hr List.not_mem_nil

theorem renew (h : ses.Placed ρ old) : ses.Placed ρ ses.shared.compiled := ⟨h.separate, h.bears.mono Shared.Placed.renew⟩

/-- A session cares for every path. -/
theorem cares (h : ses.Placed ρ old) (p : Path) :
    Cares ρ Path.Below ses.openRoots (Shared.Placed ρ ses.openRoots old) p := by
  intro root howner
  obtain ⟨hroot, hbelow⟩ := startsWith_of_ownerOf howner
  exact ⟨hbelow, Shared.Placed.serves h.separate hroot⟩

/-- The owner of a path is one of the open roots, with the replica that it has there. -/
theorem owner (h : ses.Placed ρ old) {p : Path} {r : Running} (howner : ses.owner? p = some r) :
    r.workspace.root ∈ ses.openRoots ∧ p.startsWith r.workspace.root = true
      ∧ r.workspace.replicaPath p = Replica.copyFor ρ r.workspace.root p := by
  have hroot := owner?_root ses p
  rw [howner] at hroot
  obtain ⟨hmem, hbelow⟩ := startsWith_of_ownerOf hroot.symm
  exact ⟨hmem, hbelow, (h.bears.lodged r (mem_of_owner? howner)).replicaPath_eq p⟩

end Placed

variable {ρ : Path} {ses : Session} {old : List Compilation} {t : Turn} {turns : List Turn} (checks : Checkers)

/-- **A turn misplaces no document, and compiles none from a wrong place.** -/
theorem step_placed (hses : ses.Placed ρ old) (ht : ses.Fits t) :
    (ses.step checks t).Placed ρ ses.shared.compiled := by
  obtain ⟨hroots, hbears⟩ := hses.renew
  have hedits : Shared.Edits (Shared.Placed ρ ses.openRoots ses.shared.compiled) :=
    Shared.Placed.edits hroots
  have hserves : ∀ root ∈ ses.openRoots,
      Shared.Serves ρ Path.Below root (Shared.Placed ρ ses.openRoots ses.shared.compiled) := fun root hroot =>
    Shared.Placed.serves hroots hroot
  have hcares := hses.renew.cares
  cases t with
  | didOpen p text =>
    refine .of_bears hroots (bears_after (didOpen_bears checks hedits text (hcares p) fun hnone s doc hs hdoc _ => ?_) hbears)
    refine hs.withStore (hs.store.insert fun root hroot hbelow => ?_)
    rw [hdoc, not_startsWith_of_ownerOf hnone hroot] at hbelow
    cases hbelow
  | didChange p changes => exact .of_bears hroots (bears_after (didChange_bears checks hedits (hcares p) changes) hbears)
  | didClose p => exact .of_bears hroots (bears_after (didClose_bears checks hedits (hcares p)) hbears)
  | openWorkspace root =>
    have hopen : wp (openWorkspace checks root) _ _ ses := openWorkspace_bears checks
      (N := fun resolved s => s.Placed ρ (ses.openRoots ++ [resolved]) ses.shared.compiled)
      (fun resolved s hs => ?_) (fun resolved hresolved hother => ?_) hbears
    · rw [step, after]
      cases hrun : openWorkspace checks root ses with
      | ok outcome ses' =>
        rcases (wp_of_ok hrun).mp hopen with hses' | ⟨resolved, hresolved, hother, hses'⟩
        · exact .of_bears hroots hses'
        · obtain ⟨-, hne⟩ := Disk.encloses_of_canonicalize hbears.shared.proper hresolved
          exact .of_bears (hroots.append hne (ht resolved hresolved hother).1) hses'
      | error err ses' => exact .of_bears hroots ((wp_of_error hrun).mp hopen)
    · exact hs.mono fun _ hroot => List.mem_append_left _ hroot
    · obtain ⟨-, hne⟩ := Disk.encloses_of_canonicalize hbears.shared.proper hresolved
      obtain ⟨hapart, hnone⟩ := ht resolved hresolved hother
      have hseparate := hroots.append hne hapart
      refine ⟨Path.startsWith_refl resolved,
        Shared.Placed.serves hseparate (List.mem_append_right _ List.mem_cons_self), ?_⟩
      exact (hbears.shared.withRoot hnone).withDisk (Replica.replicate_proper _ _ hbears.shared.proper)
  | diagnose p => exact .of_bears hroots (bears_after (diagnose_bears checks hedits p) hbears)
  | handleNext root =>
    refine .of_bears hroots (afterLoop_bears hbears fun hroot r hr => ?_)
    exact (hserves root hroot).kept.handleNext_keeps checks (hserves root hroot).records hr
  | handleDisk root event =>
    refine .of_bears hroots (afterLoop_bears hbears fun hroot r hr => ?_)
    exact (hserves root hroot).kept.handleDisk_keeps checks (hserves root hroot).records event ht.1 ht.2 hr
  | handleWatchFailure root =>
    refine .of_bears hroots (afterLoop_bears hbears fun hroot r hr => ?_)
    exact (hserves root hroot).kept.handleWatchFailure_keeps hr
  | disk d => exact .of_bears hroots (hbears.withShared (hbears.shared.withDisk ht))

theorem run_placed (hses : ses.Placed ρ old) (hturns : Along checks Fits ses turns) :
    ∃ old, (ses.run checks turns).Placed ρ old :=
  run_keeps checks (I := fun ses => ∃ old, ses.Placed ρ old)
    (fun ses _ hses ht => hses.elim fun _ hses => ⟨ses.shared.compiled, step_placed checks hses ht⟩) ⟨old, hses⟩ hturns

/-- **Documents are where their owner has them.**  After any turns in which roots are opened
    apart and before the documents below them: every document whose path has an owner has
    the place of its path below the owner's root, and names the copy that the owner works on.
    And what the last turn gave to the compiler for a path with an owner is that copy. -/
theorem placed_of_run (ses : Session) (hnone : ses.workspaces = []) (hproper : ses.shared.disk.Proper)
    (hturns : Along checks Fits ses turns) (ht : (ses.run checks turns).Fits t) :
    let before := ses.run checks turns
    let after := before.step checks t
    (∀ doc ∈ after.shared.store.documents, ∀ r, after.owner? doc.path = some r →
        doc.relative = doc.path.relativeTo r.workspace.root ∧ doc.replica = r.workspace.replicaPath doc.path)
      ∧ ∃ new, after.shared.compiled = before.shared.compiled ++ new ∧
        ∀ c ∈ new, ∀ r, after.owner? c.request.path = some r →
          c.request.replicaPath.same (r.workspace.replicaPath c.request.path) = true := by
  intro before after
  obtain ⟨old, hbefore⟩ := run_placed checks (.of_start hnone hproper) hturns
  have hafter : after.Placed ses.replicaRoot before.shared.compiled := step_placed checks hbefore ht
  obtain ⟨new, hnew, hall⟩ := hafter.bears.shared.compiled
  refine ⟨fun doc hdoc r howner => ?_, new, hnew, fun c hc r howner => ?_⟩
  · obtain ⟨hroot, hbelow, hcopy⟩ := hafter.owner howner
    have hplaced := hafter.bears.shared.store doc hdoc _ hroot hbelow
    exact ⟨hplaced.relative, hplaced.replica.trans hcopy.symm⟩
  · obtain ⟨hroot, hbelow, hcopy⟩ := hafter.owner howner
    rw [hcopy]
    exact hall c hc _ hroot hbelow

/-- Two projects, the first of which says what it compiles, and a directory for replicas. -/
def configuredDisk : Disk :=
  [([Name.text "r"], Entry.directory 0o700), ([.text "w"], .directory 0o755), ([.text "v"], .directory 0o755),
    ([.text "w", .text "a.dsp"], .file [0x61] 0o644), ([.text "v", .text "b.dsp"], .file [0x62] 0o644),
    ([.text "w", .text ".faustcfg.json"], .file (Text.Utf8.encode "\x7b\"process_files\":[\"a.dsp\"]\x7d") 0o644)].foldl
    (fun d x => d.insert x.1 x.2) Disk.blank

/-- Documents of two projects that are opened before one of them is edited. -/
theorem placed_while_editing :
    let checks : Checkers := ⟨fun _ _ => some [], fun _ _ => []⟩
    let turns : List Turn := [.openWorkspace ⟨"/w"⟩, .openWorkspace ⟨"/v"⟩]
    let before := (inHarbor configuredDisk).run checks turns
    let after := before.step checks (.didOpen ⟨"/v/b.dsp"⟩ "y")
    (∀ doc ∈ after.shared.store.documents, ∀ r, after.owner? doc.path = some r →
        doc.relative = doc.path.relativeTo r.workspace.root ∧ doc.replica = r.workspace.replicaPath doc.path)
      ∧ ∃ new, after.shared.compiled = before.shared.compiled ++ new ∧
        ∀ c ∈ new, ∀ r, after.owner? c.request.path = some r →
          c.request.replicaPath.same (r.workspace.replicaPath c.request.path) = true := by
  intro checks turns before after
  have hfirst : (inHarbor configuredDisk).Fits (.openWorkspace ⟨"/w"⟩) := fun resolved _ _ =>
    ⟨fun _ hr => absurd hr List.not_mem_nil, fun _ hdoc => absurd hdoc List.not_mem_nil⟩
  have hsecond : ((inHarbor configuredDisk).step checks (.openWorkspace ⟨"/w"⟩)).Fits (.openWorkspace ⟨"/v"⟩) := by
    intro resolved hresolved _
    have hcanonical : (((inHarbor configuredDisk).step checks (.openWorkspace ⟨"/w"⟩)).shared.disk.canonicalize
        ⟨"/v"⟩).toOption = some ⟨"/v"⟩ := by decide +kernel
    rw [hresolved] at hcanonical
    cases hcanonical
    have hroots : ((inHarbor configuredDisk).step checks (.openWorkspace ⟨"/w"⟩)).openRoots = [⟨"/w"⟩] := by
      decide +kernel
    have hdocs : ((inHarbor configuredDisk).step checks (.openWorkspace ⟨"/w"⟩)).shared.store.documents.all
        (fun doc => !doc.path.startsWith ⟨"/v"⟩) = true := by decide +kernel
    rw [hroots]
    refine ⟨fun r hr => ?_, fun doc hdoc => ?_⟩
    · rw [List.mem_singleton.mp hr]
      decide
    · exact (Bool.not_eq_true' _).mp (List.all_eq_true.mp hdocs doc hdoc)
  have hlast : before.Fits (.didOpen ⟨"/v/b.dsp"⟩ "y") := trivial
  have hproper : (inHarbor configuredDisk).shared.disk.Proper := Disk.proper_of_clear (by decide)
  have hturns : Along checks Fits (inHarbor configuredDisk) turns := ⟨hfirst, hsecond, trivial⟩
  clear_value checks turns
  exact placed_of_run checks (inHarbor configuredDisk) rfl hproper hturns hlast

/-- **A document that was there before the root has no place below it.**  The workspace works
    on the copy of its path, and has the compiler read what no path spells. -/
theorem places_of_nobody :
    let checks : Checkers := ⟨fun _ _ => some [], fun _ _ => []⟩
    let p : Path := ⟨"/w/a.dsp"⟩
    let ses := (inHarbor configuredDisk).run checks [.didOpen p "x", .openWorkspace ⟨"/w"⟩]
    (ses.owner? p).map (fun r => (p.relativeTo r.workspace.root, r.workspace.replicaPath p))
        = some (⟨"a.dsp"⟩, ⟨"/r/w/a.dsp"⟩)
      ∧ (ses.shared.store.get? p).map (fun doc => (doc.relative, doc.replica)) = some (⟨""⟩, ⟨""⟩)
      ∧ ses.shared.compiled.map (fun c => (c.request.path, c.request.replicaPath, c.input)) = [(p, ⟨""⟩, none)] := by
  decide +kernel

end Session

end LiveWorkspace
