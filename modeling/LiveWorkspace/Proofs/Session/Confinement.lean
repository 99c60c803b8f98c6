/-
  LiveWorkspace/Proofs/Session/Confinement.lean
  =============================================
  **Each workspace of a session changes its own replica and nothing else on the disk.**

  What a turn changes on the disk lies in the replica of the workspace that it works for,
  whether the turn succeeds, fails or breaks off (`confined_of_run`).  So workspaces whose
  replicas have different names leave each other's replicas alone, in whatever order their
  turns come (`apart_of_run`).

  Both hold as long as paths do not climb: the root of a path is told by its components,
  and `..` is one that nothing resolves before the operating system does.  And a replica is
  named like its root, so that two roots with one name share a replica.
-/
import Mathlib
import LiveWorkspace.Proofs.Replica.Harbor
import LiveWorkspace.Proofs.Session.Bearing

namespace LiveWorkspace

/-! ### Turns that keep to a harbor -/

/-- A path is one of a root's, which is not spelled by nothing. -/
def Path.Under (root p : Path) : Prop := root.components ≠ [] ∧ root.Encloses p

/-- The paths of a turn do not climb, an event is of paths of its root, and a change of the
    disk by others leaves the harbor standing. -/
def Turn.Abides (h : Harbor) : Turn → Prop
  | .didOpen p _ | .didChange p _ | .didClose p => Path.Component.up ∉ p.components
  | .handleDisk root event =>
    root.Encloses event.path ∧ ∀ source, event.source = some source → root.Encloses source
  | .disk d => h.Stands d
  | .openWorkspace _ | .diagnose _ | .handleNext _ | .handleWatchFailure _ => True

namespace Harbor

/-- The harbor stands, and the disk is as it was but for the replica of a root, if one is
    given. -/
structure Spared (h : Harbor) (root? : Option Path) (d₀ d : Disk) : Prop where
  stands : h.Stands d
  same : ∀ loc, (∀ root, root? = some root → ¬ h.zone root <+: loc) → d.get? loc = d₀.get? loc

variable {h : Harbor} {d₀ d d' : Disk} {root : Path}

theorem Spared.refl (hd : h.Stands d) (root? : Option Path) : h.Spared root? d d := ⟨hd, fun _ _ => rfl⟩

theorem Spared.of_confined (hd : h.Spared (some root) d₀ d) (hc : (h.site root).Confined d d') :
    h.Spared (some root) d₀ d' :=
  ⟨hd.stands.of_confined hc, fun loc hloc => (hc.outside.get? (hloc root rfl)).trans (hd.same loc hloc)⟩

/-- Work on documents does not touch the disk. -/
theorem edits (h : Harbor) (root? : Option Path) (d₀ : Disk) : Shared.Edits fun s => h.Spared root? d₀ s.disk where
  report _ _ hs := hs
  publish _ _ hs := hs
  compiled _ _ _ hs _ _ := hs
  revised _ _ _ _ hs _ := hs
  erased _ _ hs := hs

/-- The work for a root keeps to the root's replica. -/
theorem serves (h : Harbor) (root : Path) (d₀ : Disk) :
    Shared.Serves h.dir Path.Under root fun s => h.Spared (some root) d₀ s.disk where
  toEdits := h.edits (some root) d₀
  found _ _ hs hdir _ hp := ⟨hdir.1, (Disk.encloses_of_mem_tree hs.stands.proper hdir.2 hp).1⟩
  watched _ _ hs := hs
  entered _ _ hs _ _ _ _ := hs
  worked _ _ _ hs hp hop :=
    hs.of_confined (Replica.diskAfter_keeps (Site.work_confined (hs.stands.spells_copy hp.1 hp.2) hop)
      (hs.stands.confined root))
  moved _ _ _ hs hp hq :=
    hs.of_confined (Replica.diskAfter_keeps
      (Site.rename_confined (hs.stands.spells_copy hp.1 hp.2) (hs.stands.spells_copy hq.1 hq.2))
      (hs.stands.confined root))

end Harbor

namespace Session

/-- All replicas of a session are in a harbor, and its workspaces work on their own paths. -/
def Moored (h : Harbor) (ses : Session) : Prop :=
  ∃ roots, ses.Bears h.dir Path.Under roots fun s => h.Stands s.disk

variable {h : Harbor} {ses : Session} {t : Turn} {turns : List Turn}

theorem Moored.of_start (hnone : ses.workspaces = []) (hdir : ses.replicaRoot = h.dir)
    (hd : h.Stands ses.shared.disk) : ses.Moored h := by
  refine ⟨ses.openRoots, hdir, rfl, hd, ?_, ?_⟩
  · rw [hnone]
    exact fun r hr => absurd hr List.not_mem_nil
  · rw [hnone]
    exact fun r hr => absurd hr List.not_mem_nil

/-- A session cares for every path that does not climb. -/
theorem Bears.cares {roots : List Path} {G : Shared → Prop} (hses : ses.Bears h.dir Path.Under roots G) {p : Path}
    (hp : Path.Component.up ∉ p.components) (d₀ : Disk) :
    Cares h.dir Path.Under roots (fun s => h.Spared (ownerOf roots p) d₀ s.disk) p := by
  intro root howner
  obtain ⟨hroot, hstarts⟩ := startsWith_of_ownerOf howner
  rw [← hses.roots] at hroot
  obtain ⟨r, hr, rfl⟩ := List.mem_map.mp hroot
  rw [howner]
  exact ⟨⟨(hses.lodged r hr).own.1, hstarts, hp⟩, h.serves _ d₀⟩

variable (checks : Checkers)

/-- **What a turn changes on the disk is in the replica of the workspace that it works for.** -/
theorem step_spares (hses : ses.Moored h) (ht : t.Abides h) (hown : ∀ d, t ≠ .disk d) :
    ∃ roots, (ses.step checks t).Bears h.dir Path.Under roots
      fun s => h.Spared (ses.worksFor t) ses.shared.disk s.disk := by
  obtain ⟨roots, hbears⟩ := hses
  have hedits := h.edits (ses.worksFor t) ses.shared.disk
  have hspared : ses.Bears h.dir Path.Under roots fun s => h.Spared (ses.worksFor t) ses.shared.disk s.disk :=
    hbears.mono fun hd => .refl hd _
  have howner : ∀ p, (ses.owner? p).map (·.workspace.root) = ownerOf roots p := fun p => by
    rw [owner?_root, hbears.roots]
  cases t with
  | didOpen p text =>
    rw [worksFor, howner] at hedits hspared ⊢
    exact ⟨roots, bears_after (didOpen_bears checks hedits text (hbears.cares ht _) fun _ _ _ hs _ _ => hs) hspared⟩
  | didChange p changes =>
    rw [worksFor, howner] at hedits hspared ⊢
    exact ⟨roots, bears_after (didChange_bears checks hedits (hbears.cares ht _) changes) hspared⟩
  | didClose p =>
    rw [worksFor, howner] at hedits hspared ⊢
    exact ⟨roots, bears_after (didClose_bears checks hedits (hbears.cares ht _)) hspared⟩
  | openWorkspace root =>
    have hopen : wp (openWorkspace checks root) _ _ ses := openWorkspace_bears checks (N := fun _ s =>
      h.Spared (ses.worksFor (.openWorkspace root)) ses.shared.disk s.disk) (fun _ _ hs => hs)
      (fun resolved hresolved _ => ?_) hspared
    · rw [step, after]
      cases hrun : openWorkspace checks root ses with
      | ok outcome ses' =>
        rcases (wp_of_ok hrun).mp hopen with hses' | ⟨resolved, -, -, hses'⟩
        · exact ⟨roots, hses'⟩
        · exact ⟨_, hses'⟩
      | error err ses' => exact ⟨roots, (wp_of_error hrun).mp hopen⟩
    · obtain ⟨hself, hne⟩ := Disk.encloses_of_canonicalize hbears.shared.proper hresolved
      have hfor : ses.worksFor (.openWorkspace root) = some resolved := by rw [worksFor, hresolved]; rfl
      rw [hfor]
      refine ⟨⟨hne, hself⟩, h.serves resolved _, ?_⟩
      exact (Harbor.Spared.refl hbears.shared _).of_confined (hbears.shared.replicate_confined hne hself)
  | diagnose p => exact ⟨roots, bears_after (diagnose_bears checks hedits p) hspared⟩
  | handleNext root =>
    have hserves := h.serves root ses.shared.disk
    exact ⟨roots, afterLoop_bears hspared fun _ r hr => hserves.kept.handleNext_keeps checks hserves.records hr⟩
  | handleDisk root event =>
    have hserves := h.serves root ses.shared.disk
    refine ⟨roots, afterLoop_bears hspared fun _ r hr => ?_⟩
    have hne : root.components ≠ [] := hr.desk.root ▸ hr.desk.lodged.own.1
    exact hserves.kept.handleDisk_keeps checks hserves.records event ⟨hne, ht.1⟩ (fun q hq => ⟨hne, ht.2 q hq⟩) hr
  | handleWatchFailure root =>
    have hserves := h.serves root ses.shared.disk
    exact ⟨roots, afterLoop_bears hspared fun _ r hr => hserves.kept.handleWatchFailure_keeps hr⟩
  | disk d => exact absurd rfl (hown d)

theorem step_moored (hses : ses.Moored h) (ht : t.Abides h) : (ses.step checks t).Moored h := by
  by_cases hown : ∃ d, t = .disk d
  · obtain ⟨d, rfl⟩ := hown
    obtain ⟨roots, hbears⟩ := hses
    exact ⟨roots, hbears.withShared (s := { ses.shared with disk := d }) ht⟩
  · obtain ⟨roots, hbears⟩ := step_spares checks hses ht fun d hd => hown ⟨d, hd⟩
    exact ⟨roots, hbears.mono fun hs => hs.stands⟩

theorem run_moored (hses : ses.Moored h) (hturns : ∀ t ∈ turns, t.Abides h) : (ses.run checks turns).Moored h := by
  induction turns generalizing ses with
  | nil => exact hses
  | cons t turns ih =>
    exact ih (step_moored checks hses (hturns t List.mem_cons_self)) fun t ht => hturns t (List.mem_cons_of_mem _ ht)

/-- **Replicas confine.**  In every session, after any turns of the editor, the loops and
    the disk: what a turn creates, writes or removes is at or below the directory of the
    replica of the workspace that it works for, and a turn that works for none changes
    nothing on the disk. -/
theorem confined_of_run (h : Harbor) (ses : Session) (hnone : ses.workspaces = []) (hdir : ses.replicaRoot = h.dir)
    (hstands : h.Stands ses.shared.disk) {turns : List Turn} (hturns : ∀ t ∈ turns, t.Abides h) {t : Turn}
    (ht : t.Abides h) (hown : ∀ d, t ≠ .disk d) {loc : Location}
    (hloc : ∀ root, (ses.run checks turns).worksFor t = some root → ¬ h.zone root <+: loc) :
    ((ses.run checks turns).step checks t).shared.disk.get? loc = (ses.run checks turns).shared.disk.get? loc := by
  have hmoored := run_moored checks (Moored.of_start hnone hdir hstands) hturns
  obtain ⟨roots, hbears⟩ := step_spares checks hmoored ht hown
  exact hbears.shared.same loc hloc

/-- A session with the harbor `/r` on a disk without links. -/
def inHarbor (disk : Disk) : Session := ⟨{}, ⟨"/r"⟩, { disk := disk }, [], []⟩

theorem stands_in_harbor {disk : Disk} (hclear : disk.isClear = true) (hleads : disk.leads ["r"] = true) :
    Harbor.Stands ⟨⟨"/r"⟩, [.text "r"]⟩ disk := by
  have hproper : ∀ n ∈ ["r"], Path.Proper n := by decide
  exact Harbor.Stands.of_clear hproper (by decide) rfl (by decide) (by decide) hclear hleads

/-- The directory `/w` with a file of the same name as one that is outside. -/
def outsideDisk : Disk :=
  ((Disk.blank.insert [.text "w"] (.directory 0o755)).insert [.text "r"] (.directory 0o700)).insert [.text "v.dsp"]
    (.file [0x76] 0o644)

/-- An opening below the root empties no file outside. -/
theorem confined_while_opening :
    let checks : Checkers := ⟨fun _ _ => some [], fun _ _ => []⟩
    let turns : List Turn := [.openWorkspace ⟨"/w"⟩, .didOpen ⟨"/w/v.dsp"⟩ "x"]
    let opened : Session := (inHarbor outsideDisk).run checks turns
    (opened.step checks (.handleNext ⟨"/w"⟩)).shared.disk.get? [.text "v.dsp"] = opened.shared.disk.get? [.text "v.dsp"] := by
  intro checks turns opened
  let h : Harbor := ⟨⟨"/r"⟩, [.text "r"]⟩
  have hturns : ∀ t ∈ turns, t.Abides h := by
    intro t ht
    simp only [turns, List.mem_cons, List.not_mem_nil, or_false] at ht
    rcases ht with rfl | rfl
    · trivial
    · exact (by decide : Path.Component.up ∉ Path.components ⟨"/w/v.dsp"⟩)
  -- The run need not be run, since the theorem holds of all runs.
  clear_value checks turns
  have hown : ∀ d, Turn.handleNext ⟨"/w"⟩ ≠ .disk d := fun d hd => by cases hd
  have hloc : ∀ root, opened.worksFor (.handleNext ⟨"/w"⟩) = some root → ¬ h.zone root <+: [.text "v.dsp"] := by
    intro root hroot
    rw [worksFor, Option.some.injEq] at hroot
    subst hroot
    decide
  have ht : (Turn.handleNext ⟨"/w"⟩).Abides h := trivial
  exact confined_of_run checks h (inHarbor outsideDisk) rfl rfl (stands_in_harbor (by decide) (by decide)) hturns
    ht hown hloc

/-- **A path that climbs leads out of the replica.**  It belongs to the workspace, since its
    components begin with those of the root; when its opening is handled, a file is emptied
    that is not in the replica. -/
theorem outside_emptied :
    let checks : Checkers := ⟨fun _ _ => some [], fun _ _ => []⟩
    let p : Path := ⟨"/w/../../v.dsp"⟩
    let ses := (inHarbor outsideDisk).run checks [.openWorkspace ⟨"/w"⟩, .didOpen p "x"]
    ses.worksFor (.didOpen p "x") = some ⟨"/w"⟩
      ∧ (ses.workspaces.map (·.workspace.replica.dir)) = [⟨"/r/w"⟩]
      ∧ ses.shared.disk.get? [.text "v.dsp"] = some (.file [0x76] 0o644)
      ∧ (ses.step checks (.handleNext ⟨"/w"⟩)).shared.disk.get? [.text "v.dsp"] = some (.file [] 0o644) := by
  decide +kernel

/-! ### Workspaces among each other -/

/-- A turn is no change of the disk by others, and works for no root with a replica of the
    same name as that of the given one. -/
def Elsewhere (root : Path) (ses : Session) (t : Turn) : Prop :=
  (∀ d, t ≠ .disk d) ∧ ∀ other, ses.worksFor t = some other → Replica.nameFor other ≠ Replica.nameFor root

theorem run_apart (hses : ses.Moored h) (hturns : ∀ t ∈ turns, t.Abides h) {root : Path}
    (helsewhere : Along checks (Elsewhere root) ses turns) {loc : Location} (hloc : h.zone root <+: loc) :
    (ses.run checks turns).shared.disk.get? loc = ses.shared.disk.get? loc := by
  induction turns generalizing ses with
  | nil => rfl
  | cons t turns ih =>
    have ht := hturns t List.mem_cons_self
    obtain ⟨⟨hown, hother⟩, hrest⟩ := helsewhere
    obtain ⟨roots, hbears⟩ := step_spares checks hses ht hown
    have hstep := hbears.shared.same loc fun other hfor => Harbor.zones_apart (Ne.symm (hother other hfor)) hloc
    have hrun := ih (step_moored checks hses ht) (fun t ht => hturns t (List.mem_cons_of_mem _ ht)) hrest
    exact hrun.trans hstep

/-- **Workspaces whose replicas have different names do not interfere.**  In every session,
    whatever came before: while turns work for other workspaces, be it to open one or to
    handle events of the disk or of the editor, every entry of a workspace's replica stays
    what it is. -/
theorem apart_of_run (h : Harbor) (ses : Session) (hnone : ses.workspaces = []) (hdir : ses.replicaRoot = h.dir)
    (hstands : h.Stands ses.shared.disk) {before after : List Turn} (hturns : ∀ t ∈ before ++ after, t.Abides h)
    {root : Path} (helsewhere : Along checks (Elsewhere root) (ses.run checks before) after) {loc : Location}
    (hloc : h.zone root <+: loc) :
    (ses.run checks (before ++ after)).shared.disk.get? loc = (ses.run checks before).shared.disk.get? loc := by
  have hmoored := run_moored checks (Moored.of_start hnone hdir hstands) fun t ht =>
    hturns t (List.mem_append_left _ ht)
  rw [run_append]
  exact run_apart checks hmoored (fun t ht => hturns t (List.mem_append_right _ ht)) helsewhere hloc

/-- Three projects with one file each, two of them with the same name. -/
def projectsDisk : Disk :=
  [("a", "p", 0x61), ("b", "p", 0x62), ("b", "q", 0x63)].foldl (fun d x =>
      ((d.insert [.text x.1] (.directory 0o755)).insert [.text x.1, .text x.2.1] (.directory 0o755)).insert
        [.text x.1, .text x.2.1, .text "x.dsp"] (.file [x.2.2] 0o644))
    (Disk.blank.insert [.text "r"] (.directory 0o700))

/-- Editing in one project leaves the replica of the other one. -/
theorem apart_while_editing :
    let checks : Checkers := ⟨fun _ _ => some [], fun _ _ => []⟩
    let before : List Turn := [.openWorkspace ⟨"/a/p"⟩, .openWorkspace ⟨"/b/q"⟩, .didOpen ⟨"/b/q/x.dsp"⟩ "y"]
    let after : List Turn := [.handleNext ⟨"/b/q"⟩, .handleNext ⟨"/b/q"⟩]
    ((inHarbor projectsDisk).run checks (before ++ after)).shared.disk.get? [.text "r", .text "p", .text "x.dsp"]
      = ((inHarbor projectsDisk).run checks before).shared.disk.get? [.text "r", .text "p", .text "x.dsp"] := by
  intro checks before after
  let h : Harbor := ⟨⟨"/r"⟩, [.text "r"]⟩
  have hturns : ∀ t ∈ before ++ after, t.Abides h := by
    intro t ht
    simp only [before, after, List.cons_append, List.nil_append, List.mem_cons, List.not_mem_nil, or_false] at ht
    rcases ht with rfl | rfl | rfl | rfl | rfl
    · trivial
    · trivial
    · exact (by decide : Path.Component.up ∉ Path.components ⟨"/b/q/x.dsp"⟩)
    · trivial
    · trivial
  have helsewhere : ∀ ses : Session, Elsewhere ⟨"/a/p"⟩ ses (.handleNext ⟨"/b/q"⟩) := by
    refine fun ses => ⟨fun d hd => ?_, fun other hother => ?_⟩
    · cases hd
    · rw [worksFor, Option.some.injEq] at hother
      subst hother
      decide
  clear_value checks before
  have halong : ∀ ses : Session, Along checks (Elsewhere ⟨"/a/p"⟩) ses after := fun _ =>
    ⟨helsewhere _, helsewhere _, trivial⟩
  exact apart_of_run checks h (inHarbor projectsDisk) rfl rfl (stands_in_harbor (by decide) (by decide)) hturns
    (halong _) (by decide)

/-- **Roots with the same name share a replica.**  When the second one is opened, the copy of
    the first one's file is overwritten. -/
theorem replica_overwritten :
    let checks : Checkers := ⟨fun _ _ => some [], fun _ _ => []⟩
    let first := (inHarbor projectsDisk).run checks [.openWorkspace ⟨"/a/p"⟩]
    let second := first.step checks (.openWorkspace ⟨"/b/p"⟩)
    let p : Path := ⟨"/a/p/x.dsp"⟩
    second.openRoots = [⟨"/a/p"⟩, ⟨"/b/p"⟩]
      ∧ (second.owner? p).map (·.workspace.replicaPath p) = some ⟨"/r/p/x.dsp"⟩
      ∧ (first.shared.disk.read ⟨"/r/p/x.dsp"⟩).toOption = some [0x61]
      ∧ (second.shared.disk.read ⟨"/r/p/x.dsp"⟩).toOption = some [0x62] := by
  decide +kernel

end Session

end LiveWorkspace
