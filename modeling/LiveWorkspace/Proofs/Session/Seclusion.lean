/-
  LiveWorkspace/Proofs/Session/Seclusion.lean
  ===========================================
  **What workspaces do comes to none of them as an event.**

  A workspace watches its root and what is below it, and writes to its replica.  As long as
  no root is opened at, above or below the directory that holds the replicas, no replica
  lies below a root, and no turn changes an entry at or below one (`secluded_of_run`): what
  is written is never found again as a change to be copied.

  Nobody sees to this.  The directory for replicas is chosen before any root is known, and
  where it lies below a root, a write in the replica is copied to a deeper place of the
  same replica, which is again below the root (`mirrored_again`).
-/
import Mathlib
import LiveWorkspace.Proofs.Session.Routing

namespace LiveWorkspace

/-! ### Where a resolved path is -/

/-- The location that the names of a path lead to. -/
def Path.location (p : Path) : Location := (p.components.filterMap Path.Component.name?).map .text

/-- A resolved path is spelled by the location that it was resolved to. -/
theorem Disk.location_of_canonicalize {d : Disk} {p q : Path} (hd : d.Proper) (h : d.canonicalize p = .ok q) :
    ∃ e, d.stat p = .ok (q.location, e) := by
  obtain ⟨ns, e, hstat, hns, rfl⟩ := exists_names_of_canonicalize hd h
  have hlocation : Path.location (ns.foldl Path.child ⟨"/"⟩) = ns.map .text := by
    have hroot : Path.components ⟨"/"⟩ = [.root] := by decide
    rw [Path.location, Path.components_foldl_child _ hns, hroot, List.singleton_append,
      List.filterMap_cons_none rfl, Path.filterMap_map_name]
  exact ⟨e, by rw [hstat, hlocation]⟩

namespace Session

variable {h : Harbor} {ses : Session} {t : Turn} {turns : List Turn} {root : Path} {loc : Location}

/-! ### Roots aside from the harbor -/

/-- A root that is opened lies neither at nor above nor below the harbor. -/
def Clears (h : Harbor) (ses : Session) (t : Turn) : Prop :=
  ∀ root resolved, t = .openWorkspace root → ses.shared.disk.canonicalize root = .ok resolved →
    Disk.Aside h.base resolved.location

/-- All replicas are in the harbor, and all roots aside from it. -/
structure Secluded (h : Harbor) (ses : Session) : Prop where
  moored : ses.Moored h
  rooted : ses.Rooted ses.openRoots
  aside : ∀ root ∈ ses.openRoots, Disk.Aside h.base root.location

/-- What is at or below a root is not in a replica. -/
theorem Secluded.not_zone (hses : ses.Secluded h) (hroot : root ∈ ses.openRoots) (hloc : root.location <+: loc)
    (other : Path) : ¬ h.zone other <+: loc := by
  intro hzone
  have hbase := Harbor.below_base hzone
  obtain ⟨habove, hbelow⟩ := hses.aside root hroot
  rcases List.prefix_or_prefix_of_prefix hloc hbase with hle | hle
  · exact hbelow hle
  · exact habove hle

/-- No replica is at or below a root. -/
theorem Secluded.not_location (hses : ses.Secluded h) (hroot : root ∈ ses.openRoots) (other : Path) :
    ¬ root.location <+: h.zone other := fun hzone => hses.not_zone hroot hzone other List.prefix_rfl

variable (checks : Checkers)

theorem step_secluded (hses : ses.Secluded h) (ht : t.Abides h) (hclears : ses.Clears h t) :
    (ses.step checks t).Secluded h := by
  have hspells : t.Spells := by
    rintro d rfl
    exact ht.proper
  obtain ⟨more, hrooted, hmore⟩ := step_rooted checks hses.rooted hspells
  have hroots := hrooted.bears.roots
  refine ⟨step_moored checks hses.moored ht, hroots ▸ hrooted, fun root hroot => ?_⟩
  rw [hroots] at hroot
  rcases List.mem_append.mp hroot with hold | hnew
  · exact hses.aside root hold
  · obtain ⟨given, heq, hcanonical⟩ := hmore root hnew
    exact hclears given root heq hcanonical

theorem run_secluded (hses : ses.Secluded h) (hturns : Along checks (fun ses t => t.Abides h ∧ ses.Clears h t) ses turns) :
    (ses.run checks turns).Secluded h :=
  run_keeps checks (fun _ _ hses ht => step_secluded checks hses ht.1 ht.2) hses hturns

/-- What a turn leaves alone that is not in the harbor. -/
theorem step_outside (hses : ses.Moored h) (ht : t.Abides h) (hown : ∀ d, t ≠ .disk d)
    (hloc : ∀ other, ¬ h.zone other <+: loc) : (ses.step checks t).shared.disk.get? loc = ses.shared.disk.get? loc := by
  obtain ⟨_, hbears⟩ := step_spares checks hses ht hown
  exact hbears.shared.same loc fun other _ => hloc other

/-! ### Whole runs -/

/-- **Nothing that a workspace writes is watched.**  In every session in which no root is
    opened at, above or below the directory that holds the replicas: no replica lies at or
    below the root of a workspace; no turn changes an entry at or below a root; and
    wherever a path leads, be it through links, a turn makes, changes and removes no entry of a
    directory that is not itself in the harbor. -/
theorem secluded_of_run (h : Harbor) (ses : Session) (hnone : ses.workspaces = []) (hdir : ses.replicaRoot = h.dir)
    (hstands : h.Stands ses.shared.disk) {turns : List Turn}
    (hturns : Along checks (fun ses t => t.Abides h ∧ ses.Clears h t) ses turns) :
    let now := ses.run checks turns
    (∀ r ∈ now.workspaces, ∀ root ∈ now.openRoots, ∀ loc e,
        now.shared.disk.stat r.workspace.replica.dir = .ok (loc, e) → ¬ root.location <+: loc)
      ∧ ∀ t : Turn, t.Abides h → now.Clears h t → (∀ d, t ≠ .disk d) →
        let after := now.step checks t
        (∀ root ∈ after.openRoots, ∀ loc, root.location <+: loc → after.shared.disk.get? loc = now.shared.disk.get? loc)
          ∧ ∀ dir loc mode, now.shared.disk.stat dir = .ok (loc, .directory mode) → ¬ h.base <+: loc →
            ∀ name, after.shared.disk.get? (loc ++ [name]) = now.shared.disk.get? (loc ++ [name]) := by
  intro now
  have hstart : ses.Secluded h := by
    have hroots : ses.openRoots = [] := by simp [openRoots, hnone]
    refine ⟨.of_start hnone hdir hstands, ?_, by simp [hroots]⟩
    rw [hroots]
    exact .of_start hnone hstands.proper
  have hnow : now.Secluded h := run_secluded checks hstart hturns
  constructor
  · intro r hr root hroot loc e hstat
    obtain ⟨roots, hbears⟩ := hnow.moored
    have hzone : loc = h.zone r.workspace.root := by
      rw [(hbears.lodged r hr).replica] at hstat
      exact hbears.shared.eq_zone_of_stat hstat
    rw [hzone]
    exact hnow.not_location hroot _
  · intro t ht hclears hown after
    have hafter : after.Secluded h := step_secluded checks hnow ht hclears
    constructor
    · intro root hroot loc hloc
      exact step_outside checks hnow.moored ht hown fun other => hafter.not_zone hroot hloc other
    · intro dir loc mode _ hloc name
      refine step_outside checks hnow.moored ht hown fun other hzone => hloc ?_
      -- A zone is one name below the harbor, so it cannot end above where the directory does.
      rw [Harbor.zone_eq] at hzone
      rcases List.prefix_concat_iff.mp hzone with heq | hle
      · rw [List.append_inj_left' heq rfl]
      · exact (List.prefix_append _ _).trans hle

/-- The editor's opening of a program, from the opening of its workspace on. -/
def openingTurns : List Turn := [.openWorkspace ⟨"/w"⟩, .didOpen ⟨"/w/a.dsp"⟩ "x"]

/-- Handling an opening changes no entry below the root. -/
theorem secluded_while_opening :
    let checks : Checkers := ⟨fun _ _ => some [], fun _ _ => []⟩
    ∀ loc, [.text "w"] <+: loc →
      (((inHarbor projectDisk).run checks openingTurns).step checks (.handleNext ⟨"/w"⟩)).shared.disk.get? loc
        = ((inHarbor projectDisk).run checks openingTurns).shared.disk.get? loc := by
  intro checks
  let h : Harbor := ⟨⟨"/r"⟩, [.text "r"]⟩
  have hcanonical : ((inHarbor projectDisk).shared.disk.canonicalize ⟨"/w"⟩).toOption = some ⟨"/w"⟩ := by decide +kernel
  have hmem : (⟨"/w"⟩ : Path) ∈ (((inHarbor projectDisk).run checks openingTurns).step checks (.handleNext ⟨"/w"⟩)).openRoots := by
    decide +kernel
  have hlocation : Path.location ⟨"/w"⟩ = [.text "w"] := by decide
  have hfirst : (inHarbor projectDisk).Clears h (.openWorkspace ⟨"/w"⟩) := by
    rintro _ resolved ⟨⟩ hresolved
    rw [hresolved] at hcanonical
    cases hcanonical
    exact ⟨by decide, by decide⟩
  have hother : ∀ {ses : Session} {t : Turn}, (∀ root, t ≠ .openWorkspace root) → ses.Clears h t := fun hne root _ heq =>
    absurd heq (hne root)
  have habides : (Turn.didOpen ⟨"/w/a.dsp"⟩ "x").Abides h :=
    (by decide : Path.Component.up ∉ Path.components ⟨"/w/a.dsp"⟩)
  have hturns : Along checks (fun ses t => t.Abides h ∧ ses.Clears h t) (inHarbor projectDisk) openingTurns :=
    ⟨⟨trivial, hfirst⟩, ⟨habides, hother (by simp)⟩, trivial⟩
  -- The run need not be run, since the theorem holds of all runs.
  clear_value checks
  obtain ⟨-, hturn⟩ := secluded_of_run checks h (inHarbor projectDisk) rfl rfl (stands_in_harbor (by decide) (by decide)) hturns
  obtain ⟨hbelow, -⟩ := hturn (.handleNext ⟨"/w"⟩) trivial (hother (by simp)) (by simp)
  intro loc hloc
  rw [← hlocation] at hloc
  exact hbelow ⟨"/w"⟩ hmem loc hloc

/-- **A replica below the root is copied into itself.**  A write in it is handled as a change
    of the project; the copy is made deeper in the same replica, where it is again a write
    below the root. -/
theorem mirrored_again :
    let checks : Checkers := ⟨fun _ _ => some [], fun _ _ => []⟩
    let disk := ((Disk.blank.insert [.text "w"] (.directory 0o755)).insert [.text "w", .text "m"]
      (.directory 0o755)).insert [.text "w", .text "a.dsp"] (.file [0x61] 0o644)
    let ses : Session := ⟨{}, ⟨"/w/m"⟩, { disk := disk }, [], []⟩
    let opened := ses.step checks (.openWorkspace ⟨"/w"⟩)
    let once := opened.step checks (.handleDisk ⟨"/w"⟩ (.written ⟨"/w/m/w/a.dsp"⟩))
    let twice := once.step checks (.handleDisk ⟨"/w"⟩ (.written ⟨"/w/m/w/m/w/a.dsp"⟩))
    opened.workspaces.map (fun r => (r.workspace.root, r.workspace.replica.dir)) = [(⟨"/w"⟩, ⟨"/w/m/w"⟩)]
      ∧ opened.shared.disk.hasFile ⟨"/w/m/w/m/w/a.dsp"⟩ = false
      ∧ once.shared.disk.hasFile ⟨"/w/m/w/m/w/a.dsp"⟩ = true
      ∧ once.shared.disk.hasFile ⟨"/w/m/w/m/w/m/w/a.dsp"⟩ = false
      ∧ twice.shared.disk.hasFile ⟨"/w/m/w/m/w/m/w/a.dsp"⟩ = true := by
  decide +kernel

end Session

end LiveWorkspace
