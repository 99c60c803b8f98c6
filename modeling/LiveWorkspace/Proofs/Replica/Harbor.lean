/-
  LiveWorkspace/Proofs/Replica/Harbor.lean
  ========================================
  **The directory that holds all replicas of a session.**

  A harbor is reached without passing through anything below it, and has no links below it.
  So each replica in it stands (`Harbor.Stands.site`), and whatever one of them does in its
  own zone leaves the harbor as it should be, for itself and for the others.  The zones of
  two replicas with different names have nothing in common.
-/
import LiveWorkspace.Proofs.Disk.Clear
import LiveWorkspace.Proofs.Replica.Confined
import LiveWorkspace.Proofs.Workspace.Lodging

namespace LiveWorkspace

/-! ### Names of replicas -/

/-- The name that the replica of a root has among the others. -/
def Replica.nameFor (root : Path) : String := root.fileName?.getD "workspace"

theorem Replica.ofWorkspace_eq (ρ root : Path) : Replica.ofWorkspace ρ root = ⟨ρ.child (nameFor root)⟩ := rfl

theorem Replica.proper_nameFor (root : Path) : Path.Proper (nameFor root) := by
  rw [nameFor]
  cases hname : root.fileName? with
  | none => decide
  | some name => exact Path.proper_fileName? hname

/-! ### Harbors -/

/-- A directory that holds replicas, by its path and its location. -/
structure Harbor where
  dir : Path
  base : Location

namespace Harbor

/-- Where the replica of a root is. -/
def site (h : Harbor) (root : Path) : Site := ⟨h.dir, h.base, Replica.nameFor root⟩

/-- The location of the replica of a root. -/
def zone (h : Harbor) (root : Path) : Location := (h.site root).zone

/-- The harbor is reached whatever happens below it, and there are no links below it. -/
structure Stands (h : Harbor) (d : Disk) : Prop where
  reached : ∀ d' : Disk, d'.workingDir = d.workingDir →
    (∀ loc, loc = h.base ∨ ¬ h.base <+: loc → d'.get? loc = d.get? loc) →
    ∃ mode, d'.stat h.dir = .ok (h.base, .directory mode)
  unlinked : ∀ loc target, h.base <+: loc → loc ≠ h.base → d.get? loc ≠ some (.link target)
  proper : d.Proper

variable {h : Harbor} {d d' : Disk} {root other : Path} {loc : Location}

theorem zone_eq (h : Harbor) (root : Path) : h.zone root = h.base ++ [.text (Replica.nameFor root)] := rfl

theorem below_base (hloc : h.zone root <+: loc) : h.base <+: loc := (List.prefix_append _ _).trans hloc

theorem ne_base (hloc : h.zone root <+: loc) : loc ≠ h.base := by
  rintro rfl
  have hlen := hloc.length_le
  rw [zone_eq, List.length_append] at hlen
  exact Nat.not_succ_le_self _ hlen

/-- Replicas with different names have no place in common. -/
theorem zones_apart (hne : Replica.nameFor root ≠ Replica.nameFor other) (hloc : h.zone root <+: loc) :
    ¬ h.zone other <+: loc := by
  intro hother
  have hboth := List.prefix_of_prefix_length_le hloc hother (by
    rw [zone_eq, zone_eq, List.length_append, List.length_append]
    exact Nat.le_refl _)
  rw [zone_eq, zone_eq, List.prefix_append_right_inj, List.cons_prefix_cons] at hboth
  exact hne (Name.text.inj hboth.1)

namespace Stands

theorem site (hd : h.Stands d) (root : Path) : (h.site root).Stands d := by
  refine ⟨Replica.proper_nameFor root, fun d' hout => ?_, fun loc target hloc => ?_⟩
  · refine hd.reached d' hout.workingDir fun loc hloc => hout.get? fun (hzone : h.zone root <+: loc) => ?_
    rcases hloc with hloc | hloc
    · exact ne_base hzone hloc
    · exact hloc (below_base hzone)
  · have hzone : h.zone root <+: loc := hloc
    exact hd.unlinked loc target (below_base hzone) (ne_base hzone)

theorem confined (hd : h.Stands d) (root : Path) : (h.site root).Confined d d :=
  ⟨.refl _ d, hd.site root, hd.proper⟩

/-- What keeps to one replica leaves the harbor standing. -/
theorem of_confined (hd : h.Stands d) (hc : (h.site root).Confined d d') : h.Stands d' := by
  have hsame : ∀ loc, ¬ h.zone root <+: loc → d'.get? loc = d.get? loc := fun loc => hc.outside.get?
  refine ⟨fun d'' hdir hget => ?_, fun loc target hbase hne => ?_, hc.proper⟩
  · refine hd.reached d'' (hdir.trans hc.outside.workingDir) fun loc hloc => ?_
    rw [hget loc hloc]
    refine hsame loc fun hzone => ?_
    rcases hloc with hloc | hloc
    · exact ne_base hzone hloc
    · exact hloc (below_base hzone)
  · by_cases hzone : h.zone root <+: loc
    · exact hc.stands.unlinked loc target hzone
    · rw [hsame loc hzone]
      exact hd.unlinked loc target hbase hne

theorem dir_ne (hd : h.Stands d) : h.dir.spelling ≠ "" := by
  intro hempty
  obtain ⟨mode, hstat⟩ := hd.reached d rfl fun _ _ => rfl
  have hflaw := Disk.flaw?_of_stat hstat
  rw [Path.flaw?, hempty] at hflaw
  exact absurd hflaw (by decide)

/-- On a disk without links, directories lead to where a harbor stands. -/
theorem of_clear {ns : List String} (hproper : ∀ n ∈ ns, Path.Proper n) (hne : ns ≠ []) (hbase : h.base = ns.map .text)
    (hdir : h.dir = ns.foldl Path.child ⟨"/"⟩) (hflaw : h.dir.flaw? = none) (hclear : d.isClear = true)
    (hleads : d.leads ns = true) : h.Stands d := by
  refine ⟨fun d' _ hget => ?_, fun loc target _ _ => Disk.get?_ne_link_of_clear hclear loc target,
    Disk.proper_of_clear hclear⟩
  -- The directories on the way are not below the last of them.
  have hsame : ∀ m, m <+: ns → d'.get? (m.map .text) = d.get? (m.map .text) := by
    refine fun m hm => hget _ ?_
    rw [hbase]
    by_cases hm' : m = ns
    · exact .inl (by rw [hm'])
    · refine .inr fun hle => hm' ?_
      have hlen := hle.length_le
      rw [List.length_map, List.length_map] at hlen
      exact hm.eq_of_length_le hlen
  obtain ⟨mode, hbaseDir⟩ := Disk.directory_of_leads hleads List.prefix_rfl
  refine ⟨mode, ?_⟩
  rw [hdir, hbase]
  refine Disk.stat_of_reach hproper hne ((Disk.reach_of_leads hleads).congr fun m hm _ hmode => ?_) ?_
    (fun _ he => by cases he) (hdir ▸ hflaw) true
  · rw [List.nil_append] at hmode ⊢
    rwa [hsame m hm]
  · rw [hsame ns List.prefix_rfl, hbaseDir]

/-- The copy of a path that a root encloses is in the root's replica. -/
theorem spells_copy (hd : h.Stands d) {p : Path} (hroot : root.components ≠ []) (hp : root.Encloses p) :
    (h.site root).Spells (Replica.copyFor h.dir root p) (root.namesBelow p) :=
  Site.spells_pathOf (Replica.ofWorkspace_eq h.dir root ▸ rfl)
    (Site.spells_dir (Replica.proper_nameFor root) hd.dir_ne) (hp.descends hroot)

/-- The zone of a root is where the directory of its replica is found. -/
theorem eq_zone_of_stat (hd : h.Stands d) {e : Entry}
    (hstat : d.stat (Replica.ofWorkspace h.dir root).dir = .ok (loc, e)) : loc = h.zone root := by
  have hspells := Site.spells_dir (z := h.site root) (Replica.proper_nameFor root) hd.dir_ne
  have hresolve := (hd.site root).resolve_eq hspells (Disk.flaw?_of_stat hstat) true
  unfold Disk.stat at hstat
  split at hstat
  · rename_i loc' e' hfound
    cases hstat
    exact (Disk.descend_eq_present_iff.mp (hresolve.symm.trans hfound)).2.1
  · cases hstat
  · cases hstat

end Stands

end Harbor

/-! ### Work on copies -/

namespace Site

variable {z : Site} {d₀ d : Disk} {p q : Path} {ns ms : List String}

/-- **All that handlers do to the copy of a path keeps to the replica.** -/
theorem work_confined {op : ReplicaOp Unit} (hp : z.Spells p ns) (hop : Replica.Work p op) :
    Preserves (z.Confined d₀) op := by
  cases hop with
  | write content => exact write_confined hp content
  | create mode => exact create_confined hp mode
  | adopt dir => exact adopt_confined hp dir
  | remove => exact remove_confined hp

end Site

/-! ### Copying a tree -/

/-- **Copying the tree of a root keeps to the root's replica.** -/
theorem Harbor.Stands.replicate_confined {h : Harbor} {d : Disk} {root : Path} (hd : h.Stands d)
    (hroot : root.components ≠ []) (hself : root.Encloses root) :
    (h.site root).Confined d ((Replica.ofWorkspace h.dir root).replicate root d).disk := by
  refine Replica.replicate_keeps (fun dir hdir => ?_) (fun file hfile => ?_) (hd.confined root)
  · have hin := (Disk.encloses_of_mem_tree hd.proper hself (.inl hdir)).1
    exact Site.adopt_confined (hd.spells_copy hroot hin) dir
  · have hin := (Disk.encloses_of_mem_tree hd.proper hself (.inr hfile)).1
    exact Site.copy_confined (hd.spells_copy hroot hin) file

end LiveWorkspace
