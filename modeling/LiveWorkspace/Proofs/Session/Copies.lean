/-
  LiveWorkspace/Proofs/Session/Copies.lean
  ========================================
  **A workspace's paths and their copies lie in the same order.**

  The copy of a path goes on from the replica's directory by the components that the path has
  behind the root (`Replica.components_copyFor`).  A path below the root is the root with just
  these components behind it.  So two paths and their two copies compare alike, and what lies
  below the copy of a directory are the copies of what lies below the directory
  (`Session.copies_embed_of_run`).
-/
import LiveWorkspace.Proofs.Path.Relative
import LiveWorkspace.Proofs.Session.Routing

namespace LiveWorkspace

variable {ρ root p q x : Path}

/-! ### Paths below a root -/

/-- A path below a root is the root, and what the path has behind it. -/
theorem Path.components_eq_append (h : p.startsWith root = true) :
    p.components = root.components ++ p.components.drop root.components.length := by
  obtain ⟨rest, hrest⟩ := Path.startsWith_iff.mp h
  rw [← hrest, List.drop_left]

/-- Seen from its root again, the part of a path below the root is the path. -/
theorem Path.same_join_relativeTo (hroot : root.components ≠ []) (h : p.startsWith root = true) :
    (root.join (p.relativeTo root)).same p = true := by
  rw [Path.same_iff, Path.components_join_relativeTo root h hroot]
  exact (Path.components_eq_append h).symm

/-! ### Copies -/

namespace Replica

/-- The directory of a replica is spelled by something. -/
theorem components_dir_ne_nil (ρ root : Path) : (ofWorkspace ρ root).dir.components ≠ [] := by
  have hname : Path.Proper (root.fileName?.getD "workspace") := by
    cases hfile : root.fileName? with
    | none => decide
    | some n => exact Path.proper_fileName? hfile
  show (ρ.child (root.fileName?.getD "workspace")).components ≠ []
  exact Path.components_ne_nil (Path.spelling_child_ne ρ hname)

variable (hroot : root.components ≠ [])
include hroot

/-- A copy lies in the replica. -/
theorem startsWith_copyFor_dir (ρ : Path) (hp : p.startsWith root = true) :
    (copyFor ρ root p).startsWith (ofWorkspace ρ root).dir = true := by
  apply Path.startsWith_iff.mpr
  exact ⟨_, (components_copyFor ρ hroot hp).symm⟩

/-- **Copies lie in each other just as the paths do.** -/
theorem startsWith_copyFor_iff (ρ : Path) (hp : p.startsWith root = true) (hq : q.startsWith root = true) :
    (copyFor ρ root q).startsWith (copyFor ρ root p) = true ↔ q.startsWith p = true := by
  rw [Path.startsWith, Path.startsWith, List.isPrefixOf_iff_prefix, List.isPrefixOf_iff_prefix,
    components_copyFor ρ hroot hp, components_copyFor ρ hroot hq, List.prefix_append_right_inj,
    Path.components_eq_append hp, Path.components_eq_append hq, List.prefix_append_right_inj, List.drop_left,
    List.drop_left]

/-- **Different paths have different copies**, and spellings of one path have one copy. -/
theorem same_copyFor_iff (ρ : Path) (hp : p.startsWith root = true) (hq : q.startsWith root = true) :
    (copyFor ρ root p).same (copyFor ρ root q) = true ↔ p.same q = true := by
  rw [Path.same_iff, Path.same_iff, components_copyFor ρ hroot hp, components_copyFor ρ hroot hq,
    List.append_cancel_left_eq]
  constructor
  · intro h
    rw [Path.components_eq_append hp, Path.components_eq_append hq, h]
  · intro h
    rw [h]

/-- **What lies below the copy of a path are the copies of what lies below the path.** -/
theorem startsWith_copyFor_iff_exists (ρ : Path) (hp : p.startsWith root = true) (x : Path) :
    x.startsWith (copyFor ρ root p) = true
      ↔ ∃ q : Path, q.startsWith p = true ∧ (copyFor ρ root q).same x = true := by
  have hcopy : (copyFor ρ root p).components ≠ [] := by
    rw [components_copyFor ρ hroot hp]
    exact List.append_ne_nil_of_left_ne_nil (components_dir_ne_nil ρ root) _
  constructor
  · intro hx
    -- The path goes on from `p` as `x` does from the copy.
    have hjoin := Path.components_join_relativeTo p hx hcopy
    have hbelow : (p.join (x.relativeTo (copyFor ρ root p))).startsWith p = true :=
      Path.startsWith_iff.mpr ⟨_, hjoin.symm⟩
    refine ⟨p.join (x.relativeTo (copyFor ρ root p)), hbelow, ?_⟩
    obtain ⟨behind, hbehind⟩ := Path.startsWith_iff.mp hp
    rw [Path.same_iff, components_copyFor ρ hroot (Path.startsWith_trans hbelow hp), hjoin, ← hbehind, List.append_assoc,
      List.drop_left, Path.components_eq_append hx]
    rw [components_copyFor ρ hroot hp, ← hbehind, List.drop_left, List.drop_left, List.append_assoc]
  · rintro ⟨q, hq, hsame⟩
    rw [← Path.startsWith_congr hsame]
    exact (startsWith_copyFor_iff hroot ρ hp (Path.startsWith_trans hq hp)).mpr hq

end Replica

/-! ### The workspaces of a session -/

/-- A resolved path is spelled by something. -/
theorem Path.Resolved.components_ne_nil (h : root.Resolved) : root.components ≠ [] := by
  obtain ⟨ns, hns, rfl⟩ := h
  rw [Path.components_foldl_child _ hns]
  exact List.append_ne_nil_of_left_ne_nil (by decide) _

namespace Session

variable {ses : Session} {turns : List Turn} {r : Running} (checks : Checkers)

/-- **A workspace's paths and their copies lie in the same order.**  For every workspace that is
    open at any time in a session, and all paths below its root, however they are spelled: the
    copy lies in the replica; the part of the path below the root leads back to it; two paths
    have one copy, or the copy of one lies below that of the other, just if that holds of the
    paths themselves; and what lies below the copy of a path are the copies of what lies below
    the path. -/
theorem copies_embed_of_run (ses : Session) (hnone : ses.workspaces = []) (hproper : ses.shared.disk.Proper)
    (hturns : ∀ t ∈ turns, t.Spells) (hr : r ∈ (ses.run checks turns).workspaces) :
    let w := r.workspace
    ∀ p q, p.startsWith w.root = true → q.startsWith w.root = true →
      (w.replicaPath p).startsWith w.replica.dir = true
        ∧ (w.root.join (p.relativeTo w.root)).same p = true
        ∧ ((w.replicaPath p).same (w.replicaPath q) = true ↔ p.same q = true)
        ∧ ((w.replicaPath q).startsWith (w.replicaPath p) = true ↔ q.startsWith p = true)
        ∧ ∀ x, x.startsWith (w.replicaPath p) = true
            ↔ ∃ q, q.startsWith p = true ∧ (w.replicaPath q).same x = true := by
  intro w p q hp hq
  obtain ⟨roots, hroots⟩ := run_rooted checks (Rooted.of_start hnone hproper) hturns
  have hlodged := hroots.bears.lodged r hr
  have hroot : w.root.components ≠ [] := by
    apply Path.Resolved.components_ne_nil
    apply hroots.distinct.resolved
    rw [← hroots.bears.roots]
    exact List.mem_map_of_mem hr
  simp only [w, hlodged.replicaPath_eq, hlodged.replica]
  exact ⟨Replica.startsWith_copyFor_dir hroot _ hp, Path.same_join_relativeTo hroot hp,
    Replica.same_copyFor_iff hroot _ hp hq, Replica.startsWith_copyFor_iff hroot _ hp hq,
    Replica.startsWith_copyFor_iff_exists hroot _ hp⟩

/-- Of two paths below a nested root, spelled with separators, dots and a `..` more than they need. -/
theorem copies_embed_while_nesting :
    let checks : Checkers := ⟨fun _ _ => some [], fun _ _ => []⟩
    let p : Path := ⟨"/w//s/./d/"⟩
    let q : Path := ⟨"//w/s/d/../e.dsp"⟩
    ∃ r ∈ ((inHarbor projectDisk).run checks [.openWorkspace ⟨"/w"⟩, .openWorkspace ⟨"/w/s"⟩]).workspaces,
      r.workspace.root = ⟨"/w/s"⟩ ∧ p.startsWith r.workspace.root = true ∧ q.startsWith r.workspace.root = true
        ∧ ((r.workspace.replicaPath q).startsWith (r.workspace.replicaPath p) = true ↔ q.startsWith p = true)
        ∧ q.startsWith p = true := by
  intro checks p q
  have hproper : (inHarbor projectDisk).shared.disk.Proper := Disk.proper_of_clear (by decide)
  have hturns : ∀ t ∈ [Turn.openWorkspace ⟨"/w"⟩, Turn.openWorkspace ⟨"/w/s"⟩], t.Spells := by simp [Turn.Spells]
  have hopen : (((inHarbor projectDisk).run checks [.openWorkspace ⟨"/w"⟩, .openWorkspace ⟨"/w/s"⟩]).workspaces.find?
      (·.workspace.root = ⟨"/w/s"⟩)).isSome = true := by decide +kernel
  obtain ⟨r, hr⟩ := Option.isSome_iff_exists.mp hopen
  have hroot : r.workspace.root = ⟨"/w/s"⟩ := by simpa using List.find?_some hr
  have hmem := List.mem_of_find?_eq_some hr
  have hp : p.startsWith r.workspace.root = true := by rw [hroot]; decide +kernel
  have hq : q.startsWith r.workspace.root = true := by rw [hroot]; decide +kernel
  obtain ⟨-, -, -, horder, -⟩ := copies_embed_of_run checks (inHarbor projectDisk) rfl hproper hturns hmem p q hp hq
  exact ⟨r, hmem, hroot, hp, hq, horder, by decide +kernel⟩

end Session

end LiveWorkspace
