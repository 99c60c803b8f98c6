/-
  LiveWorkspace/Proofs/Workspace/Lodging.lean
  ===========================================
  **A workspace among others, which share one state.**

  Several workspaces work on one shared state.  What the work for one root keeps of that
  state (`Shared.Serves`) can be said without the other workspaces, once it is known where
  the workspace of the root has its replica and which paths it works on (`Lodged`).
-/
import LiveWorkspace.Proofs.Workspace.Keeping

namespace LiveWorkspace

/-! ### Where a workspace lodges -/

/-- The copy of a path in the replica that a root has among the replicas of a session. -/
def Replica.copyFor (replicaRoot root p : Path) : Path :=
  (Replica.ofWorkspace replicaRoot root).pathOf (p.relativeTo root)

theorem Replica.components_copyFor (replicaRoot : Path) {root p : Path} (hroot : root.components ≠ [])
    (hp : p.startsWith root = true) : (copyFor replicaRoot root p).components
      = (ofWorkspace replicaRoot root).dir.components ++ p.components.drop root.components.length := by
  rw [copyFor, pathOf]
  split
  · rename_i hempty
    rw [← Path.components_relativeTo hp hroot, Path.components_of_empty (String.isEmpty_iff.mp hempty),
      List.append_nil]
  · exact Path.components_join_relativeTo _ hp hroot

/-- Spellings of one path have one copy. -/
theorem Replica.same_copyFor (replicaRoot : Path) {root p q : Path} (hroot : root.components ≠ [])
    (hp : p.startsWith root = true) (h : p.same q = true) :
    (copyFor replicaRoot root p).same (copyFor replicaRoot root q) = true := by
  have hq : q.startsWith root = true := (Path.startsWith_congr h).symm.trans hp
  rw [Path.same_iff, components_copyFor replicaRoot hroot hp, components_copyFor replicaRoot hroot hq, Path.same_iff.mp h]

/-- A workspace has the replica of its root, and works on paths that are its root's; `P`
    says which these are. -/
structure Workspace.Lodged (replicaRoot : Path) (P : Path → Path → Prop) (w : Workspace) : Prop where
  replica : w.replica = Replica.ofWorkspace replicaRoot w.root
  own : P w.root w.root
  below : ∀ q ∈ w.tracked, P w.root q

namespace Workspace.Lodged

variable {ρ : Path} {P : Path → Path → Prop} {w : Workspace}

theorem replicaPath_eq (h : w.Lodged ρ P) (p : Path) : w.replicaPath p = Replica.copyFor ρ w.root p := by
  rw [Workspace.replicaPath, h.replica, Replica.copyFor]

theorem track (h : w.Lodged ρ P) {p : Path} (hp : P w.root p) : (w.track p).Lodged ρ P := by
  rw [Workspace.track]
  split
  · exact h
  · refine ⟨h.replica, h.own, fun q hq => ?_⟩
    rcases List.mem_append.mp hq with hq | hq
    · exact h.below q hq
    · rw [List.mem_singleton.mp hq]
      exact hp

theorem release (h : w.Lodged ρ P) (p : Path) : (w.release p).Lodged ρ P :=
  ⟨h.replica, h.own, fun q hq => h.below q (List.mem_filter.mp hq).1⟩

end Workspace.Lodged

theorem Workspace.root_track (w : Workspace) (p : Path) : (w.track p).root = w.root := by
  rw [Workspace.track]
  split <;> rfl

theorem Workspace.replica_track (w : Workspace) (p : Path) : (w.track p).replica = w.replica := by
  rw [Workspace.track]
  split <;> rfl

/-! ### Work for a root -/

/-- A property of the shared state that holds on when documents are revised, dropped,
    checked and compiled. -/
structure Shared.Edits (G : Shared → Prop) : Prop where
  report : ∀ s r, G s → G { s with reports := s.reports ++ [r] }
  publish : ∀ s m, G s → G { s with published := s.published ++ [m] }
  compiled : Shared.Records G
  revised : ∀ s p r store, G s → s.store.revise? p r = .ok store → G { s with store := store }
  erased : ∀ s p, G s → G { s with store := s.store.erase p }

/-- A property of the shared state that all work for a root keeps. -/
structure Shared.Serves (ρ : Path) (P : Path → Path → Prop) (root : Path) (G : Shared → Prop) : Prop
    extends Shared.Edits G where
  found : ∀ s dir, G s → P root dir →
    ∀ p, p ∈ (s.disk.tree dir).1.dirs ∨ p ∈ (s.disk.tree dir).1.files → P root p
  watched : ∀ s dirs, G s → G { s with watched := dirs }
  entered : ∀ s doc, G s → P root doc.path → doc.relative = doc.path.relativeTo root →
    doc.replica = Replica.copyFor ρ root doc.path → doc.uri = doc.path.toUri? → G { s with store := s.store.insert doc }
  worked : ∀ s p op, G s → P root p → Replica.Work (Replica.copyFor ρ root p) op →
    G { s with disk := Replica.diskAfter op s.disk }
  moved : ∀ s p q, G s → P root p → P root q →
    G { s with disk := Replica.diskAfter (Replica.rename (Replica.copyFor ρ root p) (Replica.copyFor ρ root q)) s.disk }

/-- The workspace of a root lodges where it should, and the shared state has a property. -/
structure Desk.Lodges (ρ : Path) (P : Path → Path → Prop) (root : Path) (G : Shared → Prop) (d : Desk) : Prop where
  root : d.workspace.root = root
  lodged : d.workspace.Lodged ρ P
  shared : G d.shared

namespace Shared

variable {ρ root : Path} {P : Path → Path → Prop} {G : Shared → Prop}

theorem Edits.calm (h : Edits G) : Calm G where
  report := h.report
  publish := h.publish
  mark s p found store := h.revised s p (.markErrors found) store

theorem Edits.revise_keeps (h : Edits G) (p : Path) (r : Revision) : Preserves G (revise p r) :=
  h.calm.revise_keeps fun s store => h.revised s p r store

theorem Edits.dropDocument_keeps (h : Edits G) (p : Path) : Preserves G (dropDocument p) := by
  intro s hs
  rw [wp_dropDocument]
  exact h.erased s p hs

namespace Serves

theorem copy_eq {d : Desk} (hd : d.Lodges ρ P root G) (p : Path) :
    d.workspace.replicaPath p = Replica.copyFor ρ root p := by
  rw [hd.lodged.replicaPath_eq, hd.root]

/-- **All handlers of a workspace keep what the work for its root keeps.** -/
theorem kept (h : Serves ρ P root G) : Desk.Kept (Desk.Lodges ρ P root G) (P root) fun _ => True where
  shared w :=
    { report := fun s r hs => { hs with shared := h.report s r hs.shared }
      publish := fun s m hs => { hs with shared := h.publish s m hs.shared }
      mark := fun s p found store hs hstore => { hs with shared := h.revised s p _ store hs.shared hstore } }
  config _ _ _ hd := ⟨hd.root, ⟨hd.lodged.replica, hd.lodged.own, hd.lodged.below⟩, hd.shared⟩
  closed _ _ _ _ := trivial
  below d p hd hp := hd.root ▸ hd.lodged.below p hp
  found d dir hd hdir := h.found d.shared dir hd.shared hdir
  watched d dirs hd := { hd with shared := h.watched d.shared dirs hd.shared }
  taken d doc hd hp _ _ hrelative hreplica huri := by
    rw [copy_eq hd] at hreplica
    rw [hd.root] at hrelative
    exact ⟨(Workspace.root_track _ _).trans hd.root, hd.lodged.track (hd.root.symm ▸ hp),
      h.entered d.shared doc hd.shared hp hrelative hreplica huri⟩
  revised d p r store hd _ _ hstore := { hd with shared := h.revised d.shared p r store hd.shared hstore }
  tracked d p hd hp _ :=
    ⟨(Workspace.root_track _ p).trans hd.root, hd.lodged.track (hd.root.symm ▸ hp), hd.shared⟩
  worked d p op hd hp hop := by
    rw [copy_eq hd] at hop
    exact { hd with shared := h.worked d.shared p op hd.shared hp hop }
  moved d p q hd hp hq := by
    rw [copy_eq hd, copy_eq hd]
    exact { hd with shared := h.moved d.shared p q hd.shared hp hq }
  released d p hd := ⟨hd.root, hd.lodged.release p, hd.shared⟩
  erased d p hd _ := { hd with shared := h.erased d.shared p hd.shared }

theorem records (h : Serves ρ P root G) : Desk.Records (Desk.Lodges ρ P root G) := fun _ s c doc hd hdoc hcopy =>
  { hd with shared := h.compiled s c doc hd.shared hdoc hcopy }

end Serves

end Shared

end LiveWorkspace
