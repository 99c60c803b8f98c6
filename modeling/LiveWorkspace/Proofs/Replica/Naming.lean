/-
  LiveWorkspace/Proofs/Replica/Naming.lean
  ========================================
  **Whatever is done with a path, new entries get names that a path can spell.**

  A walk takes its steps from the path and from the links that it meets.  Such a step is not
  empty and has no separator in it, and one that is looked up as a name is no dot either.
  So every operation on the disk leaves the names on it as they should be
  (`Disk.Proper`), for every path, also one that climbs, and also when it fails.
-/
import LiveWorkspace.Proofs.Replica.Confined
import LiveWorkspace.Proofs.Workspace.Keeping

namespace LiveWorkspace

/-! ### Steps -/

/-- A step of a path is not empty, and has no separator in it. -/
def Path.IsStep (s : String) : Prop := s ≠ "" ∧ '/' ∉ s.toList

theorem Path.isStep_of_mem_names {p : Path} {s : String} (h : s ∈ p.names) : IsStep s := by
  obtain ⟨t, ht, rfl⟩ := List.mem_map.mp h
  obtain ⟨hsplit, hne⟩ := List.mem_filter.mp ht
  refine ⟨fun he => ?_, ?_⟩
  · rw [String.ofList_eq_empty_iff] at he
    simp [he] at hne
  · rw [String.toList_ofList]
    exact not_mem_of_mem_split hsplit

theorem Path.isStep_of_mem_steps {p : Path} {s : String} (h : s ∈ p.steps) : IsStep s := by
  rw [steps, List.mem_append] at h
  rcases h with h | h
  · exact isStep_of_mem_names h
  · split at h
    · rw [List.mem_singleton.mp h]
      exact ⟨by decide, by decide⟩
    · exact absurd h List.not_mem_nil

theorem Path.IsStep.proper {s : String} (h : IsStep s) (hdot : s ≠ ".") (hup : s ≠ "..") : Proper s :=
  ⟨h.1, hdot, hup, h.2⟩

namespace Disk

/-! ### Where entries are put -/

/-- A location whose names can be spelled. -/
def Spellable (loc : Location) : Prop := ∀ n, Name.text n ∈ loc → Path.Proper n

variable {d : Disk} {loc : Location} {p q : Path}

theorem Proper.spellable (hd : d.Proper) {e : Entry} (h : d.get? loc = some e) : Spellable loc := fun _ hn =>
  hd.of_get? h hn

theorem Spellable.concat (h : Spellable loc) {s : String} (hs : Path.Proper s) : Spellable (loc ++ [.text s]) := by
  intro n hn
  rcases List.mem_append.mp hn with hn | hn
  · exact h n hn
  · rw [Name.text.inj (List.mem_singleton.mp hn)]
    exact hs

/-- Where a walk finds nothing, an entry may be put. -/
theorem Walks.spellable {follow : Bool} {k : Nat} {steps : List String} {t : Target} (hd : d.Proper)
    (h : d.Walks follow k loc steps t) (hsteps : ∀ s ∈ steps, Path.IsStep s) : Spellable t.place := by
  induction h with
  | here hget => exact hd.spellable hget
  | onward _ _ ih => exact ih fun s hs => hsteps s (List.mem_cons_of_mem _ hs)
  | free hstride =>
    obtain ⟨⟨_, hget⟩, -⟩ := stride_eq_ok_iff.mp hstride
    obtain ⟨hdot, hup, -⟩ := stride_eq_free hstride
    exact (hd.spellable hget).concat ((hsteps _ List.mem_cons_self).proper hdot hup)
  | link hstride _ => exact hd.spellable (stride_eq_link hstride).2.2.2
  | behind _ _ _ ih =>
    refine ih fun s hs => ?_
    rcases List.mem_append.mp hs with hs | hs
    · exact Path.isStep_of_mem_steps hs
    · exact hsteps s (List.mem_cons_of_mem _ hs)

theorem fileSlot_spellable (hd : d.Proper) {mode : Option Nat} (h : d.fileSlot p = .ok (loc, mode)) : Spellable loc := by
  unfold fileSlot at h
  split at h
  · obtain ⟨_, -, herr⟩ := except_bind_eq_ok.mp h
    cases herr
  · have hwalk : ∀ target, d.resolve p = .ok target → d.walkLinks true maxLinks
        (if p.isAbsolute then [] else d.workingDir) p.steps = .ok target := by
      intro target hresolve
      unfold resolve walkFrom at hresolve
      split at hresolve
      · cases hresolve
      · exact hresolve
    split at h
    · rename_i hresolve
      cases h
      exact hd.spellable (get?_of_walkLinks (hwalk _ hresolve))
    · cases h
    · rename_i hresolve
      cases h
      exact (walkLinks_eq_ok_iff.mp (hwalk _ hresolve)).spellable hd fun s hs => Path.isStep_of_mem_steps hs
    · cases h

theorem slot_spellable (hd : d.Proper) {slot : Slot} {n : String} (h : d.slot p = .ok slot) (hname : slot.name = some n) :
    Spellable (slot.dir ++ [.text n]) := by
  unfold Disk.slot walkFrom at h
  split at h
  · cases h
  · cases h
  · rename_i hwalk
    split at hwalk
    · cases hwalk
    · split at h
      · cases h
        rw [Option.filter_eq_some_iff] at hname
        have hproper := hname.2
        simp only [ne_eq, Bool.decide_and, decide_not, Bool.and_eq_true, Bool.not_eq_true',
          decide_eq_false_iff_not] at hproper
        exact (hd.spellable (get?_of_walkLinks hwalk)).concat
          ((Path.isStep_of_mem_names (List.mem_of_getLast? hname.1)).proper hproper.1 hproper.2)
      · cases h

theorem freeSlot_spellable (hd : d.Proper) (h : d.freeSlot p = .ok loc) : Spellable loc := by
  unfold freeSlot at h
  obtain ⟨slot, hslot, h⟩ := except_bind_eq_ok.mp h
  split at h
  · cases h
  · rename_i hname
    obtain ⟨found, -, h⟩ := except_bind_eq_ok.mp h
    split at h
    · cases h
      exact slot_spellable hd hslot hname
    · cases h

/-! ### Operations on the disk -/

theorem write_proper (p : Path) (content : Text.Bytes) : Preserves Disk.Proper (Disk.write p content) := by
  refine Preserves.change fun d d' hd hok => ?_
  obtain ⟨⟨loc, mode⟩, hslot, rfl⟩ := except_map_eq_ok.mp (change_eq_ok.mp hok)
  exact hd.insert _ (fileSlot_spellable hd hslot)

theorem copy_proper (source target : Path) : Preserves Disk.Proper (Disk.copy source target) := by
  refine Preserves.change fun d d' hd hok => ?_
  have hok := change_eq_ok.mp hok
  split at hok
  · obtain ⟨⟨loc, mode⟩, hslot, rfl⟩ := except_map_eq_ok.mp hok
    exact hd.insert _ (fileSlot_spellable hd hslot)
  · cases hok
  · cases hok

theorem setMode_proper (p : Path) (mode : Nat) : Preserves Disk.Proper (Disk.setMode p mode) := by
  refine Preserves.change fun d d' hd hok => ?_
  obtain ⟨x, hstat, rfl⟩ := except_map_eq_ok.mp (change_eq_ok.mp hok)
  exact hd.insert _ (hd.spellable (get?_of_stat (l := x.1) (e := x.2) hstat))

theorem removeFile_proper (p : Path) : Preserves Disk.Proper (Disk.removeFile p) := by
  refine Preserves.change fun d d' hd hok => ?_
  obtain ⟨slot, -, hok⟩ := except_bind_eq_ok.mp (change_eq_ok.mp hok)
  split at hok
  · cases hok
  · obtain ⟨found, -, hok⟩ := except_bind_eq_ok.mp hok
    split at hok
    · cases hok
    · cases hok
    · split at hok
      · cases hok
      · cases hok
        exact hd.erase _

theorem makeDir_proper (p : Path) (mode : Nat) : Preserves Disk.Proper (Disk.makeDir p mode) := by
  refine Preserves.change fun d d' hd hok => ?_
  obtain ⟨loc, hslot, rfl⟩ := except_map_eq_ok.mp (change_eq_ok.mp hok)
  exact hd.insert _ (freeSlot_spellable hd hslot)

theorem makeDirs_proper (p : Path) : Preserves Disk.Proper (Disk.makeDirs p) := by
  rw [makeDirs]
  refine Preserves.ite (fun _ => Preserves.pure _) fun _ => ?_
  exact makeDirsWithin_preserves (Q := fun _ => True) (fun p _ => makeDir_proper p _) (fun _ _ _ _ _ _ _ _ _ => trivial)
    _ trivial

theorem removeDir_proper (p : Path) : Preserves Disk.Proper (Disk.removeDir p) := by
  refine Preserves.change fun d d' hd hok => ?_
  obtain ⟨slot, -, hok⟩ := except_bind_eq_ok.mp (change_eq_ok.mp hok)
  split at hok
  · cases hok
  · obtain ⟨found, -, hok⟩ := except_bind_eq_ok.mp hok
    split at hok
    · cases hok
    · split at hok
      · cases hok
        exact hd.erase _
      · cases hok
    · cases hok

theorem removeTree_proper (p : Path) : Preserves Disk.Proper (Disk.removeTree p) := by
  refine Preserves.of_results (fun d u d' hd hok => ?_) fun d e d' hd herror => ?_
  · unfold removeTree at hok
    split at hok
    · cases hok
    · exact (wp_of_ok hok).mp (removeFile_proper p d hd)
    · cases hok
    · split at hok
      · rename_i hrun
        cases hok
        exact (wp_of_error hrun).mp (removeDir_proper p _ (hd.eraseBelow _))
      · exact (wp_of_ok hok).mp (removeDir_proper p _ (hd.eraseBelow _))
  · unfold removeTree at herror
    split at herror
    · cases herror
      exact hd
    · exact (wp_of_error herror).mp (removeFile_proper p d hd)
    · cases herror
      exact hd
    · split at herror
      · cases herror
      · exact (wp_of_error herror).mp (removeDir_proper p _ (hd.eraseBelow _))

theorem rename_proper (source target : Path) : Preserves Disk.Proper (Disk.rename source target) := by
  refine Preserves.change fun d d' hd hok => ?_
  obtain ⟨a, ha, hok⟩ := except_bind_eq_ok.mp (change_eq_ok.mp hok)
  obtain ⟨b, hb, hok⟩ := except_bind_eq_ok.mp hok
  split at hok
  · rename_i hx hy
    obtain ⟨found, -, hok⟩ := except_bind_eq_ok.mp hok
    split at hok
    · cases hok
    · obtain ⟨_, -, hok⟩ := except_bind_eq_ok.mp hok
      split at hok
      · cases hok
      · split at hok
        · cases hok
          exact hd
        · split at hok
          · cases hok
          · split at hok
            · cases hok
            · obtain ⟨_, -, rfl⟩ := except_map_eq_ok.mp hok
              exact hd.move _ (slot_spellable hd hb hy)
  · cases hok

end Disk

/-! ### Operations of a replica -/

namespace Replica

theorem ensureParent_proper (p : Path) : Preserves Disk.Proper (ensureParent p) := by
  rw [ensureParent]
  split
  · exact Preserves.pure _
  · refine Preserves.get_bind fun d _ => Preserves.ite (fun _ => Preserves.pure _) fun _ => ?_
    exact (Disk.makeDirs_proper _).as _ _

theorem createEmptyFile_proper (p : Path) (mode : Option Nat) : Preserves Disk.Proper (createEmptyFile p mode) := by
  unfold createEmptyFile
  refine Preserves.bind ((Disk.write_proper p []).as _ _) fun _ => ?_
  split
  · exact (Disk.setMode_proper p _).as _ _
  · exact Preserves.pure _

theorem createDir_proper (p : Path) (mode : Nat) : Preserves Disk.Proper (createDir p mode) := by
  rw [createDir]
  exact Preserves.bind ((Disk.makeDirs_proper p).as _ _) fun _ => (Disk.setMode_proper p mode).as _ _

theorem remove_proper (p : Path) : Preserves Disk.Proper (remove p) := by
  refine remove_preserves fun d hd => (wp_ite _ _).mpr ⟨fun _ => ?_, fun _ => ?_⟩
  · exact Disk.removeTree_proper p d hd
  · exact Disk.removeFile_proper p d hd

theorem rename_proper (source target : Path) : Preserves Disk.Proper (rename source target) := by
  rw [rename]
  exact Preserves.bind (ensureParent_proper target) fun _ => (Disk.rename_proper source target).as _ _

theorem work_proper {copy : Path} {op : ReplicaOp Unit} (h : Work copy op) : Preserves Disk.Proper op := by
  cases h with
  | write content =>
    rw [write]
    exact Preserves.bind (ensureParent_proper copy) fun _ => (Disk.write_proper copy content).as _ _
  | create mode => exact Preserves.bind (ensureParent_proper copy) fun _ => createEmptyFile_proper copy mode
  | adopt dir => exact Preserves.bind ((Preserves.ask _).as _ _) fun mode => createDir_proper copy mode
  | remove => exact remove_proper copy

theorem replicate_proper (m : Replica) (source : Path) {d : Disk} (hd : d.Proper) :
    (m.replicate source d).disk.Proper := by
  refine replicate_keeps (fun dir _ => ?_) (fun file _ => Disk.copy_proper file _) hd
  rw [copyDir]
  exact Preserves.bind ((Preserves.ask _).as _ _) fun mode => createDir_proper _ mode

end Replica

end LiveWorkspace
