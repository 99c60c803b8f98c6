/-
  LiveWorkspace/Proofs/Disk/Rewrite.lean
  ======================================
  **What is written to a path is read from it.**

  A file that is put where a walk ends lies on no way that the walk takes, since these
  ways are directories and links.  So the same walk leads to the file afterwards, however
  the path is spelled and whatever links it leads through.
-/
import LiveWorkspace.Proofs.Disk.Walk
import LiveWorkspace.Proofs.Replica.Effects

namespace LiveWorkspace

namespace Disk

variable {d d' : Disk} {l loc : Location} {p : Path} {content : Text.Bytes} {mode : Nat} {t : Target} {follow : Bool}
  {k : Nat} {step : String} {s : List String}

/-! ### Walks to a new file -/

/-- There is a file at a location, or nothing. -/
def MayFile (d : Disk) (loc : Location) : Prop :=
  (∀ mode, d.get? loc ≠ some (.directory mode)) ∧ ∀ target, d.get? loc ≠ some (.link target)

/-- A step that a walk takes is not changed by a file that is put where one may be. -/
theorem stride_insert {x : Stride} (hloc : d.MayFile l) (hx : x ≠ .free) (h : d.stride loc step = .ok x) :
    (d.insert l (.file content mode)).stride loc step = .ok x := by
  obtain ⟨⟨m, hdir⟩, hway⟩ := stride_eq_ok_iff.mp h
  have hne : loc ≠ l := by
    rintro rfl
    exact hloc.1 m hdir
  refine stride_eq_ok_iff.mpr ⟨⟨m, by rwa [get?_insert_of_ne d _ hne]⟩, ?_⟩
  refine hway.imp_right (Or.imp_right ?_)
  rintro ⟨hdot, hup, hlen, rfl⟩
  refine ⟨hdot, hup, hlen, ?_⟩
  by_cases hend : loc ++ [.text step] = l
  · subst hend
    rw [get?_insert_self]
    cases hget : d.get? (loc ++ [.text step]) with
    | none => exact absurd (Stride.to_eq_free_iff.mpr hget) hx
    | some e =>
      cases e with
      | directory m => exact absurd hget (hloc.1 m)
      | link target => exact absurd hget (hloc.2 target)
      | file old m => rfl
  · rw [get?_insert_of_ne d _ hend]

/-- A step to a free name leads to the file that is put there. -/
theorem stride_insert_free (h : d.stride loc step = .ok .free) :
    (d.insert (loc ++ [.text step]) (.file content mode)).stride loc step = .ok (.onward (loc ++ [.text step])) := by
  obtain ⟨⟨m, hdir⟩, -⟩ := stride_eq_ok_iff.mp h
  obtain ⟨hdot, hup, hlen, -⟩ := stride_eq_free h
  refine stride_eq_ok_iff.mpr ⟨⟨m, by rwa [get?_insert_of_ne d _ (by simp)]⟩, .inr (.inr ⟨hdot, hup, hlen, ?_⟩)⟩
  rw [get?_insert_self]
  rfl

/-- A walk that ends where a file may be leads to the file that is put there. -/
theorem Walks.insert (h : d.Walks follow k loc s t) (hloc : d.MayFile t.place) :
    (d.insert t.place (.file content mode)).Walks follow k loc s (.present t.place (.file content mode)) := by
  induction h with
  | here => exact .here (get?_insert_self _ _ _)
  | onward hstride _ ih => exact .onward (stride_insert hloc (by simp) hstride) (ih hloc)
  | free hstride => exact .onward (stride_insert_free hstride) (.here (get?_insert_self _ _ _))
  | link hstride _ => exact absurd (stride_eq_link hstride).2.2.2 (hloc.2 _)
  | behind hstride hgo _ ih => exact .behind (stride_insert hloc (by simp) hstride) hgo (ih hloc)

theorem resolve_insert (hloc : d.MayFile t.place) (h : d.resolve p = .ok t) :
    (d.insert t.place (.file content mode)).resolve p = .ok (.present t.place (.file content mode)) := by
  unfold resolve walkFrom at h ⊢
  cases hflaw : p.flaw? with
  | some err => simp [hflaw] at h
  | none =>
    simp only [hflaw] at h ⊢
    exact walkLinks_eq_ok_iff.mpr ((walkLinks_eq_ok_iff.mp h).insert hloc)

/-! ### Reading what was written -/

/-- Nothing is at a location that a path finds free. -/
theorem get?_of_resolve_absent {dir : Location} {name : Name} (h : d.resolve p = .ok (.absent dir name)) :
    d.get? (dir ++ [name]) = none := by
  unfold resolve walkFrom at h
  cases hflaw : p.flaw? with
  | some err => simp [hflaw] at h
  | none =>
    simp only [hflaw] at h
    exact (walkLinks_eq_ok_iff.mp h).get?_place

/-- **What is written to a path is read from it.** -/
theorem read_of_write (h : (write p content : DiskOp Unit) d = .ok () d') : d'.read p = .ok content := by
  obtain ⟨⟨loc, mode⟩, hslot, rfl⟩ := except_map_eq_ok.mp (change_eq_ok.mp h)
  suffices hresolve : (d.insert loc (.file content (mode.getD newFileMode))).resolve p
      = .ok (.present loc (.file content (mode.getD newFileMode))) by
    simp [read, stat, hresolve]
  unfold fileSlot at hslot
  split at hslot
  · obtain ⟨_, -, herr⟩ := except_bind_eq_ok.mp hslot
    cases herr
  split at hslot
  · rename_i old m hfound
    cases hslot
    have hstat : d.stat p = .ok (loc, .file old m) := by simp only [stat, hfound]
    have hget := get?_of_stat hstat
    exact resolve_insert (t := .present loc (.file old m)) ⟨by simp [Target.place, hget], by simp [Target.place, hget]⟩ hfound
  · cases hslot
  · rename_i dir name hfound
    cases hslot
    have hget := get?_of_resolve_absent hfound
    exact resolve_insert (t := .absent dir name) ⟨by simp [Target.place, hget], by simp [Target.place, hget]⟩ hfound
  · cases hslot

end Disk

/-- What a replica is given is read from it. -/
theorem Replica.read_of_write {p : Path} {content : Text.Bytes} {d d' : Disk}
    (h : (Replica.write p content : ReplicaOp Unit) d = .ok () d') : d'.read p = .ok content := by
  obtain ⟨_, _, -, hwrite⟩ := bind_eq_ok.mp h
  exact Disk.read_of_write (as_eq_ok.mp hwrite)

end LiveWorkspace
