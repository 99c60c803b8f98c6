/-
  LiveWorkspace/Proofs/Disk/Tree.lean
  ===================================
  **What a tree lists.**

  The paths of a tree are the one that it starts from and those that go on from it by the
  names of entries.  Names that a path can spell (`Disk.Proper`) lead down, so that the
  tree below a path of a workspace stays in the workspace.
-/
import LiveWorkspace.Proofs.Disk.Walk
import LiveWorkspace.Proofs.Disk.Zone
import LiveWorkspace.Proofs.Path
import LiveWorkspace.Replica

namespace LiveWorkspace

/-! ### Names on the disk -/

/-- The entries of a disk have names that a path can spell, as far as they are text. -/
def Disk.Proper (d : Disk) : Prop := ∀ x ∈ d.entries, ∀ n, Name.text n ∈ x.1 → Path.Proper n

namespace Disk.Proper

variable {d : Disk} {loc : Location}

theorem of_get? (h : d.Proper) {e : Entry} (hget : d.get? loc = some e) {n : String}
    (hn : Name.text n ∈ loc) : Path.Proper n := h _ (mem_of_get? hget) n hn

theorem insert (h : d.Proper) (e : Entry) (hloc : ∀ n, Name.text n ∈ loc → Path.Proper n) :
    (d.insert loc e).Proper := by
  intro x hx n hn
  rcases List.mem_cons.mp hx with rfl | hx
  · exact hloc n hn
  · exact h x (List.mem_filter.mp hx).1 n hn

theorem erase (h : d.Proper) (loc : Location) : (d.erase loc).Proper := fun x hx =>
  h x (List.mem_filter.mp hx).1

theorem eraseBelow (h : d.Proper) (loc : Location) : (d.eraseBelow loc).Proper := fun x hx =>
  h x (List.mem_filter.mp hx).1

theorem move (h : d.Proper) (source : Location) {target : Location}
    (htarget : ∀ n, Name.text n ∈ target → Path.Proper n) : (d.move source target).Proper := by
  intro x hx n hn
  rcases List.mem_append.mp hx with hx | hx
  · exact h x (List.mem_filter.mp hx).1 n hn
  · obtain ⟨y, hy, rfl⟩ := List.mem_map.mp hx
    rcases List.mem_append.mp hn with hn | hn
    · exact htarget n hn
    · exact h y (List.mem_filter.mp hy).1 n (List.mem_of_mem_drop hn)

end Disk.Proper

/-! ### Trees -/

namespace Path

theorem mem_insertInOrder {p q : Path} {ps : List Path} : q ∈ insertInOrder p ps ↔ q = p ∨ q ∈ ps := by
  induction ps with
  | nil => rw [insertInOrder, List.mem_singleton, or_iff_left List.not_mem_nil]
  | cons r rest ih =>
    rw [insertInOrder]
    split
    · exact List.mem_cons
    · rw [List.mem_cons, ih, List.mem_cons, or_left_comm]

theorem mem_sort {q : Path} {ps : List Path} : q ∈ sort ps ↔ q ∈ ps := by
  induction ps with
  | nil => rfl
  | cons p rest ih => rw [sort, mem_insertInOrder, ih, List.mem_cons]

end Path

theorem Name.eq_map_text {loc : Location} {ns : List String} (h : loc.mapM Name.text? = some ns) :
    loc = ns.map .text := by
  induction loc generalizing ns with
  | nil =>
    cases h
    rfl
  | cons n rest ih =>
    rw [List.mapM_cons] at h
    cases n with
    | octets raw => cases h
    | text s =>
      cases hrest : rest.mapM Name.text? with
      | none =>
        rw [hrest] at h
        cases h
      | some ms =>
        rw [hrest] at h
        cases h
        rw [List.map_cons, ← ih hrest]

theorem Name.mapM_text (ns : List String) : (ns.map Name.text).mapM Name.text? = some ns := by
  induction ns with
  | nil => rfl
  | cons n rest ih => simp [List.mapM_cons, ih, Name.text?]

namespace Disk

variable {d : Disk} {p q root : Path}

/-- A path that is listed goes on from the start by names of entries. -/
theorem exists_names_of_pathsFrom {found : List (Option Path)} (hd : d.Proper)
    (h : d.pathsFrom p = .ok found) (hq : some q ∈ found) :
    ∃ ns : List String, (∀ n ∈ ns, Path.Proper n) ∧ q = ns.foldl Path.child p := by
  have hbelow : ∀ loc x, x ∈ d.below loc → descend? p x.1 = some q →
      ∃ ns : List String, (∀ n ∈ ns, Path.Proper n) ∧ q = ns.foldl Path.child p := by
    intro loc x hx hdescend
    obtain ⟨ns, hns, rfl⟩ := Option.map_eq_some_iff.mp hdescend
    obtain ⟨y, hy, rfl⟩ := List.mem_map.mp hx
    refine ⟨ns, fun n hn => ?_, rfl⟩
    have hmem : Name.text n ∈ y.1.drop loc.length := by
      have hdrop : y.1.drop loc.length = ns.map .text := Name.eq_map_text hns
      rw [hdrop]
      exact List.mem_map_of_mem hn
    exact hd y (List.mem_filter.mp hy).1 n (List.mem_of_mem_drop hmem)
  unfold pathsFrom at h
  split at h
  · cases h
  · cases hstat : d.stat p with
    | error err =>
      rw [hstat] at h
      cases h
    | ok x =>
      rw [hstat] at h
      cases h
      rcases List.mem_cons.mp hq with hq | hq
      · cases hq
        exact ⟨[], by simp, rfl⟩
      · split at hq
        · obtain ⟨y, hy, hdescend⟩ := List.mem_map.mp hq
          exact hbelow _ y hy hdescend
        · cases hq
  · cases h
    rcases List.mem_cons.mp hq with hq | hq
    · cases hq
      exact ⟨[], by simp, rfl⟩
    · obtain ⟨x, hx, hdescend⟩ := List.mem_map.mp hq
      exact hbelow _ x hx hdescend

/-- A path of a tree was listed, and is a directory or a file. -/
theorem mem_tree :
    (q ∈ (d.tree p).1.dirs → d.hasDirectory q = true ∧ ∃ found, d.pathsFrom p = .ok found ∧ some q ∈ found)
      ∧ (q ∈ (d.tree p).1.files → d.hasFile q = true ∧ ∃ found, d.pathsFrom p = .ok found ∧ some q ∈ found) := by
  have hlisted : ∀ found : List (Option Path), q ∈ found.filterMap id → some q ∈ found := by
    intro found hq
    obtain ⟨x, hx, rfl⟩ := List.mem_filterMap.mp hq
    exact hx
  unfold tree
  split
  · exact ⟨fun hq => absurd hq List.not_mem_nil, fun hq => absurd hq List.not_mem_nil⟩
  · rename_i found hfound
    constructor
    · intro hq
      obtain ⟨hq, hdir⟩ := List.mem_filter.mp (Path.mem_sort.mp hq)
      exact ⟨hdir, found, hfound, hlisted found hq⟩
    · intro hq
      obtain ⟨hq, hfile⟩ := List.mem_filter.mp (Path.mem_sort.mp hq)
      exact ⟨hfile, found, hfound, hlisted found hq⟩

/-- What is seen whatever happens in a zone does not lie in it. -/
theorem not_prefix_of_stat {zone loc : Location} {e : Entry}
    (hseen : ∀ d', SameOutside zone d d' → d'.stat p = d.stat p) (hstat : d.stat p = .ok (loc, e)) : ¬ zone <+: loc := by
  intro hzone
  have hgone := get?_of_stat ((hseen _ (sameOutside_erase d List.prefix_rfl)).trans hstat)
  rw [Disk.get?_erase_of_prefix d hzone] at hgone
  cases hgone

section ByNames

variable {loc : Location} {e : Entry} (hstat : d.stat p false = .ok (loc, e)) (hlink : ∀ target, e ≠ .link target)
include hstat hlink

/-- What is listed from a path that is no link lies at or below the entry of the path. -/
theorem mem_pathsFrom_iff :
    ∃ found, d.pathsFrom p = .ok found ∧ ∀ q, some q ∈ found ↔
      ∃ ks : List String, d.get? (loc ++ ks.map .text) ≠ none ∧ q = ks.foldl Path.child p := by
  refine ⟨some p :: (d.below loc).map fun x => descend? p x.1, ?_, fun q => ?_⟩
  · unfold pathsFrom
    rw [hstat]
    cases e with
    | link target => exact absurd rfl (hlink target)
    | file content mode => rfl
    | directory mode => rfl
  rw [List.mem_cons, List.mem_map]
  constructor
  · rintro (heq | ⟨x, hx, hdescend⟩)
    · cases heq
      exact ⟨[], by simp [get?_of_stat hstat], rfl⟩
    · obtain ⟨ks, hks, rfl⟩ := Option.map_eq_some_iff.mp hdescend
      obtain ⟨y, hy, rfl⟩ := List.mem_map.mp hx
      obtain ⟨hmem, hbelow⟩ := List.mem_filter.mp hy
      rw [Bool.and_eq_true, List.isPrefixOf_iff_prefix] at hbelow
      obtain ⟨rest, hrest⟩ := hbelow.1
      have hdrop : y.1.drop loc.length = rest := by rw [← hrest, List.drop_left]
      rw [hdrop] at hks
      refine ⟨ks, ?_, rfl⟩
      rw [← Name.eq_map_text hks, hrest]
      exact get?_ne_none_of_mem hmem
  · rintro ⟨ks, hget, rfl⟩
    by_cases hks : ks = []
    · exact .inl (by rw [hks]; rfl)
    · obtain ⟨e', he'⟩ := Option.ne_none_iff_exists'.mp hget
      have hmem : (ks.map .text, e') ∈ d.below loc :=
        List.mem_map.mpr ⟨_, List.mem_filter.mpr ⟨mem_of_get? he', by simp [hks]⟩, by rw [List.drop_left]⟩
      refine .inr ⟨_, hmem, ?_⟩
      rw [descend?, Name.mapM_text]
      rfl

theorem mem_dirs_iff : q ∈ (d.tree p).1.dirs ↔
    d.hasDirectory q = true ∧ ∃ ks : List String, d.get? (loc ++ ks.map .text) ≠ none ∧ q = ks.foldl Path.child p := by
  obtain ⟨found, hfound, hlisted⟩ := mem_pathsFrom_iff hstat hlink
  rw [tree, hfound, ← hlisted q]
  simp [Path.mem_sort, and_comm]

theorem mem_files_iff : q ∈ (d.tree p).1.files ↔
    d.hasFile q = true ∧ ∃ ks : List String, d.get? (loc ++ ks.map .text) ≠ none ∧ q = ks.foldl Path.child p := by
  obtain ⟨found, hfound, hlisted⟩ := mem_pathsFrom_iff hstat hlink
  rw [tree, hfound, ← hlisted q]
  simp [Path.mem_sort, and_comm]

end ByNames

/-- What a tree lists goes on from the start by names of entries. -/
theorem exists_names_of_mem_tree (hd : d.Proper) (h : q ∈ (d.tree p).1.dirs ∨ q ∈ (d.tree p).1.files) :
    ∃ ns : List String, (∀ n ∈ ns, Path.Proper n) ∧ q = ns.foldl Path.child p := by
  have hlisted : ∃ found, d.pathsFrom p = .ok found ∧ some q ∈ found :=
    h.elim (fun hq => (mem_tree.1 hq).2) fun hq => (mem_tree.2 hq).2
  obtain ⟨found, hfound, hq⟩ := hlisted
  exact exists_names_of_pathsFrom hd hfound hq

theorem startsWith_of_mem_tree (hd : d.Proper) (h : q ∈ (d.tree p).1.dirs ∨ q ∈ (d.tree p).1.files) :
    q.startsWith p = true := by
  obtain ⟨ns, hns, rfl⟩ := exists_names_of_mem_tree hd h
  exact Path.startsWith_foldl_child p hns

/-- The tree below a path of a workspace lies in the workspace. -/
theorem encloses_of_mem_tree (hd : d.Proper) (hp : root.Encloses p)
    (h : q ∈ (d.tree p).1.dirs ∨ q ∈ (d.tree p).1.files) :
    root.Encloses q ∧ q.startsWith p = true := by
  refine ⟨?_, startsWith_of_mem_tree hd h⟩
  obtain ⟨ns, hns, rfl⟩ := exists_names_of_mem_tree hd h
  exact hp.foldl_child hns

/-- What a tree lists is spelled by its names. -/
theorem eq_foldl_namesBelow (hd : d.Proper) (hself : root.Encloses root)
    (h : q ∈ (d.tree root).1.dirs ∨ q ∈ (d.tree root).1.files) : q = (root.namesBelow q).foldl Path.child root := by
  obtain ⟨ns, hns, rfl⟩ := exists_names_of_mem_tree hd h
  rw [hself.namesBelow_foldl_child_self hns]

theorem eq_of_namesBelow (hd : d.Proper) (hself : root.Encloses root)
    (hp : p ∈ (d.tree root).1.dirs ∨ p ∈ (d.tree root).1.files) (hq : q ∈ (d.tree root).1.dirs ∨ q ∈ (d.tree root).1.files)
    (hnames : root.namesBelow p = root.namesBelow q) : p = q := by
  rw [eq_foldl_namesBelow hd hself hp, eq_foldl_namesBelow hd hself hq, hnames]

/-- A directory is listed in its own tree. -/
theorem mem_dirs_of_hasDirectory (h : d.hasDirectory p = true) : p ∈ (d.tree p).1.dirs := by
  have hlisted : ∃ found, d.pathsFrom p = .ok (some p :: found) := by
    cases hstat : d.stat p with
    | error err =>
      rw [hasDirectory, hstat] at h
      cases h
    | ok x =>
      obtain ⟨y, hy⟩ := exists_stat_noFollow hstat
      unfold pathsFrom
      rw [hy]
      split
      · rename_i heq
        cases heq
      · rw [hstat]
        exact ⟨_, rfl⟩
      · exact ⟨_, rfl⟩
  obtain ⟨found, hfound⟩ := hlisted
  unfold tree
  rw [hfound]
  exact Path.mem_sort.mpr (List.mem_filter.mpr ⟨List.mem_cons_self, h⟩)

/-! ### Resolved paths -/

/-- The absolute path of a location is spelled by its names. -/
theorem exists_names_of_canonicalize (hd : d.Proper) (h : d.canonicalize p = .ok q) :
    ∃ ns : List String, ∃ e, d.stat p = .ok (ns.map .text, e) ∧ (∀ n ∈ ns, Path.Proper n) ∧ q = ns.foldl Path.child ⟨"/"⟩ := by
  unfold canonicalize at h
  cases hstat : d.stat p with
  | error err =>
    rw [hstat] at h
    cases h
  | ok x =>
    obtain ⟨loc, e⟩ := x
    rw [hstat] at h
    simp only [Except.bind] at h
    split at h
    · rename_i q' hspell
      cases h
      obtain ⟨ns, hns, rfl⟩ := Option.map_eq_some_iff.mp hspell
      have hloc := Name.eq_map_text hns
      have hproper : ∀ n ∈ ns, Path.Proper n := by
        intro n hn
        refine hd.of_get? (get?_of_stat hstat) ?_
        rw [hloc]
        exact List.mem_map_of_mem hn
      exact ⟨ns, e, by rw [hloc], hproper, Path.mk_intercalate hproper⟩
    · cases h

/-- A path that was resolved is that of a directory's entry, and does not climb. -/
theorem encloses_of_canonicalize (hd : d.Proper) (h : d.canonicalize p = .ok q) :
    q.Encloses q ∧ q.components ≠ [] := by
  obtain ⟨ns, e, -, hproper, rfl⟩ := exists_names_of_canonicalize hd h
  have hin : Path.Encloses ⟨"/"⟩ (ns.foldl Path.child ⟨"/"⟩) :=
    (Path.Encloses.refl (by decide)).foldl_child hproper
  refine ⟨Path.Encloses.refl hin.2, fun hnil => ?_⟩
  obtain ⟨rest, hrest⟩ := Path.startsWith_iff.mp hin.1
  rw [hnil] at hrest
  exact absurd (List.append_eq_nil_iff.mp hrest).1 (by decide)

end Disk

end LiveWorkspace
