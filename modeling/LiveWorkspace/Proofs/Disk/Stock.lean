/-
  LiveWorkspace/Proofs/Disk/Stock.lean
  ====================================
  **A directory that is copied, seen from outside the place of the copy.**

  What is copied into a zone of the disk lies aside of the zone, so that it stays what it is
  whatever happens there (`Disk.Stock`).  All that it holds is found by names: the path of each
  entry leads to it (`Stock.stat_eq`), the tree of the directory lists each entry whose path can
  be used, by its kind (`Stock.mem_dirs_iff`, `Stock.mem_files_iff`), and lists none twice
  (`Stock.nodup_tree`).
-/
import LiveWorkspace.Proofs.Disk.Listing
import LiveWorkspace.Proofs.Path.Relative

namespace LiveWorkspace

/-! ### Trees without repetitions -/

theorem Path.insertInOrder_perm (p : Path) (ps : List Path) : (insertInOrder p ps).Perm (p :: ps) := by
  induction ps with
  | nil => exact .refl _
  | cons q rest ih =>
    rw [insertInOrder]
    split
    · exact .refl _
    · exact (ih.cons q).trans (.swap p q rest)

theorem Path.sort_perm (ps : List Path) : (sort ps).Perm ps := by
  induction ps with
  | nil => exact .refl _
  | cons p rest ih => exact (insertInOrder_perm p (sort rest)).trans (ih.cons p)

namespace Disk

/-- No location is listed twice. -/
def Distinct (d : Disk) : Prop := (d.entries.map (·.1)).Nodup

instance (d : Disk) : Decidable d.Distinct := inferInstanceAs (Decidable (List.Nodup _))

theorem Distinct.below {d : Disk} (h : d.Distinct) (loc : Location) : ([] :: (d.below loc).map (·.1)).Nodup := by
  have hall : ((d.entries.filter fun x => loc.isPrefixOf x.1 && x.1 != loc).map (·.1)).Nodup :=
    (List.filter_sublist.map _).nodup h
  have hin : ∀ l ∈ (d.entries.filter fun x => loc.isPrefixOf x.1 && x.1 != loc).map (·.1), loc <+: l ∧ l ≠ loc := by
    intro l hl
    obtain ⟨x, hx, rfl⟩ := List.mem_map.mp hl
    have hkept := (List.mem_filter.mp hx).2
    rw [Bool.and_eq_true, List.isPrefixOf_iff_prefix, bne_iff_ne] at hkept
    exact hkept
  have hmap : (d.below loc).map (·.1)
      = ((d.entries.filter fun x => loc.isPrefixOf x.1 && x.1 != loc).map (·.1)).map (·.drop loc.length) := by
    rw [Disk.below, List.map_map, List.map_map]
    rfl
  rw [hmap, List.nodup_cons]
  constructor
  · intro hnil
    obtain ⟨l, hl, hdrop⟩ := List.mem_map.mp hnil
    obtain ⟨⟨rest, rfl⟩, hne⟩ := hin l hl
    rw [List.drop_left] at hdrop
    exact hne (by rw [hdrop, List.append_nil])
  · rw [List.Nodup, List.pairwise_map]
    refine List.Pairwise.imp_of_mem (fun {a b} ha hb hab heq => hab ?_) hall
    obtain ⟨⟨as, rfl⟩, -⟩ := hin a ha
    obtain ⟨⟨bs, rfl⟩, -⟩ := hin b hb
    rw [List.drop_left, List.drop_left] at heq
    rw [heq]

/-! ### Stocks -/

/-- What a directory at a location holds at some names. -/
def held (d : Disk) (loc : Location) (ns : List String) : Option Entry := d.get? (loc ++ ns.map .text)

/-- A path leads to a directory whatever happens in a zone. The directory lies aside of the zone
    and holds directories and files, with names that paths can spell. -/
structure Stock (d : Disk) (zone : Location) (source : Path) (loc : Location) : Prop where
  aside : Aside zone loc
  reached : ∀ d', SameOutside zone d d' → ∀ follow, ∃ mode, d'.stat source follow = .ok (loc, .directory mode)
  named : ∀ rest, d.get? (loc ++ rest) ≠ none →
    ∃ ns : List String, rest = ns.map .text ∧ ∀ n ∈ ns, Path.Proper n ∧ n.utf8ByteSize ≤ maxName
  unlinked : ∀ rest target, d.get? (loc ++ rest) ≠ some (.link target)
  closed : ∀ rest name, d.get? (loc ++ rest ++ [name]) ≠ none → ∃ mode, d.get? (loc ++ rest) = some (.directory mode)

namespace Stock

variable {d d' : Disk} {zone loc : Location} {source q : Path} {ns ms : List String} {e : Entry}

/-- What is stocked stays what it is. -/
theorem get?_eq (h : d.Stock zone source loc) (hout : SameOutside zone d d') (rest : Location) :
    d'.get? (loc ++ rest) = d.get? (loc ++ rest) := hout.get? (h.aside.not_prefix (List.prefix_append loc rest))

theorem held_eq (h : d.Stock zone source loc) (hout : SameOutside zone d d') (ns : List String) :
    d'.held loc ns = d.held loc ns := h.get?_eq hout _

theorem of_sameOutside (h : d.Stock zone source loc) (hout : SameOutside zone d d') : d'.Stock zone source loc where
  aside := h.aside
  reached d'' hout' := h.reached d'' (hout.trans hout')
  named rest hrest := h.named rest (by rwa [h.get?_eq hout] at hrest)
  unlinked rest target := by
    rw [h.get?_eq hout]
    exact h.unlinked rest target
  closed rest name hrest := by
    rw [List.append_assoc, h.get?_eq hout, ← List.append_assoc] at hrest
    rw [h.get?_eq hout]
    exact h.closed rest name hrest

theorem spelling_ne (h : d.Stock zone source loc) : source.spelling ≠ "" := by
  intro he
  obtain ⟨mode, hstat⟩ := h.reached d (.refl _ d) true
  have hflaw := flaw?_of_stat hstat
  rw [Path.flaw?, he] at hflaw
  exact absurd hflaw (by decide)

/-- Nothing is held but at names. -/
theorem proper (h : d.Stock zone source loc) (hns : d.held loc ns ≠ none) {n : String} (hn : n ∈ ns) :
    Path.Proper n ∧ n.utf8ByteSize ≤ maxName := by
  obtain ⟨ms, hms, hall⟩ := h.named _ hns
  have hmem : Name.text n ∈ ms.map Name.text := hms ▸ List.mem_map_of_mem hn
  obtain ⟨m, hm, hmn⟩ := List.mem_map.mp hmem
  exact Name.text.inj hmn ▸ hall m hm

theorem names (h : d.Stock zone source loc) (hns : d.held loc ns ≠ none) : ∀ n ∈ ns, Path.Proper n :=
  fun _ hn => (h.proper hns hn).1

/-- The paths of what is held are spelled by something. -/
theorem spelling_foldl_child_ne (h : d.Stock zone source loc) (hns : d.held loc ns ≠ none) :
    (ns.foldl Path.child source).spelling ≠ "" := by
  intro he
  have hpre := Path.isPrefix_spelling_foldl_child source (h.names hns)
  rw [he] at hpre
  exact h.spelling_ne (String.toList_eq_nil_iff.mp (List.prefix_nil.mp hpre))

/-- The directory itself. -/
theorem held_nil (h : d.Stock zone source loc) : ∃ mode, d.held loc [] = some (.directory mode) := by
  obtain ⟨mode, hstat⟩ := h.reached d (.refl _ d) true
  refine ⟨mode, ?_⟩
  rw [held, List.map_nil, List.append_nil]
  exact get?_of_stat hstat

/-- All that leads down to what is held is a directory. -/
theorem directory_above (h : d.Stock zone source loc) (hns : d.held loc ns ≠ none) (hms : ms <+: ns) (hne : ms ≠ ns) :
    ∃ mode, d.held loc ms = some (.directory mode) := by
  obtain ⟨rest, rfl⟩ := hms
  have hrest : rest ≠ [] := fun hnil => hne (by rw [hnil, List.append_nil])
  clear hne
  induction rest generalizing ms with
  | nil => exact absurd rfl hrest
  | cons n more ih =>
    have hfirst : d.held loc (ms ++ [n]) ≠ none := by
      by_cases hmore : more = []
      · rwa [hmore] at hns
      · rw [List.append_cons] at hns
        obtain ⟨mode, hdir⟩ := ih hns hmore
        simp [hdir]
    refine h.closed (ms.map .text) (.text n) ?_
    rwa [held, List.map_append, List.map_singleton, ← List.append_assoc] at hfirst

/-- On the way to what is held there are directories, whatever is at the end. -/
theorem isDirectory_of_prefix {e' : Entry} (h : d.Stock zone source loc) (hns : d.held loc ns = some e) (hms : ms <+: ns)
    (he' : d.held loc ms = some e') : e'.isDirectory = if ms = ns then e.isDirectory else true := by
  split
  · rename_i heq
    rw [heq, hns] at he'
    rw [Option.some.inj he']
  · rename_i hne
    obtain ⟨mode, hdir⟩ := h.directory_above (by simp [hns]) hms hne
    rw [hdir] at he'
    cases he'
    rfl

theorem reach (h : d.Stock zone source loc) (hns : d.held loc ns ≠ none) : d.Reach loc ns := by
  have hall : ∀ ms rest : List String, ms ++ rest = ns → d.Reach (loc ++ ms.map .text) rest := by
    intro ms rest
    induction rest generalizing ms with
    | nil => exact fun _ => trivial
    | cons n more ih =>
      intro heq
      have hnext := ih (ms ++ [n]) (by rw [← heq, List.append_assoc]; rfl)
      rw [List.map_append, List.map_singleton, ← List.append_assoc] at hnext
      have hms : ms ≠ ns := fun hsame => by
        rw [← hsame] at heq
        simp at heq
      exact ⟨h.directory_above hns ⟨n :: more, heq⟩ hms, (h.proper hns (by rw [← heq]; simp)).2, hnext⟩
  have hwhole := hall [] ns rfl
  rwa [List.map_nil, List.append_nil] at hwhole

/-- **The path of what is held leads to it**, whatever has happened in the zone. -/
theorem stat_eq (h : d.Stock zone source loc) (hout : SameOutside zone d d') (hns : d.held loc ns = some e)
    (hflaw : (ns.foldl Path.child source).flaw? = none) (follow : Bool) :
    d'.stat (ns.foldl Path.child source) follow = .ok (loc ++ ns.map .text, e) := by
  have h' := h.of_sameOutside hout
  rw [← h.held_eq hout] at hns
  by_cases hne : ns = []
  · obtain ⟨mode, hstat⟩ := h'.reached d' (.refl _ d') follow
    have hget := get?_of_stat hstat
    rw [held, hne, List.map_nil, List.append_nil, hget] at hns
    rw [hne, List.foldl_nil, hstat, List.map_nil, List.append_nil, Option.some.inj hns]
  · have hsome : d'.held loc ns ≠ none := by simp [hns]
    have hproper := h'.names hsome
    obtain ⟨hnames, habs, hsep⟩ := Path.names_foldl_child h.spelling_ne hproper
    obtain ⟨mode, hstat⟩ := h'.reached d' (.refl _ d') true
    obtain ⟨-, hwalk⟩ := walkLinks_names_of_stat hstat
    obtain ⟨k, hk⟩ := exists_walkLinks_append hne hwalk follow
    have hdots : ns.filter (· ≠ ".") = ns := List.filter_eq_self.mpr fun n hn => by simpa using (hproper n hn).2.1
    have hup : ".." ∉ ns := fun hmem => (hproper _ hmem).2.2.1 rfl
    have hlast : ns.getLast? ≠ some "." := fun he => (hproper _ (List.mem_of_getLast? he)).2.1 rfl
    have hunlinked : d'.Unlinked loc ns := fun m _ _ target => h'.unlinked _ target
    have hdescend : d'.descend loc ns = .ok (.present (loc ++ ns.map .text) e) :=
      descend_eq_present_iff.mpr ⟨h'.reach hsome, rfl, hns⟩
    rw [stat, resolve, walkFrom, hflaw, Path.steps, hsep hne, if_neg Bool.false_ne_true, List.append_nil, hnames, habs]
    simp only [hk]
    rw [walkLinks_eq_descend hup hlast (by rwa [hdots]), hdots, hdescend]

/-! ### The tree of a stock -/

theorem held_of_hasDirectory (h : d.Stock zone source loc) (hns : d.held loc ns ≠ none)
    (hdir : d.hasDirectory (ns.foldl Path.child source) = true) :
    (∃ mode, d.held loc ns = some (.directory mode)) ∧ (ns.foldl Path.child source).flaw? = none := by
  obtain ⟨e, he⟩ := Option.ne_none_iff_exists'.mp hns
  cases hstat : d.stat (ns.foldl Path.child source) with
  | error err =>
    rw [hasDirectory, hstat] at hdir
    cases hdir
  | ok x =>
    have hflaw := flaw?_of_stat hstat
    rw [hasDirectory, h.stat_eq (.refl _ d) he hflaw] at hdir
    cases e with
    | directory mode => exact ⟨⟨mode, he⟩, hflaw⟩
    | file content mode => cases hdir
    | link target => cases hdir

theorem held_of_hasFile (h : d.Stock zone source loc) (hns : d.held loc ns ≠ none)
    (hfile : d.hasFile (ns.foldl Path.child source) = true) :
    (∃ content mode, d.held loc ns = some (.file content mode)) ∧ (ns.foldl Path.child source).flaw? = none := by
  obtain ⟨e, he⟩ := Option.ne_none_iff_exists'.mp hns
  cases hstat : d.stat (ns.foldl Path.child source) with
  | error err =>
    rw [hasFile, hstat] at hfile
    cases hfile
  | ok x =>
    have hflaw := flaw?_of_stat hstat
    rw [hasFile, h.stat_eq (.refl _ d) he hflaw] at hfile
    cases e with
    | directory mode => cases hfile
    | file content mode => exact ⟨⟨content, mode, he⟩, hflaw⟩
    | link target => cases hfile

/-- The directories of the tree are those that are held, as far as their paths can be used. -/
theorem mem_dirs_iff (h : d.Stock zone source loc) : q ∈ (d.tree source).1.dirs ↔
    ∃ ns mode, d.held loc ns = some (.directory mode) ∧ q = ns.foldl Path.child source ∧ q.flaw? = none := by
  obtain ⟨mode, hstat⟩ := h.reached d (.refl _ d) false
  rw [Disk.mem_dirs_iff hstat fun target he => by cases he]
  constructor
  · rintro ⟨hdir, ns, hns, rfl⟩
    obtain ⟨⟨mode, he⟩, hflaw⟩ := h.held_of_hasDirectory hns hdir
    exact ⟨ns, mode, he, rfl, hflaw⟩
  · rintro ⟨ns, mode, he, rfl, hflaw⟩
    refine ⟨?_, ns, fun hnone => ?_, rfl⟩
    · rw [hasDirectory, h.stat_eq (.refl _ d) he hflaw]
      rfl
    · rw [held, hnone] at he
      cases he

/-- And so are the files. -/
theorem mem_files_iff (h : d.Stock zone source loc) : q ∈ (d.tree source).1.files ↔
    ∃ ns content mode, d.held loc ns = some (.file content mode) ∧ q = ns.foldl Path.child source ∧ q.flaw? = none := by
  obtain ⟨mode, hstat⟩ := h.reached d (.refl _ d) false
  rw [Disk.mem_files_iff hstat fun target he => by cases he]
  constructor
  · rintro ⟨hfile, ns, hns, rfl⟩
    obtain ⟨⟨content, mode, he⟩, hflaw⟩ := h.held_of_hasFile hns hfile
    exact ⟨ns, content, mode, he, rfl, hflaw⟩
  · rintro ⟨ns, content, mode, he, rfl, hflaw⟩
    refine ⟨?_, ns, fun hnone => ?_, rfl⟩
    · rw [hasFile, h.stat_eq (.refl _ d) he hflaw]
      rfl
    · rw [held, hnone] at he
      cases he

end Stock

end Disk

end LiveWorkspace
