/-
  LiveWorkspace/Proofs/Disk/Plain.lean
  ====================================
  **Trees without links.**

  A path that meets no links leads down by its names, so that what it leads to depends on
  the entries at and above its place only.  Hence a tree without links shows nothing of
  what happens elsewhere on the disk (`tree_of_plain`).
-/
import LiveWorkspace.Proofs.Disk.Tree

namespace LiveWorkspace.Disk

variable {d d' : Disk} {ns : List String} {zone loc : Location}

/-! ### Paths that meet no links -/

/-- A walk down depends on the entries that it passes. -/
theorem descend_congr (h : ∀ m, m <+: ns → d'.get? (loc ++ m.map .text) = d.get? (loc ++ m.map .text)) :
    d'.descend loc ns = d.descend loc ns := by
  induction ns generalizing loc with
  | nil =>
    have hloc := h [] List.prefix_rfl
    rw [List.map_nil, List.append_nil] at hloc
    rw [descend, descend, hloc]
  | cons n rest ih =>
    have hloc := h [] List.nil_prefix
    have hnext := h [n] ⟨rest, rfl⟩
    rw [List.map_nil, List.append_nil] at hloc
    rw [List.map_cons, List.map_nil] at hnext
    have hrest : d'.descend (loc ++ [.text n]) rest = d.descend (loc ++ [.text n]) rest := by
      refine ih fun m hm => ?_
      rw [← append_map_cons]
      exact h (n :: m) (List.cons_prefix_cons.mpr ⟨rfl, hm⟩)
    simp only [descend, entryAt, hloc, hnext, hrest]

/-- Where no links are, a path from the root leads down by its names. -/
theorem resolve_of_unlinked (hproper : ∀ n ∈ ns, Path.Proper n) (hne : ns ≠ []) (h : d.Unlinked [] ns)
    (hflaw : (ns.foldl Path.child ⟨"/"⟩).flaw? = none) (follow : Bool) :
    d.resolve (ns.foldl Path.child ⟨"/"⟩) follow = d.descend [] ns := by
  obtain ⟨hsteps, habs⟩ := Path.steps_foldl_child hproper hne
  have hdots : ns.filter (· ≠ ".") = ns := List.filter_eq_self.mpr fun n hn => by simpa using (hproper n hn).2.1
  have hup : ".." ∉ ns := fun hmem => (hproper _ hmem).2.2.1 rfl
  have hlast : ns.getLast? ≠ some "." := fun e => (hproper _ (List.mem_of_getLast? e)).2.1 rfl
  have hwalk : d.walkLinks follow maxLinks [] ns = d.descend [] ns := by
    rw [walkLinks_eq_descend hup hlast (by rwa [hdots]), hdots]
  rw [resolve, hsteps, walkFrom, hflaw, habs]
  exact hwalk

/-- Directories lead to what a path without links spells. -/
theorem stat_of_reach {e : Entry} (hproper : ∀ n ∈ ns, Path.Proper n) (hne : ns ≠ []) (h : d.Reach [] ns)
    (hget : d.get? (ns.map .text) = some e) (hlink : ∀ target, e ≠ .link target)
    (hflaw : (ns.foldl Path.child ⟨"/"⟩).flaw? = none) (follow : Bool) :
    d.stat (ns.foldl Path.child ⟨"/"⟩) follow = .ok (ns.map .text, e) := by
  have hunlinked : d.Unlinked [] ns := by
    rintro m - ⟨rest, rfl⟩ target hget'
    rw [List.nil_append] at hget'
    by_cases hrest : rest = []
    · rw [hrest, List.append_nil, hget'] at hget
      exact hlink target (Option.some.inj hget).symm
    · obtain ⟨mode, hdir⟩ := h.directory hrest
      rw [List.nil_append, hget'] at hdir
      cases hdir
  rw [stat, resolve_of_unlinked hproper hne hunlinked hflaw, descend_eq_present_iff.mpr ⟨h, rfl, hget⟩]
  rfl

theorem stat_congr_of_unlinked (hproper : ∀ n ∈ ns, Path.Proper n) (hne : ns ≠ []) (h : d.Unlinked [] ns)
    (hsame : ∀ m, m <+: ns → d'.get? (m.map .text) = d.get? (m.map .text)) (follow : Bool) :
    d'.stat (ns.foldl Path.child ⟨"/"⟩) follow = d.stat (ns.foldl Path.child ⟨"/"⟩) follow := by
  have h' : d'.Unlinked [] ns := fun m hm hpre target => by
    rw [List.nil_append, hsame m hpre]
    exact h m hm hpre target
  rw [stat, stat]
  cases hflaw : (ns.foldl Path.child ⟨"/"⟩).flaw? with
  | some err => simp only [resolve, walkFrom, hflaw]
  | none =>
    have hdescend : d'.descend [] ns = d.descend [] ns := descend_congr fun m hm => hsame m hm
    rw [resolve_of_unlinked hproper hne h hflaw, resolve_of_unlinked hproper hne h' hflaw, hdescend]

/-! ### Trees that show nothing of the rest of the disk -/

/-- Directories lead down by some names, and there are no links below. -/
structure Plain (d : Disk) (ns : List String) : Prop where
  proper : ∀ n ∈ ns, Path.Proper n
  directories : ∀ m, m <+: ns → ∃ mode, d.get? (m.map .text) = some (.directory mode)
  unlinked : ∀ loc target, ns.map .text <+: loc → d.get? loc ≠ some (.link target)

/-- Two locations none of which lies at or below the other. -/
def Aside (zone loc : Location) : Prop := ¬ zone <+: loc ∧ ¬ loc <+: zone

theorem Aside.not_prefix (h : Aside zone loc) {other : Location} (hloc : loc <+: other) : ¬ zone <+: other :=
  fun hzone => (List.prefix_or_prefix_of_prefix hloc hzone).elim h.2 h.1

theorem SameOutside.below (h : SameOutside zone d d') (haside : Aside zone loc) : d'.below loc = d.below loc := by
  have hfilter : ∀ d : Disk, (d.entries.filter fun x => !zone.isPrefixOf x.1).filter
      (fun x => loc.isPrefixOf x.1 && x.1 != loc) = d.entries.filter fun x => loc.isPrefixOf x.1 && x.1 != loc := by
    refine fun d => filter_filter_of_imp _ fun x _ hx => ?_
    rw [Bool.and_eq_true, List.isPrefixOf_iff_prefix] at hx
    rw [Bool.not_eq_true', Bool.eq_false_iff]
    exact fun hp => haside.not_prefix hx.1 (List.isPrefixOf_iff_prefix.mp hp)
  rw [Disk.below, Disk.below, ← hfilter d', ← hfilter d, h.entries]

namespace Plain

theorem unlinked_append (h : d.Plain ns) (ms : List String) : d.Unlinked [] (ns ++ ms) := by
  intro m _ hpre target hget
  rw [List.nil_append] at hget
  rcases List.prefix_or_prefix_of_prefix hpre (List.prefix_append ns ms) with hm | hm
  · obtain ⟨mode, hdir⟩ := h.directories m hm
    rw [hdir] at hget
    cases hget
  · exact h.unlinked _ target (hm.map _) hget

/-- What lies at or below the end of the names is seen the same way whatever happens aside. -/
theorem stat_eq (h : d.Plain ns) (hout : SameOutside zone d d') (haside : Aside zone (ns.map .text))
    {ms : List String} (hms : ∀ n ∈ ms, Path.Proper n) (follow : Bool) :
    d'.stat (ms.foldl Path.child (ns.foldl Path.child ⟨"/"⟩)) follow
      = d.stat (ms.foldl Path.child (ns.foldl Path.child ⟨"/"⟩)) follow := by
  have hne : ns ++ ms ≠ [] := by
    intro hnil
    refine haside.2 ?_
    rw [(List.append_eq_nil_iff.mp hnil).1]
    exact List.nil_prefix
  rw [← List.foldl_append]
  refine stat_congr_of_unlinked (fun n hn => ?_) hne (h.unlinked_append ms) (fun m hm => hout.get? ?_) follow
  · exact (List.mem_append.mp hn).elim (h.proper n) (hms n)
  · rcases List.prefix_or_prefix_of_prefix hm (List.prefix_append ns ms) with hm | hm
    · exact fun hzone => haside.1 (hzone.trans (hm.map _))
    · exact haside.not_prefix (hm.map _)

/-- The end of the names is a directory, if its path can be spelled. -/
theorem of_stat (h : d.Plain ns) (hne : ns ≠ []) {follow : Bool} {x : Location × Entry}
    (hstat : d.stat (ns.foldl Path.child ⟨"/"⟩) follow = .ok x) : ∃ mode, x = (ns.map .text, .directory mode) := by
  have hflaw : (ns.foldl Path.child ⟨"/"⟩).flaw? = none := by
    unfold stat resolve walkFrom at hstat
    cases hflaw : (ns.foldl Path.child ⟨"/"⟩).flaw? with
    | none => rfl
    | some err =>
      rw [hflaw] at hstat
      cases hstat
  have hunlinked : d.Unlinked [] ns := by
    have happend := h.unlinked_append []
    rwa [List.append_nil] at happend
  obtain ⟨mode, hdir⟩ := h.directories ns List.prefix_rfl
  refine ⟨mode, ?_⟩
  rw [stat, resolve_of_unlinked h.proper hne hunlinked hflaw] at hstat
  split at hstat
  · rename_i loc e hdescend
    obtain ⟨-, hloc, hget⟩ := descend_eq_present_iff.mp hdescend
    rw [hloc, List.nil_append, hdir] at hget
    cases hstat
    cases hget
    rw [hloc, List.nil_append]
  · cases hstat
  · cases hstat

/-- **A tree without links shows nothing of what happens aside.** -/
theorem tree_eq (h : d.Plain ns) (hd : d.Proper) (hout : SameOutside zone d d')
    (haside : Aside zone (ns.map .text)) :
    d'.tree (ns.foldl Path.child ⟨"/"⟩) = d.tree (ns.foldl Path.child ⟨"/"⟩) := by
  have hne : ns ≠ [] := fun hnil => haside.2 (by rw [hnil]; exact List.nil_prefix)
  have hstat : ∀ {ms : List String}, (∀ n ∈ ms, Path.Proper n) → ∀ follow,
      d'.stat (ms.foldl Path.child (ns.foldl Path.child ⟨"/"⟩)) follow
        = d.stat (ms.foldl Path.child (ns.foldl Path.child ⟨"/"⟩)) follow := fun hms follow =>
    h.stat_eq hout haside hms follow
  have hpaths : d'.pathsFrom (ns.foldl Path.child ⟨"/"⟩) = d.pathsFrom (ns.foldl Path.child ⟨"/"⟩) := by
    have hself : ∀ follow, d'.stat (ns.foldl Path.child ⟨"/"⟩) follow
        = d.stat (ns.foldl Path.child ⟨"/"⟩) follow := by
      have hnone : ∀ n ∈ ([] : List String), Path.Proper n := fun n hn => absurd hn List.not_mem_nil
      exact hstat hnone
    rw [pathsFrom, pathsFrom, hself, hself]
    cases hroot : d.stat (ns.foldl Path.child ⟨"/"⟩) false with
    | error err => rfl
    | ok x =>
      obtain ⟨mode, rfl⟩ := h.of_stat hne hroot
      dsimp only
      rw [hout.below haside]
  rw [tree, tree, hpaths]
  cases hfound : d.pathsFrom (ns.foldl Path.child ⟨"/"⟩) with
  | error err => rfl
  | ok found =>
    have hlisted : ∀ q ∈ found.filterMap id, d'.stat q = d.stat q := by
      intro q hq
      obtain ⟨x, hx, hxq⟩ := List.mem_filterMap.mp hq
      have hmem : some q ∈ found := by rw [← hxq]; exact hx
      obtain ⟨ms, hms, rfl⟩ := exists_names_of_pathsFrom hd hfound hmem
      exact hstat hms true
    have hdirs : (found.filterMap id).filter d'.hasDirectory = (found.filterMap id).filter d.hasDirectory :=
      List.filter_congr fun q hq => by rw [hasDirectory, hasDirectory, hlisted q hq]
    have hfiles : (found.filterMap id).filter d'.hasFile = (found.filterMap id).filter d.hasFile :=
      List.filter_congr fun q hq => by rw [hasFile, hasFile, hlisted q hq]
    simp only [hdirs, hfiles]

end Plain

end LiveWorkspace.Disk
