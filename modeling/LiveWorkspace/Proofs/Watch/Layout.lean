/-
  LiveWorkspace/Proofs/Watch/Layout.lean
  ======================================
  **A workspace and its replica, side by side on the disk.**

  The root of a workspace and its replica are two sites of the disk, and neither lies in the
  other (`Layout`).  Where both are tidy, each is known by its nodes, and a change in one of
  them leaves the other as it is (`Layout.Holds`).  What is listed below a directory is then
  just what lies there (`Layout.mem_dirs_iff`, `Layout.mem_files_iff`).
-/
import LiveWorkspace.Proofs.Replica.Attempts
import LiveWorkspace.Proofs.Workspace.Agreement

namespace LiveWorkspace

namespace Site

variable {z : Site} {d d' : Disk} {p : Path} {q : List String}

theorem Spells.child (h : z.Spells p q) {n : String} (hn : Path.Proper n) : z.Spells (p.child n) (q ++ [n]) := by
  obtain ⟨r, hnames, hfilter, hup, -⟩ := h.names
  refine ⟨?_, ⟨r ++ [n], ?_, ?_, ?_, ?_⟩, ?_⟩
  · exact (Path.isAbsolute_join h.spelling_ne hn.isAbsolute_mk).trans h.absolute
  · rw [Path.child, Path.names_join _ hn.isAbsolute_mk, hn.names_mk, hnames, List.append_assoc]
    rfl
  · rw [List.filter_append, hfilter, List.filter_cons_of_pos (by simpa using hn.2.1), List.filter_nil]
  · rw [List.mem_append, List.mem_singleton, not_or]
    exact ⟨hup, fun e => hn.2.2.1 e.symm⟩
  · rw [List.getLast?_concat]
    exact fun e => hn.2.1 (Option.some.inj e)
  · exact (Path.endsInSeparator_join hn.isAbsolute_mk hn.1).trans hn.endsInSeparator_mk

theorem Spells.foldl_child (h : z.Spells p q) {ns : List String} (hns : ∀ n ∈ ns, Path.Proper n) :
    z.Spells (ns.foldl Path.child p) (q ++ ns) := by
  induction ns generalizing p q with
  | nil => rwa [List.append_nil]
  | cons n rest ih =>
    have hrest := ih (h.child (hns n List.mem_cons_self)) fun m hm => hns m (List.mem_cons_of_mem _ hm)
    rwa [List.append_assoc] at hrest

namespace Tidy

theorem hasDirectory_path_iff (h : z.Tidy d) (hp : z.Spells p q) (hflaw : p.flaw? = none) :
    d.hasDirectory p = true ↔ z.node d q = some .directory :=
  (h.stands.hasDirectory_iff hp hflaw).trans h.hasDirectory_iff

theorem read_eq_ok_iff (h : z.Tidy d) (hp : z.Spells p q) (hflaw : p.flaw? = none) {content : Text.Bytes} :
    d.read p = .ok content ↔ z.node d q = some (.file content) :=
  (h.stands.read_eq_ok_iff hp hflaw).trans h.hasFile_iff

/-- What is found at a path of the site is a node. -/
theorem stat_eq_ok (h : z.Tidy d) (hp : z.Spells p q) {follow : Bool} {loc : Location} {e : Entry}
    (hstat : d.stat p follow = .ok (loc, e)) : ∃ t, e.node? = some t ∧ z.node d q = some t := by
  obtain ⟨-, rfl, hget⟩ := (h.stands.stat_eq_ok_iff hp (Disk.flaw?_of_stat hstat)).mp hstat
  have hnode : z.node d q = e.node? := by rw [node, hget, Option.bind_some]
  obtain ⟨t, ht⟩ := Option.ne_none_iff_exists'.mp (show z.node d q ≠ none by simp [h.node_eq_none_iff, hget])
  exact ⟨t, hnode ▸ ht, ht⟩

theorem node_of_hasPath (h : z.Tidy d) (hp : z.Spells p q) (hhas : d.hasPath p = true) : z.node d q ≠ none := by
  cases hstat : d.stat p with
  | error err => simp [Disk.hasPath, hstat, Except.toOption] at hhas
  | ok x =>
    obtain ⟨t, -, ht⟩ := h.stat_eq_ok hp hstat
    simp [ht]

theorem node_of_read (h : z.Tidy d) (hp : z.Spells p q) {content : Text.Bytes} (hread : d.read p = .ok content) :
    z.node d q = some (.file content) := by
  cases hstat : d.stat p with
  | error err => simp [Disk.read, hstat] at hread
  | ok x =>
    obtain ⟨t, he, ht⟩ := h.stat_eq_ok hp hstat
    obtain ⟨loc, e⟩ := x
    cases e with
    | link target => cases he
    | directory mode => simp [Disk.read, hstat] at hread
    | file bytes mode =>
      obtain rfl : bytes = content := by simpa [Disk.read, hstat] using hread
      cases he
      exact ht

/-- A node is found at its path. -/
theorem exists_stat (h : z.Tidy d) (hp : z.Spells p q) (hflaw : p.flaw? = none) {t : Node} (ht : z.node d q = some t)
    (follow : Bool) : ∃ e, d.stat p follow = .ok (z.place q, e) ∧ e.node? = some t := by
  rw [node, Option.bind_eq_some_iff] at ht
  obtain ⟨e, hget, he⟩ := ht
  refine ⟨e, (h.stands.stat_eq_ok_iff hp hflaw).mpr ⟨h.reaches ?_, rfl, hget⟩, he⟩
  simp [h.node_eq_none_iff, hget]

theorem hasFile_path_iff (h : z.Tidy d) (hp : z.Spells p q) (hflaw : p.flaw? = none) :
    d.hasFile p = true ↔ ∃ content, z.node d q = some (.file content) := by
  rw [Disk.hasFile]
  constructor
  · intro hfile
    cases hstat : d.stat p with
    | error err => simp [hstat, Except.toOption] at hfile
    | ok x =>
      obtain ⟨t, he, ht⟩ := h.stat_eq_ok hp hstat
      cases hx : x.2 with
      | file content mode => exact ⟨content, by rw [ht, ← he, hx]; rfl⟩
      | directory mode => simp [hstat, Except.toOption, hx, Entry.isFile] at hfile
      | link target => simp [hstat, Except.toOption, hx, Entry.isFile] at hfile
  · rintro ⟨content, hnode⟩
    obtain ⟨e, hstat, he⟩ := h.exists_stat hp hflaw hnode true
    rw [hstat]
    cases e <;> simp_all [Except.toOption, Entry.isFile, Entry.node?]

theorem stat_directory (h : z.Tidy d) (hp : z.Spells p q) (hflaw : p.flaw? = none) (hdir : z.node d q = some .directory) :
    ∃ mode, d.stat p false = .ok (z.place q, .directory mode) := by
  obtain ⟨e, hstat, he⟩ := h.exists_stat hp hflaw hdir false
  cases e with
  | link target => cases he
  | file content mode => cases he
  | directory mode => exact ⟨mode, hstat⟩

theorem get?_place_append_iff (h : z.Tidy d) (ns : List String) :
    d.get? (z.place q ++ ns.map .text) ≠ none ↔ z.node d (q ++ ns) ≠ none := by
  rw [← place_append, Ne, Ne, h.node_eq_none_iff]

section Listed

variable (h : z.Tidy d) (hp : z.Spells p q) (hdir : z.node d q = some .directory)
  (hflaw : ∀ ns, z.node d (q ++ ns) ≠ none → (ns.foldl Path.child p).flaw? = none)
include h hp hdir hflaw

/-- The directories that are listed below one. -/
theorem mem_dirs_iff {p' : Path} :
    p' ∈ (d.tree p).1.dirs ↔ ∃ ns, z.node d (q ++ ns) = some .directory ∧ p' = ns.foldl Path.child p := by
  obtain ⟨mode, hstat⟩ := h.stat_directory hp (hflaw [] (by simp [hdir])) hdir
  have hiff : ∀ ns, z.node d (q ++ ns) ≠ none →
      (d.hasDirectory (ns.foldl Path.child p) = true ↔ z.node d (q ++ ns) = some .directory) := fun ns hns =>
    h.hasDirectory_path_iff (hp.foldl_child fun n hn => h.proper_names hns n (List.mem_append_right q hn)) (hflaw ns hns)
  rw [Disk.mem_dirs_iff hstat fun target he => by cases he]
  constructor
  · rintro ⟨hhas, ns, hns, rfl⟩
    rw [h.get?_place_append_iff] at hns
    exact ⟨ns, (hiff ns hns).mp hhas, rfl⟩
  · rintro ⟨ns, hnode, rfl⟩
    have hns : z.node d (q ++ ns) ≠ none := by simp [hnode]
    exact ⟨(hiff ns hns).mpr hnode, ns, (h.get?_place_append_iff ns).mpr hns, rfl⟩

/-- The files that are listed below a directory. -/
theorem mem_files_iff {p' : Path} :
    p' ∈ (d.tree p).1.files
      ↔ ∃ ns content, z.node d (q ++ ns) = some (.file content) ∧ p' = ns.foldl Path.child p := by
  obtain ⟨mode, hstat⟩ := h.stat_directory hp (hflaw [] (by simp [hdir])) hdir
  have hiff : ∀ ns, z.node d (q ++ ns) ≠ none →
      (d.hasFile (ns.foldl Path.child p) = true ↔ ∃ content, z.node d (q ++ ns) = some (.file content)) := fun ns hns =>
    h.hasFile_path_iff (hp.foldl_child fun n hn => h.proper_names hns n (List.mem_append_right q hn)) (hflaw ns hns)
  rw [Disk.mem_files_iff hstat fun target he => by cases he]
  constructor
  · rintro ⟨hhas, ns, hns, rfl⟩
    rw [h.get?_place_append_iff] at hns
    obtain ⟨content, hnode⟩ := (hiff ns hns).mp hhas
    exact ⟨ns, content, hnode, rfl⟩
  · rintro ⟨ns, content, hnode, rfl⟩
    have hns : z.node d (q ++ ns) ≠ none := by simp [hnode]
    exact ⟨(hiff ns hns).mpr ⟨content, hnode⟩, ns, (h.get?_place_append_iff ns).mpr hns, rfl⟩

end Listed

end Tidy

end Site

/-! ### Layouts -/

/-- A workspace whose root is a site of the disk as its replica is, and which the replica is
    named like. -/
structure Layout extends Premises where
  original : Site
  climbs : Path.Component.up ∉ root.components
  found : original.Spells root []
  named : site.name = original.name
  apart : Disk.Aside site.zone original.zone

namespace Layout

variable {m : Layout} {d d' : Disk} {q r : List String}

/-- The path of what lies some names below the root. -/
def path (m : Layout) (q : List String) : Path := q.foldl Path.child m.root

/-- The path of the copy of what lies some names below the root. -/
def copy (m : Layout) (q : List String) : Path := m.copyOf (m.path q)

theorem path_append (m : Layout) (q r : List String) : m.path (q ++ r) = r.foldl Path.child (m.path q) :=
  List.foldl_append

section Names

variable (hq : ∀ n ∈ q, Path.Proper n) (hr : ∀ n ∈ r, Path.Proper n)
include hq

theorem encloses_path : m.root.Encloses (m.path q) := (Path.Encloses.refl m.climbs).foldl_child hq

theorem names_path : m.names (m.path q) = q := by
  rw [Premises.names, path, (Path.Encloses.refl m.climbs).namesBelow_foldl_child hq, Path.namesBelow, List.drop_length]
  rfl

theorem spells_path : m.original.Spells (m.path q) q := m.found.foldl_child hq

theorem spells_copy : m.site.Spells (m.copy q) q := by
  have h := Premises.spells_copyOf (m := m.toPremises) (encloses_path (m := m) hq)
  rwa [names_path hq] at h

include hr

theorem same_path_iff : (m.path q).same (m.path r) = true ↔ q = r := by
  rw [← Premises.names_eq_iff (m := m.toPremises) (encloses_path hq) (encloses_path hr), names_path hq, names_path hr]

theorem startsWith_path_iff : (m.path q).startsWith (m.path r) = true ↔ r <+: q := by
  rw [← Premises.names_prefix_iff (m := m.toPremises) (encloses_path hr) (encloses_path hq), names_path hq,
    names_path hr]

theorem path_inj (h : m.path q = m.path r) : q = r := by
  rw [← names_path (m := m) hq, h, names_path hr]

end Names

/-- The operating system takes the path of what lies some names below the root, and that of
    its copy. -/
def Fits (m : Layout) (q : List String) : Prop := (m.path q).flaw? = none ∧ (m.copy q).flaw? = none

instance (m : Layout) (q : List String) : Decidable (m.Fits q) := inferInstanceAs (Decidable (_ ∧ _))

/-- Disks that differ in the workspace and in its replica only. -/
structure Beyond (m : Layout) (d d' : Disk) : Prop where
  workingDir : d'.workingDir = d.workingDir
  entries : ∀ loc, ¬ m.site.zone <+: loc → ¬ m.original.zone <+: loc → d'.get? loc = d.get? loc

theorem Beyond.trans {d'' : Disk} (h : m.Beyond d d') (h' : m.Beyond d' d'') : m.Beyond d d'' :=
  ⟨h'.1.trans h.1, fun loc hs ho => (h'.2 loc hs ho).trans (h.2 loc hs ho)⟩

theorem Beyond.of_replica (h : Disk.SameOutside m.site.zone d d') : m.Beyond d d' :=
  ⟨h.workingDir, fun _ hs _ => h.get? hs⟩

theorem Beyond.of_original (h : Disk.SameOutside m.original.zone d d') : m.Beyond d d' :=
  ⟨h.workingDir, fun _ _ ho => h.get? ho⟩

/-- A directory is found at a path, whatever happens in the workspace and in its replica. -/
def Lasting (m : Layout) (d : Disk) (p : Path) (loc : Location) : Prop :=
  ∀ d', m.Beyond d d' → ∃ mode, d'.stat p = .ok (loc, .directory mode)

/-- Both sites are tidy, and stay where they are. -/
structure Holds (m : Layout) (d : Disk) : Prop where
  original : m.original.Tidy d
  replica : m.site.Tidy d
  aboveRoot : m.Lasting d m.original.parent m.original.base
  aboveReplica : m.Lasting d m.site.parent m.site.base

namespace Holds

/-- What happens in the replica leaves the workspace as it is. -/
theorem of_replica (h : m.Holds d) (hout : Disk.SameOutside m.site.zone d d') (htidy : m.site.Tidy d') :
    m.Holds d' ∧ m.original.node d' = m.original.node d := by
  refine ⟨⟨?_, htidy, ?_, ?_⟩, funext fun q => Site.node_elsewhere hout m.apart q⟩
  · refine h.original.elsewhere hout m.apart htidy.proper fun d'' hd'' => ?_
    exact h.aboveRoot d'' ((Beyond.of_replica hout).trans (.of_original hd''))
  · exact fun d'' hd'' => h.aboveRoot d'' ((Beyond.of_replica hout).trans hd'')
  · exact fun d'' hd'' => h.aboveReplica d'' ((Beyond.of_replica hout).trans hd'')

/-- What happens in the workspace leaves the replica as it is. -/
theorem of_original (h : m.Holds d) (hout : Disk.SameOutside m.original.zone d d') (htidy : m.original.Tidy d') :
    m.Holds d' ∧ m.site.node d' = m.site.node d := by
  have haside : Disk.Aside m.original.zone m.site.zone := ⟨m.apart.2, m.apart.1⟩
  refine ⟨⟨htidy, ?_, ?_, ?_⟩, funext fun q => Site.node_elsewhere hout haside q⟩
  · refine h.replica.elsewhere hout haside htidy.proper fun d'' hd'' => ?_
    exact h.aboveReplica d'' ((Beyond.of_original hout).trans (.of_replica hd''))
  · exact fun d'' hd'' => h.aboveRoot d'' ((Beyond.of_original hout).trans hd'')
  · exact fun d'' hd'' => h.aboveReplica d'' ((Beyond.of_original hout).trans hd'')

theorem proper_names (h : m.Holds d) (hq : m.original.node d q ≠ none) : ∀ n ∈ q, Path.Proper n :=
  h.original.proper_names hq

/-- What is in the tree is listed below each directory that it lies in. -/
theorem mem_dirs_iff (h : m.Holds d) (hfits : ∀ q, m.original.node d q ≠ none → m.Fits q)
    (hdir : m.original.node d q = some .directory) {p : Path} :
    p ∈ (d.tree (m.path q)).1.dirs ↔ ∃ r, q <+: r ∧ m.original.node d r = some .directory ∧ p = m.path r := by
  have hq := h.proper_names (q := q) (by simp [hdir])
  rw [h.original.mem_dirs_iff (spells_path hq) hdir fun ns hns => ?_]
  · constructor
    · rintro ⟨ns, hnode, rfl⟩
      exact ⟨q ++ ns, List.prefix_append q ns, hnode, (m.path_append q ns).symm⟩
    · rintro ⟨-, ⟨ns, rfl⟩, hnode, rfl⟩
      exact ⟨ns, hnode, m.path_append q ns⟩
  · rw [← m.path_append]
    exact (hfits _ hns).1

theorem mem_files_iff (h : m.Holds d) (hfits : ∀ q, m.original.node d q ≠ none → m.Fits q)
    (hdir : m.original.node d q = some .directory) {p : Path} :
    p ∈ (d.tree (m.path q)).1.files
      ↔ ∃ r content, q <+: r ∧ m.original.node d r = some (.file content) ∧ p = m.path r := by
  have hq := h.proper_names (q := q) (by simp [hdir])
  rw [h.original.mem_files_iff (spells_path hq) hdir fun ns hns => ?_]
  · constructor
    · rintro ⟨ns, content, hnode, rfl⟩
      exact ⟨q ++ ns, content, List.prefix_append q ns, hnode, (m.path_append q ns).symm⟩
    · rintro ⟨-, content, ⟨ns, rfl⟩, hnode, rfl⟩
      exact ⟨ns, content, hnode, m.path_append q ns⟩
  · rw [← m.path_append]
    exact (hfits _ hns).1

end Holds

end Layout

end LiveWorkspace
