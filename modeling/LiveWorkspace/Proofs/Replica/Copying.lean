/-
  LiveWorkspace/Proofs/Replica/Copying.lean
  =========================================
  **A tree is copied entry by entry, whatever is in the way.**

  Of each entry of a tree it is known beforehand whether it can be copied: the operating
  system has to take the path of the copy, and nothing of another kind may stand on the way to
  it or at its end (`Site.Admits`).  What has been copied so far never changes the answer, as
  all that is new on the way are directories of the tree itself (`Received.free_iff`).  So one
  step either copies its entry or leaves all entries as they were (`Received.copyDir`,
  `Received.copyFile`), and by induction over the two lists the entries that are not
  admitted are just those that are refused.
-/
import LiveWorkspace.Proofs.Disk.Stock
import LiveWorkspace.Proofs.Replica.Filling

namespace LiveWorkspace

/-! ### Refusals -/

namespace Replica

/-- The entries whose turn fails, when all take their turns in order. -/
def refused {ε : Type} (op : Path → EStateM ε Disk Unit) : List Path → Disk → List Path
  | [], _ => []
  | x :: rest, d =>
    match op x d with
    | .ok _ d' => refused op rest d'
    | .error _ d' => x :: refused op rest d'

/-- A replication after the directories of the tree have been copied. -/
def copyDirs (m : Replica) (source : Path) (d : Disk) : Replication :=
  (d.tree source).1.dirs.foldl (fun r dir => r.step (m.copyDir source dir) "Failed to mirror directory")
    ⟨d, 0, (d.tree source).2⟩

/-- The entries of a tree that could not be copied. -/
def refusals (m : Replica) (source : Path) (d : Disk) : List Path :=
  refused (m.copyDir source) (d.tree source).1.dirs d
    ++ refused (m.copyFile source) (d.tree source).1.files (m.copyDirs source d).disk

/-- The path of the copy of what lies some names below a path. -/
def copyOf (m : Replica) (source : Path) (ns : List String) : Path :=
  m.pathOf ((ns.foldl Path.child source).relativeTo source)

section Series

variable {ε : Type} {op : Path → EStateM ε Disk Unit} {done : Path → Prop}

end Series

end Replica

namespace Site

variable {z : Site} {m : Replica} {d t t' : Disk} {p source dir : Path} {loc : Location}
  {q r mids ns ms : List String} {e : Entry} {k : Node} {put : Path → Prop}

/-! ### Where an entry can be put -/

/-- The operating system takes a path, and nothing stands in the way of an entry there. -/
def Admits (z : Site) (d : Disk) (p : Path) (q : List String) (e : Entry) : Prop :=
  p.flaw? = none ∧ ∃ k, e.node? = some k ∧ z.Free d q k

/-- What is free is said of the entries on the way. -/
theorem Stands.free_iff (h : z.Stands d) : z.Free d q k ↔
    (∀ r e, r <+: q → r ≠ q → z.entry d r = some e → e.isDirectory = true)
      ∧ (∀ e, z.entry d q = some e → e.isDirectory = k.isDirectory) ∧ ∀ n ∈ z.name :: q, n.utf8ByteSize ≤ maxName := by
  have hnode : ∀ r e, z.entry d r = some e → ∃ k', z.node d r = some k' ∧ k'.isDirectory = e.isDirectory := by
    intro r e he
    cases e with
    | link target => exact absurd he (h.unlinked _ target (zone_prefix_place z r))
    | directory mode => exact ⟨_, node_eq_directory_iff.mpr ⟨mode, he⟩, rfl⟩
    | file content mode => exact ⟨_, node_eq_file_iff.mpr ⟨mode, he⟩, rfl⟩
  have hentry : ∀ r k', z.node d r = some k' → ∃ e, z.entry d r = some e ∧ k'.isDirectory = e.isDirectory := by
    intro r k' hk'
    obtain ⟨e, he, hek⟩ := Option.bind_eq_some_iff.mp hk'
    exact ⟨e, he, Entry.isDirectory_of_node? hek⟩
  constructor
  · intro hfree
    refine ⟨fun r e hr hne he => ?_, fun e he => ?_, hfree.short⟩
    · obtain ⟨k', hk', hkind⟩ := hnode r e he
      rw [← hkind, hfree.way r k' hr hne hk']
      rfl
    · obtain ⟨k', hk', hkind⟩ := hnode q e he
      rw [← hkind, hfree.last k' hk']
  · rintro ⟨hway, hlast, hshort⟩
    refine ⟨fun r k' hr hne hk' => ?_, fun k' hk' => ?_, hshort⟩
    · obtain ⟨e, he, hkind⟩ := hentry r k' hk'
      exact Node.isDirectory_eq_true_iff.mp (hkind.trans (hway r e hr hne he))
    · obtain ⟨e, he, hkind⟩ := hentry q k' hk'
      exact hkind.trans (hlast e he)

/-- What has been there all the time was in nobody's way. -/
theorem Free.of_kinds (h : z.Free t q k) (hd : z.Stands d) (ht : z.Stands t)
    (hkind : ∀ r e, z.entry d r = some e → ∃ e', z.entry t r = some e' ∧ e'.isDirectory = e.isDirectory) :
    z.Free d q k := by
  obtain ⟨hway, hlast, hshort⟩ := ht.free_iff.mp h
  refine hd.free_iff.mpr ⟨fun r e hr hne he => ?_, fun e he => ?_, hshort⟩
  · obtain ⟨e', he', hsame⟩ := hkind r e he
    rw [← hsame, hway r e' hr hne he']
  · obtain ⟨e', he', hsame⟩ := hkind q e he
    rw [← hsame, hlast e' he']

/-- Whatever is reached is free for what is of its kind. -/
theorem Reaches.free (hreach : z.Reaches d q) (hlast : ∀ e, z.entry d q = some e → e.isDirectory = k.isDirectory) :
    z.Free d q k := Free.of_reaches hreach fun k' hk' => by
  obtain ⟨e, he, hek⟩ := Option.bind_eq_some_iff.mp hk'
  rw [Entry.isDirectory_of_node? hek, hlast e he]

/-! ### Single entries -/

/-- The directories that are made on the way to some names, also if not all can be made. -/
theorem Passable.makeDirs_grows (h : z.Passable d) (hp : z.Spells p q) :
    wp (Disk.makeDirs p) (fun _ t => z.Grown q d t ∧ z.Passable t) (fun _ t => z.Grown q d t ∧ z.Passable t) d := by
  have hkeeps : Preserves (fun t => z.Grown q d t ∧ z.Passable t) (Disk.makeDirs p) := by
    refine makeDirs_preserves (fun _ ht => ht.2.stands) (fun p ms hp hms => ?_) hp List.prefix_rfl
    refine Preserves.change fun t t' ht hok => ?_
    obtain ⟨hgrown, hreach, -⟩ := ht.2.stands.makeDir_ok hp hok
    exact ⟨ht.1.trans (hgrown.mono hms), ht.2.grown hgrown hreach⟩
  exact hkeeps d ⟨.refl z q d, h⟩

/-- A directory is put with the mode of another one, or some of the directories above it have been
    made at most. -/
theorem Passable.adopt (h : z.Passable d) (hp : z.Spells p q) {mode : Nat} (hmode : d.modeOf dir = .ok mode) :
    wp (do Replica.createDir p (← Replica.modeOf dir))
      (fun _ d' => (p.flaw? = none ∧ z.Free d q .directory) ∧ ∃ t, z.Grown q d t ∧ z.Passable t ∧ z.Reaches t q
        ∧ z.DirectoryAt t q ∧ d' = t.insert (z.place q) (.directory mode))
      (fun _ d' => ¬ (p.flaw? = none ∧ z.Free d q .directory)
        ∧ (d' = d ∨ p.flaw? = none ∧ z.Grown q d d' ∧ z.Passable d')) d := by
  have hask : Replica.modeOf dir d = .ok mode d := as_eq_ok.mpr (by simp only [DiskOp.ask, hmode])
  rw [wp_bind, wp_of_ok hask, Replica.createDir, wp_bind]
  cases hmakes : ((Disk.makeDirs p).as "create directory" p : ReplicaOp Unit) d with
  | ok u t =>
    have hmake := as_eq_ok.mp hmakes
    have hflaw : p.flaw? = none := by
      cases hflaw : p.flaw? with
      | none => rfl
      | some err =>
        rw [makeDirs_eq_error hflaw hp.spelling_ne] at hmake
        cases hmake
    obtain ⟨hgrown, hreach, hdir⟩ := h.stands.makeDirs_ok hp hmake
    obtain ⟨old, hold⟩ := id hdir
    have ht := h.grown hgrown hreach
    have hfree : z.Free d q .directory := by
      refine Free.of_kinds (hreach.free fun e he => ?_) h.stands ht.stands fun r e he => ⟨e, hgrown.kept _ e he, rfl⟩
      rw [entry, hold] at he
      cases he
      rfl
    rw [wp_of_ok hmakes]
    obtain ⟨t', hset⟩ := ht.setMode_succeeds hp hflaw (by simp [node_eq_directory_iff.mpr hdir]) mode
    obtain ⟨e, he, rfl⟩ := ht.stands.setMode_eq hp hset
    rw [entry, hold] at he
    cases he
    exact (wp_of_ok hset).mpr ⟨⟨hflaw, hfree⟩, t, hgrown, ht, hreach, hdir, rfl⟩
  | error err t =>
    refine (wp_of_error hmakes).mpr ⟨?_, ?_⟩
    · rintro ⟨hflaw, hfree⟩
      obtain ⟨t', hmake⟩ := h.makeDirs_succeeds hp hflaw hfree
      rw [as_eq_ok.mpr hmake] at hmakes
      cases hmakes
    · cases hflaw : p.flaw? with
      | some err' =>
        have hrun := makeDirs_eq_error hflaw hp.spelling_ne d
        simp only [DiskOp.as, hrun, EStateM.Result.error.injEq] at hmakes
        exact .inl hmakes.2.symm
      | none =>
        unfold DiskOp.as at hmakes
        split at hmakes
        · cases hmakes
        · rename_i hrun
          cases hmakes
          exact .inr ⟨rfl, (wp_of_error hrun).mp (h.makeDirs_grows hp)⟩

/-- A file from outside is put with its octets and its mode, or nothing is done. -/
theorem Stands.copy (h : z.Stands d) (hp : z.Spells p q) {file : Path} {l : Location} {content : Text.Bytes} {mode : Nat}
    (hstat : d.stat file = .ok (l, .file content mode)) (hout : ¬ z.zone <+: l) :
    wp (Disk.copy file p)
      (fun _ d' => (p.flaw? = none ∧ z.Free d q (.file content)) ∧ z.Reaches d q
        ∧ d' = d.insert (z.place q) (.file content mode))
      (fun _ d' => ¬ (p.flaw? = none ∧ z.Free d q (.file content) ∧ z.Reaches d q) ∧ d' = d) d := by
  have hsource : ∀ l' e, d.stat file = .ok (l', e) → ¬ z.zone <+: l' := fun l' e hstat' => by
    rw [hstat] at hstat'
    cases hstat'
    exact hout
  cases hrun : (Disk.copy file p : DiskOp Unit) d with
  | ok u d' =>
    obtain ⟨l', bytes, mode', mode?, hstat', hslot, rfl⟩ := h.copy_eq_of_outside hp hsource hrun
    rw [hstat] at hstat'
    cases hstat'
    obtain ⟨hreach, -, hfile⟩ := h.fileSlot_ok hp hslot
    refine (wp_of_ok hrun).mpr ⟨⟨Disk.flaw?_of_fileSlot hslot, hreach.free fun e he => ?_⟩, hreach, rfl⟩
    have hkind := hfile e he
    cases e with
    | file bytes mode => rfl
    | directory mode => cases hkind
    | link target => cases hkind
  | error err d' =>
    refine (wp_of_error hrun).mpr ⟨?_, change_error hrun⟩
    rintro ⟨hflaw, hfree, hreach⟩
    obtain ⟨mode?, hslot⟩ := h.fileSlot_of_reaches hp hflaw hreach hfree
    simp only [Disk.copy, DiskOp.change, hstat, hslot, Except.map] at hrun
    cases hrun

/-! ### What has been received -/

/-- What a replica has received of a tree so far; `put` says which paths of the tree were copied. All
    else is as it was, but for directories that have come on the way to those of the tree. -/
structure Received (z : Site) (m : Replica) (source : Path) (d : Disk) (loc : Location) (mids : List String)
    (put : Path → Prop) (t : Disk) : Prop where
  passable : z.Passable t
  outside : Disk.SameOutside z.zone d t
  kind : ∀ q e, z.entry d q = some e → ∃ e', z.entry t q = some e' ∧ e'.isDirectory = e.isDirectory
  there : ∀ ns e, d.held loc ns = some e → put (ns.foldl Path.child source) → z.entry t (mids ++ ns) = some e
  frame : ∀ l, (∀ ns, d.held loc ns ≠ none → put (ns.foldl Path.child source) → l ≠ z.place (mids ++ ns)) →
    t.get? l = d.get? l ∨ d.get? l = none ∧ (∃ mode, t.get? l = some (.directory mode))
      ∧ ∃ q ns mode, l = z.place q ∧ q <+: mids ++ ns ∧ d.held loc ns = some (.directory mode)
        ∧ (ns.foldl Path.child source).flaw? = none ∧ (m.copyOf source ns).flaw? = none

/-- An entry of the tree cannot be copied. -/
def Declines (z : Site) (m : Replica) (source : Path) (d : Disk) (loc : Location) (mids : List String) (x : Path) : Prop :=
  ∃ ns e, d.held loc ns = some e ∧ x = ns.foldl Path.child source ∧ ¬ z.Admits d (m.copyOf source ns) (mids ++ ns) e

section Copying

variable (hstock : d.Stock z.zone source loc)
include hstock

theorem declines_iff (hns : d.held loc ns = some e) :
    z.Declines m source d loc mids (ns.foldl Path.child source) ↔ ¬ z.Admits d (m.copyOf source ns) (mids ++ ns) e := by
  refine ⟨fun h => ?_, fun h => ⟨ns, e, hns, rfl, h⟩⟩
  obtain ⟨ms, e', hms, heq, hnot⟩ := h
  have hproper : ∀ ls, d.held loc ls ≠ none → ∀ n ∈ ls, Path.Proper n := fun _ => hstock.names
  obtain rfl := Path.foldl_child_inj source (hproper ns (by simp [hns])) (hproper ms (by simp [hms])) heq
  rw [hns] at hms
  cases hms
  exact hnot

omit hstock in
theorem admits_iff (hk : e.node? = some k) :
    z.Admits d (m.copyOf source ns) (mids ++ ns) e ↔ (m.copyOf source ns).flaw? = none ∧ z.Free d (mids ++ ns) k := by
  refine and_congr_right fun _ => ⟨?_, fun hfree => ⟨k, hk, hfree⟩⟩
  rintro ⟨k', hk', hfree⟩
  rw [hk] at hk'
  cases hk'
  exact hfree

theorem spells_copyOf (hdir : z.Spells m.dir mids) (hns : d.held loc ns ≠ none) :
    z.Spells (m.copyOf source ns) (mids ++ ns) :=
  hdir.pathOf (Path.descends_foldl_child hstock.spelling_ne (hstock.names hns))

/-- The operating system takes the paths of the copies of what leads to an entry, if it takes that
    of the entry's copy. -/
theorem flaw?_copyOf (hdir : z.Spells m.dir mids) (hms : d.held loc ms ≠ none) (hpre : ns <+: ms)
    (hflaw : (m.copyOf source ms).flaw? = none) : (m.copyOf source ns).flaw? = none := by
  have hns : d.held loc ns ≠ none := by
    by_cases heq : ns = ms
    · rwa [heq]
    · obtain ⟨mode, hmode⟩ := hstock.directory_above hms hpre heq
      simp [hmode]
  refine Path.flaw?_of_prefix hflaw ?_ (spells_copyOf hstock hdir hns).spelling_ne
  have hrel := Path.descends_foldl_child hstock.spelling_ne (hstock.names hns)
  have hrel' := Path.descends_foldl_child hstock.spelling_ne (hstock.names hms)
  have hparts : ((ns.foldl Path.child source).relativeTo source).spelling.toList
      <+: ((ms.foldl Path.child source).relativeTo source).spelling.toList := by
    rw [Path.relativeTo_foldl_child hstock.spelling_ne (hstock.names hns),
      Path.relativeTo_foldl_child hstock.spelling_ne (hstock.names hms)]
    exact Path.isPrefix_ofPieces_map_ofName hpre
  rw [Replica.copyOf, Replica.copyOf, Replica.pathOf, Replica.pathOf]
  split
  · split
    · exact List.prefix_rfl
    · exact Path.isPrefix_spelling_join m.dir hrel'.relative
  · rename_i hne
    split
    · rename_i hempty
      rw [String.isEmpty_iff.mp hempty] at hparts
      exact absurd (String.isEmpty_iff.mpr (String.toList_eq_nil_iff.mp (List.prefix_nil.mp hparts))) hne
    · exact Path.isPrefix_spelling_join_join m.dir hrel.relative hrel'.relative hparts

namespace Received

omit hstock in
theorem start (h : z.Passable d) : z.Received m source d loc mids (fun _ => False) d where
  passable := h
  outside := .refl _ d
  kind _ e he := ⟨e, he, rfl⟩
  there _ _ _ hput := hput.elim
  frame _ _ := .inl rfl

omit hstock in
/-- Directories come on the way to one of the tree. -/
theorem grow {mode : Nat} (h : z.Received m source d loc mids put t) (hgrown : z.Grown (mids ++ ns) t t')
    (hpassable : z.Passable t') (hns : d.held loc ns = some (.directory mode))
    (hflaw : (ns.foldl Path.child source).flaw? = none) (hcopy : (m.copyOf source ns).flaw? = none) :
    z.Received m source d loc mids put t' where
  passable := hpassable
  outside := h.outside.trans hgrown.outside
  kind q e he := by
    obtain ⟨e', he', hsame⟩ := h.kind q e he
    exact ⟨e', hgrown.kept _ e' he', hsame⟩
  there ms e hms hput := hgrown.kept _ e (h.there ms e hms hput)
  frame l hl := by
    rcases h.frame l hl with hsame | ⟨hnone, ⟨mode', hmode⟩, hway⟩
    · cases hold : d.get? l with
      | some e => exact .inl (hgrown.kept _ e (hsame.trans hold))
      | none =>
        rw [hold] at hsame
        rcases hgrown.new l hsame with hnone | ⟨q, hq, rfl, hdir⟩
        · exact .inl hnone
        · exact .inr ⟨rfl, hdir, q, ns, mode, rfl, hq, hns, hflaw, hcopy⟩
    · exact .inr ⟨hnone, ⟨mode', hgrown.kept _ _ hmode⟩, hway⟩

/-- An entry of the tree is put where it belongs. -/
theorem insert (h : z.Received m source d loc mids put t) (hreach : z.Reaches t (mids ++ ns))
    (hns : d.held loc ns = some e) (hkind : ∀ e', z.entry t (mids ++ ns) = some e' → e'.isDirectory = e.isDirectory) :
    z.Received m source d loc mids (fun x => put x ∨ x = ns.foldl Path.child source)
      (t.insert (z.place (mids ++ ns)) e) where
  passable := by
    refine h.passable.insert hreach (fun target he => hstock.unlinked _ target (he ▸ hns)) ?_
    rintro ⟨mode, hmode⟩
    have hdir := hkind _ hmode
    cases e with
    | directory mode' => exact ⟨mode', rfl⟩
    | file content mode' => cases hdir
    | link target => cases hdir
  outside := h.outside.trans (Disk.sameOutside_insert t (zone_prefix_place z _) e)
  kind q e₀ he₀ := by
    obtain ⟨e', he', hsame⟩ := h.kind q e₀ he₀
    by_cases hq : q = mids ++ ns
    · subst hq
      exact ⟨e, entry_insert_self e, (hkind e' he').symm.trans hsame⟩
    · exact ⟨e', by rwa [entry_insert_of_ne e hq], hsame⟩
  there ms e' hms hput := by
    by_cases heq : ms = ns
    · subst heq
      rw [hns] at hms
      cases hms
      exact entry_insert_self e
    · rw [entry_insert_of_ne e fun happ => heq (List.append_cancel_left happ)]
      refine h.there ms e' hms (hput.resolve_right fun hsame => heq ?_)
      exact Path.foldl_child_inj source (hstock.names (by simp [hms])) (hstock.names (by simp [hns])) hsame
  frame l hl := by
    have hne : l ≠ z.place (mids ++ ns) := hl ns (by simp [hns]) (.inr rfl)
    rw [Disk.get?_insert_of_ne t e hne]
    exact h.frame l fun ms hms hput => hl ms hms (.inl hput)

/-- All that is new on the way to an entry of the tree is of the kind that the tree has there. -/
theorem kind_of_new {e₁ : Entry} (h : z.Received m source d loc mids put t) (hns : d.held loc ns = some e)
    (hr : r <+: mids ++ ns) (he₁ : z.entry t r = some e₁) (hnew : z.entry d r ≠ some e₁) :
    e₁.isDirectory = if r = mids ++ ns then e.isDirectory else true := by
  by_cases hput : ∃ ms, d.held loc ms ≠ none ∧ put (ms.foldl Path.child source) ∧ z.place r = z.place (mids ++ ms)
  · obtain ⟨ms, hms, hcopied, hplace⟩ := hput
    obtain rfl := place_inj hplace
    obtain ⟨e₂, he₂⟩ := Option.ne_none_iff_exists'.mp hms
    rw [h.there ms e₂ he₂ hcopied] at he₁
    cases he₁
    rw [hstock.isDirectory_of_prefix hns ((List.prefix_append_right_inj mids).mp hr) he₂]
    simp only [List.append_cancel_left_eq]
  · rcases h.frame (z.place r) fun ms hms hcopied hplace => hput ⟨ms, hms, hcopied, hplace⟩ with hsame | ⟨-, hdir, hway⟩
    · exact absurd (hsame.symm.trans he₁) hnew
    · obtain ⟨mode, hmode⟩ := hdir
      rw [entry, hmode] at he₁
      cases he₁
      split
      · rename_i heq
        -- It has come on the way to another directory of the tree, so that the tree has one here.
        obtain ⟨q, ms, mode', hplace, hq, hms, -⟩ := hway
        obtain rfl := place_inj hplace
        rw [heq, List.prefix_append_right_inj] at hq
        rw [hstock.isDirectory_of_prefix hms hq hns]
        split <;> rfl
      · rfl

/-- **What has been copied so far does not change what can be copied.** -/
theorem free_iff (h : z.Received m source d loc mids put t) (hd : z.Stands d) (hns : d.held loc ns = some e)
    (hk : e.node? = some k) : z.Free t (mids ++ ns) k ↔ z.Free d (mids ++ ns) k := by
  refine ⟨fun hfree => hfree.of_kinds hd h.passable.stands h.kind, fun hfree => ?_⟩
  obtain ⟨hway, hlast, hshort⟩ := hd.free_iff.mp hfree
  refine h.passable.stands.free_iff.mpr ⟨fun r e₁ hr hne he₁ => ?_, fun e₁ he₁ => ?_, hshort⟩
  · by_cases hold : z.entry d r = some e₁
    · exact hway r e₁ hr hne hold
    · rw [h.kind_of_new hstock hns hr he₁ hold, if_neg hne]
  · by_cases hold : z.entry d (mids ++ ns) = some e₁
    · exact hlast e₁ hold
    · rw [h.kind_of_new hstock hns List.prefix_rfl he₁ hold, if_pos rfl, Entry.isDirectory_of_node? hk]

omit hstock in
/-- What may be put at an entry's place takes the place of its like. -/
theorem kind_of_free {e' : Entry} (h : z.Received m source d loc mids put t) (hfree : z.Free t (mids ++ ns) k)
    (hk : e.node? = some k) (he' : z.entry t (mids ++ ns) = some e') : e'.isDirectory = e.isDirectory :=
  ((h.passable.stands.free_iff.mp hfree).2.1 e' he').trans (Entry.isDirectory_of_node? hk)

/-- **A directory of the tree is copied, or its turn changes no entry of those that were copied.** -/
theorem copyDir {mode : Nat} (h : z.Received m source d loc mids put t) (hd : z.Stands d) (hdir : z.Spells m.dir mids)
    (hns : d.held loc ns = some (.directory mode)) (hflaw : (ns.foldl Path.child source).flaw? = none) :
    wp (m.copyDir source (ns.foldl Path.child source))
      (fun _ t' => ¬ z.Declines m source d loc mids (ns.foldl Path.child source)
        ∧ z.Received m source d loc mids (fun x => put x ∨ x = ns.foldl Path.child source) t')
      (fun _ t' => z.Declines m source d loc mids (ns.foldl Path.child source)
        ∧ z.Received m source d loc mids put t') t := by
  have hmode : t.modeOf (ns.foldl Path.child source) = .ok mode := by
    rw [Disk.modeOf, hstock.stat_eq h.outside hns hflaw]
    rfl
  have hsome : d.held loc ns ≠ none := by simp [hns]
  have hspells := spells_copyOf hstock hdir hsome
  rw [declines_iff hstock hns, admits_iff (Entry.node?_directory mode),
    ← h.free_iff hstock hd hns (Entry.node?_directory mode)]
  refine wp_imp (h.passable.adopt hspells hmode) (fun _ t' hok => ?_) fun _ t' herror => ?_
  · obtain ⟨hfree, t₁, hgrown, hpassable, hreach, hdirectory, rfl⟩ := hok
    refine ⟨not_not_intro hfree, (h.grow hgrown hpassable hns hflaw hfree.1).insert hstock hreach hns fun e' he' => ?_⟩
    obtain ⟨old, hold⟩ := hdirectory
    rw [entry, hold] at he'
    cases he'
    rfl
  · obtain ⟨hnot, rfl | ⟨hcopy, hgrown, hpassable⟩⟩ := herror
    · exact ⟨hnot, h⟩
    · exact ⟨hnot, h.grow hgrown hpassable hns hflaw hcopy⟩

/-- **A file of the tree is copied, or its turn changes nothing.** The directories of the tree have
    been copied before, as far as they can be. -/
theorem copyFile {content : Text.Bytes} {mode : Nat} (h : z.Received m source d loc mids put t) (hd : z.Stands d)
    (hdir : z.Spells m.dir mids)
    (hdirs : ∀ ms mode, d.held loc ms = some (.directory mode) → (ms.foldl Path.child source).flaw? = none →
      z.Admits d (m.copyOf source ms) (mids ++ ms) (.directory mode) → put (ms.foldl Path.child source))
    (hns : d.held loc ns = some (.file content mode)) (hflaw : (ns.foldl Path.child source).flaw? = none) :
    wp (m.copyFile source (ns.foldl Path.child source))
      (fun _ t' => ¬ z.Declines m source d loc mids (ns.foldl Path.child source)
        ∧ z.Received m source d loc mids (fun x => put x ∨ x = ns.foldl Path.child source) t')
      (fun _ t' => z.Declines m source d loc mids (ns.foldl Path.child source)
        ∧ z.Received m source d loc mids put t') t := by
  have hsome : d.held loc ns ≠ none := by simp [hns]
  have hspells := spells_copyOf hstock hdir hsome
  have hstat := hstock.stat_eq h.outside hns hflaw true
  have hout : ¬ z.zone <+: loc ++ ns.map .text := hstock.aside.not_prefix (List.prefix_append _ _)
  -- The directory that holds the file has been copied if the file can be.
  have hreach : (m.copyOf source ns).flaw? = none → z.Free d (mids ++ ns) (.file content) → z.Reaches t (mids ++ ns) := by
    intro hcopy hfree
    rcases List.eq_nil_or_concat ns with rfl | ⟨init, n, rfl⟩
    · obtain ⟨mode', hroot⟩ := hstock.held_nil
      rw [hns] at hroot
      cases hroot
    · rw [List.concat_eq_append] at *
      have hpre : init <+: init ++ [n] := List.prefix_append init [n]
      obtain ⟨mode', hinit⟩ := hstock.directory_above hsome hpre fun heq => by simp at heq
      have hinitFlaw : (init.foldl Path.child source).flaw? = none := by
        rw [List.foldl_append] at hflaw
        refine Path.flaw?_of_foldl_child (fun x hx => hstock.names hsome x (List.mem_append_right init hx)) ?_ hflaw
        exact hstock.spelling_foldl_child_ne (by simp [hinit])
      rw [← List.append_assoc] at hfree ⊢
      have hput := hdirs init mode' hinit hinitFlaw
        ((admits_iff (Entry.node?_directory mode')).mpr ⟨flaw?_copyOf hstock hdir hsome hpre hcopy, hfree.parent⟩)
      have hthere := h.there init _ hinit hput
      exact h.passable.reaches_concat (node_eq_directory_iff.mpr ⟨mode', hthere⟩)
        (hstock.proper hsome (List.mem_append_right init (List.mem_singleton_self n))).2
  rw [declines_iff hstock hns, admits_iff (Entry.node?_file content mode)]
  refine wp_imp (h.passable.stands.copy hspells hstat hout) (fun _ t' hok => ?_) fun _ t' herror => ?_
  · obtain ⟨⟨hcopy, hfree⟩, hreach', rfl⟩ := hok
    refine ⟨not_not_intro ⟨hcopy, (h.free_iff hstock hd hns (Entry.node?_file content mode)).mp hfree⟩, ?_⟩
    exact h.insert hstock hreach' hns fun e' he' => h.kind_of_free hfree (Entry.node?_file content mode) he'
  · obtain ⟨hnot, rfl⟩ := herror
    refine ⟨fun hgood => hnot ⟨hgood.1, ?_, hreach hgood.1 hgood.2⟩, h⟩
    exact (h.free_iff hstock hd hns (Entry.node?_file content mode)).mpr hgood.2

end Received

end Copying

end Site

end LiveWorkspace
