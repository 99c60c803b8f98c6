/-
  LiveWorkspace/Proofs/Replica/Site.lean
  ======================================
  **Where a replica is on the disk, and where its paths lead.**

  A replica's directory has a name in a directory that is reached without passing
  through the replica itself (`Stands`); all at and below it is the replica's zone.
  So work in the zone never moves the replica.

  A path of the replica spells names below its directory, up to dots (`Spells`).  As
  the zone has no links, such a path goes down by these names, whatever its spelling:
  `resolve_eq` and `slot_eq` reduce every look-up to `Disk.descend`.
-/
import LiveWorkspace.Proofs.Disk.Tree
import LiveWorkspace.Replica

namespace LiveWorkspace

/-! ### Spellings without a flaw -/

/-- The start of a spelling has no flaw that the whole does not have, unless it is empty. -/
theorem Path.flaw?_of_prefix {p q : Path} (h : p.flaw? = none)
    (hpre : q.spelling.toList <+: p.spelling.toList) (hne : q.spelling ≠ "") : q.flaw? = none := by
  obtain ⟨rest, hrest⟩ := hpre
  have hp : p.spelling = q.spelling ++ String.ofList rest := by
    rw [← String.toList_inj, String.toList_append, String.toList_ofList, hrest]
  unfold flaw? at h ⊢
  split at h
  · cases h
  · rename_i hnul
    split at h
    · cases h
    · split at h
      · cases h
      · rename_i hlen
        have hnul' : ¬ q.spelling.toList.contains '\x00' = true := by
          intro hc
          apply hnul
          rw [hp, String.toList_append, List.contains_iff_mem, List.mem_append]
          exact .inl (List.contains_iff_mem.mp hc)
        have hlen' : ¬ maxPath < q.spelling.utf8ByteSize := by
          rw [hp, String.utf8ByteSize_append] at hlen
          omega
        have hempty : ¬ q.spelling.isEmpty = true := fun he => hne (String.isEmpty_iff.mp he)
        rw [if_neg hnul', if_neg hempty, if_neg hlen']

theorem Path.spelling_ne_of_names {p : Path} (h : p.names ≠ []) : p.spelling ≠ "" := by
  intro he
  apply h
  rw [names, he]
  rfl

/-! ### Sites -/

/-- Where a replica is: the path of the directory that holds it, the location of that
    directory, and the replica's name in it. -/
structure Site where
  parent : Path
  base : Location
  name : String

namespace Site

/-- The directory of the replica. -/
def dir (z : Site) : Path := z.parent.child z.name

/-- The location of the replica. -/
def zone (z : Site) : Location := z.base ++ [.text z.name]

/-- The location of what lies some names below the replica. -/
def place (z : Site) (ns : List String) : Location := z.zone ++ ns.map .text

/-- The replica is reached through a directory that stays where it is whatever happens in
    the replica, and there are no links in the replica. -/
structure Stands (z : Site) (d : Disk) : Prop where
  proper : Path.Proper z.name
  reached : ∀ d', Disk.SameOutside z.zone d d' → ∃ mode, d'.stat z.parent = .ok (z.base, .directory mode)
  unlinked : ∀ loc target, z.zone <+: loc → d.get? loc ≠ some (.link target)

/-- A path of the replica, by the names below its directory. -/
structure Spells (z : Site) (p : Path) (ns : List String) : Prop where
  absolute : p.isAbsolute = z.parent.isAbsolute
  names : ∃ r, p.names = z.parent.names ++ z.name :: r ∧ r.filter (· ≠ ".") = ns ∧ ".." ∉ r
    ∧ r.getLast? ≠ some "."
  noSeparator : p.endsInSeparator = false

variable {z : Site} {d d' : Disk} {p : Path} {ns : List String}

theorem place_eq (z : Site) (ns : List String) : z.place ns = z.base ++ (z.name :: ns).map .text := by
  rw [place, zone, Disk.append_map_cons]

theorem zone_prefix_place (z : Site) (ns : List String) : z.zone <+: z.place ns := List.prefix_append _ _

theorem map_text_inj {ns ms : List String} (h : ns.map Name.text = ms.map Name.text) : ns = ms := by
  induction ns generalizing ms with
  | nil => exact (List.map_eq_nil_iff.mp h.symm).symm
  | cons n rest ih =>
    cases ms with
    | nil => cases h
    | cons m more =>
      rw [List.map_cons, List.map_cons, List.cons.injEq, Name.text.injEq] at h
      rw [h.1, ih h.2]

theorem place_inj {ms : List String} (h : z.place ns = z.place ms) : ns = ms :=
  map_text_inj (List.append_cancel_left h)

theorem place_prefix_iff {ms : List String} : z.place ns <+: z.place ms ↔ ns <+: ms := by
  rw [place, place, List.prefix_append_right_inj]
  constructor
  · rintro ⟨rest, h⟩
    have htake := congrArg (List.take ns.length) h
    rw [List.take_left' (List.length_map _), ← List.map_take] at htake
    rw [map_text_inj htake]
    exact List.take_prefix _ _
  · rintro ⟨rest, rfl⟩
    rw [List.map_append]
    exact List.prefix_append _ _

/-- Work in the zone leaves the replica standing if it makes no links there. -/
theorem Stands.of_sameOutside (h : z.Stands d) (hout : Disk.SameOutside z.zone d d')
    (hlinks : ∀ loc target, z.zone <+: loc → d'.get? loc ≠ some (.link target)) : z.Stands d' :=
  ⟨h.proper, fun _ h' => h.reached _ (hout.trans h'), hlinks⟩

/-- What a path of the replica spells are names that entries can have. -/
theorem Spells.proper (h : z.Spells p ns) {n : String} (hn : n ∈ ns) : Path.Proper n := by
  obtain ⟨r, hnames, hfilter, hup, -⟩ := h.names
  rw [← hfilter] at hn
  obtain ⟨hr, hdot⟩ := List.mem_filter.mp hn
  have hmem : n ∈ p.names := by
    rw [hnames]
    simp [hr]
  obtain ⟨t, ht, rfl⟩ := List.mem_map.mp hmem
  obtain ⟨hsplit, hne⟩ := List.mem_filter.mp ht
  refine ⟨?_, by simpa using hdot, fun e => hup (e ▸ hr), ?_⟩
  · intro he
    rw [String.ofList_eq_empty_iff] at he
    simp [he] at hne
  · rw [String.toList_ofList]
    exact Path.not_mem_of_mem_split hsplit

/-- The places of the replica have names that paths can spell. -/
theorem Stands.proper_place (h : z.Stands d) (hproper : d.Proper) (hp : z.Spells p ns) {n : String}
    (hn : Name.text n ∈ z.place ns) : Path.Proper n := by
  rw [place_eq, List.mem_append, List.map_cons, List.mem_cons, List.mem_map] at hn
  rcases hn with hbase | hname | ⟨x, hx, hxn⟩
  · obtain ⟨mode, hstat⟩ := h.reached d (Disk.SameOutside.refl _ _)
    exact hproper.of_get? (Disk.get?_of_stat hstat) hbase
  · rw [Name.text.inj hname]
    exact h.proper
  · rw [← Name.text.inj hxn]
    exact hp.proper hx

theorem Stands.unlinked_names (h : z.Stands d) (ns : List String) : d.Unlinked z.base (z.name :: ns) := by
  intro m hm hpre target
  obtain ⟨x, more, rfl⟩ := List.exists_cons_of_ne_nil hm
  obtain ⟨rfl, -⟩ := List.cons_prefix_cons.mp hpre
  rw [Disk.append_map_cons]
  exact h.unlinked _ target (List.prefix_append _ _)

/-- The location that the walk of a path starts from. -/
def startOf (d : Disk) (p : Path) : Location := if p.isAbsolute then [] else d.workingDir

/-- The names of the directory that holds the replica lead to its location. -/
theorem Stands.walk_parent (h : z.Stands d) :
    z.parent.flaw? = none ∧ ∃ mode, d.walkLinks true Disk.maxLinks (startOf d z.parent) z.parent.names
      = .ok (.present z.base (.directory mode)) := by
  obtain ⟨mode, hstat⟩ := h.reached d (Disk.SameOutside.refl _ _)
  obtain ⟨hflaw, hwalk⟩ := Disk.walkLinks_names_of_stat hstat
  exact ⟨hflaw, mode, hwalk⟩

/-! ### Look-ups -/

/-- A walk by the names of a path goes on from the directory that holds the replica. -/
theorem Stands.walkFrom_append (h : z.Stands d) (habs : p.isAbsolute = z.parent.isAbsolute)
    (hflaw : p.flaw? = none) (follow : Bool) {s : List String} (hs : s ≠ []) :
    ∃ k, d.walkFrom p follow (z.parent.names ++ s) = d.walkLinks follow k z.base s := by
  obtain ⟨-, mode, hparent⟩ := h.walk_parent
  obtain ⟨k, hk⟩ := Disk.exists_walkLinks_append hs hparent follow
  refine ⟨k, ?_⟩
  rw [Disk.walkFrom, hflaw, ← hk, startOf, habs]

theorem cons_name_filter (h : z.Stands d) (r : List String) :
    (z.name :: r).filter (· ≠ ".") = z.name :: r.filter (· ≠ ".") :=
  List.filter_cons_of_pos (by simpa using h.proper.2.1)

theorem notMem_cons_name (h : z.Stands d) {r : List String} (hr : ".." ∉ r) : ".." ∉ z.name :: r := by
  rw [List.mem_cons, not_or]
  exact ⟨fun e => h.proper.2.2.1 e.symm, hr⟩

theorem Stands.getLast?_cons_name (h : z.Stands d) {r : List String} (hr : r.getLast? ≠ some ".") :
    (z.name :: r).getLast? ≠ some "." := by
  cases r with
  | nil => exact fun e => h.proper.2.1 (Option.some.inj e)
  | cons x more => rwa [List.getLast?_cons_cons]

/-- **A path of the replica goes down by its names.** -/
theorem Stands.resolve_eq (h : z.Stands d) (hp : z.Spells p ns) (hflaw : p.flaw? = none)
    (follow : Bool) : d.resolve p follow = d.descend z.base (z.name :: ns) := by
  obtain ⟨r, hnames, hfilter, hup, hlast⟩ := hp.names
  have hsteps : p.steps = z.parent.names ++ (z.name :: r) := by
    rw [Path.steps, hp.noSeparator, hnames]
    exact List.append_nil _
  obtain ⟨k, hwalk⟩ := h.walkFrom_append hp.absolute hflaw follow (List.cons_ne_nil z.name r)
  have hnames' : (z.name :: r).filter (· ≠ ".") = z.name :: ns := by rw [cons_name_filter h, hfilter]
  rw [Disk.resolve, hsteps, hwalk,
    Disk.walkLinks_eq_descend (notMem_cons_name h hup) (h.getLast?_cons_name hlast), hnames']
  rw [hnames']
  exact h.unlinked_names ns

/-- The last name of a path of the replica is no dot, so that dots go from what is in front of it
    only. -/
theorem Stands.exists_front (h : z.Stands d) (hp : z.Spells p ns) {init : List String} {x : String}
    (hns : z.name :: ns = init ++ [x]) : ∃ front, p.names = z.parent.names ++ front ++ [x]
      ∧ front.filter (· ≠ ".") = init ∧ ".." ∉ front ∧ x ≠ "." ∧ x ≠ ".." := by
  obtain ⟨r, hnames, hfilter, hup, hlast⟩ := hp.names
  obtain ⟨front, last, hsplit⟩ : ∃ front last, z.name :: r = front ++ [last] :=
    ⟨_, _, (List.dropLast_concat_getLast (List.cons_ne_nil z.name r)).symm⟩
  have hdot : last ≠ "." := by
    intro e
    apply h.getLast?_cons_name hlast
    rw [hsplit, List.getLast?_concat, e]
  have hupAll : ".." ∉ front ++ [last] := hsplit ▸ notMem_cons_name h hup
  rw [List.mem_append, List.mem_singleton, not_or] at hupAll
  have hfront : front.filter (· ≠ ".") ++ [last] = init ++ [x] := by
    have hone : [last].filter (· ≠ ".") = [last] := List.filter_cons_of_pos (by simpa using hdot)
    rw [← hns, ← hfilter, ← cons_name_filter h, hsplit, List.filter_append, hone]
  obtain ⟨hinit, hx⟩ := List.append_inj' hfront rfl
  obtain rfl : last = x := List.singleton_inj.mp hx
  refine ⟨front, ?_, hinit, hupAll.1, hdot, Ne.symm hupAll.2⟩
  rw [hnames, hsplit, List.append_assoc]

/-- The names in front of the last one lead to the same directory with their dots and without. -/
theorem Stands.dirOf_front (h : z.Stands d) (hp : z.Spells p ns) (hflaw : p.flaw? = none) {front : List String}
    (hup : ".." ∉ front) (hplain : d.Unlinked z.base (front.filter (· ≠ "."))) :
    Disk.dirOf (d.walkFrom p true (z.parent.names ++ front)) = Disk.dirOf (d.descend z.base (front.filter (· ≠ "."))) := by
  by_cases hnil : front = []
  · obtain ⟨-, mode, hparent⟩ := h.walk_parent
    have hbase : d.descend z.base [] = .ok (.present z.base (.directory mode)) :=
      Disk.descend_eq_present_iff.mpr ⟨trivial, (List.append_nil _).symm, Disk.get?_of_walkLinks hparent⟩
    have hwalk : d.walkFrom p true z.parent.names = .ok (.present z.base (.directory mode)) := by
      rw [Disk.walkFrom, hflaw, hp.absolute]
      exact hparent
    rw [hnil, List.append_nil, hwalk, List.filter_nil, hbase]
  · obtain ⟨k, hwalk⟩ := h.walkFrom_append hp.absolute hflaw true hnil
    rw [hwalk, Disk.dirOf_walkLinks hup hplain]

/-- The slot of a path of the replica is its last name, in the directory that the other
    names lead to. -/
theorem Stands.slot_eq (h : z.Stands d) (hp : z.Spells p ns) (hflaw : p.flaw? = none)
    {init : List String} {x : String} (hns : z.name :: ns = init ++ [x]) :
    d.slot p = (Disk.dirOf (d.descend z.base init)).map fun loc => ⟨loc, some x⟩ := by
  obtain ⟨front, hnames, rfl, hup, hdot, hdots⟩ := h.exists_front hp hns
  have hpre : front.filter (· ≠ ".") <+: z.name :: ns := ⟨[x], hns.symm⟩
  have hplain : d.Unlinked z.base (front.filter (· ≠ ".")) := fun m hm hmi =>
    h.unlinked_names ns m hm (hmi.trans hpre)
  have hlast : (some x).filter (fun n => n ≠ "." ∧ n ≠ "..") = some x := Option.filter_some_pos (by simp [hdot, hdots])
  rw [Disk.slot_eq_map, hnames, List.dropLast_concat, List.getLast?_concat, hlast, h.dirOf_front hp hflaw hup hplain]

/-! ### Paths of the replica -/

theorem spells_dir (h : Path.Proper z.name) (hparent : z.parent.spelling ≠ "") : z.Spells z.dir [] := by
  have habs := h.isAbsolute_mk
  refine ⟨Path.isAbsolute_join hparent habs, ⟨[], ?_, rfl, List.not_mem_nil, by decide⟩, ?_⟩
  · rw [dir, Path.child, Path.names_join _ habs, h.names_mk]
  · rw [dir, Path.child, Path.endsInSeparator_join habs h.1, h.endsInSeparator_mk]

theorem Spells.spelling_ne (h : z.Spells p ns) : p.spelling ≠ "" := by
  obtain ⟨r, hnames, -⟩ := h.names
  apply Path.spelling_ne_of_names
  rw [hnames]
  simp

/-- A relative path without names is empty. -/
theorem isAbsolute_of_names_eq_nil {p : Path} (h : p.names = []) (hne : p.spelling ≠ "") :
    p.isAbsolute = true := by
  have hlist : p.spelling.toList ≠ [] := fun e => hne (String.toList_eq_nil_iff.mp e)
  obtain ⟨c, cs, hcs⟩ := List.exists_cons_of_ne_nil hlist
  rw [Path.isAbsolute, hcs, List.head?_cons, beq_iff_eq, Option.some.injEq]
  by_cases hc : c = '/'
  · exact hc
  · rw [Path.names, hcs, Path.split, if_neg hc] at h
    split at h
    · simp at h
    · simp at h

/-- What leads down from a path of the replica by names adds these names. -/
theorem Spells.pathOf {m : Replica} {ms : List String} (h : z.Spells m.dir ms) {rel : Path} (hrel : rel.Descends ns) :
    z.Spells (m.pathOf rel) (ms ++ ns) := by
  rw [Replica.pathOf]
  split
  · rename_i hempty
    rw [hrel.empty.mp (String.isEmpty_iff.mp hempty), List.append_nil]
    exact h
  · rename_i hempty
    have hne : rel.spelling ≠ "" := fun e => hempty (String.isEmpty_iff.mpr e)
    obtain ⟨r, hnames, hfilter, hup, -⟩ := h.names
    have hrelnames : rel.names ≠ [] := by
      intro hnil
      have habs := isAbsolute_of_names_eq_nil hnil hne
      rw [hrel.relative] at habs
      cases habs
    refine ⟨?_, ⟨r ++ rel.names, ?_, ?_, ?_, ?_⟩, ?_⟩
    · rw [Path.isAbsolute_join h.spelling_ne hrel.relative, h.absolute]
    · rw [Path.names_join _ hrel.relative, hnames, List.append_assoc]
      rfl
    · rw [List.filter_append, hfilter, hrel.names]
    · rw [List.mem_append, not_or]
      exact ⟨hup, hrel.noUp⟩
    · rw [List.getLast?_append, List.getLast?_eq_some_getLast hrelnames, Option.some_or,
        ← List.getLast?_eq_some_getLast hrelnames]
      exact hrel.last
    · rw [Path.endsInSeparator_join hrel.relative hne, hrel.noSeparator]

/-- The place of a path that leads down from the root spells the names it leads down by. -/
theorem spells_pathOf {m : Replica} (hm : m.dir = z.dir) (h : z.Spells z.dir []) {rel : Path}
    (hrel : rel.Descends ns) : z.Spells (m.pathOf rel) ns := Spells.pathOf (hm ▸ h) hrel

/-- Dots at the end do not reach over a name. -/
theorem append_cons_of_dots {as bs cs dots : List String} {x : String} (h : as ++ x :: bs = cs ++ dots)
    (hx : x ≠ ".") (hdots : ∀ s ∈ dots, s = ".") : ∃ bs', cs = as ++ x :: bs' ∧ bs = bs' ++ dots := by
  rcases List.append_eq_append_iff.mp h with ⟨more, rfl, hmore⟩ | ⟨more, rfl, hmore⟩
  · cases more with
    | nil => exact absurd (hdots x (by rw [← List.nil_append dots, ← hmore]; exact List.mem_cons_self)) hx
    | cons y bs' =>
      rw [List.cons_append, List.cons.injEq] at hmore
      exact ⟨bs', by rw [hmore.1], hmore.2⟩
  · exact absurd (hdots x (by rw [hmore]; simp)) hx

/-- The parent of a path below the replica's directory spells all names but the last. -/
theorem Spells.exists_parent {n : String} (h : z.Spells p (ns ++ [n])) (hproper : Path.Proper z.name) :
    ∃ q, p.parent? = some q ∧ z.Spells q ns ∧ (p.flaw? = none → q.flaw? = none) := by
  obtain ⟨r, hnames, hfilter, hup, hlast⟩ := h.names
  have hr : r ≠ [] := by
    intro hr
    rw [hr] at hfilter
    simp at hfilter
  have hconcat := List.dropLast_concat_getLast hr
  have hlast' : r.getLast hr ≠ "." := fun e => hlast (by rw [List.getLast?_eq_some_getLast hr, e])
  generalize r.getLast hr = n' at hconcat hlast'
  generalize r.dropLast = r' at hconcat
  have hone : [n'].filter (· ≠ ".") = [n'] := List.filter_cons_of_pos (by simpa using hlast')
  rw [← hconcat, List.filter_append, hone] at hfilter
  obtain ⟨hr', -⟩ := List.append_inj' hfilter rfl
  have hsplit : p.names = (z.parent.names ++ z.name :: r') ++ [n'] := by
    rw [hnames, ← hconcat]
    simp
  obtain ⟨q, hq⟩ := Path.exists_parent hsplit hlast'
  obtain ⟨dots, hdots, hall⟩ := hq.dots
  obtain ⟨r'', hqnames, hr''⟩ := append_cons_of_dots hdots hproper.2.1 hall
  have hne : q.names ≠ [] := by rw [hqnames]; simp
  have hqsep : q.endsInSeparator = false := by
    rw [Bool.eq_false_iff]
    exact fun e => hne (hq.separator e)
  have hdotsFilter : dots.filter (· ≠ ".") = [] := by
    rw [List.filter_eq_nil_iff]
    intro s hs
    simp [hall s hs]
  refine ⟨q, hq.parent, ⟨hq.absolute.trans h.absolute, ⟨r'', hqnames, ?_, ?_, ?_⟩, hqsep⟩, ?_⟩
  · rw [← hr', hr'', List.filter_append, hdotsFilter, List.append_nil]
  · intro hmem
    apply hup
    rw [← hconcat, hr'']
    simp [hmem]
  · intro hdot
    have hlastq : q.names.getLast? = some "." := by
      rw [hqnames, List.getLast?_append, List.getLast?_cons, hdot]
      rfl
    have honly := hq.last hlastq
    rw [hqnames] at honly
    have hmem : z.name ∈ ["."] := by rw [← honly]; simp
    exact hproper.2.1 (List.mem_singleton.mp hmem)
  · exact fun hflaw => Path.flaw?_of_prefix hflaw hq.isPrefix (Path.spelling_ne_of_names hne)

/-- The directory that holds the replica is found above every spelling of the replica. -/
theorem Spells.hasPath_parent (h : z.Spells p []) (hd : z.Stands d) :
    ∃ q, p.parent? = some q ∧ (p.flaw? = none → q.flaw? = none) ∧ (q.flaw? = none → d.hasPath q = true) := by
  obtain ⟨r, hnames, hfilter, -, hlast⟩ := h.names
  have hr : r = [] := by
    by_cases hr : r = []
    · exact hr
    · have hdot : r.getLast hr = "." := by
        have := (List.filter_eq_nil_iff.mp hfilter) _ (List.getLast_mem hr)
        simpa using this
      exact absurd (by rw [List.getLast?_eq_some_getLast hr, hdot]) hlast
  rw [hr] at hnames
  obtain ⟨q, hq⟩ := Path.exists_parent hnames hd.proper.2.1
  obtain ⟨dots, hdots, hall⟩ := hq.dots
  obtain ⟨hparent, mode, hwalk⟩ := hd.walk_parent
  rw [hdots] at hwalk
  have hbase := Disk.get?_of_walkLinks hwalk
  have hqwalk := Disk.walkLinks_of_append_dots hall hwalk
  have habs : q.isAbsolute = z.parent.isAbsolute := hq.absolute.trans h.absolute
  have hqne : q.spelling ≠ "" := by
    intro he
    have hroot : z.parent.isAbsolute = true := by
      apply isAbsolute_of_names_eq_nil (hq.empty he)
      intro hp
      rw [Path.flaw?, hp] at hparent
      exact absurd hparent (by decide)
    rw [← habs, Path.isAbsolute, he] at hroot
    exact absurd hroot (by decide)
  refine ⟨q, hq.parent, fun hflaw => Path.flaw?_of_prefix hflaw hq.isPrefix hqne, fun hqflaw => ?_⟩
  have hresolve : d.resolve q = .ok (.present z.base (.directory mode)) := by
    simp only [Disk.resolve, Disk.walkFrom, hqflaw, Path.steps]
    rw [startOf, ← habs] at hqwalk
    cases hsep : q.endsInSeparator with
    | false =>
      rw [if_neg Bool.false_ne_true, List.append_nil]
      exact hqwalk
    | true =>
      rw [hq.separator hsep] at hqwalk ⊢
      -- Without names the walk stays where it begins.
      have hstart : z.base = if q.isAbsolute then [] else d.workingDir :=
        (Disk.walkLinks_eq_ok_iff.mp hqwalk).eq_of_nil.symm
      rw [if_pos rfl, List.nil_append, ← hstart]
      exact Disk.walkLinks_dot hbase
  rw [Disk.hasPath, Disk.stat, hresolve]
  rfl

end Site

end LiveWorkspace
