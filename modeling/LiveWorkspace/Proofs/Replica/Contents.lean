/-
  LiveWorkspace/Proofs/Replica/Contents.lean
  ==========================================
  **What a site holds, by names.**

  A site where all that is found is reached by names, and where no links are, is known by
  its nodes: by whether there is a directory, a file or nothing at some names (`Site.node`).
  Such a site is *tidy*, and each change of the disk at a place of the site is a change of
  its nodes.
-/
import LiveWorkspace.Proofs.Disk.Plain
import LiveWorkspace.Proofs.Replica.Effects

namespace LiveWorkspace

/-! ### Nodes -/

/-- What is found at some place: a directory, or a file with what it holds. -/
inductive Node where
  | directory
  | file (content : Text.Bytes)
deriving DecidableEq, Repr

namespace Node

def isDirectory : Node → Bool
  | .directory => true
  | .file _ => false

/-- The text of a file. -/
def text? : Node → Option String
  | .directory => none
  | .file content => some (Text.Utf8.decodeLossy content)

/-- What a node may be in a copy of the tree. A file is there with its octets or with its text. -/
def CopiedAs : Node → Node → Prop
  | .directory, .directory => True
  | .file content, .file copy => copy = content ∨ copy = Text.Utf8.encode (Text.Utf8.decodeLossy content)
  | _, _ => False

/-- A file may be copied by its text. -/
theorem copiedAs_text (content : Text.Bytes) :
    (file content).CopiedAs (.file (Text.Utf8.encode (Text.Utf8.decodeLossy content))) := .inr rfl

theorem isDirectory_eq_true_iff {t : Node} : t.isDirectory = true ↔ t = .directory := by
  cases t <;> simp [isDirectory]

theorem CopiedAs.isDirectory {t k : Node} (h : t.CopiedAs k) : t.isDirectory = k.isDirectory := by
  cases t <;> cases k <;> simp_all [CopiedAs, Node.isDirectory]

end Node

/-- A link is no node of a tree. -/
def Entry.node? : Entry → Option Node
  | .directory _ => some .directory
  | .file content _ => some (.file content)
  | .link _ => none

@[simp] theorem Entry.node?_directory (mode : Nat) : (Entry.directory mode).node? = some .directory := rfl

@[simp] theorem Entry.node?_file (content : Text.Bytes) (mode : Nat) :
    (Entry.file content mode).node? = some (.file content) := rfl

theorem Entry.isDirectory_of_node? {e : Entry} {t : Node} (h : e.node? = some t) : t.isDirectory = e.isDirectory := by
  cases e <;> cases h <;> rfl

/-- What was reached below a place is reached below the one that it is moved to. -/
theorem Disk.Reach.move {d : Disk} {source target rest : Location} {m : List String}
    (h : d.Reach (source ++ rest) m) : (d.move source target).Reach (target ++ rest) m := by
  induction m generalizing rest with
  | nil => trivial
  | cons n m ih =>
    obtain ⟨hdir, hn, hm⟩ := h
    refine ⟨?_, hn, ?_⟩
    · rwa [Disk.get?_move_target]
    · rw [List.append_assoc] at hm ⊢
      exact ih hm

namespace Site

/-- What a site has at some names. -/
def node (z : Site) (d : Disk) (q : List String) : Option Node := (d.get? (z.place q)).bind Entry.node?

variable {z : Site} {d d' : Disk} {p : Path} {q r : List String} {n : String} {e : Entry}

theorem node_eq_directory_iff : z.node d q = some .directory ↔ z.DirectoryAt d q := by
  rw [node, DirectoryAt]
  cases hget : d.get? (z.place q) with
  | none => simp
  | some e => cases e <;> simp [Entry.node?]

theorem node_eq_file_iff {content : Text.Bytes} : z.node d q = some (.file content) ↔ z.FileAt d q content := by
  rw [node, FileAt]
  cases hget : d.get? (z.place q) with
  | none => simp
  | some e => cases e <;> simp [Entry.node?]

theorem node_insert_self (e : Entry) : z.node (d.insert (z.place q) e) q = e.node? := by
  rw [node, Disk.get?_insert_self, Option.bind_some]

theorem node_insert_of_ne (e : Entry) (h : r ≠ q) : z.node (d.insert (z.place q) e) r = z.node d r := by
  rw [node, Disk.get?_insert_of_ne d e fun he => h (place_inj he), node]

theorem place_append (z : Site) (q m : List String) : z.place (q ++ m) = z.place q ++ m.map .text := by
  rw [place, place, List.map_append, List.append_assoc]

theorem node_move_target {a b : List String} (m : List String) :
    z.node (d.move (z.place a) (z.place b)) (b ++ m) = z.node d (a ++ m) := by
  rw [node, place_append, Disk.get?_move_target, ← place_append, node]

theorem node_move_source {a b : List String} (ha : a <+: q) (hb : ¬ b <+: q) :
    z.node (d.move (z.place a) (z.place b)) q = none := by
  rw [node, Disk.get?_move_source d (place_prefix_iff.mpr ha) fun h => hb (place_prefix_iff.mp h), Option.bind_none]

theorem node_move_of_not_prefix {a b : List String} (ha : ¬ a <+: q) (hb : ¬ b <+: q) :
    z.node (d.move (z.place a) (z.place b)) q = z.node d q := by
  rw [node, Disk.get?_move_of_not_prefix d (fun h => ha (place_prefix_iff.mp h))
    (fun h => hb (place_prefix_iff.mp h)), node]

theorem get?_elsewhere {zone : Location} (hout : Disk.SameOutside zone d d') (haside : Disk.Aside zone z.zone)
    {loc : Location} (hloc : z.zone <+: loc) : d'.get? loc = d.get? loc :=
  hout.get? (haside.not_prefix hloc)

theorem node_elsewhere {zone : Location} (hout : Disk.SameOutside zone d d') (haside : Disk.Aside zone z.zone)
    (q : List String) : z.node d' q = z.node d q := by
  rw [node, get?_elsewhere hout haside (zone_prefix_place z q), node]

theorem Stands.node_eq_none_iff (h : z.Stands d) : z.node d q = none ↔ d.get? (z.place q) = none := by
  rw [node]
  cases hget : d.get? (z.place q) with
  | none => simp
  | some e =>
    cases e with
    | link target => exact absurd hget (h.unlinked _ target (zone_prefix_place z q))
    | directory mode => simp
    | file content mode => simp

/-- Directories without links lead to where a replica stands. -/
theorem Stands.of_directories {ns : List String} (hname : Path.Proper z.name)
    (hproper : ∀ n ∈ ns, Path.Proper n) (hne : ns ≠ []) (hbase : z.base = ns.map .text)
    (hparent : z.parent = ns.foldl Path.child ⟨"/"⟩) (hflaw : z.parent.flaw? = none) (hreach : d.Reach [] ns)
    (hdir : ∃ mode, d.get? z.base = some (.directory mode))
    (hunlinked : ∀ loc target, z.zone <+: loc → d.get? loc ≠ some (.link target)) : z.Stands d := by
  refine ⟨hname, fun d' hout => ?_, hunlinked⟩
  have hsame : ∀ m, m <+: ns → d'.get? (m.map .text) = d.get? (m.map .text) := by
    refine fun m hm => hout.get? fun hzone => ?_
    have hlen := hzone.length_le
    rw [Site.zone, hbase, List.length_append, List.length_map, List.length_map] at hlen
    exact absurd (Nat.le_trans hlen hm.length_le) (Nat.not_succ_le_self _)
  obtain ⟨mode, hget⟩ := hdir
  rw [hbase] at hget
  refine ⟨mode, ?_⟩
  rw [hparent, hbase]
  refine Disk.stat_of_reach hproper hne (hreach.congr fun m hm _ hdir => ?_) ?_ (fun _ he => by cases he)
    (hparent ▸ hflaw) true
  · rw [List.nil_append] at hdir ⊢
    rwa [hsame m hm]
  · rw [hsame ns List.prefix_rfl, hget]

/-! ### Sites that directories lead through -/

/-- Directories lead to all that a site has at names. What else it has, no path can spell. -/
structure Passable (z : Site) (d : Disk) : Prop where
  stands : z.Stands d
  reaches : ∀ q, d.get? (z.place q) ≠ none → z.Reaches d q

namespace Passable

theorem hasDirectory_iff (h : z.Passable d) : z.HasDirectory d q ↔ z.node d q = some .directory := by
  rw [HasDirectory, node_eq_directory_iff]
  refine ⟨fun hd => hd.2, fun hd => ⟨h.reaches q ?_, hd⟩⟩
  obtain ⟨mode, hmode⟩ := hd
  simp [hmode]

/-- Whatever is in a directory is reached. -/
theorem reaches_concat (h : z.Passable d) (hq : z.node d q = some .directory) (hn : n.utf8ByteSize ≤ maxName) :
    z.Reaches d (q ++ [n]) := by
  obtain ⟨hreach, hdir⟩ := h.hasDirectory_iff.mpr hq
  rw [Reaches, ← List.cons_append, Disk.reach_append, ← place_eq]
  exact ⟨hreach, hdir, hn, trivial⟩

/-- Something is put where directories lead to. A directory stays one. -/
theorem insert (h : z.Passable d) (hreach : z.Reaches d q) (hlink : ∀ target, e ≠ .link target)
    (hdir : z.DirectoryAt d q → ∃ mode, e = .directory mode) : z.Passable (d.insert (z.place q) e) := by
  have hother : ∀ r, r ≠ q → (d.insert (z.place q) e).get? (z.place r) = d.get? (z.place r) := fun r hr =>
    Disk.get?_insert_of_ne d e fun he => hr (place_inj he)
  have hstands : z.Stands (d.insert (z.place q) e) := by
    refine h.stands.of_sameOutside (Disk.sameOutside_insert d (zone_prefix_place z q) e) fun loc target hloc => ?_
    by_cases he : loc = z.place q
    · rw [he, Disk.get?_insert_self]
      exact fun hl => hlink target (Option.some.inj hl)
    · rw [Disk.get?_insert_of_ne d e he]
      exact h.stands.unlinked loc target hloc
  refine ⟨hstands, fun r hr => ?_⟩
  have hold : z.Reaches d r := by
    by_cases hrq : r = q
    · rwa [hrq]
    · rw [hother r hrq] at hr
      exact h.reaches r hr
  refine hold.congr hstands fun ms _ _ hms => ?_
  by_cases hmsq : ms = q
  · subst hmsq
    obtain ⟨mode, rfl⟩ := hdir hms
    exact ⟨mode, Disk.get?_insert_self _ _ _⟩
  · rwa [DirectoryAt, hother ms hmsq]

/-- Directories come on the way to names that are reached then. -/
theorem grown (h : z.Passable d) (hgrown : z.Grown q d d') (hreach : z.Reaches d' q) : z.Passable d' := by
  refine ⟨hgrown.spares.stands h.stands, fun r hr => ?_⟩
  cases hold : d.get? (z.place r) with
  | some e => exact hgrown.spares.reaches h.stands (h.reaches r (by simp [hold])) fun _ _ _ => trivial
  | none =>
    rcases hgrown.new _ hold with hnone | ⟨ms, ⟨rest, rfl⟩, hplace, -⟩
    · exact absurd hnone hr
    · obtain rfl := place_inj hplace
      exact hreach.of_append

end Passable

/-- All that a site holds is reached by names, and there are no links. -/
structure Tidy (z : Site) (d : Disk) : Prop where
  stands : z.Stands d
  proper : d.Proper
  named : ∀ loc e, z.zone <+: loc → d.get? loc = some e → ∃ q, loc = z.place q ∧ z.Reaches d q

namespace Tidy

theorem node_eq_none_iff (h : z.Tidy d) : z.node d q = none ↔ d.get? (z.place q) = none := h.stands.node_eq_none_iff

theorem reaches (h : z.Tidy d) (hq : z.node d q ≠ none) : z.Reaches d q := by
  rw [Ne, h.node_eq_none_iff] at hq
  obtain ⟨e, he⟩ := Option.ne_none_iff_exists'.mp hq
  obtain ⟨q', hplace, hreach⟩ := h.named _ e (zone_prefix_place z q) he
  exact place_inj hplace ▸ hreach

theorem proper_names (h : z.Tidy d) (hq : z.node d q ≠ none) : ∀ n ∈ q, Path.Proper n := by
  rw [Ne, h.node_eq_none_iff] at hq
  obtain ⟨e, he⟩ := Option.ne_none_iff_exists'.mp hq
  intro n hn
  refine h.proper.of_get? he ?_
  rw [place, List.mem_append]
  exact .inr (List.mem_map_of_mem hn)

theorem passable (h : z.Tidy d) : z.Passable d :=
  ⟨h.stands, fun _ hq => h.reaches (by rwa [Ne, h.node_eq_none_iff])⟩

theorem hasDirectory_iff (h : z.Tidy d) : z.HasDirectory d q ↔ z.node d q = some .directory := h.passable.hasDirectory_iff

theorem hasFile_iff (h : z.Tidy d) {content : Text.Bytes} :
    z.HasFile d q content ↔ z.node d q = some (.file content) := by
  rw [HasFile, node_eq_file_iff]
  exact ⟨fun hf => hf.2, fun hf => ⟨h.reaches (by simp [node_eq_file_iff.mpr hf]), hf⟩⟩

/-- What is found lies in a directory. -/
theorem directory_of_concat (h : z.Tidy d) (hq : z.node d (q ++ [n]) ≠ none) : z.node d q = some .directory :=
  node_eq_directory_iff.mpr ((h.reaches hq).directoryAt (List.cons_ne_nil n []))

/-- Whatever is in a directory is reached. -/
theorem reaches_concat (h : z.Tidy d) (hq : z.node d q = some .directory) (hn : n.utf8ByteSize ≤ maxName) :
    z.Reaches d (q ++ [n]) := h.passable.reaches_concat hq hn

/-! ### Changes at a place -/

/-- Work in the site that keeps all directories but some keeps the site tidy, if what is new
    is reached. -/
theorem of_spares (h : z.Tidy d) {dirs files : List String → Prop} (hspares : z.Spares dirs files d d')
    (hnew : ∀ loc e, z.zone <+: loc → d'.get? loc = some e →
      (∃ q, loc = z.place q ∧ z.Reaches d' q)
        ∨ d.get? loc ≠ none ∧ ∀ q, loc = z.place q → ∀ m, m <+: q → m ≠ q → dirs m) : z.Tidy d' where
  stands := hspares.stands h.stands
  proper := hspares.proper h.proper
  named loc e hloc he := by
    rcases hnew loc e hloc he with hnamed | ⟨hold, hdirs⟩
    · exact hnamed
    · obtain ⟨e', he'⟩ := Option.ne_none_iff_exists'.mp hold
      obtain ⟨q, rfl, hreach⟩ := h.named loc e' hloc he'
      exact ⟨q, rfl, hspares.reaches h.stands hreach (hdirs q rfl)⟩

/-- Something is put where a path of the site leads. A directory stays one. -/
theorem insert (h : z.Tidy d) (hp : z.Spells p q) (hreach : z.Reaches d q) (hlink : ∀ target, e ≠ .link target)
    (hdir : z.DirectoryAt d q → ∃ mode, e = .directory mode) : z.Tidy (d.insert (z.place q) e) := by
  have hspares : z.Spares Everywhere (· ≠ q) d (d.insert (z.place q) e) :=
    spares_insert z d q hlink (fun hproper _ => h.stands.proper_place hproper hp) hdir fun hne => absurd rfl hne
  refine h.of_spares hspares fun loc e' hloc he' => ?_
  by_cases heq : loc = z.place q
  · exact .inl ⟨q, heq, hspares.reaches h.stands hreach fun _ _ _ => trivial⟩
  · rw [Disk.get?_insert_of_ne d e heq] at he'
    exact .inr ⟨by simp [he'], fun _ _ _ _ _ => trivial⟩

/-- All at and below a place is taken away. -/
theorem cleared (h : z.Tidy d) (hspares : z.Spares (Beside q) (Beside q) d d')
    (hkept : ∀ loc, ¬ z.place q <+: loc → d'.get? loc = d.get? loc) (hbare : z.Bare d' q) : z.Tidy d' := by
  refine h.of_spares hspares fun loc e hloc he => ?_
  have hbeside : ¬ z.place q <+: loc := fun hin => by simp [hbare loc hin] at he
  rw [hkept loc hbeside] at he
  refine .inr ⟨by simp [he], ?_⟩
  rintro r rfl m hm - hqm
  exact hbeside (place_prefix_iff.mpr (hqm.trans hm))

/-- Something is moved to another place of the site. -/
theorem move {a b : List String} (h : z.Tidy d) (hp : z.Spells p b) (hreach : z.Reaches d b) (hbelow : ¬ a <+: b) :
    z.Tidy (d.move (z.place a) (z.place b)) := by
  have hspares : z.Spares (Apart a b) (Apart a b) d (d.move (z.place a) (z.place b)) :=
    spares_move z d a b fun hproper _ => h.stands.proper_place hproper hp
  refine h.of_spares hspares fun loc e hloc he => ?_
  by_cases hb : z.place b <+: loc
  · obtain ⟨rest, rfl⟩ := hb
    rw [Disk.get?_move_target] at he
    obtain ⟨q, hplace, hq⟩ := h.named _ e ((zone_prefix_place z a).trans (List.prefix_append _ rest)) he
    obtain ⟨m, rfl⟩ := place_prefix_iff.mp (hplace ▸ List.prefix_append (z.place a) rest)
    rw [place_append, List.append_cancel_left_eq] at hplace
    subst hplace
    refine .inl ⟨b ++ m, (place_append z b m).symm, ?_⟩
    rw [Reaches, ← List.cons_append, Disk.reach_append, ← place_eq] at hq ⊢
    refine ⟨hspares.reaches h.stands hreach fun m hm hne => ⟨fun ham => hbelow (ham.trans hm), fun hbm => ?_⟩, ?_⟩
    · exact hne (hm.eq_of_length (Nat.le_antisymm hm.length_le hbm.length_le))
    · have hmoved : (d.move (z.place a) (z.place b)).Reach (z.place b ++ []) m :=
        Disk.Reach.move (by rw [List.append_nil]; exact hq.2)
      rwa [List.append_nil] at hmoved
  · by_cases ha : z.place a <+: loc
    · rw [Disk.get?_move_source d ha hb] at he
      cases he
    · rw [Disk.get?_move_of_not_prefix d ha hb] at he
      refine .inr ⟨by simp [he], ?_⟩
      rintro q rfl m hm -
      exact ⟨fun h => ha (place_prefix_iff.mpr (h.trans hm)), fun h => hb (place_prefix_iff.mpr (h.trans hm))⟩

/-- A site that has the same entries as a tidy one, and is reached as well, is tidy. -/
theorem of_same (h : z.Tidy d) (hsame : ∀ loc, z.zone <+: loc → d'.get? loc = d.get? loc) (hproper : d'.Proper)
    (hreached : ∀ d'', Disk.SameOutside z.zone d' d'' → ∃ mode, d''.stat z.parent = .ok (z.base, .directory mode)) :
    z.Tidy d' := by
  have hstands : z.Stands d' := ⟨h.stands.proper, hreached, fun loc target hloc => by
    rw [hsame loc hloc]
    exact h.stands.unlinked loc target hloc⟩
  refine ⟨hstands, hproper, fun loc e hloc he => ?_⟩
  rw [hsame loc hloc] at he
  obtain ⟨q, rfl, hreach⟩ := h.named loc e hloc he
  refine ⟨q, rfl, hreach.congr hstands fun m _ _ => ?_⟩
  rintro ⟨mode, hmode⟩
  exact ⟨mode, by rw [hsame _ (zone_prefix_place z m), hmode]⟩

/-- What happens in another place leaves the site as it is. -/
theorem elsewhere (h : z.Tidy d) {zone : Location} (hout : Disk.SameOutside zone d d')
    (haside : Disk.Aside zone z.zone) (hproper : d'.Proper)
    (hreached : ∀ d'', Disk.SameOutside z.zone d' d'' → ∃ mode, d''.stat z.parent = .ok (z.base, .directory mode)) :
    z.Tidy d' := h.of_same (fun _ => get?_elsewhere hout haside) hproper hreached

end Tidy

end Site

end LiveWorkspace
