/-
  LiveWorkspace/Proofs/Replica/Filling.lean
  =========================================
  **What is in a site after a series of operations.**

  An operation that succeeds puts an entry at some names, and makes the directories that are
  missing on the way (`Site.Lands`).  A series of them leaves an entry at all names that it was
  about; at any other names there is what was there before, or a directory that was missing on
  the way (`Site.Fills`).  So a site is known after the series by what was put, whatever the
  order, and entries are told here with their modes.
-/
import LiveWorkspace.Proofs.Replica.Attempts
import LiveWorkspace.Proofs.Replica.Harbor

namespace LiveWorkspace.Site

variable {z : Site} {d d' d'' : Disk} {p : Path} {q r : List String} {e : Entry} {P P' : Entry → Prop}
  {put put' : List String → (Entry → Prop) → Prop}

/-! ### Entries -/

/-- The entry that a site has at some names. -/
def entry (z : Site) (d : Disk) (q : List String) : Option Entry := d.get? (z.place q)

theorem entry_insert_self (e : Entry) : z.entry (d.insert (z.place q) e) q = some e := Disk.get?_insert_self _ _ _

theorem entry_insert_of_ne (e : Entry) (h : r ≠ q) : z.entry (d.insert (z.place q) e) r = z.entry d r :=
  Disk.get?_insert_of_ne d e fun he => h (place_inj he)

/-- A site that has the same entry at some names has the same node there. -/
theorem node_congr (h : z.entry d' r = z.entry d r) : z.node d' r = z.node d r := by
  rw [node, ← entry, h, entry, node]

/-- What is found lies in directories. -/
theorem Tidy.entry_above (h : z.Tidy d) (hq : z.entry d q ≠ none) (hr : r <+: q) (hne : r ≠ q) :
    ∃ mode, z.entry d r = some (.directory mode) := by
  obtain ⟨m, rfl⟩ := hr
  have hreach : z.Reaches d (r ++ m) := h.reaches (by rwa [Ne, h.node_eq_none_iff])
  exact hreach.directoryAt fun hm => hne (by rw [hm, List.append_nil])

/-- A directory has come where nothing was. -/
def Arises (z : Site) (d d' : Disk) (r : List String) : Prop :=
  z.entry d r = none ∧ ∃ mode, z.entry d' r = some (.directory mode)

/-- A site is tidy, and nothing has changed outside it. -/
structure Kempt (z : Site) (old d : Disk) : Prop where
  tidy : z.Tidy d
  outside : Disk.SameOutside z.zone old d

theorem keeps_kempt {op : ReplicaOp Unit} (htidy : Preserves z.Tidy op) (hconfined : ∀ d₀, Preserves (z.Confined d₀) op)
    (old : Disk) : Preserves (z.Kempt old) op := by
  intro d hd
  have hboth := wp_and (htidy d hd.tidy) (hconfined old d ⟨hd.outside, hd.tidy.stands, hd.tidy.proper⟩)
  exact wp_imp hboth (fun _ _ h => ⟨h.1, h.2.outside⟩) fun _ _ h => ⟨h.1, h.2.outside⟩

/-- Work on a copy leaves the site tidy, also where it fails. -/
theorem work_keeps_tidy {op : ReplicaOp Unit} (hp : z.Spells p q) (hop : Replica.Work p op) : Preserves z.Tidy op := by
  have hlaid : ∀ k : Node, (∀ d, Preserves (z.Laid q k d) op) → Preserves z.Tidy op :=
    fun k hlaid d hd => wp_imp (hlaid d d (hd.laid q k)) (fun _ _ h => h.tidy) fun _ _ h => h.tidy
  cases hop with
  | write content => exact hlaid _ fun _ => write_lays hp content
  | create mode => exact hlaid _ fun _ => create_lays hp mode
  | adopt dir => exact hlaid _ fun _ => adopt_lays hp dir
  | remove => exact remove_keeps_tidy hp

theorem work_kempt {op : ReplicaOp Unit} (hp : z.Spells p q) (hop : Replica.Work p op) (old : Disk) :
    Preserves (z.Kempt old) op :=
  keeps_kempt (work_keeps_tidy hp hop) (fun _ => work_confined hp hop) old

theorem rename_kempt {p' : Path} (hp : z.Spells p q) (hp' : z.Spells p' r) (old : Disk) :
    Preserves (z.Kempt old) (Replica.rename p p') :=
  keeps_kempt (rename_keeps_tidy hp hp') (fun _ => rename_confined hp hp') old

/-! ### One operation -/

/-- An entry was put at some names, over one of its kind if there was one. -/
structure Lands (z : Site) (q : List String) (P : Entry → Prop) (d d' : Disk) : Prop where
  outside : Disk.SameOutside z.zone d d'
  there : ∃ e, z.entry d' q = some e ∧ P e
  kind : ∀ e e', z.entry d q = some e → z.entry d' q = some e' → e'.isDirectory = e.isDirectory
  frame : ∀ r, r ≠ q → z.entry d' r = z.entry d r ∨ z.Arises d d' r ∧ r <+: q

theorem Lands.imp (h : z.Lands q P d d') (himp : ∀ e, P e → P' e) : z.Lands q P' d d' where
  outside := h.outside
  there := h.there.imp fun e he => ⟨he.1, himp e he.2⟩
  kind := h.kind
  frame := h.frame

theorem Lands.trans (h : z.Lands q P d d') (h' : z.Lands q P' d' d'') : z.Lands q P' d d'' where
  outside := h.outside.trans h'.outside
  there := h'.there
  kind e e' he he' := by
    obtain ⟨e₁, he₁, -⟩ := h.there
    rw [h'.kind e₁ e' he₁ he', h.kind e e₁ he he₁]
  frame r hr := by
    rcases h'.frame r hr with hsame | ⟨⟨hnone, hdir⟩, hway⟩
    · rcases h.frame r hr with hold | ⟨harises, hway⟩
      · exact .inl (hsame.trans hold)
      · exact .inr ⟨⟨harises.1, hsame ▸ harises.2⟩, hway⟩
    · rcases h.frame r hr with hold | ⟨⟨-, mode, hmode⟩, -⟩
      · exact .inr ⟨⟨hold ▸ hnone, hdir⟩, hway⟩
      · rw [hnone] at hmode
        cases hmode

/-- Directories come on the way, and then an entry at its end. -/
theorem Grown.lands (h : z.Grown q d d') (he : P e)
    (hkind : ∀ e', z.entry d' q = some e' → e.isDirectory = e'.isDirectory) :
    z.Lands q P d (d'.insert (z.place q) e) where
  outside := h.outside.trans (Disk.sameOutside_insert d' (zone_prefix_place z q) e)
  there := ⟨e, entry_insert_self e, he⟩
  kind e₀ e₁ he₀ he₁ := by
    rw [entry_insert_self] at he₁
    cases he₁
    exact hkind e₀ (h.kept _ _ he₀)
  frame r hr := by
    rw [entry_insert_of_ne e hr]
    cases hold : z.entry d r with
    | some e₀ => exact .inl (h.kept _ _ hold)
    | none =>
      rcases h.new _ hold with hnone | ⟨ms, hms, hplace, hdir⟩
      · exact .inl hnone
      · obtain rfl : r = ms := place_inj hplace
        exact .inr ⟨⟨hold, by rwa [entry_insert_of_ne e hr]⟩, hms⟩

/-- A file that is written keeps the mode that it has. -/
theorem Stands.fileSlot_mode (hd : z.Stands d) (hp : z.Spells p q) {loc : Location} {mode? : Option Nat}
    (h : d.fileSlot p = .ok (loc, mode?)) {content : Text.Bytes} {mode : Nat}
    (hfile : z.entry d q = some (.file content mode)) : mode? = some mode := by
  obtain ⟨hreach, -, -⟩ := hd.fileSlot_ok hp h
  have hflaw := Disk.flaw?_of_fileSlot h
  have hdescend : d.descend z.base (z.name :: q) = .ok (.present (z.place q) (.file content mode)) :=
    Disk.descend_eq_present_iff.mpr ⟨hreach, place_eq z q, hfile⟩
  rw [Disk.fileSlot, if_neg (by rw [hp.noSeparator]; decide), hd.resolve_eq hp hflaw, hdescend] at h
  cases h
  rfl

/-- A file that was written: its octets, and the mode that it had. -/
def Written (z : Site) (d : Disk) (q : List String) (content : Text.Bytes) (e : Entry) : Prop :=
  ∃ mode, e = .file content mode ∧ ∀ bytes mode', z.entry d q = some (.file bytes mode') → mode = mode'

/-- A file with some octets, whatever its mode. -/
def FileOf (content : Text.Bytes) (e : Entry) : Prop := ∃ mode, e = .file content mode

theorem Written.fileOf {content : Text.Bytes} (h : z.Written d q content e) : FileOf content e :=
  h.imp fun _ hmode => hmode.1

theorem Stands.diskWrite_lands (hd : z.Stands d') (hp : z.Spells p q) (hgrown : z.Grown q d d') {content : Text.Bytes}
    {u : Unit} (h : (Disk.write p content : DiskOp Unit) d' = .ok u d'') :
    z.Lands q (z.Written d q content) d d'' := by
  obtain ⟨⟨loc, mode?⟩, hslot, rfl⟩ := except_map_eq_ok.mp (change_eq_ok.mp h)
  obtain ⟨-, rfl, hfile⟩ := hd.fileSlot_ok hp hslot
  refine hgrown.lands ⟨_, rfl, fun bytes mode' hold => ?_⟩ fun e' he' => ?_
  · rw [hd.fileSlot_mode hp hslot (hgrown.kept _ _ hold), Option.getD_some]
  · have hkind := hfile e' he'
    cases e' with
    | file bytes mode' => rfl
    | directory mode' => cases hkind
    | link target => cases hkind

theorem Stands.write_lands (hd : z.Stands d) (hp : z.Spells p q) {content : Text.Bytes} {u : Unit}
    (h : Replica.write p content d = .ok u d') : z.Lands q (z.Written d q content) d d' := by
  obtain ⟨_, t, hparent, hwrite⟩ := bind_eq_ok.mp h
  have hwrite := as_eq_ok.mp hwrite
  have hgrown := hd.ensureParent_ok hp (flaw?_of_write hwrite) hparent
  exact (hgrown.spares.stands hd).diskWrite_lands hp hgrown hwrite

theorem Stands.setMode_eq (hd : z.Stands d) (hp : z.Spells p q) {mode : Nat} {u : Unit}
    (h : Replica.setMode p mode d = .ok u d') :
    ∃ e, z.entry d q = some e ∧ d' = d.insert (z.place q) (e.withMode mode) := by
  obtain ⟨⟨loc, e⟩, hstat, rfl⟩ := except_map_eq_ok.mp (change_eq_ok.mp (as_eq_ok.mp h))
  obtain ⟨-, rfl, hget⟩ := (hd.stat_eq_ok_iff hp (Disk.flaw?_of_stat hstat)).mp hstat
  exact ⟨e, hget, rfl⟩

theorem Stands.create_lands (hd : z.Stands d) (hp : z.Spells p q) {mode : Nat} {u : Unit}
    (h : (do Replica.ensureParent p; Replica.createEmptyFile p (some mode) : ReplicaOp Unit) d = .ok u d') :
    z.Lands q (· = .file [] mode) d d' := by
  obtain ⟨_, t, hparent, h⟩ := bind_eq_ok.mp h
  obtain ⟨_, t', hwrite, hmode⟩ := bind_eq_ok.mp h
  have hwrite := as_eq_ok.mp hwrite
  have hgrown := hd.ensureParent_ok hp (flaw?_of_write hwrite) hparent
  have ht := hgrown.spares.stands hd
  have hlands := ht.diskWrite_lands hp hgrown hwrite
  obtain ⟨e, he, m, rfl, -⟩ := hlands.there
  obtain ⟨e', he', rfl⟩ := ((ht.diskWrite_ok hp hwrite).1.stands ht).setMode_eq hp hmode
  rw [he] at he'
  cases he'
  refine hlands.trans ((Grown.refl z q t').lands rfl fun e' he' => ?_)
  rw [he] at he'
  cases he'
  rfl

/-- A directory is made, or found, and gets the mode of another one. -/
theorem Stands.adopt_lands (hd : z.Stands d) (hp : z.Spells p q) {dir : Path} {u : Unit}
    (h : (do Replica.createDir p (← Replica.modeOf dir) : ReplicaOp Unit) d = .ok u d') :
    ∃ mode, d.modeOf dir = .ok mode ∧ z.Lands q (· = .directory mode) d d' := by
  obtain ⟨mode, t, hmode, hcreate⟩ := bind_eq_ok.mp h
  have hask := as_eq_ok.mp hmode
  obtain rfl := modeOf_ok hmode
  have hfound : t.modeOf dir = .ok mode := by
    unfold DiskOp.ask at hask
    cases hm : t.modeOf dir with
    | error err => simp [hm] at hask
    | ok mode' =>
      simp only [hm, EStateM.Result.ok.injEq, and_true] at hask
      rw [hask]
  refine ⟨mode, hfound, ?_⟩
  obtain ⟨_, t', hmake, hset⟩ := bind_eq_ok.mp hcreate
  obtain ⟨hgrown, -, old, hdir⟩ := hd.makeDirs_ok hp (as_eq_ok.mp hmake)
  obtain ⟨e, he, rfl⟩ := (hgrown.spares.stands hd).setMode_eq hp hset
  rw [entry, hdir] at he
  cases he
  refine hgrown.lands rfl fun e' he' => ?_
  rw [entry, hdir] at he'
  cases he'
  rfl

/-- Entries were put at some names; `put` says where, and what is known of them. -/
structure Fills (z : Site) (put : List String → (Entry → Prop) → Prop) (d d' : Disk) : Prop where
  outside : Disk.SameOutside z.zone d d'
  there : ∀ r P, put r P → ∃ e, z.entry d' r = some e ∧ P e
  frame : ∀ r, (∀ P, ¬ put r P) → z.entry d' r = z.entry d r ∨ z.Arises d d' r ∧ ∃ q P, put q P ∧ r <+: q

namespace Fills

theorem refl (h : ∀ r P, ¬ put r P) (d : Disk) : z.Fills put d d :=
  ⟨.refl _ d, fun r P hput => absurd hput (h r P), fun _ _ => .inl rfl⟩

/-- One more entry is put. What was put there before is known as well of the new one, unless
    one of the two is a directory and the other is not. -/
theorem step (h : z.Fills put d d') (h' : z.Lands q P d' d'')
    (hagree : ∀ X, put q X → X = P ∨ ∀ e e', X e → P e' → e'.isDirectory ≠ e.isDirectory)
    (hput : ∀ r X, put' r X ↔ put r X ∨ r = q ∧ X = P) : z.Fills put' d d'' := by
  obtain ⟨new, hnew, hPnew⟩ := h'.there
  refine ⟨h.outside.trans h'.outside, fun r X hX => ?_, fun r hr => ?_⟩
  · by_cases hrq : r = q
    · subst hrq
      rcases (hput r X).mp hX with hold | ⟨-, rfl⟩
      · obtain ⟨e, he, hXe⟩ := h.there r X hold
        rcases hagree X hold with rfl | hapart
        · exact ⟨new, hnew, hPnew⟩
        · exact absurd (h'.kind e new he hnew) (hapart e new hXe hPnew)
      · exact ⟨new, hnew, hPnew⟩
    · obtain ⟨e, he, hXe⟩ := h.there r X (((hput r X).mp hX).resolve_right fun hr => hrq hr.1)
      rcases h'.frame r hrq with hsame | ⟨⟨hnone, -⟩, -⟩
      · exact ⟨e, hsame.trans he, hXe⟩
      · rw [hnone] at he
        cases he
  · have hrq : r ≠ q := fun heq => hr P ((hput r P).mpr (.inr ⟨heq, rfl⟩))
    have hold : ∀ X, ¬ put r X := fun X hX => hr X ((hput r X).mpr (.inl hX))
    rcases h'.frame r hrq with hsame | ⟨⟨hnone, hdir⟩, hway⟩
    · rcases h.frame r hold with hkept | ⟨harises, q', X, hX, hway⟩
      · exact .inl (hsame.trans hkept)
      · exact .inr ⟨⟨harises.1, hsame ▸ harises.2⟩, q', X, (hput q' X).mpr (.inl hX), hway⟩
    · rcases h.frame r hold with hkept | ⟨⟨-, mode, hmode⟩, -⟩
      · exact .inr ⟨⟨hkept ▸ hnone, hdir⟩, q, P, (hput q P).mpr (.inr ⟨rfl, rfl⟩), hway⟩
      · rw [hnone] at hmode
        cases hmode

/-- In a tidy site, the names above what was put hold directories. -/
theorem above (h : z.Fills put d d') (htidy : z.Tidy d') (hq : put q P) (hr : r <+: q) (hne : r ≠ q) :
    ∃ mode, z.entry d' r = some (.directory mode) := by
  obtain ⟨e, he, -⟩ := h.there q P hq
  exact htidy.entry_above (by simp [he]) hr hne

/-- Away from what was put, and from the names above it, nothing has changed. -/
theorem apart (h : z.Fills put d d') (hr : ∀ q P, put q P → ¬ r <+: q) : z.entry d' r = z.entry d r := by
  rcases h.frame r fun P hput => hr r P hput List.prefix_rfl with hsame | ⟨-, q, P, hq, hway⟩
  · exact hsame
  · exact absurd hway (hr q P hq)

end Fills

end LiveWorkspace.Site
