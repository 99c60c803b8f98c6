/-
  LiveWorkspace/Proofs/Replica/Effects.lean
  =========================================
  **What the operations of a replica do to it when they succeed.**

  An operation on a path of the replica is known by the names that the path spells: it
  needs directories at all names but the last, and changes the entry at the last, or
  all below it.  What it leaves alone is said by `Spares`: directories stay directories
  and files keep what they hold, except at the names that the operation is about.
-/
import LiveWorkspace.Proofs.Replica.Site

namespace LiveWorkspace

/-! ### Successful operations -/

section Success

variable {ε σ α β : Type}

theorem bind_eq_ok {act : EStateM ε σ β} {next : β → EStateM ε σ α} {a : α} {s s' : σ} :
    (act >>= next) s = .ok a s' ↔ ∃ b t, act s = .ok b t ∧ next b t = .ok a s' := by
  simp only [bind, EStateM.bind]
  cases act s with
  | ok b t =>
    constructor
    · exact fun h => ⟨b, t, rfl, h⟩
    · rintro ⟨_, _, h, hnext⟩
      cases h
      exact hnext
  | error err t => simp

theorem change_eq_ok {f : Disk → Except OsError Disk} {d d' : Disk} {u : Unit} :
    (DiskOp.change f : DiskOp Unit) d = .ok u d' ↔ f d = .ok d' := by
  unfold DiskOp.change
  cases f d with
  | ok r => simp
  | error err => simp

theorem as_eq_ok {op : DiskOp α} {action : String} {p : Path} {d d' : Disk} {a : α} :
    (op.as action p : ReplicaOp α) d = .ok a d' ↔ op d = .ok a d' := by
  unfold DiskOp.as
  cases op d with
  | ok b t => simp
  | error err t => simp

theorem except_bind_eq_ok {x : Except ε α} {f : α → Except ε β} {b : β} :
    (x >>= f) = .ok b ↔ ∃ a, x = .ok a ∧ f a = .ok b := by
  cases x <;> simp [bind, Except.bind]

theorem except_map_eq_ok {x : Except ε α} {f : α → β} {b : β} :
    x.map f = .ok b ↔ ∃ a, x = .ok a ∧ f a = b := by
  cases x <;> simp [Except.map]

end Success

namespace Disk

variable {d : Disk} {p : Path}

/-- A path that leads anywhere is spelled without a flaw. -/
theorem flaw?_of_walkFrom {follow : Bool} {steps : List String} {t : Target}
    (h : d.walkFrom p follow steps = .ok t) : p.flaw? = none := by
  unfold walkFrom at h
  split at h
  · cases h
  · assumption

theorem flaw?_of_slot {s : Slot} (h : d.slot p = .ok s) : p.flaw? = none := by
  unfold slot at h
  split at h
  · cases h
  · cases h
  · rename_i hwalk
    exact flaw?_of_walkFrom hwalk

theorem flaw?_of_stat {follow : Bool} {x : Location × Entry} (h : d.stat p follow = .ok x) :
    p.flaw? = none := by
  unfold stat at h
  split at h
  · rename_i hwalk
    exact flaw?_of_walkFrom hwalk
  · cases h
  · cases h

theorem exists_stat_of_hasPath (h : d.hasPath p = true) : ∃ loc e, d.stat p = .ok (loc, e) := by
  rw [hasPath] at h
  cases hstat : d.stat p with
  | error err =>
    rw [hstat] at h
    cases h
  | ok x => exact ⟨x.1, x.2, rfl⟩

theorem flaw?_of_read {bytes : Text.Bytes} (h : d.read p = .ok bytes) : p.flaw? = none := by
  unfold read at h
  split at h
  · rename_i hstat
    exact flaw?_of_stat hstat
  · cases h
  · cases h

theorem flaw?_of_fileSlot {x : Location × Option Nat} (h : d.fileSlot p = .ok x) : p.flaw? = none := by
  unfold fileSlot at h
  split at h
  · obtain ⟨_, -, herr⟩ := except_bind_eq_ok.mp h
    cases herr
  · split at h
    · rename_i hwalk
      exact flaw?_of_walkFrom hwalk
    · cases h
    · rename_i hwalk
      exact flaw?_of_walkFrom hwalk
    · cases h

end Disk

namespace Site

variable {z : Site} {d d' d'' : Disk} {p q : Path} {ns ms : List String}

/-! ### Files and directories of the replica -/

/-- Directories lead to the last of some names. -/
def Reaches (z : Site) (d : Disk) (ns : List String) : Prop := d.Reach z.base (z.name :: ns)

/-- At the place of some names is a file that holds some octets. -/
def FileAt (z : Site) (d : Disk) (ns : List String) (bytes : Text.Bytes) : Prop :=
  ∃ mode, d.get? (z.place ns) = some (.file bytes mode)

def DirectoryAt (z : Site) (d : Disk) (ns : List String) : Prop :=
  ∃ mode, d.get? (z.place ns) = some (.directory mode)

/-- The replica has a file, to which directories lead. -/
def HasFile (z : Site) (d : Disk) (ns : List String) (bytes : Text.Bytes) : Prop :=
  z.Reaches d ns ∧ z.FileAt d ns bytes

def HasDirectory (z : Site) (d : Disk) (ns : List String) : Prop := z.Reaches d ns ∧ z.DirectoryAt d ns

theorem Reaches.directoryAt (h : z.Reaches d (ns ++ ms)) (hms : ms ≠ []) : z.DirectoryAt d ns := by
  rw [DirectoryAt, place_eq]
  exact Disk.Reach.directory (by rwa [Reaches, ← List.cons_append] at h) hms

theorem Reaches.of_append (h : z.Reaches d (ns ++ ms)) : z.Reaches d ns := by
  rw [Reaches, ← List.cons_append, Disk.reach_append] at h
  exact h.1

theorem HasFile.not_hasDirectory {bytes : Text.Bytes} (h : z.HasFile d ns bytes) : ¬ z.HasDirectory d ns := by
  rintro ⟨-, mode, hdir⟩
  obtain ⟨-, mode', hfile⟩ := h
  rw [hdir] at hfile
  cases hfile

/-- The replica is reached as long as it stands. -/
theorem Reaches.congr (h : z.Reaches d ns) (hd : z.Stands d')
    (hdirs : ∀ ms, ms <+: ns → ms ≠ ns → z.DirectoryAt d ms → z.DirectoryAt d' ms) :
    z.Reaches d' ns := by
  refine Disk.Reach.congr h fun m hm hne hmode => ?_
  cases m with
  | nil =>
    obtain ⟨mode, hstat⟩ := hd.reached d' (Disk.SameOutside.refl _ _)
    exact ⟨mode, by rw [List.map_nil, List.append_nil]; exact Disk.get?_of_stat hstat⟩
  | cons x m =>
    obtain ⟨rfl, hpre⟩ := List.cons_prefix_cons.mp hm
    rw [← place_eq] at hmode ⊢
    exact hdirs m hpre (fun e => hne (by rw [e])) hmode

/-! ### Look-ups -/

theorem Stands.stat_eq_ok_iff (hd : z.Stands d) (hp : z.Spells p ns) (hflaw : p.flaw? = none)
    {follow : Bool} {loc : Location} {e : Entry} :
    d.stat p follow = .ok (loc, e) ↔ z.Reaches d ns ∧ loc = z.place ns ∧ d.get? loc = some e := by
  rw [Disk.stat, hd.resolve_eq hp hflaw, Reaches, place_eq]
  constructor
  · intro h
    split at h
    · rename_i hdescend
      cases h
      exact Disk.descend_eq_present_iff.mp hdescend
    · cases h
    · cases h
  · intro h
    rw [Disk.descend_eq_present_iff.mpr h]

theorem Stands.read_eq_ok_iff (hd : z.Stands d) (hp : z.Spells p ns) (hflaw : p.flaw? = none)
    {bytes : Text.Bytes} : d.read p = .ok bytes ↔ z.HasFile d ns bytes := by
  rw [Disk.read]
  constructor
  · intro h
    split at h
    · rename_i hstat
      cases h
      obtain ⟨hreach, rfl, hget⟩ := (hd.stat_eq_ok_iff hp hflaw).mp hstat
      exact ⟨hreach, _, hget⟩
    · cases h
    · cases h
  · rintro ⟨hreach, mode, hget⟩
    rw [(hd.stat_eq_ok_iff hp hflaw).mpr ⟨hreach, rfl, hget⟩]

theorem Stands.hasDirectory_iff (hd : z.Stands d) (hp : z.Spells p ns) (hflaw : p.flaw? = none) :
    d.hasDirectory p = true ↔ z.HasDirectory d ns := by
  rw [Disk.hasDirectory]
  constructor
  · intro h
    cases hstat : d.stat p with
    | error err => rw [hstat] at h; cases h
    | ok x =>
      rw [hstat] at h
      obtain ⟨hreach, hloc, hget⟩ := (hd.stat_eq_ok_iff hp hflaw).mp hstat
      cases hx : x.2 with
      | directory mode => exact ⟨hreach, mode, by rw [← hloc, hget, hx]⟩
      | file content mode => simp [Except.toOption, hx, Entry.isDirectory] at h
      | link target => simp [Except.toOption, hx, Entry.isDirectory] at h
  · rintro ⟨hreach, mode, hget⟩
    rw [(hd.stat_eq_ok_iff hp hflaw).mpr ⟨hreach, rfl, hget⟩]
    rfl

theorem Stands.hasDirectory_ok (hd : z.Stands d) (hp : z.Spells p ns) (h : d.hasDirectory p = true) :
    z.HasDirectory d ns := by
  cases hstat : d.stat p with
  | error err => rw [Disk.hasDirectory, hstat] at h; cases h
  | ok x => exact (hd.hasDirectory_iff hp (Disk.flaw?_of_stat hstat)).mp h

/-- The names of a path of the replica, with the last one apart. -/
theorem exists_concat (z : Site) (ns : List String) :
    ∃ init x, z.name :: ns = init ++ [x] ∧ z.base ++ init.map .text ++ [.text x] = z.place ns := by
  have hconcat := (List.dropLast_concat_getLast (List.cons_ne_nil z.name ns)).symm
  refine ⟨_, _, hconcat, ?_⟩
  rw [place_eq, List.append_assoc]
  conv => rhs; rw [hconcat, List.map_append]
  rfl

theorem dirOf_eq_ok_iff {init : List String} {loc : Location} :
    Disk.dirOf (d.descend z.base init) = .ok loc
      ↔ d.Reach z.base init ∧ loc = z.base ++ init.map .text ∧ ∃ mode, d.get? loc = some (.directory mode) := by
  constructor
  · intro h
    unfold Disk.dirOf at h
    split at h
    · rename_i loc' e hdescend
      split at h
      · rename_i hdir
        cases h
        obtain ⟨hreach, hloc, hget⟩ := Disk.descend_eq_present_iff.mp hdescend
        cases e with
        | directory mode => exact ⟨hreach, hloc, mode, hget⟩
        | file content mode => cases hdir
        | link target => cases hdir
      · cases h
    · cases h
    · cases h
  · rintro ⟨hreach, hloc, mode, hget⟩
    rw [Disk.descend_eq_present_iff.mpr ⟨hreach, hloc, hget⟩]
    rfl

/-- What is found in the slot of a path of the replica. -/
theorem Stands.slot_entry (hd : z.Stands d) (hp : z.Spells p ns) {s : Disk.Slot} {x : String}
    {found : Option Entry} (hslot : d.slot p = .ok s) (hname : s.name = some x)
    (hat : d.entryAt s.dir x = .ok found) :
    z.Reaches d ns ∧ s.dir ++ [.text x] = z.place ns ∧ d.get? (z.place ns) = found := by
  obtain ⟨init, x', hns, hplace⟩ := z.exists_concat ns
  rw [hd.slot_eq hp (Disk.flaw?_of_slot hslot) hns] at hslot
  obtain ⟨loc, hloc, rfl⟩ := except_map_eq_ok.mp hslot
  cases hname
  obtain ⟨hreach, rfl, hdir⟩ := dirOf_eq_ok_iff.mp hloc
  obtain ⟨hlen, hget⟩ := Disk.le_of_entryAt hat
  refine ⟨?_, hplace, hplace ▸ hget⟩
  rw [Reaches, hns, Disk.reach_append]
  exact ⟨hreach, hdir, hlen, trivial⟩

/-- The slot of a path of the replica that directories lead to. -/
theorem Stands.exists_slot (hd : z.Stands d) (hp : z.Spells p ns) (hflaw : p.flaw? = none)
    (hreach : z.Reaches d ns) :
    ∃ s x, d.slot p = .ok s ∧ s.name = some x ∧ s.dir ++ [.text x] = z.place ns
      ∧ d.entryAt s.dir x = .ok (d.get? (z.place ns)) := by
  obtain ⟨init, x, hns, hplace⟩ := z.exists_concat ns
  rw [Reaches, hns, Disk.reach_append] at hreach
  obtain ⟨hinit, hdir, hlen, -⟩ := hreach
  refine ⟨⟨z.base ++ init.map .text, some x⟩, x, ?_, rfl, hplace, ?_⟩
  · rw [hd.slot_eq hp hflaw hns, dirOf_eq_ok_iff.mpr ⟨hinit, rfl, hdir⟩]
    rfl
  · rw [Disk.entryAt_of_le hlen, hplace]

theorem Stands.fileSlot_ok (hd : z.Stands d) (hp : z.Spells p ns) {loc : Location} {mode? : Option Nat}
    (h : d.fileSlot p = .ok (loc, mode?)) :
    z.Reaches d ns ∧ loc = z.place ns ∧ ∀ e, d.get? (z.place ns) = some e → e.isFile = true := by
  have hflaw := Disk.flaw?_of_fileSlot h
  rw [Disk.fileSlot, if_neg (by rw [hp.noSeparator]; decide), hd.resolve_eq hp hflaw] at h
  split at h
  · rename_i hdescend
    obtain ⟨hreach, hloc, hget⟩ := Disk.descend_eq_present_iff.mp hdescend
    cases h
    rw [← place_eq] at hloc
    refine ⟨hreach, hloc, fun e he => ?_⟩
    rw [← hloc, hget] at he
    cases he
    rfl
  · cases h
  · rename_i hdescend
    obtain ⟨hreach, -, hloc, hnone⟩ := Disk.descend_eq_absent_iff.mp hdescend
    cases h
    rw [← place_eq] at hloc hnone
    refine ⟨hreach, hloc, fun e he => ?_⟩
    rw [hnone] at he
    cases he
  · cases h

theorem Stands.freeSlot_ok (hd : z.Stands d) (hp : z.Spells p ns) {loc : Location}
    (h : d.freeSlot p = .ok loc) :
    z.Reaches d ns ∧ loc = z.place ns ∧ d.get? (z.place ns) = none := by
  rw [Disk.freeSlot] at h
  obtain ⟨s, hslot, h⟩ := except_bind_eq_ok.mp h
  split at h
  · cases h
  · rename_i x hname
    obtain ⟨found, hat, h⟩ := except_bind_eq_ok.mp h
    obtain ⟨hreach, hloc, hget⟩ := hd.slot_entry hp hslot hname hat
    cases found with
    | none =>
      cases h
      exact ⟨hreach, hloc, hget⟩
    | some e => cases h

/-! ### What an operation leaves alone -/

/-- Nothing is changed outside the replica, no link is made in it, and what some names lead
    to stays: directories at `dirs`, and files with what they hold at `files`. -/
structure Spares (z : Site) (dirs files : List String → Prop) (d d' : Disk) : Prop where
  outside : Disk.SameOutside z.zone d d'
  unlinked : (∀ loc target, z.zone <+: loc → d.get? loc ≠ some (.link target)) →
    ∀ loc target, z.zone <+: loc → d'.get? loc ≠ some (.link target)
  proper : d.Proper → d'.Proper
  directory : ∀ ns, dirs ns → z.DirectoryAt d ns → z.DirectoryAt d' ns
  file : ∀ ns bytes, files ns → (z.FileAt d' ns bytes ↔ z.FileAt d ns bytes)

/-- All names. -/
abbrev Everywhere (_ : List String) : Prop := True

theorem Spares.refl (z : Site) (dirs files : List String → Prop) (d : Disk) : z.Spares dirs files d d :=
  ⟨Disk.SameOutside.refl _ _, fun h => h, fun h => h, fun _ _ h => h, fun _ _ _ => Iff.rfl⟩

section Spares

variable {dirs files : List String → Prop}

theorem Spares.trans (h : z.Spares dirs files d d') (h' : z.Spares dirs files d' d'') :
    z.Spares dirs files d d'' where
  outside := h.outside.trans h'.outside
  unlinked hd := h'.unlinked (h.unlinked hd)
  proper hd := h'.proper (h.proper hd)
  directory ns hns hd := h'.directory ns hns (h.directory ns hns hd)
  file ns bytes hns := (h'.file ns bytes hns).trans (h.file ns bytes hns)

theorem Spares.mono {dirs' files' : List String → Prop} (h : z.Spares dirs files d d')
    (hdirs : ∀ ns, dirs' ns → dirs ns) (hfiles : ∀ ns, files' ns → files ns) :
    z.Spares dirs' files' d d' :=
  ⟨h.outside, h.unlinked, h.proper, fun ns hns => h.directory ns (hdirs ns hns),
    fun ns bytes hns => h.file ns bytes (hfiles ns hns)⟩

theorem Spares.stands (h : z.Spares dirs files d d') (hd : z.Stands d) : z.Stands d' :=
  hd.of_sameOutside h.outside (h.unlinked hd.unlinked)

theorem Spares.reaches (h : z.Spares dirs files d d') (hd : z.Stands d) (hreach : z.Reaches d ns)
    (hdirs : ∀ ms, ms <+: ns → ms ≠ ns → dirs ms) : z.Reaches d' ns :=
  hreach.congr (h.stands hd) fun ms hms hne hdir => h.directory ms (hdirs ms hms hne) hdir

theorem Spares.hasFile (h : z.Spares dirs files d d') (hd : z.Stands d) {bytes : Text.Bytes}
    (hfile : z.HasFile d ns bytes) (hdirs : ∀ ms, ms <+: ns → ms ≠ ns → dirs ms) (hns : files ns) :
    z.HasFile d' ns bytes :=
  ⟨h.reaches hd hfile.1 hdirs, (h.file ns bytes hns).mpr hfile.2⟩

end Spares

/-- An entry that is put at a place and is like the one there spares all others. -/
theorem spares_insert (z : Site) (d : Disk) (ns : List String) {files : List String → Prop} {e : Entry}
    (hlink : ∀ target, e ≠ .link target)
    (hproper : d.Proper → ∀ n, Name.text n ∈ z.place ns → Path.Proper n)
    (hdir : z.DirectoryAt d ns → ∃ mode, e = .directory mode)
    (hfile : files ns → ∀ bytes, (∃ mode, e = .file bytes mode) ↔ z.FileAt d ns bytes) :
    z.Spares Everywhere files d (d.insert (z.place ns) e) := by
  have hother : ∀ ms, ms ≠ ns → (d.insert (z.place ns) e).get? (z.place ms) = d.get? (z.place ms) :=
    fun ms hms => Disk.get?_insert_of_ne d e fun he => hms (place_inj he)
  refine ⟨Disk.sameOutside_insert d (zone_prefix_place z ns) e, ?_,
    fun hd => hd.insert e (hproper hd), ?_, ?_⟩
  · intro hd loc target hloc
    by_cases he : loc = z.place ns
    · rw [he, Disk.get?_insert_self]
      exact fun h => hlink target (Option.some.inj h)
    · rw [Disk.get?_insert_of_ne d e he]
      exact hd loc target hloc
  · intro ms _ hms
    by_cases he : ms = ns
    · obtain ⟨mode, hmode⟩ := hdir (he ▸ hms)
      exact ⟨mode, by rw [he, Disk.get?_insert_self, hmode]⟩
    · rw [DirectoryAt, hother ms he]
      exact hms
  · intro ms bytes hms
    by_cases he : ms = ns
    · rw [he] at hms ⊢
      rw [← hfile hms bytes, FileAt, Disk.get?_insert_self]
      simp only [Option.some.injEq]
    · rw [FileAt, hother ms he, FileAt]

/-! ### Making directories -/

/-- Directories have come on the way to some names, and nothing else has changed. -/
structure Grown (z : Site) (ns : List String) (d d' : Disk) : Prop where
  outside : Disk.SameOutside z.zone d d'
  proper : d.Proper → d'.Proper
  kept : ∀ loc e, d.get? loc = some e → d'.get? loc = some e
  new : ∀ loc, d.get? loc = none → d'.get? loc = none
    ∨ ∃ ms, ms <+: ns ∧ loc = z.place ms ∧ ∃ mode, d'.get? loc = some (.directory mode)

theorem Grown.refl (z : Site) (ns : List String) (d : Disk) : z.Grown ns d d :=
  ⟨Disk.SameOutside.refl _ _, fun h => h, fun _ _ h => h, fun _ h => .inl h⟩

theorem Grown.mono (h : z.Grown ms d d') (hms : ms <+: ns) : z.Grown ns d d' := by
  refine ⟨h.outside, h.proper, h.kept, fun loc hloc => ?_⟩
  rcases h.new loc hloc with hnone | ⟨m, hm, hrest⟩
  · exact .inl hnone
  · exact .inr ⟨m, hm.trans hms, hrest⟩

theorem Grown.trans (h : z.Grown ns d d') (h' : z.Grown ns d' d'') : z.Grown ns d d'' := by
  refine ⟨h.outside.trans h'.outside, fun hd => h'.proper (h.proper hd),
    fun loc e he => h'.kept loc e (h.kept loc e he), ?_⟩
  intro loc hloc
  rcases h.new loc hloc with hnone | ⟨m, hm, hplace, mode, hmode⟩
  · exact h'.new loc hnone
  · exact .inr ⟨m, hm, hplace, mode, h'.kept loc _ hmode⟩

theorem Grown.spares (h : z.Grown ns d d') : z.Spares Everywhere Everywhere d d' := by
  refine ⟨h.outside, ?_, h.proper, ?_, ?_⟩
  · intro hd loc target hloc
    cases hget : d.get? loc with
    | some e =>
      rw [h.kept loc e hget, ← hget]
      exact hd loc target hloc
    | none =>
      rcases h.new loc hget with hnone | ⟨_, _, _, mode, hmode⟩
      · rw [hnone]
        exact fun e => by cases e
      · rw [hmode]
        exact fun e => by cases e
  · rintro ms - ⟨mode, hmode⟩
    exact ⟨mode, h.kept _ _ hmode⟩
  · intro ms bytes _
    constructor
    · rintro ⟨mode, hmode⟩
      cases hget : d.get? (z.place ms) with
      | some e =>
        rw [h.kept _ e hget] at hmode
        exact ⟨mode, hget.trans hmode⟩
      | none =>
        rcases h.new _ hget with hnone | ⟨_, _, _, mode', hmode'⟩
        · rw [hnone] at hmode
          cases hmode
        · rw [hmode'] at hmode
          cases hmode
    · rintro ⟨mode, hmode⟩
      exact ⟨mode, h.kept _ _ hmode⟩

theorem grown_insert {mode : Nat} (hproper : d.Proper → ∀ n, Name.text n ∈ z.place ns → Path.Proper n)
    (hnone : d.get? (z.place ns) = none) : z.Grown ns d (d.insert (z.place ns) (.directory mode)) := by
  refine ⟨Disk.sameOutside_insert d (zone_prefix_place z ns) _, fun hd => hd.insert _ (hproper hd), ?_, ?_⟩
  · intro loc e he
    rw [Disk.get?_insert_of_ne d _ fun hloc => by rw [hloc, hnone] at he; cases he]
    exact he
  · intro loc hloc
    by_cases he : loc = z.place ns
    · exact .inr ⟨ns, List.prefix_rfl, he, mode, by rw [he, Disk.get?_insert_self]⟩
    · rw [Disk.get?_insert_of_ne d _ he]
      exact .inl hloc

theorem Stands.makeDir_ok (hd : z.Stands d) (hp : z.Spells p ns) {mode : Nat} {u : Unit}
    (h : (Disk.makeDir p mode : DiskOp Unit) d = .ok u d') : z.Grown ns d d' ∧ z.HasDirectory d' ns := by
  obtain ⟨loc, hslot, rfl⟩ := except_map_eq_ok.mp (change_eq_ok.mp h)
  obtain ⟨hreach, rfl, hnone⟩ := hd.freeSlot_ok hp hslot
  have hgrown : z.Grown ns d (d.insert (z.place ns) (.directory mode)) :=
    grown_insert (fun hproper _ => hd.proper_place hproper hp) hnone
  exact ⟨hgrown, hgrown.spares.reaches hd hreach fun _ _ _ => trivial, mode, Disk.get?_insert_self _ _ _⟩

theorem makeDir_error {mode : Nat} {err : OsError} (h : (Disk.makeDir p mode : DiskOp Unit) d = .error err d') :
    d' = d ∧ d.freeSlot p = .error err := by
  unfold Disk.makeDir DiskOp.change at h
  dsimp only at h
  cases hslot : d.freeSlot p with
  | ok loc => rw [hslot] at h; cases h
  | error err' =>
    rw [hslot] at h
    cases h
    exact ⟨rfl, rfl⟩

theorem Stands.orDirectory_ok (hd : z.Stands d) (hp : z.Spells p ns) {u : Unit}
    (h : Disk.orDirectory p (Disk.makeDir p) d = .ok u d') : z.Grown ns d d' ∧ z.HasDirectory d' ns := by
  unfold Disk.orDirectory at h
  split at h
  · rename_i hmake
    cases h
    exact hd.makeDir_ok hp hmake
  · rename_i hmake
    obtain ⟨rfl, -⟩ := makeDir_error hmake
    split at h
    · rename_i hdir
      cases h
      exact ⟨Grown.refl _ _ _, hd.hasDirectory_ok hp hdir⟩
    · cases h

theorem flaw?_ne_notFound (h : p.spelling ≠ "") : p.flaw? ≠ some .notFound := by
  intro hflaw
  have hempty : ¬ p.spelling.isEmpty = true := fun he => h (String.isEmpty_iff.mp he)
  unfold Path.flaw? at hflaw
  split at hflaw
  · cases hflaw
  · split at hflaw
    · cases hflaw
    · cases hflaw

/-- What is missing is never the directory that holds the replica. -/
theorem Stands.freeSlot_ne_notFound (hd : z.Stands d) (hp : z.Spells p []) :
    d.freeSlot p ≠ .error .notFound := by
  intro h
  cases hflaw : p.flaw? with
  | some err =>
    have hslot : d.slot p = .error err := by simp only [Disk.slot, Disk.walkFrom, hflaw]
    rw [Disk.freeSlot, hslot] at h
    cases h
    exact flaw?_ne_notFound hp.spelling_ne hflaw
  | none =>
    obtain ⟨-, mode, hparent⟩ := hd.walk_parent
    have hbase : Disk.dirOf (d.descend z.base []) = .ok z.base :=
      dirOf_eq_ok_iff.mpr ⟨trivial, (List.append_nil _).symm, mode, Disk.get?_of_walkLinks hparent⟩
    have hslot : d.slot p = .ok ⟨z.base, some z.name⟩ := by
      rw [hd.slot_eq hp hflaw (List.nil_append [z.name]).symm, hbase]
      rfl
    unfold Disk.freeSlot at h
    rw [hslot] at h
    simp only [bind, Except.bind, Disk.entryAt] at h
    split at h
    · rename_i hat
      split at hat
      · cases hat
        cases h
      · cases hat
    · split at h
      · cases h
      · cases h

theorem Stands.makeDirsWithin_ok {depth : Nat} {u : Unit} (hd : z.Stands d) (hp : z.Spells p ns)
    (h : Disk.makeDirsWithin depth p d = .ok u d') : z.Grown ns d d' ∧ z.HasDirectory d' ns := by
  induction depth generalizing p ns d d' with
  | zero => exact hd.orDirectory_ok hp h
  | succ depth ih =>
    unfold Disk.makeDirsWithin at h
    split at h
    · rename_i hmake
      cases h
      exact hd.makeDir_ok hp hmake
    · rename_i hmake
      obtain ⟨rfl, hfree⟩ := makeDir_error hmake
      rcases List.eq_nil_or_concat ns with rfl | ⟨init, n, rfl⟩
      · exact absurd hfree (hd.freeSlot_ne_notFound hp)
      rw [List.concat_eq_append] at hp ⊢
      obtain ⟨q, hparent, hq, -⟩ := hp.exists_parent hd.proper
      rw [hparent] at h
      dsimp only at h
      have hne : q.spelling.isEmpty = false := by
        rw [Bool.eq_false_iff]
        exact fun he => hq.spelling_ne (String.isEmpty_iff.mp he)
      rw [hne, if_neg Bool.false_ne_true] at h
      split at h
      · rename_i hmakes
        obtain ⟨hgrown, -⟩ := ih hd hq hmakes
        obtain ⟨hgrown', hdir⟩ := (hgrown.spares.stands hd).orDirectory_ok hp h
        exact ⟨(hgrown.mono (List.prefix_append _ _)).trans hgrown', hdir⟩
      · cases h
    · rename_i hmake
      obtain ⟨rfl, -⟩ := makeDir_error hmake
      split at h
      · rename_i hdir
        cases h
        exact ⟨Grown.refl _ _ _, hd.hasDirectory_ok hp hdir⟩
      · cases h

theorem Stands.makeDirs_ok (hd : z.Stands d) (hp : z.Spells p ns) {u : Unit}
    (h : Disk.makeDirs p d = .ok u d') : z.Grown ns d d' ∧ z.HasDirectory d' ns := by
  have hne : ¬ p.spelling.isEmpty = true := fun he => hp.spelling_ne (String.isEmpty_iff.mp he)
  rw [Disk.makeDirs, if_neg hne] at h
  exact hd.makeDirsWithin_ok hp h

theorem Stands.ensureParent_ok (hd : z.Stands d) (hp : z.Spells p ns) (hflaw : p.flaw? = none) {u : Unit}
    (h : Replica.ensureParent p d = .ok u d') : z.Grown ns d d' := by
  unfold Replica.ensureParent at h
  rcases List.eq_nil_or_concat ns with rfl | ⟨init, n, rfl⟩
  · obtain ⟨q, hparent, hsound, hhas⟩ := hp.hasPath_parent hd
    rw [hparent] at h
    obtain ⟨b, t, hget, h⟩ := bind_eq_ok.mp h
    cases hget
    rw [if_pos (hhas (hsound hflaw))] at h
    cases h
    exact Grown.refl _ _ _
  · rw [List.concat_eq_append] at hp ⊢
    obtain ⟨q, hparent, hq, -⟩ := hp.exists_parent hd.proper
    rw [hparent] at h
    obtain ⟨b, t, hget, h⟩ := bind_eq_ok.mp h
    cases hget
    split at h
    · cases h
      exact Grown.refl _ _ _
    · exact (hd.makeDirs_ok hq (as_eq_ok.mp h)).1.mono (List.prefix_append _ _)

/-! ### Single entries -/

/-- The names that are not at or below some names. -/
def Beside (ns ms : List String) : Prop := ¬ ns <+: ms

/-- A file that is put where a path of the replica leads spares all others. -/
theorem Stands.put_ok (hd : z.Stands d) (hp : z.Spells p ns) {loc : Location} {mode? : Option Nat}
    (h : d.fileSlot p = .ok (loc, mode?)) (bytes : Text.Bytes) (mode : Nat) :
    z.Spares Everywhere (· ≠ ns) d (d.insert loc (.file bytes mode))
      ∧ z.HasFile (d.insert loc (.file bytes mode)) ns bytes := by
  obtain ⟨hreach, rfl, hfile⟩ := hd.fileSlot_ok hp h
  have hspares : z.Spares Everywhere (· ≠ ns) d (d.insert (z.place ns) (.file bytes mode)) := by
    refine z.spares_insert d ns (fun _ he => by cases he) (fun hproper _ => hd.proper_place hproper hp) ?_
      fun hne => absurd rfl hne
    rintro ⟨mode', hmode⟩
    exact absurd (hfile _ hmode) Bool.false_ne_true
  exact ⟨hspares, hspares.reaches hd hreach fun _ _ _ => trivial, mode, Disk.get?_insert_self _ _ _⟩

theorem Stands.diskWrite_ok (hd : z.Stands d) (hp : z.Spells p ns) {bytes : Text.Bytes} {u : Unit}
    (h : (Disk.write p bytes : DiskOp Unit) d = .ok u d') :
    z.Spares Everywhere (· ≠ ns) d d' ∧ z.HasFile d' ns bytes := by
  obtain ⟨⟨loc, mode?⟩, hslot, rfl⟩ := except_map_eq_ok.mp (change_eq_ok.mp h)
  exact hd.put_ok hp hslot bytes _

/-- A file is put where the path leads, with its octets and its mode, unless it is put over itself. -/
theorem Stands.copy_eq {source : Path} (hd : z.Stands d) (hp : z.Spells p ns) {u : Unit}
    (h : (Disk.copy source p : DiskOp Unit) d = .ok u d') :
    ∃ loc bytes mode mode?, d.stat source = .ok (loc, .file bytes mode) ∧ d.fileSlot p = .ok (z.place ns, mode?)
      ∧ d' = d.insert (z.place ns) (.file (if z.place ns = loc then [] else bytes) mode) := by
  have h := change_eq_ok.mp h
  split at h
  · rename_i loc bytes mode hstat
    obtain ⟨⟨loc', mode?⟩, hslot, rfl⟩ := except_map_eq_ok.mp h
    obtain ⟨-, rfl, -⟩ := hd.fileSlot_ok hp hslot
    exact ⟨loc, bytes, mode, mode?, hstat, hslot, rfl⟩
  · cases h
  · cases h

/-- A file from outside the replica is never put over itself. -/
theorem Stands.copy_eq_of_outside {source : Path} (hd : z.Stands d) (hp : z.Spells p ns) {u : Unit}
    (hsource : ∀ loc e, d.stat source = .ok (loc, e) → ¬ z.zone <+: loc)
    (h : (Disk.copy source p : DiskOp Unit) d = .ok u d') :
    ∃ loc bytes mode mode?, d.stat source = .ok (loc, .file bytes mode)
      ∧ d.fileSlot p = .ok (z.place ns, mode?) ∧ d' = d.insert (z.place ns) (.file bytes mode) := by
  obtain ⟨loc, bytes, mode, mode?, hstat, hslot, rfl⟩ := hd.copy_eq hp h
  have hne : z.place ns ≠ loc := fun heq => hsource loc _ hstat (heq ▸ zone_prefix_place z ns)
  exact ⟨loc, bytes, mode, mode?, hstat, hslot, by rw [if_neg hne]⟩

/-- The copy of a file has its octets. -/
theorem Stands.copy_ok {source : Path} (hd : z.Stands d) (hp : z.Spells p ns) {u : Unit}
    (hsource : ∀ loc e, d.stat source = .ok (loc, e) → ¬ z.zone <+: loc)
    (h : (Disk.copy source p : DiskOp Unit) d = .ok u d') :
    p.flaw? = none ∧ z.Spares Everywhere (· ≠ ns) d d'
      ∧ ∃ bytes, d.read source = .ok bytes ∧ z.HasFile d' ns bytes := by
  obtain ⟨loc, bytes, mode, mode?, hstat, hslot, rfl⟩ := hd.copy_eq_of_outside hp hsource h
  obtain ⟨hspares, hfile⟩ := hd.put_ok hp hslot bytes mode
  exact ⟨Disk.flaw?_of_fileSlot hslot, hspares, bytes, by rw [Disk.read, hstat], hfile⟩

theorem flaw?_of_write {bytes : Text.Bytes} {u : Unit}
    (h : (Disk.write p bytes : DiskOp Unit) d = .ok u d') : p.flaw? = none := by
  obtain ⟨_, hslot, -⟩ := except_map_eq_ok.mp (change_eq_ok.mp h)
  exact Disk.flaw?_of_fileSlot hslot

theorem Stands.setMode_ok (hd : z.Stands d) (hp : z.Spells p ns) {mode : Nat} {u : Unit}
    (h : Replica.setMode p mode d = .ok u d') : z.Spares Everywhere Everywhere d d' := by
  obtain ⟨⟨loc, e⟩, hstat, rfl⟩ := except_map_eq_ok.mp (change_eq_ok.mp (as_eq_ok.mp h))
  obtain ⟨-, rfl, hget⟩ := (hd.stat_eq_ok_iff hp (Disk.flaw?_of_stat hstat)).mp hstat
  apply spares_insert
  · intro target he
    cases e with
    | link target' => exact hd.unlinked _ _ (zone_prefix_place z ns) hget
    | file content mode' => cases he
    | directory mode' => cases he
  · exact fun hproper _ => hd.proper_place hproper hp
  · rintro ⟨mode', hdir⟩
    cases hget.symm.trans hdir
    exact ⟨mode, rfl⟩
  · intro _ bytes
    rw [FileAt, hget]
    cases e with
    | file content mode' => simp [Entry.withMode]
    | directory mode' => simp [Entry.withMode]
    | link target => simp [Entry.withMode]

/-- After a file was written, it is there, and all else is as it was. -/
theorem Stands.write_ok (hd : z.Stands d) (hp : z.Spells p ns) {bytes : Text.Bytes} {u : Unit}
    (h : Replica.write p bytes d = .ok u d') :
    p.flaw? = none ∧ z.Spares Everywhere (· ≠ ns) d d' ∧ z.HasFile d' ns bytes := by
  obtain ⟨_, t, hparent, hwrite⟩ := bind_eq_ok.mp h
  have hflaw := flaw?_of_write (as_eq_ok.mp hwrite)
  have hgrown := (hd.ensureParent_ok hp hflaw hparent).spares
  obtain ⟨hspares, hfile⟩ := (hgrown.stands hd).diskWrite_ok hp (as_eq_ok.mp hwrite)
  exact ⟨hflaw, (hgrown.mono (fun _ h => h) fun _ _ => trivial).trans hspares, hfile⟩

/-- After an empty file was made, it is there, and all else is as it was. -/
theorem Stands.createEmptyFile_ok (hd : z.Stands d) (hp : z.Spells p ns) {mode : Option Nat} {u : Unit}
    (h : (do Replica.ensureParent p; Replica.createEmptyFile p mode : ReplicaOp Unit) d = .ok u d') :
    p.flaw? = none ∧ z.Spares Everywhere (· ≠ ns) d d' ∧ z.HasFile d' ns [] := by
  obtain ⟨_, t, hparent, h⟩ := bind_eq_ok.mp h
  obtain ⟨_, t', hwrite, hmode⟩ := bind_eq_ok.mp h
  have hflaw := flaw?_of_write (as_eq_ok.mp hwrite)
  have hgrown := (hd.ensureParent_ok hp hflaw hparent).spares
  have ht := hgrown.stands hd
  obtain ⟨hspares, hfile⟩ := ht.diskWrite_ok hp (as_eq_ok.mp hwrite)
  have ht' := hspares.stands ht
  have hall := (hgrown.mono (fun _ h => h) fun _ _ => trivial).trans hspares
  cases mode with
  | none =>
    cases hmode
    exact ⟨hflaw, hall, hfile⟩
  | some m =>
    have hset := ht'.setMode_ok hp hmode
    exact ⟨hflaw, hall.trans (hset.mono (fun _ h => h) fun _ _ => trivial),
      hset.hasFile ht' hfile (fun _ _ _ => trivial) trivial⟩

/-- After a directory was made, it is there, and all else is as it was. -/
theorem Stands.createDir_ok (hd : z.Stands d) (hp : z.Spells p ns) {mode : Nat} {u : Unit}
    (h : Replica.createDir p mode d = .ok u d') :
    z.Spares Everywhere Everywhere d d' ∧ z.HasDirectory d' ns := by
  obtain ⟨_, t, hmake, hmode⟩ := bind_eq_ok.mp h
  obtain ⟨hgrown, hdir⟩ := hd.makeDirs_ok hp (as_eq_ok.mp hmake)
  have ht := hgrown.spares.stands hd
  have hset := ht.setMode_ok hp hmode
  exact ⟨hgrown.spares.trans hset, hset.reaches ht hdir.1 fun _ _ _ => trivial,
    hset.directory ns trivial hdir.2⟩

theorem modeOf_ok {dir : Path} {mode : Nat} (h : Replica.modeOf dir d = .ok mode d') : d' = d := by
  have h := as_eq_ok.mp h
  unfold DiskOp.ask at h
  split at h
  · cases h
    rfl
  · cases h

/-- The copy of a directory harms nothing that is there. -/
theorem Stands.copyDir_ok {r : Replica} {root dir : Path} (hd : z.Stands d)
    (hp : z.Spells (r.pathOf (dir.relativeTo root)) ns) {u : Unit} (h : r.copyDir root dir d = .ok u d') :
    z.Spares Everywhere Everywhere d d' := by
  obtain ⟨mode, t, hmode, hmake⟩ := bind_eq_ok.mp h
  rw [modeOf_ok hmode] at hmake
  exact (hd.createDir_ok hp hmake).1

/-! ### Removing -/

theorem spares_erase (z : Site) (d : Disk) (ns : List String) :
    z.Spares (Beside ns) (Beside ns) d (d.erase (z.place ns)) := by
  have hother : ∀ ms, Beside ns ms → (d.erase (z.place ns)).get? (z.place ms) = d.get? (z.place ms) :=
    fun ms hms => Disk.get?_erase_of_not_prefix d fun hp => hms (place_prefix_iff.mp hp)
  refine ⟨Disk.sameOutside_erase d (zone_prefix_place z ns), ?_, fun hd => hd.erase _, ?_, ?_⟩
  · intro hd loc target hloc
    by_cases hp : z.place ns <+: loc
    · rw [Disk.get?_erase_of_prefix d hp]
      exact fun e => by cases e
    · rw [Disk.get?_erase_of_not_prefix d hp]
      exact hd loc target hloc
  · intro ms hms h
    rw [DirectoryAt, hother ms hms]
    exact h
  · intro ms bytes hms
    rw [FileAt, hother ms hms, FileAt]

theorem spares_eraseBelow (z : Site) (d : Disk) (ns : List String) :
    z.Spares (Beside ns) (Beside ns) d (d.eraseBelow (z.place ns)) := by
  have hother : ∀ ms, Beside ns ms →
      (d.eraseBelow (z.place ns)).get? (z.place ms) = d.get? (z.place ms) :=
    fun ms hms => Disk.get?_eraseBelow d _ (.inr fun hp => hms (place_prefix_iff.mp hp))
  refine ⟨Disk.sameOutside_eraseBelow d (zone_prefix_place z ns), ?_, fun hd => hd.eraseBelow _, ?_, ?_⟩
  · intro hd loc target hloc hget
    have hmem := (List.mem_filter.mp (Disk.mem_of_get? hget)).2
    by_cases hself : loc = z.place ns
    · rw [Disk.get?_eraseBelow d _ (.inl hself)] at hget
      exact hd loc target hloc hget
    · by_cases hp : z.place ns <+: loc
      · simp [hself, List.isPrefixOf_iff_prefix.mpr hp] at hmem
      · rw [Disk.get?_eraseBelow d _ (.inr hp)] at hget
        exact hd loc target hloc hget
  · intro ms hms h
    rw [DirectoryAt, hother ms hms]
    exact h
  · intro ms bytes hms
    rw [FileAt, hother ms hms, FileAt]

/-- Nothing is at or below some names. -/
def Bare (z : Site) (d : Disk) (ns : List String) : Prop :=
  ∀ loc, z.place ns <+: loc → d.get? loc = none

theorem bare_erase (z : Site) (d : Disk) (ns : List String) : z.Bare (d.erase (z.place ns)) ns :=
  fun _ h => Disk.get?_erase_of_prefix d h

theorem Stands.removeFile_ok (hd : z.Stands d) (hp : z.Spells p ns) {u : Unit}
    (h : (Disk.removeFile p : DiskOp Unit) d = .ok u d') : d' = d.erase (z.place ns) := by
  have h := change_eq_ok.mp h
  obtain ⟨s, hslot, h⟩ := except_bind_eq_ok.mp h
  split at h
  · cases h
  · rename_i x hname
    obtain ⟨found, hat, h⟩ := except_bind_eq_ok.mp h
    obtain ⟨-, hloc, -⟩ := hd.slot_entry hp hslot hname hat
    split at h
    · cases h
    · cases h
    · rw [hp.noSeparator, if_neg Bool.false_ne_true] at h
      rw [← Except.ok.inj h, hloc]

theorem Stands.removeDir_ok (hd : z.Stands d) (hp : z.Spells p ns) {u : Unit}
    (h : (Disk.removeDir p : DiskOp Unit) d = .ok u d') : d' = d.erase (z.place ns) := by
  have h := change_eq_ok.mp h
  obtain ⟨s, hslot, h⟩ := except_bind_eq_ok.mp h
  split at h
  · cases h
  · rename_i x hname
    obtain ⟨found, hat, h⟩ := except_bind_eq_ok.mp h
    obtain ⟨-, hloc, -⟩ := hd.slot_entry hp hslot hname hat
    split at h
    · cases h
    · split at h
      · rw [← Except.ok.inj h, hloc]
      · cases h
    · cases h

/-- A directory whose contents are gone can be removed. -/
theorem Stands.removeDir_eq (hd : z.Stands d) (hp : z.Spells p ns) (hflaw : p.flaw? = none)
    (hdir : z.HasDirectory d ns) (hempty : d.below (z.place ns) = []) :
    (Disk.removeDir p : DiskOp Unit) d = .ok () (d.erase (z.place ns)) := by
  obtain ⟨s, x, hslot, hname, hloc, hat⟩ := hd.exists_slot hp hflaw hdir.1
  obtain ⟨mode, hget⟩ := hdir.2
  rw [hget] at hat
  simp only [Disk.removeDir, DiskOp.change, hslot, bind, Except.bind, hname, hat, hloc, hempty,
    List.isEmpty_nil, if_true]

theorem Stands.removeTree_eq (hd : z.Stands d) (hp : z.Spells p ns) (hflaw : p.flaw? = none)
    (hdir : z.HasDirectory d ns) :
    Disk.removeTree p d = .ok () ((d.eraseBelow (z.place ns)).erase (z.place ns)) := by
  obtain ⟨mode, hget⟩ := id hdir.2
  have hbelow := spares_eraseBelow z d ns
  have hdir' : z.HasDirectory (d.eraseBelow (z.place ns)) ns := by
    refine ⟨hbelow.reaches hd hdir.1 fun ms hms hne hns => hne (hms.eq_of_length ?_), mode, ?_⟩
    · exact Nat.le_antisymm hms.length_le hns.length_le
    · rw [Disk.get?_eraseBelow d _ (.inl rfl), hget]
  unfold Disk.removeTree
  rw [(hd.stat_eq_ok_iff hp hflaw).mpr ⟨hdir.1, rfl, hget⟩]
  simp only [(hbelow.stands hd).removeDir_eq hp hflaw hdir' (Disk.below_eraseBelow _ _)]

/-- A file to which directories lead can be removed. -/
theorem Stands.removeFile_eq (hd : z.Stands d) (hp : z.Spells p ns) (hflaw : p.flaw? = none)
    {bytes : Text.Bytes} (hfile : z.HasFile d ns bytes) :
    (Disk.removeFile p : DiskOp Unit) d = .ok () (d.erase (z.place ns)) := by
  obtain ⟨s, x, hslot, hname, hloc, hat⟩ := hd.exists_slot hp hflaw hfile.1
  obtain ⟨mode, hget⟩ := hfile.2
  rw [hget] at hat
  simp only [Disk.removeFile, DiskOp.change, hslot, bind, Except.bind, hname, hat, hloc,
    hp.noSeparator, Bool.false_eq_true, if_false]

/-- After something was removed no file is left at or below it, and all else is as it
    was. -/
theorem Stands.remove_ok (hd : z.Stands d) (hp : z.Spells p ns) {u : Unit}
    (h : Replica.remove p d = .ok u d') :
    z.Spares (Beside ns) (Beside ns) d d' ∧ ∀ ms bytes, ns <+: ms → ¬ z.HasFile d' ms bytes := by
  have herased : ∀ d₀ : Disk, z.Bare (d₀.erase (z.place ns)) ns →
      ∀ ms bytes, ns <+: ms → ¬ z.HasFile (d₀.erase (z.place ns)) ms bytes := by
    rintro d₀ hbare ms bytes hms ⟨-, mode, hget⟩
    rw [hbare _ (place_prefix_iff.mpr hms)] at hget
    cases hget
  unfold Replica.remove at h
  dsimp only at h
  cases hdir : d.hasDirectory p with
  | true =>
    have hhas := hd.hasDirectory_ok hp hdir
    have hflaw : p.flaw? = none := by
      cases hstat : d.stat p with
      | error err => rw [Disk.hasDirectory, hstat] at hdir; cases hdir
      | ok x => exact Disk.flaw?_of_stat hstat
    simp only [hdir, if_true, hd.removeTree_eq hp hflaw hhas] at h
    obtain rfl : _ = d' := (EStateM.Result.ok.inj (as_eq_ok.mp h ▸ hd.removeTree_eq hp hflaw hhas)).2.symm
    exact ⟨(spares_eraseBelow z d ns).trans (spares_erase z _ ns), herased _ (bare_erase z _ ns)⟩
  | false =>
    simp only [hdir, Bool.false_eq_true, if_false] at h
    split at h
    · rename_i hremove
      cases h
      have hsame : d' = d := by
        unfold Disk.removeFile DiskOp.change at hremove
        dsimp only at hremove
        split at hremove
        · cases hremove
        · exact (EStateM.Result.error.inj hremove).2.symm
      subst hsame
      refine ⟨Spares.refl _ _ _ _, fun ms bytes hms hfile => ?_⟩
      -- A file there would have been found.
      cases hflaw : p.flaw? with
      | some err =>
        have hslot : d'.slot p = .error err := by simp only [Disk.slot, Disk.walkFrom, hflaw]
        simp only [Disk.removeFile, DiskOp.change, hslot, bind, Except.bind] at hremove
        cases hremove
        exact flaw?_ne_notFound hp.spelling_ne hflaw
      | none =>
        obtain ⟨rest, rfl⟩ := hms
        by_cases hrest : rest = []
        · rw [hrest, List.append_nil] at hfile
          rw [hd.removeFile_eq hp hflaw hfile] at hremove
          cases hremove
        · rw [(hd.hasDirectory_iff hp hflaw).mpr ⟨hfile.1.of_append, hfile.1.directoryAt hrest⟩] at hdir
          cases hdir
    · have herase := hd.removeFile_ok hp (as_eq_ok.mp h)
      rw [herase]
      exact ⟨spares_erase z d ns, herased _ (bare_erase z _ ns)⟩

/-! ### Renaming -/

/-- The names that are at or below neither of two. -/
def Apart (ns ms os : List String) : Prop := Beside ns os ∧ Beside ms os

theorem spares_move (z : Site) (d : Disk) (ns ms : List String)
    (hproper : d.Proper → ∀ n, Name.text n ∈ z.place ms → Path.Proper n) :
    z.Spares (Apart ns ms) (Apart ns ms) d (d.move (z.place ns) (z.place ms)) := by
  have hother : ∀ os, Apart ns ms os →
      (d.move (z.place ns) (z.place ms)).get? (z.place os) = d.get? (z.place os) := fun os hos =>
    Disk.get?_move_of_not_prefix d (fun hp => hos.1 (place_prefix_iff.mp hp))
      fun hp => hos.2 (place_prefix_iff.mp hp)
  refine ⟨Disk.sameOutside_move d (zone_prefix_place z ns) (zone_prefix_place z ms), ?_,
    fun hd => hd.move _ (hproper hd), ?_, ?_⟩
  · intro hd loc target hloc
    by_cases hm : z.place ms <+: loc
    · obtain ⟨rest, rfl⟩ := hm
      rw [Disk.get?_move_target]
      exact hd _ target ((zone_prefix_place z ns).trans (List.prefix_append _ _))
    · by_cases hn : z.place ns <+: loc
      · rw [Disk.get?_move_source d hn hm]
        exact fun e => by cases e
      · rw [Disk.get?_move_of_not_prefix d hn hm]
        exact hd loc target hloc
  · intro os hos h
    rw [DirectoryAt, hother os hos]
    exact h
  · intro os bytes hos
    rw [FileAt, hother os hos, FileAt]

/-- What a renaming does: nothing, if both paths are the same, and else a move, over what
    the entry may replace, to a place that is neither above nor below. -/
inductive Renaming (z : Site) (ns ms : List String) (d : Disk) : Disk → Prop
  | same (h : ns = ms) : Renaming z ns ms d d
  | moved (e : Entry) (source : d.get? (z.place ns) = some e) (reach : z.Reaches d ms)
      (proper : d.Proper → ∀ n, Name.text n ∈ z.place ms → Path.Proper n)
      (below : ¬ ns <+: ms) (above : ¬ ms <+: ns) (free : d.mayReplace e (z.place ms) = .ok ()) :
      Renaming z ns ms d (d.move (z.place ns) (z.place ms))

theorem Stands.diskRename_ok (hd : z.Stands d) (hp : z.Spells p ns) (hq : z.Spells q ms) {u : Unit}
    (h : (Disk.rename p q : DiskOp Unit) d = .ok u d') : z.Renaming ns ms d d' := by
  have h := change_eq_ok.mp h
  obtain ⟨a, ha, h⟩ := except_bind_eq_ok.mp h
  obtain ⟨b, hb, h⟩ := except_bind_eq_ok.mp h
  split at h
  · rename_i x y hx hy
    obtain ⟨found, hat, h⟩ := except_bind_eq_ok.mp h
    obtain ⟨-, hold, hget⟩ := hd.slot_entry hp ha hx hat
    split at h
    · cases h
    · rename_i e
      obtain ⟨found', hat', h⟩ := except_bind_eq_ok.mp h
      obtain ⟨hreach, hnew, -⟩ := hd.slot_entry hq hb hy hat'
      rw [hold, hnew, hp.noSeparator, hq.noSeparator] at h
      rw [if_neg (by simp)] at h
      split at h
      · rename_i heq
        cases h
        exact .same (place_inj heq)
      · split at h
        · cases h
        · rename_i hbelow
          split at h
          · cases h
          · rename_i habove
            obtain ⟨_, hfree, rfl⟩ := except_map_eq_ok.mp h
            rw [List.isPrefixOf_iff_prefix, place_prefix_iff] at hbelow habove
            exact .moved e hget hreach (fun hproper _ => hd.proper_place hproper hq) hbelow habove hfree
  · cases h

namespace Renaming

theorem spares (h : z.Renaming ns ms d d') : z.Spares (Apart ns ms) (Apart ns ms) d d' := by
  cases h with
  | same _ => exact Spares.refl _ _ _ _
  | moved _ _ _ hproper _ _ _ => exact spares_move z d ns ms hproper

/-- A file that is replaced is replaced by a file. -/
theorem exists_hasFile (h : z.Renaming ns ms d d') (hd : z.Stands d) {bytes : Text.Bytes}
    (hfile : z.HasFile d ms bytes) : ∃ bytes', z.HasFile d' ms bytes' := by
  cases h with
  | same _ => exact ⟨bytes, hfile⟩
  | moved e hsource hreach hproper hbelow habove hfree =>
    obtain ⟨mode, hget⟩ := hfile.2
    have hmoved : (d.move (z.place ns) (z.place ms)).get? (z.place ms ++ []) = d.get? (z.place ns ++ []) :=
      Disk.get?_move_target d []
    rw [List.append_nil, List.append_nil, hsource] at hmoved
    have hreach' : z.Reaches (d.move (z.place ns) (z.place ms)) ms := by
      refine (spares_move z d ns ms hproper).reaches hd hreach fun os hos hne => ⟨?_, ?_⟩
      · exact fun hn => hbelow (hn.trans hos)
      · exact fun hm => hne (hos.eq_of_length (Nat.le_antisymm hos.length_le hm.length_le))
    unfold Disk.mayReplace at hfree
    rw [hget] at hfree
    cases e with
    | file content mode' => exact ⟨content, hreach', mode', hmoved⟩
    | directory mode' => cases hfree
    | link target => exact absurd hsource (hd.unlinked _ _ (zone_prefix_place z ns))

/-- A directory is not replaced when it holds a file. -/
theorem not_hasFile_below (h : z.Renaming ns ms d d') (hne : ns ≠ ms) {rest : List String}
    (hrest : rest ≠ []) (bytes : Text.Bytes) : ¬ z.HasFile d (ms ++ rest) bytes := by
  intro hfile
  cases h with
  | same h => exact hne h
  | moved e hsource hreach hproper hbelow habove hfree =>
    obtain ⟨mode, hdir⟩ := hfile.1.directoryAt hrest
    obtain ⟨mode', hget⟩ := hfile.2
    have hbelow : d.below (z.place ms) ≠ [] := by
      have hplace : z.place (ms ++ rest) = z.place ms ++ rest.map .text := by
        rw [place, place, List.map_append, List.append_assoc]
      rw [hplace] at hget
      exact Disk.below_ne_nil hget (by simpa using hrest)
    unfold Disk.mayReplace at hfree
    rw [hdir] at hfree
    have hempty : (d.below (z.place ms)).isEmpty = false := by
      rwa [List.isEmpty_eq_false_iff]
    cases e with
    | file content mode => cases hfree
    | link target => cases hfree
    | directory mode =>
      simp only [Entry.isDirectory, hempty, Bool.false_eq_true, if_false] at hfree
      cases hfree

/-- Nothing is left where something was moved away. -/
theorem bare (h : z.Renaming ns ms d d') (hne : ns ≠ ms) : z.Bare d' ns := by
  cases h with
  | same h => exact absurd h hne
  | moved e _ _ _ hbelow habove _ =>
    refine fun loc hloc => Disk.get?_move_source d hloc fun hloc' => ?_
    rcases List.prefix_or_prefix_of_prefix hloc hloc' with h | h
    · exact hbelow (place_prefix_iff.mp h)
    · exact habove (place_prefix_iff.mp h)

end Renaming

theorem flaw?_of_rename {u : Unit} (h : (Disk.rename p q : DiskOp Unit) d = .ok u d') : q.flaw? = none := by
  obtain ⟨a, -, h⟩ := except_bind_eq_ok.mp (change_eq_ok.mp h)
  obtain ⟨b, hb, -⟩ := except_bind_eq_ok.mp h
  exact Disk.flaw?_of_slot hb

/-- A renaming makes the directories above the new path before it moves anything. -/
theorem Stands.rename_ok (hd : z.Stands d) (hp : z.Spells p ns) (hq : z.Spells q ms) {u : Unit}
    (h : Replica.rename p q d = .ok u d') : ∃ t, z.Grown ms d t ∧ z.Renaming ns ms t d' := by
  obtain ⟨_, t, hparent, hrename⟩ := bind_eq_ok.mp h
  have hgrown := hd.ensureParent_ok hq (flaw?_of_rename (as_eq_ok.mp hrename)) hparent
  exact ⟨t, hgrown, (hgrown.spares.stands hd).diskRename_ok hp hq (as_eq_ok.mp hrename)⟩

end Site

end LiveWorkspace
