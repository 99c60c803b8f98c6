/-
  LiveWorkspace/Proofs/Replica/Attempts.lean
  ==========================================
  **What operations of a replica do, whether they succeed or fail.**

  To put something at some names, a replica makes the directories that are missing on the
  way.  An attempt that fails may have made some of them, and nothing else (`Lays`).  And it
  fails only where something of another kind stands in the way, or where the operating system
  does not take the path (`Attempt.succeeds`).  To remove something always leaves nothing
  (`remove_clears`).
-/
import LiveWorkspace.Proofs.Replica.Confined
import LiveWorkspace.Proofs.Replica.Contents
import LiveWorkspace.Proofs.Workspace.Keeping

namespace LiveWorkspace

theorem bind_eq_error {ε σ α β : Type} {act : EStateM ε σ β} {next : β → EStateM ε σ α} {e : ε} {s s' : σ} :
    (act >>= next) s = .error e s' ↔ act s = .error e s' ∨ ∃ b t, act s = .ok b t ∧ next b t = .error e s' := by
  simp only [bind, EStateM.bind]
  cases act s with
  | ok b t =>
    constructor
    · exact fun h => .inr ⟨b, t, rfl, h⟩
    · rintro (h | ⟨_, _, h, hnext⟩)
      · cases h
      · cases h
        exact hnext
  | error err t => simp

namespace Path

/-- A name that is no dot makes a component. -/
theorem length_names_le (p : Path) : (p.names.filter (· ≠ ".")).length ≤ p.components.length := by
  have hpieces : ∀ ps : List Piece, (∀ x ∈ ps, x ∈ p.pieces) →
      ((namesOf ps).filter (· ≠ ".")).length ≤ (ps.filterMap (·.component)).length := by
    intro ps
    induction ps with
    | nil => exact fun _ => Nat.le_refl _
    | cons x rest ih =>
      intro hps
      have hrest := ih fun y hy => hps y (List.mem_cons_of_mem x hy)
      have hsplit : namesOf (x :: rest) = namesOf [x] ++ namesOf rest := namesOf_append [x] rest
      rw [hsplit, List.filter_append, List.length_append]
      cases hx : x.component with
      | some c =>
        have hone : ((namesOf [x]).filter (· ≠ ".")).length ≤ 1 := by
          refine Nat.le_trans (List.length_filter_le _ _) ?_
          rw [namesOf, List.length_map]
          exact List.length_filter_le _ _
        rw [List.filterMap_cons_some hx, List.length_cons]
        exact Nat.le_trans (Nat.add_le_add hone hrest) (Nat.le_of_eq (Nat.add_comm _ _))
      | none =>
        have hnil : (namesOf [x]).filter (· ≠ ".") = [] := by
          refine List.filter_eq_nil_iff.mpr fun s hs => ?_
          have hpiece : ∀ y ∈ [x], y ∈ p.pieces := by simpa using hps x List.mem_cons_self
          simp [eq_dot_of_mem_namesOf hpiece (by simpa using hx) hs]
        rw [List.filterMap_cons_none hx, hnil]
        simpa using hrest
  rw [names_eq]
  exact hpieces _ fun _ hx => hx

end Path

namespace Disk

/-- Where nothing but directories is on the way and the way ends too soon, nothing is found. -/
theorem dirOf_descend_of_missing {d : Disk} {loc : Location} {ns : List String}
    (hloc : ∃ mode, d.get? loc = some (.directory mode)) (hshort : ∀ n ∈ ns, n.utf8ByteSize ≤ maxName)
    (hway : ∀ m, m ≠ [] → m <+: ns →
      d.get? (loc ++ m.map .text) = none ∨ ∃ mode, d.get? (loc ++ m.map .text) = some (.directory mode))
    (hnone : d.get? (loc ++ ns.map .text) = none) : dirOf (d.descend loc ns) = .error .notFound := by
  induction ns generalizing loc with
  | nil =>
    obtain ⟨mode, hdir⟩ := hloc
    simp [hdir] at hnone
  | cons n rest ih =>
    obtain ⟨mode, hdir⟩ := hloc
    simp only [descend, hdir, entryAt_of_le (hshort n List.mem_cons_self)]
    rcases hway [n] (List.cons_ne_nil n []) ⟨rest, rfl⟩ with hnext | ⟨mode', hnext⟩
    · rw [List.map_cons, List.map_nil] at hnext
      simp only [hnext]
      split <;> rfl
    · rw [List.map_cons, List.map_nil] at hnext
      simp only [hnext]
      refine ih ⟨mode', hnext⟩ (fun x hx => hshort x (List.mem_cons_of_mem n hx)) (fun m hm hpre => ?_) ?_
      · rw [← append_map_cons]
        exact hway (n :: m) (List.cons_ne_nil n m) (List.cons_prefix_cons.mpr ⟨rfl, hpre⟩)
      · rw [← append_map_cons]
        exact hnone

end Disk

namespace Site

variable {z : Site} {d₀ d d' d'' : Disk} {p : Path} {q ms init : List String} {k : Node} {n : String}

/-! ### What may have been done -/

/-- Something may have been put at some names, and directories have come on the way. -/
structure Lays (z : Site) (q : List String) (k : Node) (d d' : Disk) : Prop where
  outside : Disk.SameOutside z.zone d d'
  frame : ∀ r, z.node d' r = z.node d r
    ∨ (z.node d r = none ∧ z.node d' r = some .directory ∧ r <+: q ∧ r ≠ q)
    ∨ (r = q ∧ z.node d' r = some k)

namespace Lays

theorem refl (z : Site) (q : List String) (k : Node) (d : Disk) : z.Lays q k d d := ⟨.refl _ d, fun _ => .inl rfl⟩

theorem trans (h : z.Lays q k d d') (h' : z.Lays q k d' d'') : z.Lays q k d d'' := by
  refine ⟨h.outside.trans h'.outside, fun r => ?_⟩
  rcases h'.frame r with hsame | ⟨hnone, hdir, hway⟩ | hend
  · rw [hsame]
    exact h.frame r
  · rcases h.frame r with hold | ⟨-, hdir', -⟩ | ⟨-, hk⟩
    · exact .inr (.inl ⟨hold ▸ hnone, hdir, hway⟩)
    · simp [hdir'] at hnone
    · simp [hk] at hnone
  · exact .inr (.inr hend)

/-- An entry is put at some names on the way or at its end, or one like that is there. -/
theorem insert {e : Entry} (he : z.node d ms = none ∧ e.node? = some .directory ∧ ms <+: q ∧ ms ≠ q
      ∨ ms = q ∧ e.node? = some k ∨ e.node? = z.node d ms) : z.Lays q k d (d.insert (z.place ms) e) := by
  refine ⟨Disk.sameOutside_insert d (zone_prefix_place z ms) e, fun r => ?_⟩
  by_cases hr : r = ms
  · rw [hr, node_insert_self]
    rcases he with hway | hend | hsame
    · exact .inr (.inl hway)
    · exact .inr (.inr hend)
    · exact .inl hsame
  · exact .inl (node_insert_of_ne e hr)

end Lays

/-- The site is tidy, and what has been done so far is right. -/
structure Laid (z : Site) (q : List String) (k : Node) (d₀ d : Disk) : Prop where
  tidy : z.Tidy d
  lays : z.Lays q k d₀ d

theorem Laid.step (h : z.Laid q k d₀ d) (htidy : z.Tidy d') (hlays : z.Lays q k d d') : z.Laid q k d₀ d' :=
  ⟨htidy, h.lays.trans hlays⟩

theorem makeDir_lays (hp : z.Spells p ms) (hms : ms <+: q) (hk : ms = q → k = .directory) (mode : Nat) :
    Preserves (z.Laid q k d₀) (Disk.makeDir p mode) := by
  refine Preserves.change fun d d' h hok => ?_
  obtain ⟨loc, hslot, rfl⟩ := except_map_eq_ok.mp (change_eq_ok.mp hok)
  obtain ⟨hreach, rfl, hnone⟩ := h.tidy.stands.freeSlot_ok hp hslot
  refine h.step (h.tidy.insert hp hreach (fun _ he => by cases he) fun _ => ⟨mode, rfl⟩) (Lays.insert ?_)
  by_cases heq : ms = q
  · exact .inr (.inl ⟨heq, by rw [hk heq, Entry.node?_directory]⟩)
  · exact .inl ⟨h.tidy.node_eq_none_iff.mpr hnone, rfl, hms, heq⟩

theorem makeDirs_lays (hp : z.Spells p ms) (hms : ms <+: q) (hk : ms = q → k = .directory) :
    Preserves (z.Laid q k d₀) (Disk.makeDirs p) := by
  refine makeDirs_preserves (fun _ h => h.tidy.stands) (fun p r hp hr => ?_) hp List.prefix_rfl
  refine makeDir_lays hp (hr.trans hms) (fun heq => hk ?_) _
  exact hms.eq_of_length (Nat.le_antisymm hms.length_le (heq ▸ hr.length_le))

theorem ensureParent_lays (hp : z.Spells p q) : Preserves (z.Laid q k d₀) (Replica.ensureParent p) := by
  intro d h
  unfold Replica.ensureParent
  rcases List.eq_nil_or_concat q with rfl | ⟨init, n, rfl⟩
  · obtain ⟨p', hparent, -, hhas⟩ := hp.hasPath_parent h.tidy.stands
    rw [hparent]
    dsimp only
    rw [wp_bind, wp_get]
    refine (wp_ite _ _).mpr ⟨fun _ => (wp_pure _).mpr h, fun hmissing => ?_⟩
    exact (makeDirs_of_flaw fun hflaw => hmissing (hhas hflaw)).as _ _ d h
  · rw [List.concat_eq_append] at hp h ⊢
    obtain ⟨p', hparent, hp', -⟩ := hp.exists_parent h.tidy.stands.proper
    rw [hparent]
    dsimp only
    rw [wp_bind, wp_get]
    refine (wp_ite _ _).mpr ⟨fun _ => (wp_pure _).mpr h, fun _ => ?_⟩
    exact (makeDirs_lays hp' (List.prefix_append init [n]) fun heq => by simp at heq).as _ _ d h

theorem diskWrite_lays (hp : z.Spells p q) (content : Text.Bytes) :
    Preserves (z.Laid q (.file content) d₀) (Disk.write p content) := by
  refine Preserves.change fun d d' h hok => ?_
  obtain ⟨⟨loc, mode?⟩, hslot, rfl⟩ := except_map_eq_ok.mp (change_eq_ok.mp hok)
  obtain ⟨hreach, rfl, hfile⟩ := h.tidy.stands.fileSlot_ok hp hslot
  refine h.step (h.tidy.insert hp hreach (fun _ he => by cases he) ?_) (Lays.insert (.inr (.inl ⟨rfl, rfl⟩)))
  rintro ⟨mode, hdir⟩
  cases hfile _ hdir

/-- A file is copied with what it holds. -/
theorem copy_lays (hp : z.Spells p q) {source : Path} {content : Text.Bytes}
    (hsource : ∀ d, z.Laid q (.file content) d₀ d → ∀ loc e, d.stat source = .ok (loc, e) →
      e.node? = some (.file content) ∧ ¬ z.zone <+: loc) :
    Preserves (z.Laid q (.file content) d₀) (Disk.copy source p) := by
  refine Preserves.change fun d d' h hok => ?_
  obtain ⟨loc, bytes, mode, mode?, hstat, hslot, rfl⟩ :=
    h.tidy.stands.copy_eq_of_outside hp (fun loc e hstat => (hsource d h loc e hstat).2) hok
  obtain ⟨hsame, -⟩ := hsource d h loc _ hstat
  obtain ⟨hreach, -, hfile⟩ := h.tidy.stands.fileSlot_ok hp hslot
  refine h.step (h.tidy.insert hp hreach (fun _ he => by cases he) ?_) (Lays.insert (.inr (.inl ⟨rfl, hsame⟩)))
  rintro ⟨mode, hdir⟩
  cases hfile _ hdir

theorem setMode_lays (hp : z.Spells p q) (mode : Nat) : Preserves (z.Laid q k d₀) (Replica.setMode p mode) := by
  refine Preserves.as (Preserves.change fun d d' h hok => ?_) _ _
  obtain ⟨⟨loc, e⟩, hstat, rfl⟩ := except_map_eq_ok.mp (change_eq_ok.mp hok)
  obtain ⟨hreach, rfl, hget⟩ := (h.tidy.stands.stat_eq_ok_iff hp (Disk.flaw?_of_stat hstat)).mp hstat
  have hsame : (e.withMode mode).node? = z.node d q := by
    rw [node, hget]
    cases e <;> rfl
  refine h.step (h.tidy.insert hp hreach (fun target he => ?_) ?_) (Lays.insert (.inr (.inr hsame)))
  · cases e with
    | link target' => exact h.tidy.stands.unlinked _ _ (zone_prefix_place z q) hget
    | file content mode' => cases he
    | directory mode' => cases he
  · rintro ⟨mode', hdir⟩
    cases hget.symm.trans hdir
    exact ⟨mode, rfl⟩

theorem write_lays (hp : z.Spells p q) (content : Text.Bytes) :
    Preserves (z.Laid q (.file content) d₀) (Replica.write p content) :=
  Preserves.bind (ensureParent_lays hp) fun _ => (diskWrite_lays hp content).as _ _

theorem createDir_lays (hp : z.Spells p q) (mode : Nat) :
    Preserves (z.Laid q .directory d₀) (Replica.createDir p mode) :=
  Preserves.bind ((makeDirs_lays hp List.prefix_rfl fun _ => rfl).as _ _) fun _ => setMode_lays hp mode

theorem adopt_lays (hp : z.Spells p q) (dir : Path) :
    Preserves (z.Laid q .directory d₀) (do Replica.createDir p (← Replica.modeOf dir)) :=
  Preserves.bind ((Preserves.ask _).as _ _) fun mode => createDir_lays hp mode

theorem create_lays (hp : z.Spells p q) (mode : Option Nat) :
    Preserves (z.Laid q (.file []) d₀) (do Replica.ensureParent p; Replica.createEmptyFile p mode) := by
  refine Preserves.bind (ensureParent_lays hp) fun _ => ?_
  unfold Replica.createEmptyFile
  refine Preserves.bind ((diskWrite_lays hp []).as _ _) fun _ => ?_
  split
  · exact setMode_lays hp _
  · exact Preserves.pure _

/-! ### Where an attempt succeeds -/

/-- Nothing of another kind is on the way to some names or at its end, and no name is too long. -/
structure Free (z : Site) (d : Disk) (q : List String) (k : Node) : Prop where
  way : ∀ r k', r <+: q → r ≠ q → z.node d r = some k' → k' = .directory
  last : ∀ k', z.node d q = some k' → k'.isDirectory = k.isDirectory
  short : ∀ n ∈ z.name :: q, n.utf8ByteSize ≤ maxName

namespace Free

theorem parent (h : z.Free d (init ++ [n]) k) : z.Free d init .directory := by
  have hne : ∀ r, r <+: init → r ≠ init ++ [n] := by
    rintro r hr rfl
    have hlen := hr.length_le
    rw [List.length_append] at hlen
    exact absurd hlen (Nat.not_succ_le_self _)
  refine ⟨fun r k' hr _ => h.way r k' (hr.trans (List.prefix_append init [n])) (hne r hr), fun k' hk' => ?_,
    fun x hx => h.short x ?_⟩
  · rw [h.way init k' (List.prefix_append init [n]) (hne init List.prefix_rfl) hk']
  · rcases List.mem_cons.mp hx with hx | hx
    · exact List.mem_cons.mpr (.inl hx)
    · exact List.mem_cons_of_mem _ (List.mem_append_left [n] hx)

theorem last_directory (h : z.Free d q .directory) {k' : Node} (hk' : z.node d q = some k') : k' = .directory :=
  Node.isDirectory_eq_true_iff.mp (h.last k' hk')

/-- What has come on the way is in nobody's way. -/
theorem of_lays {k' : Node} (h : z.Free d q k) (hlays : z.Lays ms k' d d') (hms : ms <+: q)
    (hk' : k'.isDirectory = if ms = q then k.isDirectory else true) : z.Free d' q k := by
  refine ⟨fun r k₁ hr hne hk₁ => ?_, fun k₁ hk₁ => ?_, h.short⟩
  · rcases hlays.frame r with hsame | ⟨-, hdir, -⟩ | ⟨rfl, hend⟩
    · exact h.way r k₁ hr hne (hsame ▸ hk₁)
    · exact (Option.some.inj (hdir.symm.trans hk₁)).symm
    · rw [if_neg hne] at hk'
      exact Node.isDirectory_eq_true_iff.mp (Option.some.inj (hend.symm.trans hk₁) ▸ hk')
  · rcases hlays.frame q with hsame | ⟨-, -, hq, hne⟩ | ⟨rfl, hend⟩
    · exact h.last k₁ (hsame ▸ hk₁)
    · exact absurd (hq.eq_of_length (Nat.le_antisymm hq.length_le hms.length_le)) hne
    · rw [if_pos rfl] at hk'
      exact Option.some.inj (hend.symm.trans hk₁) ▸ hk'

/-- Directories that come on the way are in nobody's way. -/
theorem of_grown (h : z.Free d q k) (hgrown : z.Grown ms d d') (hms : ms <+: q) (hk : ms = q → k = .directory) :
    z.Free d' q k := by
  have hnode : ∀ r k₁, z.node d' r = some k₁ → z.node d r = some k₁ ∨ r <+: ms ∧ k₁ = .directory := by
    intro r k₁ hk₁
    rw [node] at hk₁ ⊢
    cases hold : d.get? (z.place r) with
    | some e =>
      rw [hgrown.kept _ e hold] at hk₁
      exact .inl hk₁
    | none =>
      rcases hgrown.new _ hold with hnone | ⟨ms', hms', hplace, mode, hdir⟩
      · simp [hnone] at hk₁
      · rw [hdir] at hk₁
        exact .inr ⟨place_inj hplace ▸ hms', (Option.some.inj hk₁).symm⟩
  refine ⟨fun r k₁ hr hne hk₁ => ?_, fun k₁ hk₁ => ?_, h.short⟩
  · exact (hnode r k₁ hk₁).elim (h.way r k₁ hr hne) fun hnew => hnew.2
  · rcases hnode q k₁ hk₁ with hold | ⟨hq, rfl⟩
    · exact h.last k₁ hold
    · rw [hk (hms.eq_of_length (Nat.le_antisymm hms.length_le hq.length_le))]

end Free

namespace Tidy

theorem hasPath_iff (h : z.Tidy d) (hp : z.Spells p q) (hflaw : p.flaw? = none) :
    d.hasPath p = true ↔ z.node d q ≠ none := by
  rw [Disk.hasPath, Ne, h.node_eq_none_iff]
  constructor
  · intro hhas
    cases hstat : d.stat p with
    | error err => simp [hstat, Except.toOption] at hhas
    | ok x =>
      obtain ⟨-, hplace, hget⟩ := (h.stands.stat_eq_ok_iff hp hflaw).mp hstat
      simp [← hplace, hget]
  · intro hsome
    obtain ⟨e, he⟩ := Option.ne_none_iff_exists'.mp hsome
    have hreach := h.reaches (q := q) (by rwa [Ne, h.node_eq_none_iff])
    rw [(h.stands.stat_eq_ok_iff hp hflaw).mpr ⟨hreach, rfl, he⟩]
    rfl

theorem node_eq_none_of_hasPath (h : z.Tidy d) (hp : z.Spells p q) (hflaw : p.flaw? = none)
    (hhas : d.hasPath p = false) : z.node d q = none := by
  cases hk : z.node d q with
  | none => rfl
  | some k => simp [(h.hasPath_iff hp hflaw).mpr (by simp [hk])] at hhas

end Tidy

/-- The directory that holds the site. -/
theorem Stands.base (h : z.Stands d) : ∃ mode, d.get? z.base = some (.directory mode) := by
  obtain ⟨mode, hstat⟩ := h.reached d (.refl _ d)
  exact ⟨mode, Disk.get?_of_stat hstat⟩

theorem Stands.reaches_nil (h : z.Stands d) (hname : z.name.utf8ByteSize ≤ maxName) : z.Reaches d [] := ⟨h.base, hname, trivial⟩

/-- A file is written or found where the way is there. -/
theorem Stands.fileSlot_of_reaches (h : z.Stands d) (hp : z.Spells p q) (hflaw : p.flaw? = none) (hreach : z.Reaches d q)
    {content : Text.Bytes} (hfree : z.Free d q (.file content)) : ∃ mode?, d.fileSlot p = .ok (z.place q, mode?) := by
  rw [Disk.fileSlot, if_neg (by rw [hp.noSeparator]; decide), h.resolve_eq hp hflaw]
  cases hget : d.get? (z.place q) with
  | none =>
    have hinit : ∃ dir name, dir ++ [name] = z.place q := by
      obtain ⟨init, x, -, hplace⟩ := z.exists_concat q
      exact ⟨_, _, hplace⟩
    obtain ⟨dir, name, hplace⟩ := hinit
    have hdescend : d.descend z.base (z.name :: q) = .ok (.absent dir name) := Disk.descend_eq_absent_iff.mpr
      ⟨hreach, List.cons_ne_nil _ _, by rw [← place_eq]; exact hplace, by rw [← place_eq]; exact hget⟩
    exact ⟨none, by simp only [hdescend, hplace]⟩
  | some e =>
    have hdescend : d.descend z.base (z.name :: q) = .ok (.present (z.place q) e) :=
      Disk.descend_eq_present_iff.mpr ⟨hreach, (place_eq z q), hget⟩
    cases e with
    | file old mode => exact ⟨some mode, by simp only [hdescend]⟩
    | directory mode => cases hfree.last .directory (node_eq_directory_iff.mpr ⟨mode, hget⟩)
    | link target => exact absurd hget (h.unlinked _ target (zone_prefix_place z q))

namespace Passable

/-- Where a directory is missing on the way, that is what is said of the path. -/
theorem slot_of_missing (h : z.Passable d) (hp : z.Spells p (init ++ [n])) (hflaw : p.flaw? = none)
    (hfree : z.Free d (init ++ [n]) k) (hnone : z.node d init = none) : d.slot p = .error .notFound := by
  have hinit := hfree.parent
  have hmissing : Disk.dirOf (d.descend z.base (z.name :: init)) = .error .notFound := by
    refine Disk.dirOf_descend_of_missing h.stands.base hinit.short (fun m hm hpre => ?_) ?_
    · obtain ⟨x, m, rfl⟩ := List.exists_cons_of_ne_nil hm
      obtain ⟨rfl, hm'⟩ := List.cons_prefix_cons.mp hpre
      rw [← place_eq, ← h.stands.node_eq_none_iff]
      cases hk : z.node d m with
      | none => exact .inl rfl
      | some k' =>
        refine .inr (node_eq_directory_iff.mp ?_)
        by_cases heq : m = init
        · simp [heq, hnone] at hk
        · rw [hk, hinit.way m k' hm' heq hk]
    · rw [← place_eq, ← h.stands.node_eq_none_iff]
      exact hnone
  rw [h.stands.slot_eq hp hflaw (List.cons_append).symm, hmissing]
  rfl

/-- Where the way is there, a directory is made or found. -/
theorem makeDir_of_reaches (h : z.Passable d) (hp : z.Spells p q) (hflaw : p.flaw? = none) (hreach : z.Reaches d q)
    (hfree : z.Free d q .directory) :
    (∃ d', (Disk.makeDir p : DiskOp Unit) d = .ok () d')
      ∨ (Disk.makeDir p : DiskOp Unit) d = .error .alreadyExists d ∧ d.hasDirectory p = true := by
  obtain ⟨s, x, hslot, hname, hplace, hat⟩ := h.stands.exists_slot hp hflaw hreach
  cases hget : d.get? (z.place q) with
  | none =>
    refine .inl ⟨_, change_eq_ok.mpr (except_map_eq_ok.mpr ⟨z.place q, ?_, rfl⟩)⟩
    simp only [Disk.freeSlot, hslot, bind, Except.bind, hname, hat, hget, hplace]
  | some e =>
    have hnode : z.node d q ≠ none := by simp [h.stands.node_eq_none_iff, hget]
    obtain ⟨k', hk'⟩ := Option.ne_none_iff_exists'.mp hnode
    refine .inr ⟨?_, (h.stands.hasDirectory_iff hp hflaw).mpr (h.hasDirectory_iff.mpr ?_)⟩
    · simp only [Disk.makeDir, DiskOp.change, Disk.freeSlot, hslot, bind, Except.bind, hname, hat, hget, Except.map]
    · rw [hk', hfree.last_directory hk']

theorem orDirectory_of_reaches (h : z.Passable d) (hp : z.Spells p q) (hflaw : p.flaw? = none) (hreach : z.Reaches d q)
    (hfree : z.Free d q .directory) : ∃ d', Disk.orDirectory p (Disk.makeDir p) d = .ok () d' := by
  unfold Disk.orDirectory
  rcases h.makeDir_of_reaches hp hflaw hreach hfree with ⟨d', hmake⟩ | ⟨hmake, hdir⟩
  · exact ⟨d', by rw [hmake]⟩
  · exact ⟨d, by rw [hmake]; simp only [hdir, if_true]⟩

theorem makeDirsWithin_succeeds {depth : Nat} (h : z.Passable d) (hp : z.Spells p q) (hflaw : p.flaw? = none)
    (hfree : z.Free d q .directory) (hdepth : q.length ≤ depth) : ∃ d', Disk.makeDirsWithin depth p d = .ok () d' := by
  induction depth generalizing p q with
  | zero =>
    obtain rfl := List.length_eq_zero_iff.mp (Nat.le_zero.mp hdepth)
    exact h.orDirectory_of_reaches hp hflaw (h.stands.reaches_nil (hfree.short _ List.mem_cons_self)) hfree
  | succ depth ih =>
    unfold Disk.makeDirsWithin
    rcases List.eq_nil_or_concat q with rfl | ⟨init, n, rfl⟩
    · rcases h.makeDir_of_reaches hp hflaw (h.stands.reaches_nil (hfree.short _ List.mem_cons_self)) hfree with
        ⟨d', hmake⟩ | ⟨hmake, hdir⟩
      · exact ⟨d', by rw [hmake]⟩
      · exact ⟨d, by rw [hmake]; simp only [hdir, if_true]⟩
    rw [List.concat_eq_append] at hp hfree hdepth
    have hn : n.utf8ByteSize ≤ maxName := hfree.short n (by simp)
    cases hparent : z.node d init with
    | some k' =>
      rw [hfree.parent.last_directory hparent] at hparent
      rcases h.makeDir_of_reaches hp hflaw (h.reaches_concat hparent hn) hfree with ⟨d', hmake⟩ | ⟨hmake, hdir⟩
      · exact ⟨d', by rw [hmake]⟩
      · exact ⟨d, by rw [hmake]; simp only [hdir, if_true]⟩
    | none =>
      have hmake : (Disk.makeDir p : DiskOp Unit) d = .error .notFound d := by
        simp only [Disk.makeDir, DiskOp.change, Disk.freeSlot, h.slot_of_missing hp hflaw hfree hparent, bind,
          Except.bind,
          Except.map]
      obtain ⟨p', hp', hspells, hflaw'⟩ := hp.exists_parent h.stands.proper
      have hne : ¬ p'.spelling.isEmpty = true := fun he => hspells.spelling_ne (String.isEmpty_iff.mp he)
      rw [List.length_append, List.length_singleton] at hdepth
      obtain ⟨d', hmakes⟩ := ih hspells (hflaw' hflaw) hfree.parent (Nat.le_of_succ_le_succ hdepth)
      -- Once the directory above is there, this one is made as well.
      obtain ⟨hgrown, hreach, hdir⟩ := h.stands.makeDirsWithin_ok hspells hmakes
      have h' := h.grown hgrown hreach
      have hfree' : z.Free d' (init ++ [n]) .directory :=
        hfree.of_grown hgrown (List.prefix_append init [n]) fun heq => by simp at heq
      obtain ⟨d'', hlast⟩ :=
        h'.orDirectory_of_reaches hp hflaw (h'.reaches_concat (node_eq_directory_iff.mpr hdir) hn) hfree'
      refine ⟨d'', ?_⟩
      simp only [hmake, hp', if_neg hne, hmakes, hlast]

theorem makeDirs_succeeds (h : z.Passable d) (hp : z.Spells p q) (hflaw : p.flaw? = none)
    (hfree : z.Free d q .directory) : ∃ d', Disk.makeDirs p d = .ok () d' := by
  have hne : ¬ p.spelling.isEmpty = true := fun he => hp.spelling_ne (String.isEmpty_iff.mp he)
  rw [Disk.makeDirs, if_neg hne]
  refine h.makeDirsWithin_succeeds hp hflaw hfree ?_
  obtain ⟨r, hnames, hfilter, -⟩ := hp.names
  refine Nat.le_trans ?_ p.length_names_le
  rw [hnames, List.filter_append, cons_name_filter h.stands, hfilter, List.length_append, List.length_cons]
  omega

theorem setMode_succeeds (h : z.Passable d) (hp : z.Spells p q) (hflaw : p.flaw? = none) (hq : z.node d q ≠ none)
    (mode : Nat) : ∃ d', Replica.setMode p mode d = .ok () d' := by
  rw [Ne, h.stands.node_eq_none_iff] at hq
  obtain ⟨e, he⟩ := Option.ne_none_iff_exists'.mp hq
  have hstat : d.stat p = .ok (z.place q, e) := (h.stands.stat_eq_ok_iff hp hflaw).mpr ⟨h.reaches q hq, rfl, he⟩
  have hset : (Disk.setMode p mode : DiskOp Unit) d = .ok () (d.insert (z.place q) (e.withMode mode)) := by
    simp only [Disk.setMode, DiskOp.change, hstat, Except.map]
  exact ⟨_, as_eq_ok.mpr hset⟩

theorem createDir_succeeds (h : z.Passable d) (hp : z.Spells p q) (hflaw : p.flaw? = none) (mode : Nat)
    (hfree : z.Free d q .directory) : ∃ d', Replica.createDir p mode d = .ok () d' := by
  obtain ⟨d₁, hmakes⟩ := h.makeDirs_succeeds hp hflaw hfree
  obtain ⟨hgrown, hreach, hdir⟩ := h.stands.makeDirs_ok hp hmakes
  have hsome : z.node d₁ q ≠ none := by simp [node_eq_directory_iff.mpr hdir]
  obtain ⟨d₂, hmode⟩ := (h.grown hgrown hreach).setMode_succeeds hp hflaw hsome mode
  exact ⟨d₂, bind_eq_ok.mpr ⟨(), d₁, as_eq_ok.mpr hmakes, hmode⟩⟩

end Passable

namespace Tidy

/-- Once the directories above it are made, a place is reached. -/
theorem ensureParent_succeeds (h : z.Tidy d) (hp : z.Spells p q) (hflaw : p.flaw? = none) (hfree : z.Free d q k) :
    ∃ d', Replica.ensureParent p d = .ok () d' ∧ z.Reaches d' q := by
  unfold Replica.ensureParent
  rcases List.eq_nil_or_concat q with rfl | ⟨init, n, rfl⟩
  · obtain ⟨p', hparent, hsound, hhas⟩ := hp.hasPath_parent h.stands
    refine ⟨d, ?_, h.stands.reaches_nil (hfree.short _ List.mem_cons_self)⟩
    simp only [hparent, bind_eq_ok]
    exact ⟨d, d, rfl, by rw [if_pos (hhas (hsound hflaw))]; rfl⟩
  · rw [List.concat_eq_append] at hp hfree ⊢
    obtain ⟨p', hparent, hp', hflaw'⟩ := hp.exists_parent h.stands.proper
    have hn : n.utf8ByteSize ≤ maxName := hfree.short n (by simp)
    simp only [hparent, bind_eq_ok]
    cases hhas : d.hasPath p' with
    | true =>
      refine ⟨d, ⟨d, d, rfl, by rw [if_pos hhas]; rfl⟩, h.reaches_concat ?_ hn⟩
      obtain ⟨k', hk'⟩ := Option.ne_none_iff_exists'.mp ((h.hasPath_iff hp' (hflaw' hflaw)).mp hhas)
      rw [hk', hfree.parent.last_directory hk']
    | false =>
      obtain ⟨d', hmakes⟩ := h.passable.makeDirs_succeeds hp' (hflaw' hflaw) hfree.parent
      refine ⟨d', ⟨d, d, rfl, by rw [if_neg (by simp [hhas])]; exact as_eq_ok.mpr hmakes⟩, ?_⟩
      have hlaid : z.Laid init .directory d d' := (wp_of_ok hmakes).mp
        (makeDirs_lays hp' List.prefix_rfl (fun _ => rfl) d ⟨h, .refl z init .directory d⟩)
      exact hlaid.tidy.reaches_concat (hlaid.tidy.hasDirectory_iff.mp (h.stands.makeDirs_ok hp' hmakes).2) hn

end Tidy

/-! ### Attempts -/

theorem Reaches.short (h : z.Reaches d q) : ∀ n ∈ z.name :: q, n.utf8ByteSize ≤ maxName := by
  have hshort : ∀ (ns : List String) (loc : Location), d.Reach loc ns → ∀ n ∈ ns, n.utf8ByteSize ≤ maxName := by
    intro ns
    induction ns with
    | nil => exact fun _ _ n hn => absurd hn List.not_mem_nil
    | cons x rest ih =>
      intro loc hreach n hn
      rcases List.mem_cons.mp hn with rfl | hn
      · exact hreach.2.1
      · exact ih _ hreach.2.2 n hn
  exact hshort _ _ h

/-- What comes of an attempt to put something at some names: it succeeds if nothing is in the way. -/
structure Attempt (z : Site) (p : Path) (q : List String) (k : Node) (d d' : Disk) : Prop extends Laid z q k d d' where
  succeeds : p.flaw? = none → z.Free d q k → z.node d' q = some k

theorem Tidy.laid (h : z.Tidy d) (q : List String) (k : Node) : z.Laid q k d d := ⟨h, .refl z q k d⟩

theorem write_eq_error {content : Text.Bytes} {err : ReplicaError}
    (h : ((Disk.write p content).as "create" p : ReplicaOp Unit) d = .error err d') :
    ∃ err', d.fileSlot p = .error err' ∧ d' = d := by
  unfold DiskOp.as Disk.write DiskOp.change at h
  cases hslot : d.fileSlot p with
  | ok x => simp [hslot, Except.map] at h
  | error err' =>
    simp only [hslot, Except.map, EStateM.Result.error.injEq] at h
    exact ⟨err', rfl, h.2.symm⟩

theorem Tidy.write_succeeds (h : z.Tidy d) (hp : z.Spells p q) (hflaw : p.flaw? = none) {content : Text.Bytes}
    (hfree : z.Free d q (.file content)) : ∃ d', Replica.write p content d = .ok () d' := by
  obtain ⟨d₁, hparent, hreach⟩ := h.ensureParent_succeeds hp hflaw hfree
  have hlaid : z.Laid q (.file content) d d₁ := (wp_of_ok hparent).mp (ensureParent_lays hp d (h.laid q _))
  obtain ⟨mode?, hslot⟩ := hlaid.tidy.stands.fileSlot_of_reaches hp hflaw hreach
    (hfree.of_lays hlaid.lays List.prefix_rfl (by rw [if_pos rfl]))
  have hwrite : (Disk.write p content : DiskOp Unit) d₁
      = .ok () (d₁.insert (z.place q) (.file content (mode?.getD newFileMode))) := by
    simp only [Disk.write, DiskOp.change, hslot, Except.map]
  exact ⟨_, bind_eq_ok.mpr ⟨(), d₁, hparent, as_eq_ok.mpr hwrite⟩⟩

theorem write_attempt (h : z.Tidy d) (hp : z.Spells p q) (content : Text.Bytes) :
    z.Attempt p q (.file content) d (Replica.diskAfter (Replica.write p content) d) where
  toLaid := Replica.diskAfter_keeps (write_lays hp content) (h.laid q _)
  succeeds hflaw hfree := by
    obtain ⟨d', hwrite⟩ := h.write_succeeds hp hflaw hfree
    have hlaid : z.Laid q (.file content) d d' := (wp_of_ok hwrite).mp (write_lays hp content d (h.laid q _))
    rw [Replica.diskAfter, hwrite]
    exact hlaid.tidy.hasFile_iff.mp (h.stands.write_ok hp hwrite).2.2

/-- A directory is copied without what it holds. -/
theorem adopt_attempt (h : z.Tidy d) (hp : z.Spells p q) {dir : Path} (mode : Nat) (hmode : d.modeOf dir = .ok mode) :
    z.Attempt p q .directory d (Replica.diskAfter (do Replica.createDir p (← Replica.modeOf dir)) d) where
  toLaid := Replica.diskAfter_keeps (adopt_lays hp dir) (h.laid q _)
  succeeds hflaw hfree := by
    obtain ⟨d', hcreate⟩ := h.passable.createDir_succeeds hp hflaw mode hfree
    have hask : Replica.modeOf dir d = .ok mode d := as_eq_ok.mpr (by simp only [DiskOp.ask, hmode])
    have hadopt : (do Replica.createDir p (← Replica.modeOf dir) : ReplicaOp Unit) d = .ok () d' :=
      bind_eq_ok.mpr ⟨mode, d, hask, hcreate⟩
    have hlaid : z.Laid q .directory d d' := (wp_of_ok hadopt).mp (adopt_lays hp dir d (h.laid q _))
    rw [Replica.diskAfter, hadopt]
    exact hlaid.tidy.hasDirectory_iff.mp (h.stands.createDir_ok hp hcreate).2

/-- Where something is reached, something of its kind may be put again. -/
theorem Free.of_reaches (hreach : z.Reaches d q)
    (hlast : ∀ k', z.node d q = some k' → k'.isDirectory = k.isDirectory) : z.Free d q k where
  way r k' hr hne hk' := by
    obtain ⟨m, rfl⟩ := hr
    have hdir := node_eq_directory_iff.mpr (Reaches.directoryAt hreach fun hm => hne (by rw [hm, List.append_nil]))
    exact Option.some.inj (hk'.symm.trans hdir)
  last := hlast
  short := hreach.short

theorem Lays.replace {k' : Node} (h : z.Lays q k d d') (h' : z.Lays q k' d' d'') (hend : z.node d'' q = some k') :
    z.Lays q k' d d'' := by
  refine ⟨h.outside.trans h'.outside, fun r => ?_⟩
  by_cases hr : r = q
  · exact .inr (.inr ⟨hr, hr ▸ hend⟩)
  rcases h'.frame r with hsame | ⟨hnone, hdir, hway⟩ | ⟨heq, -⟩
  · rw [hsame]
    rcases h.frame r with hold | hway | ⟨heq, -⟩
    · exact .inl hold
    · exact .inr (.inl hway)
    · exact absurd heq hr
  · rcases h.frame r with hold | ⟨-, hdir', -⟩ | ⟨heq, -⟩
    · exact .inr (.inl ⟨hold ▸ hnone, hdir, hway⟩)
    · simp [hdir'] at hnone
    · exact absurd heq hr
  · exact absurd heq hr

/-- A file that has been made empty gets what it is to hold. -/
theorem write_after_create (h : z.Tidy d) (hp : z.Spells p q) {mode : Option Nat} {content : Text.Bytes}
    (hcreate : (do Replica.ensureParent p; Replica.createEmptyFile p mode : ReplicaOp Unit) d = .ok () d') :
    z.Attempt p q (.file content) d (Replica.diskAfter (Replica.write p content) d') := by
  have hlaid : z.Laid q (.file []) d d' := (wp_of_ok hcreate).mp (create_lays hp mode d (h.laid q _))
  obtain ⟨hflaw, -, hfile⟩ := h.stands.createEmptyFile_ok hp hcreate
  have hnode := hlaid.tidy.hasFile_iff.mp hfile
  have hwrite := write_attempt hlaid.tidy hp content
  have hend := hwrite.succeeds hflaw (Free.of_reaches hfile.1 fun k' hk' => by
    rw [hnode] at hk'
    cases hk'
    rfl)
  exact ⟨⟨hwrite.tidy, hlaid.lays.replace hwrite.lays hend⟩, fun _ _ => hend⟩

/-- Making a file fails only before anything has been put at its place: the mode of a file that has
    just been written can be set. -/
theorem Tidy.createEmptyFile_error (h : z.Tidy d) (hp : z.Spells p q) {mode : Option Nat} {err : ReplicaError}
    (hmake : (Replica.createEmptyFile p mode : ReplicaOp Unit) d = .error err d') :
    d' = d ∧ ∃ err', d.fileSlot p = .error err' := by
  rcases bind_eq_error.mp hmake with hwrite | ⟨_, t, hwrite, hmode⟩
  · obtain ⟨err', hslot, rfl⟩ := write_eq_error hwrite
    exact ⟨rfl, err', hslot⟩
  · have hflaw := flaw?_of_write (as_eq_ok.mp hwrite)
    have hlaid : z.Laid q (.file []) d t := (wp_of_ok hwrite).mp ((diskWrite_lays hp []).as _ _ d (h.laid q _))
    have hnode := hlaid.tidy.hasFile_iff.mp (h.stands.diskWrite_ok hp (as_eq_ok.mp hwrite)).2
    cases mode with
    | none => cases hmode
    | some m =>
      obtain ⟨t', hok⟩ := hlaid.tidy.passable.setMode_succeeds hp hflaw (by simp [hnode]) m
      have hset : Replica.setMode p m t = .error err d' := hmode
      rw [hok] at hset
      cases hset

/-- An attempt to make a file that fails has only made directories above it. -/
theorem create_error (h : z.Tidy d) (hp : z.Spells p q) {mode : Option Nat} {err : ReplicaError}
    (hcreate : (do Replica.ensureParent p; Replica.createEmptyFile p mode : ReplicaOp Unit) d = .error err d') :
    d' = Replica.diskAfter (Replica.ensureParent p) d
      ∧ ∀ content, ¬ (p.flaw? = none ∧ z.Free d q (.file content)) := by
  rcases bind_eq_error.mp hcreate with hparent | ⟨_, t, hparent, hmake⟩
  · refine ⟨by rw [Replica.diskAfter, hparent], fun content hadmitted => ?_⟩
    obtain ⟨t, hok, -⟩ := h.ensureParent_succeeds hp hadmitted.1 hadmitted.2
    rw [hparent] at hok
    cases hok
  · have hlaid : ∀ content, z.Laid q (.file content) d t := fun content =>
      (wp_of_ok hparent).mp (ensureParent_lays hp d (h.laid q _))
    obtain ⟨rfl, err', hslot⟩ := (hlaid []).tidy.createEmptyFile_error hp hmake
    refine ⟨by rw [Replica.diskAfter, hparent], fun content hadmitted => ?_⟩
    obtain ⟨t', hok, hreach⟩ := h.ensureParent_succeeds hp hadmitted.1 hadmitted.2
    rw [hparent] at hok
    cases hok
    obtain ⟨mode?, hfound⟩ := (hlaid []).tidy.stands.fileSlot_of_reaches hp hadmitted.1 hreach
      (hadmitted.2.of_lays (hlaid content).lays List.prefix_rfl (by rw [if_pos rfl]))
    rw [hslot] at hfound
    cases hfound

/-- An attempt to make a file fails only before anything has been put at its place. -/
theorem create_fails (h : z.Tidy d) (hp : z.Spells p q) {mode : Option Nat} {err : ReplicaError}
    (hcreate : (do Replica.ensureParent p; Replica.createEmptyFile p mode : ReplicaOp Unit) d = .error err d')
    (content : Text.Bytes) : z.Attempt p q (.file content) d d' := by
  obtain ⟨rfl, hrefused⟩ := create_error h hp hcreate
  exact ⟨Replica.diskAfter_keeps (ensureParent_lays hp) (h.laid q _), fun hflaw hfree =>
    absurd ⟨hflaw, hfree⟩ (hrefused content)⟩

/-! ### Removing -/

theorem change_error {f : Disk → Except OsError Disk} {err : OsError}
    (h : (DiskOp.change f : DiskOp Unit) d = .error err d') :
    d' = d := by
  unfold DiskOp.change at h
  cases hf : f d with
  | ok d₁ => simp [hf] at h
  | error err' =>
    simp only [hf, EStateM.Result.error.injEq] at h
    exact h.2.symm

theorem Stands.found_of_removeFile (hd : z.Stands d) (hp : z.Spells p q) {u : Unit}
    (h : (Disk.removeFile p : DiskOp Unit) d = .ok u d') : d.get? (z.place q) ≠ none := by
  obtain ⟨s, hslot, h⟩ := except_bind_eq_ok.mp (change_eq_ok.mp h)
  split at h
  · cases h
  · rename_i x hname
    obtain ⟨found, hat, h⟩ := except_bind_eq_ok.mp h
    obtain ⟨-, -, hget⟩ := hd.slot_entry hp hslot hname hat
    cases found with
    | none => cases h
    | some e => simp [hget]

/-- Nothing is left at and below a place, and all else is as it was. -/
structure Cleared (z : Site) (q : List String) (d d' : Disk) : Prop where
  tidy : z.Tidy d'
  outside : Disk.SameOutside z.zone d d'
  gone : ∀ r, q <+: r → z.node d' r = none
  kept : ∀ r, ¬ q <+: r → z.node d' r = z.node d r

theorem cleared_of_bare (h : z.Tidy d) (hspares : z.Spares (Beside q) (Beside q) d d')
    (hkept : ∀ loc, ¬ z.place q <+: loc → d'.get? loc = d.get? loc) (hbare : z.Bare d' q) : z.Cleared q d d' where
  tidy := h.cleared hspares hkept hbare
  outside := hspares.outside
  gone r hr := by rw [node, hbare _ (place_prefix_iff.mpr hr), Option.bind_none]
  kept r hr := by rw [node, hkept _ fun hp => hr (place_prefix_iff.mp hp), node]

theorem cleared_erase (h : z.Tidy d) (q : List String) : z.Cleared q d (d.erase (z.place q)) :=
  cleared_of_bare h (spares_erase z d q) (fun _ => Disk.get?_erase_of_not_prefix d) (bare_erase z d q)

theorem cleared_eraseBelow (h : z.Tidy d) (q : List String) :
    z.Cleared q d ((d.eraseBelow (z.place q)).erase (z.place q)) := by
  refine cleared_of_bare h ((spares_eraseBelow z d q).trans (spares_erase z _ q)) (fun loc hloc => ?_)
    (bare_erase z _ q)
  rw [Disk.get?_erase_of_not_prefix _ hloc, Disk.get?_eraseBelow d _ (.inr hloc)]

/-- What is not there need not be cleared. -/
theorem cleared_refl (h : z.Tidy d) (hnone : z.node d q = none) : z.Cleared q d d where
  tidy := h
  outside := .refl _ d
  gone r hr := by
    refine Option.eq_none_iff_forall_ne_some.mpr fun k hk => ?_
    by_cases heq : r = q
    · simp [heq, hnone] at hk
    · obtain ⟨m, rfl⟩ := hr
      have hreach : z.Reaches d (q ++ m) := h.reaches (by simp [hk])
      have hdir := hreach.directoryAt fun hm => heq (by rw [hm, List.append_nil])
      simp [node_eq_directory_iff.mpr hdir] at hnone
  kept _ _ := rfl

/-- What a removal does to the disk: nothing where nothing is, and else it takes away what is
    there, which goes before its directory does. -/
inductive Removal (z : Site) (q : List String) (d : Disk) : Disk → Prop
  | nothing (h : z.node d q = none) : Removal z q d d
  | directory : Removal z q d ((d.eraseBelow (z.place q)).erase (z.place q))
  | file : Removal z q d (d.erase (z.place q))

theorem Tidy.removal (h : z.Tidy d) (hp : z.Spells p q) (hflaw : p.flaw? = none) :
    z.Removal q d (Replica.diskAfter (Replica.remove p) d) := by
  cases hnode : z.node d q with
  | none =>
    -- There is nothing to remove, and so nothing is changed.
    have hmissing : d.hasDirectory p = false := by
      rw [Bool.eq_false_iff]
      intro hdir
      simp [h.hasDirectory_iff.mp (h.stands.hasDirectory_ok hp hdir)] at hnode
    have hsame : ∃ err, (Disk.removeFile p : DiskOp Unit) d = .error err d := by
      cases hrun : (Disk.removeFile p : DiskOp Unit) d with
      | ok u d' => exact absurd (h.node_eq_none_iff.mp hnode) (h.stands.found_of_removeFile hp hrun)
      | error err d' => exact ⟨err, by rw [change_error hrun]⟩
    obtain ⟨err, hrun⟩ := hsame
    have hremove : Replica.diskAfter (Replica.remove p) d = d := by
      cases err <;> simp only [Replica.diskAfter, Replica.remove, hmissing, Bool.false_eq_true, if_false,
        hrun, DiskOp.as]
    rw [hremove]
    exact .nothing hnode
  | some k =>
    cases k with
    | directory =>
      have hdir := h.hasDirectory_iff.mpr hnode
      have hrun := h.stands.removeTree_eq hp hflaw hdir
      have hhas := (h.stands.hasDirectory_iff hp hflaw).mpr hdir
      have hremove : Replica.remove p d = .ok () ((d.eraseBelow (z.place q)).erase (z.place q)) := by
        simp only [Replica.remove, hhas, if_true, hrun, DiskOp.as]
      rw [Replica.diskAfter, hremove]
      exact .directory
    | file content =>
      have hfile := h.hasFile_iff.mpr hnode
      have hmissing : d.hasDirectory p = false := by
        rw [Bool.eq_false_iff]
        intro hdir
        simp [h.hasDirectory_iff.mp (h.stands.hasDirectory_ok hp hdir)] at hnode
      have hremove : Replica.remove p d = .ok () (d.erase (z.place q)) := by
        simp only [Replica.remove, hmissing, Bool.false_eq_true, if_false,
          h.stands.removeFile_eq hp hflaw hfile, DiskOp.as]
      rw [Replica.diskAfter, hremove]
      exact .file

/-- Away from what is removed, all entries stay. -/
theorem Removal.kept (h : z.Removal q d d') {loc : Location} (hloc : ¬ z.place q <+: loc) : d'.get? loc = d.get? loc := by
  cases h with
  | nothing _ => rfl
  | directory => rw [Disk.get?_erase_of_not_prefix _ hloc, Disk.get?_eraseBelow d _ (.inr hloc)]
  | file => exact Disk.get?_erase_of_not_prefix d hloc

theorem Removal.cleared (h : z.Removal q d d') (htidy : z.Tidy d) : z.Cleared q d d' := by
  cases h with
  | nothing hnone => exact cleared_refl htidy hnone
  | directory => exact cleared_eraseBelow htidy q
  | file => exact cleared_erase htidy q

/-- **Removing leaves nothing**, whatever is there. -/
theorem remove_clears (h : z.Tidy d) (hp : z.Spells p q) (hflaw : p.flaw? = none) :
    z.Cleared q d (Replica.diskAfter (Replica.remove p) d) := (h.removal hp hflaw).cleared h

/-- A path that cannot lead anywhere is not removed. -/
theorem remove_of_flaw {err : OsError} (hp : z.Spells p q) (hflaw : p.flaw? = some err) :
    Replica.remove p d = .error ⟨"remove", p, err⟩ d := by
  have hmissing : d.hasDirectory p = false := by
    simp only [Disk.hasDirectory, Disk.stat, Disk.resolve, Disk.walkFrom, hflaw]
    rfl
  have hslot : d.slot p = .error err := by simp only [Disk.slot, Disk.walkFrom, hflaw]
  have hrun : (Disk.removeFile p : DiskOp Unit) d = .error err d := by
    simp only [Disk.removeFile, DiskOp.change, hslot, bind, Except.bind]
  have hne := flaw?_ne_notFound hp.spelling_ne
  rw [hflaw] at hne
  simp only [Replica.remove, hmissing, Bool.false_eq_true, if_false, hrun, DiskOp.as]
  split
  · rename_i heq
    cases heq
    exact absurd rfl hne
  · rfl

/-- A removal that succeeds has taken away what was there. -/
theorem Tidy.removal_of_ok {u : Unit} (h : z.Tidy d) (hp : z.Spells p q) (hrun : Replica.remove p d = .ok u d') :
    p.flaw? = none ∧ z.Removal q d d' := by
  have hflaw : p.flaw? = none := by
    cases hflaw : p.flaw? with
    | none => rfl
    | some err =>
      rw [remove_of_flaw hp hflaw] at hrun
      cases hrun
  have hremoval := h.removal hp hflaw
  rw [Replica.diskAfter, hrun] at hremoval
  exact ⟨hflaw, hremoval⟩

theorem remove_keeps_tidy (hp : z.Spells p q) : Preserves z.Tidy (Replica.remove p) := by
  intro d h
  cases hflaw : p.flaw? with
  | some err => exact (wp_of_error (remove_of_flaw hp hflaw)).mpr h
  | none =>
    have hcleared := (remove_clears h hp hflaw).tidy
    cases hrun : Replica.remove p d with
    | ok u d' => exact (wp_of_ok hrun).mpr (by rwa [Replica.diskAfter, hrun] at hcleared)
    | error err d' => exact (wp_of_error hrun).mpr (by rwa [Replica.diskAfter, hrun] at hcleared)

theorem copy_keeps_tidy (hp : z.Spells p q) (source : Path) : Preserves z.Tidy (Disk.copy source p) := by
  refine Preserves.change fun d d' h hok => ?_
  obtain ⟨loc, bytes, mode, mode?, -, hslot, rfl⟩ := h.stands.copy_eq hp hok
  obtain ⟨hreach, -, hfile⟩ := h.stands.fileSlot_ok hp hslot
  refine h.insert hp hreach (fun _ he => by cases he) ?_
  rintro ⟨mode, hdir⟩
  cases hfile _ hdir

/-- A renaming keeps a site tidy, also where it fails after directories have been made. -/
theorem rename_keeps_tidy {p' : Path} {r : List String} (hp : z.Spells p q) (hp' : z.Spells p' r) :
    Preserves z.Tidy (Replica.rename p p') := by
  refine Preserves.bind (fun d h => ?_) fun _ => Preserves.as (fun d h => ?_) _ _
  · exact wp_imp (ensureParent_lays (k := .directory) hp' d (h.laid r _)) (fun _ _ h => h.tidy) fun _ _ h => h.tidy
  · cases hrun : (Disk.rename p p' : DiskOp Unit) d with
    | error err d' => exact (wp_of_error hrun).mpr (change_error hrun ▸ h)
    | ok u d' =>
      refine (wp_of_ok hrun).mpr ?_
      cases h.stands.diskRename_ok hp hp' hrun with
      | same _ => exact h
      | moved e hsource hreach hproper hbelow habove hfree => exact h.move hp' hreach hbelow

end Site

end LiveWorkspace
