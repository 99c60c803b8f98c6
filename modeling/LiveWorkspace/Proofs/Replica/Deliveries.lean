/-
  LiveWorkspace/Proofs/Replica/Deliveries.lean
  ============================================
  **What has been handed to a replica once need not be handed to it again.**

  Whatever a replica is to hold is handed over piece by piece: a directory or the text of a file,
  for the path of a copy (`Parcel`).  A piece is put if the operating system takes the path and
  nothing of another kind is in its way, and changes nothing otherwise (`Delivery`).  Neither does
  it change anything if it is there already.  So after a series of deliveries the replica shows
  the same as after that series was delivered to what it has left, and even to a part of it, as
  long as all that is missing of it is delivered again (`Dealt.node_eq`).
-/
import LiveWorkspace.Proofs.Replica.Copying

namespace LiveWorkspace

namespace Site

variable {z : Site} {base d d' e t : Disk} {p : Path} {q r : List String} {k k' : Node}

/-! ### Parcels -/

/-- What is to be put into a replica: the path of a copy, the names that it spells, and what is
    to be there. -/
structure Parcel where
  copy : Path
  names : List String
  node : Node

/-- What has to be there before: the directory that a parcel goes to. The replica itself lies in one
    that is always there. -/
def Parcel.before (c : Parcel) : Option Parcel :=
  if c.names = [] then none else c.copy.parent?.map fun parent => ⟨parent, c.names.dropLast, .directory⟩

/-- What comes with a parcel: itself, and the directory that it goes to. -/
def Parcel.Brings (c x : Parcel) : Prop := x = c ∨ c.before = some x

/-- Parcels for the same names are alike, or of different kinds. -/
def Parcel.Suits (c x : Parcel) : Prop := x.names = c.names → x.node = c.node ∨ x.node.isDirectory ≠ c.node.isDirectory

theorem Parcel.suits_of_directory {c : Parcel} (hc : c.node = .directory) (x : Parcel) : c.Suits x := by
  intro _
  rw [hc]
  cases x.node with
  | directory => exact .inl rfl
  | file content => exact .inr Bool.false_ne_true

theorem Parcel.of_before {c w : Parcel} (hw : c.before = some w) :
    c.names ≠ [] ∧ w.names = c.names.dropLast ∧ w.node = .directory := by
  unfold before at hw
  split at hw
  · cases hw
  · rename_i hne
    obtain ⟨parent, -, rfl⟩ := Option.map_eq_some_iff.mp hw
    exact ⟨hne, rfl, rfl⟩

theorem Parcel.before_prefix {c w : Parcel} (hw : c.before = some w) : w.names <+: c.names := by
  rw [(of_before hw).2.1]
  exact List.dropLast_prefix c.names

theorem Parcel.before_ne {c w : Parcel} (hw : c.before = some w) : w.names ≠ c.names := by
  obtain ⟨hne, hnames, -⟩ := of_before hw
  intro heq
  have hlen := congrArg List.length (hnames.symm.trans heq)
  rw [List.length_dropLast] at hlen
  have hpos := List.length_pos_iff.mpr hne
  omega

theorem Parcel.suits_of_before {c w : Parcel} (hw : c.before = some w) (hfile : c.node.isDirectory = false) : c.Suits w := by
  intro _
  rw [(of_before hw).2.2, hfile]
  exact .inr Bool.false_ne_true.symm

/-- The operating system takes the path of a parcel, and nothing of another kind is in its way. -/
def Admitted (z : Site) (c : Parcel) (d : Disk) : Prop := c.copy.flaw? = none ∧ z.Free d c.names c.node

/-- If a parcel can be put, then it is there. -/
def Settled (z : Site) (c : Parcel) (d : Disk) : Prop := z.Admitted c d → z.node d c.names = some c.node

/-- What comes of handing over a parcel: it is put, with directories on the way to it, or nothing
    is changed. -/
structure Delivery (z : Site) (c : Parcel) (d d' : Disk) : Prop where
  tidy : z.Tidy d'
  put : z.Admitted c d → z.node d' c.names = some c.node
  frame : ∀ r, z.node d' r = z.node d r
    ∨ z.Admitted c d ∧ (r = c.names ∨ r <+: c.names ∧ z.node d r = none)

/-- Whatever a disk shows, another one shows something of its kind. -/
def KeepsKinds (z : Site) (d d' : Disk) : Prop :=
  ∀ r k, z.node d r = some k → ∃ k', z.node d' r = some k' ∧ k'.isDirectory = k.isDirectory

theorem KeepsKinds.trans (h : z.KeepsKinds d d') (h' : z.KeepsKinds d' t) : z.KeepsKinds d t := by
  intro r k hk
  obtain ⟨k', hk', hkind⟩ := h r k hk
  obtain ⟨k'', hk'', hkind'⟩ := h' r k' hk'
  exact ⟨k'', hk'', hkind'.trans hkind⟩

theorem KeepsKinds.node_eq_none (h : z.KeepsKinds d d') (hnone : z.node d' r = none) : z.node d r = none := by
  cases hk : z.node d r with
  | none => rfl
  | some k =>
    obtain ⟨k', hk', -⟩ := h r k hk
    rw [hnone] at hk'
    cases hk'

/-- What is free was so before more has come. -/
theorem Free.of_keepsKinds (h : z.Free d' q k) (hkinds : z.KeepsKinds d d') : z.Free d q k where
  way r k₁ hr hne hk₁ := by
    obtain ⟨k₂, hk₂, hkind⟩ := hkinds r k₁ hk₁
    rw [h.way r k₂ hr hne hk₂] at hkind
    exact Node.isDirectory_eq_true_iff.mp hkind.symm
  last k₁ hk₁ := by
    obtain ⟨k₂, hk₂, hkind⟩ := hkinds q k₁ hk₁
    exact hkind.symm.trans (h.last k₂ hk₂)
  short := h.short

theorem Admitted.of_keepsKinds {c : Parcel} (h : z.Admitted c d') (hkinds : z.KeepsKinds d d') : z.Admitted c d :=
  ⟨h.1, h.2.of_keepsKinds hkinds⟩

theorem Tidy.reaches_of_node (h : z.Tidy d) (hq : z.node d q = some k) : z.Reaches d q := h.reaches (by simp [hq])

/-- All that is found lies in directories. -/
theorem Tidy.node_above (h : z.Tidy d) (hq : z.node d q = some k) (hr : r <+: q) (hne : r ≠ q) :
    z.node d r = some .directory := by
  obtain ⟨m, rfl⟩ := hr
  refine node_eq_directory_iff.mpr ((h.reaches_of_node hq).directoryAt fun hm => hne ?_)
  rw [hm, List.append_nil]

/-- What is there could be put there. -/
theorem Tidy.free_of_node (h : z.Tidy d) (hq : z.node d q = some k') (hkind : k'.isDirectory = k.isDirectory) :
    z.Free d q k := by
  refine Free.of_reaches (h.reaches_of_node hq) fun k'' hk'' => ?_
  rw [hq] at hk''
  cases hk''
  exact hkind

namespace Delivery

variable {c : Parcel}

theorem keepsKinds (h : z.Delivery c d d') : z.KeepsKinds d d' := by
  intro r k hk
  rcases h.frame r with hsame | ⟨hadmitted, rfl | ⟨-, hnone⟩⟩
  · exact ⟨k, hsame.trans hk, rfl⟩
  · exact ⟨c.node, h.put hadmitted, (hadmitted.2.last k hk).symm⟩
  · rw [hnone] at hk
    cases hk

/-- **What is there already is not changed when it is delivered again.** -/
theorem idle (h : z.Delivery c d d') (htidy : z.Tidy d) (hsettled : z.Settled c d) (r : List String) :
    z.node d' r = z.node d r := by
  rcases h.frame r with hsame | ⟨hadmitted, rfl | ⟨hway, hnone⟩⟩
  · exact hsame
  · rw [h.put hadmitted, hsettled hadmitted]
  · have hthere := hsettled hadmitted
    by_cases heq : r = c.names
    · rw [heq, h.put hadmitted, hthere]
    · rw [htidy.node_above hthere hway heq] at hnone
      cases hnone

/-- A parcel that was there is there afterwards, unless one with the same names and of its kind
    has been put in its place. -/
theorem persists {x : Parcel} (h : z.Delivery c d d') (hx : z.node d x.names = some x.node) (hsuits : c.Suits x) :
    z.node d' x.names = some x.node := by
  rcases h.frame x.names with hsame | ⟨hadmitted, heq | ⟨-, hnone⟩⟩
  · exact hsame.trans hx
  · rcases hsuits heq with hnode | hkind
    · rw [heq, h.put hadmitted, hnode]
    · exact absurd (hadmitted.2.last x.node (heq ▸ hx)) hkind
  · rw [hnone] at hx
    cases hx

end Delivery

/-! ### What operations deliver -/

/-- Where nothing is and no name is too long, what is in the way of an attempt is no directory. -/
theorem exists_blocking (hthere : z.node d q = none) (hlong : z.name.utf8ByteSize ≤ maxName)
    (hshort : ∀ n ∈ q, n.utf8ByteSize ≤ maxName) (hnot : ¬ z.Free d q k) :
    ∃ s k', s <+: q ∧ s ≠ q ∧ z.node d s = some k' ∧ k' ≠ .directory := by
  apply Classical.byContradiction
  intro hfree
  refine hnot ⟨fun s k' hs hne hk' => ?_, fun k' hk' => ?_, fun n hn => ?_⟩
  · exact Classical.byContradiction fun hkind => hfree ⟨s, k', hs, hne, hk', hkind⟩
  · rw [hthere] at hk'
    cases hk'
  · exact (List.mem_cons.mp hn).elim (fun heq => heq ▸ hlong) (hshort n)

/-- An attempt whose way is not free changes nothing, if it keeps what is of another kind and no
    name is too long. -/
theorem Laid.refused (h : z.Laid q k d d') (htidy : z.Tidy d) (hshort : ∀ n ∈ q, n.utf8ByteSize ≤ maxName)
    (hnot : ¬ z.Free d q k)
    (hkept : ∀ k', z.node d q = some k' → k'.isDirectory ≠ k.isDirectory → z.node d' q = some k') (r : List String) :
    z.node d' r = z.node d r := by
  cases hthere : z.node d q with
  | some k' =>
    rcases h.lays.frame r with hsame | ⟨hnone, -, hway, hne⟩ | ⟨rfl, -⟩
    · exact hsame
    · rw [htidy.node_above hthere hway hne] at hnone
      cases hnone
    · rw [hthere]
      exact hkept k' hthere fun hkind => hnot (htidy.free_of_node hthere hkind)
  | none =>
    rcases h.lays.frame r with hsame | hnew
    · exact hsame
    -- Something that is no directory stands in the way, so that nothing can have come.
    have hlong : z.name.utf8ByteSize ≤ maxName := by
      rcases hnew with ⟨-, hdir, -⟩ | ⟨-, hend⟩
      · exact (h.tidy.reaches_of_node hdir).short _ List.mem_cons_self
      · exact (h.tidy.reaches_of_node hend).short _ List.mem_cons_self
    obtain ⟨s, k', hs, hne, hk', hkind⟩ := exists_blocking hthere hlong hshort hnot
    have hstays : z.node d' s = some k' := by
      rcases h.lays.frame s with hsame | ⟨hnone, -⟩ | ⟨heq, -⟩
      · exact hsame.trans hk'
      · rw [hk'] at hnone
        cases hnone
      · exact absurd heq hne
    have hbelow : ∀ r, s <+: r → s ≠ r → z.node d' r = none := by
      intro r hr hsr
      refine Option.eq_none_iff_forall_ne_some.mpr fun k'' hfound => hkind ?_
      rw [h.tidy.node_above hfound hr hsr] at hstays
      exact (Option.some.inj hstays).symm
    rcases hnew with ⟨hnone, hdir, hway, -⟩ | ⟨rfl, hend⟩
    · have hsr : s ≠ r := by
        rintro rfl
        rw [hk'] at hnone
        cases hnone
      rcases List.prefix_or_prefix_of_prefix hs hway with hpre | hpre
      · rw [hbelow r hpre hsr] at hdir
        cases hdir
      · rw [htidy.node_above hk' hpre hsr.symm] at hnone
        cases hnone
    · rw [hbelow _ hs hne] at hend
      cases hend

/-- An attempt is a delivery if it does nothing for a path that the operating system does not
    take, keeps what is of another kind, and no name is too long. -/
theorem Laid.delivery {c : Parcel} (h : z.Laid c.names c.node d d') (htidy : z.Tidy d)
    (hshort : ∀ n ∈ c.names, n.utf8ByteSize ≤ maxName) (hput : z.Admitted c d → z.node d' c.names = some c.node)
    (hflawed : c.copy.flaw? ≠ none → d' = d)
    (hkept : ∀ k, z.node d c.names = some k → k.isDirectory ≠ c.node.isDirectory → z.node d' c.names = some k) :
    z.Delivery c d d' where
  tidy := h.tidy
  put := hput
  frame r := by
    by_cases hflaw : c.copy.flaw? = none
    · by_cases hfree : z.Free d c.names c.node
      · rcases h.lays.frame r with hsame | ⟨hnone, -, hway, -⟩ | ⟨rfl, -⟩
        · exact .inl hsame
        · exact .inr ⟨⟨hflaw, hfree⟩, .inr ⟨hway, hnone⟩⟩
        · exact .inr ⟨⟨hflaw, hfree⟩, .inl rfl⟩
      · exact .inl (h.refused htidy hshort hfree hkept r)
    · rw [hflawed hflaw]
      exact .inl rfl

/-- Nothing needs to be done where a parcel is already, or cannot be put. -/
theorem Tidy.delivery_refl {c : Parcel} (h : z.Tidy d) (hsettled : z.Settled c d) : z.Delivery c d d :=
  ⟨h, hsettled, fun _ => .inl rfl⟩

/-- Making directories delivers a directory, or nothing. -/
theorem makeDirs_delivers (h : z.Tidy d) (hp : z.Spells p q) (hshort : ∀ n ∈ q, n.utf8ByteSize ≤ maxName)
    (action : String) :
    z.Delivery ⟨p, q, .directory⟩ d (Replica.diskAfter ((Disk.makeDirs p).as action p) d) := by
  have hlaid : z.Laid q .directory d (Replica.diskAfter ((Disk.makeDirs p).as action p) d) :=
    Replica.diskAfter_keeps ((makeDirs_lays hp List.prefix_rfl fun _ => rfl).as _ _) (h.laid q _)
  have hgrows := h.passable.makeDirs_grows hp
  refine hlaid.delivery h hshort (fun hadmitted => ?_) (fun hflaw => ?_) fun k hk hkind => ?_
  · obtain ⟨d', hmake⟩ := h.passable.makeDirs_succeeds hp hadmitted.1 hadmitted.2
    simp only [Replica.diskAfter, DiskOp.as, hmake] at hlaid ⊢
    exact hlaid.tidy.hasDirectory_iff.mp (h.stands.makeDirs_ok hp hmake).2
  · obtain ⟨err, hflaw⟩ := Option.ne_none_iff_exists'.mp hflaw
    simp only [Replica.diskAfter, DiskOp.as, makeDirs_eq_error hflaw hp.spelling_ne]
  · have hgrown : ∃ t, z.Grown q d t ∧ Replica.diskAfter ((Disk.makeDirs p).as action p) d = t := by
      cases hrun : (Disk.makeDirs p : DiskOp Unit) d with
      | ok u t => exact ⟨t, ((wp_of_ok hrun).mp hgrows).1, by simp only [Replica.diskAfter, DiskOp.as, hrun]⟩
      | error err t => exact ⟨t, ((wp_of_error hrun).mp hgrows).1, by simp only [Replica.diskAfter, DiskOp.as, hrun]⟩
    obtain ⟨t, hgrown, heq⟩ := hgrown
    obtain ⟨e, he, hek⟩ := Option.bind_eq_some_iff.mp hk
    rw [heq, node, hgrown.kept _ e he, Option.bind_some, hek]

variable {c : Parcel} {content : Text.Bytes}

theorem diskAfter_ensureParent {parent : Path} (hparent : p.parent? = some parent) (d : Disk) :
    Replica.diskAfter (Replica.ensureParent p) d
      = if d.hasPath parent then d else Replica.diskAfter ((Disk.makeDirs parent).as "create directory" parent) d := by
  have hrun : Replica.ensureParent p d
      = if d.hasPath parent then .ok () d else ((Disk.makeDirs parent).as "create directory" parent : ReplicaOp Unit) d := by
    unfold Replica.ensureParent
    rw [hparent]
    show (if d.hasPath parent then pure () else (Disk.makeDirs parent).as "create directory" parent : ReplicaOp Unit) d = _
    split <;> rfl
  rw [Replica.diskAfter, hrun]
  cases d.hasPath parent <;> rfl

/-- What is made above a path is the directory that a parcel goes to, or nothing. -/
theorem ensureParent_delivers (h : z.Tidy d) (hp : z.Spells c.copy c.names) (hshort : ∀ n ∈ c.names, n.utf8ByteSize ≤ maxName) :
    c.before = none ∧ Replica.diskAfter (Replica.ensureParent c.copy) d = d
      ∨ ∃ w, c.before = some w ∧ z.Delivery w d (Replica.diskAfter (Replica.ensureParent c.copy) d) := by
  obtain ⟨copy, names, node⟩ := c
  dsimp only at hp hshort ⊢
  rcases List.eq_nil_or_concat names with rfl | ⟨init, n, rfl⟩
  · obtain ⟨parent, hparent, -, hhas⟩ := hp.hasPath_parent h.stands
    refine .inl ⟨rfl, ?_⟩
    rw [diskAfter_ensureParent hparent]
    split
    · rfl
    · rename_i hmissing
      have hflaw : parent.flaw? ≠ none := fun hflaw => hmissing (hhas hflaw)
      exact Replica.diskAfter_keeps (I := (· = d)) ((makeDirs_of_flaw hflaw).as _ _) rfl
  · rw [List.concat_eq_append] at hp hshort ⊢
    obtain ⟨parent, hparent, hspells, -⟩ := hp.exists_parent h.stands.proper
    refine .inr ⟨⟨parent, init, .directory⟩, ?_, ?_⟩
    · simp [Parcel.before, hparent]
    · rw [diskAfter_ensureParent hparent]
      split
      · rename_i hhas
        refine h.delivery_refl fun hadmitted => ?_
        obtain ⟨k', hk'⟩ := Option.ne_none_iff_exists'.mp ((h.hasPath_iff hspells hadmitted.1).mp hhas)
        exact hk'.trans (congrArg some (hadmitted.2.last_directory hk'))
      · exact makeDirs_delivers h hspells (fun x hx => hshort x (List.mem_append_left _ hx)) _

/-- Writing a file delivers it once the way to it is there. -/
theorem diskWrite_delivers (h : z.Tidy d) (hp : z.Spells c.copy c.names) (hnode : c.node = .file content)
    (hshort : ∀ n ∈ c.names, n.utf8ByteSize ≤ maxName) (hreach : z.Admitted c d → z.Reaches d c.names) :
    z.Delivery c d (Replica.diskAfter ((Disk.write c.copy content).as "write" c.copy) d) := by
  obtain ⟨p, q, k⟩ := c
  dsimp only at *
  subst hnode
  have hlaid : z.Laid q (.file content) d (Replica.diskAfter ((Disk.write p content).as "write" p) d) :=
    Replica.diskAfter_keeps ((diskWrite_lays hp content).as _ _) (h.laid q _)
  refine hlaid.delivery h hshort (fun hadmitted => ?_) (fun hflaw => ?_) fun k hk hkind => ?_
  · obtain ⟨mode?, hslot⟩ := h.stands.fileSlot_of_reaches hp hadmitted.1 (hreach hadmitted) hadmitted.2
    simp only [Replica.diskAfter, DiskOp.as, Disk.write, DiskOp.change, hslot, Except.map]
    exact node_insert_self _
  · cases hslot : d.fileSlot p with
    | ok x => exact absurd (Disk.flaw?_of_fileSlot hslot) hflaw
    | error err => simp only [Replica.diskAfter, DiskOp.as, Disk.write, DiskOp.change, hslot, Except.map]
  · cases hslot : d.fileSlot p with
    | error err => simp only [Replica.diskAfter, DiskOp.as, Disk.write, DiskOp.change, hslot, Except.map, hk]
    | ok x =>
      obtain ⟨loc, mode?⟩ := x
      obtain ⟨-, -, hfile⟩ := h.stands.fileSlot_ok hp hslot
      cases k with
      | file old => exact absurd rfl hkind
      | directory =>
        obtain ⟨mode, hdir⟩ := node_eq_directory_iff.mp hk
        cases hfile _ hdir

/-- **Writing delivers the directory above a file first, and then the file.** -/
theorem write_delivers (h : z.Tidy d) (hp : z.Spells c.copy c.names) (hnode : c.node = .file content)
    (hshort : ∀ n ∈ c.names, n.utf8ByteSize ≤ maxName) :
    z.Delivery c (Replica.diskAfter (Replica.ensureParent c.copy) d) (Replica.diskAfter (Replica.write c.copy content) d) := by
  have hparent := ensureParent_delivers h hp hshort
  have hkinds : z.KeepsKinds d (Replica.diskAfter (Replica.ensureParent c.copy) d) := by
    rcases hparent with ⟨-, hsame⟩ | ⟨w, -, hw⟩
    · rw [hsame]
      exact fun _ k hk => ⟨k, hk, rfl⟩
    · exact hw.keepsKinds
  have htidy : z.Tidy (Replica.diskAfter (Replica.ensureParent c.copy) d) := by
    rcases hparent with ⟨-, hsame⟩ | ⟨w, -, hw⟩
    · rwa [hsame]
    · exact hw.tidy
  cases hrun : Replica.ensureParent c.copy d with
  | ok u t =>
    have hafter : Replica.diskAfter (Replica.ensureParent c.copy) d = t := by rw [Replica.diskAfter, hrun]
    have hwrite : Replica.diskAfter (Replica.write c.copy content) d
        = Replica.diskAfter ((Disk.write c.copy content).as "write" c.copy) t := by
      simp only [Replica.diskAfter, Replica.write, bind, EStateM.bind, hrun]
    rw [hwrite]
    rw [hafter] at hkinds htidy ⊢
    refine diskWrite_delivers htidy hp hnode hshort fun hadmitted => ?_
    obtain ⟨t', hok, hreach⟩ := h.ensureParent_succeeds hp hadmitted.1 (hadmitted.2.of_keepsKinds hkinds)
    rw [hrun] at hok
    cases hok
    exact hreach
  | error err t =>
    have hafter : Replica.diskAfter (Replica.ensureParent c.copy) d = t := by rw [Replica.diskAfter, hrun]
    have hwrite : Replica.diskAfter (Replica.write c.copy content) d = t := by
      simp only [Replica.diskAfter, Replica.write, bind, EStateM.bind, hrun]
    rw [hwrite]
    rw [hafter] at hkinds htidy ⊢
    refine htidy.delivery_refl fun hadmitted => ?_
    obtain ⟨t', hok, -⟩ := h.ensureParent_succeeds hp hadmitted.1 (hadmitted.2.of_keepsKinds hkinds)
    rw [hrun] at hok
    cases hok

/-- Copying a directory without what it holds delivers it. -/
theorem adopt_delivers {dir : Path} {mode : Nat} (h : z.Tidy d) (hp : z.Spells p q) (hmode : d.modeOf dir = .ok mode)
    (hshort : ∀ n ∈ q, n.utf8ByteSize ≤ maxName) :
    z.Delivery ⟨p, q, .directory⟩ d (Replica.diskAfter (do Replica.createDir p (← Replica.modeOf dir)) d) := by
  have hattempt := adopt_attempt h hp mode hmode
  have hadopt := h.passable.adopt hp hmode
  refine hattempt.toLaid.delivery h hshort (fun hadmitted => hattempt.succeeds hadmitted.1 hadmitted.2) (fun hflaw => ?_)
    fun k hk hkind => ?_
  · cases hrun : (do Replica.createDir p (← Replica.modeOf dir) : ReplicaOp Unit) d with
    | ok u d' => exact absurd ((wp_of_ok hrun).mp hadopt).1.1 hflaw
    | error err d' =>
      rw [Replica.diskAfter, hrun]
      exact ((wp_of_error hrun).mp hadopt).2.resolve_right fun hmade => hflaw hmade.1
  · obtain ⟨e, he, hek⟩ := Option.bind_eq_some_iff.mp hk
    cases hrun : (do Replica.createDir p (← Replica.modeOf dir) : ReplicaOp Unit) d with
    | ok u d' => exact absurd (((wp_of_ok hrun).mp hadopt).1.2.last k hk) hkind
    | error err d' =>
      rw [Replica.diskAfter, hrun]
      rcases ((wp_of_error hrun).mp hadopt).2 with rfl | ⟨-, hgrown, -⟩
      · exact hk
      · rw [node, hgrown.kept _ e he, Option.bind_some, hek]

/-- A file can only be made where it can be put. -/
theorem admitted_of_create {mode : Nat} (h : z.Tidy d) (hp : z.Spells c.copy c.names) (hnode : c.node = .file content)
    (hcreate : (do Replica.ensureParent c.copy; Replica.createEmptyFile c.copy (some mode) : ReplicaOp Unit) d = .ok () d') :
    z.Admitted c d := by
  obtain ⟨hflaw, -, hfile⟩ := h.stands.createEmptyFile_ok hp hcreate
  have hlands := h.stands.create_lands hp hcreate
  have htidy : z.Tidy d' := ((wp_of_ok hcreate).mp (create_lays hp (some mode) d (h.laid c.names _))).tidy
  have hthere := htidy.hasFile_iff.mp hfile
  refine ⟨hflaw, fun r k' hr hne hk' => ?_, fun k' hk' => ?_, hfile.1.short⟩
  · rcases hlands.frame r hne with hsame | ⟨⟨hnone, -⟩, -⟩
    · rw [← node_congr hsame, htidy.node_above hthere hr hne] at hk'
      exact (Option.some.inj hk').symm
    · rw [h.node_eq_none_iff.mpr hnone] at hk'
      cases hk'
  · obtain ⟨e, he, hek⟩ := Option.bind_eq_some_iff.mp hk'
    obtain ⟨e', he', rfl⟩ := hlands.there
    rw [hnode, Entry.isDirectory_of_node? hek, ← hlands.kind e _ he he']
    rfl

/-- A file that has been made empty and is written then is delivered. -/
theorem create_delivers {mode : Nat} (h : z.Tidy d) (hp : z.Spells c.copy c.names) (hnode : c.node = .file content)
    (hshort : ∀ n ∈ c.names, n.utf8ByteSize ≤ maxName)
    (hcreate : (do Replica.ensureParent c.copy; Replica.createEmptyFile c.copy (some mode) : ReplicaOp Unit) d = .ok () d') :
    z.Delivery c d (Replica.diskAfter (Replica.write c.copy content) d') := by
  have hadmitted := admitted_of_create h hp hnode hcreate
  have hattempt : z.Attempt c.copy c.names (.file content) d (Replica.diskAfter (Replica.write c.copy content) d') :=
    write_after_create h hp hcreate
  rw [← hnode] at hattempt
  refine hattempt.toLaid.delivery h hshort (fun _ => hattempt.succeeds hadmitted.1 hadmitted.2)
    (fun hflaw => absurd hadmitted.1 hflaw) fun k hk hkind => absurd (hadmitted.2.last k hk) hkind

/-- What is put lies in the directory that it goes to. -/
theorem Tidy.before_of_node (h : z.Tidy d) {w : Parcel} (hc : z.node d c.names = some c.node) (hw : c.before = some w) :
    z.node d w.names = some w.node := by
  rw [(Parcel.of_before hw).2.2]
  exact h.node_above hc (Parcel.before_prefix hw) (Parcel.before_ne hw)

/-! ### Series of deliveries -/

/-- What comes of handing over parcels one after the other: each is there if it can be put, and
    nothing else has come but directories on the way to those that are there. -/
structure Dealt (z : Site) (puts : Parcel → Prop) (base d : Disk) : Prop where
  tidy : z.Tidy d
  kinds : z.KeepsKinds base d
  settled : ∀ c, puts c → z.Settled c d
  frame : ∀ r, z.node d r = z.node base r
    ∨ ∃ c, puts c ∧ r <+: c.names ∧ c.copy.flaw? = none ∧ z.node d c.names = some c.node
        ∧ (r ≠ c.names → z.node base r = none)

namespace Dealt

variable {puts puts' : Parcel → Prop} {c : Parcel}

theorem refl (h : z.Tidy d) (hnone : ∀ c, ¬ puts c) : z.Dealt puts d d where
  tidy := h
  kinds _ k hk := ⟨k, hk, rfl⟩
  settled c hc := absurd hc (hnone c)
  frame _ := .inl rfl

theorem congr (h : z.Dealt puts base d) (hputs : ∀ c, puts' c ↔ puts c) : z.Dealt puts' base d := by
  rw [funext fun c => propext (hputs c)]
  exact h

/-- One more parcel is handed over. -/
theorem step (h : z.Dealt puts base d) (h' : z.Delivery c d d') (hsuits : ∀ x, puts x → c.Suits x) :
    z.Dealt (fun x => puts x ∨ x = c) base d' where
  tidy := h'.tidy
  kinds := h.kinds.trans h'.keepsKinds
  settled x hx hadmitted := by
    have hbefore := hadmitted.of_keepsKinds h'.keepsKinds
    rcases hx with hx | rfl
    · exact h'.persists (h.settled x hx hbefore) (hsuits x hx)
    · exact h'.put hbefore
  frame r := by
    rcases h'.frame r with hsame | ⟨hadmitted, rfl | ⟨hway, hnone⟩⟩
    · rcases h.frame r with hold | ⟨x, hx, hr, hflaw, hthere, hnew⟩
      · exact .inl (hsame.trans hold)
      · exact .inr ⟨x, .inl hx, hr, hflaw, h'.persists hthere (hsuits x hx), hnew⟩
    · exact .inr ⟨c, .inr rfl, List.prefix_rfl, hadmitted.1, h'.put hadmitted, fun hne => absurd rfl hne⟩
    · exact .inr ⟨c, .inr rfl, hway, hadmitted.1, h'.put hadmitted, fun _ => h.kinds.node_eq_none hnone⟩

/-- The directory that a parcel goes to is handed over. -/
theorem ensureParent (h : z.Dealt puts base d) (hp : z.Spells c.copy c.names) (hshort : ∀ n ∈ c.names, n.utf8ByteSize ≤ maxName) :
    z.Dealt (fun x => puts x ∨ c.before = some x) base (Replica.diskAfter (Replica.ensureParent c.copy) d) := by
  rcases ensureParent_delivers h.tidy hp hshort with ⟨hnone, hsame⟩ | ⟨w, hw, hdelivery⟩
  · rw [hsame]
    exact h.congr fun x => by simp [hnone]
  · refine (h.step hdelivery fun x _ => Parcel.suits_of_directory (Parcel.of_before hw).2.2 x).congr fun x => ?_
    rw [hw, Option.some.injEq, eq_comm (a := w)]

/-- A file is made, and then handed over. -/
theorem create {content : Text.Bytes} {mode : Nat} (h : z.Dealt puts base d) (hp : z.Spells c.copy c.names)
    (hnode : c.node = .file content) (hshort : ∀ n ∈ c.names, n.utf8ByteSize ≤ maxName) (hsuits : ∀ x, puts x → c.Suits x)
    (hcreate : (do Replica.ensureParent c.copy; Replica.createEmptyFile c.copy (some mode) : ReplicaOp Unit) d = .ok () d') :
    z.Dealt (fun x => puts x ∨ c.Brings x) base (Replica.diskAfter (Replica.write c.copy content) d') := by
  have hdelivery := create_delivers h.tidy hp hnode hshort hcreate
  have hthere := hdelivery.put (admitted_of_create h.tidy hp hnode hcreate)
  have hdealt := h.step hdelivery hsuits
  cases hbefore : c.before with
  | none => exact hdealt.congr fun x => by simp [Parcel.Brings, hbefore]
  | some w =>
    have hidle := hdealt.tidy.delivery_refl (c := w) fun _ => hdealt.tidy.before_of_node hthere hbefore
    refine (hdealt.step hidle fun x _ => Parcel.suits_of_directory (Parcel.of_before hbefore).2.2 x).congr fun x => ?_
    rw [Parcel.Brings, hbefore, Option.some.injEq, eq_comm (a := w), or_assoc]

/-- A file that cannot be made cannot be handed over. -/
theorem refuse {content : Text.Bytes} {mode : Nat} {err : ReplicaError} (h : z.Dealt puts base d)
    (hp : z.Spells c.copy c.names) (hnode : c.node = .file content) (hshort : ∀ n ∈ c.names, n.utf8ByteSize ≤ maxName)
    (hsuits : ∀ x, puts x → c.Suits x)
    (hcreate : (do Replica.ensureParent c.copy; Replica.createEmptyFile c.copy (some mode) : ReplicaOp Unit) d = .error err d') :
    ¬ z.Admitted c d ∧ z.Dealt (fun x => puts x ∨ c.Brings x) base d' := by
  obtain ⟨rfl, hrefused⟩ := create_error h.tidy hp hcreate
  have hnot : ¬ z.Admitted c d := by
    rw [Admitted, hnode]
    exact hrefused content
  have hdealt := h.ensureParent hp hshort
  have hkinds : z.KeepsKinds d (Replica.diskAfter (Replica.ensureParent c.copy) d) := by
    rcases ensureParent_delivers h.tidy hp hshort with ⟨-, hsame⟩ | ⟨w, -, hdelivery⟩
    · rw [hsame]
      exact fun _ k hk => ⟨k, hk, rfl⟩
    · exact hdelivery.keepsKinds
  have hidle := hdealt.tidy.delivery_refl (c := c) fun hadmitted => absurd (hadmitted.of_keepsKinds hkinds) hnot
  refine ⟨hnot, (hdealt.step hidle ?_).congr fun x => ?_⟩
  · exact fun x hx => hx.elim (hsuits x) fun hx => Parcel.suits_of_before hx (by rw [hnode]; rfl)
  · rw [Parcel.Brings, or_assoc, or_comm (a := x = c)]

/-- What a disk lacks of another one is to be delivered, and all that is to be delivered there is
    on the other one. -/
def Lacks (z : Site) (puts : Parcel → Prop) (base e : Disk) (r : List String) : Prop :=
  (∃ c, puts c ∧ r <+: c.names)
    ∧ (∀ c, puts c → r <+: c.names → c.copy.flaw? = none ∧ z.node e c.names = some c.node)
    ∧ (z.node base r = none
      ∨ ∃ k k', z.node base r = some k ∧ z.node e r = some k' ∧ k.isDirectory = k'.isDirectory)

variable (hlacks : ∀ r, z.node base r = z.node e r ∨ Lacks z puts base e r)
include hlacks

/-- What has been delivered to a disk that lacks something is of the same kind as on the disk on
    which all that is missing can be found. -/
theorem kind_eq (h : z.Dealt puts base d) (he : z.Tidy e) (hk : z.node d r = some k) (hk' : z.node e r = some k') :
    k.isDirectory = k'.isDirectory := by
  cases hbase : z.node base r with
  | some k₀ =>
    obtain ⟨k₁, hk₁, hkind⟩ := h.kinds r k₀ hbase
    rw [hk] at hk₁
    cases hk₁
    rcases hlacks r with hsame | ⟨-, -, hnone | ⟨k₂, k₃, hk₂, hk₃, hkind'⟩⟩
    · rw [hbase, hk'] at hsame
      cases hsame
      exact hkind
    · rw [hbase] at hnone
      cases hnone
    · rw [hbase] at hk₂
      rw [hk'] at hk₃
      cases hk₂
      cases hk₃
      exact hkind.trans hkind'
  | none =>
    rcases hlacks r with hsame | ⟨-, hthere, -⟩
    · rw [hbase, hk'] at hsame
      cases hsame
    rcases h.frame r with hsame | ⟨c, hc, hr, -, hput, -⟩
    · rw [hk, hbase] at hsame
      cases hsame
    obtain ⟨-, hput'⟩ := hthere c hc hr
    by_cases heq : r = c.names
    · subst heq
      rw [hput] at hk
      rw [hput'] at hk'
      cases hk
      cases hk'
      rfl
    · rw [h.tidy.node_above hput hr heq] at hk
      rw [he.node_above hput' hr heq] at hk'
      cases hk
      cases hk'
      rfl

/-- **Where all that is missing of a replica is delivered again, it shows what it did.** -/
theorem node_eq (h : z.Dealt puts base d) (he : z.Tidy e) (hsettled : ∀ c, puts c → z.Settled c e) (r : List String) :
    z.node d r = z.node e r := by
  have hkind : ∀ {r k k'}, z.node d r = some k → z.node e r = some k' → k.isDirectory = k'.isDirectory :=
    h.kind_eq hlacks he
  -- A parcel that is on one of the two disks can be put on the other one, and so it is there.
  have hthere : ∀ c, puts c → c.copy.flaw? = none → z.node e c.names = some c.node → z.node d c.names = some c.node := by
    intro c hc hflaw hput
    refine h.settled c hc ⟨hflaw, fun r k hr hne hk => ?_, fun k hk => hkind hk hput, (he.reaches_of_node hput).short⟩
    exact Node.isDirectory_eq_true_iff.mp (hkind hk (he.node_above hput hr hne))
  have hback : ∀ c, puts c → c.copy.flaw? = none → z.node d c.names = some c.node → z.node e c.names = some c.node := by
    intro c hc hflaw hput
    refine hsettled c hc ⟨hflaw, fun r k hr hne hk => ?_, fun k hk => (hkind hput hk).symm,
      (h.tidy.reaches_of_node hput).short⟩
    exact Node.isDirectory_eq_true_iff.mp (hkind (h.tidy.node_above hput hr hne) hk).symm
  have hsame : ∀ c : Parcel, r <+: c.names → z.node d c.names = some c.node → z.node e c.names = some c.node →
      z.node d r = z.node e r := by
    intro c hr hput hput'
    by_cases heq : r = c.names
    · rw [heq, hput, hput']
    · rw [h.tidy.node_above hput hr heq, he.node_above hput' hr heq]
  rcases hlacks r with hbase | ⟨⟨c, hc, hr⟩, hall, -⟩
  · rcases h.frame r with hold | ⟨c, hc, hr, hflaw, hput, -⟩
    · exact hold.trans hbase
    · exact hsame c hr hput (hback c hc hflaw hput)
  · obtain ⟨hflaw, hput'⟩ := hall c hc hr
    exact hsame c hr (hthere c hc hflaw hput') hput'

end Dealt

end Site

end LiveWorkspace
