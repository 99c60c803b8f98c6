/-
  LiveWorkspace/Proofs/Replica/Moves.lean
  =======================================
  **An entry that has moved along need not move again.**

  When a path is said to have been renamed, its copy moves along, and then the new path's parcels
  are delivered, and those of what stays at the old one.  When the same is said once more, there
  may again be something to move: what has been delivered to the old place.  It moves only where
  a file may be replaced, so that it is one file, the same as before, and lands where the first
  one has landed.  All that is missing then is delivered again (`Site.Retold.lacks`).
-/
import LiveWorkspace.Proofs.Replica.Deliveries

namespace LiveWorkspace

namespace Site

variable {z : Site} {base d d' e t d₀ d₁ : Disk} {p p' : Path} {ns ms q r : List String} {k k' : Node}

/-! ### Where an entry may move -/

/-- Below a place there is nothing just where there is nothing at the names behind it. -/
theorem Tidy.below_isEmpty_iff (h : z.Tidy d) (ms : List String) :
    (d.below (z.place ms)).isEmpty = true ↔ ∀ r, ms <+: r → r ≠ ms → z.node d r = none := by
  rw [List.isEmpty_iff]
  constructor
  · rintro hnil r ⟨rest, rfl⟩ hne
    rw [h.node_eq_none_iff]
    refine Option.eq_none_iff_forall_ne_some.mpr fun y hy => ?_
    rw [place_append] at hy
    exact Disk.below_ne_nil hy (by simpa using hne) hnil
  · intro hnone
    rw [Disk.below, List.map_eq_nil_iff, List.filter_eq_nil_iff]
    rintro ⟨loc, y⟩ hy hbelow
    simp only [Bool.and_eq_true, List.isPrefixOf_iff_prefix, bne_iff_ne] at hbelow
    obtain ⟨y', hy'⟩ := Option.ne_none_iff_exists'.mp (Disk.get?_ne_none_of_mem hy)
    obtain ⟨r, rfl, -⟩ := h.named loc y' ((zone_prefix_place z ms).trans hbelow.1) hy'
    have hr := hnone r (place_prefix_iff.mp hbelow.1) fun heq => hbelow.2 (by rw [heq])
    rw [h.node_eq_none_iff, hy'] at hr
    cases hr

/-- An entry may take the place of one of its kind, if that holds nothing. -/
theorem Tidy.mayReplace_iff (h : z.Tidy d) {x : Entry} (hx : x.node? = some k) :
    d.mayReplace x (z.place ms) = .ok () ↔ ∀ k', z.node d ms = some k' →
      k'.isDirectory = k.isDirectory ∧ ∀ r, ms <+: r → r ≠ ms → z.node d r = none := by
  have hkind := Entry.isDirectory_of_node? hx
  unfold Disk.mayReplace
  cases hget : d.get? (z.place ms) with
  | none => simp [h.node_eq_none_iff.mpr hget]
  | some old =>
    obtain ⟨k', hk'⟩ : ∃ k', z.node d ms = some k' := Option.ne_none_iff_exists'.mp fun hnone => by
      rw [h.node_eq_none_iff, hget] at hnone
      cases hnone
    have hold : k'.isDirectory = old.isDirectory := by
      rw [node, hget] at hk'
      exact Entry.isDirectory_of_node? hk'
    simp only [hk', Option.some.injEq, forall_eq', hold, hkind]
    cases hold' : old.isDirectory with
    | true =>
      cases hx' : x.isDirectory with
      | true =>
        have hempty := h.below_isEmpty_iff ms
        simp only [hempty]
        split <;> simp_all
      | false => simp
    | false =>
      cases hx' : x.isDirectory with
      | true => simp
      | false =>
        -- Nothing is below a file.
        simp only [true_and, true_iff]
        intro r hr hne
        refine Option.eq_none_iff_forall_ne_some.mpr fun y hy => ?_
        rw [h.node_above hy hr hne.symm] at hk'
        cases hk'
        rw [hold'] at hold
        cases hold

/-- A renaming ends with the directories above the new path, or moves something on from there. -/
theorem diskAfter_rename (h : z.Tidy d) (hp : z.Spells p ns) (hp' : z.Spells p' ms) :
    (∃ err, Replica.rename p p' d = .error err (Replica.diskAfter (Replica.ensureParent p') d))
      ∨ ∃ d', Replica.rename p p' d = .ok () d' ∧ z.Renaming ns ms (Replica.diskAfter (Replica.ensureParent p') d) d' := by
  cases hrun : Replica.rename p p' d with
  | error err d' =>
    refine .inl ⟨err, ?_⟩
    rcases bind_eq_error.mp hrun with hparent | ⟨_, t, hparent, hrename⟩
    · rw [Replica.diskAfter, hparent]
    · cases hop : (Disk.rename p p' : DiskOp Unit) t with
      | ok u t' =>
        rw [as_eq_ok.mpr hop] at hrename
        cases hrename
      | error err' t' =>
        simp only [DiskOp.as, hop, EStateM.Result.error.injEq] at hrename
        rw [Replica.diskAfter, hparent, ← hrename.2, change_error hop]
  | ok u d' =>
    obtain ⟨_, t, hparent, hrename⟩ := bind_eq_ok.mp hrun
    have hlaid : z.Laid ms .directory d t := (wp_of_ok hparent).mp (ensureParent_lays hp' d (h.laid ms _))
    refine .inr ⟨d', rfl, ?_⟩
    rw [Replica.diskAfter, hparent]
    exact hlaid.tidy.stands.diskRename_ok hp hp' (as_eq_ok.mp hrename)

/-- What is there moves to where it may be put, if nothing is there or what is there holds nothing. -/
theorem rename_succeeds (h : z.Tidy d) (hp : z.Spells p ns) (hp' : z.Spells p' ms) (hflaw : p.flaw? = none)
    (hflaw' : p'.flaw? = none) (hk : z.node d ns = some k) (hfree : z.Free d ms k) (hbelow : ¬ ns <+: ms)
    (habove : ¬ ms <+: ns) (hempty : ∀ r, ms <+: r → r ≠ ms → z.node d r = none) :
    ∃ d', Replica.rename p p' d = .ok () d' := by
  obtain ⟨t, hparent, hreach⟩ := h.ensureParent_succeeds hp' hflaw' hfree
  have hlaid : z.Laid ms k d t := (wp_of_ok hparent).mp (ensureParent_lays hp' d (h.laid ms k))
  have hfree' := hfree.of_lays hlaid.lays List.prefix_rfl (by rw [if_pos rfl])
  have hkept : z.node t ns = some k := by
    rcases hlaid.lays.frame ns with hsame | ⟨hnone, -⟩ | ⟨heq, -⟩
    · exact hsame.trans hk
    · rw [hk] at hnone
      cases hnone
    · exact absurd (heq ▸ List.prefix_rfl) hbelow
  obtain ⟨x, hx, hxk⟩ := Option.bind_eq_some_iff.mp hkept
  have hmay : t.mayReplace x (z.place ms) = .ok () := by
    refine (hlaid.tidy.mayReplace_iff hxk).mpr fun k' hk' => ⟨hfree'.last k' hk', fun r hr hne => ?_⟩
    rcases hlaid.lays.frame r with hsame | ⟨-, -, hway, -⟩ | ⟨heq, -⟩
    · exact hsame.trans (hempty r hr hne)
    · exact absurd (hway.eq_of_length (Nat.le_antisymm hway.length_le hr.length_le)) hne
    · exact absurd heq hne
  obtain ⟨a, n, ha, hn, haplace, hat⟩ := hlaid.tidy.stands.exists_slot hp hflaw (hlaid.tidy.reaches_of_node hkept)
  obtain ⟨b, n', hb, hn', hbplace, hbat⟩ := hlaid.tidy.stands.exists_slot hp' hflaw' hreach
  have hne : ¬ z.place ns = z.place ms := fun heq => hbelow (place_inj heq ▸ List.prefix_rfl)
  have hbelow' : ¬ (z.place ns).isPrefixOf (z.place ms) = true := by
    rwa [List.isPrefixOf_iff_prefix, place_prefix_iff]
  have habove' : ¬ (z.place ms).isPrefixOf (z.place ns) = true := by
    rwa [List.isPrefixOf_iff_prefix, place_prefix_iff]
  have hrename : (Disk.rename p p' : DiskOp Unit) t = .ok () (t.move (z.place ns) (z.place ms)) := by
    refine change_eq_ok.mpr ?_
    simp only [ha, hb, bind, Except.bind, hn, hn', hat, hx, hbat, haplace, hbplace, hp.noSeparator, hp'.noSeparator,
      Bool.false_eq_true, or_self, and_false, if_false, if_neg hne, if_neg hbelow', if_neg habove', hmay, Except.map]
  exact ⟨_, bind_eq_ok.mpr ⟨(), t, hparent, as_eq_ok.mpr hrename⟩⟩

/-- The directory above the new names is made the first time, if it still could be made. -/
theorem parent_made {t : Disk} {w : Parcel} (h : z.Tidy d) (hp' : z.Spells p' ms) (hshort : ∀ n ∈ ms, n.utf8ByteSize ≤ maxName)
    (hw : Parcel.before ⟨p', ms, .directory⟩ = some w)
    (hadmitted : z.Admitted w t) (hkinds : z.KeepsKinds (Replica.diskAfter (Replica.ensureParent p') d) t) :
    z.node (Replica.diskAfter (Replica.ensureParent p') d) w.names = some .directory := by
  rcases ensureParent_delivers (c := ⟨p', ms, .directory⟩) h hp' hshort with ⟨hnone, -⟩ | ⟨w', hw', hdelivery⟩
  · rw [hnone] at hw
    cases hw
  · obtain rfl := Option.some.inj (hw.symm.trans hw')
    rw [hdelivery.put (hadmitted.of_keepsKinds (hdelivery.keepsKinds.trans hkinds)), (Parcel.of_before hw).2.2]

/-- It is there after the first move, whether or not something has moved. -/
theorem parent_moved {t : Disk} {w : Parcel} (h : z.Tidy d) (hp : z.Spells p ns) (hp' : z.Spells p' ms)
    (hshort : ∀ n ∈ ms, n.utf8ByteSize ≤ maxName) (hw : Parcel.before ⟨p', ms, .directory⟩ = some w)
    (hadmitted : z.Admitted w t) (hkinds : z.KeepsKinds (Replica.diskAfter (Replica.rename p p') d) t) :
    z.node (Replica.diskAfter (Replica.rename p p') d) w.names = some .directory := by
  have hway : w.names <+: ms := Parcel.before_prefix hw
  have hlast : w.names ≠ ms := Parcel.before_ne hw
  rcases diskAfter_rename h hp hp' with ⟨err, hrun⟩ | ⟨d', hrun, hrenaming⟩
  · rw [Replica.diskAfter, hrun] at hkinds ⊢
    exact parent_made h hp' hshort hw hadmitted hkinds
  · rw [Replica.diskAfter, hrun] at hkinds ⊢
    cases hrenaming with
    | same heq => exact parent_made h hp' hshort hw hadmitted hkinds
    | moved y hsource hreach hproper hbelow habove hfree =>
      rw [ node_move_of_not_prefix fun hns => hbelow (hns.trans hway)]
      · obtain ⟨rest, hrest⟩ := hway
        rw [← hrest] at hreach
        refine node_eq_directory_iff.mpr (hreach.directoryAt fun hnil => hlast ?_)
        rw [← hrest, hnil, List.append_nil]
      · exact fun hms => hlast (hway.eq_of_length (Nat.le_antisymm hway.length_le hms.length_le))

/-- What has moved is at the new names, and nothing was left at the old ones. -/
theorem after_move (h : z.Tidy d) (hp : z.Spells p ns) (hp' : z.Spells p' ms) (hshort : ∀ n ∈ ms, n.utf8ByteSize ≤ maxName)
    (hrun : Replica.rename p p' d = .ok () d') (hbelow : ¬ ns <+: ms) (habove : ¬ ms <+: ns) :
    (∀ m, z.node d' (ms ++ m) = z.node d (ns ++ m)) ∧ z.node d' ns = none := by
  rcases diskAfter_rename h hp hp' with ⟨err, herror⟩ | ⟨_, hok, hrenaming⟩
  · rw [hrun] at herror
    cases herror
  rw [hrun] at hok
  cases hok
  have hsource : ∀ m, z.node (Replica.diskAfter (Replica.ensureParent p') d) (ns ++ m) = z.node d (ns ++ m) := by
    intro m
    rcases ensureParent_delivers (c := ⟨p', ms, .directory⟩) h hp' hshort with ⟨-, hsame⟩ | ⟨w, hw, hdelivery⟩
    · dsimp only at hsame
      rw [hsame]
    · have hway : w.names <+: ms := Parcel.before_prefix hw
      rcases hdelivery.frame (ns ++ m) with hsame | ⟨-, heq | ⟨hr, -⟩⟩
      · exact hsame
      · exact absurd ((List.prefix_append ns m).trans (heq ▸ hway)) hbelow
      · exact absurd ((List.prefix_append ns m).trans (hr.trans hway)) hbelow
  cases hrenaming with
  | same heq => exact absurd (heq ▸ List.prefix_rfl) hbelow
  | moved y _ _ _ _ _ _ => exact ⟨fun m => (node_move_target m).trans (hsource m), node_move_source List.prefix_rfl habove⟩

/-! ### What stays -/

/-- Files at and below some names, which are there already. -/
def Staying (z : Site) (ns : List String) (stays : Parcel → Prop) (d : Disk) : Prop :=
  ∀ c, stays c → ns <+: c.names ∧ c.copy.flaw? = none ∧ c.node.isDirectory = false ∧ z.node d c.names = some c.node

/-- What stays is delivered again with the directories that it is in. -/
def Again (stays : Parcel → Prop) (x : Parcel) : Prop := ∃ c, stays c ∧ c.Brings x

/-! ### Moving twice -/

/-- What is done about a copy whose path has got another name: if it is there, it moves along. -/
def moveAlong (p p' : Path) (d : Disk) : Disk :=
  if d.hasPath p then Replica.diskAfter (Replica.rename p p') d else d

theorem Tidy.moveAlong (h : z.Tidy d) (hp : z.Spells p ns) (hp' : z.Spells p' ms) : z.Tidy (moveAlong p p' d) := by
  rw [Site.moveAlong]
  split
  · exact Replica.diskAfter_keeps (rename_keeps_tidy hp hp') h
  · exact h

/-- What is delivered after a copy has moved along: parcels at and below its new names, with the
    directory that these are in, and the files at and below its old ones that stay. -/
structure Retold (z : Site) (ns ms : List String) (targets stays : Parcel → Prop) (d₀ : Disk) : Prop where
  target : ∀ c, targets c → ms <+: c.names ∨ ms ≠ [] ∧ c.names = ms.dropLast ∧ c.node = .directory
  single : ∀ c, targets c → c.names = ms → c.node.isDirectory = false → ∀ x, targets x → ms <+: x.names → x = c
  stay : z.Staying ns stays d₀

/-- All that is delivered. -/
def Bundle (targets stays : Parcel → Prop) (x : Parcel) : Prop := targets x ∨ Again stays x

namespace Retold

variable {targets stays : Parcel → Prop} {c x : Parcel}

theorem way_of_brings (hx : c.Brings x) : x.names <+: c.names := by
  rcases hx with rfl | hx
  · exact List.prefix_rfl
  · exact Parcel.before_prefix hx

/-- Whatever comes along with what stays, and is at or below the old names, is a file that stays. -/
theorem eq_of_brings (hx : c.Brings x) (heq : c.names = ns) (hns : ns <+: x.names) : x = c := by
  rcases hx with hx | hx
  · exact hx
  · have hway := heq ▸ Parcel.before_prefix hx
    have hsame := hway.eq_of_length (Nat.le_antisymm hway.length_le hns.length_le)
    exact absurd (hsame.trans heq.symm) (Parcel.before_ne hx)

/-- Where something stays, there was something at the old names. -/
theorem found (h : z.Retold ns ms targets stays d₀) (h₀ : z.Tidy d₀) (hc : stays c) : z.node d₀ ns ≠ none := by
  obtain ⟨hway, -, -, hthere⟩ := h.stay c hc
  by_cases heq : ns = c.names
  · rw [heq, hthere]
    exact Option.some_ne_none _
  · rw [h₀.node_above hthere hway heq]
    exact Option.some_ne_none _

/-- Nothing is delivered for the new names that lies at or below the old ones. -/
theorem apart (h : z.Retold ns ms targets stays d₀) (hbelow : ¬ ns <+: ms) (habove : ¬ ms <+: ns) (hx : targets x) :
    ¬ ns <+: x.names := by
  intro hns
  rcases h.target x hx with hms | ⟨-, hnames, -⟩
  · exact (List.prefix_or_prefix_of_prefix hns hms).elim hbelow habove
  · rw [hnames] at hns
    exact hbelow (hns.trans (List.dropLast_prefix ms))

/-- A file that stays has come back to the old names, after the one that was there has moved on to
    the new ones, and nothing is below either of them. -/
structure Back (z : Site) (ns ms : List String) (targets stays : Parcel → Prop) (base d₁ : Disk) (c : Parcel) : Prop where
  dealt : z.Dealt (Bundle targets stays) base d₁
  among : stays c
  only : ∀ c', stays c' → c'.names = ns
  back : z.node d₁ ns = some c.node
  landed : z.node base ms = some c.node
  source : ∀ m, m ≠ [] → z.node d₁ (ns ++ m) = none
  target : ∀ m, m ≠ [] → z.node d₁ (ms ++ m) = none

namespace Back

variable {moved : Disk}

/-- When it has moved on as well, it is delivered to the old names again. -/
theorem lacks_source (hback : Back z ns ms targets stays base d₁ c) (h : z.Retold ns ms targets stays d₀)
    (hbelow : ¬ ns <+: ms) (habove : ¬ ms <+: ns) (hgone : z.node moved ns = none) :
    Dealt.Lacks z (Bundle targets stays) moved d₁ ns := by
  refine ⟨⟨c, .inr ⟨c, hback.among, .inl rfl⟩, hback.only c hback.among ▸ List.prefix_rfl⟩, fun x hx hr => ?_, .inl hgone⟩
  obtain ⟨-, -, -, hold⟩ := h.stay c hback.among
  rcases hx with hx | ⟨c', hc', hx⟩
  · exact absurd hr (h.apart hbelow habove hx)
  · obtain rfl := eq_of_brings hx (hback.only c' hc') hr
    obtain ⟨-, hsound, -, hold'⟩ := h.stay x hc'
    rw [hback.only c hback.among] at hold
    rw [hback.only x hc'] at hold' ⊢
    exact ⟨hsound, hback.back.trans (hold.symm.trans hold')⟩

/-- What it then lands on is what the first one has left at the new names, or has been delivered
    there since, and will be so again. -/
theorem lacks_target (hback : Back z ns ms targets stays base d₁ c) (h : z.Retold ns ms targets stays d₀)
    (habove : ¬ ms <+: ns) (hmoved : z.node moved ms = some c.node) :
    z.node moved ms = z.node d₁ ms ∨ Dealt.Lacks z (Bundle targets stays) moved d₁ ms := by
  obtain ⟨-, -, hfile, -⟩ := h.stay c hback.among
  rcases hback.dealt.frame ms with hsame | ⟨x, hx, hway, hsound, hput, -⟩
  · exact .inl (hmoved.trans (hsame.trans hback.landed).symm)
  have hstays : ∀ x, Again stays x → ¬ ms <+: x.names := by
    rintro x ⟨c', hc', hx⟩ hway
    exact habove (hback.only c' hc' ▸ hway.trans (way_of_brings hx))
  have hx := hx.resolve_right fun hx => hstays x hx hway
  -- A file has landed, so that what is delivered there is a file at the new names themselves.
  obtain ⟨k, hk, hkind⟩ := hback.dealt.kinds _ _ hback.landed
  rw [hfile] at hkind
  have heq : ms = x.names := by
    apply Classical.byContradiction
    intro hne
    rw [hback.dealt.tidy.node_above hput hway hne] at hk
    cases hk
    cases hkind
  have hxk : x.node = k := Option.some.inj (hput.symm.trans (heq ▸ hk))
  refine .inr ⟨⟨x, .inl hx, hway⟩, fun x' hx' hway' => ?_, .inr ⟨c.node, k, hmoved, hk, hfile.trans hkind.symm⟩⟩
  rw [h.single x hx heq.symm (hxk ▸ hkind) x' (hx'.resolve_right fun hx' => hstays x' hx' hway') hway']
  exact ⟨hsound, hput⟩

end Back

/-- What is at the old names where nothing was has been delivered, and not for something that
    stays: the directory above the new names has been delivered with it. -/
theorem parent_delivered (h : z.Retold ns ms targets stays d₀) (h₀ : z.Tidy d₀)
    (hdealt : z.Dealt (Bundle targets stays) (moveAlong p p' d₀) d₁) (hnone : z.node d₀ ns = none) (hbase : moveAlong p p' d₀ = d₀)
    (hthere : z.node d₁ ns ≠ none) {w : Parcel} (hw : Parcel.before ⟨p', ms, .directory⟩ = some w) : z.node d₁ w.names = some .directory := by
  have hway : w.names <+: ms := Parcel.before_prefix hw
  rcases hdealt.frame ns with hsame | ⟨x, hx, hns, -, hput, -⟩
  · rw [hbase, hnone] at hsame
    exact absurd hsame hthere
  rcases hx with hx | ⟨c, hc, -⟩
  · rcases h.target x hx with hms | ⟨-, hinit, hxdir⟩
    · refine hdealt.tidy.node_above hput (hway.trans hms) fun heq => Parcel.before_ne hw ?_
      rw [← heq] at hms
      exact hway.eq_of_length (Nat.le_antisymm hway.length_le hms.length_le)
    · rw [(Parcel.of_before hw).2.1, ← hinit, hput, hxdir]
  · exact absurd hnone (h.found h₀ hc)

section Delivered

variable (h : z.Retold ns ms targets stays d₀) (h₀ : z.Tidy d₀) (hp : z.Spells p ns) (hp' : z.Spells p' ms)
  (hshort : ∀ n ∈ ms, n.utf8ByteSize ≤ maxName) (hdealt : z.Dealt (Bundle targets stays) (moveAlong p p' d₀) d₁)
include h h₀ hp hp' hshort hdealt

/-- If something is at the old names, then the directory is there that the new ones are in, or it
    cannot be made. -/
theorem settled_parent (hflaw : p.flaw? = none) (hthere : z.node d₁ ns ≠ none) {w : Parcel}
    (hw : Parcel.before ⟨p', ms, .directory⟩ = some w) : z.Settled w d₁ := by
  intro hadmitted
  rw [(Parcel.of_before hw).2.2]
  cases hhas : d₀.hasPath p with
  | true =>
    have hbase : moveAlong p p' d₀ = Replica.diskAfter (Replica.rename p p') d₀ := by rw [moveAlong, if_pos hhas]
    have hkinds := hbase ▸ hdealt.kinds
    obtain ⟨k, hk, hkind⟩ := hkinds _ _ (parent_moved h₀ hp hp' hshort hw hadmitted hkinds)
    rw [hk, Node.isDirectory_eq_true_iff.mp hkind]
  | false =>
    have hbase : moveAlong p p' d₀ = d₀ := by rw [moveAlong, hhas, if_neg Bool.false_ne_true]
    exact h.parent_delivered h₀ hdealt (h₀.node_eq_none_of_hasPath hp hflaw hhas) hbase hthere hw

/-- Making the directory above the new names changes nothing the second time. -/
theorem idle_parent (hflaw : p.flaw? = none) (hthere : z.node d₁ ns ≠ none) :
    z.Tidy (Replica.diskAfter (Replica.ensureParent p') d₁)
      ∧ ∀ r, z.node (Replica.diskAfter (Replica.ensureParent p') d₁) r = z.node d₁ r := by
  rcases ensureParent_delivers (c := ⟨p', ms, .directory⟩) hdealt.tidy hp' hshort with ⟨-, hsame⟩ | ⟨w, hw, hdelivery⟩
  · dsimp only at hsame
    rw [hsame]
    exact ⟨hdealt.tidy, fun _ => rfl⟩
  · exact ⟨hdelivery.tidy, hdelivery.idle hdealt.tidy (h.settled_parent h₀ hp hp' hshort hdealt hflaw hthere hw)⟩

/-- Something only moves the second time if something has moved the first time. -/
theorem has_moved (hflaw : p.flaw? = none) (hflaw' : p'.flaw? = none) (hk : z.node d₁ ns = some k)
    (hbelow : ¬ ns <+: ms) (habove : ¬ ms <+: ns) (hfree : z.Free d₁ ms k)
    (hempty : ∀ r, ms <+: r → r ≠ ms → z.node d₁ r = none) :
    ∃ d', Replica.rename p p' d₀ = .ok () d' ∧ moveAlong p p' d₀ = d' := by
  cases hhas : d₀.hasPath p with
  | true =>
    obtain ⟨k₀, hk₀⟩ := Option.ne_none_iff_exists'.mp ((h₀.hasPath_iff hp hflaw).mp hhas)
    have hbase : moveAlong p p' d₀ = Replica.diskAfter (Replica.rename p p') d₀ := by rw [moveAlong, if_pos hhas]
    rcases diskAfter_rename h₀ hp hp' with ⟨err, hrun⟩ | ⟨d', hrun, -⟩
    · -- Nothing has moved and nothing has gone, so that it could have moved as well.
      rw [Replica.diskAfter, hrun] at hbase
      rw [hbase] at hdealt
      have hkinds : z.KeepsKinds d₀ d₁ := by
        rcases ensureParent_delivers (c := ⟨p', ms, .directory⟩) h₀ hp' hshort with ⟨-, hsame⟩ | ⟨w, -, hdelivery⟩
        · dsimp only at hsame
          rw [hsame] at hdealt
          exact hdealt.kinds
        · exact hdelivery.keepsKinds.trans hdealt.kinds
      obtain ⟨k₁, hk₁, hkind⟩ := hkinds _ _ hk₀
      rw [hk] at hk₁
      cases hk₁
      have hfree₀ : z.Free d₀ ms k₀ := by
        obtain ⟨hway, hlast, hshort'⟩ := hfree.of_keepsKinds hkinds
        exact ⟨hway, fun k' hk' => (hlast k' hk').trans hkind, hshort'⟩
      obtain ⟨d', hok⟩ := rename_succeeds h₀ hp hp' hflaw hflaw' hk₀ hfree₀ hbelow habove fun r hr hne =>
        hkinds.node_eq_none (hempty r hr hne)
      rw [hrun] at hok
      cases hok
    · exact ⟨d', hrun, by rw [hbase, Replica.diskAfter, hrun]⟩
  | false =>
    have hbase : moveAlong p p' d₀ = d₀ := by rw [moveAlong, hhas, if_neg Bool.false_ne_true]
    have hnone := h₀.node_eq_none_of_hasPath hp hflaw hhas
    rcases hdealt.frame ns with hsame | ⟨x, hx | ⟨c, hc, -⟩, hns, -⟩
    · rw [hbase, hnone, hk] at hsame
      cases hsame
    · exact absurd hns (h.apart hbelow habove hx)
    · exact absurd hnone (h.found h₀ hc)

/-- What is at the old names, and may move on to the new ones, is a file that stays and has come
    back. -/
theorem exists_back (hflaw : p.flaw? = none) (hflaw' : p'.flaw? = none) (hk : z.node d₁ ns = some k)
    (hbelow : ¬ ns <+: ms) (habove : ¬ ms <+: ns) (hfree : z.Free d₁ ms k)
    (hempty : ∀ r, ms <+: r → r ≠ ms → z.node d₁ r = none) :
    ∃ c, Back z ns ms targets stays (moveAlong p p' d₀) d₁ c := by
  obtain ⟨d', hfirst, hbase⟩ := h.has_moved h₀ hp hp' hshort hdealt hflaw hflaw' hk hbelow habove hfree hempty
  obtain ⟨htarget, hgone⟩ := after_move h₀ hp hp' hshort hfirst hbelow habove
  rw [hbase] at hdealt ⊢
  -- What stays is at the old names themselves: something below them would be in the way at the new ones.
  have honly : ∀ c, stays c → c.names = ns := by
    intro c hc
    obtain ⟨⟨m, hm⟩, -, -, hold⟩ := h.stay c hc
    by_cases hnil : m = []
    · rw [← hm, hnil, List.append_nil]
    · have hmoved := htarget m
      rw [hm, hold] at hmoved
      obtain ⟨k', hk', -⟩ := hdealt.kinds _ _ hmoved
      rw [hempty _ (List.prefix_append ms m) (by simpa using hnil)] at hk'
      cases hk'
  obtain ⟨c, hc, hput⟩ : ∃ c, stays c ∧ z.node d₁ ns = some c.node := by
    rcases hdealt.frame ns with hsame | ⟨x, hx | ⟨c, hc, hx⟩, hns, -, hput, -⟩
    · rw [hgone, hk] at hsame
      cases hsame
    · exact absurd hns (h.apart hbelow habove hx)
    · obtain rfl := eq_of_brings hx (honly c hc) hns
      rw [honly x hc] at hput
      exact ⟨x, hc, hput⟩
  obtain ⟨-, -, hfile, hold⟩ := h.stay c hc
  have hlanded := htarget []
  rw [List.append_nil, List.append_nil, ← honly c hc, hold] at hlanded
  refine ⟨c, hdealt, hc, honly, hput, hlanded, fun m hm => ?_, fun m hm => ?_⟩
  · refine Option.eq_none_iff_forall_ne_some.mpr fun k' hk' => ?_
    rw [hdealt.tidy.node_above hk' (List.prefix_append ns m) (by simpa using hm)] at hput
    rw [← Option.some.inj hput] at hfile
    cases hfile
  · exact hempty _ (List.prefix_append ms m) (by simpa using hm)

/-- **What is missing after the copy has been moved along once more is delivered again.** -/
theorem lacks (r : List String) : z.node (moveAlong p p' d₁) r = z.node d₁ r
    ∨ Dealt.Lacks z (Bundle targets stays) (moveAlong p p' d₁) d₁ r := by
  cases hhas : d₁.hasPath p with
  | false =>
    rw [moveAlong, hhas, if_neg Bool.false_ne_true]
    exact .inl rfl
  | true =>
  obtain ⟨loc, x, hstat⟩ := Disk.exists_stat_of_hasPath hhas
  have hflaw := Disk.flaw?_of_stat hstat
  have hthere := (hdealt.tidy.hasPath_iff hp hflaw).mp hhas
  obtain ⟨htidy, hidle⟩ := h.idle_parent h₀ hp hp' hshort hdealt hflaw hthere
  rw [moveAlong, if_pos hhas]
  rcases diskAfter_rename hdealt.tidy hp hp' with ⟨err, hrun⟩ | ⟨d', hrun, hrenaming⟩
  · rw [Replica.diskAfter, hrun]
    exact .inl (hidle r)
  have hflaw' : p'.flaw? = none := by
    obtain ⟨_, t, -, hrename⟩ := bind_eq_ok.mp hrun
    exact flaw?_of_rename (as_eq_ok.mp hrename)
  rw [Replica.diskAfter, hrun]
  cases hrenaming with
  | same _ => exact .inl (hidle r)
  | moved y hsource hreach hproper hbelow habove hfree =>
  obtain ⟨k, hk⟩ := Option.ne_none_iff_exists'.mp hthere
  have hy : y.node? = some k := by
    rw [← hidle, node, hsource, Option.bind_some] at hk
    exact hk
  have hmay := (htidy.mayReplace_iff hy).mp hfree
  have hempty : ∀ r, ms <+: r → r ≠ ms → z.node d₁ r = none := by
    intro r hr hne
    refine Option.eq_none_iff_forall_ne_some.mpr fun k' hk' => ?_
    have habove' := hdealt.tidy.node_above hk' hr hne.symm
    rw [← hidle] at habove' hk'
    rw [(hmay _ habove').2 r hr hne] at hk'
    cases hk'
  have hfree₁ : z.Free d₁ ms k :=
    (Free.of_reaches hreach fun k' hk' => (hmay k' hk').1).of_keepsKinds fun r k' hk' => ⟨k', (hidle r).trans hk', rfl⟩
  obtain ⟨c, hback⟩ := h.exists_back h₀ hp hp' hshort hdealt hflaw hflaw' hk hbelow habove hfree₁ hempty
  have hcross : ¬ (ns <+: r ∧ ms <+: r) := fun hboth =>
    (List.prefix_or_prefix_of_prefix hboth.1 hboth.2).elim hbelow habove
  by_cases hns : ns <+: r
  · have hleft : z.node ((Replica.diskAfter (Replica.ensureParent p') d₁).move (z.place ns) (z.place ms)) r = none :=
      node_move_source hns fun hms => hcross ⟨hns, hms⟩
    obtain ⟨m, rfl⟩ := hns
    by_cases hm : m = []
    · rw [hm, List.append_nil] at hleft ⊢
      exact .inr (hback.lacks_source h hbelow habove hleft)
    · exact .inl (hleft.trans (hback.source m hm).symm)
  by_cases hms : ms <+: r
  · obtain ⟨m, rfl⟩ := hms
    have hmoved : z.node ((Replica.diskAfter (Replica.ensureParent p') d₁).move (z.place ns) (z.place ms)) (ms ++ m)
        = z.node d₁ (ns ++ m) := (node_move_target m).trans (hidle _)
    by_cases hm : m = []
    · rw [hm, List.append_nil, List.append_nil, hback.back] at hmoved
      rw [hm, List.append_nil]
      exact hback.lacks_target h habove hmoved
    · exact .inl (hmoved.trans ((hback.source m hm).trans (hback.target m hm).symm))
  · rw [ node_move_of_not_prefix hns hms]
    exact .inl (hidle r)

end Delivered

end Retold

end Site

end LiveWorkspace
