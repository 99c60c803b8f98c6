/-
  LiveWorkspace/Proofs/Replica/Series.lean
  ========================================
  **Parcels that are handed over in their order.**

  Which of two parcels is put may depend on their order, since one may be in the way of the other.
  The same parcels in the same order have the same outcome on replicas that show the same
  (`Site.Handed.node_eq`).  So have they where one of the two has more of the directories that
  all of them need, as a replica has after a removal that was said before (`Site.Handed.again`).
-/
import LiveWorkspace.Proofs.Replica.Deliveries

namespace LiveWorkspace

namespace Site

variable {z : Site} {base d d' t a a' b b' : Disk} {c x : Parcel} {cs ds : List Parcel} {ns r : List String}
  {content : Text.Bytes}

/-! ### Series -/

/-- Parcels have been handed over one after the other. -/
def Handed (z : Site) : List Parcel → Disk → Disk → Prop
  | [], base, d => d = base
  | c :: cs, base, d => ∃ t, z.Delivery c base t ∧ Handed z cs t d

/-- A parcel behind the directory that it goes to. -/
def Parcel.chain (c : Parcel) : List Parcel := c.before.toList ++ [c]

theorem Parcel.mem_chain : x ∈ c.chain ↔ c.Brings x := by
  rw [chain, List.mem_append, Option.mem_toList, List.mem_singleton, Brings, or_comm]

namespace Handed

theorem append (h : z.Handed cs base t) (h' : z.Handed ds t d) : z.Handed (cs ++ ds) base d := by
  induction cs generalizing base with
  | nil =>
    obtain rfl : t = base := h
    exact h'
  | cons c rest ih =>
    obtain ⟨s, hdelivery, hrest⟩ := h
    exact ⟨s, hdelivery, ih hrest⟩

theorem one (h : z.Delivery c base d) : z.Handed [c] base d := ⟨d, h, rfl⟩

theorem tidy (h : z.Handed cs base d) (htidy : z.Tidy base) : z.Tidy d := by
  induction cs generalizing base with
  | nil =>
    obtain rfl : d = base := h
    exact htidy
  | cons c rest ih =>
    obtain ⟨s, hdelivery, hrest⟩ := h
    exact ih hrest hdelivery.tidy

/-- A file is handed over behind its directory when it is written. -/
theorem write (h : z.Handed cs base d) (htidy : z.Tidy base) (hp : z.Spells c.copy c.names) (hnode : c.node = .file content)
    (hshort : ∀ n ∈ c.names, n.utf8ByteSize ≤ maxName) :
    z.Handed (cs ++ c.chain) base (Replica.diskAfter (Replica.write c.copy content) d) := by
  refine h.append (Handed.append (t := Replica.diskAfter (Replica.ensureParent c.copy) d) ?_
    (one (write_delivers (h.tidy htidy) hp hnode hshort)))
  rcases ensureParent_delivers (h.tidy htidy) hp hshort with ⟨hnone, hsame⟩ | ⟨w, hw, hdelivery⟩
  · rw [hnone, hsame]
    rfl
  · rw [hw]
    exact one hdelivery

/-- What comes of a series does not depend on its order any more than that. -/
theorem dealt (h : z.Handed cs base d) (htidy : z.Tidy base) (hsuits : ∀ c ∈ cs, ∀ x ∈ cs, c.Suits x) :
    z.Dealt (· ∈ cs) base d := by
  suffices hall : ∀ (done rest : List Parcel) (t : Disk), (∀ c ∈ done ++ rest, ∀ x ∈ done ++ rest, c.Suits x) →
      z.Dealt (· ∈ done) base t → z.Handed rest t d → z.Dealt (· ∈ done ++ rest) base d by
    exact hall [] cs base hsuits (.refl htidy fun _ => List.not_mem_nil) h
  intro done rest
  induction rest generalizing done with
  | nil =>
    intro t _ hdealt ht
    obtain rfl : d = t := ht
    rwa [List.append_nil]
  | cons c rest ih =>
    intro t hsuits hdealt ht
    obtain ⟨s, hdelivery, hrest⟩ := ht
    rw [List.append_cons] at hsuits ⊢
    refine ih (done ++ [c]) s hsuits ((hdealt.step hdelivery fun x hx => ?_).congr fun x => ?_) hrest
    · exact hsuits c (by simp) x (by simp [hx])
    · rw [List.mem_append, List.mem_singleton]

end Handed

/-! ### The same series twice -/

/-- Two disks show the same in the replica. -/
def Looks (z : Site) (a b : Disk) : Prop := ∀ r, z.node b r = z.node a r

/-- One disk shows what another one does, and perhaps more of the directories above some names. -/
def Raised (z : Site) (ns : List String) (a b : Disk) : Prop :=
  ∀ r, z.node b r = z.node a r ∨ r <+: ns ∧ r ≠ ns ∧ z.node a r = none ∧ z.node b r = some .directory

theorem Looks.raised (h : z.Looks a b) : z.Raised ns a b := fun r => .inl (h r)

/-- Directories above the names of a parcel make no difference to whether it can be put. -/
theorem Raised.admitted_iff (h : z.Raised ns a b) (hc : ns <+: c.names) : z.Admitted c a ↔ z.Admitted c b := by
  refine and_congr_right fun _ => ⟨fun hfree => ⟨fun r k hr hne hk => ?_, fun k hk => ?_, hfree.short⟩,
    fun hfree => ⟨fun r k hr hne hk => ?_, fun k hk => ?_, hfree.short⟩⟩
  · rcases h r with hsame | ⟨-, -, -, hdir⟩
    · exact hfree.way r k hr hne (hsame ▸ hk)
    · rw [hdir] at hk
      exact (Option.some.inj hk).symm
  · rcases h c.names with hsame | ⟨hway, hne, -⟩
    · exact hfree.last k (hsame ▸ hk)
    · exact absurd (hway.eq_of_length (Nat.le_antisymm hway.length_le hc.length_le)) hne
  · rcases h r with hsame | ⟨-, -, hnone, -⟩
    · exact hfree.way r k hr hne (hsame.trans hk)
    · rw [hnone] at hk
      cases hk
  · rcases h c.names with hsame | ⟨hway, hne, -⟩
    · exact hfree.last k (hsame.trans hk)
    · exact absurd (hway.eq_of_length (Nat.le_antisymm hway.length_le hc.length_le)) hne

/-- Where a parcel can be put, it has the same outcome. Else it changes nothing. -/
theorem Delivery.looks (h : z.Delivery c a a') (h' : z.Delivery c b b') (hraised : z.Raised ns a b) (hc : ns <+: c.names)
    (hadmitted : z.Admitted c a) : z.Looks a' b' := by
  have hput := h.put hadmitted
  have hput' := h'.put ((hraised.admitted_iff hc).mp hadmitted)
  intro r
  by_cases hr : r <+: c.names
  · by_cases heq : r = c.names
    · rw [heq, hput, hput']
    · rw [h.tidy.node_above hput hr heq, h'.tidy.node_above hput' hr heq]
  · have hkept : ∀ {e e' : Disk}, z.Delivery c e e' → z.node e' r = z.node e r := by
      intro e e' hdelivery
      rcases hdelivery.frame r with hsame | ⟨-, rfl | ⟨hway, -⟩⟩
      · exact hsame
      · exact absurd List.prefix_rfl hr
      · exact absurd hway hr
    rw [hkept h, hkept h']
    rcases hraised r with hsame | ⟨hway, -⟩
    · exact hsame
    · exact absurd (hway.trans hc) hr

theorem Delivery.looks_of_refused (h : z.Delivery c a a') (hrefused : ¬ z.Admitted c a) : z.Looks a a' := by
  intro r
  rcases h.frame r with hsame | ⟨hadmitted, -⟩
  · exact hsame
  · exact absurd hadmitted hrefused

namespace Handed

/-- **A series changes nothing when it is handed over again.** -/
theorem idle (h : z.Handed cs a b) (h' : z.Handed cs b b') (htidy : z.Tidy a) (hsuits : ∀ c ∈ cs, ∀ x ∈ cs, c.Suits x) :
    z.Looks b b' := by
  have hdealt := h.dealt htidy hsuits
  exact Dealt.node_eq (fun _ => .inl rfl) (h'.dealt hdealt.tidy hsuits) hdealt.tidy hdealt.settled

/-- **A series has the same outcome on disks that show the same.** -/
theorem node_eq (h : z.Handed cs a a') (h' : z.Handed cs b b') (hsame : z.Looks a b) : z.Looks a' b' := by
  induction cs generalizing a b with
  | nil =>
    obtain rfl : a' = a := h
    obtain rfl : b' = b := h'
    exact hsame
  | cons c rest ih =>
    obtain ⟨t, hdelivery, hrest⟩ := h
    obtain ⟨u, hdelivery', hrest'⟩ := h'
    refine ih hrest hrest' ?_
    by_cases hadmitted : z.Admitted c a
    · exact hdelivery.looks hdelivery' (hsame.raised : z.Raised [] a b) List.nil_prefix hadmitted
    · have hrefused : ¬ z.Admitted c b := by
        rwa [← (hsame.raised : z.Raised [] a b).admitted_iff List.nil_prefix]
      intro r
      rw [hdelivery.looks_of_refused hadmitted r, hdelivery'.looks_of_refused hrefused r, hsame r]

/-- Where more of the directories above the series are there, it has the same outcome, or it
    changes nothing. -/
theorem looks_of_raised (h : z.Handed cs a a') (h' : z.Handed cs b b') (hraised : z.Raised ns a b)
    (hbelow : ∀ c ∈ cs, ns <+: c.names) : z.Looks a' b' ∨ z.Looks a a' := by
  induction cs generalizing a b with
  | nil =>
    obtain rfl : a' = a := h
    exact .inr fun _ => rfl
  | cons c rest ih =>
    obtain ⟨t, hdelivery, hrest⟩ := h
    obtain ⟨u, hdelivery', hrest'⟩ := h'
    have hc := hbelow c List.mem_cons_self
    by_cases hadmitted : z.Admitted c a
    · exact .inl (hrest.node_eq hrest' (hdelivery.looks hdelivery' hraised hc hadmitted))
    · have hrefused : ¬ z.Admitted c b := by rwa [← hraised.admitted_iff hc]
      have hleft := hdelivery.looks_of_refused hadmitted
      have hright := hdelivery'.looks_of_refused hrefused
      have hstill : z.Raised ns t u := by
        intro r
        rw [hleft r, hright r]
        exact hraised r
      refine (ih hrest hrest' hstill fun x hx => hbelow x (List.mem_cons_of_mem _ hx)).imp_right fun hsame r => ?_
      rw [hsame r, hleft r]

/-- A series leaves alone what is not on the way to its names, and where it has put something,
    the directories above it are there. -/
theorem raises (h : z.Handed cs a a') (htidy : z.Tidy a) (hbelow : ∀ c ∈ cs, ns <+: c.names) (hr : ¬ ns <+: r) :
    z.node a' r = z.node a r ∨ r <+: ns ∧ r ≠ ns ∧ z.node a r = none ∧ z.node a' r = some .directory := by
  induction cs generalizing a with
  | nil =>
    obtain rfl : a' = a := h
    exact .inl rfl
  | cons c rest ih =>
    obtain ⟨t, hdelivery, hrest⟩ := h
    have hc := hbelow c List.mem_cons_self
    have hlater := ih hrest hdelivery.tidy fun x hx => hbelow x (List.mem_cons_of_mem _ hx)
    rcases hdelivery.frame r with hsame | ⟨hadmitted, rfl | ⟨hway, hnone⟩⟩
    · rwa [hsame] at hlater
    · exact absurd hc hr
    · have hne : r ≠ c.names := fun heq => hr (heq ▸ hc)
      have hdir := hdelivery.tidy.node_above (hdelivery.put hadmitted) hway hne
      have habove : r <+: ns := (List.prefix_or_prefix_of_prefix hway hc).resolve_right hr
      refine .inr ⟨habove, fun heq => hr (heq ▸ List.prefix_rfl), hnone, ?_⟩
      rcases hlater with hsame | ⟨-, -, hnone', -⟩
      · rw [hsame, hdir]
      · rw [hnone'] at hdir
        cases hdir

/-- **What has been cleared and handed over once has the same outcome the second time.** -/
theorem again (h : z.Handed cs a a') (h' : z.Handed cs b b') (htidy : z.Tidy a) (hclear : ∀ r, ns <+: r → z.node a r = none)
    (hcleared : z.Cleared ns a' b) (hbelow : ∀ c ∈ cs, ns <+: c.names) : z.Looks a' b' := by
  have hraised : z.Raised ns a b := by
    intro r
    by_cases hr : ns <+: r
    · exact .inl ((hcleared.gone r hr).trans (hclear r hr).symm)
    · rw [hcleared.kept r hr]
      exact h.raises htidy hbelow hr
  rcases h.looks_of_raised h' hraised hbelow with hsame | hnothing
  · exact hsame
  · -- Nothing has been put, so that nothing was there to be cleared.
    refine h.node_eq h' fun r => ?_
    by_cases hr : ns <+: r
    · rw [hcleared.gone r hr, hclear r hr]
    · rw [hcleared.kept r hr, hnothing r]

end Handed

end Site

end LiveWorkspace
