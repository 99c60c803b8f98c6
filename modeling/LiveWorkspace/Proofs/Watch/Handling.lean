/-
  LiveWorkspace/Proofs/Watch/Handling.lean
  ========================================
  **Handling a notice leaves all that has fallen behind accounted for.**

  A notice is handled by a look at the tree as it is by then: what it tells of an arrival is
  taken up as it is found (`View.TakesUp`), and what it tells of a departure is let go.  What
  is taken up although it will be let go again may well fail, for then something of another
  kind may stand in the way of the copy.  But whatever is not let go by the notices that are
  left has only directories of the tree above it, and nothing stands in its way.
-/
import LiveWorkspace.Proofs.Watch.Backlog

namespace LiveWorkspace.Watch

/-! ### Taking up -/

namespace View

variable {v v' v'' : View} {area area' : List String → Prop} {p q : List String} {t : Node}

/-- On the way to a place the copy has nothing of another kind than the tree. -/
def Open (v : View) (p : List String) : Prop :=
  ∀ r k, r <+: p → v.copy r = some k → ∃ t, v.tree r = some t ∧ t.isDirectory = k.isDirectory

/-- Places of the tree have been copied: each has its copy, if nothing stood in the way. -/
structure Mirrors (area : List String → Prop) (v v' : View) : Prop where
  tree : v'.tree = v.tree
  present : ∀ p, area p → v.tree p ≠ none
  frame : ∀ q, v'.copy q = v.copy q
    ∨ (v.copy q = none ∧ v'.copy q = some .directory ∧ ∃ p, area p ∧ q <+: p ∧ q ≠ p)
    ∨ area q ∧ ∃ t k, v.tree q = some t ∧ v'.copy q = some k ∧ t.CopiedAs k
  copied : ∀ p t, area p → v.tree p = some t → v.Open p → ∃ k, v'.copy p = some k ∧ t.CopiedAs k

/-- Places of the tree have been taken up: they have been copied, and the files have their texts. -/
structure TakesUp (area : List String → Prop) (v v' : View) : Prop extends Mirrors area v v' where
  text : ∀ p c, area p → v.tree p = some (.file c) → v'.text p = some (Text.Utf8.decodeLossy c)
  spared : ∀ q, (∀ c, area q → v.tree q ≠ some (.file c)) → v'.text q = v.text q

namespace Mirrors

theorem refl {v v' : View} (htree : v'.tree = v.tree) (hcopy : v'.copy = v.copy) :
    Mirrors (fun _ => False) v v' where
  tree := htree
  present _ hp := hp.elim
  frame q := .inl (by rw [hcopy])
  copied _ _ hp := hp.elim

theorem congr (h : Mirrors area v v') (heq : ∀ p, area p ↔ area' p) : Mirrors area' v v' := by
  have : area = area' := funext fun p => propext (heq p)
  exact this ▸ h

/-- What stood in nobody's way still does not. -/
theorem leaves_open (h : Mirrors area v v') (hrooted : v.Rooted) (hp : v.Open p) : v'.Open p := by
  intro r k hr hk
  rw [h.tree]
  rcases h.frame r with hsame | ⟨-, hdir, p', hp', hr', hne⟩ | ⟨-, t, k', ht, hk', hcopied⟩
  · exact hp r k hr (hsame ▸ hk)
  · rw [hdir] at hk
    cases hk
    exact ⟨.directory, hrooted.directory (h.present p' hp') hr' hne, rfl⟩
  · rw [hk'] at hk
    cases hk
    exact ⟨t, ht, hcopied.isDirectory⟩

theorem trans (h : Mirrors area v v') (h' : Mirrors area' v' v'') (hrooted : v.Rooted) :
    Mirrors (fun p => area p ∨ area' p) v v'' where
  tree := h'.tree.trans h.tree
  present p hp := hp.elim (h.present p) fun hp => h.tree ▸ h'.present p hp
  frame q := by
    rcases h'.frame q with hsame | ⟨hnone, hdir, p, hp, hq, hne⟩ | ⟨hq, t, k, ht, hk, hcopied⟩
    · rw [hsame]
      rcases h.frame q with hold | ⟨hnone, hdir, p, hp, hq, hne⟩ | ⟨hq, hcopied⟩
      · exact .inl hold
      · exact .inr (.inl ⟨hnone, hdir, p, .inl hp, hq, hne⟩)
      · exact .inr (.inr ⟨.inl hq, hcopied⟩)
    · rcases h.frame q with hold | ⟨-, hdir', -⟩ | ⟨-, t, k, -, hk, -⟩
      · exact .inr (.inl ⟨hold ▸ hnone, hdir, p, .inr hp, hq, hne⟩)
      · rw [hdir'] at hnone
        cases hnone
      · rw [hk] at hnone
        cases hnone
    · exact .inr (.inr ⟨.inr hq, t, k, h.tree ▸ ht, hk, hcopied⟩)
  copied p t hp ht hopen := by
    rcases hp with hp | hp
    · obtain ⟨k, hk, hcopied⟩ := h.copied p t hp ht hopen
      rcases h'.frame p with hsame | ⟨hnone, -⟩ | ⟨-, t', k', ht', hk', hcopied'⟩
      · exact ⟨k, hsame ▸ hk, hcopied⟩
      · rw [hk] at hnone
        cases hnone
      · rw [h.tree, ht] at ht'
        cases ht'
        exact ⟨k', hk', hcopied'⟩
    · exact h'.copied p t hp (h.tree ▸ ht) (h.leaves_open hrooted hopen)

end Mirrors

namespace TakesUp

theorem refl (v : View) : TakesUp (fun _ => False) v v where
  toMirrors := .refl rfl rfl
  text _ _ hp := hp.elim
  spared _ _ := rfl

theorem congr (h : TakesUp area v v') (heq : ∀ p, area p ↔ area' p) : TakesUp area' v v' := by
  have : area = area' := funext fun p => propext (heq p)
  exact this ▸ h

theorem trans (h : TakesUp area v v') (h' : TakesUp area' v' v'') (hrooted : v.Rooted) :
    TakesUp (fun p => area p ∨ area' p) v v'' where
  toMirrors := h.toMirrors.trans h'.toMirrors hrooted
  text p c hp hc := by
    by_cases hp' : area' p
    · exact h'.text p c hp' (h.tree ▸ hc)
    · rw [h'.spared p fun _ hin => absurd hin hp']
      exact h.text p c (hp.resolve_right hp') hc
  spared q hq := by
    rw [h'.spared q fun c hin => h.tree ▸ hq c (.inr hin)]
    exact h.spared q fun c hin => hq c (.inl hin)

end TakesUp

/-- The follower has let go of what it had at and below a place. -/
structure LetsGo (a : List String) (v v' : View) : Prop where
  tree : v'.tree = v.tree
  gone : v'.Bare a
  copy : ∀ q, ¬ a <+: q → v'.copy q = v.copy q
  text : ∀ q, ¬ a <+: q → v'.text q = v.text q

end View

/-! ### Handling -/

namespace Scene

variable {s s' : Scene} {e : Notice} {post : List Notice} {q r : List String} {t : Node}

/-- What an event that tells of an arrival takes up. -/
def Found (s : Scene) (e : Notice) (q : List String) : Prop := ∃ t, s.tree q = some t ∧ e.Covers q t

/-- The first notice is handled by taking up what has arrived. -/
structure Arrives (e : Notice) (s s' : Scene) : Prop where
  backlog : s.backlog = e :: s'.backlog
  takes : s.toView.TakesUp (s.Found e) s'.toView
  handed : ∀ q, s'.handed q ↔ s.handed q ∨ s.tree q = some .directory ∧ e.Covers q .directory

/-- The first notice is handled by letting go of what has departed. -/
structure Departs (a : List String) (s s' : Scene) : Prop where
  backlog : s.backlog = .removed a :: s'.backlog
  lets : s.toView.LetsGo a s'.toView
  handed : ∀ q, s'.handed q ↔ s.handed q

theorem Awaited.tail (h : s.Awaited q t) (hbacklog : s.backlog = e :: s'.backlog)
    (hcovers : e.Covers q t → Struck s'.backlog q) (hhanded : s.handed q → s'.handed q) : s'.Awaited q t := by
  obtain ⟨pre, x, post, hcut, hx, hpost, hquiet⟩ := h
  rw [hbacklog] at hcut
  cases pre with
  | nil =>
    rw [List.nil_append, List.cons.injEq] at hcut
    obtain ⟨rfl, hpost'⟩ := hcut
    exact absurd (hpost' ▸ hcovers hx) hpost
  | cons y pre =>
    rw [List.cons_append, List.cons.injEq] at hcut
    exact ⟨pre, x, post, hcut.2, hx, hpost, fun hdir hnot => hquiet hdir fun hh => hnot (hhanded hh)⟩

/-- Where a notice of an arrival strikes, the follower has let go of what it had. -/
theorem bare_of_strikes (hnone : ∀ a, e ≠ .removed a)
    (hbare : ∀ source target, e = .renamed source target → s.Bare source)
    (q : List String) (h : e.Strikes q) : s.copy q = none ∧ s.text q = none := by
  obtain ⟨a, ha, haq⟩ := h
  cases e with
  | created ns => cases ha
  | written ns => cases ha
  | removed ns => exact absurd rfl (hnone ns)
  | renamed source target =>
    cases ha
    exact hbare _ target rfl q haq

namespace Follows

/-- What the notices say that are left, they said before. -/
theorem arrived_tail (h : s.Follows) (hbacklog : s.backlog = e :: s'.backlog) (htree : s'.tree = s.tree)
    (htold : ∀ q, s.Told q → s'.Told q) (pre : List Notice) (x : Notice) (post : List Notice) (a : List String)
    (hcut : s'.backlog = pre ++ x :: post) (ha : x.arrival? = some a) (r : List String) (hr : r <+: a) :
    Struck post r ∨ s'.Told r ∧ s'.tree r ≠ none := by
  rw [htree]
  refine (h.arrived (e :: pre) x post a (by rw [hbacklog, hcut]; rfl) ha r hr).imp_right ?_
  exact And.imp_left (htold r)

/-- What the first notice does not strike is accounted for without it. -/
theorem accounted_tail (hbacklog : s.backlog = e :: s'.backlog) (htree : s'.tree = s.tree)
    (htold : ∀ q, s.Told q → s'.Told q) {directory : Bool} (hspared : ¬ e.Strikes q)
    (h : s.Accounted q directory) : s'.Accounted q directory := by
  rw [Accounted, htree]
  rcases h with hs | ⟨hs, hkind⟩
  · rw [hbacklog, struck_cons_iff] at hs
    exact .inl (hs.resolve_left hspared)
  · exact .inr ⟨htold q hs, hkind⟩

theorem named_tail (h : s.Follows) (hbacklog : s.backlog = e :: s'.backlog) : ∀ x ∈ s'.backlog, [] ∉ x.ends :=
  fun x hx => h.named x (hbacklog ▸ List.mem_cons_of_mem e hx)

section Arrival

variable (h : s.Follows) (hc : Arrives e s s')
include hc

theorem told_arrives (hq : s.Told q) : s'.Told q := fun hne => (hc.handed _).mpr (.inl (hq hne))

include h

/-- What is taken up will be told of from now on, and so will what it lies in. -/
theorem told_of_found {p : List String} (hp : s.Found e p) (hq : q <+: p) :
    Struck s'.backlog q ∨ s'.Told q := by
  obtain ⟨t, ht, hcovers⟩ := hp
  obtain ⟨a, ha, hap⟩ := hcovers.arrival
  rcases List.prefix_or_prefix_of_prefix hq hap with hqa | haq
  · refine (h.arrived [] e s'.backlog a hc.backlog ha q hqa).imp_right fun htold => ?_
    exact told_arrives hc htold.1
  · by_cases heq : q = a
    · subst heq
      refine (h.arrived [] e s'.backlog q hc.backlog ha q List.prefix_rfl).imp_right fun htold => ?_
      exact told_arrives hc htold.1
    · right
      intro hne
      have hlast : a <+: q.dropLast := prefix_dropLast haq (Ne.symm heq)
      have hdir : s.tree q.dropLast = some .directory := by
        refine h.rooted.directory (by simp [ht]) ((List.dropLast_prefix q).trans hq) fun hsame => ?_
        exact not_prefix_dropLast hne (hsame ▸ hq)
      refine (hc.handed _).mpr (.inr ⟨hdir, ?_⟩)
      cases e with
      | created ns =>
        cases ha
        exact hlast
      | written ns =>
        cases ha
        exact absurd (hq.trans (hcovers.1 ▸ List.prefix_rfl)) fun hqa => heq (hqa.eq_of_length
          (Nat.le_antisymm hqa.length_le haq.length_le))
      | removed ns => cases ha
      | renamed source target =>
        cases ha
        exact hlast

variable (hlet : ∀ q, e.Strikes q → s.copy q = none ∧ s.text q = none)
include hlet

/-- What the follower has, the notice does not strike. -/
theorem accounted_of_copy {k : Node} (hk : s.copy q = some k) : s'.Accounted q k.isDirectory :=
  accounted_tail hc.backlog hc.takes.tree (fun _ => told_arrives hc)
    (fun hs => by simp [(hlet q hs).1] at hk) (h.stale q k hk)

theorem accounted_of_text {x : String} (hx : s.text q = some x) : s'.Accounted q false :=
  accounted_tail hc.backlog hc.takes.tree (fun _ => told_arrives hc)
    (fun hs => by simp [(hlet q hs).2] at hx) (h.staleText q x hx)

/-- What the follower has afterwards is of the same kind in the tree, or will be let go. -/
theorem stale_arrives (q : List String) (k : Node) (hk : s'.copy q = some k) : s'.Accounted q k.isDirectory := by
  rcases hc.takes.frame q with hsame | ⟨-, hdir, p, hp, hq, hne⟩ | ⟨hq, t, k', ht, hk', hcopied⟩
  · exact h.accounted_of_copy hc hlet (hsame ▸ hk)
  · rw [hdir] at hk
    cases hk
    rw [Accounted, hc.takes.tree]
    refine (h.told_of_found hc hp hq).imp_right fun htold => ⟨htold, .directory, ?_, rfl⟩
    exact h.rooted.directory (hc.takes.present p hp) hq hne
  · rw [hk'] at hk
    cases hk
    rw [Accounted, hc.takes.tree]
    exact (h.told_of_found hc hq List.prefix_rfl).imp_right fun htold => ⟨htold, t, ht, hcopied.isDirectory⟩

theorem staleText_arrives (q : List String) (x : String) (hx : s'.text q = some x) : s'.Accounted q false := by
  by_cases hq : ∃ c, s.Found e q ∧ s.tree q = some (.file c)
  · obtain ⟨c, hq, ht⟩ := hq
    rw [Accounted, hc.takes.tree]
    exact (h.told_of_found hc hq List.prefix_rfl).imp_right fun htold => ⟨htold, _, ht, rfl⟩
  · rw [hc.takes.spared q fun c hin ht => hq ⟨c, hin, ht⟩] at hx
    exact h.accounted_of_text hc hlet hx

/-- What will not be let go is of the same kind in the tree, and so is what it lies in. -/
theorem open_of_spared (hspared : ¬ Struck s'.backlog q) : s.toView.Open q := by
  intro r k hr hk
  rcases h.accounted_of_copy hc hlet hk with hs | ⟨-, hkind⟩
  · exact absurd (hs.mono hr) hspared
  · rwa [hc.takes.tree] at hkind

theorem text_eq_none_of_spared (hspared : ¬ Struck s'.backlog q) (hdir : s.tree q = some .directory) :
    s.text q = none := by
  refine Option.eq_none_iff_forall_ne_some.mpr fun x hx => ?_
  obtain ⟨-, t, ht, hkind⟩ := (h.accounted_of_text hc hlet hx).resolve_left hspared
  rw [hc.takes.tree, hdir] at ht
  cases ht
  cases hkind

/-- What is taken up and will not be let go is settled. -/
theorem settled_of_covers (ht : s.tree q = some t) (hcovers : e.Covers q t) (hspared : ¬ Struck s'.backlog q) :
    s'.Settled q t := by
  have hfound : s.Found e q := ⟨t, ht, hcovers⟩
  constructor
  case told => exact (h.told_of_found hc hfound List.prefix_rfl).resolve_left hspared
  case handed =>
    rintro rfl
    exact (hc.handed q).mpr (.inr ⟨ht, hcovers⟩)
  case copy => exact hc.takes.copied q t hfound ht (h.open_of_spared hc hlet hspared)
  case text =>
    cases t with
    | file c => exact hc.takes.text q c hfound ht
    | directory =>
      rw [hc.takes.spared q fun c _ hfile => by simp [ht] at hfile]
      exact h.text_eq_none_of_spared hc hlet hspared ht
  case spared => exact hspared

omit h hlet in
/-- What is not taken up stays settled. -/
theorem Settled.arrives (hsettled : s.Settled q t) (hfound : ¬ s.Found e q) : s'.Settled q t := by
  have hspared := hsettled.spared
  rw [hc.backlog, struck_cons_iff, not_or] at hspared
  constructor
  case told => exact told_arrives hc hsettled.told
  case handed => exact fun hdir => (hc.handed q).mpr (.inl (hsettled.handed hdir))
  case copy =>
    obtain ⟨k, hk, hcopied⟩ := hsettled.copy
    rcases hc.takes.frame q with hsame | ⟨hnone, -⟩ | ⟨hin, -⟩
    · exact ⟨k, hsame ▸ hk, hcopied⟩
    · rw [hk] at hnone
      cases hnone
    · exact absurd hin hfound
  case text =>
    rw [hc.takes.spared q fun c hin _ => hfound hin]
    exact hsettled.text
  case spared => exact hspared.2

theorem current_arrives (ht : s.tree q = some t) : s'.Settled q t ∨ s'.Awaited q t := by
  by_cases hq : e.Covers q t ∧ ¬ Struck s'.backlog q
  · exact .inl (h.settled_of_covers hc hlet ht hq.1 hq.2)
  · have hleft : e.Covers q t → Struck s'.backlog q := fun hcovers =>
      Classical.byContradiction fun hs => hq ⟨hcovers, hs⟩
    rcases h.current q t ht with hsettled | hawaited
    · refine .inl (Settled.arrives hc hsettled ?_)
      rintro ⟨t', ht', hcovers⟩
      rw [ht] at ht'
      cases ht'
      have hspared := hsettled.spared
      rw [hc.backlog, struck_cons_iff, not_or] at hspared
      exact hspared.2 (hleft hcovers)
    · exact .inr (hawaited.tail hc.backlog hleft fun hh => (hc.handed q).mpr (.inl hh))

omit h hlet in
/-- What is taken up lies at or below the new place, and so not at or below the old one. -/
theorem bare_arrives {source target : List String} (hbare : s.Bare source) (he : e = .created target)
    (hst : ¬ source <+: target) (hts : ¬ target <+: source) : s'.Bare source := by
  subst he
  intro p hp
  have hfar : ∀ q, p <+: q → ¬ s.Found (.created target) q := by
    rintro q hq ⟨t, -, hcovers⟩
    exact (List.prefix_or_prefix_of_prefix (hp.trans hq) hcovers).elim hst hts
  constructor
  · rcases hc.takes.frame p with hsame | ⟨-, -, q, hin, hq, -⟩ | ⟨hin, -⟩
    · exact hsame.trans (hbare p hp).1
    · exact absurd hin (hfar q hq)
    · exact absurd hin (hfar p List.prefix_rfl)
  · rw [hc.takes.spared p fun c hin => absurd hin (hfar p List.prefix_rfl)]
    exact (hbare p hp).2

omit hlet in
theorem announced_arrives (hnone : ∀ a, e ≠ .removed a) {pre post : List Notice} {source target : List String}
    (hcut : s'.backlog = pre ++ .renamed source target :: post) :
    ¬ source <+: target ∧ ¬ target <+: source ∧ s'.Announced source target pre := by
  obtain ⟨hst, hts, hannounced⟩ := h.announced (e :: pre) source target post (by rw [hc.backlog, hcut]; rfl)
  refine ⟨hst, hts, ?_⟩
  rcases hannounced with ⟨pre', hpre⟩ | ⟨hpre, hbare⟩
  · cases pre' with
    | nil =>
      rw [List.nil_append, List.cons.injEq] at hpre
      exact absurd hpre.1 (hnone source)
    | cons x pre' =>
      rw [List.cons_append, List.cons.injEq] at hpre
      exact .inl ⟨pre', hpre.2⟩
  · have he : e = .created target ∧ pre = [] := by simpa using hpre
    exact .inr ⟨.inr he.2, bare_arrives hc hbare he.1 hst hts⟩

omit hlet in
/-- **Taking up what has arrived settles it, unless it will be let go again.** -/
theorem arrives (hclosed : s'.Closed) (hnone : ∀ a, e ≠ .removed a)
    (hbare : ∀ source target, e = .renamed source target → s.Bare source) : s'.Follows := by
  have hlet := bare_of_strikes hnone hbare
  constructor
  case root => exact (hc.handed []).mpr (.inl h.root)
  case closed => exact hclosed
  case rooted =>
    intro q n hq
    rw [hc.takes.tree] at hq ⊢
    exact h.rooted q n hq
  case named => exact h.named_tail hc.backlog
  case stale => exact h.stale_arrives hc hlet
  case staleText => exact h.staleText_arrives hc hlet
  case current =>
    intro q t ht
    rw [hc.takes.tree] at ht
    exact h.current_arrives hc hlet ht
  case announced => exact fun pre source target post => h.announced_arrives hc hnone
  case arrived => exact h.arrived_tail hc.backlog hc.takes.tree fun q => told_arrives hc

end Arrival

/-- **Letting go of what has departed leaves the rest as it is.** -/
theorem departs {a : List String} (h : s.Follows) (hc : Departs a s s') : s'.Follows := by
  have htold : ∀ q, s.Told q → s'.Told q := fun q hq hne => (hc.handed _).mpr (hq hne)
  have hstrikes : ∀ q, (Notice.removed a).Strikes q ↔ a <+: q := by simp [Notice.Strikes, Notice.departure?]
  constructor
  case root => exact (hc.handed []).mpr h.root
  case closed =>
    intro q n hq
    rw [hc.handed] at hq ⊢
    exact h.closed q n hq
  case rooted =>
    intro q n hq
    rw [hc.lets.tree] at hq ⊢
    exact h.rooted q n hq
  case named => exact h.named_tail hc.backlog
  case stale =>
    intro q k hk
    have hq : ¬ a <+: q := fun hq => by simp [(hc.lets.gone q hq).1] at hk
    rw [hc.lets.copy q hq] at hk
    exact accounted_tail hc.backlog hc.lets.tree htold (mt (hstrikes q).mp hq) (h.stale q k hk)
  case staleText =>
    intro q x hx
    have hq : ¬ a <+: q := fun hq => by simp [(hc.lets.gone q hq).2] at hx
    rw [hc.lets.text q hq] at hx
    exact accounted_tail hc.backlog hc.lets.tree htold (mt (hstrikes q).mp hq) (h.staleText q x hx)
  case current =>
    intro q t ht
    rw [hc.lets.tree] at ht
    rcases h.current q t ht with hset | hawaited
    · have hspared := hset.spared
      rw [hc.backlog, struck_cons_iff, not_or, hstrikes] at hspared
      refine .inl ⟨htold q hset.told, fun hdir => (hc.handed q).mpr (hset.handed hdir), ?_, ?_, hspared.2⟩
      · rw [hc.lets.copy q hspared.1]
        exact hset.copy
      · rw [hc.lets.text q hspared.1]
        exact hset.text
    · exact .inr (hawaited.tail hc.backlog (fun hcovers => hcovers.elim) (hc.handed q).mpr)
  case announced =>
    intro pre source target post hcut
    obtain ⟨hst, hts, hannounced⟩ := h.announced (.removed a :: pre) source target post (by rw [hc.backlog, hcut]; rfl)
    refine ⟨hst, hts, ?_⟩
    rcases hannounced with ⟨pre', hpre⟩ | ⟨hpre, -⟩
    · cases pre' with
      | nil =>
        rw [List.nil_append, List.cons.injEq] at hpre
        obtain ⟨hremoved, rfl⟩ := hpre
        cases hremoved
        exact .inr ⟨.inl rfl, hc.lets.gone⟩
      | cons x pre' =>
        rw [List.cons_append, List.cons.injEq] at hpre
        exact .inl ⟨pre', hpre.2⟩
    · simp at hpre
  case arrived => exact h.arrived_tail hc.backlog hc.lets.tree htold

end Follows

end Scene

end LiveWorkspace.Watch
