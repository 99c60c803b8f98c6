/-
  LiveWorkspace/Proofs/Watch/Backlog.lean
  =======================================
  **What is still to be told sets right whatever has fallen behind.**

  A tree changes, and notices of its changes wait in a backlog.  A follower that keeps a copy
  of the tree handles them one by one, each by a look at the tree as it is by then.  So the
  copy is always wrong in some places; but each of these is accounted for by a notice that
  waits (`Follows`):

  * what the follower has and the tree has not will be struck by a removal,
  * what the tree has is in the copy, or a notice of it waits behind all that strike it.

  Changes are told of only in directories that have been handed over.  A directory that has
  not been is therefore waited for itself, by a notice behind which nothing is told of what
  lies in it.  All this rests on one thing: that no directory is handed over before the one
  it lies in (`Follows.closed`).
-/
import LiveWorkspace.Proofs.Replica.Contents
import LiveWorkspace.Watch.Event

namespace LiveWorkspace

namespace Watch

/-! ### Notices -/

/-- A change as the follower hears of it, by the names of what it is about. -/
inductive Notice where
  | created (ns : List String)
  | written (ns : List String)
  | removed (ns : List String)
  | renamed (source target : List String)
deriving DecidableEq, Repr

namespace Notice

/-- The names that a notice is about. -/
def ends : Notice → List (List String)
  | .created ns | .written ns | .removed ns => [ns]
  | .renamed source target => [source, target]

/-- Where the notice tells that there is nothing any more. -/
def departure? : Notice → Option (List String)
  | .removed ns | .renamed ns _ => some ns
  | .created _ | .written _ => none

/-- Handling the notice lets go of what is at a place. -/
def Strikes (e : Notice) (q : List String) : Prop := ∃ a, e.departure? = some a ∧ a <+: q

/-- Where the notice tells that there is something. -/
def arrival? : Notice → Option (List String)
  | .created ns | .written ns | .renamed _ ns => some ns
  | .removed _ => none

/-- Handling the notice takes up what is at a place. -/
def Covers : Notice → List String → Node → Prop
  | .created ns, q, _ | .renamed _ ns, q, _ => ns <+: q
  | .written ns, q, t => ns = q ∧ t.isDirectory = false
  | .removed _, _, _ => False

variable {e : Notice} {a q : List String} {t : Node}

theorem departure_mem_ends (h : e.departure? = some a) : a ∈ e.ends := by
  cases e <;> simp_all [departure?, ends]

theorem arrival_mem_ends (h : e.arrival? = some a) : a ∈ e.ends := by
  cases e <;> simp_all [arrival?, ends]

theorem mem_ends (h : a ∈ e.ends) : e.departure? = some a ∨ e.arrival? = some a := by
  cases e <;> simp_all [ends, departure?, arrival?, eq_comm]

theorem Strikes.mono {p : List String} (h : e.Strikes p) (hp : p <+: q) : e.Strikes q := by
  obtain ⟨a, ha, hap⟩ := h
  exact ⟨a, ha, hap.trans hp⟩

theorem Covers.arrival (h : e.Covers q t) : ∃ a, e.arrival? = some a ∧ a <+: q := by
  cases e with
  | created ns => exact ⟨ns, rfl, h⟩
  | written ns => exact ⟨ns, rfl, h.1 ▸ List.prefix_rfl⟩
  | removed ns => exact h.elim
  | renamed source target => exact ⟨target, rfl, h⟩

/-- What takes up a directory takes up all that has arrived with it. -/
theorem Covers.of_arrival (h : e.Covers q .directory) (ha : e.arrival? = some a) {p : List String} (hp : a <+: p) :
    e.Covers p .directory := by
  cases e with
  | created ns => exact Option.some.inj ha ▸ hp
  | written ns => exact absurd h.2 (by simp [Node.isDirectory])
  | removed ns => exact h.elim
  | renamed source target => exact Option.some.inj ha ▸ hp

/-- What takes up a directory takes up what is in it. -/
theorem Covers.append (h : e.Covers q .directory) (m : List String) (t : Node) : e.Covers (q ++ m) t := by
  cases e with
  | created ns => exact List.IsPrefix.trans h (List.prefix_append q m)
  | written ns => exact absurd h.2 (by simp [Node.isDirectory])
  | removed ns => exact h.elim
  | renamed source target => exact List.IsPrefix.trans h (List.prefix_append q m)

end Notice

/-- Some notice lets go of what is at a place. -/
def Struck (l : List Notice) (q : List String) : Prop := ∃ e ∈ l, e.Strikes q

/-- Nothing is told of what lies below a place. -/
def Quiet (l : List Notice) (q : List String) : Prop := ∀ e ∈ l, ∀ p ∈ e.ends, q <+: p → p = q

section Lists

variable {l l' pre post : List Notice} {e : Notice} {q : List String}

theorem struck_append_iff : Struck (l ++ l') q ↔ Struck l q ∨ Struck l' q := by
  simp only [Struck, List.mem_append, or_and_right, exists_or]

theorem struck_cons_iff : Struck (e :: l) q ↔ e.Strikes q ∨ Struck l q := by
  simp only [Struck, List.mem_cons, or_and_right, exists_or, exists_eq_left]

theorem Struck.mono {p : List String} (h : Struck l p) (hp : p <+: q) : Struck l q := by
  obtain ⟨e, he, hstrikes⟩ := h
  exact ⟨e, he, hstrikes.mono hp⟩

/-- Where nothing is told of what lies below a place, only what strikes the place strikes there. -/
theorem Quiet.not_struck (h : Quiet l q) (hq : ¬ Struck l q) {p : List String} (hp : q <+: p) : ¬ Struck l p := by
  rintro ⟨e, he, a, ha, hap⟩
  refine hq ⟨e, he, a, ha, ?_⟩
  rcases List.prefix_or_prefix_of_prefix hap hp with haq | hqa
  · exact haq
  · obtain rfl := h e he a (Notice.departure_mem_ends ha) hqa
    exact List.prefix_rfl

theorem Quiet.of_below (h : Quiet l q) {p : List String} (hp : q <+: p) : Quiet l p := by
  intro e he a ha hpa
  have haq := h e he a ha (hp.trans hpa)
  subst haq
  exact (hpa.eq_of_length (Nat.le_antisymm hpa.length_le hp.length_le)).symm

end Lists

theorem prefix_dropLast {p q : List String} (h : p <+: q) (hne : p ≠ q) : p <+: q.dropLast := by
  obtain ⟨m, rfl⟩ := h
  have hm : m ≠ [] := by rintro rfl; simp at hne
  rw [List.dropLast_append_of_ne_nil hm]
  exact List.prefix_append p _

theorem not_prefix_dropLast {q : List String} (h : q ≠ []) : ¬ q <+: q.dropLast := by
  intro hpre
  have hlen := hpre.length_le
  rw [List.length_dropLast] at hlen
  have := List.length_pos_iff.mpr h
  omega

/-- A list with something added is cut where it was, or in what was added. -/
theorem append_eq_cut {α : Type} {l l' pre post : List α} {x : α} (h : l ++ l' = pre ++ x :: post) :
    (∃ m, l = pre ++ x :: m ∧ post = m ++ l') ∨ ∃ m, pre = l ++ m ∧ l' = m ++ x :: post := by
  rcases List.append_eq_append_iff.mp h with ⟨m, hpre, hl'⟩ | ⟨m, hl, hpost⟩
  · exact .inr ⟨m, hpre, hl'⟩
  · cases m with
    | nil =>
      refine .inr ⟨[], ?_, ?_⟩
      · simpa using hl.symm
      · simpa using hpost.symm
    | cons y m =>
      rw [List.cons_append, List.cons.injEq] at hpost
      obtain ⟨rfl, hpost⟩ := hpost
      exact .inl ⟨m, hl, hpost⟩

/-! ### What is told -/

/-- A notice is given if something is told of. -/
def tell (told : Prop) [Decidable told] (e : Notice) : List Notice := if told then [e] else []

/-- The notices of a rename: each end is told of by itself, and the two together if both are. -/
def tellMove (old new : Prop) [Decidable old] [Decidable new] (source target : List String) : List Notice :=
  tell old (.removed source) ++ tell new (.created target) ++ tell (old ∧ new) (.renamed source target)

section Tell

variable {told old new : Prop} [Decidable told] [Decidable old] [Decidable new] {e x : Notice}
  {source target a q : List String}

theorem mem_tell : x ∈ tell told e ↔ told ∧ x = e := by
  rw [tell]
  split <;> simp_all

theorem departs_of_mem_tellMove (h : x ∈ tellMove old new source target) (ha : x.departure? = some a) :
    a = source ∧ old := by
  simp only [tellMove, List.mem_append, mem_tell] at h
  rcases h with (⟨hold, rfl⟩ | ⟨-, rfl⟩) | ⟨⟨hold, -⟩, rfl⟩
  · exact ⟨(Option.some.inj ha).symm, hold⟩
  · cases ha
  · exact ⟨(Option.some.inj ha).symm, hold⟩

theorem arrives_of_mem_tellMove (h : x ∈ tellMove old new source target) (ha : x.arrival? = some a) :
    a = target ∧ new := by
  simp only [tellMove, List.mem_append, mem_tell] at h
  rcases h with (⟨-, rfl⟩ | ⟨hnew, rfl⟩) | ⟨⟨-, hnew⟩, rfl⟩
  · cases ha
  · exact ⟨(Option.some.inj ha).symm, hnew⟩
  · exact ⟨(Option.some.inj ha).symm, hnew⟩

/-- The last notice of a rename takes up what has arrived. -/
theorem exists_last_tellMove (old : Prop) [Decidable old] (source : List String) (hnew : new) (hq : target <+: q)
    (t : Node) :
    ∃ l e, tellMove old new source target = l ++ [e] ∧ e.Covers q t := by
  by_cases hold : old
  · refine ⟨tell old (.removed source) ++ tell new (.created target), .renamed source target, ?_, hq⟩
    simp [tellMove, tell, hold, hnew]
  · refine ⟨tell old (.removed source), .created target, ?_, hq⟩
    simp [tellMove, tell, hold, hnew]

/-- What is told of a rename as a whole is told last. -/
theorem renamed_of_tellMove {pre post : List Notice} {b : List String}
    (h : tellMove old new source target = pre ++ .renamed a b :: post) :
    a = source ∧ b = target ∧ pre = [.removed source, .created target] := by
  have hmem : Notice.renamed a b ∈ tellMove old new source target := by simp [h]
  obtain ⟨rfl, hold⟩ := departs_of_mem_tellMove hmem rfl
  obtain ⟨rfl, hnew⟩ := arrives_of_mem_tellMove hmem rfl
  refine ⟨rfl, rfl, ?_⟩
  simp only [tellMove, tell, hold, hnew, and_self, if_true, List.cons_append, List.nil_append] at h
  rcases pre with _ | ⟨x, _ | ⟨y, _ | ⟨z, pre⟩⟩⟩
  · simp at h
  · simp at h
  · simp only [List.cons_append, List.nil_append, List.cons.injEq] at h
    rw [h.1, h.2.1]
  · simp at h

end Tell

/-! ### Scenes -/

/-- A tree and its follower: what the tree has, and the follower's copy and texts. -/
@[ext]
structure View where
  tree : List String → Option Node
  copy : List String → Option Node
  text : List String → Option String

/-- What the tree has lies in a directory. -/
def View.Rooted (v : View) : Prop := ∀ q n, v.tree (q ++ [n]) ≠ none → v.tree q = some .directory

/-- The follower has nothing at or below a place. -/
def View.Bare (v : View) (q : List String) : Prop := ∀ p, q <+: p → v.copy p = none ∧ v.text p = none

/-- A tree and its follower, the directories that have been handed over, and the notices
    that wait. -/
structure Scene extends View where
  handed : List String → Prop
  backlog : List Notice

theorem View.Rooted.directory {v : View} (h : v.Rooted) {q r : List String} (hq : v.tree q ≠ none) (hr : r <+: q)
    (hne : r ≠ q) : v.tree r = some .directory := by
  obtain ⟨m, rfl⟩ := hr
  induction m generalizing r with
  | nil => simp at hne
  | cons n m ih =>
    have hnext : v.tree (r ++ [n]) ≠ none := by
      by_cases hm : m = []
      · simpa [hm] using hq
      · simp [ih (r := r ++ [n]) (by simpa using hq) (by simpa using hm)]
    exact h r n hnext

theorem View.Rooted.parent {v : View} (h : v.Rooted) {q : List String} (hq : v.tree q ≠ none) (hne : q ≠ []) :
    v.tree q.dropLast = some .directory := by
  rw [← List.dropLast_concat_getLast hne] at hq
  exact h _ _ hq

theorem View.Rooted.tree_ne_none {v : View} (h : v.Rooted) {q r : List String} (hq : v.tree q ≠ none) (hr : r <+: q) :
    v.tree r ≠ none := by
  by_cases hne : r = q
  · exact hne ▸ hq
  · simp [h.directory hq hr hne]

namespace Scene

/-- What happens to a place is told of. -/
def Told (s : Scene) (q : List String) : Prop := q ≠ [] → s.handed q.dropLast

/-- A directory is handed over only after the one it lies in. -/
def Closed (s : Scene) : Prop := ∀ q n, s.handed (q ++ [n]) → s.handed q

/-- A place where the follower has what the tree has, and will hear when that changes. -/
structure Settled (s : Scene) (q : List String) (t : Node) : Prop where
  told : s.Told q
  handed : t = .directory → s.handed q
  copy : ∃ k, s.copy q = some k ∧ t.CopiedAs k
  text : s.text q = t.text?
  spared : ¬ Struck s.backlog q

/-- What the follower has at a place is of the tree, and of its kind, or will be struck. -/
def Accounted (s : Scene) (q : List String) (directory : Bool) : Prop :=
  Struck s.backlog q ∨ s.Told q ∧ ∃ t, s.tree q = some t ∧ t.isDirectory = directory

/-- A place that will be taken up, and not be let go after that. -/
def Awaited (s : Scene) (q : List String) (t : Node) : Prop :=
  ∃ pre e post, s.backlog = pre ++ e :: post ∧ e.Covers q t ∧ ¬ Struck post q
    ∧ (t = .directory → ¬ s.handed q → Quiet post q)

/-- What is told of a rename comes last of three notices. By the time it is handled, the first
    has let go of the old place, and nothing has been taken up there. -/
def Announced (s : Scene) (source target : List String) (pre : List Notice) : Prop :=
  (∃ pre', pre = pre' ++ [.removed source, .created target]) ∨ (pre = [.created target] ∨ pre = []) ∧ s.Bare source

/-- Whatever has fallen behind is accounted for in the backlog. -/
structure Follows (s : Scene) : Prop where
  root : s.handed []
  closed : s.Closed
  rooted : s.Rooted
  named : ∀ e ∈ s.backlog, [] ∉ e.ends
  /-- What the follower has is in the tree, or will be struck. -/
  stale : ∀ q k, s.copy q = some k →
    Struck s.backlog q ∨ s.Told q ∧ ∃ t, s.tree q = some t ∧ t.isDirectory = k.isDirectory
  staleText : ∀ q x, s.text q = some x →
    Struck s.backlog q ∨ s.Told q ∧ ∃ t, s.tree q = some t ∧ t.isDirectory = false
  /-- What the tree has is settled, or will be taken up. -/
  current : ∀ q t, s.tree q = some t → s.Settled q t ∨ s.Awaited q t
  announced : ∀ pre source target post, s.backlog = pre ++ .renamed source target :: post →
    ¬ source <+: target ∧ ¬ target <+: source ∧ s.Announced source target pre
  /-- Where something has arrived it still is, or will be struck. -/
  arrived : ∀ pre e post a, s.backlog = pre ++ e :: post → e.arrival? = some a →
    ∀ r, r <+: a → Struck post r ∨ s.Told r ∧ s.tree r ≠ none

variable {s s' : Scene} {q r : List String} {t : Node}

theorem Closed.handed_of_prefix (h : s.Closed) (hq : s.handed q) (hr : r <+: q) : s.handed r := by
  obtain ⟨m, rfl⟩ := hr
  induction m generalizing r with
  | nil => simpa using hq
  | cons n m ih => exact h r n (ih (by simpa using hq))

theorem Closed.told_of_prefix (h : s.Closed) (hq : s.Told q) (hr : r <+: q) : s.Told r := by
  intro hne
  by_cases heq : r = q
  · exact heq ▸ hq (heq ▸ hne)
  · have hq := hq fun hnil => hne (List.prefix_nil.mp (hnil ▸ hr))
    exact h.handed_of_prefix hq ((List.dropLast_prefix r).trans (prefix_dropLast hr heq))

/-- The tree changes in an area, and some news are told of it. -/
structure Changes (area : List String → Prop) (news : List Notice) (s s' : Scene) : Prop where
  backlog : s'.backlog = s.backlog ++ news
  copy : s'.copy = s.copy
  text : s'.text = s.text
  tree : ∀ q, ¬ area q → s'.tree q = s.tree q
  handed : ∀ q, ¬ area q → (s'.handed q ↔ s.handed q)
  closed : s'.Closed
  rooted : s'.Rooted

theorem Changes.told_iff {area : List String → Prop} {news : List Notice} (hc : Changes area news s s')
    (hq : ¬ area q.dropLast) : s'.Told q ↔ s.Told q := by
  simp only [Scene.Told, hc.handed _ hq]

/-- Outside the area, a place that was told of still is. -/
theorem Changes.told {area : List String → Prop} {news : List Notice} (hc : Changes area news s s')
    (harea : ∀ q n, area q → area (q ++ [n])) (hq : ¬ area q) (h : s.Told q) : s'.Told q := by
  intro hne
  refine (hc.handed _ fun hp => hq ?_).mpr (h hne)
  have hlast := harea q.dropLast (q.getLast hne) hp
  rwa [List.dropLast_concat_getLast] at hlast

/-- Outside the area, what was settled still is, unless the news strike it. -/
theorem Settled.changed {area : List String → Prop} {news : List Notice} (h : s.Settled q t)
    (hc : Changes area news s s') (hq : ¬ area q) (htold : s'.Told q) (hspared : ¬ Struck news q) :
    s'.Settled q t where
  told := htold
  handed hdir := (hc.handed q hq).mpr (h.handed hdir)
  copy := hc.copy ▸ h.copy
  text := hc.text ▸ h.text
  spared := by
    rw [hc.backlog, struck_append_iff, not_or]
    exact ⟨h.spared, hspared⟩

/-- Outside the area, what was awaited still is, unless the news strike it: in a directory that
    is not handed over nothing is told of. -/
theorem Awaited.changed {area : List String → Prop} {news : List Notice} (h : s.Awaited q t)
    (hc : Changes area news s s') (hclosed : s.Closed) (hq : ¬ area q)
    (hnews : ∀ e ∈ news, ∀ p ∈ e.ends, p ≠ [] ∧ s.Told p) (hspared : ¬ Struck news q) : s'.Awaited q t := by
  obtain ⟨pre, e, post, hcut, hcovers, hpost, hquiet⟩ := h
  refine ⟨pre, e, post ++ news, ?_, hcovers, ?_, fun hdir hnot => ?_⟩
  · rw [hc.backlog, hcut, List.append_assoc]
    rfl
  · rw [struck_append_iff, not_or]
    exact ⟨hpost, hspared⟩
  · have hnot' : ¬ s.handed q := fun hs => hnot ((hc.handed q hq).mpr hs)
    intro x hx p hp hqp
    rcases List.mem_append.mp hx with hx | hx
    · exact hquiet hdir hnot' x hx p hp hqp
    · obtain ⟨hne, hs⟩ := hnews x hx p hp
      by_cases heq : q = p
      · exact heq.symm
      · exact absurd (hclosed.handed_of_prefix (hs hne) (prefix_dropLast hqp heq)) hnot'

/-- The last notice takes up what it covers. -/
theorem awaited_of_last {l : List Notice} {e : Notice} (h : s.backlog = l ++ [e]) (hcovers : e.Covers q t) :
    s.Awaited q t := by
  refine ⟨l, e, [], h, hcovers, ?_, fun _ _ => ?_⟩
  · simp [Struck]
  · simp [Quiet]

/-! ### The tree changes -/

namespace Follows

/-- **A change of the tree is accounted for by what is told of it.** In its area, what the tree
    has now is awaited, and what it had is struck or still there. -/
theorem changed (h : s.Follows) {area : List String → Prop} {news : List Notice} (hc : Changes area news s s')
    (hroot : ¬ area []) (harea : ∀ q n, area q → area (q ++ [n]))
    (hnews : ∀ e ∈ news, ∀ p ∈ e.ends, p ≠ [] ∧ s.Told p)
    (hstrikes : ∀ q, Struck news q → s'.tree q = none)
    (hnew : ∀ q t, area q → s'.tree q = some t → s'.Awaited q t)
    (hlost : ∀ q t, area q → s.Told q → s.tree q = some t →
      Struck news q ∨ s'.Told q ∧ ∃ t', s'.tree q = some t' ∧ t'.isDirectory = t.isDirectory)
    (hannounced : ∀ pre source target post, news = pre ++ .renamed source target :: post →
      ¬ source <+: target ∧ ¬ target <+: source ∧ pre = [.removed source, .created target])
    (harrived : ∀ e ∈ news, ∀ a, e.arrival? = some a → s'.Told a ∧ s'.tree a ≠ none) :
    s'.Follows := by
  -- What the tree had and the follower heard of is struck, or still there.
  have hkept : ∀ q t, s.Told q → s.tree q = some t →
      Struck news q ∨ s'.Told q ∧ ∃ t', s'.tree q = some t' ∧ t'.isDirectory = t.isDirectory := by
    intro q t hs ht
    by_cases hq : area q
    · exact hlost q t hq hs ht
    · exact .inr ⟨hc.told harea hq hs, t, by rw [hc.tree q hq, ht], rfl⟩
  have haccounted : ∀ q directory, s.Accounted q directory → s'.Accounted q directory := by
    rintro q directory (hs | ⟨hs, t, ht, rfl⟩)
    · exact .inl (hc.backlog ▸ struck_append_iff.mpr (.inl hs))
    · exact (hkept q t hs ht).imp_left fun hs => hc.backlog ▸ struck_append_iff.mpr (.inr hs)
  constructor
  case root => exact (hc.handed [] hroot).mpr h.root
  case closed => exact hc.closed
  case rooted => exact hc.rooted
  case named =>
    intro e he hnil
    rw [hc.backlog, List.mem_append] at he
    rcases he with he | he
    · exact h.named e he hnil
    · exact (hnews e he [] hnil).1 rfl
  case stale => exact fun q k hk => haccounted q _ (h.stale q k (hc.copy ▸ hk))
  case staleText => exact fun q x hx => haccounted q _ (h.staleText q x (hc.text ▸ hx))
  case current =>
    intro q t ht
    by_cases hq : area q
    · exact .inr (hnew q t hq ht)
    · have hspared : ¬ Struck news q := fun hs => by simp [hstrikes q hs] at ht
      have ht' := ht
      rw [hc.tree q hq] at ht'
      rcases h.current q t ht' with hsettled | hawaited
      · exact .inl (hsettled.changed hc hq (hc.told harea hq hsettled.told) hspared)
      · exact .inr (hawaited.changed hc h.closed hq hnews hspared)
  case announced =>
    intro pre source target post hcut
    rw [hc.backlog] at hcut
    rcases append_eq_cut hcut with ⟨m, hold, -⟩ | ⟨m, rfl, hm⟩
    · obtain ⟨hst, hts, hpre⟩ := h.announced _ _ _ _ hold
      refine ⟨hst, hts, hpre.imp_right fun hbare => ⟨hbare.1, ?_⟩⟩
      simp only [View.Bare, hc.copy, hc.text]
      exact hbare.2
    · obtain ⟨hst, hts, rfl⟩ := hannounced _ _ _ _ hm
      exact ⟨hst, hts, .inl ⟨s.backlog, rfl⟩⟩
  case arrived =>
    intro pre e post a hcut ha r hr
    rw [hc.backlog] at hcut
    rcases append_eq_cut hcut with ⟨m, hold, rfl⟩ | ⟨m, rfl, hm⟩
    · rw [struck_append_iff]
      rcases h.arrived _ _ _ _ hold ha r hr with hs | ⟨hs, hsome⟩
      · exact .inl (.inl hs)
      · obtain ⟨t, ht⟩ := Option.ne_none_iff_exists'.mp hsome
        rcases hkept r t hs ht with hs | ⟨hs, t', ht', -⟩
        · exact .inl (.inr hs)
        · exact .inr ⟨hs, by simp [ht']⟩
    · have he : e ∈ news := by simp [hm]
      obtain ⟨hs, hsome⟩ := harrived e he a ha
      exact .inr ⟨hc.closed.told_of_prefix hs hr, hc.rooted.tree_ne_none hsome hr⟩

/-- Where nothing is told of, all is awaited with the directory that it lies in. -/
theorem awaited_of_untold (h : s.Follows) {news : List Notice} (hbacklog : s'.backlog = s.backlog ++ news)
    (hdir : s.tree r = some .directory) (hr : ¬ s.handed r) (hq : r <+: q) (hspared : ¬ Struck news q)
    (hquiet : Quiet news q) (t : Node) : s'.Awaited q t := by
  rcases h.current r _ hdir with hset | ⟨pre, e, post, hcut, hcovers, hpost, hbelow⟩
  · exact absurd (hset.handed rfl) hr
  · have hbelow := hbelow rfl hr
    obtain ⟨m, rfl⟩ := hq
    refine ⟨pre, e, post ++ news, ?_, hcovers.append m t, ?_, fun _ _ => ?_⟩
    · rw [hbacklog, hcut, List.append_assoc]
      rfl
    · rw [struck_append_iff, not_or]
      exact ⟨hbelow.not_struck hpost (List.prefix_append r m), hspared⟩
    · intro x hx
      rcases List.mem_append.mp hx with hx | hx
      · exact hbelow.of_below (List.prefix_append r m) x hx
      · exact hquiet x hx

theorem not_handed_of_untold {p : List String} (h : ¬ s.Told p) : ¬ s.handed p.dropLast := fun hp => h fun _ => hp

variable {p source target : List String}

/-- Something is made, or a file gets other octets. -/
theorem put (h : s.Follows) {e : Notice} [Decidable (s.Told p)] (hc : Changes (p <+: ·) (tell (s.Told p) e) s s')
    (hp : p ≠ []) (hparent : s.tree p.dropLast = some .directory) (hput : s'.tree p = some t)
    (hold : ∀ t₀, s.tree p = some t₀ → t₀.isDirectory = false ∧ t.isDirectory = false)
    (hbelow : ∀ q, p <+: q → q ≠ p → s'.tree q = s.tree q)
    (hends : e.ends = [p]) (hdeparture : e.departure? = none) (hcovers : e.Covers p t) : s'.Follows := by
  have hspared : ∀ q, ¬ Struck (tell (s.Told p) e) q := by
    rintro q ⟨x, hx, a, ha, -⟩
    rw [(mem_tell.mp hx).2, hdeparture] at ha
    cases ha
  -- Nothing lies below a file.
  have honly : ∀ q t, p <+: q → s.tree q = some t → q = p := by
    intro q t hq ht
    by_cases hne : p = q
    · exact hne.symm
    · obtain ⟨hkind, -⟩ := hold _ (h.rooted.directory (by simp [ht]) hq hne)
      cases hkind
  have hstays : s'.Told p ↔ s.Told p := hc.told_iff (not_prefix_dropLast hp)
  apply h.changed hc
  case hroot => exact fun hnil => hp (List.prefix_nil.mp hnil)
  case harea => exact fun q n hq => hq.trans (List.prefix_append q [n])
  case hnews =>
    intro x hx a ha
    obtain ⟨hs, rfl⟩ := mem_tell.mp hx
    rw [hends, List.mem_singleton] at ha
    exact ha ▸ ⟨hp, hs⟩
  case hstrikes => exact fun q hq => absurd hq (hspared q)
  case hnew =>
    intro q t' hq ht'
    by_cases hs : s.Told p
    · have hqp : q = p := by
        by_cases hne : q = p
        · exact hne
        · exact honly q t' hq (by rw [← hbelow q hq hne, ht'])
      rw [hqp, hput] at ht'
      cases ht'
      refine awaited_of_last (l := s.backlog) ?_ (hqp ▸ hcovers)
      rw [hc.backlog, tell, if_pos hs]
    · refine h.awaited_of_untold hc.backlog hparent (not_handed_of_untold hs)
        ((List.dropLast_prefix p).trans hq) (hspared q) ?_ t'
      intro x hx
      exact absurd (mem_tell.mp hx).1 hs
  case hlost =>
    intro q t₀ hq hs ht₀
    obtain rfl := honly q t₀ hq ht₀
    obtain ⟨hkind, hkind'⟩ := hold t₀ ht₀
    exact .inr ⟨hstays.mpr hs, t, hput, hkind'.trans hkind.symm⟩
  case hannounced =>
    intro pre source target post hcut
    have hx := (mem_tell.mp (show Notice.renamed source target ∈ tell (s.Told p) e by simp [hcut])).2
    rw [← hx] at hdeparture
    cases hdeparture
  case harrived =>
    intro x hx a ha
    obtain ⟨hs, rfl⟩ := mem_tell.mp hx
    have hap := Notice.arrival_mem_ends ha
    rw [hends, List.mem_singleton] at hap
    subst hap
    exact ⟨hstays.mpr hs, by simp [hput]⟩

/-- Something is deleted. -/
theorem deleted (h : s.Follows) [Decidable (s.Told p)] (hc : Changes (p <+: ·) (tell (s.Told p) (.removed p)) s s')
    (hp : p ≠ []) (hgone : ∀ q, p <+: q → s'.tree q = none) : s'.Follows := by
  apply h.changed hc
  case hroot => exact fun hnil => hp (List.prefix_nil.mp hnil)
  case harea => exact fun q n hq => hq.trans (List.prefix_append q [n])
  case hnews =>
    intro x hx a ha
    obtain ⟨hs, rfl⟩ := mem_tell.mp hx
    rw [List.mem_singleton.mp ha]
    exact ⟨hp, hs⟩
  case hstrikes =>
    rintro q ⟨x, hx, a, ha, haq⟩
    rw [(mem_tell.mp hx).2] at ha
    cases ha
    exact hgone q haq
  case hnew =>
    intro q t hq ht
    rw [hgone q hq] at ht
    cases ht
  case hlost =>
    intro q t hq hs _
    refine .inl ⟨.removed p, mem_tell.mpr ⟨h.closed.told_of_prefix hs hq, rfl⟩, p, rfl, hq⟩
  case hannounced =>
    intro pre source target post hcut
    cases (mem_tell.mp (show Notice.renamed source target ∈ tell (s.Told p) (.removed p) by simp [hcut])).2
  case harrived =>
    intro x hx a ha
    rw [(mem_tell.mp hx).2] at ha
    cases ha

/-- Something gets another place, where it may replace a file or an empty directory. -/
theorem moved (h : s.Follows) [Decidable (s.Told source)] [Decidable (s.Told target)]
    (hc : Changes (fun q => source <+: q ∨ target <+: q) (tellMove (s.Told source) (s.Told target) source target) s s')
    (hsource : source ≠ []) (htarget : target ≠ []) (hbelow : ¬ source <+: target) (habove : ¬ target <+: source)
    (hparent : s.tree target.dropLast = some .directory) (hgone : ∀ q, source <+: q → s'.tree q = none)
    (hover : ∀ q t, target <+: q → s.tree q = some t →
      q = target ∧ ∃ t', s'.tree q = some t' ∧ t'.isDirectory = t.isDirectory)
    (hthere : s'.tree target ≠ none) : s'.Follows := by
  have hstruck : ∀ q, Struck (tellMove (s.Told source) (s.Told target) source target) q → source <+: q := by
    rintro q ⟨x, hx, a, ha, haq⟩
    exact (departs_of_mem_tellMove hx ha).1 ▸ haq
  have hstays : s'.Told target ↔ s.Told target := by
    refine hc.told_iff fun hpre => hpre.elim (fun hpre => ?_) (not_prefix_dropLast htarget)
    exact hbelow (hpre.trans (List.dropLast_prefix target))
  apply h.changed hc
  case hroot =>
    exact fun hnil => hnil.elim (fun hn => hsource (List.prefix_nil.mp hn)) fun hn => htarget (List.prefix_nil.mp hn)
  case harea =>
    exact fun q n hq => hq.imp (·.trans (List.prefix_append q [n])) (·.trans (List.prefix_append q [n]))
  case hnews =>
    intro x hx a ha
    rcases Notice.mem_ends ha with hd | hd
    · obtain ⟨rfl, hs⟩ := departs_of_mem_tellMove hx hd
      exact ⟨hsource, hs⟩
    · obtain ⟨rfl, ht⟩ := arrives_of_mem_tellMove hx hd
      exact ⟨htarget, ht⟩
  case hstrikes => exact fun q hq => hgone q (hstruck q hq)
  case hnew =>
    intro q t hq ht
    have hqt : target <+: q := by
      rcases hq with hq | hq
      · rw [hgone q hq] at ht
        cases ht
      · exact hq
    by_cases htold : s.Told target
    · obtain ⟨l, e, hnews, hcovers⟩ := exists_last_tellMove (s.Told source) source htold hqt t
      refine awaited_of_last (l := s.backlog ++ l) ?_ hcovers
      rw [hc.backlog, hnews, List.append_assoc]
    · have hquiet : Quiet (tellMove (s.Told source) (s.Told target) source target) q := by
        intro x hx a ha hqa
        rcases Notice.mem_ends ha with hd | hd
        · obtain ⟨rfl, -⟩ := departs_of_mem_tellMove hx hd
          exact absurd (hqt.trans hqa) habove
        · exact absurd (arrives_of_mem_tellMove hx hd).2 htold
      refine h.awaited_of_untold hc.backlog hparent (not_handed_of_untold htold)
        ((List.dropLast_prefix target).trans hqt) (fun hs => ?_) hquiet t
      exact (List.prefix_or_prefix_of_prefix (hstruck q hs) hqt).elim hbelow habove
  case hlost =>
    intro q t hq hs ht
    rcases hq with hq | hq
    · have hs := h.closed.told_of_prefix hs hq
      refine .inl ⟨.removed source, ?_, source, rfl, hq⟩
      rw [tellMove, tell, if_pos hs]
      exact List.mem_cons_self
    · obtain ⟨rfl, ht'⟩ := hover q t hq ht
      exact .inr ⟨hstays.mpr hs, ht'⟩
  case hannounced =>
    intro pre x y post hcut
    obtain ⟨rfl, rfl, hpre⟩ := renamed_of_tellMove hcut
    exact ⟨hbelow, habove, hpre⟩
  case harrived =>
    intro x hx a ha
    obtain ⟨rfl, ht⟩ := arrives_of_mem_tellMove hx ha
    exact ⟨hstays.mpr ht, hthere⟩

end Follows

end Scene

end Watch

end LiveWorkspace
