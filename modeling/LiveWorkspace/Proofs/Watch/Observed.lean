/-
  LiveWorkspace/Proofs/Watch/Observed.lean
  ========================================
  **A workspace that hears of its tree stays abreast of it.**

  Others change the tree below the root of a workspace, what is told of it waits in a queue,
  and the loop handles the events one by one, arbitrarily late.  A workspace stays abreast of
  its tree (`Observed.Abreast`): whatever has fallen behind is accounted for by what waits.
-/
import LiveWorkspace.Proofs.Watch.Deeds
import LiveWorkspace.Proofs.Workspace.Turns

namespace LiveWorkspace

open Watch (Deed Scene View)

/-- A running workspace, the directories that have been handed to the watch, and the events
    that wait. -/
structure Observed where
  solo : Solo
  handed : List Path
  events : List Watch.Event

namespace Observed

/-! ### Turns -/

/-- What may happen: others do something, after which some directories are under watch; or the
    loop handles the event that has waited longest. -/
inductive Turn where
  | deed (what : Deed) (handed : List Path)
  | handle

/-- After the disk has changed other directories may be under watch, and events have come. -/
def withDisk (o : Observed) (d : Disk) (handed : List Path) (news : List Watch.Event) : Observed :=
  ⟨{ o.solo with shared := { o.solo.shared with disk := d } }, handed, o.events ++ news⟩

/-- A deed that succeeds is told of in the directories that were handed over before it. -/
def afterDeed (o : Observed) (what : Deed) (handed : List Path) : Observed :=
  let root := o.solo.running.workspace.root
  match what.disk? root o.solo.shared.disk with
  | some d => o.withDisk d handed (what.events root o.handed)
  | none => o

variable (checks : Checkers)

/-- What a handler has put under watch is handed over then. -/
def afterHandling (o : Observed) (next : Solo) (rest : List Watch.Event) : Observed :=
  ⟨next, o.handed ++ next.shared.watched.drop o.solo.shared.watched.length, rest⟩

/-- An event has been handled when the loop goes on after it. -/
def handleFirst (o : Observed) : Observed :=
  match o.events with
  | [] => o
  | e :: rest =>
    let next := o.solo.step checks (.handleDisk e)
    if next.running.isAlive then o.afterHandling next rest else { o with solo := next }

def step (o : Observed) : Turn → Observed
  | .deed what handed => o.afterDeed what handed
  | .handle => o.handleFirst checks

/-- Some turns one after the other. -/
def run (o : Observed) (turns : List Turn) : Observed := turns.foldl (step checks) o

/-- Something holds of every turn of a run. -/
def Along (P : Observed → Turn → Observed → Prop) (o : Observed) : List Turn → Prop
  | [] => True
  | turn :: rest => P o turn (o.step checks turn) ∧ Along P (o.step checks turn) rest

/-- A deed that fails is none. -/
theorem afterDeed_cases (o : Observed) (what : Deed) (handed : List Path) :
    o.afterDeed what handed = o ∨ ∃ d, what.disk? o.solo.running.workspace.root o.solo.shared.disk = some d
      ∧ o.afterDeed what handed = o.withDisk d handed (what.events o.solo.running.workspace.root o.handed) := by
  rw [afterDeed]
  cases what.disk? o.solo.running.workspace.root o.solo.shared.disk with
  | none => exact .inl rfl
  | some d => exact .inr ⟨d, rfl, rfl⟩

/-- Where no event waits nothing is handled, and a loop that has ended handles nothing. -/
theorem handleFirst_cases (o : Observed) :
    o.events = [] ∧ o.handleFirst checks = o ∨ ∃ e rest, o.events = e :: rest
      ∧ ((o.solo.step checks (.handleDisk e)).running.isAlive = false
          ∧ o.handleFirst checks = { o with solo := o.solo.step checks (.handleDisk e) }
        ∨ o.solo.running.isAlive = true ∧ (o.solo.step checks (.handleDisk e)).running.isAlive = true
          ∧ o.handleFirst checks = o.afterHandling (o.solo.step checks (.handleDisk e)) rest) := by
  rw [handleFirst]
  cases hevents : o.events with
  | nil => exact .inl ⟨rfl, rfl⟩
  | cons e rest =>
    refine .inr ⟨e, rest, rfl, ?_⟩
    cases hnext : (o.solo.step checks (.handleDisk e)).running.isAlive with
    | false => exact .inl ⟨rfl, by simp [hnext]⟩
    | true =>
      refine .inr ⟨Bool.of_not_eq_false fun hended => ?_, rfl, by simp [hnext]⟩
      simp [(Solo.step_of_ended checks hended).1] at hnext

/-! ### Fair turns -/

variable {m : Layout} {o : Observed} {backlog : List Watch.Notice} {what : Deed} {handed : List Path} {d : Disk}

/-- A deed is done below the root, at names that can be spelled, and only what lies at or below
    its places is watched anew or no more. -/
def Abides (m : Layout) (o : Observed) : Turn → Prop
  | .deed what handed => (∀ a ∈ what.ends, a ≠ [] ∧ ∀ n ∈ a, Path.Proper n)
      ∧ ∀ p ∈ handed ++ o.handed, (∀ a ∈ what.ends, p.startsWith (m.path a) = false) → (p ∈ handed ↔ p ∈ o.handed)
  | .handle => True

/-- No directory is handed over while the one that it lies in is not. -/
def Nested (m : Layout) (o : Observed) : Prop :=
  ∀ p ∈ o.handed, m.names p = [] ∨ m.path (m.names p).dropLast ∈ o.handed

/-- A fair turn: the operating system takes all paths, and no directory is handed over before
    the one that it lies in. -/
structure Fair (m : Layout) (o : Observed) (turn : Turn) (o' : Observed) : Prop where
  abides : Abides m o turn
  nested : o'.Nested m
  fits : ∀ q, m.original.node o'.solo.shared.disk q ≠ none → m.Fits q

/-! ### Staying abreast -/

/-- A workspace as a follower of its tree, with what waits. -/
def scene (m : Layout) (o : Observed) (backlog : List Watch.Notice) : Scene :=
  { m.view o.solo.desk with
    handed := fun q => (∀ n ∈ q, Path.Proper n) ∧ m.path q ∈ o.handed
    backlog := backlog }

/-- A workspace is abreast of its tree: what it has not heard of yet waits. -/
structure Abreast (m : Layout) (o : Observed) (backlog : List Watch.Notice) : Prop where
  events : o.events = backlog.map m.event
  order : m.InOrder o.solo.desk
  fits : m.AllFit (m.view o.solo.desk)
  follows : (o.scene m backlog).Follows
  proper : ∀ e ∈ backlog, e.Proper
  departures : ∀ e ∈ backlog, ∀ a, e.departure? = some a → m.Fits a

theorem Nested.closed (h : o.Nested m) (backlog : List Watch.Notice) : (o.scene m backlog).Closed := by
  rintro q n ⟨hproper, hin⟩
  refine ⟨fun x hx => hproper x (List.mem_append_left [n] hx), ?_⟩
  have hnested := h _ hin
  rw [Layout.names_path hproper, List.dropLast_concat] at hnested
  exact hnested.resolve_left (by simp)

namespace Abreast

theorem told_iff (backlog : List Watch.Notice) {q : List String} (hq : q ≠ []) (hproper : ∀ n ∈ q, Path.Proper n) :
    (o.scene m backlog).Told q ↔ Deed.Heard m.root o.handed q := by
  refine ⟨fun ht => (ht hq).2, fun hin _ => ⟨fun n hn => hproper n (List.dropLast_subset q hn), hin⟩⟩

section Deeds

variable (h : o.Abreast m backlog) (habides : Abides m o (.deed what handed))
  (hdoes : what.Does m.original o.solo.shared.disk d)
  {news : List Watch.Event} (hnested : (o.withDisk d handed news).Nested m)
include h habides hdoes hnested

/-- Nothing changes but at and below the places of a deed. -/
theorem changes (notices : List Watch.Notice) :
    Scene.Changes (fun q => ∃ a ∈ what.ends, a <+: q) notices (o.scene m backlog)
      ((o.withDisk d handed news).scene m (backlog ++ notices)) := by
  have hstage := h.order.stage.of_original hdoes.outside hdoes.tidy
  have hview : m.view (o.withDisk d handed news).solo.desk = { m.view o.solo.desk with tree := m.original.node d } :=
    hstage.view
  constructor
  case backlog => rfl
  case copy =>
    show (m.view _).copy = _
    rw [hview]
    rfl
  case text =>
    show (m.view _).text = _
    rw [hview]
    rfl
  case tree => exact fun q hq => hdoes.kept fun a ha haq => hq ⟨a, ha, haq⟩
  case handed =>
    intro q hq
    refine and_congr_right fun hproper => ?_
    have hbeside : ∀ a ∈ what.ends, (m.path q).startsWith (m.path a) = false := by
      intro a ha
      rw [Bool.eq_false_iff, Ne, Layout.startsWith_path_iff hproper (habides.1 a ha).2]
      exact fun haq => hq ⟨a, ha, haq⟩
    refine ⟨fun hin => ?_, fun hin => ?_⟩
    · exact (habides.2 _ (List.mem_append_left _ hin) hbeside).mp hin
    · exact (habides.2 _ (List.mem_append_right _ hin) hbeside).mpr hin
  case closed => exact hnested.closed _
  case rooted => exact hstage.order.rooted

/-- A deed at one place changes what lies there, and is told of where the place is heard of. -/
theorem changes_at {ns : List String} [Decidable ((o.scene m backlog).Told ns)] (hwhat : what.ends = [ns])
    (e : Watch.Notice) : ns ≠ [] ∧ Scene.Changes (ns <+: ·) (Watch.tell ((o.scene m backlog).Told ns) e)
      (o.scene m backlog)
      ((o.withDisk d handed news).scene m (backlog ++ Watch.tell ((o.scene m backlog).Told ns) e))
      ∧ Watch.tell ((o.scene m backlog).Told ns) e = Watch.tell (Deed.Heard m.root o.handed ns) e := by
  obtain ⟨hne, hproper⟩ := habides.1 ns (by simp [hwhat])
  have hc := h.changes habides hdoes hnested (Watch.tell ((o.scene m backlog).Told ns) e)
  have harea : (fun q => ∃ a ∈ what.ends, a <+: q) = (ns <+: ·) := funext fun q => by simp [hwhat]
  rw [harea] at hc
  exact ⟨hne, hc, Deed.tell_congr (told_iff backlog hne hproper) e⟩

/-- An entry that is put is told of, or awaited with its directory. -/
theorem follows_of_puts {ns : List String} {t : Node} {e : Watch.Notice} (hwhat : what.ends = [ns])
    (hputs : m.original.Puts ns t o.solo.shared.disk d) (hends : e.ends = [ns]) (hdeparture : e.departure? = none)
    (hcovers : e.Covers ns t) :
    ((o.withDisk d handed news).scene m (backlog ++ Watch.tell (Deed.Heard m.root o.handed ns) e)).Follows := by
  classical
  obtain ⟨hne, hc, htell⟩ := h.changes_at habides hdoes hnested hwhat e
  rw [← htell]
  exact h.follows.put hc hne (hputs.parent hne) hputs.there hputs.old (fun q _ => hputs.kept q) hends hdeparture hcovers

theorem follows_of_cleared {ns : List String} (hwhat : what.ends = [ns])
    (hcleared : m.original.Cleared ns o.solo.shared.disk d) :
    ((o.withDisk d handed news).scene m
      (backlog ++ Watch.tell (Deed.Heard m.root o.handed ns) (.removed ns))).Follows := by
  classical
  obtain ⟨hne, hc, htell⟩ := h.changes_at habides hdoes hnested hwhat (.removed ns)
  rw [← htell]
  exact h.follows.deleted hc hne hcleared.gone

theorem follows_of_moves {source target : List String} (hwhat : what.ends = [source, target])
    (hmoves : m.original.Moves source target o.solo.shared.disk d) :
    ((o.withDisk d handed news).scene m (backlog ++ Watch.tellMove (Deed.Heard m.root o.handed source)
      (Deed.Heard m.root o.handed target) source target)).Follows := by
  obtain ⟨hsource, hsproper⟩ := habides.1 source (by simp [hwhat])
  obtain ⟨htarget, htproper⟩ := habides.1 target (by simp [hwhat])
  have hold := told_iff (m := m) (o := o) backlog hsource hsproper
  have hnew := told_iff (m := m) (o := o) backlog htarget htproper
  have hc := h.changes habides hdoes hnested (Watch.tellMove (Deed.Heard m.root o.handed source)
    (Deed.Heard m.root o.handed target) source target)
  have harea : (fun q => ∃ a ∈ what.ends, a <+: q) = fun q => source <+: q ∨ target <+: q :=
    funext fun q => by simp [hwhat]
  have : Decidable ((o.scene m backlog).Told source) := decidable_of_iff _ hold.symm
  have : Decidable ((o.scene m backlog).Told target) := decidable_of_iff _ hnew.symm
  rw [harea, ← Deed.tellMove_congr hold hnew] at hc
  rw [← Deed.tellMove_congr hold hnew]
  exact h.follows.moved hc hsource htarget hmoves.below hmoves.above
    (hmoves.parent htarget) hmoves.gone hmoves.replaced hmoves.there

/-- What is told of a deed accounts for all that it does. -/
theorem follows_deed :
    ((o.withDisk d handed news).scene m (backlog ++ what.notices (Deed.Heard m.root o.handed))).Follows := by
  cases what with
  | makeDir ns => exact h.follows_of_puts habides hdoes hnested rfl hdoes rfl rfl List.prefix_rfl
  | create ns => exact h.follows_of_puts habides hdoes hnested rfl hdoes rfl rfl List.prefix_rfl
  | write ns content => exact h.follows_of_puts habides hdoes hnested rfl hdoes rfl rfl ⟨rfl, rfl⟩
  | delete ns => exact h.follows_of_cleared habides hdoes hnested rfl hdoes.1
  | deleteTree ns => exact h.follows_of_cleared habides hdoes hnested rfl hdoes.1
  | rename source target hne => exact h.follows_of_moves habides hdoes hnested rfl hdoes

/-- **After a deed of others the workspace is abreast of its tree.** -/
theorem deed (hnews : news = what.events o.solo.running.workspace.root o.handed)
    (hfits : ∀ q, m.original.node d q ≠ none → m.Fits q) :
    (o.withDisk d handed news).Abreast m (backlog ++ what.notices (Deed.Heard m.root o.handed)) where
  events := by
    have hroot : o.solo.running.workspace.root = m.root := h.order.registered.rooted
    rw [hnews, hroot, Deed.events_eq, List.map_append, ← h.events]
    rfl
  order := (h.order.stage.of_original hdoes.outside hdoes.tidy).order
  fits := hfits
  follows := h.follows_deed habides hdoes hnested
  proper e he := by
    rcases List.mem_append.mp he with he | he
    · exact h.proper e he
    · exact fun a ha => (habides.1 a (Deed.ends_of_mem_notices he ha)).2
  departures e he a ha := by
    rcases List.mem_append.mp he with he | he
    · exact h.departures e he a ha
    · exact h.fits a (hdoes.departed he ha)

end Deeds

/-- A deed that succeeds does what it is to do. -/
theorem does (h : o.Abreast m backlog) (habides : Abides m o (.deed what handed))
    (hdisk : what.disk? o.solo.running.workspace.root o.solo.shared.disk = some d) :
    what.Does m.original o.solo.shared.disk d := by
  have hroot : o.solo.running.workspace.root = m.root := h.order.registered.rooted
  rw [hroot] at hdisk
  exact what.does h.order.holds.original (fun a ha => (habides.1 a ha).2) hdisk

section Handling

/-- What the loop has done when it goes on after an event: it has taken up what is found where
    something is told to have arrived, or let go of what is told to have gone. -/
inductive Handled (m : Layout) (o : Observed) (next : Solo) : Watch.Notice → Prop
  | arrival (e : Watch.Notice) (hnone : ∀ a, e ≠ .removed a)
      (hbare : ∀ a b, e = .renamed a b → (m.view o.solo.desk).Bare a)
      (hsettles : Layout.Stage.Settles m e (m.view o.solo.desk) o.solo.shared.watched next.desk) : Handled m o next e
  | departure (a : List String) (v' : View) (hlets : (m.view o.solo.desk).LetsGo a v')
      (hstage : m.Stage v' o.solo.shared.watched next.desk) : Handled m o next (.removed a)

/-- Just the directories that are taken up are put under watch. -/
theorem Handled.mem_watched_iff {e : Watch.Notice} {next : Solo} (h : Handled m o next e) {p : Path} :
    p ∈ next.shared.watched.drop o.solo.shared.watched.length
      ↔ ∃ q, m.original.node o.solo.desk.shared.disk q = some .directory ∧ e.Covers q .directory ∧ p = m.path q := by
  cases h with
  | arrival _ hnone hbare hsettles =>
    obtain ⟨v', dirs, -, hstage, hdirs⟩ := hsettles
    have hwatched : next.shared.watched = o.solo.shared.watched ++ dirs := hstage.watched
    rw [hwatched, List.drop_left]
    exact hdirs p
  | departure a v' hlets hstage =>
    have hwatched : next.shared.watched = o.solo.shared.watched := hstage.watched
    rw [hwatched, List.drop_length]
    refine ⟨fun hp => absurd hp List.not_mem_nil, ?_⟩
    rintro ⟨q, -, hcovers, -⟩
    exact hcovers.elim

/-- The event that has waited longest is that of the first notice. -/
theorem exists_first (h : o.Abreast m backlog) {x : Watch.Event} {rest : List Watch.Event}
    (hevents : o.events = x :: rest) :
    ∃ e waiting, backlog = e :: waiting ∧ m.event e = x ∧ waiting.map m.event = rest := by
  rw [h.events] at hevents
  exact List.map_eq_cons_iff.mp hevents

variable {e : Watch.Notice} {rest : List Watch.Notice} {next : Solo} (h : o.Abreast m (e :: rest))
include h

theorem handled (halive : o.solo.running.isAlive = true)
    (hgoes : (o.solo.step checks (.handleDisk (m.event e))).running.isAlive = true) :
    Handled m o (o.solo.step checks (.handleDisk (m.event e))) e := by
  obtain ⟨d', hrun, hnext⟩ := (Solo.step_handleDisk checks halive).2 hgoes
  have hdesk : (o.solo.step checks (.handleDisk (m.event e))).desk = d' := by rw [hnext]; rfl
  have hstage := h.order.stage
  have he : e.Proper := h.proper e List.mem_cons_self
  by_cases hgone : ∃ a, e = .removed a
  · obtain ⟨a, rfl⟩ := hgone
    have hevent := hstage.departs checks (h.departures _ List.mem_cons_self a rfl) (he a List.mem_cons_self)
    obtain ⟨v', hlets, hstage'⟩ := (wp_of_ok hrun).mp hevent
    exact .departure a v' hlets (hdesk ▸ hstage')
  · have hnone : ∀ a, e ≠ .removed a := fun a hr => hgone ⟨a, hr⟩
    -- Of what has another place now, the old one was let go of when the first half was handled.
    have hbare : ∀ a b, e = .renamed a b → (m.view o.solo.desk).Bare a := by
      rintro a b rfl
      obtain ⟨-, -, ⟨pre, hpre⟩ | ⟨-, hbare⟩⟩ := h.follows.announced [] a b rest rfl
      · simp at hpre
      · exact hbare
    have hevent := hstage.arrives checks h.fits he hnone hbare
    exact .arrival e hnone hbare (hdesk ▸ (wp_of_ok hrun).mp hevent)

/-- The directories that have been handed over, by their names. -/
theorem handed_iff (hhandled : Handled m o next e) (q : List String) :
    ((o.afterHandling next (rest.map m.event)).scene m rest).handed q
      ↔ (o.scene m (e :: rest)).handed q ∨ (o.scene m (e :: rest)).tree q = some .directory
        ∧ e.Covers q .directory := by
  show (_ ∧ m.path q ∈ o.handed ++ next.shared.watched.drop o.solo.shared.watched.length) ↔ _
  have hproper : ∀ {r}, m.original.node o.solo.desk.shared.disk r = some .directory → ∀ n ∈ r, Path.Proper n :=
    fun hdir => h.order.holds.proper_names (by simp [hdir])
  rw [List.mem_append, and_or_left, hhandled.mem_watched_iff]
  refine or_congr_right ⟨?_, ?_⟩
  · rintro ⟨hq, r, hdir, hcovers, heq⟩
    rw [Layout.path_inj hq (hproper hdir) heq]
    exact ⟨hdir, hcovers⟩
  · rintro ⟨hdir, hcovers⟩
    exact ⟨hproper hdir, q, hdir, hcovers, rfl⟩

/-- **After an event has been handled the workspace is abreast of its tree.** -/
theorem handling (hhandled : Handled m o next e) (hnested : (o.afterHandling next (rest.map m.event)).Nested m) :
    (o.afterHandling next (rest.map m.event)).Abreast m rest := by
  have hhanded := h.handed_iff hhandled
  have hrest : (∀ x ∈ rest, x.Proper) ∧ ∀ x ∈ rest, ∀ a, x.departure? = some a → m.Fits a :=
    ⟨fun x hx => h.proper x (List.mem_cons_of_mem e hx), fun x hx => h.departures x (List.mem_cons_of_mem e hx)⟩
  cases hhandled with
  | arrival _ hnone hbare hsettles =>
    obtain ⟨v', dirs, htakes, hstage, -⟩ := hsettles
    obtain rfl := hstage.view
    refine ⟨rfl, hstage.order, fun q hq => h.fits q (htakes.tree ▸ hq), ?_, hrest.1, hrest.2⟩
    exact h.follows.arrives ⟨rfl, htakes, hhanded⟩ (hnested.closed rest) hnone hbare
  | departure a v' hlets hstage =>
    obtain rfl := hstage.view
    refine ⟨rfl, hstage.order, fun q hq => h.fits q (hlets.tree ▸ hq), ?_, hrest.1, hrest.2⟩
    exact h.follows.departs ⟨rfl, hlets, fun q => (hhanded q).trans (or_iff_left fun hq => hq.2.elim)⟩

/-- A directory is handed over after the one it lies in, if that one has been handed over by
    the time something is told of it. -/
theorem nested_handling (hhandled : Handled m o next e) (hnested : o.Nested m)
    (hheard : ∀ a ∈ e.ends, Deed.Heard m.root o.handed a) : (o.afterHandling next (rest.map m.event)).Nested m := by
  intro p hp
  rcases List.mem_append.mp hp with hp | hp
  · exact (hnested p hp).imp_right (List.mem_append_left _)
  · obtain ⟨q, hdir, hcovers, rfl⟩ := hhandled.mem_watched_iff.mp hp
    rw [Layout.names_path (h.order.holds.proper_names (by simp [hdir]))]
    by_cases hq : q = []
    · exact .inl hq
    · obtain ⟨a, ha, haq⟩ := hcovers.arrival
      refine .inr (List.mem_append.mpr ?_)
      by_cases heq : a = q
      · exact .inl (heq ▸ hheard a (Watch.Notice.arrival_mem_ends ha))
      · have hparent : m.original.node o.solo.desk.shared.disk q.dropLast = some .directory :=
          h.order.rooted.parent (show m.original.node o.solo.desk.shared.disk q ≠ none by simp [hdir]) hq
        have hdropped := hcovers.of_arrival ha (Watch.prefix_dropLast haq heq)
        exact .inr (hhandled.mem_watched_iff.mpr ⟨q.dropLast, hparent, hdropped, rfl⟩)

end Handling

end Abreast

end Observed

end LiveWorkspace
