/-
  LiveWorkspace/Proofs/Workspace/Recurring.lean
  =============================================
  **In a run, a disk event that recurs at once changes nothing.**

  Wherever the turns of one workspace lead without a failed operation on the replica, and no event
  of the editor waits, the workspace is ready for an event of the disk, and what is open has its
  copy.  So the event may be handled a second time (`Solo.same_of_recurring`): unless what is found
  where it says that something has come or was written depends on what is in the replica.
-/
import LiveWorkspace.Proofs.Workspace.Repeating

namespace LiveWorkspace

namespace Desk

/-! ### Tracked paths are spelled in one way only -/

/-- No path is tracked under two spellings. -/
def Spaced (d : Desk) : Prop := Path.Apart d.workspace.tracked

theorem spaced_kept : Kept Spaced (fun _ => True) fun _ => True where
  shared _ := ⟨fun _ _ h => h, fun _ _ h => h, fun _ _ _ _ h _ => h⟩
  config _ _ _ h := h
  closed _ _ _ _ := trivial
  below _ _ _ _ := trivial
  found _ _ _ _ _ _ := trivial
  watched _ _ h := h
  taken _ doc h _ _ _ _ _ _ := Workspace.apart_track h doc.path
  revised _ _ _ _ h _ _ _ := h
  tracked _ p h _ _ := Workspace.apart_track h p
  worked _ _ _ h _ _ := h
  moved _ _ _ h _ _ := h
  released _ _ h := h.sublist List.filter_sublist
  erased _ _ h _ := h

theorem spaced_records : Records Spaced := fun _ _ _ _ h _ _ => h

end Desk

namespace Solo

variable {m : Premises} {given replicaRoot : Path} {shared : Shared} {s start : Solo} {turn : Turn}
  {turns : List Turn} {event : Watch.Event}

theorem afterCall_workspace (s : Solo) (c : Call) :
    (s.afterCall c).running.workspace = s.running.workspace := by
  obtain ⟨es, shared, -, -, hafter⟩ := afterCall_ends (wp_true (c.act s.running.workspace) s.shared)
  rw [hafter, enqueue_workspace]

variable (checks : Checkers)

theorem step_spaced (h : s.desk.Spaced) (turn : Turn) : (s.step checks turn).desk.Spaced := by
  have hbears : s.running.Bears Desk.Spaced (fun _ => True) s.shared := ⟨h, fun _ _ => trivial⟩
  cases turn with
  | call c =>
    show Path.Apart (s.afterCall c).running.workspace.tracked
    rw [afterCall_workspace]
    exact h
  | disk disk => exact h
  | handleWatchFailure => exact (Desk.spaced_kept.handleWatchFailure_keeps hbears).desk
  | handleNext => exact (Desk.spaced_kept.handleNext_keeps checks Desk.spaced_records hbears).desk
  | handleDisk e =>
    exact (Desk.spaced_kept.handleDisk_keeps checks Desk.spaced_records e trivial (fun _ _ => trivial) hbears).desk

theorem run_spaced (h : s.desk.Spaced) (turns : List Turn) : (s.run checks turns).desk.Spaced := by
  induction turns generalizing s with
  | nil => exact h
  | cons turn rest ih => exact ih (step_spaced checks h turn)

theorem spaced_of_opened (h : opened checks given replicaRoot shared = some start) : start.desk.Spaced := by
  obtain ⟨w, hrunning, hcreate⟩ := create_of_opened checks h
  have hrun : wp (Workspace.create checks given replicaRoot) _ _ shared :=
    Desk.spaced_kept.grows.create_keeps checks Desk.spaced_records (fun _ _ => trivial) fun _ _ _ => List.Pairwise.nil
  have hdesk : Desk.Spaced ⟨start.shared, w⟩ := (wp_of_ok hcreate).mp hrun
  rw [desk, hrunning]
  exact hdesk

/-! ### Runs -/

/-- Where no event of the editor waits, the workspace is ready for an event of the disk. -/
theorem Seated.poised (h : s.Seated m) (hregistered : s.Registered m.root) (hspaced : s.desk.Spaced)
    (halive : s.running.isAlive = true) (hqueue : s.running.queue = []) : s.desk.Poised m where
  toSeated := h.desk
  apart := hspaced
  known p hp q hq hdoc := by
    have hin : s.shared.store.contains q = true := by
      rw [Store.contains, Option.isSome_iff_ne_none]
      exact hdoc
    refine List.any_eq_true.mp ((hregistered.tracks_iff halive fun e he => ?_).mpr ⟨hin, Path.startsWith_trans hq hp.1⟩)
    rw [hqueue] at he
    cases he

/-- Fair turns in which no closing buries anything leave all copies in their place. -/
theorem run_faithful (h : s.running.isAlive = true → Faithful m s) (hfair : s.Along checks (Fair m) turns)
    (hspares : s.Along checks (fun s turn s' => s'.running.isAlive = true → ¬ Buries s turn) turns)
    (halive : (s.run checks turns).running.isAlive = true) : Faithful m (s.run checks turns) := by
  induction turns generalizing s with
  | nil => exact h halive
  | cons turn rest ih =>
    refine ih (fun halive' => ?_) hfair.2 hspares.2 halive
    have halive := isAlive_of_step checks halive'
    exact step_faithful checks (h halive) halive hfair.1 (hspares.1 halive') halive'

/-- Where no event of the editor waits, what is open has its copy. -/
theorem Faithful.furnished (h : Faithful m s) (hqueue : s.running.queue = []) : s.desk.Furnished m := by
  intro q hq content hopen
  have hfresh : ¬ (waiting s.running.queue).stale q := by
    rw [hqueue]
    rintro ⟨e, he, -⟩
    exact List.not_mem_nil he
  obtain ⟨doc, hdoc, rfl⟩ := Option.map_eq_some_iff.mp hopen
  obtain ⟨hdoc, hdocOpen⟩ := Option.filter_eq_some_iff.mp hdoc
  have hisOpen : s.desk.shared.store.isOpen q = true := by
    rw [Store.isOpen, show s.desk.shared.store.get? q = some doc from hdoc]
    exact hdocOpen
  obtain ⟨bytes, hfile, htext, hencoded⟩ := h.agrees.copies q hq hfresh
  have hcontent : doc.content = Text.Utf8.decodeLossy bytes := by
    rw [Desk.text?, show s.desk.shared.store.get? q = some doc from hdoc] at htext
    exact Option.some.inj htext
  refine ⟨h.agrees.sound q (.inl hq) (h.agrees.below q hq) fun hu => hfresh ((waiting_regular _).untried q hu), ?_⟩
  rw [hcontent, hencoded hisOpen]
  exact Site.node_eq_file_iff.mpr hfile.2

/-- What is left when an event of the disk has been handled. -/
theorem step_of_handled {d : Desk} (halive : s.running.isAlive = true)
    (hrun : Desk.onDiskEvent checks event s.desk = .ok () d) :
    (s.step checks (.handleDisk event)).desk = d ∧ (s.step checks (.handleDisk event)).running.isAlive = true
      ∧ (s.step checks (.handleDisk event)).running.queue = s.running.queue := by
  have halive' := isAlive_handleDisk checks halive hrun
  obtain ⟨d', hrun', hstep⟩ := (step_handleDisk checks halive).2 halive'
  obtain rfl : d' = d := by
    rw [hrun] at hrun'
    cases hrun'
    rfl
  refine ⟨?_, halive', ?_⟩
  · rw [hstep]
    rfl
  · rw [hstep]

variable {checks}

/-- **An event of the disk that recurs at once changes nothing.**  After fair turns in which no closing
    buries anything, and where no event of the editor waits, an event that is handled twice leaves
    the documents, the tracked paths, the configuration and the replica that it leaves when it is
    handled once: unless what is found at its path depends on what is in the replica. -/
theorem same_of_recurring (htotal : checks.Total) (hbegins : Begins checks m given replicaRoot shared start)
    (htidy : m.site.Tidy shared.disk) (hfresh : ∀ p, m.root.Below p → shared.store.contains p = false)
    (hfair : start.Along checks (Fair m) turns)
    (hspares : start.Along checks (fun s turn s' => s'.running.isAlive = true → ¬ Buries s turn) turns)
    (hqueue : (start.run checks turns).running.queue = []) (hinside : Desk.Inside m event)
    (hunmirrored : Desk.Unmirrored m (start.run checks turns).shared.disk event) :
    let s := start.run checks turns
    let s₁ := s.step checks (.handleDisk event)
    let s₂ := s₁.step checks (.handleDisk event)
    s₂.running.isAlive = s.running.isAlive ∧ Desk.Same m s₁.desk s₂.desk := by
  intro s s₁ s₂
  have habides : start.Along checks (fun s turn _ => Abides m s turn) turns := hfair.imp checks fun _ _ _ h => h.1
  have hseated : s.Seated m :=
    run_seated checks (seated_of_opened checks hbegins.opened hbegins.resolved hbegins.placed htidy) habides
  have hregistered : s.Registered m.root := run_registered checks
    (registered_of_opened checks hbegins.opened hbegins.resolved htidy.proper hfresh) (regards_of_along checks habides)
  have hspaced : s.desk.Spaced := run_spaced checks (spaced_of_opened checks hbegins.opened) turns
  cases halive : s.running.isAlive with
  | false =>
    have hended : ∀ s : Solo, s.running.isAlive = false → s.step checks (.handleDisk event) = s := by
      intro s hs
      simp [step, Running.handleDisk, hs, ofPair]
    have hs₁ : s₁ = s := hended s halive
    have hs₂ : s₂ = s₁ := hended s₁ (hs₁ ▸ halive)
    rw [hs₂]
    exact ⟨hs₁ ▸ halive, .refl m _⟩
  | true =>
    have hfurnished : s.desk.Furnished m :=
      (run_faithful checks (fun _ => (hbegins.faithful checks).1) hfair hspares halive).furnished hqueue
    -- What the first handling leaves has been reached by a turn, too.
    have hstill : ∀ d₁, Desk.onDiskEvent checks event s.desk = .ok () d₁ → d₁.Poised m := by
      intro d₁ hrun
      obtain ⟨hdesk₁, halive₁, hqueue₁⟩ := step_of_handled checks halive hrun
      have hregards : Regards m.root (.handleDisk event) := ⟨hinside.1.1, fun source hsource => (hinside.2 source hsource).1⟩
      have hseated₁ : s₁.Seated m := step_seated checks hseated hinside
      have hregistered₁ : s₁.Registered m.root := step_registered checks hregistered hregards
      rw [← hdesk₁]
      exact hseated₁.poised hregistered₁ (step_spaced checks hspaced _) halive₁ (hqueue₁.trans hqueue)
    obtain ⟨d₁, d₂, hrun₁, hrun₂, hsame⟩ :=
      (hseated.poised hregistered hspaced halive hqueue).same_of_twice checks htotal hinside hfurnished hunmirrored hstill
    obtain ⟨hdesk₁, halive₁, -⟩ := step_of_handled checks halive hrun₁
    rw [← hdesk₁] at hrun₂
    obtain ⟨hdesk₂, halive₂, -⟩ := step_of_handled checks halive₁ hrun₂
    refine ⟨halive₂, ?_⟩
    show Desk.Same m s₁.desk s₂.desk
    rw [hdesk₁, hdesk₂]
    exact hsame

/-- What is left after some turns in the small project when an event is handled once, and twice. -/
def repeated (turns : List Turn) (event : Watch.Event) : Desk × Desk :=
  let s := (small.run contentCheckers turns).step contentCheckers (.handleDisk event)
  (s.desk, (s.step contentCheckers (.handleDisk event)).desk)

/-- The directory of an open program gets another name, and this is told twice. -/
theorem same_while_shifting :
    let (once, twice) := repeated shiftingTurns (.renamed ⟨"/w/sub"⟩ ⟨"/w/new"⟩)
    Desk.Same smallPremises once twice
      ∧ smallPremises.site.node twice.shared.disk ["new", "b.dsp"] = some (.file (Text.Utf8.encode "b"))
      ∧ smallPremises.site.node twice.shared.disk ["sub", "b.dsp"] = some (.file (Text.Utf8.encode "new")) := by
  have hturns : small.Along contentCheckers
      (fun s turn s' => (Clear smallPremises ["r"] s turn ∧ s'.shared.failures = s.shared.failures) ∧ ¬ Buries s turn)
      shiftingTurns := by decide +kernel
  obtain ⟨hclear, hleads, hqueue⟩ : (small.run contentCheckers shiftingTurns).shared.disk.isClear = true
      ∧ (small.run contentCheckers shiftingTurns).shared.disk.leads ["w", "new"] = true
      ∧ (small.run contentCheckers shiftingTurns).running.queue = [] := by decide +kernel
  have hunmirrored : Desk.Unmirrored smallPremises (small.run contentCheckers shiftingTurns).shared.disk
      (.renamed ⟨"/w/sub"⟩ ⟨"/w/new"⟩) :=
    Premises.Detached.of_plain (Disk.proper_of_clear hclear) (show _ = ["w", "new"].foldl Path.child ⟨"/"⟩ by decide +kernel)
      (Disk.plain_of_clear hclear hleads (by decide +kernel)) ⟨by decide +kernel, by decide +kernel⟩
  exact ⟨(same_of_recurring (fun _ _ => rfl) small_begins small_starts.tidy small_starts.fresh
    (hturns.imp _ fun _ _ _ h => fair_of_clear smallPremises_spelled _ _ h.1) (hturns.imp _ fun _ _ _ h _ => h.2) hqueue
    (by decide +kernel) hunmirrored).2, by decide +kernel⟩

/-! ### Where a second handling makes a difference -/

/-- Others may put a link aside of the replica. -/
theorem spared_of_linked {ns ps : List String} {old new : Disk} (h : m.Spelled ns ps) (hclear : old.isClear = true)
    (hproper : new.entries.all (fun x => x.1.all Name.isProper) = true) (hleads : new.leads ps = true)
    (hzone : new.within m.site.zone = old.within m.site.zone) : Spared m old new where
  proper x hx n hn := of_decide_eq_true (List.all_eq_true.mp (List.all_eq_true.mp hproper x hx) _ hn)
  reached := by
    have hparent : ∀ n ∈ ps, Path.Proper n := fun n hn => h.proper n (List.mem_append_right _ hn)
    refine (Site.Stands.of_directories (h.proper _ (by simp)) hparent h.reached h.base h.parent h.sound
      (Disk.reach_of_leads hleads) ?_ fun loc target hloc => ?_).reached
    · rw [h.base]
      exact Disk.directory_of_leads hleads List.prefix_rfl
    · rw [Disk.get?_of_within hzone hloc]
      exact Disk.get?_ne_link_of_clear hclear loc target
  zone _ := Disk.get?_of_within hzone

/-- Others put a link to the replica into the project. -/
def linkingTurns : List Turn := changed [] (·.insert [.text "w", .text "l"] (.link ⟨"/r/w"⟩))

/-- A closing buries a program that is open, and all that was open at its path is closed at last. -/
def forsakingTurns : List Turn :=
  let d : Path := ⟨"/w/d"⟩
  let early : List Turn := opening d ++ [.call (.didOpen ⟨"/w/d/x.dsp"⟩ "x"), .call (.didClose d), .handleDisk (.removed d),
    .call (.didOpen d "t"), .call (.didClose d), .handleNext, .handleNext, .handleNext]
  let late : List Turn := .call (.didOpen d "t") :: List.replicate 5 .handleNext ++ [.call (.didClose d), .handleNext]
  changed (early ++ late) (·.insert [.text "w", .text "new"] (.directory 0o755))

/-- **A second handling may leave more.**  What is found at a link into the replica is mirrored below
    the link's own copy, and is found there again; and what has lost its copy by a closing gets it
    when its directory is said to have got another name, so that the next time the copy moves along. -/
theorem recurring_unlike_once :
    let linked : Watch.Event := .created ⟨"/w/l"⟩
    let renamed : Watch.Event := .renamed ⟨"/w/d"⟩ ⟨"/w/new"⟩
    (small.Along contentCheckers (Fair smallPremises) linkingTurns
        ∧ (small.run contentCheckers linkingTurns).running.queue = [] ∧ Desk.Inside smallPremises linked
        ∧ ¬ Desk.Same smallPremises (repeated linkingTurns linked).1 (repeated linkingTurns linked).2)
      ∧ small.Along contentCheckers (Fair smallPremises) forsakingTurns
        ∧ (small.run contentCheckers forsakingTurns).running.queue = [] ∧ Desk.Inside smallPremises renamed
        ∧ ¬ Desk.Same smallPremises (repeated forsakingTurns renamed).1 (repeated forsakingTurns renamed).2 := by
  intro linked renamed
  have hlinking : small.Along contentCheckers (Fair smallPremises) linkingTurns :=
    ⟨⟨spared_of_linked smallPremises_spelled (by decide +kernel) (by decide +kernel) (by decide +kernel) (by decide +kernel),
      by decide +kernel⟩, trivial⟩
  have hforsaking : small.Along contentCheckers (Fair smallPremises) forsakingTurns :=
    Along.imp _ (fun _ _ _ => fair_of_clear smallPremises_spelled _ _) (by decide +kernel)
  have htracked : ¬ ((⟨"/w/l/l/a.dsp"⟩ : Path) ∈ (repeated linkingTurns linked).2.workspace.tracked
      ↔ (⟨"/w/l/l/a.dsp"⟩ : Path) ∈ (repeated linkingTurns linked).1.workspace.tracked) := by decide +kernel
  have hnode : ¬ smallPremises.site.node (repeated forsakingTurns renamed).2.shared.disk ["new", "x.dsp"]
      = smallPremises.site.node (repeated forsakingTurns renamed).1.shared.disk ["new", "x.dsp"] := by decide +kernel
  exact ⟨⟨hlinking, by decide +kernel, by decide +kernel, fun hsame => htracked (hsame.tracked _)⟩,
    hforsaking, by decide +kernel, by decide +kernel, fun hsame => hnode (hsame.replica _)⟩

end Solo

end LiveWorkspace
