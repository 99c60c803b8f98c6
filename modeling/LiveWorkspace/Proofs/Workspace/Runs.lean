/-
  LiveWorkspace/Proofs/Workspace/Runs.lean
  ========================================
  **What a whole run of a workspace keeps.**

  From a new workspace on, fair turns keep the agreement of the replica with the documents,
  until a closing buries what is tracked below its path; from then on a tracked path has no
  copy (`copies_of_run_iff`).  What is compiled on the way finds the documents' texts in the
  replica, but for one kind of compilation: those that the handler of a rename issues for
  what is open below the old path (`requests_of_run`).
-/
import LiveWorkspace.Proofs.Workspace.Checkable

namespace LiveWorkspace

namespace Desk

/-- The replica has a copy of a path, with the text of its document. -/
def HasCopy (d : Desk) (q : Path) : Prop :=
  ∃ bytes doc, d.shared.disk.read (d.workspace.replicaPath q) = .ok bytes
    ∧ d.shared.store.get? q = some doc ∧ Text.Utf8.decodeLossy bytes = doc.content

instance (d : Desk) (q : Path) : Decidable (d.HasCopy q) :=
  match hread : d.shared.disk.read (d.workspace.replicaPath q), hdoc : d.shared.store.get? q with
  | .ok bytes, some doc => decidable_of_iff (Text.Utf8.decodeLossy bytes = doc.content)
      ⟨fun h => ⟨bytes, doc, hread, hdoc, h⟩, fun ⟨_, _, hread', hdoc', h⟩ => by
        rw [hread] at hread'
        rw [hdoc] at hdoc'
        cases hread'
        cases hdoc'
        exact h⟩
  | .error _, _ => .isFalse fun ⟨_, _, hread', _⟩ => by
      rw [hread] at hread'
      cases hread'
  | .ok _, none => .isFalse fun ⟨_, _, _, hdoc', _⟩ => by
      rw [hdoc] at hdoc'
      cases hdoc'

variable {m : Premises} {g : Gaps} {d : Desk} {q : Path}

theorem Agrees.hasCopy (h : Agrees m g d) (hg : g.Regular) (hq : q ∈ d.workspace.tracked) (hfresh : ¬ g.stale q) :
    d.HasCopy q := by
  have hin := h.below q hq
  obtain ⟨bytes, hfile, htext⟩ := h.copies q hq hfresh
  have hflaw := h.sound q (.inl hq) hin fun hu => hfresh (hg.untried q hu)
  obtain ⟨doc, hdoc, hcontent⟩ := Option.map_eq_some_iff.mp htext.1
  refine ⟨bytes, doc, ?_, hdoc, hcontent.symm⟩
  rw [h.replicaPath_eq q]
  exact (h.stands.read_eq_ok_iff (Premises.spells_copyOf hin) hflaw).mpr hfile

theorem Lost.not_hasCopy (h : Lost q d) : ¬ d.HasCopy q := fun ⟨bytes, _, hread, _⟩ => h.2 bytes hread

end Desk

/-- A compilation finds the text that the document has. -/
def Compilation.IsFresh (c : Compilation) : Prop :=
  ∃ bytes, c.input = some bytes ∧ Text.Utf8.decodeLossy bytes = c.text

instance (c : Compilation) : Decidable c.IsFresh :=
  decidable_of_iff (∃ bytes ∈ c.input.toList, Text.Utf8.decodeLossy bytes = c.text)
    (exists_congr fun _ => and_congr_left' Option.mem_toList)

namespace Solo

variable (checks : Checkers) {m : Premises} {s : Solo} {turn : Turn}

/-- Work of the loop. -/
def Turn.handles : Turn → Bool
  | .handleNext | .handleDisk _ | .handleWatchFailure => true
  | .call _ | .disk _ => false

/-- After work of the loop, every tracked path has its copy, unless its text is still to come. -/
def Copies (turn : Turn) (s : Solo) : Prop :=
  turn.handles = true → s.running.isAlive = true →
    ∀ q ∈ s.running.workspace.tracked, ¬ Pending s.running.queue q → s.desk.HasCopy q

instance (turn : Turn) (s : Solo) : Decidable (Copies turn s) :=
  inferInstanceAs (Decidable (turn.handles = true → s.running.isAlive = true → _))

/-! ### Copies -/

/-- A closing that buries a tracked path leaves it without a copy. -/
theorem not_copies_of_buries (h : Faithful m s) (halive : s.running.isAlive = true)
    (hfair : Fair m s turn (s.step checks turn)) (hburies : Buries s turn)
    (halive' : (s.step checks turn).running.isAlive = true) : ¬ Copies turn (s.step checks turn) := by
  obtain ⟨rfl, e, rest, hqueue, p, rfl, hin, hclosed, hpath, q, hq, hstarts, hother, hfresh⟩ := hburies
  obtain ⟨hafter, -, hend⟩ := step_handleNext checks halive hqueue
  obtain ⟨d, hrun, hd⟩ := hend halive'
  have hagrees := h.agrees
  have hinside := h.inside
  rw [hqueue] at hagrees hinside
  have hp : m.root.Encloses p := hinside (.closed p) List.mem_cons_self
  have hlost := (Desk.onEditorEvent_buries checks (t := s.desk.tally fun _ => True) hp (h.agrees.below q hq) hstarts hother fun _ => trivial).run
    (Desk.steady_tally s.desk _) ⟨⟨⟨hagrees, fun _ _ => trivial⟩, hin⟩, hclosed, hpath, hq⟩ (by
      rw [Desk.Spoilt, ← hafter, hfair.2]
      exact Nat.lt_irrefl _)
  have hlost := (hlost.2 _ d hrun).2
  intro hcopies
  have hcopy := hcopies rfl halive' q
  rw [hd] at hcopy
  exact hlost.not_hasCopy (hcopy hlost.1 hfresh)

theorem Faithful.copies (h : Faithful m s) : Copies turn s := fun _ _ _ hq hfresh =>
  h.agrees.hasCopy (waiting_regular _) hq hfresh

/-- Along a fair run all copies are kept just as long as no closing buries one. -/
theorem Faithful.copies_along_iff {turns : List Turn} (h : s.running.isAlive = true → Faithful m s)
    (hfair : s.Along checks (Fair m) turns) :
    s.Along checks (fun _ turn s' => Copies turn s') turns
      ↔ s.Along checks (fun s turn s' => s'.running.isAlive = true → ¬ Buries s turn) turns := by
  induction turns generalizing s with
  | nil => exact Iff.rfl
  | cons turn rest ih =>
    obtain ⟨hfirst, hrest⟩ := hfair
    by_cases halive' : (s.step checks turn).running.isAlive = true
    · have halive := isAlive_of_step checks halive'
      by_cases hburies : Buries s turn
      · have hlost := not_copies_of_buries checks (h halive) halive hfirst hburies halive'
        exact ⟨fun hall => absurd hall.1 hlost, fun hall => absurd hburies (hall.1 halive')⟩
      · have hnext := step_faithful checks (h halive) halive hfirst hburies halive'
        exact and_congr ⟨fun _ _ => hburies, fun _ => hnext.copies⟩ (ih (fun _ => hnext) hrest)
    · have hended : ∀ {P : Prop}, (s.step checks turn).running.isAlive = true → P := fun h => absurd h halive'
      exact and_congr ⟨fun _ => hended, fun _ _ => hended⟩ (ih hended hrest)

/-! ### Compilations -/

/-- What is compiled in a turn. -/
def issued (s : Solo) (turn : Turn) : List Compilation :=
  (s.step checks turn).shared.compiled.drop s.shared.compiled.length

/-- The handler of a rename compiles what is open below the old path after it has moved the
    copies away, and before it writes them again. -/
def Late (s : Solo) (turn : Turn) (c : Compilation) : Prop :=
  ∃ e source, turn = .handleDisk e ∧ e.kind = .created ∧ e.source = some source
    ∧ s.shared.store.isOpen e.path = false ∧ Desk.MovesCopy source e.path s.desk
    ∧ c.request.path.startsWith source = true
    ∧ c ∈ (Desk.after (Desk.renamed checks source e.path) s.desk).shared.compiled.drop s.shared.compiled.length

/-- All compilations of a turn find the documents' texts, but for the late ones. -/
def Requests (m : Premises) (s : Solo) (turn : Turn) : Prop :=
  ∀ c ∈ s.issued checks turn, m.root.Encloses c.request.path → ¬ Pending (s.left turn) c.request.path →
    (c.IsFresh ↔ ¬ Late checks s turn c)

theorem mem_issued {cs : List Compilation} {c : Compilation}
    (h : (s.step checks turn).shared.compiled = s.shared.compiled ++ cs) : c ∈ s.issued checks turn ↔ c ∈ cs := by
  rw [issued, h, List.drop_left]

/-- Where all compilations of a turn find no gap but those of what waits, none is late. -/
theorem requests_of_fresh {cs : List Compilation} (hcompiled : (s.step checks turn).shared.compiled = s.shared.compiled ++ cs)
    (hfresh : ∀ c ∈ cs, (waiting (s.left turn)).Fresh m c) (hlate : ∀ c, ¬ Late checks s turn c) :
    Requests checks m s turn := fun c hc hin hpending =>
  iff_of_true ((hfresh c ((mem_issued checks hcompiled).mp hc) hin).1 hpending) (hlate c)

/-- A turn that compiles nothing requests nothing. -/
theorem requests_of_compiled (hcompiled : (s.step checks turn).shared.compiled = s.shared.compiled) :
    Requests checks m s turn := by
  intro c hc
  rw [issued, hcompiled, List.drop_length] at hc
  exact absurd hc List.not_mem_nil

/-- A rename that moves copies compiles late what it has moved away before. -/
theorem handleDisk_requests {e : Watch.Event} {source : Path} (h : Faithful m s) (hin : Desk.Inside m e)
    (halive : s.running.isAlive = true) (hkind : e.kind = .created) (hsource : e.source = some source)
    (hclosed : s.shared.store.isOpen e.path = false) (hmoves : Desk.MovesCopy source e.path s.desk)
    (hfailures : (Desk.after (Desk.onDiskEvent checks e) s.desk).shared.failures = s.shared.failures) :
    Requests checks m s (.handleDisk e) := by
  obtain ⟨first, later, hfirst, hall, hearly, hlate, -⟩ :=
    handleDisk_moves checks h hin hkind hsource hclosed hmoves hfailures
  have hcompiled := congrArg Shared.compiled (step_handleDisk (e := e) checks halive).1
  have hfirst' : ∀ c, c ∈ (Desk.after (Desk.renamed checks source e.path) s.desk).shared.compiled.drop
      s.shared.compiled.length ↔ c ∈ first := fun c => by rw [hfirst, List.drop_left]
  intro c hc hroot hpending
  have hc' := List.mem_append.mp ((mem_issued checks (hcompiled.trans hall)).mp hc)
  by_cases hlost : c ∈ first ∧ c.request.path.startsWith source = true
  · -- The copies at and below the old path have been moved away.
    have hmissing := (hearly c hlost.1 hroot).2 ((Premises.names_prefix_iff (hin.2 source hsource) hroot).mpr hlost.2)
    refine iff_of_false ?_ (not_not_intro ⟨e, source, rfl, hkind, hsource, hclosed, hmoves, hlost.2,
      (hfirst' c).mpr hlost.1⟩)
    rintro ⟨bytes, hinput, -⟩
    rw [hmissing] at hinput
    cases hinput
  · refine iff_of_true ?_ ?_
    · rcases hc' with hc' | hc'
      · refine (hearly c hc' hroot).1 fun hs => hs.elim hpending fun hstarts => hlost ⟨hc', hstarts⟩
      · exact (hlate c hc' hroot).1 hpending
    · rintro ⟨e', source', hturn, -, hsource', -, -, hstarts, hmem⟩
      cases hturn
      rw [hsource] at hsource'
      cases hsource'
      exact hlost ⟨(hfirst' c).mp hmem, hstarts⟩

/-- **In a fair turn every compilation finds the text of its document in the replica, unless
    it is late.** -/
theorem step_requests (h : s.running.isAlive = true → Faithful m s) (hfair : Fair m s turn (s.step checks turn))
    (hspares : ¬ Buries s turn) : Requests checks m s turn := by
  obtain ⟨habides, hfailures⟩ := hfair
  cases halive : s.running.isAlive with
  | false => exact requests_of_compiled checks (step_of_ended checks halive).2
  | true =>
    have hfaithful := h halive
    cases turn with
    | call c => exact requests_of_compiled checks (s.afterCall_eq c).1
    | disk d => exact requests_of_compiled checks rfl
    | handleWatchFailure =>
      refine requests_of_compiled checks ?_
      rw [step, Running.handleWatchFailure, if_pos halive]
      rfl
    | handleNext =>
      cases hqueue : s.running.queue with
      | nil =>
        refine requests_of_compiled checks ?_
        rw [step, Running.handleNext, halive, hqueue]
        rfl
      | cons e rest =>
        obtain ⟨hafter, hcompiled, -⟩ := step_handleNext checks halive hqueue
        obtain ⟨⟨cs, hcs, hfresh⟩, -⟩ := handleNext_does checks hfaithful hqueue (hafter ▸ hfailures) fun hb =>
          hspares ⟨rfl, e, rest, hqueue, hb⟩
        refine requests_of_fresh checks (hcompiled.trans hcs) ?_ fun c hlate => ?_
        · rw [left, hqueue]
          exact hfresh
        · obtain ⟨e', source, hturn, -⟩ := hlate
          cases hturn
    | handleDisk e =>
      obtain ⟨hafter, -⟩ := step_handleDisk (e := e) checks halive
      rw [hafter] at hfailures
      by_cases hmoves : Desk.MovesNext e s.desk
      · obtain ⟨source, hkind, hsource, hclosed, hcopy⟩ := hmoves
        exact handleDisk_requests checks hfaithful habides halive hkind hsource hclosed hcopy hfailures
      · obtain ⟨⟨cs, hcs, hfresh⟩, -⟩ := handleDisk_does checks hfaithful habides hfailures hmoves
        refine requests_of_fresh checks ((congrArg Shared.compiled hafter).trans hcs) hfresh fun c hlate => ?_
        obtain ⟨e', source, hturn, hkind, hsource, hclosed, hcopy, -⟩ := hlate
        cases hturn
        exact hmoves ⟨source, hkind, hsource, hclosed, hcopy⟩

/-- Along a fair run in which no closing buries anything, only late compilations miss their text. -/
theorem Faithful.requests_along {turns : List Turn} (h : s.running.isAlive = true → Faithful m s)
    (hfair : s.Along checks (Fair m) turns) (hspares : s.Along checks (fun s turn _ => ¬ Buries s turn) turns) :
    s.Along checks (fun s turn _ => Requests checks m s turn) turns := by
  induction turns generalizing s with
  | nil => trivial
  | cons turn rest ih =>
    refine ⟨step_requests checks h hfair.1 hspares.1, ih (fun halive' => ?_) hfair.2 hspares.2⟩
    have halive := isAlive_of_step checks halive'
    exact step_faithful checks (h halive) halive hfair.1 hspares.1 halive'

/-! ### From the opening on -/

/-- A workspace that has just been opened. -/
def opened (root replicaRoot : Path) (s : Shared) : Option Solo :=
  match Workspace.create checks root replicaRoot s with
  | .ok (.ok w) s' => some ⟨{ workspace := w }, s'⟩
  | _ => none

/-- A run begins when a workspace is opened, at the root and with the replica of the
    premises, and nothing fails. -/
structure Begins (m : Premises) (root replicaRoot : Path) (s : Shared) (start : Solo) : Prop where
  ground : Ground m s
  resolved : s.disk.canonicalize root = .ok m.root
  placed : Replica.ofWorkspace replicaRoot m.root = ⟨m.site.dir⟩
  opened : opened checks root replicaRoot s = some start
  unfailing : start.shared.failures = s.failures

variable {root replicaRoot : Path} {s : Shared} {start : Solo} {turns : List Turn}

theorem create_of_opened (h : opened checks root replicaRoot s = some start) :
    ∃ w, start.running = { workspace := w }
      ∧ Workspace.create checks root replicaRoot s = .ok (.ok w) start.shared := by
  rw [opened] at h
  split at h
  · rename_i w s' hcreate
    cases h
    exact ⟨w, rfl, hcreate⟩
  · cases h

/-- A new workspace agrees with its replica, and what was compiled at its opening found the
    documents' texts. -/
theorem Begins.faithful (h : Begins checks m root replicaRoot s start) :
    Faithful m start
      ∧ ∃ cs, start.shared.compiled = s.compiled ++ cs ∧ ∀ c ∈ cs, (waiting []).Fresh m c := by
  obtain ⟨w, hrunning, hcreate⟩ := create_of_opened checks h.opened
  obtain ⟨hagrees, hissued⟩ := Workspace.create_agrees checks h.ground h.resolved h.placed hcreate h.unfailing
  have hdesk : start.desk = ⟨start.shared, w⟩ := by rw [desk, hrunning]
  have hqueue : start.running.queue = [] := by rw [hrunning]
  refine ⟨⟨?_, ?_, fun e he => ?_⟩, hissued⟩
  · rw [hdesk, hqueue]
    exact hagrees
  · rw [hqueue]
    trivial
  · rw [hqueue] at he
    exact absurd he List.not_mem_nil

/-- A small project: its directory holds one program, and its replica is in another one. -/
def smallDisk : Disk :=
  ((Disk.blank.insert [.text "w"] (.directory 0o755)).insert [.text "r"] (.directory 0o700)).insert
    [.text "w", .text "a.dsp"] (.file (Text.Utf8.encode "old") 0o644)

def smallPremises : Premises where
  root := ⟨"/w"⟩
  site := ⟨⟨"/r"⟩, [.text "r"], "w"⟩
  rooted := by decide +kernel
  spelled := Site.spells_dir (by decide +kernel) (by decide +kernel)

/-- Checkers that find nothing. -/
def contentCheckers : Checkers := ⟨fun _ _ => some [], fun _ _ => []⟩

/-- The small project just after its opening. -/
def small : Solo :=
  (opened contentCheckers ⟨"/w"⟩ ⟨"/r"⟩ { disk := smallDisk }).get (by decide +kernel)

theorem smallPremises_spelled : smallPremises.Spelled ["w"] ["r"] where
  root := by decide +kernel
  parent := by decide +kernel
  base := rfl
  proper := by decide +kernel
  reached := by decide
  sound := by decide +kernel
  aside := by decide +kernel

theorem small_begins : Begins contentCheckers smallPremises ⟨"/w"⟩ ⟨"/r"⟩ { disk := smallDisk } small where
  ground := smallPremises_spelled.ground (by decide +kernel) (by decide +kernel) (by decide +kernel) fun p hp => by
    cases hp
  resolved := eq_ok_of_toOption (by decide +kernel)
  placed := by decide +kernel
  opened := (Option.some_get _).symm
  unfailing := by decide +kernel

/-- Some turns one after the other. -/
def run (s : Solo) (turns : List Turn) : Solo := turns.foldl (step checks) s

/-- Others put a directory in the place of a file that an editor has had open, and the path
    is opened and closed once more before the first closing is handled. -/
def buryingTurns : List Turn :=
  let d : Path := ⟨"/w/d"⟩
  let early : List Turn := [.call (.didOpen d "t"), .handleNext, .handleNext, .call (.didClose d), .handleDisk (.removed d)]
  let disk := (small.run contentCheckers early).shared.disk
  let filled := (disk.insert [.text "w", .text "d"] (.directory 0o755)).insert
    [.text "w", .text "d", .text "x.dsp"] (.file (Text.Utf8.encode "x") 0o644)
  let late : List Turn := [.disk filled, .handleDisk (.created ⟨"/w/d/x.dsp"⟩), .call (.didOpen d "u"), .call (.didClose d)]
  let disk := (small.run contentCheckers (early ++ late)).shared.disk
  early ++ late ++ [.disk (disk.erase [.text "w", .text "d"]), .handleNext]

/-- **Copies.**  From the opening of a workspace on, every tracked path has a copy with the
    text of its document after all work of the loop, unless its text is still to come: just as
    long as no closing buries what is tracked below its path. -/
theorem copies_of_run_iff (h : Begins checks m root replicaRoot s start)
    (hfair : start.Along checks (Fair m) turns) :
    start.Along checks (fun _ turn s' => Copies turn s') turns
      ↔ start.Along checks (fun s turn s' => s'.running.isAlive = true → ¬ Buries s turn) turns :=
  Faithful.copies_along_iff checks (fun _ => (h.faithful checks).1) hfair

/-- Up to the last turn all copies are kept. -/
theorem copies_before_burying :
    small.Along contentCheckers (fun _ turn s' => Copies turn s') buryingTurns.dropLast := by
  have hfair : small.Along contentCheckers (Fair smallPremises) buryingTurns.dropLast :=
    Along.imp _ (fun _ _ _ => fair_of_clear smallPremises_spelled _ _) (by decide +kernel)
  exact (copies_of_run_iff contentCheckers small_begins hfair).mpr (by decide +kernel)

/-- The last turn loses a copy, although nothing failed. -/
theorem copies_lost_by_burying :
    small.Along contentCheckers (Fair smallPremises) buryingTurns
      ∧ ¬ small.Along contentCheckers (fun _ turn s' => Copies turn s') buryingTurns :=
  ⟨Along.imp _ (fun _ _ _ => fair_of_clear smallPremises_spelled _ _) (by decide +kernel), by decide +kernel⟩

/-- **Compilations.**  From the opening of a workspace on, and as long as no closing buries
    anything, every compilation of a path in the workspace whose text is not still to come
    finds the text of its document in the replica, unless it is late. -/
theorem requests_of_run (h : Begins checks m root replicaRoot s start)
    (hfair : start.Along checks (Fair m) turns)
    (hspares : start.Along checks (fun s turn _ => ¬ Buries s turn) turns) :
    (∀ c ∈ start.shared.compiled.drop s.compiled.length, m.root.Encloses c.request.path → c.IsFresh)
      ∧ start.Along checks (fun s turn _ => Requests checks m s turn) turns := by
  obtain ⟨hfaithful, cs, hcompiled, hfresh⟩ := h.faithful checks
  refine ⟨fun c hc hin => ?_, Faithful.requests_along checks (fun _ => hfaithful) hfair hspares⟩
  rw [hcompiled, List.drop_left] at hc
  exact (hfresh c hc hin).1 fun hpending => by
    obtain ⟨e, he, -⟩ := hpending
    exact absurd he List.not_mem_nil

/-- A program that an editor has open gets another name on the disk. -/
def renamingTurns : List Turn :=
  let early : List Turn := [.call (.didOpen ⟨"/w/a.dsp"⟩ "new"), .handleNext, .handleNext]
  let disk := (small.run contentCheckers early).shared.disk
  early ++ [.disk (disk.move [.text "w", .text "a.dsp"] [.text "w", .text "b.lib"]),
    .handleDisk (.renamed ⟨"/w/a.dsp"⟩ ⟨"/w/b.lib"⟩)]

/-- While the program gets its name, only late compilations miss a text. -/
theorem requests_while_renaming :
    small.Along contentCheckers (fun s turn _ => Requests contentCheckers smallPremises s turn) renamingTurns := by
  have hfair : small.Along contentCheckers (Fair smallPremises) renamingTurns :=
    Along.imp _ (fun _ _ _ => fair_of_clear smallPremises_spelled _ _) (by decide +kernel)
  exact (requests_of_run contentCheckers small_begins hfair (by decide +kernel)).2

/-- The last turn compiles the program when its copy is gone, although nothing failed. -/
theorem request_missed_by_renaming :
    small.Along contentCheckers (Fair smallPremises) renamingTurns
      ∧ ¬ small.Along contentCheckers (fun s turn _ => ∀ c ∈ s.issued contentCheckers turn,
        smallPremises.root.Encloses c.request.path → ¬ Pending (s.left turn) c.request.path → c.IsFresh) renamingTurns :=
  ⟨Along.imp _ (fun _ _ _ => fair_of_clear smallPremises_spelled _ _) (by decide +kernel), by decide +kernel⟩

end Solo

end LiveWorkspace
