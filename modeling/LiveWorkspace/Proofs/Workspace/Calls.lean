/-
  LiveWorkspace/Proofs/Workspace/Calls.lean
  =========================================
  **What a call of the editor does to the store.**

  A call enters the document of its path if it is an opening that finds none, revises it,
  and hands its events on; where there is no document to revise it hands nothing on.  All
  that is known of calls follows from this (`act_ends`): what its revisions keep, and the
  entry of a document, holds when the call has ended in one of these two ways (`Ends`).
-/
import LiveWorkspace.Proofs.Workspace.Keeping
import LiveWorkspace.Session.Documents

namespace LiveWorkspace

/-- A call of an editor about one document. -/
inductive Call where
  | didOpen (p : Path) (text : String)
  | didChange (p : Path) (changes : List TextChange)
  | didClose (p : Path)

namespace Call

def path : Call → Path
  | .didOpen p _ | .didChange p _ | .didClose p => p

/-- Apply changes in their order until one fails. -/
def applyChanges (p : Path) : List TextChange → Act Shared (Except StoreError Unit)
  | [] => return .ok ()
  | c :: rest => do
    match ← Shared.revise p c.revision with
    | .error err => return .error err
    | .ok _ => applyChanges p rest

/-- What a call does to the store, and the events that it hands on. One that fails hands
    nothing on. -/
def act (w : Workspace) : Call → Act Shared (List EditorEvent)
  | .didOpen p text => do
    let isNew ← Shared.openPath p w.root true none (w.replicaPath p)
    if !isNew then
      match ← Shared.revise p .reopen with
      | .error _ => return []
      | .ok _ => pure ()
    match ← Shared.revise p (.replace text) with
    | .error _ => return []
    | .ok _ => return [.opened p, .changed p]
  | .didChange p changes => do
    match ← applyChanges p changes with
    | .error _ => return []
    | .ok _ => return [.changed p]
  | .didClose p => do
    match ← Shared.revise p .close with
    | .error _ => return []
    | .ok _ => return [.closed p]

/-- The revisions of a call. An opening that enters the document does not reopen it. -/
def revisions : Call → List Revision
  | .didOpen _ text => [.reopen, .replace text]
  | .didChange _ changes => changes.map (·.revision)
  | .didClose _ => [.close]

/-- The events of a call that does not fail. -/
def events : Call → List EditorEvent
  | .didOpen p _ => [.opened p, .changed p]
  | .didChange p _ => [.changed p]
  | .didClose p => [.closed p]

variable {w : Workspace} {c : Call} {p : Path} {s : Shared} {T : Shared → Prop}

theorem path_of_mem_events {e : EditorEvent} (h : e ∈ c.events) : e.path = c.path := by
  cases c <;> simp only [events, List.mem_cons, List.not_mem_nil, or_false] at h
  case didOpen => rcases h with rfl | rfl <;> rfl
  all_goals rw [h]; rfl

/-- Only openings hand on openings. -/
theorem eq_didOpen_of_mem_events {q : Path} (h : .opened q ∈ c.events) : ∃ text, c = .didOpen c.path text := by
  cases c with
  | didOpen p text => exact ⟨text, rfl⟩
  | didChange p changes => simp [events] at h
  | didClose p => simp [events] at h

/-! ### How a call ends -/

/-- The two ways in which a call ends: nothing was there to revise, or its events are handed
    on. A list of no changes revises nothing, and is handed on all the same. -/
inductive Ends (c : Call) : List EditorEvent → Shared → Prop
  | missed {s : Shared} (hnew : ∀ text, c ≠ .didOpen c.path text) (hout : s.store.contains c.path = false) :
      Ends c [] s
  | served {s : Shared} (hin : c ≠ .didChange c.path [] → s.store.contains c.path = true)
      (hclosed : c = .didClose c.path → s.store.isOpen c.path = false) : Ends c c.events s

theorem Ends.path_eq {es : List EditorEvent} (h : c.Ends es s) : ∀ e ∈ es, e.path = c.path := by
  intro e he
  cases h with
  | missed => exact absurd he List.not_mem_nil
  | served => exact path_of_mem_events he

theorem contains_of_revised {r : Revision} {old store : Store} (h : old.revise? p r = .ok store) :
    store.contains p = true := (Store.contains_revise? h p).trans (Store.contains_of_revise? h)

/-- A revision either succeeds, or finds no document and leaves a report only. -/
theorem revise_either {α : Type} {r : Revision} {yes : Act Shared α} {no : StoreError → Act Shared α}
    {Q : α → Shared → Prop} {E : Crash → Shared → Prop} (hrevise : Preserves T (Shared.revise p r)) (hs : T s)
    (hok : ∀ store, s.store.revise? p r = .ok store → T { s with store := store } →
      wp yes Q E { s with store := store })
    (herror : s.store.contains p = false → ∀ reports, T { s with reports := reports } →
      wp (no (.untracked p)) Q E { s with reports := reports }) :
    wp (do
      match ← Shared.revise p r with
      | .error err => no err
      | .ok _ => yes) Q E s := by
  obtain ⟨hyes, hno⟩ := (Shared.wp_revise p r).mp (hrevise s hs)
  rw [wp_bind, Shared.wp_revise]
  exact ⟨fun store hstore => hok store hstore (hyes store hstore), fun hout => herror hout _ (hno hout)⟩

theorem applyChanges_ends {changes : List TextChange}
    (hrevise : ∀ c ∈ changes, Preserves T (Shared.revise p c.revision)) (hs : T s) :
    wp (applyChanges p changes)
      (fun outcome s' => T s' ∧ match outcome with
        | .ok _ => s.store.contains p = true ∨ changes ≠ [] → s'.store.contains p = true
        | .error _ => s'.store.contains p = false) (fun _ _ => False) s := by
  induction changes generalizing s with
  | nil => exact (wp_pure _).mpr ⟨hs, fun hin => hin.resolve_right fun hne => hne rfl⟩
  | cons c rest ih =>
    rw [applyChanges]
    refine revise_either (hrevise c List.mem_cons_self) hs (fun store hstore hs' => ?_) fun hout _ hs' => ?_
    · refine wp_imp (ih (fun x hx => hrevise x (List.mem_cons_of_mem c hx)) hs') (fun outcome s' h => ?_) fun _ _ hf => hf
      cases outcome with
      | error err => exact h
      | ok _ => exact ⟨h.1, fun _ => h.2 (.inl (contains_of_revised hstore))⟩
    · exact (wp_pure _).mpr ⟨hs', hout⟩

/-- The end of an opening whose document is there. -/
theorem replaceText_ends {text : String} (hrevise : Preserves T (Shared.revise p (.replace text))) (hs : T s)
    (hin : s.store.contains p = true) :
    wp (do
      match ← Shared.revise p (.replace text) with
      | .error _ => return []
      | .ok _ => return [EditorEvent.opened p, .changed p])
      (fun es s' => T s' ∧ (didOpen p text).Ends es s') (fun _ _ => False) s := by
  refine revise_either hrevise hs (fun store hstore hs' => ?_) fun hout => ?_
  · refine (wp_pure _).mpr ⟨hs', .served (fun _ => contains_of_revised hstore) fun hclose => ?_⟩
    cases hclose
  · simp [hin] at hout

/-- **What the revisions of a call keep holds when it has ended**, if an opening establishes it as
    well. No checker is asked in a call, so that it ends. -/
theorem act_ends (hrevise : ∀ r ∈ c.revisions, Preserves T (Shared.revise c.path r))
    (hopen : ∀ text, c = .didOpen c.path text → s.store.contains c.path = false →
      T { s.afterRead c.path with
        store := s.store.insert (s.entered c.path w.root true none (w.replicaPath c.path)) }) (hs : T s) :
    wp (c.act w) (fun es s' => T s' ∧ c.Ends es s') (fun _ _ => False) s := by
  cases c with
  | didOpen p text =>
    have hreplace := hrevise (.replace text) (List.mem_cons_of_mem _ List.mem_cons_self)
    rw [act, wp_bind, Shared.wp_openPath]
    constructor
    · intro hin
      refine revise_either (hrevise .reopen List.mem_cons_self) hs (fun store hstore hs' => ?_) fun hout => ?_
      · exact replaceText_ends hreplace hs' (contains_of_revised hstore)
      · simp [hin] at hout
    · intro hnew
      have hout : s.store.contains (s.entered p w.root true none (w.replicaPath p)).path = false := hnew
      refine replaceText_ends hreplace (hopen text rfl hnew) ?_
      exact (Store.contains_insert_eq hout p).trans (by simp [Shared.entered, Path.same_refl])
  | didChange p changes =>
    rw [act, wp_bind]
    refine wp_imp (applyChanges_ends (fun x hx => hrevise _ (List.mem_map_of_mem hx)) hs) (fun outcome s' h => ?_)
      fun _ _ hf => hf
    cases outcome with
    | error err => exact (wp_pure _).mpr ⟨h.1, .missed (fun _ heq => by cases heq) h.2⟩
    | ok _ =>
      refine (wp_pure _).mpr ⟨h.1, .served (fun hsome => h.2 (.inr fun hnone => hsome (hnone ▸ rfl))) fun heq => ?_⟩
      cases heq
  | didClose p =>
    rw [act]
    refine revise_either (hrevise .close List.mem_cons_self) hs (fun store hstore hs' => ?_) fun hout reports hs' => ?_
    · refine (wp_pure _).mpr ⟨hs', .served (fun _ => contains_of_revised hstore) fun _ => ?_⟩
      show store.isOpen p = false
      rw [Store.isOpen, Store.get?_of_revise? hstore, if_pos (Path.same_refl p)]
      cases s.store.get? p <;> rfl
    · exact (wp_pure _).mpr ⟨hs', .missed (fun _ heq => by cases heq) hout⟩

theorem act_paths (c : Call) (s : Shared) :
    wp (c.act w) (fun es _ => ∀ e ∈ es, e.path = c.path) (fun _ _ => False) s :=
  wp_imp (act_ends (T := fun _ => True) (fun _ _ _ _ => wp_true _ _) (fun _ _ _ => trivial) trivial)
    (fun _ _ h => h.2.path_eq) fun _ _ hf => hf

/-- A call keeps what revisions and openings of documents keep. -/
theorem act_preserves (hrevise : ∀ p r, Preserves T (Shared.revise p r))
    (hopen : ∀ p root replica, Preserves T (Shared.openPath p root true none replica)) (c : Call) :
    Preserves T (c.act w) := fun s hs =>
  wp_imp (act_ends (fun _ _ => hrevise _ _)
      (fun _ _ hnew => ((Shared.wp_openPath _ _ _ _ _).mp (hopen c.path w.root (w.replicaPath c.path) s hs)).2 hnew) hs)
    (fun _ _ h => h.1) fun _ _ hf => hf.elim

theorem compiled_calm (cs : List Compilation) : Shared.Calm (·.compiled = cs) :=
  ⟨fun _ _ h => h, fun _ _ h => h, fun _ _ _ _ h _ => h⟩

/-- A call compiles nothing. -/
theorem act_compiled (c : Call) (cs : List Compilation) : Preserves (·.compiled = cs) (c.act w) := by
  refine act_preserves (fun p r => (compiled_calm cs).revise_keeps fun _ _ h _ => h) (fun p root replica s hs => ?_) c
  rw [Shared.wp_openPath]
  exact ⟨fun _ => hs, fun _ => (Shared.afterRead_compiled s p).trans hs⟩

end Call

end LiveWorkspace
