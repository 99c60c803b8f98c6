/-
  LiveWorkspace/Proofs/Workspace/LettingGo.lean
  =============================================
  **What letting go of a path leaves.**

  Letting go cannot fail, and what it leaves can be said outright: the tracked paths at and
  below the path that are not open lose their place and their documents, and the path's own
  document goes if it is not open (`Desk.untracked`).
-/
import LiveWorkspace.Proofs.Workspace.Keeping

namespace LiveWorkspace

/-! ### Which paths have documents -/

namespace Store

theorem get?_foldl_erase (ps : List Path) (s : Store) (q : Path) :
    (ps.foldl erase s).get? q = if ps.any (·.same q) then none else s.get? q := by
  induction ps generalizing s with
  | nil => rfl
  | cons p rest ih =>
    rw [List.foldl_cons, ih, List.any_cons]
    cases hsame : p.same q with
    | false => rw [get?_erase_of_not_same s hsame, Bool.false_or]
    | true => rw [← get?_congr _ hsame, get?_erase_self, Bool.true_or, ite_self, if_pos rfl]

/-- Dropping what is not open leaves all paths open that were. -/
theorem isOpen_foldl_erase {ps : List Path} {s : Store} (h : ∀ p ∈ ps, s.isOpen p = false) (q : Path) :
    (ps.foldl erase s).isOpen q = s.isOpen q := by
  induction ps generalizing s with
  | nil => rfl
  | cons p rest ih =>
    have hp := h p List.mem_cons_self
    rw [List.foldl_cons, ih fun r hr => (isOpen_erase hp r).trans (h r (List.mem_cons_of_mem _ hr)), isOpen_erase hp]

/-- The documents that are dropped with some paths, one after the other. -/
def droppedWith (s : Store) : List Path → List Document
  | [] => []
  | p :: rest => (s.get? p).toList ++ (s.erase p).droppedWith rest

end Store

theorem Workspace.tracks_foldl_release (ps : List Path) (w : Workspace) (q : Path) :
    (ps.foldl release w).tracks q = (w.tracks q && !ps.any (·.same q)) := by
  induction ps generalizing w with
  | nil => simp
  | cons p rest ih => simp [ih, tracks_release, Bool.and_assoc]

theorem Workspace.root_foldl_release (ps : List Path) (w : Workspace) : (ps.foldl release w).root = w.root := by
  induction ps generalizing w with
  | nil => rfl
  | cons p rest ih => exact ih (w.release p)

theorem Workspace.replica_foldl_release (ps : List Path) (w : Workspace) :
    (ps.foldl release w).replica = w.replica := by
  induction ps generalizing w with
  | nil => rfl
  | cons p rest ih => exact ih (w.release p)

theorem Workspace.mem_foldl_release {ps : List Path} {w : Workspace} {q : Path} (h : q ∈ (ps.foldl release w).tracked) :
    q ∈ w.tracked := by
  induction ps generalizing w with
  | nil => exact h
  | cons p rest ih => exact (List.mem_filter.mp (ih h)).1

namespace Desk

/-! ### What letting go does -/

section LettingGo

variable {d : Desk} {p : Path} {E : Crash → Desk → Prop} {Q : List Document → Desk → Prop}

theorem wp_releases {Q : PUnit → Desk → Prop} (ps : List Path)
    (h : Q ⟨⟩ { d with workspace := ps.foldl Workspace.release d.workspace }) : wp (ps.forM release) Q E d := by
  refine wp_imp (wp_forM (fun done d' => d' = { d with workspace := done.foldl Workspace.release d.workspace }) rfl ?_)
    (fun _ d' hd' => hd' ▸ h) fun _ _ he => he
  rintro done q rest d' - rfl
  simp [release, wp_modify]

theorem wp_dropDocuments (ps : List Path)
    (h : Q (d.shared.store.droppedWith ps) (d.withStore (ps.foldl Store.erase d.shared.store))) :
    wp (dropDocuments ps) Q E d := by
  suffices hmap : ∀ (ps : List Path) (d : Desk) (R : List (Option Document) → Desk → Prop),
      (∀ found, found.filterMap id = d.shared.store.droppedWith ps →
        R found (d.withStore (ps.foldl Store.erase d.shared.store))) →
      wp (ps.mapM fun p => (Shared.dropDocument p : Act Shared (Option Document)) : Act Desk _) R E d by
    rw [dropDocuments, wp_bind]
    apply hmap
    intro found hfound
    rw [wp_pure, hfound]
    exact h
  intro ps
  induction ps with
  | nil =>
    intro d R hR
    exact (wp_pure _).mpr (hR [] rfl)
  | cons p rest ih =>
    intro d R hR
    rw [List.mapM_cons, wp_bind, wp_onShared, Shared.wp_dropDocument, wp_bind]
    apply ih
    intro found hfound
    apply (wp_pure _).mpr
    apply hR
    cases hdoc : d.shared.store.get? p <;> simpa [Store.droppedWith, hdoc] using hfound

/-- The tracked paths that are let go with a path: those at and below it that are not open. -/
def gone (p : Path) (d : Desk) : List Path :=
  d.workspace.files.filter fun q => q.startsWith p && !d.shared.store.isOpen q

/-- The desk after a path was let go, whose own document goes as well if it is not open. -/
def untracked (p : Path) (d : Desk) : Desk :=
  let store := (d.gone p).foldl Store.erase d.shared.store
  { d with workspace := (d.gone p).foldl Workspace.release d.workspace }.withStore
    (if d.shared.store.isOpen p then store else store.erase p)

theorem mem_gone {q : Path} :
    q ∈ d.gone p ↔ q ∈ d.workspace.tracked ∧ q.startsWith p = true ∧ d.shared.store.isOpen q = false := by
  simp [gone, Workspace.files, Path.mem_sort]

/-- Letting go of a path erases what is taken, and the path itself unless it is open. -/
theorem get?_untracked (d : Desk) (p q : Path) : (d.untracked p).shared.store.get? q
    = if (d.gone p).any (·.same q) || !d.shared.store.isOpen p && p.same q then none else d.shared.store.get? q := by
  show (if d.shared.store.isOpen p then _ else _ : Store).get? q = _
  cases hopen : d.shared.store.isOpen p with
  | true => simp [Store.get?_foldl_erase]
  | false =>
    rw [if_neg Bool.false_ne_true]
    cases hsame : p.same q with
    | false => simp [Store.get?_erase_of_not_same _ hsame, Store.get?_foldl_erase]
    | true => simp [← Store.get?_congr _ hsame, Store.get?_erase_self]

/-- What has a document afterwards had the same one before. -/
theorem get?_of_untracked {q : Path} {doc : Document} (h : (d.untracked p).shared.store.get? q = some doc) :
    d.shared.store.get? q = some doc := by
  rw [get?_untracked] at h
  split at h
  · cases h
  · exact h

theorem isOpen_untracked (d : Desk) (p q : Path) :
    (d.untracked p).shared.store.isOpen q = d.shared.store.isOpen q := by
  have hbelow : ∀ q, ((d.gone p).foldl Store.erase d.shared.store).isOpen q = d.shared.store.isOpen q :=
    Store.isOpen_foldl_erase fun r hr => (mem_gone.mp hr).2.2
  show (if d.shared.store.isOpen p then _ else _ : Store).isOpen q = _
  cases hopen : d.shared.store.isOpen p with
  | true => exact hbelow q
  | false => exact (Store.isOpen_erase ((hbelow p).trans hopen) q).trans (hbelow q)

/-- What is dropped when a path is let go. -/
def droppedAt (p : Path) (d : Desk) : List Document :=
  d.shared.store.droppedWith (d.gone p) ++
    if d.shared.store.isOpen p then [] else ((d.gone p).foldl Store.erase d.shared.store).droppedWith [p]

theorem wp_untrack (h : Q (d.droppedAt p) (d.untracked p)) : wp (untrack p) Q E d := by
  have hopen : ((d.gone p).foldl Store.erase d.shared.store).isOpen p = d.shared.store.isOpen p :=
    Store.isOpen_foldl_erase (fun q hq => (mem_gone.mp hq).2.2) p
  rw [untrack, wp_bind, wp_get, wp_bind]
  apply wp_releases
  rw [wp_bind]
  apply wp_dropDocuments
  rw [wp_bind, wp_get]
  simp only [withStore]
  change wp (if ((d.gone p).foldl Store.erase d.shared.store).isOpen p then _ else _) Q E _
  rw [hopen]
  cases hp : d.shared.store.isOpen p with
  | true =>
    simp only [if_true, wp_bind, wp_pure]
    simpa [droppedAt, untracked, gone, withStore, hp] using h
  | false =>
    simp only [Bool.false_eq_true, if_false, wp_bind]
    apply wp_dropDocuments
    rw [wp_pure]
    simpa [droppedAt, untracked, gone, withStore, hp] using h

end LettingGo

end Desk

end LiveWorkspace
