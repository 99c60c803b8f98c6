/-
  LiveWorkspace/Proofs/Workspace/Ledgers.lean
  ===========================================
  **What is done to the documents and the tracked paths need not be done twice.**

  An event of the disk lets a path go, takes files up, and has them checked (`Errand`).  What
  comes of it for a path depends on the path's own document only, and on whether it is tracked
  (`Errand.after`).  So it can be seen path by path that nothing is left to do the second time
  (`Errand.after_after`), also when all documents have been looked at again in between
  (`Errand.after_reviewed`).
-/
import LiveWorkspace.Proofs.Path.Order
import LiveWorkspace.Proofs.Workspace.Accounts

namespace LiveWorkspace

/-! ### Documents -/

namespace Document

variable {checks : Checkers} {doc : Document} {text : String}

/-- A document whose file has been read again. What is open keeps its text. -/
def reread (text : String) (doc : Document) : Document := if doc.isOpen then doc else { doc with content := text }

/-- A document whose text has been checked under a path. -/
def judged (checks : Checkers) (p : Path) (doc : Document) : Document :=
  { doc with hasErrors := if doc.kind.isFaust then (checks.check p doc.content).any (!·.isEmpty) else doc.hasErrors }

@[simp] theorem isOpen_judged (checks : Checkers) (p : Path) (doc : Document) :
    (doc.judged checks p).isOpen = doc.isOpen := rfl

@[simp] theorem content_judged (checks : Checkers) (p : Path) (doc : Document) :
    (doc.judged checks p).content = doc.content := rfl

@[simp] theorem kind_judged (checks : Checkers) (p : Path) (doc : Document) : (doc.judged checks p).kind = doc.kind := rfl

@[simp] theorem isOpen_reread (text : String) (doc : Document) : (doc.reread text).isOpen = doc.isOpen := by
  unfold reread
  split <;> rfl

/-- Only the last check counts. -/
@[simp] theorem judged_judged (checks : Checkers) (p q : Path) (doc : Document) :
    (doc.judged checks p).judged checks q = doc.judged checks q := by
  rw [judged, kind_judged, content_judged]
  cases hkind : doc.kind.isFaust <;> simp [judged, hkind]

/-- What is open, or has the text already, does not change when it is read again. -/
theorem reread_eq (h : doc.isOpen = false → doc.content = text) : doc.reread text = doc := by
  unfold reread
  split
  · rfl
  · rename_i hclosed
    rw [← h (by simpa using hclosed)]

theorem content_reread (h : doc.isOpen = false) : (doc.reread text).content = text := by
  rw [reread, h, if_neg Bool.false_ne_true]

end Document

/-! ### Ledgers -/

/-- The document of each path, and which paths are tracked as they are spelled. -/
@[ext] structure Ledger where
  documents : Path → Option Document
  places : Path → Prop

namespace Ledger

variable {l : Ledger} {p q : Path}

/-- Whether an editor has a path open. -/
def opens (l : Ledger) (p : Path) : Bool := (l.documents p).any (·.isOpen)

/-- Whether a path goes when another one is let go. -/
def drops (l : Ledger) (p q : Path) : Bool := q.startsWith p && !l.opens q

/-- A path is let go with all below it, but for what is open. -/
def letGo (l : Ledger) (p : Path) : Ledger where
  documents q := if l.drops p q then none else l.documents q
  places q := l.places q ∧ l.drops p q = false

/-- What becomes of the document of a path when the paths of a list are checked. -/
def review (checks : Checkers) (ps : List Path) (q : Path) : Document → Document :=
  match ps.find? (·.same q) with
  | none => id
  | some p => Document.judged checks p

/-- The documents of some paths have been checked. -/
def reviewed (checks : Checkers) (l : Ledger) (ps : List Path) : Ledger where
  documents q := (l.documents q).map (review checks ps q)
  places := l.places

theorem review_cases (checks : Checkers) (ps : List Path) (q : Path) :
    review checks ps q = id ∨ ∃ p, review checks ps q = Document.judged checks p := by
  unfold review
  split
  · exact .inl rfl
  · exact .inr ⟨_, rfl⟩

@[simp] theorem isOpen_review (checks : Checkers) (ps : List Path) (q : Path) (doc : Document) :
    (review checks ps q doc).isOpen = doc.isOpen := by
  rcases review_cases checks ps q with h | ⟨p, h⟩ <;> rw [h] <;> rfl

@[simp] theorem content_review (checks : Checkers) (ps : List Path) (q : Path) (doc : Document) :
    (review checks ps q doc).content = doc.content := by
  rcases review_cases checks ps q with h | ⟨p, h⟩ <;> rw [h] <;> rfl

@[simp] theorem opens_letGo (l : Ledger) (p q : Path) : (l.letGo p).opens q = l.opens q := by
  show (if l.drops p q then none else l.documents q).any (·.isOpen) = l.opens q
  cases hdrops : l.drops p q with
  | false => rfl
  | true =>
    rw [drops, Bool.and_eq_true, Bool.not_eq_true'] at hdrops
    rw [hdrops.2]
    rfl

@[simp] theorem opens_reviewed (checks : Checkers) (l : Ledger) (ps : List Path) (q : Path) :
    (l.reviewed checks ps).opens q = l.opens q := by
  simp [opens, reviewed, Option.any_map]

/-! ### Files that are taken up -/

section Taking

variable (checks : Checkers) (checked : Bool) (fresh : Path → Document)

/-- The document of a path that has been taken up, given the one that it had. -/
def taken (p : Path) (found : Option Document) : Document :=
  let doc := (found.map (·.reread (fresh p).content)).getD (fresh p)
  if checked then doc.judged checks p else doc

/-- A file has been taken up. -/
def take (l : Ledger) (p : Path) : Ledger where
  documents q := if p.same q then some (((l.documents q).map (·.reread (fresh p).content)).getD (fresh p)) else l.documents q
  places q := l.places q ∨ q = p ∧ ∀ r, l.places r → r.same p = false

/-- Files have been taken up. -/
def adopted (l : Ledger) (ps : List Path) : Ledger where
  documents q := match ps.find? (·.same q) with
    | none => l.documents q
    | some p => some (taken checks checked fresh p (l.documents q))
  places q := l.places q ∨ q ∈ ps ∧ ∀ r, l.places r → r.same q = false

variable {checks checked fresh}

/-- What has been taken up has the text that was read, unless it is open. -/
theorem settled_taken (checks : Checkers) (checked : Bool) (fresh : Path → Document) (p : Path) (found : Option Document)
    (hclosed : (taken checks checked fresh p found).isOpen = false) :
    (taken checks checked fresh p found).content = (fresh p).content := by
  unfold taken at hclosed ⊢
  cases found with
  | none => cases checked <;> rfl
  | some doc => cases checked <;> simp at hclosed ⊢ <;> exact Document.content_reread hclosed

/-- A document that has its text is only checked. -/
theorem taken_of_settled {doc : Document} (h : doc.isOpen = false → doc.content = (fresh p).content) :
    taken checks checked fresh p (some doc) = if checked then doc.judged checks p else doc := by
  simp only [taken, Option.map_some, Option.getD_some, Document.reread_eq h]

/-- Whatever has been taken up does not change when it is taken up again. -/
theorem taken_taken (found : Option Document) :
    taken checks checked fresh p (some (taken checks checked fresh p found)) = taken checks checked fresh p found := by
  rw [taken_of_settled (settled_taken checks checked fresh p found)]
  split
  · rename_i hchecked
    simp [taken, hchecked]
  · rfl

@[simp] theorem adopted_nil (l : Ledger) : l.adopted checks checked fresh [] = l := by
  refine Ledger.ext rfl (funext fun q => propext ?_)
  simp [adopted]

/-- One more path is a place if none of the same components was one. -/
theorem places_adopted_concat (l : Ledger) {ps : List Path} (hp : ∀ q ∈ ps, q.same p = true → q = p) (q : Path) :
    (l.adopted checks checked fresh (ps ++ [p])).places q
      ↔ ((l.adopted checks checked fresh ps).take fresh p).places q := by
  show (l.places q ∨ q ∈ ps ++ [p] ∧ ∀ r, l.places r → r.same q = false)
    ↔ (l.places q ∨ q ∈ ps ∧ ∀ r, l.places r → r.same q = false)
      ∨ q = p ∧ ∀ r, (l.places r ∨ r ∈ ps ∧ ∀ s, l.places s → s.same r = false) → r.same p = false
  simp only [List.mem_append, List.mem_singleton]
  constructor
  · rintro (hq | ⟨hq | rfl, hfree⟩)
    · exact .inl (.inl hq)
    · exact .inl (.inr ⟨hq, hfree⟩)
    · by_cases hin : q ∈ ps
      · exact .inl (.inr ⟨hin, hfree⟩)
      · refine .inr ⟨rfl, fun r hr => hr.elim (hfree r) fun hr => ?_⟩
        rw [Bool.eq_false_iff]
        exact fun hsame => hin (hp r hr.1 hsame ▸ hr.1)
  · rintro ((hq | ⟨hq, hfree⟩) | ⟨rfl, hfree⟩)
    · exact .inl hq
    · exact .inr ⟨.inl hq, hfree⟩
    · exact .inr ⟨.inr rfl, fun r hr => hfree r (.inl hr)⟩

theorem documents_adopted_concat (l : Ledger) {ps : List Path} (hp : ∀ q ∈ ps, q.same p = true → q = p) (q : Path) :
    (l.adopted checks checked fresh (ps ++ [p])).documents q
      = if p.same q then some (taken checks checked fresh p ((l.adopted checks checked fresh ps).documents q))
        else (l.adopted checks checked fresh ps).documents q := by
  simp only [adopted, List.find?_append]
  cases hsame : p.same q with
  | false => cases hfound : ps.find? (·.same q) <;> simp [hsame]
  | true =>
    cases hfound : ps.find? (·.same q) with
    | none => simp [hsame]
    | some r =>
      -- It has been taken up before, so that this makes no difference.
      have hr : r.same q = true := List.find?_some (p := fun r : Path => r.same q) hfound
      obtain rfl := hp r (List.mem_of_find?_eq_some hfound) <| by
        rw [Path.same_congr hr, Path.same_comm]
        exact hsame
      simp [taken_taken]

/-- Files are taken up one after the other. -/
theorem adopted_concat (l : Ledger) {ps : List Path} (hp : ∀ q ∈ ps, q.same p = true → q = p) :
    l.adopted checks checked fresh (ps ++ [p])
      = if checked then ((l.adopted checks checked fresh ps).take fresh p).reviewed checks [p]
        else (l.adopted checks checked fresh ps).take fresh p := by
  split
  · rename_i hchecked
    refine Ledger.ext (funext fun q => (documents_adopted_concat l hp q).trans ?_) (funext fun q => propext (places_adopted_concat l hp q))
    unfold reviewed review take
    cases hsame : p.same q <;> simp [hsame, taken, hchecked]
  · rename_i hchecked
    refine Ledger.ext (funext fun q => (documents_adopted_concat l hp q).trans ?_) (funext fun q => propext (places_adopted_concat l hp q))
    unfold take
    cases hsame : p.same q <;> simp [hsame, taken, hchecked]

theorem isOpen_taken (hclosed : (fresh p).isOpen = false) (found : Option Document) :
    (taken checks checked fresh p found).isOpen = found.any (·.isOpen) := by
  unfold taken
  cases found <;> cases checked <;> simp [hclosed]

@[simp] theorem opens_adopted (hclosed : ∀ p, (fresh p).isOpen = false) (l : Ledger) (ps : List Path) (q : Path) :
    (l.adopted checks checked fresh ps).opens q = l.opens q := by
  unfold opens adopted
  dsimp only
  split
  · rfl
  · rw [Option.any_some, isOpen_taken (hclosed _)]

end Taking

end Ledger

/-! ### Errands -/

/-- What is to be done about an event: the path that is let go if there is one, and the files that
    are taken up, spelled in one way only, each with the document that it gets if it has none. -/
structure Errand where
  gone : Option Path
  files : List Path
  fresh : Path → Document
  checked : Bool
  distinct : ∀ p ∈ files, ∀ q ∈ files, p.same q = true → p = q
  closed : ∀ p, (fresh p).isOpen = false

namespace Errand

variable {checks : Checkers} {e : Errand} {l : Ledger} {p q : Path}

/-- What is left before something is taken up. -/
def kept (e : Errand) (l : Ledger) : Ledger :=
  match e.gone with
  | none => l
  | some p => l.letGo p

/-- What is left in the end. -/
def after (checks : Checkers) (e : Errand) (l : Ledger) : Ledger := (e.kept l).adopted checks e.checked e.fresh e.files

@[simp] theorem opens_kept (e : Errand) (l : Ledger) (q : Path) : (e.kept l).opens q = l.opens q := by
  unfold kept
  split
  · rfl
  · exact Ledger.opens_letGo l _ q

@[simp] theorem opens_after (checks : Checkers) (e : Errand) (l : Ledger) (q : Path) :
    (e.after checks l).opens q = l.opens q := by
  rw [after, Ledger.opens_adopted e.closed, opens_kept]

/-- Whether a path is among what is let go. -/
def drops (e : Errand) (l : Ledger) (q : Path) : Bool := e.gone.any fun p => l.drops p q

theorem drops_congr {l' : Ledger} (h : ∀ q, l'.opens q = l.opens q) (q : Path) : e.drops l' q = e.drops l q := by
  unfold drops Ledger.drops
  rw [h]

theorem documents_kept (e : Errand) (l : Ledger) (q : Path) :
    (e.kept l).documents q = if e.drops l q then none else l.documents q := by
  unfold kept drops
  cases e.gone with
  | none => rfl
  | some p => rfl

theorem places_kept (e : Errand) (l : Ledger) (q : Path) : (e.kept l).places q ↔ l.places q ∧ e.drops l q = false := by
  unfold kept drops
  cases e.gone with
  | none => simp
  | some p => rfl

theorem documents_after (checks : Checkers) (e : Errand) (l : Ledger) (q : Path) :
    (e.after checks l).documents q = match e.files.find? (·.same q) with
      | none => if e.drops l q then none else l.documents q
      | some p => some (Ledger.taken checks e.checked e.fresh p (if e.drops l q then none else l.documents q)) := by
  rw [after, Ledger.adopted, ← documents_kept]

theorem places_after (checks : Checkers) (e : Errand) (l : Ledger) (q : Path) :
    (e.after checks l).places q ↔ l.places q ∧ e.drops l q = false
      ∨ q ∈ e.files ∧ ∀ r, l.places r → e.drops l r = false → r.same q = false := by
  simp only [after, Ledger.adopted, places_kept, and_imp]

/-- No path is tracked the second time that was not the first time, and all are. -/
theorem places_again {l' : Ledger} (hplaces : ∀ q, l'.places q ↔ (e.after checks l).places q)
    (hopens : ∀ q, l'.opens q = l.opens q) (q : Path) : (e.after checks l').places q ↔ (e.after checks l).places q := by
  have hdrops : ∀ q, e.drops l' q = e.drops l q := drops_congr hopens
  rw [places_after, hplaces]
  simp only [hplaces, hdrops]
  constructor
  · rintro (⟨hq, -⟩ | ⟨hq, hfree⟩)
    · exact hq
    · refine (places_after ..).mpr (.inr ⟨hq, fun r hr hkept => hfree r ?_ hkept⟩)
      exact (places_after ..).mpr (.inl ⟨hr, hkept⟩)
  · intro hq
    cases hkept : e.drops l q with
    | false => exact .inl ⟨hq, rfl⟩
    | true =>
      -- It was let go, so that it has been taken up.
      obtain ⟨hin, hfree⟩ := ((places_after ..).mp hq).resolve_left fun h => by
        rw [hkept] at h
        cases h.2
      refine .inr ⟨hin, fun r hr hr' => ?_⟩
      rcases (places_after ..).mp hr with ⟨hr, -⟩ | ⟨hr, -⟩
      · exact hfree r hr hr'
      · rw [Bool.eq_false_iff]
        intro hsame
        rw [e.distinct r hr q hin hsame, hkept] at hr'
        cases hr'

/-- No document changes the second time, also if all have been checked again in between. -/
theorem documents_again {l' : Ledger} {f : Document → Document} (hf : f = id ∨ ∃ p, f = Document.judged checks p)
    (hdocument : l'.documents q = ((e.after checks l).documents q).map f) (hopens : l'.opens q = l.opens q) :
    ((e.after checks l').documents q).map f = l'.documents q := by
  have hdrops : e.drops l' q = e.drops l q := by
    unfold drops Ledger.drops
    rw [hopens]
  have htwice : ∀ doc, f (f doc) = f doc := by
    rcases hf with rfl | ⟨p, rfl⟩
    · exact fun _ => rfl
    · exact fun doc => doc.judged_judged checks p p
  rw [documents_after, hdrops, hdocument, documents_after]
  cases hfound : e.files.find? (·.same q) with
  | none => cases e.drops l q <;> simp [Option.map_map, Function.comp_def, htwice]
  | some p =>
    dsimp only
    cases e.drops l q with
    | true => rfl
    | false =>
      simp only [Bool.false_eq_true, if_false, Option.map_some, Option.some.injEq]
      rcases hf with rfl | ⟨r, rfl⟩
      · exact Ledger.taken_taken (l.documents q)
      · have hsettled := Ledger.settled_taken checks e.checked e.fresh p (l.documents q)
        generalize Ledger.taken checks e.checked e.fresh p (l.documents q) = doc at hsettled
        rw [Ledger.taken_of_settled (show (doc.judged checks r).isOpen = false → _ from hsettled)]
        split
        · rw [Document.judged_judged, Document.judged_judged]
        · exact doc.judged_judged checks r r

/-- **Nothing is left to do the second time.** -/
theorem after_after (checks : Checkers) (e : Errand) (l : Ledger) : e.after checks (e.after checks l) = e.after checks l := by
  have hopens : ∀ q, (e.after checks l).opens q = l.opens q := opens_after checks e l
  have hplaces : ∀ q, (e.after checks (e.after checks l)).places q ↔ _ := places_again (fun _ => Iff.rfl) hopens
  refine Ledger.ext (funext fun q => ?_) (funext fun q => propext (hplaces q))
  have hagain := documents_again (.inl rfl) Option.map_id_apply.symm (hopens q)
  rwa [Option.map_id_apply] at hagain

/-- **Neither is anything left to do when all documents are checked afterwards.** -/
theorem after_reviewed (checks : Checkers) (e : Errand) (l : Ledger) (ps : List Path) :
    (e.after checks ((e.after checks l).reviewed checks ps)).reviewed checks ps = (e.after checks l).reviewed checks ps := by
  have hopens : ∀ q, ((e.after checks l).reviewed checks ps).opens q = l.opens q := by simp
  have hplaces : ∀ q, (e.after checks ((e.after checks l).reviewed checks ps)).places q ↔ _ :=
    places_again (fun _ => Iff.rfl) hopens
  refine Ledger.ext (funext fun q => ?_) (funext fun q => propext (hplaces q))
  exact documents_again (Ledger.review_cases checks ps q) rfl (hopens q)

end Errand

end LiveWorkspace
