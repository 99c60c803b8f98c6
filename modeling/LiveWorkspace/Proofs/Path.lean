/-
  LiveWorkspace/Proofs/Path.lean
  ==============================
  **Paths by their names.**

  The disk is walked by the names of a path, that is by its pieces without the empty
  ones; paths are compared by their components.  Between the two lie the `.` pieces:
  they are names that lead nowhere, and mostly no components.  This module says what
  joining, shortening and cutting a path does to its names, up to such pieces:

    * `names_join`    — joining two paths joins their names;
    * `exists_parent` — a path that ends in a name has a parent, which has the names
      in front of it;
    * `Encloses`      — the paths at and below a root that do not climb, with the names
      that lead to them (`namesBelow`), by which they are the same or lie below each
      other.
-/
import LiveWorkspace.Disk.Resolve

namespace LiveWorkspace.Path

/-! ### Splitting -/

theorem not_mem_of_mem_split {cs t : List Char} (h : t ∈ split cs) : '/' ∉ t := by
  induction cs generalizing t with
  | nil =>
    simp only [split, List.mem_singleton] at h
    rw [h]
    exact List.not_mem_nil
  | cons c rest ih =>
    simp only [split] at h
    split at h
    · rcases List.mem_cons.mp h with rfl | h
      · exact List.not_mem_nil
      · exact ih h
    · rename_i hc
      cases hs : split rest with
      | nil => exact absurd hs (split_ne_nil rest)
      | cons piece pieces =>
        rw [hs] at h
        rcases List.mem_cons.mp h with rfl | h
        · intro hmem
          rcases List.mem_cons.mp hmem with e | hmem
          · exact hc e.symm
          · exact ih (by rw [hs]; exact List.mem_cons_self) hmem
        · exact ih (by rw [hs]; exact List.mem_cons_of_mem _ h)

theorem split_of_not_mem {t : List Char} (h : '/' ∉ t) : split t = [t] := by
  induction t with
  | nil => rfl
  | cons c rest ih =>
    have hc : c ≠ '/' := fun e => h (e ▸ List.mem_cons_self)
    rw [split, if_neg hc, ih fun hm => h (List.mem_cons_of_mem _ hm)]

theorem split_append_cons (as bs : List Char) :
    split (as ++ '/' :: bs) = split as ++ split bs := by
  induction as with
  | nil => simp [split]
  | cons c rest ih =>
    by_cases hc : c = '/'
    · rw [List.cons_append, split, if_pos hc, split, if_pos hc, ih]
      rfl
    · rw [List.cons_append, split, if_neg hc, split, if_neg hc, ih]
      cases hs : split rest with
      | nil => exact absurd hs (split_ne_nil rest)
      | cons piece pieces => rfl

theorem split_unsplit {ts : List (List Char)} (hne : ts ≠ []) (h : ∀ t ∈ ts, '/' ∉ t) :
    split (unsplit ts) = ts := by
  induction ts with
  | nil => exact absurd rfl hne
  | cons t rest ih =>
    have ht : '/' ∉ t := h t List.mem_cons_self
    cases rest with
    | nil => exact split_of_not_mem ht
    | cons next more =>
      rw [unsplit, split_append_cons, split_of_not_mem ht,
        ih (List.cons_ne_nil _ _) fun u hu => h u (List.mem_cons_of_mem _ hu)]
      · rfl
      · exact List.cons_ne_nil _ _

/-! ### Pieces -/

/-- A piece as it stands behind the first one of a path. -/
def Piece.Inner (x : Piece) : Prop := x.component = Component.ofPiece? x.text

/-- The names among some pieces. -/
def namesOf (ps : List Piece) : List String :=
  ((ps.map (·.text)).filter (· ≠ [])).map String.ofList

theorem pieces_ne_nil (p : Path) : p.pieces ≠ [] := by
  unfold pieces
  split
  · rename_i h
    exact absurd h (split_ne_nil _)
  · exact List.cons_ne_nil _ _

theorem map_text_pieces (p : Path) : p.pieces.map (·.text) = split p.spelling.toList := by
  unfold pieces
  split
  · rename_i h
    exact absurd h (split_ne_nil _)
  · rename_i first rest h
    rw [h]
    simp only [List.map_cons, List.map_map, Function.comp_def, List.map_id']

theorem names_eq (p : Path) : p.names = namesOf p.pieces := by
  rw [names, namesOf, map_text_pieces]

theorem not_mem_text {p : Path} {x : Piece} (h : x ∈ p.pieces) : '/' ∉ x.text := by
  have hmem : x.text ∈ split p.spelling.toList := by
    rw [← map_text_pieces]
    exact List.mem_map_of_mem h
  exact not_mem_of_mem_split hmem

theorem inner_of_mem_tail {p : Path} {x : Piece} (h : x ∈ p.pieces.tail) : x.Inner := by
  unfold pieces at h
  split at h
  · exact absurd h List.not_mem_nil
  · rw [List.tail_cons] at h
    obtain ⟨t, -, rfl⟩ := List.mem_map.mp h
    rfl

theorem namesOf_append (ps qs : List Piece) : namesOf (ps ++ qs) = namesOf ps ++ namesOf qs := by
  simp only [namesOf, List.map_append, List.filter_append]

/-- A first piece without a component is empty. -/
theorem text_eq_nil_of_head {p : Path} {x : Piece} {rest : List Piece} (h : p.pieces = x :: rest)
    (hx : x.component = none) : x.text = [] := by
  unfold pieces at h
  split at h
  · cases h
  · rename_i first more _
    simp only [List.cons.injEq] at h
    obtain ⟨rfl, -⟩ := h
    by_cases h1 : first = []
    · exact h1
    · by_cases h2 : first = ['.']
      · simp [h2] at hx
      · simp only [h1, if_false, h2, Component.ofPiece?, or_self] at hx
        split at hx
        · cases hx
        · cases hx

theorem Component.ofPiece?_eq_none_iff {t : List Char} :
    Component.ofPiece? t = none ↔ t = [] ∨ t = ['.'] := by
  unfold Component.ofPiece?
  split
  · rename_i h
    simp [h]
  · rename_i h
    split
    · simp [h]
    · simp [h]

/-- The pieces of a path that mean nothing are empty or dots. -/
theorem text_of_component_eq_none {p : Path} {x : Piece} (h : x ∈ p.pieces)
    (hx : x.component = none) : x.text = [] ∨ x.text = ['.'] := by
  cases hp : p.pieces with
  | nil => exact absurd hp p.pieces_ne_nil
  | cons first rest =>
    rw [hp] at h
    rcases List.mem_cons.mp h with rfl | h
    · exact .inl (text_eq_nil_of_head hp hx)
    · have hin : x.Inner := inner_of_mem_tail (p := p) (by rw [hp]; exact h)
      rw [hin] at hx
      exact Component.ofPiece?_eq_none_iff.mp hx

/-- Pieces that mean nothing have no names but dots. -/
theorem eq_dot_of_mem_namesOf {p : Path} {ps : List Piece} (hps : ∀ x ∈ ps, x ∈ p.pieces)
    (hnone : ∀ x ∈ ps, x.component = none) {s : String} (hs : s ∈ namesOf ps) : s = "." := by
  unfold namesOf at hs
  obtain ⟨t, ht, rfl⟩ := List.mem_map.mp hs
  obtain ⟨ht, hne⟩ := List.mem_filter.mp ht
  obtain ⟨x, hx, rfl⟩ := List.mem_map.mp ht
  rcases text_of_component_eq_none (hps x hx) (hnone x hx) with h | h
  · rw [h] at hne
    exact absurd hne (by decide)
  · rw [h]

/-- Only an empty piece can be the root. -/
theorem text_of_component_eq_root {p : Path} {x : Piece} (h : x ∈ p.pieces)
    (hx : x.component = some .root) : x.text = [] := by
  unfold pieces at h
  split at h
  · exact absurd h List.not_mem_nil
  · rename_i first rest _
    rcases List.mem_cons.mp h with rfl | h
    · by_cases h1 : first = []
      · exact h1
      · by_cases h2 : first = ['.']
        · simp [h2] at hx
        · simp only [h1, if_false, h2, Component.ofPiece?, or_self] at hx
          split at hx
          · cases hx
          · cases hx
    · obtain ⟨t, -, rfl⟩ := List.mem_map.mp h
      simp only [Component.ofPiece?] at hx
      split at hx
      · cases hx
      · split at hx
        · cases hx
        · cases hx

theorem component_of_text_nil {p : Path} {x : Piece} (h : x ∈ p.pieces) (hx : x.text = []) :
    x.component = none ∨ x.component = some .root := by
  unfold pieces at h
  split at h
  · exact absurd h List.not_mem_nil
  · rename_i first rest _
    rcases List.mem_cons.mp h with rfl | h
    · simp only [show first = [] from hx, if_true]
      cases rest.isEmpty
      · exact .inr rfl
      · exact .inl rfl
    · obtain ⟨t, -, rfl⟩ := List.mem_map.mp h
      exact .inl (Component.ofPiece?_eq_none_iff.mpr (.inl hx))

/-- An empty piece in front of others is the root. -/
theorem component_of_head {p : Path} {x : Piece} {rest : List Piece} (h : p.pieces = x :: rest)
    (hx : x.text = []) (hrest : rest ≠ []) : x.component = some .root := by
  unfold pieces at h
  split at h
  · cases h
  · rename_i first more _
    simp only [List.cons.injEq] at h
    obtain ⟨rfl, rfl⟩ := h
    simp only at hx
    have hmore : more.isEmpty = false := by
      cases more with
      | nil => exact absurd rfl hrest
      | cons t more => rfl
    simp [hx, hmore]

/-! ### Paths made of pieces -/

theorem toList_ofPieces {ps : List Piece} (h : ∀ x, ps = [x] → x.component ≠ some .root) :
    (ofPieces ps).spelling.toList = unsplit (ps.map (·.text)) := by
  cases ps with
  | nil => rfl
  | cons x rest =>
    cases rest with
    | nil =>
      rw [ofPieces, if_neg (h x rfl), String.toList_ofList]
      rfl
    | cons y more => exact String.toList_ofList

theorem names_ofPieces {p : Path} {ps : List Piece} (h : ∀ x ∈ ps, x ∈ p.pieces) :
    (ofPieces ps).names = namesOf ps := by
  by_cases hroot : ∃ x, ps = [x] ∧ x.component = some .root
  · obtain ⟨x, rfl, hx⟩ := hroot
    have htext : x.text = [] := text_of_component_eq_root (h x List.mem_cons_self) hx
    rw [ofPieces, if_pos hx, namesOf, List.map_singleton, htext]
    rfl
  · have hspell := toList_ofPieces fun x hps hx => hroot ⟨x, hps, hx⟩
    rw [names, hspell]
    cases ps with
    | nil => rfl
    | cons x rest =>
      have htexts : ∀ t ∈ (x :: rest).map (·.text), '/' ∉ t := by
        intro t ht
        obtain ⟨y, hy, rfl⟩ := List.mem_map.mp ht
        exact not_mem_text (h y hy)
      rw [split_unsplit (by simp) htexts]
      rfl

/-! ### Joining -/

theorem names_append_slash (a b : String) :
    (Path.mk (a ++ "/" ++ b)).names = (Path.mk a).names ++ (Path.mk b).names := by
  have hsplit : split (a ++ "/" ++ b).toList = split a.toList ++ split b.toList := by
    rw [String.toList_append, String.toList_append, List.append_assoc]
    exact split_append_cons _ _
  simp only [names, hsplit, List.filter_append, List.map_append]

/-- A separator at the end is no name. -/
theorem names_append_of_endsInSeparator {a : String} (h : (Path.mk a).endsInSeparator = true)
    (b : String) : (Path.mk (a ++ b)).names = (Path.mk a).names ++ (Path.mk b).names := by
  simp only [endsInSeparator, beq_iff_eq] at h
  obtain ⟨as, has⟩ := List.getLast?_eq_some_iff.mp h
  simp only [names, String.toList_append, has, List.append_assoc]
  rw [show ['/'] ++ b.toList = '/' :: b.toList from rfl, split_append_cons, split_append_cons]
  simp only [List.filter_append, List.map_append]
  rw [show (split ([] : List Char)).filter (· ≠ []) = [] by decide, List.map_nil, List.append_nil]

/-- **Joining two paths joins their names.** -/
theorem names_join (p : Path) {q : Path} (hq : q.isAbsolute = false) :
    (p.join q).names = p.names ++ q.names := by
  unfold join
  rw [if_neg (by rw [hq]; decide)]
  split
  · rename_i h
    by_cases hempty : p.spelling.isEmpty = true
    · have hp : p.spelling = "" := String.isEmpty_iff.mp hempty
      have hnames : p.names = [] := by rw [names, hp]; rfl
      rw [hp, String.empty_append, hnames, List.nil_append]
    · have hend : p.endsInSeparator = true := by
        rcases h with h | h
        · exact absurd h hempty
        · rw [endsInSeparator, h]
          decide
      exact names_append_of_endsInSeparator hend q.spelling
  · exact names_append_slash _ _

theorem isAbsolute_join {p q : Path} (hp : p.spelling ≠ "") (hq : q.isAbsolute = false) :
    (p.join q).isAbsolute = p.isAbsolute := by
  have hne : p.spelling.toList ≠ [] := fun h => hp (String.toList_eq_nil_iff.mp h)
  obtain ⟨c, cs, hcs⟩ := List.exists_cons_of_ne_nil hne
  unfold join
  rw [if_neg (by rw [hq]; decide)]
  split
  · simp only [isAbsolute, String.toList_append, hcs, List.cons_append, List.head?_cons]
  · simp only [isAbsolute, String.toList_append, hcs, List.cons_append, List.head?_cons]

theorem endsInSeparator_join {p q : Path} (hq : q.isAbsolute = false) (hne : q.spelling ≠ "") :
    (p.join q).endsInSeparator = q.endsInSeparator := by
  have hlist : q.spelling.toList ≠ [] := fun h => hne (String.toList_eq_nil_iff.mp h)
  have hlast := List.getLast?_eq_some_getLast hlist
  unfold join
  rw [if_neg (by rw [hq]; decide)]
  split
  · simp only [endsInSeparator, String.toList_append, List.getLast?_append, hlast, Option.some_or]
  · simp only [endsInSeparator, String.toList_append, List.getLast?_append, hlast, Option.some_or]

/-! ### Trimming -/

theorem trimEnd_append (ps : List Piece) :
    ∃ blank, ps = trimEnd ps ++ blank ∧ ∀ x ∈ blank, x.component = none := by
  refine ⟨(ps.reverse.takeWhile (·.component.isNone)).reverse, ?_, ?_⟩
  · unfold trimEnd
    rw [← List.reverse_append, List.takeWhile_append_dropWhile, List.reverse_reverse]
  · intro x hx
    have h := List.all_eq_true.mp (List.all_takeWhile (l := ps.reverse)) x (List.mem_reverse.mp hx)
    exact Option.isNone_iff_eq_none.mp h

theorem getLast?_trimEnd {ps : List Piece} {x : Piece} (h : (trimEnd ps).getLast? = some x) :
    x.component.isSome = true := by
  unfold trimEnd at h
  rw [List.getLast?_reverse] at h
  have hx := List.head?_dropWhile_not (fun y : Piece => y.component.isNone) ps.reverse
  rw [h] at hx
  simpa using hx

theorem mem_of_mem_trimEnd {ps : List Piece} {x : Piece} (h : x ∈ trimEnd ps) : x ∈ ps := by
  obtain ⟨blank, hps, -⟩ := trimEnd_append ps
  rw [hps]
  exact List.mem_append_left _ h

/-! ### Parents -/

/-- Only the first piece means something although it is empty or a dot. -/
theorem eq_nil_of_blank_text {p : Path} {pre post : List Piece} {x : Piece}
    (h : p.pieces = pre ++ x :: post) (hx : x.component.isSome = true)
    (htext : x.text = [] ∨ x.text = ['.']) : pre = [] := by
  cases pre with
  | nil => rfl
  | cons y pre =>
    have hin : x.Inner := by
      apply inner_of_mem_tail (p := p)
      rw [h, List.cons_append, List.tail_cons]
      simp
    rw [hin, Component.ofPiece?_eq_none_iff.mpr htext] at hx
    cases hx

theorem isAbsolute_iff {p : Path} :
    p.isAbsolute = true ↔ ∃ rest, split p.spelling.toList = [] :: rest ∧ rest ≠ [] := by
  unfold isAbsolute
  cases h : p.spelling.toList with
  | nil => simp [split]
  | cons c cs =>
    by_cases hc : c = '/'
    · simp [split, hc, split_ne_nil]
    · simp only [List.head?_cons, beq_iff_eq, Option.some.injEq, hc, false_iff, not_exists, not_and]
      intro rest hrest
      rw [split, if_neg hc] at hrest
      split at hrest
      · cases hrest
      · cases hrest

theorem isAbsolute_iff_pieces {p : Path} :
    p.isAbsolute = true ↔ ∃ x rest, p.pieces = x :: rest ∧ x.text = [] ∧ rest ≠ [] := by
  rw [isAbsolute_iff, ← map_text_pieces]
  constructor
  · rintro ⟨rest, h, hne⟩
    obtain ⟨x, more, hp, hx, rfl⟩ := List.map_eq_cons_iff.mp h
    exact ⟨x, more, hp, hx, fun e => hne (by rw [e]; rfl)⟩
  · rintro ⟨x, rest, hp, hx, hne⟩
    exact ⟨rest.map (·.text), by rw [hp, List.map_cons, hx], fun e => hne (List.map_eq_nil_iff.mp e)⟩

theorem unsplit_cons (t : List Char) {ts : List (List Char)} (h : ts ≠ []) :
    unsplit (t :: ts) = t ++ '/' :: unsplit ts := by
  cases ts with
  | nil => exact absurd rfl h
  | cons u rest => rfl

theorem unsplit_concat (ts : List (List Char)) (t : List Char) : ∃ lead, unsplit (ts ++ [t]) = lead ++ t := by
  induction ts with
  | nil => exact ⟨[], rfl⟩
  | cons u rest ih =>
    obtain ⟨lead, hlead⟩ := ih
    refine ⟨u ++ '/' :: lead, ?_⟩
    rw [List.cons_append, unsplit_cons u (by simp), hlead]
    simp

/-- The leading pieces of a path, up to one that means something. -/
structure Lead (p : Path) (ps : List Piece) : Prop where
  isPrefix : ps <+: p.pieces
  last : ∀ x, ps.getLast? = some x → x.component.isSome = true

namespace Lead

variable {p : Path} {ps : List Piece}

theorem mem (h : Lead p ps) : ∀ x ∈ ps, x ∈ p.pieces := fun _ hx => h.isPrefix.subset hx

/-- The last of the pieces has a text, unless it is the root. -/
theorem text_ne_nil (h : Lead p ps) {init : List Piece} {x : Piece} (hps : ps = init ++ [x])
    (hinit : init ≠ []) : x.text ≠ [] := by
  intro htext
  obtain ⟨post, hp⟩ := h.isPrefix
  apply hinit
  apply eq_nil_of_blank_text (p := p) (x := x)
  · rw [← hp, hps, List.append_assoc]
    rfl
  · exact h.last x (by rw [hps, List.getLast?_concat])
  · exact .inl htext

theorem eq_concat (h : Lead p ps) (hne : ps ≠ []) :
    ∃ init x, ps = init ++ [x] ∧ x ∈ p.pieces ∧ x.component.isSome = true := by
  have hps := (List.dropLast_concat_getLast hne).symm
  refine ⟨_, _, hps, h.mem _ (List.getLast_mem hne), h.last _ (List.getLast?_eq_some_getLast hne)⟩

theorem getLast?_names (h : Lead p ps) (hdot : (ofPieces ps).names.getLast? = some ".") :
    (ofPieces ps).names = ["."] := by
  rw [names_ofPieces h.mem] at hdot ⊢
  by_cases hne : ps = []
  · rw [hne] at hdot
    cases hdot
  obtain ⟨init, x, hps, -, hsome⟩ := h.eq_concat hne
  obtain ⟨post, hpost⟩ := h.isPrefix
  have hpieces : p.pieces = init ++ x :: post := by rw [← hpost, hps, List.append_assoc]; rfl
  have hinit : x.text = [] ∨ x.text = ['.'] → init = [] := eq_nil_of_blank_text hpieces hsome
  rw [hps, namesOf_append] at hdot ⊢
  by_cases htext : x.text = []
  · rw [hinit (.inl htext), namesOf, namesOf, List.map_singleton, htext] at hdot
    cases hdot
  · have hx : namesOf [x] = [String.ofList x.text] := by simp [namesOf, htext]
    rw [hx, List.getLast?_concat, Option.some.injEq] at hdot
    have hchars : x.text = ['.'] := by
      rw [← String.toList_ofList (l := x.text), hdot]
      rfl
    rw [hinit (.inr hchars), hx, hdot]
    rfl

theorem endsInSeparator (h : Lead p ps) (hend : (ofPieces ps).endsInSeparator = true) :
    (ofPieces ps).names = [] := by
  rw [names_ofPieces h.mem]
  by_cases hne : ps = []
  · rw [hne]
    rfl
  obtain ⟨init, x, hps, hmem, hsome⟩ := h.eq_concat hne
  by_cases htext : x.text = []
  · have hinit : init = [] := by
      by_cases hinit : init = []
      · exact hinit
      · exact absurd htext (h.text_ne_nil hps hinit)
    rw [hps, hinit, List.nil_append, namesOf, List.map_singleton, htext]
    rfl
  · have hroot : ∀ y, ps = [y] → y.component ≠ some .root := by
      intro y hy hcomp
      rw [hps] at hy
      cases init with
      | nil =>
        cases hy
        exact htext (text_of_component_eq_root hmem hcomp)
      | cons z more => simp at hy
    obtain ⟨lead, hlead⟩ := unsplit_concat (init.map (·.text)) x.text
    have hlast := List.getLast?_eq_some_getLast htext
    rw [Path.endsInSeparator, toList_ofPieces hroot, hps, List.map_append, List.map_singleton, hlead,
      List.getLast?_append, hlast, Option.some_or, beq_iff_eq, Option.some.injEq] at hend
    exact absurd (hend ▸ List.getLast_mem htext) (not_mem_text hmem)

theorem isAbsolute (h : Lead p ps) (more : List Piece) (hp : p.pieces = ps ++ more) (hmore : more ≠ [])
    (hps : ps = [] → p.isAbsolute = false) : (ofPieces ps).isAbsolute = p.isAbsolute := by
  cases ps with
  | nil => rw [hps rfl]; rfl
  | cons x rest =>
    have hx : x ∈ p.pieces := h.mem x List.mem_cons_self
    have habs : p.isAbsolute = true ↔ x.text = [] := by
      rw [isAbsolute_iff_pieces, hp]
      constructor
      · rintro ⟨y, _, he, hy, -⟩
        rw [List.cons_append, List.cons.injEq] at he
        rw [he.1, hy]
      · intro htext
        exact ⟨x, rest ++ more, rfl, htext, by simp [hmore]⟩
    have hspelled : (ofPieces (x :: rest)).isAbsolute = true ↔ x.text = [] := by
      by_cases hroot : rest = [] ∧ x.component = some .root
      · obtain ⟨rfl, hcomp⟩ := hroot
        rw [ofPieces, if_pos hcomp]
        exact ⟨fun _ => text_of_component_eq_root hx hcomp, fun _ => rfl⟩
      · have hlist : (ofPieces (x :: rest)).spelling.toList = unsplit ((x :: rest).map (·.text)) := by
          apply toList_ofPieces
          intro y hy hcomp
          cases hy
          exact hroot ⟨rfl, hcomp⟩
        have htexts : ∀ t ∈ (x :: rest).map (·.text), '/' ∉ t := by
          intro t ht
          obtain ⟨y, hy, rfl⟩ := List.mem_map.mp ht
          exact not_mem_text (h.mem y hy)
        rw [isAbsolute_iff, hlist, split_unsplit (by simp) htexts]
        rw [List.map_cons]
        constructor
        · rintro ⟨_, he, -⟩
          exact (List.cons.inj he).1
        · intro htext
          refine ⟨rest.map (·.text), by rw [htext], ?_⟩
          intro hnil
          have hrest : rest = [] := List.map_eq_nil_iff.mp hnil
          have hsome := h.last x (by rw [hrest]; rfl)
          rcases component_of_text_nil hx htext with hcomp | hcomp
          · rw [hcomp] at hsome
            cases hsome
          · exact hroot ⟨hrest, hcomp⟩
    rw [Bool.eq_iff_iff, hspelled, habs]

end Lead

theorem unsplit_prefix {ts us : List (List Char)} (h : ts <+: us) : unsplit ts <+: unsplit us := by
  induction ts generalizing us with
  | nil => exact List.nil_prefix
  | cons t rest ih =>
    obtain ⟨more, rfl⟩ := h
    cases hrest : rest with
    | nil =>
      cases more with
      | nil => exact List.prefix_rfl
      | cons u us => exact ⟨'/' :: unsplit (u :: us), rfl⟩
    | cons t' rest' =>
      have hne : rest ≠ [] := by rw [hrest]; exact List.cons_ne_nil _ _
      rw [← hrest, List.cons_append, unsplit_cons _ hne, unsplit_cons _ (by simp [hne]),
        List.prefix_append_right_inj, List.cons_prefix_cons]
      exact ⟨rfl, ih (List.prefix_append _ _)⟩

theorem spelling_eq_unsplit (p : Path) : p.spelling.toList = unsplit (p.pieces.map (·.text)) := by
  rw [map_text_pieces, unsplit_split]

theorem Lead.isPrefix_spelling {p : Path} {ps more : List Piece} (h : Lead p ps)
    (hp : p.pieces = ps ++ more) (hmore : more ≠ []) :
    (ofPieces ps).spelling.toList <+: p.spelling.toList := by
  rw [spelling_eq_unsplit p]
  by_cases hroot : ∃ x, ps = [x] ∧ x.component = some .root
  · obtain ⟨x, rfl, hx⟩ := hroot
    have htext := text_of_component_eq_root (h.mem x List.mem_cons_self) hx
    rw [ofPieces, if_pos hx, hp, List.singleton_append, List.map_cons, unsplit_cons _ (by simpa using hmore),
      htext]
    exact List.prefix_append ['/'] _
  · rw [toList_ofPieces fun x hps hx => hroot ⟨x, hps, hx⟩]
    apply unsplit_prefix
    rw [hp, List.map_append]
    exact List.prefix_append _ _

theorem Lead.eq_nil_of_spelling {p : Path} {ps : List Piece} (h : Lead p ps)
    (hspell : (ofPieces ps).spelling = "") : ps = [] := by
  by_cases hne : ps = []
  · exact hne
  obtain ⟨init, x, hps, hmem, hsome⟩ := h.eq_concat hne
  by_cases hroot : ∃ y, ps = [y] ∧ y.component = some .root
  · obtain ⟨y, rfl, hy⟩ := hroot
    rw [ofPieces, if_pos hy] at hspell
    exact absurd hspell (by decide)
  have hlist := toList_ofPieces fun y hy hcomp => hroot ⟨y, hy, hcomp⟩
  have hempty : (ofPieces ps).spelling.toList = [] := String.toList_eq_nil_iff.mpr hspell
  obtain ⟨lead, hlead⟩ := unsplit_concat (init.map (·.text)) x.text
  rw [hlist, hps, List.map_append, List.map_singleton, hlead, List.append_eq_nil_iff] at hempty
  have hinit : init = [] := by
    by_cases hinit : init = []
    · exact hinit
    · exact absurd hempty.2 (h.text_ne_nil hps hinit)
  rcases component_of_text_nil hmem hempty.2 with hx | hx
  · rw [hx] at hsome
    cases hsome
  · exact absurd ⟨x, by rw [hps, hinit]; rfl, hx⟩ hroot

/-- `q` is the parent of `p`, and has the names `ns` but for dots at their end. -/
structure IsParent (p q : Path) (ns : List String) : Prop where
  parent : p.parent? = some q
  absolute : q.isAbsolute = p.isAbsolute
  separator : q.endsInSeparator = true → q.names = []
  last : q.names.getLast? = some "." → q.names = ["."]
  dots : ∃ dots, ns = q.names ++ dots ∧ ∀ s ∈ dots, s = "."
  isPrefix : q.spelling.toList <+: p.spelling.toList
  empty : q.spelling = "" → ns = []

/-- The last piece of a path that means something is no root; `init` are the pieces before it,
    with the names `ns`, and `blank` those behind it. -/
structure Ending (p : Path) (ns : List String) (init : List Piece) (x : Piece) (blank : List Piece) : Prop where
  pieces : p.pieces = init ++ x :: blank
  trimmed : trimEnd p.pieces = init ++ [x]
  blank : ∀ y ∈ blank, y.component = none
  means : x.component.isSome = true
  text : x.text ≠ []
  names : namesOf init = ns

/-- What is cut off at the end of the pieces are dots, so that a last name stays. -/
theorem namesOf_trimEnd {p : Path} {ns : List String} {n : String} (h : p.names = ns ++ [n]) (hdot : n ≠ ".") :
    namesOf (trimEnd p.pieces) = ns ++ [n] := by
  obtain ⟨blank, hpieces, hblank⟩ := trimEnd_append p.pieces
  have hdots : ∀ s ∈ namesOf blank, s = "." := fun s =>
    eq_dot_of_mem_namesOf (p := p) (fun x hx => hpieces ▸ List.mem_append_right _ hx) hblank
  have hsum : namesOf (trimEnd p.pieces) ++ namesOf blank = ns ++ [n] := by
    rw [← namesOf_append, ← hpieces, ← names_eq, h]
  by_cases hnil : namesOf blank = []
  · rw [hnil, List.append_nil] at hsum
    exact hsum
  · have hlast := List.getLast?_eq_some_getLast hnil
    have hn : (ns ++ [n]).getLast? = some n := List.getLast?_concat
    rw [← hsum, List.getLast?_append, hlast, Option.some_or, Option.some.injEq] at hn
    exact absurd (hn ▸ hdots _ (List.getLast_mem hnil)) hdot

theorem exists_ending {p : Path} {ns : List String} {n : String} (h : p.names = ns ++ [n]) (hdot : n ≠ ".") :
    ∃ init x blank, Ending p ns init x blank := by
  have hnames := namesOf_trimEnd h hdot
  obtain ⟨blank, hpieces, hblank⟩ := trimEnd_append p.pieces
  have hlead : Lead p (trimEnd p.pieces) := ⟨⟨blank, hpieces.symm⟩, fun x hx => getLast?_trimEnd hx⟩
  have hne : trimEnd p.pieces ≠ [] := by
    intro hnil
    rw [hnil] at hnames
    exact absurd hnames (by simp [namesOf])
  obtain ⟨init, x, hconcat, -, hsome⟩ := hlead.eq_concat hne
  have hsplit : p.pieces = init ++ x :: blank := by
    conv => lhs; rw [hpieces, hconcat, List.append_assoc]
    rfl
  have htext : x.text ≠ [] := by
    intro htext
    have hinit := eq_nil_of_blank_text hsplit hsome (.inl htext)
    rw [hconcat, hinit, List.nil_append, namesOf, List.map_singleton, htext] at hnames
    exact absurd hnames (by simp)
  refine ⟨init, x, blank, hsplit, hconcat, hblank, hsome, htext, ?_⟩
  have hone : namesOf [x] = [String.ofList x.text] := by simp [namesOf, htext]
  rw [hconcat, namesOf_append, hone] at hnames
  exact (List.append_inj' hnames rfl).1

namespace Ending

variable {p : Path} {ns : List String} {init blank : List Piece} {x : Piece}

theorem parent?_eq (h : Ending p ns init x blank) : p.parent? = some (ofPieces (trimEnd init)) := by
  obtain ⟨c, hc⟩ := Option.isSome_iff_exists.mp h.means
  have hlast : p.components.getLast? = some c := by
    have hnone : blank.filterMap (·.component) = [] := List.filterMap_eq_nil_iff.mpr h.blank
    rw [components, h.pieces, List.filterMap_append, List.filterMap_cons_some hc, hnone, List.getLast?_concat]
  rw [parent?, hlast, h.trimmed, List.dropLast_concat]
  cases c with
  | root =>
    have hx : x ∈ p.pieces := by simp [h.pieces]
    exact absurd (text_of_component_eq_root hx hc) h.text
  | here => rfl
  | up => rfl
  | name s => rfl

theorem lead (h : Ending p ns init x blank) : Lead p (trimEnd init) := by
  obtain ⟨blank', hinit, -⟩ := trimEnd_append init
  refine ⟨⟨blank' ++ x :: blank, ?_⟩, fun y hy => getLast?_trimEnd hy⟩
  rw [h.pieces, ← List.append_assoc, ← hinit]

/-- Pieces that are all blank would begin with an empty one, and that is the root. -/
theorem eq_nil_of_trimEnd (h : Ending p ns init x blank) (hnil : trimEnd init = []) : init = [] := by
  obtain ⟨blank', hinit, hblank'⟩ := trimEnd_append init
  rw [hnil, List.nil_append] at hinit
  cases hi : init with
  | nil => rfl
  | cons z more =>
    have hz : z ∈ blank' := by
      rw [← hinit, hi]
      exact List.mem_cons_self
    have hp : p.pieces = z :: (more ++ x :: blank) := by rw [h.pieces, hi]; rfl
    have hroot := component_of_head hp (text_eq_nil_of_head hp (hblank' z hz)) (by simp)
    rw [hblank' z hz] at hroot
    cases hroot

end Ending

/-- A path that ends in a name has a parent. -/
theorem exists_parent {p : Path} {ns : List String} {n : String} (h : p.names = ns ++ [n])
    (hdot : n ≠ ".") : ∃ q, IsParent p q ns := by
  obtain ⟨init, x, blank, hend⟩ := exists_ending h hdot
  obtain ⟨blank', hinit, hblank'⟩ := trimEnd_append init
  have hlead := hend.lead
  have hwhole : p.pieces = trimEnd init ++ (blank' ++ x :: blank) := by
    rw [hend.pieces, ← List.append_assoc, ← hinit]
  refine ⟨ofPieces (trimEnd init), hend.parent?_eq, ?_, hlead.endsInSeparator, hlead.getLast?_names,
    ⟨namesOf blank', ?_, ?_⟩, hlead.isPrefix_spelling hwhole (by simp), fun hspell => ?_⟩
  · apply hlead.isAbsolute (blank' ++ x :: blank) hwhole (by simp)
    intro hnil
    rw [Bool.eq_false_iff]
    intro habs
    obtain ⟨y, rest, hp, hy, -⟩ := isAbsolute_iff_pieces.mp habs
    rw [hend.pieces, hend.eq_nil_of_trimEnd hnil, List.nil_append, List.cons.injEq] at hp
    exact hend.text (hp.1 ▸ hy)
  · rw [names_ofPieces hlead.mem, ← namesOf_append, ← hinit, hend.names]
  · refine fun s => eq_dot_of_mem_namesOf (p := p) (fun y hy => ?_) hblank'
    rw [hwhole]
    simp [hy]
  · rw [← hend.names, hend.eq_nil_of_trimEnd (hlead.eq_nil_of_spelling hspell)]
    rfl

/-! ### Below a root -/

/-- The name that a component is, if it is one. -/
def Component.name? : Component → Option String
  | .name s => some s
  | _ => none

/-- A path is at or below a root; it may climb. -/
def Below (root p : Path) : Prop := p.startsWith root = true

/-- A path lies at or below a root, and does not climb. -/
def Encloses (root p : Path) : Prop := p.startsWith root = true ∧ Component.up ∉ p.components

instance (root p : Path) : Decidable (root.Encloses p) := inferInstanceAs (Decidable (_ ∧ _))

/-- The names that lead from a root to a path below it. -/
def namesBelow (root p : Path) : List String :=
  (p.components.drop root.components.length).filterMap Component.name?

theorem component_of_inner {x : Piece} (h : x.Inner) {c : Component} (hc : x.component = some c) :
    (c = .up ∧ x.text = ['.', '.'])
      ∨ (c = .name (String.ofList x.text) ∧ x.text ≠ [] ∧ x.text ≠ ['.'] ∧ x.text ≠ ['.', '.']) := by
  rw [h, Component.ofPiece?] at hc
  split at hc
  · cases hc
  · rename_i hblank
    rw [not_or] at hblank
    split at hc
    · rename_i hup
      exact .inl ⟨(Option.some.inj hc).symm, hup⟩
    · rename_i hup
      exact .inr ⟨(Option.some.inj hc).symm, hblank.1, hblank.2, hup⟩

/-- Behind the first component of a path there are only climbs and names. -/
theorem mem_drop_components {p : Path} {n : Nat} (hn : n ≠ 0) {c : Component}
    (h : c ∈ p.components.drop n) : c = .up ∨ ∃ s, c = .name s := by
  obtain ⟨m, rfl⟩ := Nat.exists_eq_succ_of_ne_zero hn
  have htail : c ∈ p.pieces.tail.filterMap (·.component) := by
    unfold components at h
    cases hp : p.pieces with
    | nil => exact absurd hp p.pieces_ne_nil
    | cons x rest =>
      rw [hp] at h
      rw [List.tail_cons]
      cases hx : x.component with
      | none =>
        rw [List.filterMap_cons_none hx] at h
        exact List.mem_of_mem_drop h
      | some c' =>
        rw [List.filterMap_cons_some hx, List.drop_succ_cons] at h
        exact List.mem_of_mem_drop h
  obtain ⟨x, hx, hc⟩ := List.mem_filterMap.mp htail
  rcases component_of_inner (inner_of_mem_tail hx) hc with ⟨rfl, -⟩ | ⟨rfl, -⟩
  · exact .inl rfl
  · exact .inr ⟨_, rfl⟩

theorem map_name_filterMap {cs : List Component} (h : ∀ c ∈ cs, ∃ s, c = .name s) :
    (cs.filterMap Component.name?).map Component.name = cs := by
  induction cs with
  | nil => rfl
  | cons c rest ih =>
    obtain ⟨s, rfl⟩ := h c List.mem_cons_self
    have hrest := ih fun c hc => h c (List.mem_cons_of_mem _ hc)
    rw [List.filterMap_cons, Component.name?, List.map_cons, hrest]

theorem filterMap_map_name (ns : List String) :
    (ns.map Component.name).filterMap Component.name? = ns := by
  induction ns with
  | nil => rfl
  | cons n rest ih => rw [List.map_cons, List.filterMap_cons, Component.name?, ih]

namespace Encloses

variable {root p q : Path}

theorem drop_components (h : root.Encloses p) (hroot : root.components ≠ []) :
    ∀ c ∈ p.components.drop root.components.length, ∃ s, c = .name s := by
  intro c hc
  have hlen : root.components.length ≠ 0 := fun e => hroot (List.length_eq_zero_iff.mp e)
  rcases mem_drop_components hlen hc with rfl | hs
  · exact absurd (List.mem_of_mem_drop hc) h.2
  · exact hs

/-- A path below a root is spelled by the root's components and the names below it. -/
theorem components_eq (h : root.Encloses p) (hroot : root.components ≠ []) :
    p.components = root.components ++ (root.namesBelow p).map Component.name := by
  obtain ⟨rest, hrest⟩ := startsWith_iff.mp h.1
  rw [namesBelow, map_name_filterMap (h.drop_components hroot), ← hrest, List.drop_left]

theorem same_iff (hp : root.Encloses p) (hq : root.Encloses q) (hroot : root.components ≠ []) :
    p.same q = true ↔ root.namesBelow p = root.namesBelow q := by
  rw [Path.same_iff, hp.components_eq hroot, hq.components_eq hroot, List.append_cancel_left_eq]
  constructor
  · intro h
    rw [← filterMap_map_name (root.namesBelow p), h, filterMap_map_name]
  · intro h
    rw [h]

theorem startsWith_iff (hp : root.Encloses p) (hq : root.Encloses q) (hroot : root.components ≠ []) :
    p.startsWith q = true ↔ root.namesBelow q <+: root.namesBelow p := by
  rw [startsWith, List.isPrefixOf_iff_prefix, hp.components_eq hroot, hq.components_eq hroot,
    List.prefix_append_right_inj]
  constructor
  · rintro ⟨rest, h⟩
    refine ⟨rest.filterMap Component.name?, ?_⟩
    rw [← filterMap_map_name (root.namesBelow p), ← h, List.filterMap_append, filterMap_map_name]
  · rintro ⟨rest, h⟩
    exact ⟨rest.map Component.name, by rw [← h, List.map_append]⟩

end Encloses

/-! ### The part below a root -/

theorem dropComponents_append (n : Nat) (ps : List Piece)
    (hn : n ≤ (ps.filterMap (·.component)).length) :
    ∃ pre, ps = pre ++ dropComponents n ps ∧ (pre.filterMap (·.component)).length = n := by
  induction ps generalizing n with
  | nil =>
    have hn : n = 0 := Nat.le_zero.mp hn
    exact ⟨[], by rw [hn]; rfl, by rw [hn]; rfl⟩
  | cons x rest ih =>
    cases n with
    | zero => exact ⟨[], rfl, rfl⟩
    | succ n =>
      rw [dropComponents]
      cases hx : x.component with
      | none =>
        rw [List.filterMap_cons_none hx] at hn
        obtain ⟨pre, hps, hlen⟩ := ih (n + 1) hn
        refine ⟨x :: pre, ?_, by rw [List.filterMap_cons_none hx, hlen]⟩
        exact congrArg (x :: ·) hps
      | some c =>
        rw [List.filterMap_cons_some hx, List.length_cons] at hn
        obtain ⟨pre, hps, hlen⟩ := ih n (Nat.le_of_succ_le_succ hn)
        refine ⟨x :: pre, ?_, by rw [List.filterMap_cons_some hx, List.length_cons, hlen]⟩
        exact congrArg (x :: ·) hps

theorem filterMap_dropWhile_blank (ps : List Piece) :
    (ps.dropWhile (·.component.isNone)).filterMap (·.component) = ps.filterMap (·.component) := by
  induction ps with
  | nil => rfl
  | cons x rest ih =>
    cases hx : x.component with
    | none =>
      rw [List.dropWhile_cons_of_pos (by rw [hx]; rfl), ih, List.filterMap_cons_none hx]
    | some c => rw [List.dropWhile_cons_of_neg (by rw [hx]; exact Bool.false_ne_true)]

theorem filterMap_trimEnd (ps : List Piece) :
    (trimEnd ps).filterMap (·.component) = ps.filterMap (·.component) := by
  obtain ⟨blank, hps, hblank⟩ := trimEnd_append ps
  have hnone : blank.filterMap (·.component) = [] := by
    rw [List.filterMap_eq_nil_iff]
    exact hblank
  conv => rhs; rw [hps, List.filterMap_append, hnone, List.append_nil]

/-- Without dots, the names of pieces that do not climb are those that they mean. -/
theorem filter_namesOf {ps : List Piece} (hin : ∀ x ∈ ps, x.Inner)
    (hup : Component.up ∉ ps.filterMap (·.component)) :
    (namesOf ps).filter (· ≠ ".") = (ps.filterMap (·.component)).filterMap Component.name?
      ∧ ".." ∉ namesOf ps := by
  induction ps with
  | nil => exact ⟨rfl, List.not_mem_nil⟩
  | cons x rest ih =>
    have hx : x.Inner := hin x List.mem_cons_self
    have hcons : namesOf (x :: rest) = namesOf [x] ++ namesOf rest := namesOf_append [x] rest
    cases hc : x.component with
    | none =>
      rw [List.filterMap_cons_none hc] at hup ⊢
      obtain ⟨hnames, hnoUp⟩ := ih (fun y hy => hin y (List.mem_cons_of_mem _ hy)) hup
      rw [hx] at hc
      have hone : namesOf [x] = [] ∨ namesOf [x] = ["."] := by
        rcases Component.ofPiece?_eq_none_iff.mp hc with ht | ht
        · exact .inl (by rw [namesOf, List.map_singleton, ht]; rfl)
        · exact .inr (by rw [namesOf, List.map_singleton, ht]; rfl)
      rw [hcons, List.filter_append, hnames, List.mem_append]
      rcases hone with h | h
      · rw [h]
        exact ⟨rfl, by simp [hnoUp]⟩
      · rw [h]
        exact ⟨rfl, by simp [hnoUp]⟩
    | some c =>
      rw [List.filterMap_cons_some hc] at hup ⊢
      simp only [List.mem_cons, not_or] at hup
      obtain ⟨hnames, hnoUp⟩ := ih (fun y hy => hin y (List.mem_cons_of_mem _ hy)) hup.2
      rcases component_of_inner hx hc with ⟨rfl, -⟩ | ⟨rfl, h1, h2, h3⟩
      · exact absurd rfl hup.1
      · have hone : namesOf [x] = [String.ofList x.text] := by simp [namesOf, h1]
        have hdot : String.ofList x.text ≠ "." := fun e => h2 (by
          rw [← String.toList_ofList (l := x.text), e]
          rfl)
        have hup2 : String.ofList x.text ≠ ".." := fun e => h3 (by
          rw [← String.toList_ofList (l := x.text), e]
          rfl)
        rw [hcons, hone, List.filter_append, hnames, List.mem_append]
        simp [hdot, hnoUp, Component.name?, Ne.symm hup2]

/-- A relative path that leads down by some names, dots apart. -/
structure Descends (p : Path) (ns : List String) : Prop where
  relative : p.isAbsolute = false
  names : p.names.filter (· ≠ ".") = ns
  noUp : ".." ∉ p.names
  last : p.names.getLast? ≠ some "."
  noSeparator : p.endsInSeparator = false
  empty : p.spelling = "" ↔ ns = []

/-- Inner pieces that begin and end in one that means something. -/
structure Trimmed (ps : List Piece) : Prop where
  inner : ∀ x ∈ ps, x.Inner
  first : ∀ x, ps.head? = some x → x.component.isSome = true
  last : ∀ x, ps.getLast? = some x → x.component.isSome = true

theorem Trimmed.text_ne {ps : List Piece} (h : Trimmed ps) {x : Piece} (hmem : x ∈ ps)
    (hx : x.component.isSome = true) : x.text ≠ [] ∧ x.text ≠ ['.'] := by
  constructor
  · intro ht
    rw [h.inner x hmem, Component.ofPiece?_eq_none_iff.mpr (.inl ht)] at hx
    cases hx
  · intro ht
    rw [h.inner x hmem, Component.ofPiece?_eq_none_iff.mpr (.inr ht)] at hx
    cases hx

theorem Trimmed.ne_root {ps : List Piece} (h : Trimmed ps) : ∀ x, ps = [x] → x.component ≠ some .root := by
  intro x hps hx
  have hxin := h.inner x (by rw [hps]; exact List.mem_cons_self)
  rcases component_of_inner hxin hx with ⟨he, -⟩ | ⟨he, -⟩ <;> cases he

/-- Trimmed pieces spell something that begins with no separator. -/
theorem Trimmed.exists_head {p : Path} {ps : List Piece} (h : Trimmed ps) (hmem : ∀ x ∈ ps, x ∈ p.pieces)
    (hne : ps ≠ []) : ∃ c more, c ≠ '/' ∧ (ofPieces ps).spelling.toList = c :: more := by
  obtain ⟨x, rest, hps⟩ := List.exists_cons_of_ne_nil hne
  have hx : x ∈ ps := by rw [hps]; exact List.mem_cons_self
  obtain ⟨c, cs, hcs⟩ := List.exists_cons_of_ne_nil (h.text_ne hx (h.first x (by rw [hps]; rfl))).1
  have hslash : c ≠ '/' := by
    intro e
    apply not_mem_text (hmem x hx)
    rw [hcs, e]
    exact List.mem_cons_self
  have hlist := toList_ofPieces h.ne_root
  rw [hps, List.map_cons] at hlist
  rw [hps]
  cases rest with
  | nil => exact ⟨c, cs, hslash, hlist.trans hcs⟩
  | cons y more =>
    rw [List.map_cons, unsplit_cons _ (by simp), hcs] at hlist
    exact ⟨c, _, hslash, hlist⟩

/-- The last of trimmed pieces is neither empty nor a dot. -/
theorem Trimmed.exists_last {ps : List Piece} (h : Trimmed ps) (hne : ps ≠ []) :
    ∃ init x, ps = init ++ [x] ∧ x.text ≠ [] ∧ x.text ≠ ['.'] := by
  have htext := h.text_ne (List.getLast_mem hne) (h.last _ (List.getLast?_eq_some_getLast hne))
  exact ⟨ps.dropLast, ps.getLast hne, (List.dropLast_concat_getLast hne).symm, htext⟩

theorem Trimmed.getLast?_namesOf {ps : List Piece} (h : Trimmed ps) (hne : ps ≠ []) :
    (namesOf ps).getLast? ≠ some "." := by
  obtain ⟨init, x, hps, htext, hdot⟩ := h.exists_last hne
  have hone : namesOf [x] = [String.ofList x.text] := by simp [namesOf, htext]
  rw [hps, namesOf_append, hone, List.getLast?_concat, ne_eq, Option.some.injEq]
  intro e
  apply hdot
  rw [← String.toList_ofList (l := x.text), e]
  rfl

theorem Trimmed.endsInSeparator {p : Path} {ps : List Piece} (h : Trimmed ps) (hmem : ∀ x ∈ ps, x ∈ p.pieces)
    (hne : ps ≠ []) : (ofPieces ps).endsInSeparator = false := by
  obtain ⟨init, x, hps, htext, -⟩ := h.exists_last hne
  obtain ⟨lead, hlead⟩ := unsplit_concat (init.map (·.text)) x.text
  rw [Path.endsInSeparator, toList_ofPieces h.ne_root, hps, List.map_append, List.map_singleton, hlead,
    List.getLast?_append, List.getLast?_eq_some_getLast htext, Option.some_or, beq_eq_false_iff_ne]
  intro e
  exact not_mem_text (hmem x (by simp [hps])) (Option.some.inj e ▸ List.getLast_mem htext)

/-- Trimmed pieces that do not climb begin with a name. -/
theorem Trimmed.names_ne_nil {ps : List Piece} (h : Trimmed ps) (hup : Component.up ∉ ps.filterMap (·.component))
    (hne : ps ≠ []) : (ps.filterMap (·.component)).filterMap Component.name? ≠ [] := by
  obtain ⟨x, rest, hps⟩ := List.exists_cons_of_ne_nil hne
  obtain ⟨c, hc⟩ := Option.isSome_iff_exists.mp (h.first x (by rw [hps]; rfl))
  rw [hps, List.filterMap_cons_some hc] at hup ⊢
  rcases component_of_inner (h.inner x (by simp [hps])) hc with ⟨rfl, -⟩ | ⟨rfl, -⟩
  · exact absurd List.mem_cons_self hup
  · simp [Component.name?]

/-- Trimmed pieces that do not climb spell a path that leads down. -/
theorem Trimmed.descends {p : Path} {ps : List Piece} (h : Trimmed ps) (hmem : ∀ x ∈ ps, x ∈ p.pieces)
    (hup : Component.up ∉ ps.filterMap (·.component)) :
    Descends (ofPieces ps) ((ps.filterMap (·.component)).filterMap Component.name?) := by
  obtain ⟨hnames, hnoUp⟩ := filter_namesOf h.inner hup
  by_cases hne : ps = []
  · subst hne
    exact ⟨rfl, rfl, List.not_mem_nil, by simp [names, ofPieces, split], rfl, ⟨fun _ => rfl, fun _ => rfl⟩⟩
  obtain ⟨c, more, hslash, hmore⟩ := h.exists_head hmem hne
  have hmeaning := h.names_ne_nil hup hne
  refine ⟨?_, ?_, ?_, ?_, h.endsInSeparator hmem hne, ?_⟩
  · rw [isAbsolute, hmore, List.head?_cons, beq_eq_false_iff_ne]
    exact fun e => hslash (Option.some.inj e)
  · rw [names_ofPieces hmem, hnames]
  · rw [names_ofPieces hmem]
    exact hnoUp
  · rw [names_ofPieces hmem]
    exact h.getLast?_namesOf hne
  · constructor
    · intro e
      rw [e] at hmore
      cases hmore
    · exact fun e => absurd e hmeaning

/-- The part of a path below a root is spelled by trimmed pieces of the path, which mean
    what the path means behind the root. -/
theorem exists_trimmed_relativeTo {root p : Path} (h : p.startsWith root = true) (hroot : root.components ≠ []) :
    ∃ ps, p.relativeTo root = ofPieces ps ∧ Trimmed ps ∧ (∀ x ∈ ps, x ∈ p.pieces)
      ∧ ps.filterMap (·.component) = p.components.drop root.components.length := by
  have hspelled : ¬ (root.spelling.isEmpty = true ∨ ¬ p.startsWith root = true) := by
    rintro (he | he)
    · apply hroot
      have hs : root.spelling = "" := String.isEmpty_iff.mp he
      rw [components, pieces, hs]
      rfl
    · exact he h
  rw [relativeTo, if_neg hspelled]
  have hlen : root.components.length ≤ (p.pieces.filterMap (·.component)).length := by
    obtain ⟨rest, hrest⟩ := Path.startsWith_iff.mp h
    rw [show p.pieces.filterMap (·.component) = p.components from rfl, ← hrest, List.length_append]
    exact Nat.le_add_right _ _
  obtain ⟨pre, hpre, hprelen⟩ := dropComponents_append root.components.length p.pieces hlen
  generalize hrest : dropComponents root.components.length p.pieces = rest at hpre ⊢
  have hcut : p.components = pre.filterMap (·.component) ++ rest.filterMap (·.component) := by
    rw [components, hpre, List.filterMap_append]
  have hbelow : p.components.drop root.components.length = rest.filterMap (·.component) := by
    rw [hcut, ← hprelen, List.drop_left]
  -- The first component is among the pieces cut off, so all that is left is inner.
  have htail : ∀ x ∈ rest, x ∈ p.pieces.tail := by
    intro x hx
    cases pre with
    | nil => exact absurd (List.length_eq_zero_iff.mp hprelen.symm) hroot
    | cons y more =>
      rw [hpre, List.cons_append, List.tail_cons]
      exact List.mem_append_right _ hx
  have hmem : ∀ x ∈ trimEnd (rest.dropWhile (·.component.isNone)), x ∈ rest := fun x hx =>
    (List.dropWhile_sublist _).subset (mem_of_mem_trimEnd hx)
  refine ⟨_, rfl, ⟨fun x hx => inner_of_mem_tail (htail x (hmem x hx)), fun x hx => ?_, fun x hx => getLast?_trimEnd hx⟩,
    fun x hx => List.mem_of_mem_tail (htail x (hmem x hx)), ?_⟩
  · obtain ⟨blank, hblank, -⟩ := trimEnd_append (rest.dropWhile (·.component.isNone))
    have hhead : (rest.dropWhile (·.component.isNone)).head? = some x := by
      rw [hblank, List.head?_append, hx, Option.some_or]
    have hnot := List.head?_dropWhile_not (fun y : Piece => y.component.isNone) rest
    rw [hhead] at hnot
    simpa using hnot
  · rw [filterMap_trimEnd, filterMap_dropWhile_blank, hbelow]

/-- **The part of a path below its root leads down by the names below the root.** -/
theorem Encloses.descends {root p : Path} (h : root.Encloses p) (hroot : root.components ≠ []) :
    Descends (p.relativeTo root) (root.namesBelow p) := by
  obtain ⟨ps, hrelative, htrimmed, hmem, hcomponents⟩ := exists_trimmed_relativeTo h.1 hroot
  have hdescends := htrimmed.descends hmem (by
    rw [hcomponents]
    exact fun hup => h.2 (List.mem_of_mem_drop hup))
  rw [hcomponents] at hdescends
  rw [hrelative]
  exact hdescends

/-! ### Children -/

/-- A text that can name an entry of a directory. -/
def Proper (n : String) : Prop := n ≠ "" ∧ n ≠ "." ∧ n ≠ ".." ∧ '/' ∉ n.toList

instance (n : String) : Decidable (Proper n) := inferInstanceAs (Decidable (_ ∧ _))

theorem Proper.ofPiece? {n : String} (h : Proper n) : Component.ofPiece? n.toList = some (.name n) := by
  obtain ⟨h1, h2, h3, -⟩ := h
  have hnil : n.toList ≠ [] := fun e => h1 (String.toList_eq_nil_iff.mp e)
  have hdot : n.toList ≠ ['.'] := fun e => h2 (String.toList_inj.mp e)
  have hup : n.toList ≠ ['.', '.'] := fun e => h3 (String.toList_inj.mp e)
  rw [Component.ofPiece?, if_neg (by simp [hnil, hdot]), if_neg hup, String.ofList_toList]

theorem Proper.ne_nil {n : String} (h : Proper n) : n.toList ≠ [] := fun e =>
  h.1 (String.toList_eq_nil_iff.mp e)

theorem Proper.getLast?_ne {n : String} (h : Proper n) : n.toList.getLast? ≠ some '/' := fun hlast =>
  h.2.2.2 (List.mem_of_getLast? hlast)

/-- A name alone is a relative path. -/
theorem Proper.isAbsolute_mk {n : String} (h : Proper n) : (Path.mk n).isAbsolute = false := by
  rw [isAbsolute, beq_eq_false_iff_ne]
  intro hhead
  exact h.2.2.2 (List.mem_of_mem_head? (Option.mem_def.mpr hhead))

theorem Proper.names_mk {n : String} (h : Proper n) : (Path.mk n).names = [n] := by
  have hne : n.toList ≠ [] := h.ne_nil
  rw [names, split_of_not_mem h.2.2.2]
  simp [hne]

theorem Proper.endsInSeparator_mk {n : String} (h : Proper n) : (Path.mk n).endsInSeparator = false := by
  rw [endsInSeparator, beq_eq_false_iff_ne]
  exact h.getLast?_ne

/-- The component of the first piece, when `alone` says whether it is the only one. -/
def leadOf (first : List Char) (alone : Bool) : Option Component :=
  if first = [] then (if alone then none else some .root)
  else if first = ['.'] then some .here
  else Component.ofPiece? first

theorem components_of_split {p : Path} {first : List Char} {rest : List (List Char)}
    (h : split p.spelling.toList = first :: rest) :
    p.components = (leadOf first rest.isEmpty).toList ++ rest.filterMap Component.ofPiece? := by
  have hmap : (rest.map fun t => (⟨t, Component.ofPiece? t⟩ : Piece)).filterMap (·.component)
      = rest.filterMap Component.ofPiece? := by
    rw [List.filterMap_map]
    rfl
  simp only [components, pieces, h]
  change (⟨first, leadOf first rest.isEmpty⟩ :: _ : List Piece).filterMap (·.component) = _
  cases hlead : leadOf first rest.isEmpty with
  | none => simp only [List.filterMap_cons, hmap]; rfl
  | some c => simp only [List.filterMap_cons, hmap]; rfl

theorem proper_of_ofPiece? {t : List Char} {n : String} (h : Component.ofPiece? t = some (.name n)) (ht : '/' ∉ t) :
    Proper n := by
  rw [Component.ofPiece?] at h
  split at h
  · cases h
  · rename_i hblank
    rw [not_or] at hblank
    split at h
    · cases h
    · rename_i hup
      cases h
      refine ⟨fun e => hblank.1 (String.ofList_eq_empty_iff.mp e), fun e => hblank.2 ?_, fun e => hup ?_, ?_⟩
      · rw [← String.toList_ofList (l := t), e]
        rfl
      · rw [← String.toList_ofList (l := t), e]
        rfl
      · rwa [String.toList_ofList]

/-- The names that a path means can name entries. -/
theorem proper_of_mem_components {p : Path} {n : String} (h : Component.name n ∈ p.components) : Proper n := by
  obtain ⟨first, rest, hsplit⟩ := List.exists_cons_of_ne_nil (split_ne_nil p.spelling.toList)
  have hslash : ∀ t ∈ first :: rest, '/' ∉ t := fun t ht => not_mem_of_mem_split (hsplit ▸ ht)
  rw [components_of_split hsplit, List.mem_append] at h
  rcases h with h | h
  · have hlead := Option.mem_toList.mp h
    rw [leadOf] at hlead
    split at hlead
    · split at hlead
      · cases hlead
      · cases hlead
    · split at hlead
      · cases hlead
      · exact proper_of_ofPiece? hlead (hslash first List.mem_cons_self)
  · obtain ⟨t, ht, hpiece⟩ := List.mem_filterMap.mp h
    exact proper_of_ofPiece? hpiece (hslash t (List.mem_cons_of_mem _ ht))

theorem proper_fileName? {p : Path} {n : String} (h : p.fileName? = some n) : Proper n := by
  unfold fileName? at h
  split at h
  · rename_i hlast
    cases h
    exact proper_of_mem_components (List.mem_of_getLast? hlast)
  · cases h

theorem leadOf_proper {n : String} (h : Proper n) (alone : Bool) :
    leadOf n.toList alone = some (.name n) := by
  have hnil : n.toList ≠ [] := fun e => h.1 (String.toList_eq_nil_iff.mp e)
  have hdot : n.toList ≠ ['.'] := fun e => h.2.1 (String.toList_inj.mp e)
  rw [leadOf, if_neg hnil, if_neg hdot, h.ofPiece?]

theorem isEmpty_split (cs : List Char) : (split cs).isEmpty = false :=
  List.isEmpty_eq_false_iff.mpr (split_ne_nil cs)

theorem components_of_empty {p : Path} (h : p.spelling = "") : p.components = [] := by
  rw [components, pieces, h]
  rfl

/-- A path that does not begin with a dot or a separator goes on from another one, component
    by component. -/
theorem components_join (p : Path) {q : Path} (hq : q.isAbsolute = false)
    (hinner : q.components = (split q.spelling.toList).filterMap Component.ofPiece?) :
    (p.join q).components = p.components ++ q.components := by
  unfold join
  rw [if_neg (by rw [hq]; exact Bool.false_ne_true)]
  by_cases hempty : p.spelling.isEmpty = true
  · have hp : p.spelling = "" := String.isEmpty_iff.mp hempty
    rw [if_pos (.inl hempty), hp, String.empty_append, components_of_empty hp, List.nil_append]
  obtain ⟨first, rest, hsplit⟩ := List.exists_cons_of_ne_nil (split_ne_nil p.spelling.toList)
  rw [components_of_split hsplit, hinner]
  split
  · rename_i hend
    have hend := hend.resolve_left hempty
    obtain ⟨as, has⟩ := List.getLast?_eq_some_iff.mp hend
    -- The other path takes the place of the empty piece behind the last separator.
    rw [has, show as ++ ['/'] = as ++ '/' :: [] from rfl, split_append_cons] at hsplit
    obtain ⟨t, ts, hts⟩ := List.exists_cons_of_ne_nil (split_ne_nil as)
    rw [hts, List.cons_append, List.cons.injEq] at hsplit
    obtain ⟨rfl, rfl⟩ := hsplit
    have hjoined : split (Path.mk (p.spelling ++ q.spelling)).spelling.toList = t :: (ts ++ split q.spelling.toList) := by
      rw [String.toList_append, has, List.append_assoc]
      rw [show ['/'] ++ q.spelling.toList = '/' :: q.spelling.toList from rfl, split_append_cons, hts]
      rfl
    rw [components_of_split hjoined]
    have hlead : leadOf t (ts ++ split q.spelling.toList).isEmpty = leadOf t (ts ++ split []).isEmpty := by
      cases ts with
      | nil => rw [List.nil_append, List.nil_append, isEmpty_split, isEmpty_split]
      | cons u us => rfl
    have hblank : (split []).filterMap Component.ofPiece? = [] := rfl
    rw [hlead, List.filterMap_append, List.filterMap_append, hblank, List.append_nil, List.append_assoc]
  · have hjoined : split (Path.mk (p.spelling ++ "/" ++ q.spelling)).spelling.toList
        = first :: (rest ++ split q.spelling.toList) := by
      rw [String.toList_append, String.toList_append, List.append_assoc]
      rw [show "/".toList ++ q.spelling.toList = '/' :: q.spelling.toList from rfl, split_append_cons, hsplit]
      rfl
    rw [components_of_split hjoined]
    have hlead : leadOf first (rest ++ split q.spelling.toList).isEmpty = leadOf first rest.isEmpty := by
      unfold leadOf
      split
      · rename_i hfirst
        cases rest with
        | nil =>
          have hp := unsplit_split p.spelling.toList
          rw [hsplit, hfirst] at hp
          exact absurd (String.isEmpty_iff.mpr (String.toList_eq_nil_iff.mp hp.symm)) hempty
        | cons u more => rfl
      · rfl
    rw [hlead, List.filterMap_append, List.append_assoc]

/-- An entry of a directory has one more component than the directory. -/
theorem components_child (p : Path) {n : String} (h : Proper n) :
    (p.child n).components = p.components ++ [.name n] := by
  have hsplit : split (Path.mk n).spelling.toList = [n.toList] := split_of_not_mem h.2.2.2
  have hname : (Path.mk n).components = [.name n] := by
    rw [components_of_split hsplit, leadOf_proper h]
    rfl
  rw [child, components_join p h.isAbsolute_mk, hname]
  rw [hname, hsplit, List.filterMap_cons, h.ofPiece?]
  rfl

theorem filterMap_ofPiece?_text {ps : List Piece} (h : ∀ x ∈ ps, x.Inner) :
    (ps.map (·.text)).filterMap Component.ofPiece? = ps.filterMap (·.component) := by
  induction ps with
  | nil => rfl
  | cons x rest ih =>
    have hx : x.component = Component.ofPiece? x.text := h x List.mem_cons_self
    have hrest := ih fun y hy => h y (List.mem_cons_of_mem _ hy)
    rw [List.map_cons, List.filterMap_cons, List.filterMap_cons, hrest, hx]

/-- Trimmed pieces spell a path that goes on from another one and means what they mean. -/
theorem Trimmed.components_ofPieces {p : Path} {ps : List Piece} (h : Trimmed ps) (hmem : ∀ x ∈ ps, x ∈ p.pieces) :
    (ofPieces ps).isAbsolute = false
      ∧ (ofPieces ps).components = (split (ofPieces ps).spelling.toList).filterMap Component.ofPiece?
      ∧ (ofPieces ps).components = ps.filterMap (·.component) := by
  have hroot : ∀ x, ps = [x] → x.component ≠ some .root := by
    intro x hps hx
    rcases component_of_inner (h.inner x (by rw [hps]; exact List.mem_cons_self)) hx with ⟨he, -⟩ | ⟨he, -⟩
    · cases he
    · cases he
  cases hps : ps with
  | nil => exact ⟨rfl, rfl, rfl⟩
  | cons x rest =>
    rw [← hps]
    have hx : x ∈ ps := by rw [hps]; exact List.mem_cons_self
    have htext := h.text_ne hx (h.first x (by rw [hps]; rfl))
    have hsplit : split (ofPieces ps).spelling.toList = x.text :: rest.map (·.text) := by
      rw [toList_ofPieces hroot, split_unsplit (by rw [hps]; exact List.cons_ne_nil _ _) fun t ht => ?_, hps, List.map_cons]
      obtain ⟨y, hy, rfl⟩ := List.mem_map.mp ht
      exact not_mem_text (hmem y hy)
    have hinner : (x.text :: rest.map (·.text)).filterMap Component.ofPiece? = ps.filterMap (·.component) := by
      rw [← filterMap_ofPiece?_text h.inner, hps, List.map_cons]
    have hcomponents := components_of_split hsplit
    have hlead : leadOf x.text (rest.map (·.text)).isEmpty = Component.ofPiece? x.text := by
      rw [leadOf, if_neg htext.1, if_neg htext.2]
    have hcons : (x.text :: rest.map (·.text)).filterMap Component.ofPiece?
        = (Component.ofPiece? x.text).toList ++ (rest.map (·.text)).filterMap Component.ofPiece? := by
      cases hpiece : Component.ofPiece? x.text with
      | none => rw [List.filterMap_cons_none hpiece]; rfl
      | some c => rw [List.filterMap_cons_some hpiece]; rfl
    rw [hlead, ← hcons] at hcomponents
    refine ⟨?_, hsplit ▸ hcomponents, hcomponents.trans hinner⟩
    rw [Bool.eq_false_iff]
    intro habs
    -- An absolute path would begin with an empty piece.
    rw [isAbsolute, beq_iff_eq] at habs
    obtain ⟨cs, hcs⟩ := List.head?_eq_some_iff.mp habs
    rw [hcs, split, if_pos rfl, List.cons.injEq] at hsplit
    exact htext.1 hsplit.1.symm

/-- The part of a path below a root means what the path means behind the root. -/
theorem components_relativeTo {root p : Path} (h : p.startsWith root = true) (hroot : root.components ≠ []) :
    (p.relativeTo root).components = p.components.drop root.components.length := by
  obtain ⟨ps, hrelative, htrimmed, hmem, hcomponents⟩ := exists_trimmed_relativeTo h hroot
  rw [hrelative, (htrimmed.components_ofPieces hmem).2.2, hcomponents]

/-- Seen from another path, the part of a path below a root goes on from there. -/
theorem components_join_relativeTo (q : Path) {root p : Path} (h : p.startsWith root = true)
    (hroot : root.components ≠ []) :
    (q.join (p.relativeTo root)).components = q.components ++ p.components.drop root.components.length := by
  rw [← components_relativeTo h hroot]
  obtain ⟨ps, hrelative, htrimmed, hmem, -⟩ := exists_trimmed_relativeTo h hroot
  obtain ⟨habs, hinner, -⟩ := htrimmed.components_ofPieces hmem
  rw [hrelative]
  exact components_join q habs hinner

theorem startsWith_congr {p q r : Path} (h : p.same q = true) : p.startsWith r = q.startsWith r := by
  rw [startsWith, startsWith, same_iff.mp h]

/-- Of two roots of a path, one is below the other. -/
theorem startsWith_or_startsWith {p a b : Path} (ha : p.startsWith a = true) (hb : p.startsWith b = true) :
    a.startsWith b = true ∨ b.startsWith a = true := by
  rw [startsWith, List.isPrefixOf_iff_prefix] at ha hb
  rw [startsWith, startsWith, List.isPrefixOf_iff_prefix, List.isPrefixOf_iff_prefix]
  exact List.prefix_or_prefix_of_prefix hb ha

theorem startsWith_foldl_child (p : Path) {ns : List String} (h : ∀ n ∈ ns, Proper n) :
    (ns.foldl child p).startsWith p = true := by
  induction ns generalizing p with
  | nil => exact startsWith_refl p
  | cons n rest ih =>
    have hchild : (p.child n).startsWith p = true :=
      startsWith_iff.mpr ⟨[.name n], (components_child p (h n List.mem_cons_self)).symm⟩
    exact startsWith_trans (ih (p.child n) fun m hm => h m (List.mem_cons_of_mem _ hm)) hchild

theorem components_foldl_child (p : Path) {ns : List String} (h : ∀ n ∈ ns, Proper n) :
    (ns.foldl child p).components = p.components ++ ns.map .name := by
  induction ns generalizing p with
  | nil => simp
  | cons n rest ih =>
    rw [List.foldl_cons, ih _ fun m hm => h m (List.mem_cons_of_mem _ hm), components_child p (h n List.mem_cons_self)]
    simp

theorem getLast?_append_right {cs ds : List Char} (h : ds ≠ []) : (cs ++ ds).getLast? = ds.getLast? := by
  rw [List.getLast?_append, List.getLast?_eq_some_getLast h]
  rfl

/-- Names behind a separator, spelled with separators between them, are entries of directories. -/
theorem mk_intercalate {ns : List String} (h : ∀ n ∈ ns, Proper n) :
    Path.mk ("/" ++ String.intercalate "/" ns) = ns.foldl child ⟨"/"⟩ := by
  have hgo : ∀ (rest : List String) (acc : String), acc.toList ≠ [] → acc.toList.getLast? ≠ some '/' →
      (∀ n ∈ rest, Proper n) →
      Path.mk ("/" ++ String.intercalate "/" (acc :: rest)) = rest.foldl child ⟨"/" ++ acc⟩ := by
    intro rest
    induction rest with
    | nil =>
      intro acc _ _ _
      rw [String.intercalate_singleton]
      rfl
    | cons n rest ih =>
      intro acc hne hlast hrest
      have hn := hrest n List.mem_cons_self
      have hchild : child ⟨"/" ++ acc⟩ n = ⟨"/" ++ (acc ++ "/" ++ n)⟩ := by
        rw [child, join, if_neg (by rw [hn.isAbsolute_mk]; decide), if_neg]
        · rw [String.append_assoc, String.append_assoc, String.append_assoc]
        · rintro (hempty | hend)
          · rw [String.isEmpty_iff, String.append_eq_empty_iff] at hempty
            exact absurd hempty.1 (by decide)
          · apply hlast
            rw [← hend, String.toList_append, getLast?_append_right hne]
      rw [List.foldl_cons, hchild, String.intercalate_cons_cons, ← String.intercalate_cons_append]
      refine ih _ ?_ ?_ fun m hm => hrest m (List.mem_cons_of_mem _ hm)
      · simp
      · rw [String.toList_append, getLast?_append_right hn.ne_nil]
        exact hn.getLast?_ne
  cases ns with
  | nil => rfl
  | cons n rest =>
    have hn := h n List.mem_cons_self
    have hchild : child ⟨"/"⟩ n = ⟨"/" ++ n⟩ := by
      rw [child, join, if_neg (by rw [hn.isAbsolute_mk]; decide), if_pos (.inr (by decide))]
    rw [List.foldl_cons, hchild]
    exact hgo rest n hn.ne_nil hn.getLast?_ne fun m hm => h m (List.mem_cons_of_mem _ hm)

theorem spelling_child_ne (p : Path) {n : String} (hn : Proper n) : (p.child n).spelling ≠ "" := by
  have hnames : (p.child n).names = p.names ++ [n] := by rw [child, names_join _ hn.isAbsolute_mk, hn.names_mk]
  intro he
  rw [names, he] at hnames
  exact absurd (List.append_eq_nil_iff.mp hnames.symm).2 (List.cons_ne_nil n [])

/-- Going down by names adds these names to those of a path. -/
theorem names_foldl_child {p : Path} {ns : List String} (hp : p.spelling ≠ "") (h : ∀ n ∈ ns, Proper n) :
    (ns.foldl child p).names = p.names ++ ns ∧ (ns.foldl child p).isAbsolute = p.isAbsolute
      ∧ (ns ≠ [] → (ns.foldl child p).endsInSeparator = false) := by
  induction ns generalizing p with
  | nil => exact ⟨(List.append_nil _).symm, rfl, fun hne => absurd rfl hne⟩
  | cons n rest ih =>
    have hn := h n List.mem_cons_self
    obtain ⟨hrest, habs, hsep⟩ := ih (spelling_child_ne p hn) fun m hm => h m (List.mem_cons_of_mem _ hm)
    refine ⟨?_, habs.trans (isAbsolute_join hp hn.isAbsolute_mk), fun _ => ?_⟩
    · rw [List.foldl_cons, hrest, child, names_join _ hn.isAbsolute_mk, hn.names_mk, List.append_assoc]
      rfl
    · cases rest with
      | nil => exact (endsInSeparator_join hn.isAbsolute_mk hn.1).trans hn.endsInSeparator_mk
      | cons m more => exact hsep (List.cons_ne_nil _ _)

/-- A path that goes down from the root by names has these names for its steps. -/
theorem steps_foldl_child {ns : List String} (h : ∀ n ∈ ns, Proper n) (hne : ns ≠ []) :
    (ns.foldl child ⟨"/"⟩).steps = ns ∧ (ns.foldl child ⟨"/"⟩).isAbsolute = true := by
  obtain ⟨hnames, habs, hsep⟩ := names_foldl_child (p := ⟨"/"⟩) (by decide) h
  rw [steps, hsep hne, hnames]
  exact ⟨List.append_nil _, habs⟩

namespace Encloses

variable {root p : Path}

theorem refl {root : Path} (h : Component.up ∉ root.components) : root.Encloses root :=
  ⟨startsWith_refl root, h⟩

theorem child (h : root.Encloses p) {n : String} (hn : Proper n) : root.Encloses (p.child n) := by
  refine ⟨startsWith_trans (Path.startsWith_iff.mpr ⟨[.name n], (components_child p hn).symm⟩) h.1, ?_⟩
  rw [components_child p hn, List.mem_append, List.mem_singleton]
  rintro (hup | hup)
  · exact h.2 hup
  · cases hup

theorem foldl_child (h : root.Encloses p) {ns : List String} (hns : ∀ n ∈ ns, Proper n) :
    root.Encloses (ns.foldl Path.child p) := by
  induction ns generalizing p with
  | nil => exact h
  | cons n rest ih =>
    exact ih (h.child (hns n List.mem_cons_self)) fun m hm => hns m (List.mem_cons_of_mem _ hm)

theorem namesBelow_child (h : root.Encloses p) {n : String} (hn : Proper n) :
    root.namesBelow (p.child n) = root.namesBelow p ++ [n] := by
  obtain ⟨rest, hrest⟩ := Path.startsWith_iff.mp h.1
  rw [namesBelow, namesBelow, components_child p hn, ← hrest, List.append_assoc, List.drop_left,
    List.drop_left, List.filterMap_append]
  rfl

theorem namesBelow_foldl_child (h : root.Encloses p) {ns : List String} (hns : ∀ n ∈ ns, Proper n) :
    root.namesBelow (ns.foldl Path.child p) = root.namesBelow p ++ ns := by
  induction ns generalizing p with
  | nil => exact (List.append_nil _).symm
  | cons n rest ih =>
    have hn := hns n List.mem_cons_self
    rw [List.foldl_cons, ih (h.child hn) fun m hm => hns m (List.mem_cons_of_mem _ hm),
      h.namesBelow_child hn, List.append_assoc]
    rfl

/-- Names that are appended to the root are those below it. -/
theorem namesBelow_foldl_child_self (h : root.Encloses root) {ns : List String} (hns : ∀ n ∈ ns, Proper n) :
    root.namesBelow (ns.foldl Path.child root) = ns := by
  rw [h.namesBelow_foldl_child hns, namesBelow, List.drop_length]
  rfl

end Encloses

end LiveWorkspace.Path
