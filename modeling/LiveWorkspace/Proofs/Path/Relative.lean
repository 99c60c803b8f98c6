/-
  LiveWorkspace/Proofs/Path/Relative.lean
  =======================================
  **The part of a path below its start is spelled by names.**

  A path that goes down from a start by names ends in one piece for each of them
  (`pieces_foldl_child`).  Cutting off the start leaves just these pieces, whatever separators
  and dots the start was spelled with (`relativeTo_foldl_child`).  So the part below the start
  is the same for all spellings of the start, and grows at its end with each name.
-/
import LiveWorkspace.Proofs.Path

namespace LiveWorkspace.Path

variable {p : Path} {n : String} {ns ms : List String}

/-- The piece that a name is. -/
def Piece.ofName (n : String) : Piece := ⟨n.toList, some (.name n)⟩

@[simp] theorem Piece.ofName_component (n : String) : (Piece.ofName n).component = some (.name n) := rfl

theorem Proper.inner_ofName (h : Proper n) : (Piece.ofName n).Inner := h.ofPiece?.symm

theorem pieces_of_split {first : List Char} {rest : List (List Char)} (h : split p.spelling.toList = first :: rest) :
    p.pieces = ⟨first, leadOf first rest.isEmpty⟩ :: rest.map fun t => ⟨t, Component.ofPiece? t⟩ := by
  simp only [pieces, h]
  rfl

/-! ### Pieces of children -/

theorem pieces_child_of_separator (hend : p.endsInSeparator = true) :
    ∃ stem, p.pieces = stem ++ [⟨[], none⟩] ∧ ∀ n, Proper n → (p.child n).pieces = stem ++ [Piece.ofName n] := by
  rw [endsInSeparator, beq_iff_eq] at hend
  obtain ⟨as, has⟩ := List.getLast?_eq_some_iff.mp hend
  obtain ⟨first, rest, hsplit⟩ := List.exists_cons_of_ne_nil (split_ne_nil as)
  have hcut : split p.spelling.toList = first :: (rest ++ [[]]) := by
    rw [has, split_append_cons, hsplit]
    rfl
  refine ⟨⟨first, leadOf first false⟩ :: rest.map fun t => ⟨t, Component.ofPiece? t⟩, ?_, fun n hn => ?_⟩
  · rw [pieces_of_split hcut, List.map_append, List.isEmpty_eq_false_iff.mpr (by simp)]
    rfl
  · have hchild : split (p.child n).spelling.toList = first :: (rest ++ [n.toList]) := by
      rw [child, join, if_neg (by rw [hn.isAbsolute_mk]; decide), if_pos (.inr hend), String.toList_append, has,
        List.append_assoc, List.singleton_append, split_append_cons, hsplit, split_of_not_mem hn.2.2.2]
      rfl
    rw [pieces_of_split hchild, List.map_append, List.isEmpty_eq_false_iff.mpr (by simp), List.map_singleton,
      hn.ofPiece?]
    rfl

theorem pieces_child_of_no_separator (hp : p.spelling ≠ "") (hend : p.endsInSeparator = false) (hn : Proper n) :
    (p.child n).pieces = p.pieces ++ [Piece.ofName n] := by
  have hlist : p.spelling.toList ≠ [] := fun h => hp (String.toList_eq_nil_iff.mp h)
  rw [endsInSeparator, beq_eq_false_iff_ne] at hend
  obtain ⟨first, rest, hsplit⟩ := List.exists_cons_of_ne_nil (split_ne_nil p.spelling.toList)
  have hchild : split (p.child n).spelling.toList = first :: (rest ++ [n.toList]) := by
    have hempty : ¬ p.spelling.isEmpty = true := fun he => hp (String.isEmpty_iff.mp he)
    rw [child, join, if_neg (by rw [hn.isAbsolute_mk]; decide), if_neg (by simp [hempty, hend]), String.toList_append,
      String.toList_append, List.append_assoc]
    rw [show "/".toList ++ n.toList = '/' :: n.toList from rfl, split_append_cons, hsplit, split_of_not_mem hn.2.2.2]
    rfl
  -- An empty first piece is the root's, since something follows it already.
  have hlead : leadOf first (rest ++ [n.toList]).isEmpty = leadOf first rest.isEmpty := by
    unfold leadOf
    split
    · rename_i hfirst
      cases rest with
      | nil =>
        have hwhole := unsplit_split p.spelling.toList
        rw [hsplit, hfirst] at hwhole
        exact absurd hwhole.symm hlist
      | cons u more => rfl
    · rfl
  rw [pieces_of_split hchild, pieces_of_split hsplit, hlead, List.map_append, List.map_singleton, hn.ofPiece?]
  rfl

theorem pieces_foldl_child_of_no_separator (hp : p.spelling ≠ "") (hend : p.endsInSeparator = false)
    (h : ∀ n ∈ ns, Proper n) : (ns.foldl child p).pieces = p.pieces ++ ns.map Piece.ofName := by
  induction ns generalizing p with
  | nil => exact (List.append_nil _).symm
  | cons n rest ih =>
    have hn := h n List.mem_cons_self
    have hsep := endsInSeparator_join (p := p) hn.isAbsolute_mk hn.1
    rw [List.foldl_cons, ih (spelling_child_ne p hn) (hsep.trans hn.endsInSeparator_mk) fun m hm =>
      h m (List.mem_cons_of_mem _ hm), pieces_child_of_no_separator hp hend hn, List.append_assoc]
    rfl

/-- **What goes down by names ends in their pieces.** Only an empty piece at the end of the start
    has to give way. -/
theorem pieces_foldl_child (hp : p.spelling ≠ "") :
    ∃ stem blank, p.pieces = stem ++ blank ∧ (∀ x ∈ blank, x.component = none)
      ∧ ∀ ns, ns ≠ [] → (∀ n ∈ ns, Proper n) → (ns.foldl child p).pieces = stem ++ ns.map Piece.ofName := by
  cases hend : p.endsInSeparator with
  | false =>
    exact ⟨p.pieces, [], (List.append_nil _).symm, by simp, fun ns _ hns =>
      pieces_foldl_child_of_no_separator hp hend hns⟩
  | true =>
    obtain ⟨stem, hpieces, hchild⟩ := pieces_child_of_separator hend
    refine ⟨stem, [⟨[], none⟩], hpieces, by simp, fun ns hne hns => ?_⟩
    obtain ⟨n, rest, rfl⟩ := List.exists_cons_of_ne_nil hne
    have hn := hns n List.mem_cons_self
    have hsep := endsInSeparator_join (p := p) hn.isAbsolute_mk hn.1
    rw [List.foldl_cons, pieces_foldl_child_of_no_separator (spelling_child_ne p hn) (hsep.trans hn.endsInSeparator_mk)
      fun m hm => hns m (List.mem_cons_of_mem _ hm), hchild n hn, List.append_assoc]
    rfl

/-! ### What lies below the start -/

/-- Behind the last component of some pieces there are only such that mean nothing. -/
theorem dropComponents_stem (stem tail : List Piece) :
    ∃ blank, dropComponents (stem.filterMap (·.component)).length (stem ++ tail) = blank ++ tail
      ∧ ∀ x ∈ blank, x.component = none := by
  induction stem with
  | nil => exact ⟨[], by simp [dropComponents], by simp⟩
  | cons x rest ih =>
    obtain ⟨blank, hdrop, hblank⟩ := ih
    cases hx : x.component with
    | some c =>
      refine ⟨blank, ?_, hblank⟩
      rw [List.filterMap_cons_some hx, List.length_cons, List.cons_append, dropComponents, hx]
      exact hdrop
    | none =>
      rw [List.filterMap_cons_none hx, List.cons_append]
      cases hlen : (rest.filterMap (·.component)).length with
      | zero =>
        have hall := List.filterMap_eq_nil_iff.mp (List.length_eq_zero_iff.mp hlen)
        exact ⟨x :: rest, rfl, fun y hy => (List.mem_cons.mp hy).elim (fun h => h ▸ hx) (hall y)⟩
      | succ k =>
        rw [hlen] at hdrop
        refine ⟨blank, ?_, hblank⟩
        rw [dropComponents, hx]
        exact hdrop

theorem components_ne_nil (hp : p.spelling ≠ "") : p.components ≠ [] := by
  obtain ⟨first, rest, hsplit⟩ := List.exists_cons_of_ne_nil (split_ne_nil p.spelling.toList)
  have hlead : leadOf first rest.isEmpty ≠ none ∨ rest.filterMap Component.ofPiece? ≠ [] := by
    unfold leadOf
    by_cases hfirst : first = []
    · cases rest with
      | nil =>
        have hwhole := unsplit_split p.spelling.toList
        rw [hsplit, hfirst] at hwhole
        exact absurd (String.toList_eq_nil_iff.mp hwhole.symm) hp
      | cons u more => simp [hfirst]
    · rw [if_neg hfirst]
      by_cases hdot : first = ['.']
      · simp [hdot]
      · rw [if_neg hdot]
        left
        rw [Ne, Component.ofPiece?_eq_none_iff]
        simp [hfirst, hdot]
  rw [components_of_split hsplit]
  intro hnil
  obtain ⟨hfirst, hrest⟩ := List.append_eq_nil_iff.mp hnil
  rcases hlead with h | h
  · exact h (Option.toList_eq_nil_iff.mp hfirst)
  · exact h hrest

/-- **The part of a path below its start is spelled by the names that lead down to it.** -/
theorem relativeTo_foldl_child (hp : p.spelling ≠ "") (h : ∀ n ∈ ns, Proper n) :
    (ns.foldl child p).relativeTo p = ofPieces (ns.map Piece.ofName) := by
  have hspelled : ¬ (p.spelling.isEmpty = true ∨ ¬ (ns.foldl child p).startsWith p = true) := by
    rintro (he | he)
    · exact hp (String.isEmpty_iff.mp he)
    · exact he (startsWith_foldl_child p h)
  rw [relativeTo, if_neg hspelled]
  obtain ⟨stem, blank, hpieces, hblank, hdown⟩ := pieces_foldl_child hp
  have hnone : blank.filterMap (·.component) = [] := List.filterMap_eq_nil_iff.mpr hblank
  have hlen : p.components.length = (stem.filterMap (·.component)).length := by
    rw [components, hpieces, List.filterMap_append, hnone, List.append_nil]
  rw [hlen]
  by_cases hne : ns = []
  · obtain ⟨more, hdrop, hmore⟩ := dropComponents_stem stem blank
    have hall : ∀ x ∈ more ++ blank, x.component.isNone = true := fun x hx =>
      Option.isNone_iff_eq_none.mpr ((List.mem_append.mp hx).elim (hmore x) (hblank x))
    have hnil : (more ++ blank).dropWhile (·.component.isNone) = [] := by
      rw [← List.append_nil (more ++ blank), List.dropWhile_append_of_pos hall]
      rfl
    rw [hne, List.foldl_nil, hpieces, hdrop]
    dsimp only
    rw [hnil]
    rfl
  · obtain ⟨more, hdrop, hmore⟩ := dropComponents_stem stem (ns.map Piece.ofName)
    have hall : ∀ x ∈ more, x.component.isNone = true := fun x hx => Option.isNone_iff_eq_none.mpr (hmore x hx)
    have hkept : (ns.map Piece.ofName).dropWhile (·.component.isNone) = ns.map Piece.ofName := by
      cases ns with
      | nil => rfl
      | cons n rest => rfl
    have htrim : trimEnd (ns.map Piece.ofName) = ns.map Piece.ofName := by
      obtain ⟨init, n, rfl⟩ := (List.eq_nil_or_concat ns).resolve_left hne
      rw [trimEnd, List.concat_eq_append, List.map_append, List.reverse_append]
      simp
    rw [hdown ns hne h, hdrop]
    dsimp only
    rw [List.dropWhile_append_of_pos hall, hkept, htrim]

/-- Names that are pieces mean themselves and begin and end in one that means something. -/
theorem trimmed_map_ofName (h : ∀ n ∈ ns, Proper n) : Trimmed (ns.map Piece.ofName) where
  inner x hx := by
    obtain ⟨n, hn, rfl⟩ := List.mem_map.mp hx
    exact (h n hn).inner_ofName
  first x hx := by
    obtain ⟨n, -, rfl⟩ := List.mem_map.mp (List.mem_of_mem_head? hx)
    rfl
  last x hx := by
    obtain ⟨n, -, rfl⟩ := List.mem_map.mp (List.mem_of_getLast? hx)
    rfl

theorem filterMap_map_ofName (ns : List String) : (ns.map Piece.ofName).filterMap (·.component) = ns.map .name := by
  induction ns with
  | nil => rfl
  | cons n rest ih => rw [List.map_cons, List.filterMap_cons_some (Piece.ofName_component n), ih, List.map_cons]

/-- The spelling of names begins like that of fewer names. -/
theorem isPrefix_ofPieces_map_ofName (hpre : ns <+: ms) :
    (ofPieces (ns.map Piece.ofName)).spelling.toList <+: (ofPieces (ms.map Piece.ofName)).spelling.toList := by
  have hroot : ∀ ls : List String, ∀ x, ls.map Piece.ofName = [x] → x.component ≠ some .root := by
    intro ls x hx
    have hmem : x ∈ ls.map Piece.ofName := by rw [hx]; exact List.mem_singleton_self x
    obtain ⟨n, -, rfl⟩ := List.mem_map.mp hmem
    exact fun he => by cases he
  rw [toList_ofPieces (hroot ns), toList_ofPieces (hroot ms)]
  exact unsplit_prefix ((hpre.map _).map _)

/-- The part below the start leads down by the names. -/
theorem descends_foldl_child (hp : p.spelling ≠ "") (h : ∀ n ∈ ns, Proper n) :
    Descends ((ns.foldl child p).relativeTo p) ns := by
  by_cases hne : ns = []
  · rw [relativeTo_foldl_child hp h, hne]
    exact ⟨rfl, rfl, List.not_mem_nil, by decide, rfl, by decide⟩
  obtain ⟨stem, blank, -, -, hdown⟩ := pieces_foldl_child hp
  have hmem : ∀ x ∈ ns.map Piece.ofName, x ∈ (ns.foldl child p).pieces := fun x hx => by
    rw [hdown ns hne h]
    exact List.mem_append_right stem hx
  have hup : Component.up ∉ (ns.map Piece.ofName).filterMap (·.component) := by
    rw [filterMap_map_ofName]
    simp
  have hdescends := (trimmed_map_ofName h).descends hmem hup
  rwa [filterMap_map_ofName, filterMap_map_name, ← relativeTo_foldl_child hp h] at hdescends

/-- Different names lead down to different paths. -/
theorem foldl_child_inj (p : Path) (hns : ∀ n ∈ ns, Proper n) (hms : ∀ n ∈ ms, Proper n)
    (h : ns.foldl child p = ms.foldl child p) : ns = ms := by
  have hcomponents := congrArg components h
  rw [components_foldl_child p hns, components_foldl_child p hms] at hcomponents
  exact (List.map_inj_right fun _ _ => Component.name.inj).mp (List.append_cancel_left hcomponents)

end LiveWorkspace.Path
