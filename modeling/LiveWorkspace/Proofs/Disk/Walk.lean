/-
  LiveWorkspace/Proofs/Disk/Walk.lean
  ===================================
  **Walks, step by step and link by link.**

  What a step comes to does not depend on the walk that takes it (`stride`).  So a walk
  leads somewhere just if there is a way there, step by step and link by link
  (`walkLinks_eq_ok_iff`), and what holds of all walks is shown along their way: a walk goes
  on from the place that it leads to (`exists_walkLinks_append`), and a `.` at its end changes
  nothing where there is a directory.  Where there are no links, and nobody climbs, dots may
  be left out: the walk is then a plain `descend` by names, which succeeds exactly if each
  name but the last is that of a directory (`Reach`).
-/
import LiveWorkspace.Disk.Resolve

namespace LiveWorkspace

/-- The location that a walk ends at. -/
def Target.place : Target → Location
  | .present loc _ => loc
  | .absent dir name => dir ++ [name]

/-- What a walk finds at its end. -/
def Target.found : Target → Option Entry
  | .present _ e => some e
  | .absent .. => none

namespace Disk

/-! ### Single steps -/

/-- What a step of a walk comes to. -/
inductive Stride where
  | onward (loc : Location)
  | link (target : Path)
  | free

/-- What a step to a location comes to, given what is found there. -/
def Stride.to (loc : Location) : Option Entry → Stride
  | none => .free
  | some (.link target) => .link target
  | some _ => .onward loc

/-- Take a step from a location. -/
def stride (d : Disk) (loc : Location) (step : String) : Except OsError Stride :=
  match d.get? loc with
  | some (.directory _) =>
    if step = "." then .ok (.onward loc)
    else if step = ".." then .ok (.onward loc.dropLast)
    else (d.entryAt loc step).map (.to (loc ++ [.text step]))
  | some _ => .error .notDirectory
  | none => .error .notFound

/-- How a walk comes to its end when it follows `k` links at most. -/
inductive Walks (d : Disk) (follow : Bool) : (k : Nat) → Location → List String → Target → Prop where
  | here {k : Nat} {loc : Location} {e : Entry} (hget : d.get? loc = some e) : Walks d follow k loc [] (.present loc e)
  | onward {k : Nat} {loc loc' : Location} {step : String} {rest : List String} {t : Target}
      (hstride : d.stride loc step = .ok (.onward loc')) (hrest : Walks d follow k loc' rest t) :
      Walks d follow k loc (step :: rest) t
  | free {k : Nat} {loc : Location} {step : String} (hstride : d.stride loc step = .ok .free) :
      Walks d follow k loc [step] (.absent loc (.text step))
  | link {k : Nat} {loc : Location} {step : String} {target : Path} (hstride : d.stride loc step = .ok (.link target))
      (hfollow : follow = false) : Walks d follow k loc [step] (.present (loc ++ [.text step]) (.link target))
  | behind {k : Nat} {loc : Location} {step : String} {rest : List String} {target : Path} {t : Target}
      (hstride : d.stride loc step = .ok (.link target)) (hgo : ¬ (rest.isEmpty ∧ follow = false))
      (hnext : Walks d follow k (if target.isAbsolute then [] else loc) (target.steps ++ rest) t) :
      Walks d follow (k + 1) loc (step :: rest) t

variable {d : Disk} {loc loc' l : Location} {e : Entry} {follow : Bool} {k : Nat} {t : Target} {target : Path}
  {step : String} {s rest : List String}

theorem le_of_entryAt {n : String} {found : Option Entry} (h : d.entryAt loc n = .ok found) :
    n.utf8ByteSize ≤ maxName ∧ d.get? (loc ++ [.text n]) = found := by
  unfold entryAt at h
  split at h
  · cases h
  · rename_i hlen
    exact ⟨Nat.le_of_not_lt hlen, Except.ok.inj h⟩

theorem entryAt_of_le {n : String} (h : n.utf8ByteSize ≤ maxName) :
    d.entryAt loc n = .ok (d.get? (loc ++ [.text n])) := by
  rw [entryAt, if_neg (Nat.not_lt.mpr h)]

/-- Steps are taken in directories: a dot stays, two dots climb, and a name leads to what it is
    the name of. -/
theorem stride_eq_ok_iff {x : Stride} :
    d.stride loc step = .ok x ↔ (∃ mode, d.get? loc = some (.directory mode))
      ∧ ((step = "." ∧ x = .onward loc) ∨ (step = ".." ∧ x = .onward loc.dropLast)
        ∨ (step ≠ "." ∧ step ≠ ".." ∧ step.utf8ByteSize ≤ maxName
          ∧ x = .to (loc ++ [.text step]) (d.get? (loc ++ [.text step])))) := by
  constructor
  · intro h
    unfold stride at h
    split at h
    · rename_i mode hget
      refine ⟨⟨mode, hget⟩, ?_⟩
      split at h
      · exact .inl ⟨‹_›, (Except.ok.inj h).symm⟩
      split at h
      · exact .inr (.inl ⟨‹_›, (Except.ok.inj h).symm⟩)
      · cases hat : d.entryAt loc step with
        | error err => rw [hat] at h; cases h
        | ok found =>
          rw [hat] at h
          obtain ⟨hlen, rfl⟩ := le_of_entryAt hat
          exact .inr (.inr ⟨‹_›, ‹_›, hlen, (Except.ok.inj h).symm⟩)
    · cases h
    · cases h
  · rintro ⟨⟨mode, hget⟩, ⟨rfl, rfl⟩ | ⟨rfl, rfl⟩ | ⟨hdot, hup, hlen, rfl⟩⟩
    · rw [stride, hget]
      rfl
    · rw [stride, hget]
      rfl
    · simp only [stride, hget, if_neg hdot, if_neg hup, entryAt_of_le hlen]
      rfl

/-- A dot stays where it is. -/
theorem stride_dot {mode : Nat} (h : d.get? loc = some (.directory mode)) :
    d.stride loc "." = .ok (.onward loc) :=
  stride_eq_ok_iff.mpr ⟨⟨mode, h⟩, .inl ⟨rfl, rfl⟩⟩

theorem Stride.to_eq_onward_iff {found : Option Entry} :
    Stride.to l found = .onward loc' ↔ l = loc' ∧ found ≠ none ∧ ∀ target, found ≠ some (.link target) := by
  rcases found with _ | (_ | _ | _) <;> simp [Stride.to]

theorem Stride.to_eq_link_iff {found : Option Entry} :
    Stride.to l found = .link target ↔ found = some (.link target) := by
  rcases found with _ | (_ | _ | _) <;> simp [Stride.to]

theorem Stride.to_eq_free_iff {found : Option Entry} : Stride.to l found = .free ↔ found = none := by
  rcases found with _ | (_ | _ | _) <;> simp [Stride.to]

/-- A step that a walk goes on from is a dot, or climbs, or is the name of what is no link. -/
theorem stride_eq_onward (h : d.stride loc step = .ok (.onward loc')) :
    (step = "." ∧ loc' = loc) ∨ (step = ".." ∧ loc' = loc.dropLast)
      ∨ (step ≠ "." ∧ step ≠ ".." ∧ step.utf8ByteSize ≤ maxName ∧ loc' = loc ++ [.text step]
        ∧ d.get? loc' ≠ none ∧ ∀ target, d.get? loc' ≠ some (.link target)) := by
  obtain ⟨-, ⟨hdot, hx⟩ | ⟨hup, hx⟩ | ⟨hdot, hup, hlen, hx⟩⟩ := stride_eq_ok_iff.mp h
  · exact .inl ⟨hdot, Stride.onward.inj hx⟩
  · exact .inr (.inl ⟨hup, Stride.onward.inj hx⟩)
  · obtain ⟨rfl, hfound⟩ := Stride.to_eq_onward_iff.mp hx.symm
    exact .inr (.inr ⟨hdot, hup, hlen, rfl, hfound⟩)

theorem stride_eq_link (h : d.stride loc step = .ok (.link target)) :
    step ≠ "." ∧ step ≠ ".." ∧ step.utf8ByteSize ≤ maxName ∧ d.get? (loc ++ [.text step]) = some (.link target) := by
  obtain ⟨-, ⟨-, hx⟩ | ⟨-, hx⟩ | ⟨hdot, hup, hlen, hx⟩⟩ := stride_eq_ok_iff.mp h
  · cases hx
  · cases hx
  · exact ⟨hdot, hup, hlen, Stride.to_eq_link_iff.mp hx.symm⟩

theorem stride_eq_free (h : d.stride loc step = .ok .free) :
    step ≠ "." ∧ step ≠ ".." ∧ step.utf8ByteSize ≤ maxName ∧ d.get? (loc ++ [.text step]) = none := by
  obtain ⟨-, ⟨-, hx⟩ | ⟨-, hx⟩ | ⟨hdot, hup, hlen, hx⟩⟩ := stride_eq_ok_iff.mp h
  · cases hx
  · cases hx
  · exact ⟨hdot, hup, hlen, Stride.to_eq_free_iff.mp hx.symm⟩

/-! ### Walks -/

theorem walk_cons {onLink : Location → Path → List String → Except OsError Target} :
    d.walk follow onLink loc (step :: rest) = match d.stride loc step with
      | .error err => .error err
      | .ok (.onward loc') => d.walk follow onLink loc' rest
      | .ok (.link target) =>
        if rest.isEmpty ∧ follow = false then .ok (.present (loc ++ [.text step]) (.link target))
        else onLink loc target rest
      | .ok .free => if rest.isEmpty then .ok (.absent loc (.text step)) else .error .notFound := by
  rw [walk, stride]
  cases d.get? loc with
  | none => rfl
  | some found =>
    cases found with
    | file content mode => rfl
    | link target => rfl
    | directory mode =>
      dsimp only
      split
      · rfl
      split
      · rfl
      rcases d.entryAt loc step with err | (_ | (_ | _ | _)) <;> rfl

/-- What a walk does, step by step and link by link. -/
theorem walks_of_walk {onLink : Location → Path → List String → Except OsError Target}
    (hlink : ∀ loc step target rest, d.stride loc step = .ok (.link target) → ¬ (rest.isEmpty ∧ follow = false) →
      onLink loc target rest = .ok t → d.Walks follow k loc (step :: rest) t)
    (h : d.walk follow onLink loc s = .ok t) : d.Walks follow k loc s t := by
  induction s generalizing loc with
  | nil =>
    rw [walk] at h
    split at h
    · rename_i e hget
      cases h
      exact .here hget
    · cases h
  | cons step rest ih =>
    rw [walk_cons] at h
    split at h
    · cases h
    · rename_i hstride
      exact .onward hstride (ih h)
    · rename_i target hstride
      split at h
      · rename_i hend
        cases h
        rw [List.isEmpty_iff.mp hend.1]
        exact .link hstride hend.2
      · rename_i hgo
        exact hlink loc step target rest hstride hgo h
    · rename_i hstride
      split at h
      · rename_i hend
        cases h
        rw [List.isEmpty_iff.mp hend]
        exact .free hstride
      · cases h

theorem Walks.of_walkLinks (h : d.walkLinks follow k loc s = .ok t) : d.Walks follow k loc s t := by
  induction k generalizing loc s with
  | zero => exact walks_of_walk (fun _ _ _ _ _ _ herr => by cases herr) h
  | succ k ih => exact walks_of_walk (fun _ _ _ _ hstride hgo hnext => .behind hstride hgo (ih hnext)) h

/-- **A walk leads somewhere just if there is a way there**, step by step and link by link. -/
theorem walkLinks_eq_ok_iff : d.walkLinks follow k loc s = .ok t ↔ d.Walks follow k loc s t := by
  refine ⟨Walks.of_walkLinks, fun h => ?_⟩
  induction h with
  | @here k _ _ hget => cases k <;> rw [walkLinks, walk, hget]
  | @onward k _ _ _ _ _ hstride _ ih => cases k <;> rw [walkLinks, walk_cons, hstride] <;> exact ih
  | @free k _ _ hstride => cases k <;> rw [walkLinks, walk_cons, hstride] <;> rfl
  | @link k _ _ _ hstride hfollow =>
    cases k <;> rw [walkLinks, walk_cons, hstride] <;> exact if_pos ⟨rfl, hfollow⟩
  | behind hstride hgo _ ih =>
    rw [walkLinks, walk_cons, hstride]
    exact (if_neg hgo).trans ih

namespace Walks

/-- What a walk finds at its end is there. -/
theorem get?_place (h : d.Walks follow k loc s t) : d.get? t.place = t.found := by
  induction h with
  | here hget => exact hget
  | onward _ _ ih => exact ih
  | free hstride => exact (stride_eq_free hstride).2.2.2
  | link hstride _ => exact (stride_eq_link hstride).2.2.2
  | behind _ _ _ ih => exact ih

/-- Without steps a walk stays where it begins. -/
theorem eq_of_nil (h : d.Walks follow k loc [] (.present l e)) : loc = l := by
  cases h
  rfl

/-- No step of a walk that leads somewhere is too long. -/
theorem short (h : d.Walks follow k loc s t) : ∀ n ∈ s, n.utf8ByteSize ≤ maxName := by
  induction h with
  | here => exact fun n hn => absurd hn List.not_mem_nil
  | onward hstride _ ih =>
    refine List.forall_mem_cons.mpr ⟨?_, ih⟩
    obtain ⟨rfl, -⟩ | ⟨rfl, -⟩ | ⟨-, -, hlen, -⟩ := stride_eq_onward hstride
    · decide
    · decide
    · exact hlen
  | free hstride => exact List.forall_mem_singleton.mpr (stride_eq_free hstride).2.2.1
  | link hstride _ => exact List.forall_mem_singleton.mpr (stride_eq_link hstride).2.2.1
  | behind hstride _ _ ih =>
    exact List.forall_mem_cons.mpr ⟨(stride_eq_link hstride).2.2.1, fun n hn => ih n (List.mem_append_right _ hn)⟩

/-- A walk that does not follow its last name leads somewhere if one that does so does. -/
theorem exists_noFollow (h : d.Walks true k loc s (.present l e)) : ∃ l' e', d.Walks false k loc s (.present l' e') := by
  generalize ht : Target.present l e = t at h
  induction h with
  | here hget => exact ⟨_, _, .here hget⟩
  | onward hstride _ ih =>
    obtain ⟨l', e', hrest⟩ := ih ht
    exact ⟨l', e', .onward hstride hrest⟩
  | free => cases ht
  | link _ hfollow => cases hfollow
  | @behind k loc step rest target t hstride _ _ ih =>
    by_cases hlast : rest = []
    · subst hlast
      exact ⟨_, _, .link hstride rfl⟩
    · obtain ⟨l', e', hnext⟩ := ih ht
      exact ⟨l', e', .behind hstride (fun hend => hlast (List.isEmpty_iff.mp hend.1)) hnext⟩

/-- A `.` at the end of a walk may be left out. -/
theorem of_concat_dot (h : d.Walks true k loc (s ++ ["."]) (.present l e)) : d.Walks true k loc s (.present l e) := by
  generalize ht : Target.present l e = t at h
  generalize hs : s ++ ["."] = steps at h
  induction h generalizing s with
  | here => simp at hs
  | free => cases ht
  | link _ hfollow => cases hfollow
  | onward hstride hrest ih =>
    cases s with
    | nil =>
      obtain ⟨rfl, rfl⟩ := List.cons.inj hs
      obtain ⟨-, rfl⟩ | ⟨hup, -⟩ | ⟨hdot, -⟩ := stride_eq_onward hstride
      · exact hrest
      · exact absurd hup (by decide)
      · exact absurd rfl hdot
    | cons first more =>
      obtain ⟨rfl, hmore⟩ := List.cons.inj hs
      exact .onward hstride (ih ht hmore)
  | @behind k loc step rest target t hstride _ _ ih =>
    cases s with
    | nil =>
      obtain ⟨rfl, -⟩ := List.cons.inj hs
      exact absurd rfl (stride_eq_link hstride).1
    | cons first more =>
      obtain ⟨rfl, rfl⟩ := List.cons.inj hs
      exact .behind hstride (fun hend => by cases hend.2) (ih ht (List.append_assoc ..))

end Walks

/-- A walk goes on from the place that it leads to. -/
theorem exists_walkLinks_append {k : Nat} {s t : List String} (ht : t ≠ [])
    (h : d.walkLinks true k loc s = .ok (.present l e)) (follow : Bool) :
    ∃ k', d.walkLinks follow k loc (s ++ t) = d.walkLinks follow k' l t := by
  have hwalks := Walks.of_walkLinks h
  clear h
  generalize hend : Target.present l e = x at hwalks
  induction hwalks with
  | @here k =>
    cases hend
    exact ⟨k, rfl⟩
  | free => cases hend
  | link _ hfollow => cases hfollow
  | @onward k _ _ _ _ _ hstride _ ih =>
    obtain ⟨k', hk'⟩ := ih hend
    refine ⟨k', Eq.trans ?_ hk'⟩
    cases k <;> rw [walkLinks, List.cons_append, walk_cons, hstride]
  | @behind k _ _ rest _ _ hstride _ _ ih =>
    obtain ⟨k', hk'⟩ := ih hend
    have hgo : ¬ ((rest ++ t).isEmpty ∧ follow = false) := by simp [ht]
    rw [List.append_assoc] at hk'
    refine ⟨k', Eq.trans ?_ hk'⟩
    rw [walkLinks, List.cons_append, walk_cons, hstride]
    exact if_neg hgo

theorem walkLinks_of_append_dots {dots : List String} (hdots : ∀ x ∈ dots, x = ".")
    (h : d.walkLinks true k loc (s ++ dots) = .ok (.present l e)) :
    d.walkLinks true k loc s = .ok (.present l e) := by
  induction dots generalizing s with
  | nil => rwa [List.append_nil] at h
  | cons x rest ih =>
    rw [hdots x List.mem_cons_self, List.append_cons] at h
    have hrest := ih (fun y hy => hdots y (List.mem_cons_of_mem _ hy)) h
    exact walkLinks_eq_ok_iff.mpr (walkLinks_eq_ok_iff.mp hrest).of_concat_dot

theorem walkLinks_dot {mode : Nat} (h : d.get? l = some (.directory mode)) :
    d.walkLinks follow k l ["."] = .ok (.present l (.directory mode)) :=
  walkLinks_eq_ok_iff.mpr (.onward (stride_dot h) (.here h))

/-- A walk that leads somewhere says what is there. -/
theorem get?_of_walkLinks (h : d.walkLinks follow k loc s = .ok (.present l e)) : d.get? l = some e :=
  (walkLinks_eq_ok_iff.mp h).get?_place

/-- A path that leads somewhere is walked. -/
theorem walks_of_stat {p : Path} (h : d.stat p follow = .ok (l, e)) :
    p.flaw? = none ∧ d.Walks follow maxLinks (if p.isAbsolute then [] else d.workingDir) p.steps (.present l e) := by
  unfold stat resolve walkFrom at h
  cases hflaw : p.flaw? with
  | some err => rw [hflaw] at h; cases h
  | none =>
    simp only [hflaw] at h
    split at h
    · rename_i hwalk
      cases h
      exact ⟨rfl, walkLinks_eq_ok_iff.mp hwalk⟩
    · cases h
    · cases h

/-- A path that leads somewhere also does so when its last name is not followed. -/
theorem exists_stat_noFollow {p : Path} {x : Location × Entry} (h : d.stat p = .ok x) :
    ∃ y, d.stat p false = .ok y := by
  obtain ⟨hflaw, hwalks⟩ := walks_of_stat (l := x.1) (e := x.2) h
  obtain ⟨l', e', hno⟩ := hwalks.exists_noFollow
  refine ⟨(l', e'), ?_⟩
  rw [stat, resolve, walkFrom, hflaw]
  simp only [walkLinks_eq_ok_iff.mpr hno]

theorem get?_of_stat {p : Path} (h : d.stat p follow = .ok (l, e)) : d.get? l = some e :=
  (walks_of_stat h).2.get?_place

/-- Where a path leads somewhere, its names do. -/
theorem walkLinks_names_of_stat {p : Path} (h : d.stat p = .ok (l, e)) :
    p.flaw? = none
      ∧ d.walkLinks true maxLinks (if p.isAbsolute then [] else d.workingDir) p.names = .ok (.present l e) := by
  obtain ⟨hflaw, hwalks⟩ := walks_of_stat h
  refine ⟨hflaw, walkLinks_of_append_dots (fun x hx => ?_) (walkLinks_eq_ok_iff.mpr hwalks)⟩
  split at hx
  · exact List.mem_singleton.mp hx
  · cases hx

/-! ### Going down by names -/

/-- Go down from a location by names. -/
def descend (d : Disk) : Location → List String → Except OsError Target
  | loc, [] =>
    match d.get? loc with
    | some e => .ok (.present loc e)
    | none => .error .notFound
  | loc, n :: rest =>
    match d.get? loc with
    | some (.directory _) =>
      match d.entryAt loc n with
      | .error err => .error err
      | .ok none => if rest.isEmpty then .ok (.absent loc (.text n)) else .error .notFound
      | .ok (some _) => descend d (loc ++ [.text n]) rest
    | some _ => .error .notDirectory
    | none => .error .notFound

/-- Going down by a name is a step. -/
theorem descend_cons (hdot : step ≠ ".") (hup : step ≠ "..") :
    d.descend loc (step :: rest) = match d.stride loc step with
      | .error err => .error err
      | .ok .free => if rest.isEmpty then .ok (.absent loc (.text step)) else .error .notFound
      | .ok _ => d.descend (loc ++ [.text step]) rest := by
  rw [descend, stride]
  cases d.get? loc with
  | none => rfl
  | some found =>
    cases found with
    | file content mode => rfl
    | link target => rfl
    | directory mode =>
      simp only [if_neg hdot, if_neg hup]
      rcases d.entryAt loc step with err | (_ | (_ | _ | _)) <;> rfl

/-- No link is met on the way down by some names. -/
def Unlinked (d : Disk) (loc : Location) (ns : List String) : Prop :=
  ∀ m, m ≠ [] → m <+: ns → ∀ target, d.get? (loc ++ m.map .text) ≠ some (.link target)

theorem Unlinked.head {n : String} {ns : List String} (h : d.Unlinked loc (n :: ns)) (target : Path) :
    d.get? (loc ++ [.text n]) ≠ some (.link target) :=
  h [n] (List.cons_ne_nil _ _) ⟨ns, rfl⟩ target

theorem Unlinked.tail {n : String} {ns : List String} (h : d.Unlinked loc (n :: ns)) :
    d.Unlinked (loc ++ [.text n]) ns := by
  intro m hm hpre target
  rw [List.append_assoc]
  exact h (n :: m) (List.cons_ne_nil _ _) (List.cons_prefix_cons.mpr ⟨rfl, hpre⟩) target

section Dots

variable {onLink : Location → Path → List String → Except OsError Target}

/-- A dot in front of another step may be left out. -/
theorem walk_dot_cons (step : String) (rest : List String) :
    d.walk follow onLink loc ("." :: step :: rest) = d.walk follow onLink loc (step :: rest) := by
  rw [walk]
  cases hget : d.get? loc with
  | none => simp only [walk, hget]
  | some found =>
    cases found with
    | directory mode => simp only [if_true]
    | file content mode => simp only [walk, hget]
    | link target => simp only [walk, hget]

/-- Without its dots a walk that does not end in one is as empty as before. -/
theorem isEmpty_filter_dots (hlast : s.getLast? ≠ some ".") : (s.filter (· ≠ ".")).isEmpty = s.isEmpty := by
  by_cases hs : s = []
  · rw [hs]
    rfl
  · have hmem : s.getLast hs ∈ s.filter (· ≠ ".") := by
      refine List.mem_filter.mpr ⟨List.getLast_mem hs, ?_⟩
      rw [List.getLast?_eq_some_getLast hs] at hlast
      simpa using hlast
    rw [List.isEmpty_eq_false_iff.mpr hs, List.isEmpty_eq_false_iff]
    exact List.ne_nil_of_mem hmem

/-- Where nobody climbs and no link is met, a walk that does not end in a dot goes down
    by its names. -/
theorem walk_eq_descend (hup : ".." ∉ s) (hlast : s.getLast? ≠ some ".")
    (hplain : d.Unlinked loc (s.filter (· ≠ "."))) :
    d.walk follow onLink loc s = d.descend loc (s.filter (· ≠ ".")) := by
  induction s generalizing loc with
  | nil => rfl
  | cons step rest ih =>
    have hup' : ".." ∉ rest := fun h => hup (List.mem_cons_of_mem _ h)
    have hlast' : rest.getLast? ≠ some "." := by
      intro h
      apply hlast
      cases rest with
      | nil => cases h
      | cons next more => rwa [List.getLast?_cons_cons]
    by_cases hdot : step = "."
    · cases rest with
      | nil => exact absurd (by rw [hdot]; rfl) hlast
      | cons next more =>
        have hfilter : ("." :: next :: more).filter (· ≠ ".") = (next :: more).filter (· ≠ ".") :=
          List.filter_cons_of_neg (by decide)
        rw [hdot, hfilter] at hplain
        rw [hdot, walk_dot_cons, hfilter]
        exact ih hup' hlast' hplain
    have hfilter : (step :: rest).filter (· ≠ ".") = step :: rest.filter (· ≠ ".") :=
      List.filter_cons_of_pos (by simpa using hdot)
    have hne : step ≠ ".." := fun h => hup (h ▸ List.mem_cons_self)
    rw [hfilter] at hplain ⊢
    rw [walk_cons, descend_cons hdot hne, isEmpty_filter_dots hlast']
    rcases hstride : d.stride loc step with err | (loc' | target | _)
    · rfl
    · obtain ⟨hdot', -⟩ | ⟨hup', -⟩ | ⟨-, -, -, rfl, -⟩ := stride_eq_onward hstride
      · exact absurd hdot' hdot
      · exact absurd hup' hne
      · exact ih hup' hlast' hplain.tail
    · exact absurd (stride_eq_link hstride).2.2.2 (hplain.head target)
    · rfl

theorem walkLinks_eq_descend (hup : ".." ∉ s) (hlast : s.getLast? ≠ some ".")
    (hplain : d.Unlinked loc (s.filter (· ≠ "."))) :
    d.walkLinks follow k loc s = d.descend loc (s.filter (· ≠ ".")) := by
  cases k with
  | zero => exact walk_eq_descend hup hlast hplain
  | succ k => exact walk_eq_descend hup hlast hplain

/-- The directory that a walk ends in. -/
def dirOf : Except OsError Target → Except OsError Location
  | .ok (.present loc e) => if e.isDirectory then .ok loc else .error .notDirectory
  | .ok (.absent ..) => .error .notFound
  | .error err => .error err

/-- The slot of a path is its last name, in the directory that the other names lead to. -/
theorem slot_eq_map (d : Disk) (p : Path) : d.slot p = (dirOf (d.walkFrom p true p.names.dropLast)).map fun loc =>
    ⟨loc, p.names.getLast?.filter fun n => n ≠ "." ∧ n ≠ ".."⟩ := by
  rw [slot]
  cases d.walkFrom p true p.names.dropLast with
  | error err => rfl
  | ok target =>
    cases target with
    | absent dir name => rfl
    | present loc e =>
      simp only [dirOf]
      split <;> rfl

/-- Where there is no directory, neither a walk nor names end in one. -/
theorem dirOf_of_not_directory (h : ∀ mode, d.get? loc ≠ some (.directory mode)) (s ns : List String) :
    dirOf (d.walk follow onLink loc s) = dirOf (d.descend loc ns) := by
  cases hget : d.get? loc with
  | none => cases s <;> cases ns <;> simp only [walk, descend, hget]
  | some found =>
    cases found with
    | directory mode => exact absurd hget (h mode)
    | file content mode => cases s <;> cases ns <;> simp only [walk, descend, hget] <;> rfl
    | link target => cases s <;> cases ns <;> simp only [walk, descend, hget] <;> rfl

/-- For the directory that a walk ends in all dots may be left out. -/
theorem dirOf_walk (hup : ".." ∉ s) (hplain : d.Unlinked loc (s.filter (· ≠ "."))) :
    dirOf (d.walk follow onLink loc s) = dirOf (d.descend loc (s.filter (· ≠ "."))) := by
  induction s generalizing loc with
  | nil => rfl
  | cons step rest ih =>
    have hup' : ".." ∉ rest := fun h => hup (List.mem_cons_of_mem _ h)
    by_cases hnone : ∀ mode, d.get? loc ≠ some (.directory mode)
    · exact dirOf_of_not_directory hnone _ _
    obtain ⟨mode, hdir⟩ := Classical.not_forall_not.mp hnone
    by_cases hdot : step = "."
    · have hfilter : ("." :: rest).filter (· ≠ ".") = rest.filter (· ≠ ".") :=
        List.filter_cons_of_neg (by decide)
      rw [hdot, hfilter] at hplain ⊢
      rw [walk_cons, stride_dot hdir]
      exact ih hup' hplain
    have hfilter : (step :: rest).filter (· ≠ ".") = step :: rest.filter (· ≠ ".") :=
      List.filter_cons_of_pos (by simpa using hdot)
    have hne : step ≠ ".." := fun h => hup (h ▸ List.mem_cons_self)
    rw [hfilter] at hplain ⊢
    rw [walk_cons, descend_cons hdot hne]
    rcases hstride : d.stride loc step with err | (loc' | target | _)
    · rfl
    · obtain ⟨hdot', -⟩ | ⟨hup', -⟩ | ⟨-, -, -, rfl, -⟩ := stride_eq_onward hstride
      · exact absurd hdot' hdot
      · exact absurd hup' hne
      · exact ih hup' hplain.tail
    · exact absurd (stride_eq_link hstride).2.2.2 (hplain.head target)
    · dsimp only
      split <;> split <;> rfl

theorem dirOf_walkLinks (hup : ".." ∉ s) (hplain : d.Unlinked loc (s.filter (· ≠ "."))) :
    dirOf (d.walkLinks follow k loc s) = dirOf (d.descend loc (s.filter (· ≠ "."))) := by
  cases k with
  | zero => exact dirOf_walk hup hplain
  | succ k => exact dirOf_walk hup hplain

end Dots

/-! ### Where names lead -/

/-- All names but the last are those of directories, and none is too long. -/
def Reach (d : Disk) : Location → List String → Prop
  | _, [] => True
  | loc, n :: rest =>
    (∃ mode, d.get? loc = some (.directory mode)) ∧ n.utf8ByteSize ≤ maxName
      ∧ Reach d (loc ++ [.text n]) rest

theorem append_map_cons (loc : Location) (n : String) (rest : List String) :
    loc ++ (n :: rest).map Name.text = (loc ++ [.text n]) ++ rest.map Name.text := by
  rw [List.map_cons, List.append_cons]

/-- Names that are reached lead to what is there, be it that the last one is free. -/
theorem descend_eq_ok_iff {ns : List String} :
    d.descend loc ns = .ok t
      ↔ d.Reach loc ns ∧ t.place = loc ++ ns.map .text ∧ d.get? t.place = t.found ∧ (ns = [] → t.found ≠ none) := by
  induction ns generalizing loc with
  | nil =>
    rw [descend, List.map_nil, List.append_nil]
    constructor
    · intro h
      split at h
      · rename_i e hget
        cases h
        exact ⟨trivial, rfl, hget, fun _ hnone => by cases hnone⟩
      · cases h
    · rintro ⟨-, rfl, hget, hfound⟩
      cases t with
      | absent dir name => exact absurd rfl (hfound rfl)
      | present l e =>
        rw [Target.place, Target.found] at hget
        simp only [Target.place, hget]
  | cons n rest ih =>
    rw [descend, append_map_cons, Reach]
    constructor
    · intro h
      split at h
      · rename_i mode hget
        split at h
        · cases h
        · rename_i hat
          obtain ⟨hlen, hnone⟩ := le_of_entryAt hat
          split at h
          · rename_i hrest
            cases h
            rw [List.isEmpty_iff.mp hrest]
            exact ⟨⟨⟨mode, hget⟩, hlen, trivial⟩, (List.append_nil _).symm, hnone, fun hnil => by cases hnil⟩
          · cases h
        · rename_i hat
          obtain ⟨hreach, hplace, hfound, -⟩ := ih.mp h
          exact ⟨⟨⟨mode, hget⟩, (le_of_entryAt hat).1, hreach⟩, hplace, hfound, fun hnil => by cases hnil⟩
      · cases h
      · cases h
    · rintro ⟨⟨⟨mode, hget⟩, hlen, hreach⟩, hplace, hfound, -⟩
      simp only [hget, entryAt_of_le hlen]
      cases hat : d.get? (loc ++ [.text n]) with
      | some e =>
        refine ih.mpr ⟨hreach, hplace, hfound, fun hnil hnone => ?_⟩
        rw [hplace, hnil, List.map_nil, List.append_nil, hat, hnone] at hfound
        cases hfound
      | none =>
        -- Nothing is reached through a name that is free.
        cases rest with
        | cons m more =>
          obtain ⟨⟨mode', hdir⟩, -⟩ := hreach
          rw [hat] at hdir
          cases hdir
        | nil =>
          rw [List.map_nil, List.append_nil] at hplace
          rw [hplace, hat] at hfound
          cases t with
          | present l e => cases hfound
          | absent dir name =>
            obtain ⟨rfl, hname⟩ := List.append_inj' hplace rfl
            rw [(List.cons.inj hname).1]
            rfl

theorem descend_eq_present_iff {ns : List String} :
    d.descend loc ns = .ok (.present l e)
      ↔ d.Reach loc ns ∧ l = loc ++ ns.map .text ∧ d.get? l = some e :=
  descend_eq_ok_iff.trans (by simp [Target.place, Target.found])

theorem descend_eq_absent_iff {ns : List String} {dir : Location} {name : Name} :
    d.descend loc ns = .ok (.absent dir name)
      ↔ d.Reach loc ns ∧ ns ≠ [] ∧ dir ++ [name] = loc ++ ns.map .text
        ∧ d.get? (loc ++ ns.map .text) = none := by
  rw [descend_eq_ok_iff]
  constructor
  · rintro ⟨hreach, hplace, hfound, hne⟩
    exact ⟨hreach, fun hnil => hne hnil rfl, hplace, hplace ▸ hfound⟩
  · rintro ⟨hreach, hne, hplace, hnone⟩
    exact ⟨hreach, hplace, (congrArg d.get? hplace).trans hnone, fun hnil => absurd hnil hne⟩

theorem reach_append {ns ms : List String} :
    d.Reach loc (ns ++ ms) ↔ d.Reach loc ns ∧ d.Reach (loc ++ ns.map .text) ms := by
  induction ns generalizing loc with
  | nil =>
    rw [List.nil_append, List.map_nil, List.append_nil]
    exact ⟨fun h => ⟨trivial, h⟩, fun h => h.2⟩
  | cons n rest ih =>
    rw [List.cons_append, Reach, Reach, ih, append_map_cons, and_assoc, and_assoc]

/-- Whatever lies on the way is a directory. -/
theorem Reach.directory {ns ms : List String} (h : d.Reach loc (ns ++ ms)) (hms : ms ≠ []) :
    ∃ mode, d.get? (loc ++ ns.map .text) = some (.directory mode) := by
  obtain ⟨m, more, rfl⟩ := List.exists_cons_of_ne_nil hms
  exact (reach_append.mp h).2.1

/-- What is reached stays so while the directories on the way stay. -/
theorem Reach.congr {d' : Disk} {ns : List String} (h : d.Reach loc ns)
    (hdirs : ∀ m, m <+: ns → m ≠ ns → (∃ mode, d.get? (loc ++ m.map .text) = some (.directory mode)) →
      ∃ mode, d'.get? (loc ++ m.map .text) = some (.directory mode)) : d'.Reach loc ns := by
  induction ns generalizing loc with
  | nil => trivial
  | cons n rest ih =>
    obtain ⟨hdir, hlen, hrest⟩ := h
    have hhere := hdirs [] ⟨n :: rest, rfl⟩ (fun e => by cases e)
    rw [List.map_nil, List.append_nil] at hhere
    refine ⟨hhere hdir, hlen, ih hrest fun m hm hne hmode => ?_⟩
    have hnext := hdirs (n :: m) (List.cons_prefix_cons.mpr ⟨rfl, hm⟩) fun e => hne (List.cons.inj e).2
    rw [append_map_cons] at hnext
    exact hnext hmode

end Disk

end LiveWorkspace
