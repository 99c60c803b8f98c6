/-
  LiveWorkspace/Proofs/Watch/Deeds.lean
  =====================================
  **What others do to a tree, and what is told of it.**

  Others make, write, remove and rename what lies below the root of a workspace.  A deed that
  fails does nothing.  One that succeeds puts an entry at a place, leaves nothing at and below
  a place, or moves what is at a place to another one (`Site.Puts`, `Site.Cleared`,
  `Site.Moves`).  The operating system tells of it in the directories that have been handed to
  the watch, and in no other (`Deed.reports`).
-/
import LiveWorkspace.Proofs.Watch.Following

namespace LiveWorkspace

namespace Watch

/-! ### Deeds -/

/-- What others do below the root of a workspace, by the names below it. Nothing is done by
    giving an entry the names that it has. -/
inductive Deed where
  | makeDir (ns : List String)
  | create (ns : List String)
  | write (ns : List String) (content : Text.Bytes)
  | delete (ns : List String)
  | deleteTree (ns : List String)
  | rename (source target : List String) (h : source ≠ target)

/-- The path of what lies some names below a directory. -/
def pathBelow (root : Path) (ns : List String) : Path := ns.foldl Path.child root

namespace Deed

/-- The places that a deed is about. -/
def ends : Deed → List (List String)
  | .makeDir ns | .create ns | .write ns _ | .delete ns | .deleteTree ns => [ns]
  | .rename source target _ => [source, target]

/-- A file is only made where nothing is, and only written where it is. -/
def act (root : Path) : Deed → DiskOp Unit
  | .makeDir ns => Disk.makeDir (pathBelow root ns)
  | .create ns => fun d =>
    if d.hasPath (pathBelow root ns) then .error .alreadyExists d else Disk.write (pathBelow root ns) [] d
  | .write ns content => fun d =>
    if d.hasFile (pathBelow root ns) then Disk.write (pathBelow root ns) content d else .error .notFound d
  | .delete ns => fun d =>
    if d.hasDirectory (pathBelow root ns) then Disk.removeDir (pathBelow root ns) d
    else Disk.removeFile (pathBelow root ns) d
  | .deleteTree ns => Disk.removeTree (pathBelow root ns)
  | .rename source target _ => Disk.rename (pathBelow root source) (pathBelow root target)

/-- The disk after a deed, if it succeeds. -/
def disk? (root : Path) (what : Deed) (d : Disk) : Option Disk :=
  match what.act root d with
  | .ok _ d' => some d'
  | .error _ _ => none

/-! ### What is told -/

/-- What happens to an entry is told of in the directory that it lies in. -/
def Heard (root : Path) (handed : List Path) (ns : List String) : Prop := pathBelow root ns.dropLast ∈ handed

instance (root : Path) (handed : List Path) (ns : List String) : Decidable (Heard root handed ns) :=
  inferInstanceAs (Decidable (_ ∈ _))

/-- A change is reported with its paths if something is told of. -/
def report (told : Prop) [Decidable told] (c : Change) (paths : List Path) : List (Change × List Path) :=
  if told then [(c, paths)] else []

/-- What the operating system tells of a deed that succeeds, when some directories have been
    handed over. -/
def reports (root : Path) (handed : List Path) : Deed → List (Change × List Path)
  | .makeDir ns | .create ns => report (Heard root handed ns) .creation [pathBelow root ns]
  | .write ns _ => report (Heard root handed ns) .modification [pathBelow root ns]
  | .delete ns | .deleteTree ns => report (Heard root handed ns) .removal [pathBelow root ns]
  | .rename source target _ =>
    report (Heard root handed source) (.rename .old) [pathBelow root source]
      ++ report (Heard root handed target) (.rename .new) [pathBelow root target]
      ++ report (Heard root handed source ∧ Heard root handed target) (.rename .both)
        [pathBelow root source, pathBelow root target]

/-- The events that a deed gives rise to. -/
def events (root : Path) (handed : List Path) (what : Deed) : List Event :=
  (what.reports root handed).flatMap fun x => x.1.events x.2

/-- The notices that a follower has of a deed. -/
def notices (told : List String → Prop) [DecidablePred told] : Deed → List Notice
  | .makeDir ns | .create ns => tell (told ns) (.created ns)
  | .write ns _ => tell (told ns) (.written ns)
  | .delete ns | .deleteTree ns => tell (told ns) (.removed ns)
  | .rename source target _ => tellMove (told source) (told target) source target

variable {told told' : Prop} [Decidable told] [Decidable told'] {l l' : List (Change × List Path)}

theorem flatMap_report (c : Change) (paths : List Path) :
    (report told c paths).flatMap (fun x => x.1.events x.2) = if told then c.events paths else [] := by
  rw [report]
  split <;> simp

theorem map_tell {α : Type} (f : Notice → α) (e : Notice) : (tell told e).map f = if told then [f e] else [] := by
  rw [tell]
  split <;> simp

/-- **What a follower hears of is what the reports amount to.** -/
theorem events_eq (m : Layout) (handed : List Path) (what : Deed) :
    what.events m.root handed = (what.notices (Heard m.root handed)).map m.event := by
  cases what with
  | rename source target _ =>
    simp only [events, reports, notices, List.flatMap_append, flatMap_report, tellMove, List.map_append, map_tell]
    rfl
  | makeDir ns | create ns | write ns content | delete ns | deleteTree ns =>
    simp only [events, reports, notices, flatMap_report, map_tell]
    rfl

theorem tell_congr (h : told ↔ told') (e : Notice) : tell told e = tell told' e := by
  simp only [tell, h]

theorem tellMove_congr {old new old' new' : Prop} [Decidable old] [Decidable new] [Decidable old'] [Decidable new']
    (hold : old ↔ old') (hnew : new ↔ new') (source target : List String) :
    tellMove old new source target = tellMove old' new' source target := by
  simp only [tellMove, tell, hold, hnew]

/-- What is told of a deed is about its places. -/
theorem ends_of_mem_notices {heard : List String → Prop} [DecidablePred heard] {what : Deed} {e : Notice}
    {a : List String}
    (he : e ∈ what.notices heard) (ha : a ∈ e.ends) : a ∈ what.ends := by
  cases what with
  | rename source target _ =>
    rcases Notice.mem_ends ha with hd | hd
    · rw [(departs_of_mem_tellMove he hd).1]
      exact List.mem_cons_self
    · rw [(arrives_of_mem_tellMove he hd).1]
      exact List.mem_cons_of_mem _ List.mem_cons_self
  | makeDir ns | create ns | write ns content | delete ns | deleteTree ns =>
    rw [(mem_tell.mp he).2] at ha
    exact ha

/-- Notices are only given of what is heard. -/
theorem heard_of_mem_notices {heard : List String → Prop} [DecidablePred heard] {what : Deed} {e : Notice}
    {a : List String}
    (he : e ∈ what.notices heard) (ha : a ∈ e.ends) : heard a := by
  cases what with
  | rename source target _ =>
    rcases Notice.mem_ends ha with hd | hd
    · obtain ⟨rfl, hheard⟩ := departs_of_mem_tellMove he hd
      exact hheard
    · obtain ⟨rfl, hheard⟩ := arrives_of_mem_tellMove he hd
      exact hheard
  | makeDir ns | create ns | write ns content | delete ns | deleteTree ns =>
    obtain ⟨hheard, rfl⟩ := mem_tell.mp he
    exact List.mem_singleton.mp ha ▸ hheard

end Deed

end Watch

/-! ### What deeds do -/

namespace Site

variable {z : Site} {d d' : Disk} {p p' : Path} {q a b : List String} {t : Node} {e : Entry}

/-- An entry is put in a directory, where nothing was or a file is replaced by another one. -/
structure Puts (z : Site) (q : List String) (t : Node) (d d' : Disk) : Prop where
  tidy : z.Tidy d'
  outside : Disk.SameOutside z.zone d d'
  parent : q ≠ [] → z.node d q.dropLast = some .directory
  old : ∀ t₀, z.node d q = some t₀ → t₀.isDirectory = false ∧ t.isDirectory = false
  there : z.node d' q = some t
  kept : ∀ r, r ≠ q → z.node d' r = z.node d r

/-- An entry gets another place, where it replaces nothing or something of its kind that is
    empty. -/
structure Moves (z : Site) (a b : List String) (d d' : Disk) : Prop where
  tidy : z.Tidy d'
  outside : Disk.SameOutside z.zone d d'
  below : ¬ a <+: b
  above : ¬ b <+: a
  source : z.node d a ≠ none
  parent : b ≠ [] → z.node d b.dropLast = some .directory
  gone : ∀ r, a <+: r → z.node d' r = none
  there : z.node d' b ≠ none
  replaced : ∀ r t, b <+: r → z.node d r = some t → r = b ∧ ∃ t', z.node d' r = some t' ∧ t'.isDirectory = t.isDirectory
  kept : ∀ r, ¬ a <+: r → ¬ b <+: r → z.node d' r = z.node d r

namespace Tidy

theorem parent_of_reaches (hreach : z.Reaches d q) (hq : q ≠ []) : z.node d q.dropLast = some .directory := by
  rw [← List.dropLast_concat_getLast hq] at hreach
  exact node_eq_directory_iff.mpr (hreach.directoryAt (List.cons_ne_nil _ _))

theorem puts (h : z.Tidy d) (hp : z.Spells p q) (hreach : z.Reaches d q) (he : e.node? = some t)
    (hold : ∀ t₀, z.node d q = some t₀ → t₀.isDirectory = false ∧ t.isDirectory = false) :
    z.Puts q t d (d.insert (z.place q) e) where
  tidy := by
    refine h.insert hp hreach (fun target hlink => by simp [hlink, Entry.node?] at he) fun hdir => ?_
    cases (hold _ (node_eq_directory_iff.mpr hdir)).1
  outside := Disk.sameOutside_insert d (zone_prefix_place z q) e
  parent := parent_of_reaches hreach
  old := hold
  there := (node_insert_self e).trans he
  kept _ hr := node_insert_of_ne e hr

theorem puts_of_makeDir (h : z.Tidy d) (hp : z.Spells p q) {mode : Nat}
    (hok : (Disk.makeDir p mode : DiskOp Unit) d = .ok () d') : z.Puts q .directory d d' := by
  obtain ⟨loc, hslot, rfl⟩ := except_map_eq_ok.mp (change_eq_ok.mp hok)
  obtain ⟨hreach, rfl, hnone⟩ := h.stands.freeSlot_ok hp hslot
  refine h.puts hp hreach rfl fun t₀ ht₀ => ?_
  rw [h.node_eq_none_iff.mpr hnone] at ht₀
  cases ht₀

theorem puts_of_write (h : z.Tidy d) (hp : z.Spells p q) {content : Text.Bytes}
    (hok : (Disk.write p content : DiskOp Unit) d = .ok () d') : z.Puts q (.file content) d d' := by
  obtain ⟨⟨loc, mode?⟩, hslot, rfl⟩ := except_map_eq_ok.mp (change_eq_ok.mp hok)
  obtain ⟨hreach, rfl, hfile⟩ := h.stands.fileSlot_ok hp hslot
  refine h.puts hp hreach rfl fun t₀ ht₀ => ⟨?_, rfl⟩
  cases t₀ with
  | file bytes => rfl
  | directory =>
    obtain ⟨mode, hdir⟩ := node_eq_directory_iff.mp ht₀
    cases hfile _ hdir

theorem cleared_of_removeFile (h : z.Tidy d) (hp : z.Spells p q) {u : Unit}
    (hok : (Disk.removeFile p : DiskOp Unit) d = .ok u d') : z.Cleared q d d' ∧ z.node d q ≠ none := by
  refine ⟨?_, fun hnone => h.stands.found_of_removeFile hp hok (h.node_eq_none_iff.mp hnone)⟩
  rw [h.stands.removeFile_ok hp hok]
  exact cleared_erase h q

theorem cleared_of_removeDir (h : z.Tidy d) (hp : z.Spells p q) {u : Unit}
    (hok : (Disk.removeDir p : DiskOp Unit) d = .ok u d') : z.Cleared q d d' := by
  rw [h.stands.removeDir_ok hp hok]
  exact cleared_erase h q

theorem cleared_of_removeTree (h : z.Tidy d) (hp : z.Spells p q) {u : Unit} (hok : Disk.removeTree p d = .ok u d') :
    z.Cleared q d d' ∧ z.node d q ≠ none := by
  unfold Disk.removeTree at hok
  cases hstat : d.stat p false with
  | error err =>
    rw [hstat] at hok
    cases hok
  | ok x =>
    obtain ⟨loc, e⟩ := x
    obtain ⟨t, he, ht⟩ := h.stat_eq_ok hp hstat
    cases e with
    | link target => cases he
    | file content mode =>
      rw [hstat] at hok
      cases hok
    | directory mode =>
      cases he
      have hrun := h.stands.removeTree_eq hp (Disk.flaw?_of_stat hstat) (h.hasDirectory_iff.mpr ht)
      rw [Disk.removeTree] at hrun
      rw [hrun] at hok
      cases hok
      exact ⟨cleared_eraseBelow h q, by simp [ht]⟩

/-- What may be replaced is of the same kind, and nothing lies below it. -/
theorem replaceable_of_mayReplace (h : z.Tidy d) (hfree : d.mayReplace e (z.place b) = .ok ()) :
    (∀ t, z.node d b = some t → e.isDirectory = t.isDirectory) ∧ ∀ m, m ≠ [] → z.node d (b ++ m) = none := by
  unfold Disk.mayReplace at hfree
  cases hget : d.get? (z.place b) with
  | none =>
    have hnone := h.node_eq_none_iff.mpr hget
    refine ⟨fun t ht => by simp [hnone] at ht, fun m hm => ?_⟩
    exact (cleared_refl h hnone).gone _ (List.prefix_append b m)
  | some old =>
    rw [hget] at hfree
    have hnode : z.node d b = old.node? := by rw [node, hget, Option.bind_some]
    constructor
    · intro t ht
      rw [Entry.isDirectory_of_node? (hnode.symm.trans ht)]
      cases he : e.isDirectory <;> cases hold : old.isDirectory <;> simp [he, hold] at hfree ⊢
    · refine fun m hm => Classical.byContradiction fun hsome => ?_
      obtain ⟨mode, hdir⟩ := (h.reaches hsome).directoryAt hm
      rw [h.node_eq_none_iff, place_append] at hsome
      obtain ⟨below, hbelow⟩ := Option.ne_none_iff_exists'.mp hsome
      have hne := Disk.below_ne_nil hbelow (by simpa using hm)
      rw [hdir] at hget
      cases hget
      cases e <;> simp [Entry.isDirectory, hne] at hfree

theorem moves_of_rename (h : z.Tidy d) (hp : z.Spells p a) (hp' : z.Spells p' b) (hne : a ≠ b)
    (hok : (Disk.rename p p' : DiskOp Unit) d = .ok () d') : z.Moves a b d d' := by
  cases h.stands.diskRename_ok hp hp' hok with
  | same heq => exact absurd heq hne
  | moved e hsource hreach hproper hbelow habove hfree =>
    have hnode : z.node d a = e.node? := by rw [node, hsource, Option.bind_some]
    have hsome : z.node d a ≠ none := by simp [h.node_eq_none_iff, hsource]
    have htarget : ∀ m, z.node (d.move (z.place a) (z.place b)) (b ++ m) = z.node d (a ++ m) := node_move_target
    have hthere : z.node (d.move (z.place a) (z.place b)) b = z.node d a := by simpa using htarget []
    refine ⟨h.move hp' hreach hbelow, Disk.sameOutside_move d (zone_prefix_place z a) (zone_prefix_place z b),
      hbelow, habove,
      hsome, parent_of_reaches hreach, fun r hr => ?_, hthere ▸ hsome, ?_, fun r ha hb => node_move_of_not_prefix ha hb⟩
    · exact node_move_source hr fun hb => (List.prefix_or_prefix_of_prefix hr hb).elim hbelow habove
    · rintro r t ⟨m, rfl⟩ ht
      obtain ⟨hkind, hempty⟩ := h.replaceable_of_mayReplace hfree
      have hnil : m = [] := Classical.byContradiction fun hm => by simp [hempty m hm] at ht
      subst hnil
      rw [List.append_nil] at ht ⊢
      obtain ⟨t', ht'⟩ := Option.ne_none_iff_exists'.mp hsome
      refine ⟨rfl, t', hthere.trans ht', ?_⟩
      rw [← hkind t ht, Entry.isDirectory_of_node? (hnode.symm.trans ht')]

end Tidy

end Site

namespace Watch.Deed

variable {m : Layout} {d d' : Disk}

/-- What a deed does to a site. -/
def Does (z : Site) : Deed → Disk → Disk → Prop
  | .makeDir ns, d, d' => z.Puts ns .directory d d'
  | .create ns, d, d' => z.Puts ns (.file []) d d'
  | .write ns content, d, d' => z.Puts ns (.file content) d d'
  | .delete ns, d, d' | .deleteTree ns, d, d' => z.Cleared ns d d' ∧ z.node d ns ≠ none
  | .rename source target _, d, d' => z.Moves source target d d'

/-- **A deed that succeeds does what it is to do.** -/
theorem does (what : Deed) (h : m.original.Tidy d) (hends : ∀ a ∈ what.ends, ∀ n ∈ a, Path.Proper n)
    (hdisk : what.disk? m.root d = some d') : what.Does m.original d d' := by
  have hok : what.act m.root d = .ok () d' := by
    rw [disk?] at hdisk
    split at hdisk
    · rename_i heq
      rw [heq, Option.some.inj hdisk]
    · cases hdisk
  have hspells : ∀ a ∈ what.ends, m.original.Spells (pathBelow m.root a) a := fun a ha =>
    Layout.spells_path (hends a ha)
  cases what with
  | makeDir ns => exact h.puts_of_makeDir (hspells ns List.mem_cons_self) hok
  | create ns =>
    simp only [act] at hok
    split at hok
    · cases hok
    · exact h.puts_of_write (hspells ns List.mem_cons_self) hok
  | write ns content =>
    simp only [act] at hok
    split at hok
    · exact h.puts_of_write (hspells ns List.mem_cons_self) hok
    · cases hok
  | delete ns =>
    have hns := hspells ns List.mem_cons_self
    simp only [act] at hok
    split at hok
    · rename_i hdir
      refine ⟨h.cleared_of_removeDir hns hok, ?_⟩
      simp [h.hasDirectory_iff.mp (h.stands.hasDirectory_ok hns hdir)]
    · exact h.cleared_of_removeFile hns hok
  | deleteTree ns => exact h.cleared_of_removeTree (hspells ns List.mem_cons_self) hok
  | rename source target hne =>
    exact h.moves_of_rename (hspells source List.mem_cons_self) (hspells target (by simp [ends])) hne hok

namespace Does

variable {z : Site} {what : Deed}

theorem tidy (h : what.Does z d d') : z.Tidy d' := by
  cases what with
  | delete ns | deleteTree ns => exact h.1.tidy
  | makeDir ns | create ns | write ns content => exact Site.Puts.tidy h
  | rename source target _ => exact Site.Moves.tidy h

theorem outside (h : what.Does z d d') : Disk.SameOutside z.zone d d' := by
  cases what with
  | makeDir ns | create ns | write ns content => exact Site.Puts.outside h
  | delete ns | deleteTree ns => exact h.1.outside
  | rename source target _ => exact Site.Moves.outside h

/-- What lies neither at nor below the places of a deed is left as it is. -/
theorem kept (h : what.Does z d d') {q : List String} (hq : ∀ a ∈ what.ends, ¬ a <+: q) : z.node d' q = z.node d q := by
  cases what with
  | makeDir ns | create ns | write ns content =>
    exact Site.Puts.kept h q fun hqn => hq ns List.mem_cons_self (hqn ▸ List.prefix_rfl)
  | delete ns | deleteTree ns => exact h.1.kept q (hq ns List.mem_cons_self)
  | rename source target _ => exact Site.Moves.kept h q (hq source List.mem_cons_self) (hq target (by simp [ends]))

/-- What is told to have gone was there. -/
theorem departed (h : what.Does z d d') {heard : List String → Prop} [DecidablePred heard] {e : Notice}
    {a : List String}
    (he : e ∈ what.notices heard) (ha : e.departure? = some a) : z.node d a ≠ none := by
  cases what with
  | makeDir ns | create ns | write ns content =>
    rw [(mem_tell.mp he).2] at ha
    cases ha
  | delete ns | deleteTree ns =>
    rw [(mem_tell.mp he).2] at ha
    cases ha
    exact h.2
  | rename source target _ =>
    rw [(departs_of_mem_tellMove he ha).1]
    exact Site.Moves.source h

end Does

end Watch.Deed

end LiveWorkspace
