/-
  LiveWorkspace/Proofs/Disk/Clear.lean
  ====================================
  **Disks on which look-ups can be found out by looking at the entries.**

  On a disk without links whose names can be spelled, a path leads where its names lead, and
  which directories are reached is seen from the entries alone.  All of this can be decided
  for a disk that is given.
-/
import LiveWorkspace.Proofs.Disk.Stock

namespace LiveWorkspace

/-! ### Disks without links -/

def Entry.isLink : Entry → Bool
  | .link _ => true
  | _ => false

/-- Text that names an entry can be spelled in a path. -/
def Name.isProper : Name → Bool
  | .text n => decide (Path.Proper n)
  | .octets _ => true

namespace Disk

/-- Paths can spell all names that are text, and there are no links. -/
def isClear (d : Disk) : Bool := d.entries.all fun x => x.1.all Name.isProper && !x.2.isLink

/-- Directories lead down by some names, to a directory. -/
def leads (d : Disk) (ns : List String) : Bool :=
  (List.range (ns.length + 1)).all (fun k => (d.get? ((ns.take k).map .text)).any Entry.isDirectory)
    && ns.all fun n => decide (n.utf8ByteSize ≤ maxName)

/-- No name that is text is too long. -/
def isShort (d : Disk) : Bool := d.entries.all fun x => x.1.all fun n => n.text?.all fun s => decide (s.utf8ByteSize ≤ maxName)

/-- The entries of a zone. -/
def within (d : Disk) (zone : Location) : List (Location × Entry) :=
  d.entries.filter fun x => zone.isPrefixOf x.1

variable {d d' : Disk} {zone loc : Location} {ns : List String}

theorem proper_of_clear (h : d.isClear = true) : d.Proper := by
  intro x hx n hn
  have hx := List.all_eq_true.mp h x hx
  rw [Bool.and_eq_true] at hx
  exact of_decide_eq_true (List.all_eq_true.mp hx.1 _ hn)

theorem get?_ne_link_of_clear (h : d.isClear = true) (loc : Location) (target : Path) :
    d.get? loc ≠ some (.link target) := by
  intro hget
  have hx := List.all_eq_true.mp h _ (mem_of_get? hget)
  rw [Bool.and_eq_true] at hx
  cases hx.2

theorem directory_of_leads (h : d.leads ns = true) {m : List String} (hm : m <+: ns) :
    ∃ mode, d.get? (m.map .text) = some (.directory mode) := by
  rw [leads, Bool.and_eq_true, List.all_eq_true] at h
  have hdir := h.1 m.length (List.mem_range.mpr (Nat.lt_succ_of_le hm.length_le))
  rw [← List.prefix_iff_eq_take.mp hm, Option.any_eq_true] at hdir
  obtain ⟨e, hget, he⟩ := hdir
  cases e with
  | directory mode => exact ⟨mode, hget⟩
  | file content mode => cases he
  | link target => cases he

/-- Directories that lead down are reached. -/
theorem reach_of_leads (h : d.leads ns = true) : d.Reach [] ns := by
  suffices hall : ∀ rest done : List String, ns = done ++ rest → d.Reach (done.map .text) rest from hall ns [] rfl
  have hsizes := h
  rw [leads, Bool.and_eq_true, List.all_eq_true (l := ns)] at hsizes
  intro rest
  induction rest with
  | nil => exact fun _ _ => trivial
  | cons n rest ih =>
    intro done hns
    refine ⟨directory_of_leads h ⟨n :: rest, hns.symm⟩, ?_, ?_⟩
    · exact of_decide_eq_true (hsizes.2 n (by simp [hns]))
    · have hrest := ih (done ++ [n]) (by rw [hns, List.append_assoc]; rfl)
      rwa [List.map_append] at hrest

theorem plain_of_clear (hclear : d.isClear = true) (h : d.leads ns = true) (hproper : ∀ n ∈ ns, Path.Proper n) :
    d.Plain ns :=
  ⟨hproper, fun _ hm => directory_of_leads h hm, fun loc target _ => get?_ne_link_of_clear hclear loc target⟩

theorem short_of_get? (h : d.isShort = true) (hget : d.get? loc ≠ none) {n : String} (hn : Name.text n ∈ loc) :
    n.utf8ByteSize ≤ maxName := by
  obtain ⟨e, he⟩ := Option.ne_none_iff_exists'.mp hget
  exact of_decide_eq_true (List.all_eq_true.mp (List.all_eq_true.mp h _ (mem_of_get? he)) _ hn)

/-- What is found lies in directories, so that names lead to it. -/
theorem Closed.reach (hclosed : d.Closed) (hshort : d.isShort = true) (hget : d.get? (loc ++ ns.map .text) ≠ none) :
    d.Reach loc ns := by
  induction ns generalizing loc with
  | nil => trivial
  | cons n rest ih =>
    refine ⟨hclosed.directory hget (by simp), short_of_get? hshort hget (by simp), ih ?_⟩
    rwa [append_map_cons] at hget

theorem get?_of_within_eq_nil (h : d.within zone = []) (hloc : zone <+: loc) : d.get? loc = none := by
  refine Option.eq_none_iff_forall_ne_some.mpr fun e he => ?_
  have hmem : (loc, e) ∈ d.within zone := List.mem_filter.mpr ⟨mem_of_get? he, List.isPrefixOf_iff_prefix.mpr hloc⟩
  rw [h] at hmem
  cases hmem

/-- Disks with the same entries in a zone show the same there. -/
theorem get?_of_within (h : d'.within zone = d.within zone) (hloc : zone <+: loc) : d'.get? loc = d.get? loc := by
  have hfind : ∀ d : Disk, d.get? loc = ((d.within zone).find? (·.1 == loc)).map (·.2) := by
    intro d
    simp only [get?, within, List.find?_filter]
    congr 2
    funext x
    by_cases hx : x.1 = loc
    · simp [hx, List.isPrefixOf_iff_prefix.mpr hloc]
    · simp [hx]
  rw [hfind d', hfind d, h]

end Disk

end LiveWorkspace
