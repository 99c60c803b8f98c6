/-
  LiveWorkspace/Proofs/Workspace/Agreement.lean
  =============================================
  **The replica has the text of every file that a workspace looks after.**

  Between two events this holds of all tracked files but those for which an editor's
  event still waits; within a handler it fails for a while of more.  So agreement is
  stated with its gaps: the paths whose copies may be out of date, those whose place in
  the replica has not been written to yet, and the names at which the replica is known
  to have no file (`Gaps`, `Agrees`).  Every small step of a handler opens gaps or
  closes them.

  A document whose path is not tracked waits for it (`Held`): its opening is not handled
  yet, or its path was let go and it is dropped next.
-/
import LiveWorkspace.Proofs.Checking
import LiveWorkspace.Proofs.Replica.Effects
import LiveWorkspace.Proofs.Text.Utf8

namespace LiveWorkspace

/-! ### Where a workspace is -/

/-- The root of a workspace and the site of its replica. -/
structure Premises where
  root : Path
  site : Site
  rooted : root.components ≠ []
  spelled : site.Spells site.dir []

namespace Premises

/-- The names that lead from the root to a path. -/
def names (m : Premises) (p : Path) : List String := m.root.namesBelow p

/-- The path of the copy of a path. -/
def copyOf (m : Premises) (p : Path) : Path := (Replica.mk m.site.dir).pathOf (p.relativeTo m.root)

variable {m : Premises} {p q : Path}

theorem spells_copyOf (h : m.root.Encloses p) : m.site.Spells (m.copyOf p) (m.names p) :=
  Site.spells_pathOf rfl m.spelled (h.descends m.rooted)

theorem names_eq_iff (hp : m.root.Encloses p) (hq : m.root.Encloses q) :
    m.names p = m.names q ↔ p.same q = true := (hp.same_iff hq m.rooted).symm

theorem names_prefix_iff (hp : m.root.Encloses p) (hq : m.root.Encloses q) :
    m.names p <+: m.names q ↔ q.startsWith p = true := (hq.startsWith_iff hp m.rooted).symm

end Premises

/-! ### Agreement with gaps -/

/-- Where agreement may fail: the paths whose copies may be out of date, the spellings
    whose copies have not been written yet, and names at which the replica has no file. -/
structure Gaps where
  stale : Path → Prop
  untried : Path → Prop
  gone : List String → Prop

namespace Gaps

/-- The copy of a path may be out of date. -/
def touch (g : Gaps) (p : Path) : Gaps := { g with stale := fun q => g.stale q ∨ q.same p = true }

/-- A path was taken up, and its copy has not been written yet. -/
def enter (g : Gaps) (p : Path) : Gaps :=
  { g.touch p with untried := fun q => g.untried q ∨ q = p }

/-- The documents of some paths, which are tracked no more, wait to be dropped. -/
def dropping (g : Gaps) (ps : List Path) : Gaps :=
  { g with untried := fun q => g.untried q ∨ ∃ r ∈ ps, q.same r = true }

/-- The copies at and below a path may be out of date. -/
def cover (g : Gaps) (p : Path) : Gaps :=
  { g with stale := fun q => g.stale q ∨ q.startsWith p = true }

/-- The copies at and below a path have been moved away: the replica has no file there. -/
def moved (g : Gaps) (m : Premises) (p : Path) : Gaps :=
  { g.cover p with gone := fun ns => m.names p <+: ns }

end Gaps

namespace Desk

/-- The text of a path's document. -/
def text? (d : Desk) (p : Path) : Option String := (d.shared.store.get? p).map (·.content)

theorem text?_congr (d : Desk) {p q : Path} (h : p.same q = true) : d.text? p = d.text? q := by
  rw [text?, text?, Store.get?_congr _ h]

/-- A path is looked after, or waits to be. -/
def Held (g : Gaps) (d : Desk) (p : Path) : Prop :=
  d.workspace.tracks p = true ∨ ∃ q, g.untried q ∧ q.same p = true

theorem Held.congr {g : Gaps} {d : Desk} {p q : Path} (h : Held g d p) (hsame : p.same q = true) :
    Held g d q := by
  rcases h with htracks | ⟨r, hr, hrp⟩
  · refine .inl ?_
    obtain ⟨r, hr, hrp⟩ := List.any_eq_true.mp htracks
    refine List.any_eq_true.mpr ⟨r, hr, ?_⟩
    rw [Path.same_congr hrp]
    exact hsame
  · refine .inr ⟨r, hr, ?_⟩
    rw [Path.same_congr hrp]
    exact hsame

/-- Octets show the text of a path's document. What an editor has open was written from its text,
    so that nothing but its octets is there; what was copied when the workspace was opened may hold
    octets that are no text. -/
def ShownBy (d : Desk) (p : Path) (bytes : Text.Bytes) : Prop :=
  d.text? p = some (Text.Utf8.decodeLossy bytes)
    ∧ (d.shared.store.isOpen p = true → Text.Utf8.encode (Text.Utf8.decodeLossy bytes) = bytes)

/-- It is the document that counts. -/
theorem ShownBy.of_get? {d d' : Desk} {p q : Path} {bytes : Text.Bytes} (h : d.ShownBy p bytes)
    (hget : d'.shared.store.get? q = d.shared.store.get? p) : d'.ShownBy q bytes := by
  refine ⟨?_, fun hopen => h.2 ?_⟩
  · rw [text?, hget]
    exact h.1
  · rwa [Store.isOpen, ← hget]

/-- What is written of a document shows its text. -/
theorem shownBy_encode {d : Desk} {p : Path} {content : String} (h : d.text? p = some content) :
    d.ShownBy p (Text.Utf8.encode content) := by
  rw [ShownBy, Text.Utf8.decodeLossy_encode]
  exact ⟨h, fun _ => rfl⟩

/-- The replica agrees with the documents of the tracked files, but for some gaps. -/
structure Agrees (m : Premises) (g : Gaps) (d : Desk) : Prop where
  root : d.workspace.root = m.root
  replica : d.workspace.replica.dir = m.site.dir
  stands : m.site.Stands d.shared.disk
  proper : d.shared.disk.Proper
  below : ∀ q ∈ d.workspace.tracked, m.root.Encloses q
  known : ∀ q ∈ d.workspace.tracked, d.shared.store.contains q = true
  owned : ∀ q, d.shared.store.contains q = true → m.root.Encloses q → Held g d q
  placed : ∀ p doc, d.shared.store.get? p = some doc → m.root.Encloses doc.path →
    doc.replica = m.copyOf doc.path
  sound : ∀ q, (q ∈ d.workspace.tracked ∨ ∃ doc, d.shared.store.get? q = some doc ∧ doc.path = q) →
    m.root.Encloses q → ¬ g.untried q → (m.copyOf q).flaw? = none
  copies : ∀ q ∈ d.workspace.tracked, ¬ g.stale q → ∃ bytes,
    m.site.HasFile d.shared.disk (m.names q) bytes ∧ d.ShownBy q bytes
  gone : ∀ ns, g.gone ns → ∀ bytes, ¬ m.site.FileAt d.shared.disk ns bytes

namespace Agrees

variable {m : Premises} {g g' : Gaps} {d : Desk} {p q : Path}

theorem replica_eq (h : Agrees m g d) : d.workspace.replica = ⟨m.site.dir⟩ := by
  rw [← h.replica]

theorem replicaPath_eq (h : Agrees m g d) (p : Path) : d.workspace.replicaPath p = m.copyOf p := by
  rw [Workspace.replicaPath, h.root, h.replica_eq]
  rfl

/-- More gaps, as far as they concern tracked files, are less agreement. -/
theorem mono (h : Agrees m g d) (hstale : ∀ q ∈ d.workspace.tracked, g.stale q → g'.stale q)
    (huntried : ∀ q, g.untried q → g'.untried q) (hgone : ∀ ns, g'.gone ns → g.gone ns) :
    Agrees m g' d where
  root := h.root
  replica := h.replica
  stands := h.stands
  proper := h.proper
  below := h.below
  known := h.known
  owned q hq hin := (h.owned q hq hin).imp_right fun ⟨r, hr, hsame⟩ => ⟨r, huntried r hr, hsame⟩
  placed := h.placed
  sound q hq hin hnot := h.sound q hq hin fun hu => hnot (huntried q hu)
  copies q hq hnot := h.copies q hq fun hs => hnot (hstale q hq hs)
  gone ns hns := h.gone ns (hgone ns hns)

theorem touch (h : Agrees m g d) (p : Path) : Agrees m (g.touch p) d :=
  h.mono (fun _ _ => .inl) (fun _ hu => hu) fun _ hn => hn

theorem enter (h : Agrees m g d) (p : Path) : Agrees m (g.enter p) d :=
  h.mono (fun _ _ => .inl) (fun _ => .inl) fun _ hn => hn

theorem cover (h : Agrees m g d) (p : Path) : Agrees m (g.cover p) d :=
  h.mono (fun _ _ => .inl) (fun _ hu => hu) fun _ hn => hn

/-! ### Changes of the replica -/

/-- A change that spares the copies that count and what is gone. -/
theorem spared {disk : Disk} {dirs files : List String → Prop} (h : Agrees m g d)
    (hspares : m.site.Spares dirs files d.shared.disk disk)
    (hcopies : ∀ q ∈ d.workspace.tracked, ¬ g.stale q →
      (∀ ms, ms <+: m.names q → ms ≠ m.names q → dirs ms) ∧ files (m.names q))
    (hgone : ∀ ns, g.gone ns → files ns) :
    Agrees m g { d with shared := { d.shared with disk := disk } } where
  root := h.root
  replica := h.replica
  stands := hspares.stands h.stands
  proper := hspares.proper h.proper
  below := h.below
  known := h.known
  owned := h.owned
  placed := h.placed
  sound := h.sound
  copies q hq hnot := by
    obtain ⟨bytes, hfile, htext⟩ := h.copies q hq hnot
    obtain ⟨hdirs, hfiles⟩ := hcopies q hq hnot
    exact ⟨bytes, hspares.hasFile h.stands hfile hdirs hfiles, htext⟩
  gone ns hns bytes hfile := h.gone ns hns bytes ((hspares.file ns bytes (hgone ns hns)).mp hfile)

/-- A change of one file, when its copy does not count. -/
theorem spared_file {disk : Disk} (h : Agrees m (g.touch p) d) (hp : m.root.Encloses p)
    (hspares : m.site.Spares Site.Everywhere (· ≠ m.names p) d.shared.disk disk)
    (hgone : ¬ g.gone (m.names p)) :
    Agrees m (g.touch p) { d with shared := { d.shared with disk := disk } } := by
  refine h.spared hspares (fun q hq hnot => ⟨fun _ _ _ => trivial, fun he => ?_⟩) fun ns hns he => ?_
  · exact hnot (.inr ((Premises.names_eq_iff (h.below q hq) hp).mp he))
  · exact hgone (he ▸ hns)

/-- A spelling is sound once something was done at its place in the replica. -/
theorem tried (h : Agrees m (g.enter p) d) (hheld : Held g d p) (hflaw : (m.copyOf p).flaw? = none) :
    Agrees m (g.touch p) d where
  root := h.root
  replica := h.replica
  stands := h.stands
  proper := h.proper
  below := h.below
  known := h.known
  owned q hq hin := by
    rcases h.owned q hq hin with htracks | ⟨r, hr | rfl, hsame⟩
    · exact .inl htracks
    · exact .inr ⟨r, hr, hsame⟩
    · exact hheld.congr hsame
  placed := h.placed
  sound q hq hin hnot := by
    by_cases he : q = p
    · rw [he]
      exact hflaw
    · exact h.sound q hq hin fun hu => hu.elim hnot he
  copies := h.copies
  gone := h.gone

/-- The copy of a path counts again when it has the document's text. -/
theorem filled {bytes : Text.Bytes} (h : Agrees m (g.touch p) d) (hp : m.root.Encloses p)
    (hfile : m.site.HasFile d.shared.disk (m.names p) bytes)
    (htext : d.ShownBy p bytes) : Agrees m g d where
  root := h.root
  replica := h.replica
  stands := h.stands
  proper := h.proper
  below := h.below
  known := h.known
  owned := h.owned
  placed := h.placed
  sound := h.sound
  copies q hq hnot := by
    by_cases he : q.same p = true
    · rw [(Premises.names_eq_iff (h.below q hq) hp).mpr he]
      exact ⟨bytes, hfile, htext.of_get? (Store.get?_congr _ he)⟩
    · exact h.copies q hq fun hs => hs.elim hnot he
  gone := h.gone

/-- Others may change the disk as they like, but for the replica and the way to it. -/
theorem of_disk {disk : Disk} (h : Agrees m g d) (hstands : m.site.Stands disk) (hproper : disk.Proper)
    (hzone : ∀ loc, m.site.zone <+: loc → disk.get? loc = d.shared.disk.get? loc) :
    Agrees m g { d with shared := { d.shared with disk := disk } } where
  root := h.root
  replica := h.replica
  stands := hstands
  proper := hproper
  below := h.below
  known := h.known
  owned := h.owned
  placed := h.placed
  sound := h.sound
  copies q hq hnot := by
    obtain ⟨bytes, ⟨hreach, mode, hget⟩, htext⟩ := h.copies q hq hnot
    refine ⟨bytes, ⟨hreach.congr hstands ?_, mode, ?_⟩, htext⟩
    · rintro ms - - ⟨mode', hdir⟩
      refine ⟨mode', ?_⟩
      rw [hzone _ (Site.zone_prefix_place _ ms), hdir]
    · rw [hzone _ (Site.zone_prefix_place _ _), hget]
  gone ns hns bytes hfile := by
    obtain ⟨mode, hget⟩ := hfile
    rw [hzone _ (Site.zone_prefix_place _ ns)] at hget
    exact h.gone ns hns bytes ⟨mode, hget⟩

/-- Names at which no file was found are known to have none. -/
theorem lacking {gone : List String → Prop} (h : Agrees m g d)
    (hgone : ∀ ns, gone ns → ∀ bytes, ¬ m.site.FileAt d.shared.disk ns bytes) :
    Agrees m { g with gone := gone } d := { h with owned := h.owned, gone := hgone }

/-! ### Changes of the store -/

/-- A document is entered for a path that has none. -/
theorem entered {store : Store} {doc : Document} (h : Agrees m g d)
    (hnew : d.shared.store.contains doc.path = false) (hstore : store = d.shared.store.insert doc)
    (hreplica : doc.replica = m.copyOf doc.path) :
    Agrees m (g.enter doc.path) { d with shared := { d.shared with store := store } } := by
  have hother : ∀ q ∈ d.workspace.tracked, doc.path.same q = false := by
    intro q hq
    rw [Bool.eq_false_iff]
    intro hsame
    have hin := h.known q hq
    rw [Store.contains, ← Store.get?_congr _ hsame] at hin
    rw [Store.contains, hin] at hnew
    cases hnew
  have hget : ∀ q ∈ d.workspace.tracked, store.get? q = d.shared.store.get? q := fun q hq => by
    rw [hstore, Store.get?_insert_of_not_same _ (hother q hq)]
  have hfound : ∀ q found, store.get? q = some found →
      d.shared.store.get? q = some found ∨ found = doc := by
    intro q found hq
    cases hsame : doc.path.same q with
    | false =>
      rw [hstore, Store.get?_insert_of_not_same _ hsame] at hq
      exact .inl hq
    | true =>
      rw [hstore, ← Store.get?_congr _ hsame, Store.get?_insert_self hnew] at hq
      exact .inr (Option.some.inj hq).symm
  refine ⟨h.root, h.replica, h.stands, h.proper, h.below, ?_, ?_, ?_, ?_, ?_, h.gone⟩
  · intro q hq
    rw [Store.contains, hget q hq]
    exact h.known q hq
  · intro q hq hin
    obtain ⟨found, hq⟩ := Option.isSome_iff_exists.mp hq
    rcases hfound q found hq with hold | rfl
    · refine (h.owned q (by rw [Store.contains, hold]; rfl) hin).imp_right ?_
      exact Exists.imp fun r hr => ⟨.inl hr.1, hr.2⟩
    · exact .inr ⟨_, .inr rfl, Store.same_of_get?_eq_some hq⟩
  · intro q found hq hin
    rcases hfound q found hq with hold | rfl
    · exact h.placed q found hold hin
    · exact hreplica
  · intro q hq hin hnot
    rcases hq with hq | ⟨found, hq, hpath⟩
    · exact h.sound q (.inl hq) hin fun hu => hnot (.inl hu)
    · rcases hfound q found hq with hold | rfl
      · exact h.sound q (.inr ⟨found, hold, hpath⟩) hin fun hu => hnot (.inl hu)
      · exact absurd (.inr hpath.symm) hnot
  · intro q hq hnot
    obtain ⟨bytes, hfile, htext⟩ := h.copies q hq fun hs => hnot (.inl hs)
    exact ⟨bytes, hfile, htext.of_get? (hget q hq)⟩

/-- A document is changed, and keeps its path and the path of its copy. -/
theorem revised {store : Store} {r : Revision} (h : Agrees m g d)
    (hstore : d.shared.store.revise? p r = .ok store) :
    Agrees m (g.touch p) { d with shared := { d.shared with store := store } } := by
  have hget := Store.get?_of_revise? hstore
  have hfound : ∀ q found, store.get? q = some found →
      ∃ old, d.shared.store.get? q = some old ∧ found.path = old.path ∧ found.replica = old.replica := by
    intro q found hq
    rw [hget q] at hq
    split at hq
    · obtain ⟨old, hold, rfl⟩ := Option.map_eq_some_iff.mp hq
      refine ⟨old, hold, Document.revise_path _ _ _, ?_⟩
      cases r <;> rfl
    · exact ⟨found, hq, rfl, rfl⟩
  have hcontains : ∀ q, store.contains q = d.shared.store.contains q := Store.contains_revise? hstore
  refine ⟨h.root, h.replica, h.stands, h.proper, h.below, ?_, ?_, ?_, ?_, ?_, h.gone⟩
  · intro q hq
    rw [hcontains q]
    exact h.known q hq
  · intro q hq hin
    rw [hcontains q] at hq
    exact h.owned q hq hin
  · intro q found hq hin
    obtain ⟨old, hold, hpath, hreplica⟩ := hfound q found hq
    rw [hpath] at hin ⊢
    rw [hreplica]
    exact h.placed q old hold hin
  · intro q hq hin hnot
    rcases hq with hq | ⟨found, hq, hpath⟩
    · exact h.sound q (.inl hq) hin hnot
    · obtain ⟨old, hold, hpath', -⟩ := hfound q found hq
      exact h.sound q (.inr ⟨old, hold, hpath' ▸ hpath⟩) hin hnot
  · intro q hq hnot
    have hsame : ¬ p.same q = true := fun hsame => hnot (.inr (by rw [Path.same_comm]; exact hsame))
    obtain ⟨bytes, hfile, htext⟩ := h.copies q hq fun hs => hnot (.inl hs)
    refine ⟨bytes, hfile, htext.of_get? ?_⟩
    rw [hget q, if_neg hsame]

/-- A document is changed, keeps its text as well, and is not opened. -/
theorem marked {store : Store} {r : Revision} (h : Agrees m g d)
    (hstore : d.shared.store.revise? p r = .ok store)
    (hr : ∀ doc, (Document.revise d.shared.store.encoding doc r).content = doc.content)
    (hopens : ∀ doc, (Document.revise d.shared.store.encoding doc r).isOpen = true → doc.isOpen = true) :
    Agrees m g { d with shared := { d.shared with store := store } } := by
  have h' := h.revised hstore
  have hget := Store.get?_of_revise? hstore
  have htext : ∀ q, Desk.text? { d with shared := { d.shared with store := store } } q = d.text? q := by
    intro q
    rw [text?, text?, hget q]
    split
    · rw [Option.map_map]
      exact congrArg (fun f => Option.map f _) (funext hr)
    · rfl
  have hopen : ∀ q, store.isOpen q = true → d.shared.store.isOpen q = true := by
    intro q
    rw [Store.isOpen, Store.isOpen, hget q]
    split
    · cases d.shared.store.get? q with
      | none => exact id
      | some doc => exact hopens doc
    · exact id
  refine ⟨h.root, h.replica, h.stands, h.proper, h.below, h'.known, h'.owned,
    h'.placed, h'.sound, fun q hq hnot => ?_, h.gone⟩
  obtain ⟨bytes, hfile, hshown⟩ := h.copies q hq hnot
  exact ⟨bytes, hfile, (htext q).trans hshown.1, fun hq => hshown.2 (hopen q hq)⟩

/-- A document that belongs to no tracked file is dropped, and does not wait any more. -/
theorem erased {untried : Path → Prop} (h : Agrees m g d)
    (hp : ∀ q ∈ d.workspace.tracked, p.same q = false)
    (huntried : ∀ q, g.untried q → untried q ∨ q.same p = true) :
    Agrees m { g with untried := untried }
      { d with shared := { d.shared with store := d.shared.store.erase p } } := by
  have hget : ∀ q ∈ d.workspace.tracked, (d.shared.store.erase p).get? q = d.shared.store.get? q :=
    fun q hq => Store.get?_erase_of_not_same _ (hp q hq)
  have hfound : ∀ q found, (d.shared.store.erase p).get? q = some found →
      d.shared.store.get? q = some found ∧ p.same q = false := by
    intro q found hq
    cases hsame : p.same q with
    | false =>
      rw [Store.get?_erase_of_not_same _ hsame] at hq
      exact ⟨hq, rfl⟩
    | true =>
      rw [← Store.get?_congr _ hsame, Store.get?_erase_self] at hq
      cases hq
  refine ⟨h.root, h.replica, h.stands, h.proper, h.below, ?_, ?_, ?_, ?_, ?_, h.gone⟩
  · intro q hq
    rw [Store.contains, hget q hq]
    exact h.known q hq
  · intro q hq hin
    obtain ⟨found, hq⟩ := Option.isSome_iff_exists.mp hq
    obtain ⟨hold, hnot⟩ := hfound q found hq
    refine (h.owned q (by rw [Store.contains, hold]; rfl) hin).imp_right ?_
    rintro ⟨r, hr, hsame⟩
    rcases huntried r hr with hr | hr
    · exact ⟨r, hr, hsame⟩
    · rw [Path.same_congr hr, hnot] at hsame
      cases hsame
  · exact fun q found hq hin => h.placed q found (hfound q found hq).1 hin
  · intro q hq hin hnot
    rcases hq with hq | ⟨found, hq, hpath⟩
    · refine h.sound q (.inl hq) hin fun hu => (huntried q hu).elim hnot fun hsame => ?_
      rw [Path.same_comm, hp q hq] at hsame
      cases hsame
    · obtain ⟨hold, hother⟩ := hfound q found hq
      refine h.sound q (.inr ⟨found, hold, hpath⟩) hin fun hu => (huntried q hu).elim hnot fun hsame => ?_
      rw [Path.same_comm, hother] at hsame
      cases hsame
  · intro q hq hnot
    obtain ⟨bytes, hfile, hshown⟩ := h.copies q hq hnot
    exact ⟨bytes, hfile, hshown.of_get? (hget q hq)⟩

/-! ### Changes of what is tracked -/

theorem mem_track {w : Workspace} (h : q ∈ (w.track p).tracked) : q ∈ w.tracked ∨ q = p := by
  unfold Workspace.track at h
  split at h
  · exact .inl h
  · rcases List.mem_append.mp h with h | h
    · exact .inl h
    · exact .inr (List.mem_singleton.mp h)

/-- A path that has a document is tracked, and its copy does not count yet. -/
theorem tracked (h : Agrees m (g.enter p) d) (hp : m.root.Encloses p)
    (hin : d.shared.store.contains p = true) :
    Agrees m (g.enter p) { d with workspace := d.workspace.track p } where
  root := by
    rw [← h.root, Workspace.track]
    split <;> rfl
  replica := by
    rw [← h.replica, Workspace.track]
    split <;> rfl
  stands := h.stands
  proper := h.proper
  below q hq := by
    rcases mem_track hq with hq | rfl
    · exact h.below q hq
    · exact hp
  known q hq := by
    rcases mem_track hq with hq | rfl
    · exact h.known q hq
    · exact hin
  owned q hq hroot := by
    refine (h.owned q hq hroot).imp_left fun htracks => ?_
    rw [Workspace.tracks_track, htracks, Bool.true_or]
  placed := h.placed
  sound q hq hin hnot := by
    rcases hq with hq | hq
    · rcases mem_track hq with hq | rfl
      · exact h.sound q (.inl hq) hin hnot
      · exact absurd (.inr rfl) hnot
    · exact h.sound q (.inr hq) hin hnot
  copies q hq hnot := by
    rcases mem_track hq with hq | rfl
    · exact h.copies q hq hnot
    · exact absurd (.inr (Path.same_refl q)) hnot
  gone := h.gone

/-- What is tracked no more need not agree, and its document waits to be dropped. -/
theorem released (h : Agrees m g d) (p : Path) :
    Agrees m { g with untried := fun q => g.untried q ∨ q.same p = true }
      { d with workspace := d.workspace.release p } where
  root := h.root
  replica := h.replica
  stands := h.stands
  proper := h.proper
  below q hq := h.below q (List.mem_filter.mp hq).1
  known q hq := h.known q (List.mem_filter.mp hq).1
  owned q hq hin := by
    rcases h.owned q hq hin with htracks | ⟨r, hr, hsame⟩
    · cases hsame : p.same q with
      | false =>
        refine .inl ?_
        rw [Workspace.tracks_release, htracks, hsame]
        rfl
      | true => exact .inr ⟨q, .inr (by rw [Path.same_comm]; exact hsame), Path.same_refl q⟩
    · exact .inr ⟨r, .inl hr, hsame⟩
  placed := h.placed
  sound q hq hin hnot := by
    rcases hq with hq | hq
    · exact h.sound q (.inl (List.mem_filter.mp hq).1) hin fun hu => hnot (.inl hu)
    · exact h.sound q (.inr hq) hin fun hu => hnot (.inl hu)
  copies q hq hnot := h.copies q (List.mem_filter.mp hq).1 hnot
  gone := h.gone

end Agrees

end Desk

end LiveWorkspace
