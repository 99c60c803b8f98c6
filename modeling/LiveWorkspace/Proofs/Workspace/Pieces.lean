/-
  LiveWorkspace/Proofs/Workspace/Pieces.lean
  ==========================================
  **What taking up a file, writing its copy and compiling do to the agreement.**

  Each piece of a handler has one triple, which says which gaps it opens and which it
  closes.  Taking a path up opens a gap for it (`Gaps.enter`), and writing its copy
  closes the gap again.  A compilation finds a gap or the text of the document
  (`Gaps.Fresh`): that it is issued in the middle of a handler does not matter, but for
  the gaps that are open there.
-/
import LiveWorkspace.Proofs.Workspace.Agreement
import LiveWorkspace.Proofs.Workspace.Triples

namespace LiveWorkspace

theorem Path.Encloses.congr {root p q : Path} (h : root.Encloses p) (hsame : p.same q = true) :
    root.Encloses q := by
  have hcomponents := Path.same_iff.mp hsame
  unfold Path.Encloses Path.startsWith at h ⊢
  rw [← hcomponents]
  exact h

namespace Gaps

/-- Gaps do not depend on how a path is spelled, and a copy that has not been written yet may
    be out of date. -/
structure Regular (g : Gaps) : Prop where
  congr : ∀ p q, p.same q = true → g.stale p → g.stale q
  untried : ∀ p, g.untried p → g.stale p

theorem Regular.moved {g : Gaps} (h : g.Regular) (m : Premises) (p : Path) : (g.moved m p).Regular where
  congr _ _ hsame hs := hs.imp (h.congr _ _ hsame) fun hstarts => by rwa [← Path.startsWith_congr hsame]
  untried q hu := .inl (h.untried q hu)

/-- What a compilation finds in the replica: the text that the document has, but where there
    is a gap, and nothing where the replica has no file. -/
def Fresh (m : Premises) (g : Gaps) (c : Compilation) : Prop :=
  m.root.Encloses c.request.path →
    (¬ g.stale c.request.path → ∃ bytes, c.input = some bytes ∧ Text.Utf8.decodeLossy bytes = c.text)
    ∧ (g.gone (m.names c.request.path) → c.input = none)

end Gaps

namespace Desk

variable {m : Premises} {t : Tally} {g : Gaps} {d : Desk} {p : Path} {S : Path → Prop}

/-- All tracked paths have a property. -/
def Among (S : Path → Prop) (d : Desk) : Prop := ∀ q ∈ d.workspace.tracked, S q

/-! ### Work that is calm -/

theorem Agrees.reported (h : Agrees m g d) (reports : List Report) :
    Agrees m g { d with shared := { d.shared with reports := reports } } := { h with owned := h.owned }

theorem Agrees.afterRead (h : Agrees m g d) (p : Path) :
    Agrees m g { d with shared := d.shared.afterRead p } := by
  unfold Shared.afterRead
  split
  · exact h
  · exact h.reported _

theorem agrees_calm (m : Premises) (g : Gaps) : Calm (Agrees m g) where
  shared _ :=
    { report := fun _ _ h => { h with owned := h.owned }
      publish := fun _ _ h => { h with owned := h.owned }
      mark := fun _ _ _ _ h hstore => h.marked hstore (fun _ => rfl) fun _ => id }
  config _ _ _ h := { h with owned := h.owned }

theorem among_calm (S : Path → Prop) : Calm (Among S) :=
  ⟨fun _ => ⟨fun _ _ h => h, fun _ _ h => h, fun _ _ _ _ h _ => h⟩, fun _ _ _ h => h⟩

/-- Agreement with gaps, of a desk whose tracked paths all have a property. -/
abbrev Holds (m : Premises) (g : Gaps) (S : Path → Prop) (d : Desk) : Prop := Agrees m g d ∧ Among S d

theorem holds_calm (m : Premises) (g : Gaps) (S : Path → Prop) : Calm (Holds m g S) :=
  (agrees_calm m g).and (among_calm S)

theorem Agrees.held (h : Agrees m g d) (hp : m.root.Encloses p)
    (hin : d.shared.store.contains p = true) : Held g d p := h.owned p hin hp

/-! ### Taking up a file -/

theorem track_does (hp : m.root.Encloses p) (hS : S p) :
    Does t (track p) (fun d => Holds m (g.enter p) S d ∧ d.shared.store.contains p = true)
      fun _ d => Holds m (g.enter p) S d ∧ d.shared.store.contains p = true
        ∧ d.workspace.tracks p = true := by
  refine Does.of_steady (Preserves.modify fun _ hd => hd) ?_
  rintro d ht ⟨⟨h, hamong⟩, hin⟩
  rw [track, wp_modify]
  refine .inr ⟨ht.of_workspace _, ⟨h.tracked hp hin, fun q hq => ?_⟩, hin, ?_⟩
  · rcases Agrees.mem_track hq with hq | rfl
    · exact hamong q hq
    · exact hS
  · rw [Workspace.tracks_track, Path.same_refl, Bool.or_true]

theorem reload_does (p : Path) :
    Does t (liftM (Shared.reload p) : Act Desk _)
      (fun d => Holds m g S d ∧ d.shared.store.contains p = true ∧ t.isOpen p = false)
      fun outcome d => outcome = .ok () ∧ Holds m (g.touch p) S d
        ∧ d.shared.store.contains p = true := by
  refine Does.of_steady ?_ ?_
  · exact (kept_spoilt t).grows.reload_keeps trivial
  · rintro d ht ⟨⟨h, hamong⟩, hin, hclosed⟩
    rw [wp_onShared, Shared.reload, wp_bind, Shared.wp_readText, Shared.wp_revise]
    refine ⟨fun store hstore => .inr ⟨?_, rfl, ⟨(h.afterRead p).revised hstore, hamong⟩, ?_⟩, fun hout => ?_⟩
    · refine (ht.afterRead p).of_store (Store.isOpen_of_revise? hstore fun doc hdoc => ?_)
      rw [← ht.opened, Store.isOpen, ← Shared.afterRead_store d.shared p, hdoc] at hclosed
      exact hclosed.symm
    · rw [Store.contains_revise? hstore, Shared.afterRead_store]
      exact hin
    · rw [Shared.afterRead_store, hin] at hout
      cases hout

/-- A document that is entered with the disk's text has no copy yet. -/
theorem openPath_does (p root replica : Path) :
    Does t (liftM (Shared.openPath p root false none replica) : Act Desk Bool)
      (fun d => Holds m g S d ∧ replica = m.copyOf p)
      fun isNew d => (if isNew then Holds m (g.enter p) S d else Holds m g S d)
        ∧ d.shared.store.contains p = true := by
  refine Does.of_steady (onShared_keeps fun _ => (Shared.kept_failed t.failures).openPath_keeps _ _ _ _) ?_
  intro d ht ⟨⟨h, hamong⟩, hreplica⟩
  rw [wp_onShared, Shared.wp_openPath]
  refine ⟨fun hin => .inr ⟨ht, ⟨h, hamong⟩, hin⟩, fun hout => .inr ?_⟩
  generalize hdoc : d.shared.entered p root false none replica = doc
  have hpath : doc.path = p := hdoc ▸ rfl
  have hclosed : doc.isOpen = false := hdoc ▸ rfl
  have hcopy : doc.replica = m.copyOf doc.path := by
    rw [hpath, ← hreplica, ← hdoc]
    rfl
  rw [← hpath] at hout ⊢
  have hentered : Agrees m (g.enter doc.path)
      { d with shared := { d.shared.afterRead doc.path with store := d.shared.store.insert doc } } := by
    refine (h.afterRead doc.path).entered ?_ ?_ hcopy
    · rwa [Shared.afterRead_store]
    · rw [Shared.afterRead_store]
  refine ⟨(ht.afterRead doc.path).of_store fun q => ?_, ⟨hentered, hamong⟩, ?_⟩
  · rw [Shared.afterRead_store]
    exact Store.isOpen_insert_closed hout hclosed q
  · rw [Store.contains, Store.get?_insert_self hout]
    rfl

/-- A path that is taken up has a document and is tracked; its copy has yet to be written. -/
theorem trackFile_does (hp : m.root.Encloses p) (hS : S p) :
    Does t (trackFile p) (Holds m g S) fun _ d => Holds m (g.enter p) S d
      ∧ d.shared.store.contains p = true ∧ d.workspace.tracks p = true := by
  rw [trackFile]
  refine Does.get_bind fun d₀ => Does.step (openPath_does (m := m) (g := g) (S := S) p _ _) ?_ fun isNew => ?_
  · rintro d - ⟨⟨h, hamong⟩, rfl⟩
    exact ⟨⟨h, hamong⟩, h.replicaPath_eq p⟩
  · refine Does.get_bind fun d₁ => Does.ite (fun hc => ?_) fun _ => (track_does hp hS).pre ?_
    · simp only [Bool.and_eq_true, Bool.not_eq_true'] at hc
      refine Does.step (reload_does (m := m) (g := g) (S := S) p) ?_ fun _ => (track_does hp hS).pre ?_
      · rintro d ht ⟨⟨hd, hin⟩, rfl⟩
        rw [hc.1] at hd
        exact ⟨hd, hin, (ht.opened p).symm.trans hc.2⟩
      · rintro d - ⟨-, ⟨h, hamong⟩, hin⟩
        exact ⟨⟨h.mono (fun _ _ hs => hs) (fun _ => .inl) fun _ hn => hn, hamong⟩, hin⟩
    · rintro d - ⟨⟨hd, hin⟩, -⟩
      cases isNew with
      | true => exact ⟨hd, hin⟩
      | false => exact ⟨⟨hd.1.enter p, hd.2⟩, hin⟩

/-! ### Writing a copy -/

/-- A copy that is written has the document's text. -/
theorem syncReplica_does (hp : m.root.Encloses p) (hgone : ¬ g.gone (m.names p)) :
    Does t (syncReplica p)
      (fun d => Holds m (g.enter p) S d ∧ d.shared.store.contains p = true ∧ Held g d p)
      fun _ => Holds m g S := by
  rw [syncReplica]
  refine Does.get_bind fun d₀ => ?_
  split
  · rename_i hdoc
    refine Does.pure ?_
    rintro d - ⟨⟨-, hin, -⟩, rfl⟩
    rw [Store.contains, hdoc] at hin
    cases hin
  · rename_i doc hdoc
    refine Does.bind (Does.onReplica (Q := Holds m g S) (by decide) ?_) fun _ => Does.pure fun _ _ hd => hd.2
    rintro d u disk - ⟨⟨⟨h, hamong⟩, hin, hheld⟩, rfl⟩ hwrite
    rw [h.replicaPath_eq p] at hwrite
    obtain ⟨hflaw, hspares, hfile⟩ := h.stands.write_ok (Premises.spells_copyOf hp) hwrite
    have hwritten := (h.tried hheld hflaw).spared_file hp hspares hgone
    refine ⟨hwritten.filled hp hfile (shownBy_encode ?_), hamong⟩
    rw [text?, hdoc, Option.map_some]

/-- A copy that is made empty is out of date. -/
theorem createEmptyFile_does {target : Path} {mode : Option Nat} (hp : m.root.Encloses p)
    (hgone : ¬ g.gone (m.names p)) :
    Does t
      (onReplica (do Replica.ensureParent target; Replica.createEmptyFile target mode)
        "Failed to create mirror file")
      (fun d => (Holds m (g.enter p) S d ∧ d.shared.store.contains p = true ∧ d.workspace.tracks p = true)
        ∧ d.workspace.replicaPath p = target)
      fun made d => made = true ∧ Holds m (g.touch p) S d ∧ d.shared.store.contains p = true
        ∧ d.workspace.tracks p = true := by
  refine Does.onReplica (by decide) ?_
  rintro d u disk - ⟨⟨⟨h, hamong⟩, hin, htracks⟩, rfl⟩ hmake
  rw [h.replicaPath_eq p] at hmake
  obtain ⟨hflaw, hspares, -⟩ := h.stands.createEmptyFile_ok (Premises.spells_copyOf hp) hmake
  exact ⟨⟨(h.tried (.inl htracks) hflaw).spared_file hp hspares hgone, hamong⟩, hin, htracks⟩

/-! ### Compiling -/

/-- What a path's document says of its copy in the replica. -/
theorem Agrees.read_copy (h : Agrees m g d) (hg : g.Regular) (hp : m.root.Encloses p) {doc : Document}
    (hdoc : d.shared.store.get? p = some doc) :
    (¬ g.stale p → ∃ bytes, d.shared.disk.read doc.replica = .ok bytes
        ∧ Text.Utf8.decodeLossy bytes = doc.content)
      ∧ (g.gone (m.names p) → ∀ bytes, d.shared.disk.read doc.replica ≠ .ok bytes) := by
  have hsame : p.same doc.path = true := by
    rw [Path.same_comm]
    exact Store.same_of_get?_eq_some hdoc
  have hpath := hp.congr hsame
  have hspells := Premises.spells_copyOf hpath
  have hself : d.shared.store.get? doc.path = some doc := by rw [← Store.get?_congr _ hsame, hdoc]
  rw [h.placed p doc hdoc hpath, (Premises.names_eq_iff hp hpath).mpr hsame]
  constructor
  · intro hfresh
    have hin : d.shared.store.contains p = true := by
      rw [Store.contains, hdoc]
      rfl
    rcases h.owned p hin hp with htracks | ⟨r, hr, hrp⟩
    · obtain ⟨q, hq, hqp⟩ := List.any_eq_true.mp htracks
      obtain ⟨bytes, hfile, htext⟩ := h.copies q hq fun hs => hfresh (hg.congr q p hqp hs)
      rw [(Premises.names_eq_iff (h.below q hq) hp).mpr hqp,
        (Premises.names_eq_iff hp hpath).mpr hsame] at hfile
      have hflaw := h.sound doc.path (.inr ⟨doc, hself, rfl⟩) hpath fun hu =>
        hfresh (hg.congr _ _ (by rw [Path.same_comm]; exact hsame) (hg.untried _ hu))
      refine ⟨bytes, (h.stands.read_eq_ok_iff hspells hflaw).mpr hfile, ?_⟩
      have htext := htext.1
      rw [text?_congr _ hqp, text?, hdoc] at htext
      exact (Option.some.inj htext).symm
    · exact absurd (hg.congr r p hrp (hg.untried r hr)) hfresh
  · intro hgone bytes hread
    have hflaw : (m.copyOf doc.path).flaw? = none := Disk.flaw?_of_read hread
    exact h.gone _ hgone bytes ((h.stands.read_eq_ok_iff hspells hflaw).mp hread).2

theorem compileFile_keeps (checks : Checkers) (hg : g.Regular) (hgood : ∀ c, g.Fresh m c → t.good c)
    (replicaDir : Path) (config : ProjectConfig) (p : Path) (w : Workspace) :
    Preserves (fun s => Unless t (Holds m g S) ⟨s, w⟩) (Shared.compileFile checks replicaDir config p) := by
  have hcalm := ((holds_calm m g S).unless (t := t)).shared w
  intro s hs
  rw [Shared.compileFile, wp_bind, wp_get]
  split
  · exact (wp_pure _).mpr hs
  · rename_i doc hdoc
    rw [wp_ite]
    refine ⟨fun _ => (wp_pure _).mpr hs, fun _ => ?_⟩
    rw [wp_bind, wp_get, wp_bind, wp_modify]
    generalize hc : (Compilation.mk ⟨p, doc.replica, replicaDir, config⟩ _ doc.content) = c
    have hs' : Unless t (Holds m g S) ⟨{ s with compiled := s.compiled ++ [c] }, w⟩ := by
      refine hs.imp_right ?_
      rintro ⟨ht, h, hamong⟩
      have hfresh : g.Fresh m c := by
        intro hp
        rw [← hc] at hp ⊢
        obtain ⟨hcopy, hgone⟩ := h.read_copy hg hp hdoc
        refine ⟨fun hstale => ?_, fun hg => ?_⟩
        · obtain ⟨bytes, hread, htext⟩ := hcopy hstale
          exact ⟨bytes, by rw [hread]; rfl, htext⟩
        · cases hread : s.disk.read doc.replica with
          | ok bytes => exact absurd hread (hgone hg bytes)
          | error err => rfl
      obtain ⟨cs, hcs, hall⟩ := ht.issued
      refine ⟨⟨ht.failures, ⟨cs ++ [c], ?_, ?_⟩, ht.opened⟩, { h with owned := h.owned }, hamong⟩
      · rw [← List.append_assoc, ← hcs]
      · intro x hx
        rcases List.mem_append.mp hx with hx | hx
        · exact hall x hx
        · rw [List.mem_singleton.mp hx]
          exact hgood c hfresh
    split
    · exact hcalm.publish_keeps _ _ _ hs'
    · exact (wp_pure _).mpr hs'

variable (checks : Checkers)

theorem compile_does (hg : g.Regular) (hgood : ∀ c, g.Fresh m c → t.good c) :
    Does t (compile checks) (Holds m g S) fun _ => Holds m g S := by
  refine Does.of_preserves ?_
  rw [compile]
  refine Preserves.get_bind fun d _ => onShared_keeps fun w => ?_
  rw [Shared.compile]
  refine Preserves.ite (fun _ => Preserves.forM _ fun p _ => ?_) fun _ => Preserves.pure _
  exact compileFile_keeps checks hg hgood _ _ p w

theorem check_does (p : Path) :
    Does t (liftM (Shared.check checks p) : Act Desk Bool) (Holds m g S) fun _ => Holds m g S :=
  Does.of_preserves ((holds_calm m g S).unless.check_keeps checks p)

theorem diagnose_does (hg : g.Regular) (hgood : ∀ c, g.Fresh m c → t.good c) (p : Path) :
    Does t (diagnose checks p) (Holds m g S) fun _ => Holds m g S := by
  rw [diagnose]
  refine Does.bind (check_does checks p) fun isFaust => ?_
  exact Does.ite (fun _ => compile_does checks hg hgood) fun _ => Does.pure fun _ _ hd => hd

theorem reloadConfig_does (hg : g.Regular) (hgood : ∀ c, g.Fresh m c → t.good c) :
    Does t (reloadConfig checks) (Holds m g S) fun _ => Holds m g S := by
  have hcalm := (holds_calm m g S).unless (t := t)
  rw [reloadConfig, diagnoseAll]
  refine Does.bind (Does.of_preserves (hcalm.report_keeps _)) fun _ => ?_
  refine Does.bind (Does.of_preserves hcalm.loadConfig_keeps) fun _ => ?_
  refine Does.get_bind fun d => Does.step (Does.forM_const (P := Holds m g S) fun p _ => ?_) (fun _ _ hd => hd.1)
    fun _ => compile_does checks hg hgood
  exact Does.bind (check_does checks p) fun _ => Does.pure fun _ _ hd => hd

end Desk

end LiveWorkspace
