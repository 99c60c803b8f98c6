/-
  LiveWorkspace/Proofs/Workspace/Handlers.lean
  ============================================
  **What each handler does to the agreement of the replica with the documents.**

  A handler closes all gaps that it opens.  There are two exceptions.  The handler of a
  rename moves the copies of what is open under the old path away before it compiles, and
  writes them again afterwards: in between the replica has no file there
  (`renamed_does_of_moves`).  The handler of a closing removes all that the replica has at
  and below its path, whatever is tracked there (`Buries`).
-/
import LiveWorkspace.Proofs.Workspace.Subtrees

namespace LiveWorkspace.Desk

variable {m : Premises} {t : Tally} {g : Gaps} {p : Path} {S : Path → Prop}
variable (checks : Checkers)

/-! ### Events of the disk -/

theorem created_does (hp : m.root.Encloses p) (hS : ∀ q, S q) (hg : g.Regular)
    (hgone : ∀ ns, ¬ g.gone ns) (hgood : ∀ c, g.Fresh m c → t.good c) :
    Does t (created checks p) (Holds m g S) fun _ => Holds m g S := by
  rw [created]
  refine Does.get_bind fun d₀ => ?_
  split
  · exact Does.pure fun _ _ hd => hd.1
  · refine Does.ite (fun _ => ?_) fun _ => ?_
    · exact (trackDir_does checks hp (fun q _ _ => ⟨hS q, hgone _⟩) hg hgood).pre fun _ _ hd => hd.1
    · refine Does.step (trackFile_does hp (hS p)) (fun _ _ hd => hd.1) fun _ => ?_
      refine Does.get_bind fun d₁ => Does.step (createEmptyFile_does (m := m) (g := g) (S := S) hp (hgone _))
        (fun d _ hd => ⟨hd.1, by rw [hd.2]⟩) fun made => ?_
      refine Does.ite (fun _ => ?_) fun hmade => Does.pure fun _ _ hd => absurd hd.1 hmade
      refine Does.step (syncReplica_does (S := S) hp (hgone _)) ?_ fun _ => diagnose_does checks hg hgood p
      rintro d - ⟨-, ⟨h, hamong⟩, hin, htracks⟩
      exact ⟨⟨h.mono (fun _ _ hs => hs) (fun _ => .inl) fun _ hn => hn, hamong⟩, hin, .inl htracks⟩

/-- What is removed from the replica at and below a path does not count, where all that is tracked
    there is out of date. -/
theorem Agrees.removed {d : Desk} {u : Unit} {disk : Disk} (h : Agrees m g d) (hp : m.root.Encloses p)
    (hgone : ∀ ns, ¬ g.gone ns) (hstale : ∀ q ∈ d.workspace.tracked, q.startsWith p = true → g.stale q)
    (hremove : Replica.remove (m.copyOf p) d.shared.disk = .ok u disk) :
    Agrees m g { d with shared := { d.shared with disk := disk } } := by
  obtain ⟨hspares, -⟩ := h.stands.remove_ok (Premises.spells_copyOf hp) hremove
  refine h.spared hspares (fun q hq hnot => ?_) fun ns hns => absurd hns (hgone ns)
  have hbeside : Site.Beside (m.names p) (m.names q) := fun hpre =>
    hnot (hstale q hq ((Premises.names_prefix_iff hp (h.below q hq)).mp hpre))
  exact ⟨fun ms hms _ hpre => hbeside (hpre.trans hms), hbeside⟩

theorem removed_does (hp : m.root.Encloses p) (hg : g.Regular)
    (hgone : ∀ ns, ¬ g.gone ns) (hgood : ∀ c, g.Fresh m c → t.good c) :
    Does t (removed checks p) (Holds m g S) fun _ => Holds m g S := by
  rw [removed]
  refine Does.step (untrackAndClear_does (K := fun _ => True) p) (fun _ _ hd => ⟨hd, trivial⟩) fun _ => ?_
  refine Does.get_bind fun d₀ => Does.bind (Does.onReplica (Q := Holds m (g.cover p) (Remains t p S)) (by decide) ?_)
    fun _ => ?_
  · rintro d u disk - ⟨⟨⟨h, hamong⟩, -⟩, rfl⟩ hremove
    rw [h.replicaPath_eq p] at hremove
    exact ⟨(h.cover p).removed hp hgone (fun _ _ => .inr) hremove, hamong⟩
  · refine Does.step (resyncOpen_does (g := g) (S := Remains t p S) (fun q hq hstarts => ⟨hstarts, hq.2 hstarts⟩) hgone)
      (fun _ _ hd => hd.2) fun _ => ?_
    exact (compile_does checks hg hgood).post fun _ _ _ hd => ⟨hd.1, fun q hq => (hd.2 q hq).1⟩

/-- A text that replaces another one, and the copy with it, leave no gap. -/
theorem replace_does {content : String} (hp : m.root.Encloses p) :
    Does t (liftM (Shared.revise p (.replace content)) : Act Desk _)
      (fun d => Holds m (g.touch p) S d ∧ d.shared.store.contains p = true
        ∧ m.site.HasFile d.shared.disk (m.names p) (Text.Utf8.encode content))
      fun outcome d => outcome = .ok () ∧ Holds m g S d := by
  refine Does.of_steady ?_ ?_
  · exact (kept_spoilt t).grows.revise_keeps trivial fun heq => by cases heq
  · rintro d ht ⟨⟨h, hamong⟩, hin, hfile⟩
    rw [wp_onShared, Shared.wp_revise]
    refine ⟨fun store hstore => .inr ⟨?_, rfl, ?_, hamong⟩, fun hout => ?_⟩
    · exact ht.of_store (Store.isOpen_of_revise? hstore fun _ _ => rfl)
    · have hrevised := h.revised hstore
      refine Agrees.filled (hrevised.mono (fun q _ hs => hs.elim id .inr) (fun _ hu => hu) fun _ hn => hn) hp hfile ?_
      rw [Store.contains] at hin
      obtain ⟨doc, hdoc⟩ := Option.isSome_iff_exists.mp hin
      refine shownBy_encode ?_
      rw [text?, Store.get?_of_revise? hstore, if_pos (Path.same_refl p), hdoc]
      rfl
    · rw [hin] at hout
      cases hout

/-- The copy of a written file gets its text, and then the document does. -/
theorem rewritten_does (hp : m.root.Encloses p) (hg : g.Regular) (hgone : ∀ ns, ¬ g.gone ns)
    (hgood : ∀ c, g.Fresh m c → t.good c) (content : String) :
    Does t (do
      let _ ← onReplica (Replica.write ((← get).workspace.replicaPath p) (Text.Utf8.encode content))
        "Failed to write mirror file"
      match ← Shared.revise p (.replace content) with
      | .ok _ => diagnose checks p
      | .error _ => pure ())
      (fun d => Holds m (g.enter p) S d ∧ d.shared.store.contains p = true ∧ Held g d p)
      fun _ => Holds m g S := by
  refine Does.get_bind fun d₀ => Does.bind (Does.onReplica
    (Q := fun d => Holds m (g.touch p) S d ∧ d.shared.store.contains p = true
      ∧ m.site.HasFile d.shared.disk (m.names p) (Text.Utf8.encode content)) (by decide) ?_) fun _ => ?_
  · rintro d u disk - ⟨⟨⟨h, hamong⟩, hin, hheld⟩, rfl⟩ hwrite
    rw [h.replicaPath_eq p] at hwrite
    obtain ⟨hflaw, hspares, hfile⟩ := h.stands.write_ok (Premises.spells_copyOf hp) hwrite
    exact ⟨⟨(h.tried hheld hflaw).spared_file hp hspares (hgone _), hamong⟩, hin, hfile⟩
  · refine Does.step (replace_does (g := g) (S := S) hp) (fun _ _ hd => hd.2) fun outcome => ?_
    split
    · exact (diagnose_does checks hg hgood p).pre fun _ _ hd => hd.2
    · exact Does.pure fun _ _ hd => hd.2

theorem written_does (hp : m.root.Encloses p) (hS : S p) (hg : g.Regular)
    (hgone : ∀ ns, ¬ g.gone ns) (hgood : ∀ c, g.Fresh m c → t.good c) :
    Does t (written checks p) (Holds m g S) fun _ => Holds m g S := by
  have hend := rewritten_does checks (S := S) hp hg hgone hgood
  rw [written]
  refine Does.get_bind fun d₀ => Does.ite (fun _ => ?_) fun _ => Does.pure fun _ _ hd => hd.1
  split
  · exact Does.pure fun _ _ hd => hd.1
  · refine Does.get_bind fun d₁ => Does.ite (fun _ => ?_) fun hin => (hend _).pre ?_
    · refine Does.step (trackFile_does hp hS) (fun _ _ hd => hd.1.1) fun _ => (hend _).pre ?_
      exact fun _ _ hd => ⟨hd.1, hd.2.1, .inl hd.2.2⟩
    · rintro d - ⟨⟨⟨h, hamong⟩, -⟩, rfl⟩
      simp only [Bool.not_eq_true', Bool.not_eq_false] at hin
      exact ⟨⟨h.enter p, hamong⟩, hin, h.held hp hin⟩

/-! ### Renaming -/

/-- A rename moves the copies along: what it leads to and the old copy are there, and they
    are not the same. -/
def MovesCopy (source target : Path) (d : Desk) : Prop :=
  d.shared.disk.hasPath target = true ∧ d.shared.disk.hasPath (d.workspace.replicaPath source) = true
    ∧ source.same target = false

/-- The part of a rename that follows when the copies have been moved along. The gaps `E`
    that it starts from may be those, `G`, that the compilations of the new path find, and
    one for that path; those on `U` are closed when open documents are written again. -/
theorem renamed_end_does {source target : Path} {G E : Gaps} {T U : Path → Prop} {K : Disk → Prop}
    (htarget : m.root.Encloses target)
    (hT : ∀ q, Remains t source S q → T q)
    (hadopt : T target ∧ ¬ G.gone (m.names target))
    (henter : ∀ d, Agrees m E d → Agrees m (G.enter target) d)
    (hdir : Does t (trackDir checks target)
      (fun d => (Holds m E T d ∧ d.shared.disk.hasDirectory target = true) ∧ K d.shared.disk)
      fun _ => Holds m G T)
    (hg : G.Regular) (hgood : ∀ c, G.Fresh m c → t.good c)
    (hclose : ∀ d, Agrees m G d → Agrees m { g with stale := fun q => g.stale q ∨ U q } d)
    (hU : ∀ q, T q → U q → q.startsWith source = true ∧ t.isOpen q = true) (hgone : ∀ ns, ¬ g.gone ns) :
    Does t (do
      untrackAndClear source
      if (← get).shared.disk.hasDirectory target then trackDir checks target
      else
        trackFile target
        syncReplica target
        diagnose checks target
      resyncOpen source)
      (fun d => Holds m E S d ∧ K d.shared.disk) fun _ => Holds m g T := by
  have hresync : Does t (resyncOpen source) (Holds m G T) fun _ => Holds m g T :=
    (resyncOpen_does hU hgone).pre fun d _ hd => ⟨hclose d hd.1, hd.2⟩
  refine Does.bind (untrackAndClear_does source) fun _ => Does.get_bind fun d₀ => ?_
  have hleft : ∀ d, Holds m E (Remains t source S) d → Holds m E T d := fun d hd =>
    ⟨hd.1, fun q hq => hT q (hd.2 q hq)⟩
  refine Does.ite (fun hc => ?_) fun _ => ?_
  · refine Does.step hdir ?_ fun _ => hresync
    rintro d - ⟨⟨hd, hk⟩, rfl⟩
    exact ⟨⟨hleft d hd, hc⟩, hk⟩
  · refine Does.step (trackFile_does (g := G.enter target) htarget hadopt.1)
      (fun d _ hd => ⟨henter d hd.1.1.1, (hleft d hd.1.1).2⟩) fun _ => ?_
    refine Does.step (syncReplica_does (g := G) (S := T) htarget hadopt.2) ?_ fun _ => ?_
    · rintro d - ⟨⟨h, hamong⟩, hin, htracks⟩
      exact ⟨⟨h.mono (fun _ _ hs => hs.elim id .inr) (fun _ hu => hu.elim id .inr) fun _ hn => hn, hamong⟩,
        hin, .inl htracks⟩
    · exact Does.bind (diagnose_does checks hg hgood target) fun _ => hresync

/-- A rename that moves no copy leaves no gap, and its compilations find none. -/
theorem renamed_does_of_keeps {source target : Path} (hsource : m.root.Encloses source)
    (htarget : m.root.Encloses target) (hS : ∀ q, S q) (hg : g.Regular) (hgone : ∀ ns, ¬ g.gone ns)
    (hgood : ∀ c, g.Fresh m c → t.good c) :
    Does t (renamed checks source target) (fun d => Holds m g S d ∧ ¬ MovesCopy source target d)
      fun _ => Holds m g S := by
  have hclose : ∀ d, Agrees m g d → Agrees m { g with stale := fun q => g.stale q ∨ False } d := fun d h =>
    h.mono (fun _ _ => .inl) (fun _ hu => hu) fun _ hn => hn
  have hU : ∀ q, S q → False → q.startsWith source = true ∧ t.isOpen q = true := fun _ _ => False.elim
  have hend := renamed_end_does (t := t) (g := g) (S := S) (m := m) checks
    (G := g) (E := g) (T := S) (K := fun _ => True) htarget (fun q hq => hq.1)
    ⟨hS target, hgone _⟩ (fun d h => h.enter target)
    ((trackDir_does checks htarget (fun q _ _ => ⟨hS q, hgone _⟩) hg hgood).pre fun _ _ hd => hd.1.1)
    hg hgood hclose hU hgone
  rw [renamed]
  refine Does.get_bind fun d₀ => Does.ite (fun hpath => ?_) fun _ => Does.pure fun _ _ hd => hd.1.1
  refine Does.ite (fun hcopy => ?_) fun _ => hend.pre fun _ _ hd => ⟨hd.1.1, trivial⟩
  refine Does.bind (Does.onReplica (Q := Holds m g S) (by decide) ?_) fun _ => hend.pre fun _ _ hd => ⟨hd.2, trivial⟩
  rintro d u disk - ⟨⟨⟨h, hamong⟩, hkeeps⟩, rfl⟩ hrename
  have hsame : source.same target = true := by
    cases hsame : source.same target with
    | true => rfl
    | false => exact absurd ⟨hpath, hcopy, hsame⟩ hkeeps
  have hnames := (Premises.names_eq_iff hsource htarget).mpr hsame
  rw [h.replicaPath_eq source, h.replicaPath_eq target] at hrename
  obtain ⟨disk', hgrown, hrenaming⟩ :=
    h.stands.rename_ok (Premises.spells_copyOf hsource) (Premises.spells_copyOf htarget) hrename
  cases hrenaming with
  | same _ =>
    refine ⟨h.spared hgrown.spares (fun _ _ _ => ⟨fun _ _ _ => trivial, trivial⟩) fun _ _ => trivial, hamong⟩
  | moved _ _ _ _ hbelow _ _ =>
    rw [hnames] at hbelow
    exact absurd List.prefix_rfl hbelow

/-- What is left when copies were moved along: none at the old path, and at the new one a
    copy that is out of date or belongs to nothing that is tracked. -/
theorem moved_copies {source target : Path} {d : Desk} {disk : Disk} (hsource : m.root.Encloses source)
    (htarget : m.root.Encloses target) (hother : source.same target = false) (hgone : ∀ ns, ¬ g.gone ns)
    (h : Agrees m g d)
    (hrename : Replica.rename (m.copyOf source) (m.copyOf target) d.shared.disk = .ok () disk) :
    (¬ m.names source <+: m.names target ∧ ¬ m.names target <+: m.names source)
      ∧ (Agrees m (g.moved m source) { d with shared := { d.shared with disk := disk } }
        ∨ Agrees m ((g.moved m source).touch target) { d with shared := { d.shared with disk := disk } }
          ∧ ∃ bytes, m.site.HasFile disk (m.names target) bytes) := by
  have hne : m.names source ≠ m.names target := by
    intro hnames
    rw [(Premises.names_eq_iff hsource htarget).mp hnames] at hother
    cases hother
  obtain ⟨disk', hgrown, hrenaming⟩ :=
    h.stands.rename_ok (Premises.spells_copyOf hsource) (Premises.spells_copyOf htarget) hrename
  have hgrows := h.spared hgrown.spares (fun _ _ _ => ⟨fun _ _ _ => trivial, trivial⟩) fun _ _ => trivial
  have hapart : ¬ m.names source <+: m.names target ∧ ¬ m.names target <+: m.names source := by
    cases hrenaming with
    | same hnames => exact absurd hnames hne
    | moved _ _ _ _ hbelow habove _ => exact ⟨hbelow, habove⟩
  refine ⟨hapart, ?_⟩
  have hstands := hgrown.spares.stands h.stands
  have hspared : Agrees m ((g.cover source).touch target) { d with shared := { d.shared with disk := disk } } := by
    refine ((hgrows.cover source).touch target).spared hrenaming.spares (fun q hq hnot => ?_)
      fun ns hns => absurd hns (hgone ns)
    obtain ⟨hcover, hself⟩ := not_or.mp hnot
    obtain ⟨hstale, hstarts⟩ := not_or.mp hcover
    have hq' := hgrows.below q hq
    obtain ⟨bytes, hfile, -⟩ := hgrows.copies q hq hstale
    have hsourceBeside : Site.Beside (m.names source) (m.names q) := fun hpre =>
      hstarts ((Premises.names_prefix_iff hsource hq').mp hpre)
    have htargetBeside : Site.Beside (m.names target) (m.names q) := by
      rintro ⟨rest, hrest⟩
      by_cases hnil : rest = []
      · rw [hnil, List.append_nil] at hrest
        exact hself ((Premises.names_eq_iff hq' htarget).mp hrest.symm)
      · rw [← hrest] at hfile
        exact hrenaming.not_hasFile_below hne hnil bytes hfile
    exact ⟨fun ks hks _ => ⟨fun hp => hsourceBeside (hp.trans hks), fun hp => htargetBeside (hp.trans hks)⟩,
      hsourceBeside, htargetBeside⟩
  have hbare : ∀ ns, m.names source <+: ns → ∀ bytes, ¬ m.site.FileAt disk ns bytes := by
    rintro ns hns bytes ⟨mode, hget⟩
    rw [hrenaming.bare hne _ (Site.place_prefix_iff.mpr hns)] at hget
    cases hget
  have htouched := Agrees.lacking hspared hbare
  by_cases htracked : ∃ q ∈ d.workspace.tracked, ¬ (g.moved m source).stale q ∧ q.same target = true
  · obtain ⟨q, hq, hstale, hsame⟩ := htracked
    obtain ⟨bytes, hfile, -⟩ := hgrows.copies q hq fun hs => hstale (.inl hs)
    rw [(Premises.names_eq_iff (hgrows.below q hq) htarget).mpr hsame] at hfile
    exact .inr ⟨htouched, hrenaming.exists_hasFile hstands hfile⟩
  · refine .inl (htouched.mono (fun q hq hs => hs.elim id fun hsame => ?_) (fun _ hu => hu) fun _ hn => hn)
    exact Classical.byContradiction fun hnot => htracked ⟨q, hq, hnot, hsame⟩

/-- What is left at the old path of a rename that moves copies, and all that is at the new one, may
    be taken up with the gaps that the move leaves. -/
theorem remains_of_apart {source target q : Path} (hsource : m.root.Encloses source) (htarget : m.root.Encloses target)
    (hapart : ¬ m.names source <+: m.names target ∧ ¬ m.names target <+: m.names source) (hS : ∀ q, S q)
    (hq : m.root.Encloses q) (hstarts : q.startsWith target = true) :
    Remains t source S q ∧ ¬ (g.moved m source).gone (m.names q) := by
  have htargetBelow := (Premises.names_prefix_iff htarget hq).mpr hstarts
  have hnot : ¬ m.names source <+: m.names q := fun hsourceBelow =>
    (List.prefix_or_prefix_of_prefix hsourceBelow htargetBelow).elim hapart.1 hapart.2
  exact ⟨⟨hS q, fun h => absurd ((Premises.names_prefix_iff hsource hq).mpr h) hnot⟩, hnot⟩

/-- A rename that moves copies compiles while the replica has no file at the old path, and
    leaves no gap when it is done. -/
theorem renamed_does_of_moves {source target : Path} (hsource : m.root.Encloses source)
    (htarget : m.root.Encloses target) (hS : ∀ q, S q) (hg : g.Regular) (hgone : ∀ ns, ¬ g.gone ns)
    (hgood : ∀ c, (g.moved m source).Fresh m c → t.good c) :
    Does t (renamed checks source target) (fun d => Holds m g S d ∧ MovesCopy source target d)
      fun _ => Holds m g S := by
  have hmoved : (g.moved m source).Regular := hg.moved m source
  have hspoils : Spoils t _ := Preserves.bind ((kept_spoilt t).untrackAndClear_keeps source) fun _ =>
    (kept_spoilt t).grows.renamed_end_keeps checks (records_spoilt t) source target trivial
  rw [renamed]
  refine Does.get_bind fun d₀ => Does.ite (fun _ => ?_) fun _ => Does.pure fun _ _ hd => hd.1.1
  refine Does.ite (fun _ => ?_) fun hcopy => Does.of_false hspoils ?_
  · refine Does.bind (Does.onReplica (Q := fun d => (Holds m (g.moved m source) S d
        ∨ Holds m ((g.moved m source).touch target) S d ∧ ∃ bytes, m.site.HasFile d.shared.disk (m.names target) bytes)
      ∧ (¬ m.names source <+: m.names target ∧ ¬ m.names target <+: m.names source)) (by decide) ?_) fun _ => ?_
    · rintro d u disk - ⟨⟨⟨h, hamong⟩, -, -, hother⟩, rfl⟩ hrename
      rw [h.replicaPath_eq source, h.replicaPath_eq target] at hrename
      obtain ⟨hapart, hleft⟩ := moved_copies hsource htarget hother hgone h hrename
      exact ⟨hleft.imp (fun h' => ⟨h', hamong⟩) fun h' => ⟨⟨h'.1, hamong⟩, h'.2⟩, hapart⟩
    · refine Does.pre (Does.of_pure hspoils fun hapart => ?_) fun d _ hd => hd.2
      have hbelow := fun q => remains_of_apart (t := t) (g := g) (S := S) (q := q) hsource htarget hapart hS
      have hadopt := hbelow target htarget (Path.startsWith_refl target)
      have hclose : ∀ d, Agrees m (g.moved m source) d →
          Agrees m { g with stale := fun q => g.stale q ∨ q.startsWith source = true } d := fun d h =>
        h.mono (fun _ _ hs => hs) (fun _ hu => hu) fun ns hns => absurd hns (hgone ns)
      have hU : ∀ q, Remains t source S q → q.startsWith source = true →
          q.startsWith source = true ∧ t.isOpen q = true := fun q hq hstarts => ⟨hstarts, hq.2 hstarts⟩
      refine Does.post (Q := fun _ => Holds m g (Remains t source S)) (Does.or ?_ ?_)
        fun _ _ _ hd => ⟨hd.1, fun q hq => (hd.2 q hq).1⟩
      · refine (renamed_end_does checks (E := g.moved m source) (K := fun _ => True) htarget (fun _ hq => hq)
          hadopt (fun d h => h.enter target) ?_ hmoved hgood hclose hU hgone).pre fun _ _ hd => ⟨hd, trivial⟩
        exact (trackDir_does checks htarget hbelow hmoved hgood).pre fun _ _ hd => hd.1.1
      · refine renamed_end_does checks (E := (g.moved m source).touch target)
          (K := fun disk => ∃ bytes, m.site.HasFile disk (m.names target) bytes) htarget
          (fun _ hq => hq) hadopt (fun d h => ?_) (trackDir_fails checks htarget) hmoved hgood
          hclose hU hgone
        exact h.mono (fun _ _ hs => hs) (fun _ => .inl) fun _ hn => hn
  · rintro d - ⟨⟨-, -, hhas, -⟩, rfl⟩
    exact hcopy hhas

/-! ### Events of the editor -/

/-- A document that was opened has an empty copy, until its text comes. -/
theorem editorOpened_does (hp : m.root.Encloses p) (hS : S p) (hgone : ∀ ns, ¬ g.gone ns) :
    Does t (editorOpened p) (fun d => Holds m (g.enter p) S d ∧ d.shared.store.contains p = true)
      fun _ => Holds m (g.touch p) S := by
  rw [editorOpened]
  refine Does.bind (track_does hp hS) fun _ => Does.get_bind fun d₀ => ?_
  refine Does.step (createEmptyFile_does (g := g) (S := S) hp (hgone _)) (fun d _ hd => ⟨hd.1, by rw [hd.2]⟩)
    fun _ => Does.pure fun _ _ hd => hd.2.1

/-- The text of a document that was changed comes to its copy. -/
theorem editorChanged_does (hp : m.root.Encloses p) (hg : g.Regular) (hgone : ∀ ns, ¬ g.gone ns)
    (hgood : ∀ c, g.Fresh m c → t.good c) :
    Does t (editorChanged checks p) (fun d => Holds m (g.touch p) S d ∧ d.shared.store.contains p = true)
      fun _ => Holds m g S := by
  rw [editorChanged]
  refine Does.get_bind fun d₀ => Does.ite (fun _ => ?_) fun hout => Does.pure ?_
  · refine Does.step (syncReplica_does (g := g) (S := S) hp (hgone _)) ?_ fun _ => diagnose_does checks hg hgood p
    rintro d - ⟨⟨⟨h, hamong⟩, hin⟩, -⟩
    exact ⟨⟨h.mono (fun _ _ hs => hs) (fun _ => .inl) fun _ hn => hn, hamong⟩, hin, h.held hp hin⟩
  · rintro d - ⟨⟨-, hin⟩, rfl⟩
    exact absurd hin hout

/-- What the handler of a closing removes along with a path that is neither open nor on the
    disk: the copies of what is tracked below it. -/
def Buries (g : Gaps) (p : Path) (d : Desk) : Prop :=
  d.shared.store.isOpen p = false ∧ d.shared.disk.hasPath p = false
    ∧ ∃ q ∈ d.workspace.tracked, q.startsWith p = true ∧ q.same p = false ∧ ¬ g.stale q

/-- A path goes with its document and its markers, before something else is done. -/
theorem forget_does {P O Q : Desk → Prop} {next : Act Desk Unit} (hclosed : t.isOpen p = false) (hO : Calm O)
    (hP : ∀ d, P d → O ({ d with workspace := d.workspace.release p }.withStore (d.shared.store.erase p)))
    (hspoils : Spoils t next) (hnext : Does t next O fun _ => Q) :
    Does t (do
      release p
      match ← Shared.dropDocument p with
      | some doc => Shared.clear doc
      | none => pure ()
      next) P fun _ => Q := by
  have hkept := kept_spoilt t
  refine Does.of_steady ?_ fun d ht hd => ?_
  · refine Preserves.bind (hkept.release_keeps p) fun _ => ?_
    refine Preserves.bind (hkept.dropDocument_keeps trivial) fun dropped => ?_
    split
    · exact Preserves.bind (hkept.grows.calm.clear_keeps _) fun _ => hspoils
    · exact hspoils
  · rw [wp_bind, release, wp_modify, wp_bind, wp_onShared, Shared.wp_dropDocument]
    have hforgotten : Unless t O ({ d with workspace := d.workspace.release p }.withStore (d.shared.store.erase p)) :=
      .inr ⟨(ht.of_workspace _).of_store (Store.isOpen_erase ((ht.opened p).trans hclosed)), hP d hd⟩
    split
    · exact Does.bind (Does.of_preserves (hO.unless.clear_keeps _)) (fun _ => hnext) _ hforgotten
    · exact hnext _ hforgotten

theorem removeCopy_spoils (copy : Path) :
    Spoils t (do
      let _ ← onReplica (Replica.remove copy) "Failed to remove mirror file"
      Pure.pure ()) :=
  Preserves.bind (fun _ hs => (kept_spoilt t).grows.calm.onReplica_keeps _ hs) fun _ => Preserves.pure _

/-- A document that gets the text of the disk has its copy written again. -/
theorem restored_does (hp : m.root.Encloses p) (hS : S p) (hclosed : t.isOpen p = false) (hg : g.Regular)
    (hgone : ∀ ns, ¬ g.gone ns) (hgood : ∀ c, g.Fresh m c → t.good c) :
    Does t (do
      match ← Shared.reload p with
      | .error _ => pure ()
      | .ok _ =>
        track p
        syncReplica p
        diagnose checks p)
      (fun d => Holds m g S d ∧ d.shared.store.contains p = true) fun _ => Holds m g S := by
  refine Does.step (reload_does (m := m) (g := g) (S := S) p) (fun d _ hd => ⟨hd.1, hd.2, hclosed⟩) fun outcome => ?_
  split
  · exact Does.pure fun _ _ hd => by cases hd.1
  · refine Does.step (track_does (g := g) (S := S) hp hS) ?_ fun _ => ?_
    · rintro d - ⟨-, ⟨h, hamong⟩, hin⟩
      exact ⟨⟨h.mono (fun _ _ hs => hs) (fun _ => .inl) fun _ hn => hn, hamong⟩, hin⟩
    refine Does.step (syncReplica_does (g := g) (S := S) hp (hgone _)) ?_ fun _ => diagnose_does checks hg hgood p
    exact fun _ _ hd => ⟨hd.1, hd.2.1, .inl hd.2.2⟩

/-- A document that was closed goes with its copy, or gets the text of the disk. -/
theorem editorClosed_does (hp : m.root.Encloses p) (hS : ∀ q, S q) (hg : g.Regular)
    (hgone : ∀ ns, ¬ g.gone ns) (hgood : ∀ c, g.Fresh m c → t.good c) :
    Does t (editorClosed checks p)
      (fun d => (Holds m g S d ∧ d.shared.store.contains p = true) ∧ ¬ Buries g p d)
      fun _ => Holds m g S := by
  refine Does.of_steady ((kept_spoilt t).editorClosed_keeps checks (records_spoilt t) trivial) ?_
  rintro d₀ ht ⟨⟨⟨h, hamong⟩, hin⟩, hspares⟩
  rw [editorClosed, wp_bind, wp_get, wp_ite]
  refine ⟨fun hclosed => ?_, fun _ => (wp_pure _).mpr (.inr ⟨ht, h, hamong⟩)⟩
  rw [Bool.not_eq_true'] at hclosed
  have hshut : t.isOpen p = false := (ht.opened p).symm.trans hclosed
  rw [wp_ite]
  refine ⟨fun hpath => ?_, fun _ => ?_⟩
  · rw [Bool.not_eq_true'] at hpath
    rw [h.replicaPath_eq p]
    -- What is tracked below the path is out of date already, and the path itself goes.
    refine forget_does (P := fun d => d = d₀)
      (O := fun d => Agrees m g d ∧ Among (fun q => q.startsWith p = true → g.stale q) d) hshut
      ((agrees_calm m g).and (among_calm _)) ?_ (removeCopy_spoils _) ?_ d₀ (.inr ⟨ht, rfl⟩)
    · rintro d rfl
      refine ⟨h.forgotten p, fun q hq hstarts => ?_⟩
      obtain ⟨hq, hother⟩ := List.mem_filter.mp hq
      have hsame : q.same p = false := by simpa using hother
      exact Classical.byContradiction fun hnot => hspares ⟨hclosed, hpath, q, hq, hstarts, hsame, hnot⟩
    · refine Does.bind (Does.onReplica (Q := Holds m g S) (by decide) ?_) fun _ => Does.pure fun _ _ hd => hd.2
      rintro d u disk - ⟨h, hstale⟩ hremove
      exact ⟨h.removed hp hgone hstale hremove, fun q _ => hS q⟩
  · exact restored_does checks hp (hS p) hshut hg hgone hgood d₀ (.inr ⟨ht, ⟨h, hamong⟩, hin⟩)

/-- The replica has no copy of a tracked path. -/
def Lost (q : Path) (d : Desk) : Prop :=
  q ∈ d.workspace.tracked ∧ ∀ bytes, d.shared.disk.read (d.workspace.replicaPath q) ≠ .ok bytes

theorem lost_calm (q : Path) : Calm (Lost q) :=
  ⟨fun _ => ⟨fun _ _ h => h, fun _ _ h => h, fun _ _ _ _ h _ => h⟩, fun _ _ _ h => h⟩

/-- What is tracked below a copy that is removed has lost its own. -/
theorem lost_of_removed {q : Path} {d : Desk} {u : Unit} {disk : Disk} (h : Agrees m g d) (hp : m.root.Encloses p)
    (hq : m.root.Encloses q) (hstarts : q.startsWith p = true) (htracked : q ∈ d.workspace.tracked)
    (hremove : Replica.remove (m.copyOf p) d.shared.disk = .ok u disk) :
    Lost q { d with shared := { d.shared with disk := disk } } := by
  obtain ⟨hspares, hnone⟩ := h.stands.remove_ok (Premises.spells_copyOf hp) hremove
  refine ⟨htracked, fun bytes hread => ?_⟩
  have hread : disk.read (m.copyOf q) = .ok bytes := by
    rw [← h.replicaPath_eq q]
    exact hread
  refine hnone (m.names q) bytes ((Premises.names_prefix_iff hp hq).mpr hstarts) ?_
  exact ((hspares.stands h.stands).read_eq_ok_iff (Premises.spells_copyOf hq) (Disk.flaw?_of_read hread)).mp hread

/-- A closing that buries a tracked path leaves it without a copy. -/
theorem editorClosed_buries {q : Path} (hp : m.root.Encloses p) (hq : m.root.Encloses q)
    (hstarts : q.startsWith p = true) (hother : q.same p = false) :
    Does t (editorClosed checks p)
      (fun d => Holds m g S d ∧ d.shared.store.isOpen p = false ∧ d.shared.disk.hasPath p = false
        ∧ q ∈ d.workspace.tracked)
      fun _ => Lost q := by
  refine Does.of_steady ((kept_spoilt t).editorClosed_keeps checks (records_spoilt t) trivial) ?_
  rintro d₀ ht ⟨⟨h, -⟩, hclosed, hpath, htracked⟩
  rw [editorClosed, wp_bind, wp_get]
  simp only [hclosed, hpath, Bool.not_false, if_true, h.replicaPath_eq p]
  refine forget_does (P := fun d => d = d₀) (O := fun d => Agrees m g d ∧ q ∈ d.workspace.tracked)
    ((ht.opened p).symm.trans hclosed) ((agrees_calm m g).and ?_) ?_ (removeCopy_spoils _) ?_ d₀ (.inr ⟨ht, rfl⟩)
  · exact ⟨fun _ => ⟨fun _ _ h => h, fun _ _ h => h, fun _ _ _ _ h _ => h⟩, fun _ _ _ h => h⟩
  · rintro d rfl
    refine ⟨h.forgotten p, List.mem_filter.mpr ⟨htracked, ?_⟩⟩
    rw [hother]
    rfl
  · refine Does.bind (Does.onReplica (Q := Lost q) (by decide) ?_) fun _ => Does.pure fun _ _ hd => hd.2
    rintro d u disk - ⟨h, htracked⟩ hremove
    exact lost_of_removed h hp hq hstarts htracked hremove

end LiveWorkspace.Desk
