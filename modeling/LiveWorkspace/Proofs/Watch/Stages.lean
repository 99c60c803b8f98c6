/-
  LiveWorkspace/Proofs/Watch/Stages.lean
  ======================================
  **A workspace that follows its tree, step by step.**

  A workspace without an editor is a follower of the tree below its root (`Layout.view`): its
  copy is the replica, and its texts are those of its documents.  Between two steps of a
  handler all that matters is how things stand (`Layout.Stage`): that the workspace is in
  order, what the view is, and which directories have been put under watch.  Checks and
  compilations change nothing of it, and each of the other steps changes one part.
-/
import LiveWorkspace.Proofs.Watch.Handling
import LiveWorkspace.Proofs.Watch.Layout
import LiveWorkspace.Proofs.Workspace.Registry

namespace LiveWorkspace

/-! ### Views -/

namespace Watch.View

variable {v v' : View} {q : List String} {t k : Node} {content : Text.Bytes}

/-- The follower gives a place a text. -/
def withText (v : View) (q : List String) (x : String) : View :=
  { v with text := fun r => if r = q then some x else v.text r }

/-- The follower has no texts at and below a place. -/
def withoutText (v : View) (q : List String) : View :=
  { v with text := fun r => if q.isPrefixOf r then none else v.text r }

theorem text_withText_congr (h : v'.text = v.text) (q : List String) (x : String) :
    (v'.withText q x).text = (v.withText q x).text := by
  simp only [withText, h]

theorem withText_eq {x : String} (h : v.text q = some x) : v.withText q x = v := by
  refine View.ext rfl rfl (funext fun r => ?_)
  simp only [withText]
  split
  · rename_i hr
    exact (hr ▸ h).symm
  · rfl

theorem withoutText_eq (h : ∀ r, q <+: r → v.text r = none) : v.withoutText q = v := by
  refine View.ext rfl rfl (funext fun r => ?_)
  simp only [withoutText]
  split
  · rename_i hr
    exact (h r (List.isPrefixOf_iff_prefix.mp hr)).symm
  · rfl

/-- What has been copied does not depend on texts. -/
theorem Mirrors.texted {area : List String → Prop} (h : v.Mirrors area v') (q : List String) (x : String) :
    v.Mirrors area (v'.withText q x) := ⟨h.tree, h.present, h.frame, h.copied⟩

theorem Mirrors.of_texted {area : List String → Prop} {x : String} (h : (v.withText q x).Mirrors area v') :
    v.Mirrors area v' := ⟨h.tree, h.present, h.frame, h.copied⟩

/-- A directory is taken up when it is copied. -/
theorem Mirrors.takesUp_directory (h : v.Mirrors (· = q) v') (hdir : v.tree q = some .directory)
    (htext : v'.text = v.text) : v.TakesUp (· = q) v' where
  toMirrors := h
  text p c hp hc := by
    rw [hp, hdir] at hc
    cases hc
  spared _ _ := by rw [htext]

/-- A file is taken up when it is copied and has its text. -/
theorem Mirrors.takesUp_file (h : v.Mirrors (· = q) v') (hfile : v.tree q = some (.file content))
    (htext : v'.text = (v.withText q (Text.Utf8.decodeLossy content)).text) : v.TakesUp (· = q) v' where
  toMirrors := h
  text p c hp hc := by
    subst hp
    rw [hfile] at hc
    cases hc
    simp [htext, withText]
  spared r hr := by
    have hne : r ≠ q := fun he => hr content he (he ▸ hfile)
    simp [htext, withText, hne]

/-- A text that is taken up takes the place of the one before. -/
theorem TakesUp.retexted {x : String} (h : (v.withText q x).TakesUp (· = q) v')
    (hfile : v.tree q = some (.file content)) : v.TakesUp (· = q) v' where
  toMirrors := h.toMirrors.of_texted
  text p c hp hc := h.text p c hp hc
  spared r hr := by
    have hne : r ≠ q := fun he => hr content he (he ▸ hfile)
    have hspared : v'.text r = (v.withText q x).text r := h.spared r fun c hp => absurd hp hne
    simp [hspared, withText, hne]

end Watch.View

namespace Layout

open Watch (View)

variable {m : Layout} {v v' : View} {w : List Path} {d d' : Desk} {q : List String} {t k : Node} {content : Text.Bytes}

/-- A workspace as a follower of the tree below its root. -/
def view (m : Layout) (d : Desk) : View where
  tree := m.original.node d.shared.disk
  copy := m.site.node d.shared.disk
  text q := if ∀ n ∈ q, Path.Proper n then d.text? (m.path q) else none

/-- A workspace that tracks what has a document, with all its documents below its root and
    none of them open. -/
structure InOrder (m : Layout) (d : Desk) : Prop where
  holds : m.Holds d.shared.disk
  replica : d.workspace.replica.dir = m.site.dir
  registered : d.Registered m.root fun _ => False
  closed : ∀ p, d.shared.store.isOpen p = false
  keyed : ∀ p, d.shared.store.contains p = true → ∃ q, (∀ n ∈ q, Path.Proper n) ∧ (m.path q).same p = true

/-- How things stand between two steps. -/
structure Stage (m : Layout) (v : View) (w : List Path) (d : Desk) : Prop where
  order : m.InOrder d
  view : m.view d = v
  watched : d.shared.watched = w

theorem InOrder.stage (h : m.InOrder d) : m.Stage (m.view d) d.shared.watched d := ⟨h, rfl, rfl⟩

namespace InOrder

theorem replicaPath_eq (h : m.InOrder d) (q : List String) : d.workspace.replicaPath (m.path q) = m.copy q := by
  have hreplica : d.workspace.replica = ⟨m.site.dir⟩ := by rw [← h.replica]
  rw [Workspace.replicaPath, h.registered.rooted, hreplica]
  rfl

theorem rooted (h : m.InOrder d) : (m.view d).Rooted := fun _ _ hq => h.holds.original.directory_of_concat hq

end InOrder

namespace Stage

theorem rooted (h : m.Stage v w d) : v.Rooted := h.view ▸ h.order.rooted

theorem tree_eq (h : m.Stage v w d) : v.tree = m.original.node d.shared.disk := by rw [← h.view]; rfl

theorem copy_eq (h : m.Stage v w d) : v.copy = m.site.node d.shared.disk := by rw [← h.view]; rfl

theorem text_eq (h : m.Stage v w d) (hq : ∀ n ∈ q, Path.Proper n) : v.text q = d.text? (m.path q) := by
  rw [← h.view]
  exact if_pos hq

theorem proper (h : m.Stage v w d) (hq : v.tree q ≠ none) : ∀ n ∈ q, Path.Proper n :=
  h.order.holds.proper_names (h.tree_eq ▸ hq)

theorem tidy (h : m.Stage v w d) : m.original.Tidy d.shared.disk := h.order.holds.original

end Stage

/-! ### What the steps change -/

/-- A revision that a document's text survives changes nothing. -/
theorem stage_calm (m : Layout) (v : View) (w : List Path) : Desk.Calm (m.Stage v w) where
  shared _ :=
    { report := fun _ _ h => ⟨⟨h.order.holds, h.order.replica,
      ((Desk.registered_grows _ _).shared _).report _ _ h.order.registered,
        h.order.closed, h.order.keyed⟩, h.view, h.watched⟩
      publish := fun _ _ h => ⟨⟨h.order.holds, h.order.replica,
        ((Desk.registered_grows _ _).shared _).publish _ _ h.order.registered,
        h.order.closed, h.order.keyed⟩, h.view, h.watched⟩
      mark := fun s p found store h hstore => by
        refine ⟨⟨h.order.holds, h.order.replica, h.order.registered.revised hstore, fun q => ?_, fun q hq => ?_⟩,
          ?_, h.watched⟩
        · exact (Store.isOpen_of_revise? hstore (fun _ _ => rfl) q).trans (h.order.closed q)
        · exact h.order.keyed q ((Store.contains_revise? hstore q).symm.trans hq)
        · have htext : ∀ q, (store.get? q).map (·.content) = (s.store.get? q).map (·.content) := by
            intro q
            rw [Store.get?_of_revise? hstore q]
            split
            · rw [Option.map_map]
              rfl
            · rfl
          rw [← h.view]
          simp only [Layout.view, Desk.text?, htext] }
  config _ _ _ h := ⟨⟨h.order.holds, h.order.replica, (Desk.registered_grows _ _).config _ _ _ h.order.registered,
    h.order.closed, h.order.keyed⟩, h.view, h.watched⟩

theorem stage_records (m : Layout) (v : View) (w : List Path) : Desk.Records (m.Stage v w) :=
  fun _ _ _ _ h _ _ => ⟨⟨h.order.holds, h.order.replica, Desk.registered_records _ _ _ _ _ _ h.order.registered ‹_› ‹_›,
    h.order.closed, h.order.keyed⟩, h.view, h.watched⟩

namespace Stage

/-- Others may change the tree, and leave the replica as it is. -/
theorem of_original (h : m.Stage v w d) {disk : Disk} (hout : Disk.SameOutside m.original.zone d.shared.disk disk)
    (htidy : m.original.Tidy disk) :
    m.Stage { v with tree := m.original.node disk } w { d with shared := { d.shared with disk := disk } } := by
  obtain ⟨hholds, hcopy⟩ := h.order.holds.of_original hout htidy
  refine ⟨⟨hholds, h.order.replica, h.order.registered.withDisk htidy.proper, h.order.closed, h.order.keyed⟩,
    ?_, h.watched⟩
  rw [← h.view]
  simp only [Layout.view, hcopy, Desk.text?]

/-- Work in the replica leaves the tree as it is. -/
theorem of_replica (h : m.Stage v w d) {disk : Disk} (hout : Disk.SameOutside m.site.zone d.shared.disk disk)
    (htidy : m.site.Tidy disk) :
    m.Stage { v with copy := m.site.node disk } w { d with shared := { d.shared with disk := disk } } := by
  obtain ⟨hholds, htree⟩ := h.order.holds.of_replica hout htidy
  refine ⟨⟨hholds, h.order.replica, h.order.registered.withDisk htidy.proper, h.order.closed, h.order.keyed⟩,
    ?_, h.watched⟩
  rw [← h.view]
  simp only [Layout.view, htree, Desk.text?]

theorem reported (h : m.Stage v w d) (reports : List Report) :
    m.Stage v w { d with shared := { d.shared with reports := reports } } :=
  have hr := h.order.registered
  ⟨⟨h.order.holds, h.order.replica, ⟨hr.rooted, hr.proper, hr.below, hr.known, hr.owned⟩, h.order.closed,
    h.order.keyed⟩, h.view, h.watched⟩

theorem watch (h : m.Stage v w d) (p : Path) :
    m.Stage v (w ++ [p]) { d with shared := { d.shared with watched := d.shared.watched ++ [p] } } :=
  ⟨⟨h.order.holds, h.order.replica, (Desk.registered_grows _ _).watched _ _ h.order.registered, h.order.closed,
    h.order.keyed⟩, h.view, by simp [h.watched]⟩

/-- A path is tracked that has a document. -/
theorem track (h : m.Stage v w d) (hq : ∀ n ∈ q, Path.Proper n) (hin : d.shared.store.contains (m.path q) = true) :
    m.Stage v w { d with workspace := d.workspace.track (m.path q) } := by
  refine ⟨⟨h.order.holds, ?_, ?_, h.order.closed, h.order.keyed⟩, h.view, h.watched⟩
  · exact (congrArg Replica.dir (Workspace.replica_track _ _)).trans h.order.replica
  · exact (h.order.registered.mono fun _ hf => hf.elim).tracked (encloses_path hq).1 hin

/-- A document gets another text. -/
theorem revise (h : m.Stage v w d) (hq : ∀ n ∈ q, Path.Proper n) {r : Revision} {x : String} {store : Store}
    (hstore : d.shared.store.revise? (m.path q) r = .ok store) (hr : r = .reload x ∨ r = .replace x) :
    m.Stage (v.withText q x) w (d.withStore store) := by
  have htext : ∀ doc, (Document.revise d.shared.store.encoding doc r).content = x := by
    rcases hr with rfl | rfl <;> exact fun _ => rfl
  have hclosed : ∀ doc, d.shared.store.get? (m.path q) = some doc →
      (doc.revise d.shared.store.encoding r).isOpen = doc.isOpen := by
    intro doc hdoc
    have hdoc :=
      h.order.closed (m.path q) ▸ (show d.shared.store.isOpen (m.path q) = doc.isOpen by simp [Store.isOpen, hdoc])
    rcases hr with rfl | rfl
    · exact hdoc
    · rfl
  refine ⟨⟨h.order.holds, h.order.replica, h.order.registered.revised hstore, fun p => ?_, fun p hp => ?_⟩,
    ?_, h.watched⟩
  · exact (Store.isOpen_of_revise? hstore hclosed p).trans (h.order.closed p)
  · exact h.order.keyed p ((Store.contains_revise? hstore p).symm.trans hp)
  · rw [← h.view]
    refine View.ext rfl rfl (funext fun r' => ?_)
    simp only [Layout.view, View.withText]
    by_cases hr' : ∀ n ∈ r', Path.Proper n
    · rw [if_pos hr', if_pos hr', Desk.text?, Desk.withStore, Store.get?_of_revise? hstore]
      by_cases heq : r' = q
      · subst heq
        obtain ⟨doc, hdoc⟩ := Option.isSome_iff_exists.mp (Store.contains_of_revise? hstore)
        simp [Path.same_refl, hdoc, htext]
      · rw [if_neg heq, if_neg fun hsame => heq ((same_path_iff hq hr').mp hsame).symm]
        rfl
    · rw [if_neg hr', if_neg hr', if_neg fun heq : r' = q => hr' (heq ▸ hq)]

/-- A path is entered and tracked. -/
theorem enter (h : m.Stage v w d) (doc : Document) (hq : ∀ n ∈ q, Path.Proper n) (hpath : doc.path = m.path q)
    (hnew : d.shared.store.contains (m.path q) = false) (hclosed : doc.isOpen = false) :
    m.Stage (v.withText q doc.content) w
      ({ d with workspace := d.workspace.track (m.path q) }.withStore (d.shared.store.insert doc)) := by
  rw [← hpath] at hnew ⊢
  have hfound := Store.get?_insert_self hnew
  have hin : (d.shared.store.insert doc).contains doc.path = true := by rw [Store.contains, hfound]; rfl
  refine ⟨⟨h.order.holds, ?_, ?_, fun p => ?_, fun p hp => ?_⟩, ?_, h.watched⟩
  · exact (congrArg Replica.dir (Workspace.replica_track _ _)).trans h.order.replica
  · exact (h.order.registered.entered hnew).tracked (hpath ▸ (encloses_path hq).1) hin
  · exact (Store.isOpen_insert_closed hnew hclosed p).trans (h.order.closed p)
  · rw [Desk.withStore, Store.contains_insert_eq hnew, Bool.or_eq_true] at hp
    rcases hp with hp | hp
    · exact h.order.keyed p hp
    · exact ⟨q, hq, hpath ▸ hp⟩
  · rw [← h.view]
    refine View.ext rfl rfl (funext fun r => ?_)
    simp only [Layout.view, View.withText]
    by_cases hr : ∀ n ∈ r, Path.Proper n
    · rw [if_pos hr, if_pos hr, Desk.text?, Desk.withStore]
      by_cases heq : r = q
      · rw [if_pos heq, heq, ← hpath, hfound]
        rfl
      · have hother : doc.path.same (m.path r) = false := by
          rw [Bool.eq_false_iff, hpath]
          exact fun hsame => heq ((same_path_iff hq hr).mp hsame).symm
        rw [if_neg heq, Store.get?_insert_of_not_same _ hother]
        rfl
    · rw [if_neg hr, if_neg hr, if_neg fun heq : r = q => hr (heq ▸ hq)]

/-- A place is let go of with all below it. -/
theorem untrack (h : m.Stage v w d) (hq : ∀ n ∈ q, Path.Proper n) :
    m.Stage (v.withoutText q) w (d.untracked (m.path q)) := by
  refine ⟨⟨h.order.holds, ?_, h.order.registered.untracked _, fun p => ?_, fun p hp => ?_⟩, ?_, h.watched⟩
  · exact (congrArg Replica.dir (Workspace.replica_foldl_release _ _)).trans h.order.replica
  · exact (Desk.isOpen_untracked d _ p).trans (h.order.closed p)
  · obtain ⟨doc, hdoc⟩ := Option.isSome_iff_exists.mp hp
    exact h.order.keyed p (by rw [Store.contains, Desk.get?_of_untracked hdoc]; rfl)
  · rw [← h.view]
    refine View.ext rfl rfl (funext fun r => ?_)
    simp only [Layout.view, View.withoutText]
    by_cases hr : ∀ n ∈ r, Path.Proper n
    · rw [if_pos hr, if_pos hr, Desk.text?, Desk.get?_untracked, h.order.closed, Bool.not_false, Bool.true_and]
      by_cases hqr : q <+: r
      · rw [if_pos (List.isPrefixOf_iff_prefix.mpr hqr)]
        -- What has a document is tracked, and so it is among what is let go.
        cases hdoc : d.shared.store.get? (m.path r) with
        | none => rw [ite_self]; rfl
        | some doc =>
          have hin : d.shared.store.contains (m.path r) = true := by rw [Store.contains, hdoc]; rfl
          have htracks :=
            (h.order.registered.owned _ hin (encloses_path hr).1).resolve_right fun hr => hr.elim fun _ hf => hf.1
          obtain ⟨p, hp, hsame⟩ := List.any_eq_true.mp htracks
          have hmem : p ∈ d.gone (m.path q) := Desk.mem_gone.mpr
            ⟨hp, (Path.startsWith_congr hsame).trans ((startsWith_path_iff hr hq).mpr hqr), h.order.closed p⟩
          rw [List.any_eq_true.mpr ⟨p, hmem, hsame⟩, Bool.true_or, if_pos rfl]
          rfl
      · rw [if_neg fun hp => hqr (List.isPrefixOf_iff_prefix.mp hp), if_neg]
        · rfl
        · rw [Bool.or_eq_true, not_or]
          refine ⟨fun hany => ?_, fun hsame => hqr ((same_path_iff hq hr).mp hsame ▸ List.prefix_rfl)⟩
          obtain ⟨p, hp, hsame⟩ := List.any_eq_true.mp hany
          have hstarts := (Desk.mem_gone.mp hp).2.1
          rw [Path.startsWith_congr hsame] at hstarts
          exact hqr ((startsWith_path_iff hr hq).mp hstarts)
    · rw [if_neg hr, if_neg hr, ite_self]

/-- What is put in the replica for a node of the tree is its copy. -/
theorem mirrors (h : m.Stage v w d) (ht : v.tree q = some t) (hk : t.CopiedAs k) (hfits : m.Fits q) {disk : Disk}
    (hattempt : m.site.Attempt (m.copy q) q k d.shared.disk disk) :
    ∃ v', v.Mirrors (· = q) v' ∧ v'.text = v.text
      ∧ m.Stage v' w { d with shared := { d.shared with disk := disk } } := by
  refine ⟨{ v with copy := m.site.node disk }, ⟨rfl, fun p hp => by simp [hp, ht], fun r => ?_,
    fun p t' hp ht' hopen => ?_⟩,
    rfl, h.of_replica hattempt.lays.outside hattempt.tidy⟩
  · rw [h.copy_eq]
    rcases hattempt.lays.frame r with hsame | ⟨hnone, hdir, hway, hne⟩ | ⟨rfl, hend⟩
    · exact .inl hsame
    · exact .inr (.inl ⟨hnone, hdir, q, rfl, hway, hne⟩)
    · exact .inr (.inr ⟨rfl, t, k, ht, hend, hk⟩)
  · subst hp
    rw [ht] at ht'
    cases ht'
    refine ⟨k, hattempt.succeeds hfits.2 ⟨fun r k' hr hne hk' => ?_, fun k' hk' => ?_, ?_⟩, hk⟩
    · obtain ⟨t', ht', hkind⟩ := hopen r k' hr (h.copy_eq ▸ hk')
      rw [h.rooted.directory (by simp [ht]) hr hne] at ht'
      cases ht'
      exact Node.isDirectory_eq_true_iff.mp hkind.symm
    · obtain ⟨t', ht', hkind⟩ := hopen p k' List.prefix_rfl (h.copy_eq ▸ hk')
      rw [ht] at ht'
      cases ht'
      exact hkind.symm.trans hk.isDirectory
    · rw [m.named]
      exact (h.tidy.reaches (h.tree_eq ▸ (show v.tree p ≠ none by simp [ht]))).short

/-- Where the replica has been cleared and the documents have been dropped, all has been let
    go of. -/
theorem lets (h : m.Stage (v.withoutText q) w d) {disk : Disk} (hcleared : m.site.Cleared q d.shared.disk disk) :
    ∃ v', v.LetsGo q v' ∧ m.Stage v' w { d with shared := { d.shared with disk := disk } } := by
  refine ⟨{ v.withoutText q with copy := m.site.node disk }, ⟨rfl, fun r hr => ⟨hcleared.gone r hr, ?_⟩, fun r hr => ?_,
    fun r hr => ?_⟩, h.of_replica hcleared.outside hcleared.tidy⟩
  · exact if_pos (List.isPrefixOf_iff_prefix.mpr hr)
  · show m.site.node disk r = v.copy r
    rw [hcleared.kept r hr, ← h.copy_eq]
    rfl
  · exact if_neg fun hp => hr (List.isPrefixOf_iff_prefix.mp hp)

end Stage

end Layout

end LiveWorkspace
