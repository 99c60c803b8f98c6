/-
  LiveWorkspace/Proofs/Workspace/CompilerMarkers.lean
  ===================================================
  **What the compiler said about a file, and when it is taken back.**

  A compilation publishes what it finds for any file that the configuration names.  It is taken
  back in two ways: by the check of the document, when the configuration is read again or the
  document is diagnosed, and by the list that is published when the document is dropped.  Both
  are for files of the compiler's language only.  So for such a file nothing of the compiler's
  is shown any more once its document has gone or is not compiled, and nothing waits
  (`Desk.Backed`).  For any other file what was shown stays until the file is compiled once
  more, whatever happens to it (`Desk.Standing`).
-/
import LiveWorkspace.Proofs.Workspace.Display
import LiveWorkspace.Proofs.Workspace.Heeding

namespace LiveWorkspace

/-! ### What the compiler says -/

/-- No check finds what counts as the compiler's. -/
def Checkers.Apart (checks : Checkers) (foreign : String → Prop) : Prop :=
  ∀ p text found, checks.check p text = some found → ∀ m ∈ found, ¬ foreign m

namespace Shared

/-- Something of the compiler's is in the list that was published last for a URI since another
    state. -/
def Blames (since : Shared) (foreign : String → Prop) (s : Shared) (u : Uri) : Prop :=
  ∃ m ∈ (since.shown s u).getD [], foreign m

variable {since s : Shared} {foreign : String → Prop} {u v : Uri} {messages : List String}

theorem told_published (s : Shared) (u : Uri) (messages : List String) :
    (s.told u messages).published = if s.isHeard then s.published ++ [⟨u, messages⟩] else s.published := by
  rw [told]
  split <;> rfl

theorem later_told (h : since.published.length ≤ s.published.length) (u : Uri) (messages : List String) :
    since.published.length ≤ (s.told u messages).published.length := by
  rw [told_published]
  split
  · simp only [List.length_append]
    exact Nat.le_add_right_of_le h
  · exact h

theorem shown_told (h : since.published.length ≤ s.published.length) (v : Uri) (messages : List String) (u : Uri) :
    since.shown (s.told v messages) u = if s.isHeard = true ∧ v = u then some messages else since.shown s u := by
  cases hheard : s.isHeard with
  | true =>
    simp only [told, hheard, if_true, true_and]
    exact shown_append h ⟨v, messages⟩ u
  | false => simp [told, hheard, shown]

theorem shown_of_published {s' : Shared} (h : s'.published = s.published) (u : Uri) :
    since.shown s' u = since.shown s u := by
  rw [shown, shown, h]

end Shared

namespace Store

variable {s store : Store} {p q : Path} {u : Uri}

/-- A path has a document with a URI. -/
def Names (s : Store) (p : Path) (u : Uri) : Prop := ∃ doc, s.get? p = some doc ∧ doc.uri = some u

theorem Names.contains (h : s.Names p u) : s.contains p = true := by
  obtain ⟨doc, hdoc, -⟩ := h
  exact contains_of_get? hdoc

theorem Names.revised (h : s.Names p u) {r : Revision} (hstore : s.revise? q r = .ok store) : store.Names p u := by
  obtain ⟨doc, hdoc, hu⟩ := h
  rw [Names, get?_of_revise? hstore, hdoc]
  split
  · exact ⟨doc.revise s.encoding r, rfl, by cases r <;> exact hu⟩
  · exact ⟨doc, rfl, hu⟩

end Store

namespace Desk

variable {checks : Checkers} {since : Shared} {foreign : String → Prop} {u : Uri} {p q : Path} {stale stale' : Prop}
  {owed : List Document} {d : Desk} {w : Workspace}

/-! ### Files of the compiler's language -/

/-- Something of the compiler's is shown for a URI only while the path that it names has its
    document with that URI and is compiled, or is stale. What was dropped is still to be taken
    back. -/
structure Backed (since : Shared) (foreign : String → Prop) (u : Uri) (p : Path) (stale : Prop) (owed : List Document)
    (d : Desk) : Prop where
  later : since.published.length ≤ d.shared.published.length
  unheard : d.shared.isHeard = false → d.shared.published = since.published
  honest : d.shared.store.Honest
  owes : ∀ doc ∈ owed, doc.uri = some u → doc.kind.isFaust = true
  backed : since.Blames foreign d.shared u →
    (∃ doc ∈ owed, doc.uri = some u) ∨ d.shared.store.Names p u ∧ (stale ∨ d.workspace.compiles p = true)

namespace Backed

theorem mono (h : Backed since foreign u p stale owed d) (himp : stale → stale') : Backed since foreign u p stale' owed d :=
  { h with backed := fun hb => (h.backed hb).imp_right (And.imp_right (Or.imp_left himp)) }

/-- Where nothing of the compiler's is shown, nothing is stale. -/
theorem of_not_blames (h : Backed since foreign u p stale owed d) (hnot : ¬ since.Blames foreign d.shared u) :
    Backed since foreign u p stale' owed d := { h with backed := fun hb => absurd hb hnot }

theorem not_blames_of_unheard (h : Backed since foreign u p stale owed d) (hunheard : d.shared.isHeard = false) :
    ¬ since.Blames foreign d.shared u := by
  simp [Shared.Blames, Shared.shown, h.unheard hunheard, Publication.last?]

/-- Where there is no document, nothing of the compiler's is shown. -/
theorem not_blames_of_absent (h : Backed since foreign u p stale [] d) (hout : d.shared.store.contains p = false) :
    ¬ since.Blames foreign d.shared u := by
  intro hb
  rcases h.backed hb with ⟨doc, hdoc, -⟩ | ⟨hnames, -⟩
  · cases hdoc
  · simp [hnames.contains] at hout

/-- Messages were sent for a URI: what backs the list that is shown then. -/
theorem told (h : Backed since foreign u p stale owed' d) (v : Uri) (messages : List String)
    (howes : ∀ doc ∈ owed, doc.uri = some u → doc.kind.isFaust = true)
    (hsame : v = u → (∃ m ∈ messages, foreign m) →
      (∃ doc ∈ owed, doc.uri = some u) ∨ d.shared.store.Names p u ∧ (stale ∨ d.workspace.compiles p = true))
    (hother : v ≠ u → (∃ doc ∈ owed', doc.uri = some u) → ∃ doc ∈ owed, doc.uri = some u) :
    Backed since foreign u p stale owed { d with shared := d.shared.told v messages } := by
  refine ⟨Shared.later_told h.later v messages, fun hunheard => ?_, ?_, howes, fun hb => ?_⟩
  · rw [Shared.told_isHeard] at hunheard
    simp [Shared.told_published, hunheard, h.unheard hunheard]
  · rw [Shared.told_store]
    exact h.honest
  · rw [Shared.told_store]
    rw [Shared.Blames, Shared.shown_told h.later] at hb
    split at hb
    · rename_i hreached
      exact hsame hreached.2 hb
    · rename_i hmissed
      refine (h.backed hb).imp_left (hother fun hv => ?_)
      exact h.not_blames_of_unheard (Bool.eq_false_iff.mpr fun hheard => hmissed ⟨hheard, hv⟩) hb

end Backed

/-- What backs the markers of a file of the compiler's language bears all that handlers do up
    to where the configuration is read again. -/
theorem backed_heeds (since : Shared) (hchecks : checks.Apart foreign) (hu : u.toPath? = some p)
    (hfaust : (FileKind.ofPath p).isFaust = true) (stale : Prop) :
    Heeds checks (Backed since foreign u p stale) fun _ => True where
  aside owed d d' h haside := by
    refine ⟨?_, ?_, ?_, h.owes, fun hb => ?_⟩
    · rw [haside.published]
      exact h.later
    · rw [haside.heard, haside.published]
      exact h.unheard
    · rw [haside.store]
      exact h.honest
    · rw [Shared.Blames, Shared.shown_of_published haside.published] at hb
      simp only [Workspace.compiles, haside.root, haside.config, haside.store]
      exact h.backed hb
  revised d q r store h _ hstore :=
    { h with
      honest := h.honest.revised hstore
      backed := fun hb => (h.backed hb).imp_right (And.imp_left fun hnames => hnames.revised hstore) }
  entered d doc h _ hnew huri := by
    refine { h with honest := h.honest.inserted hnew huri, backed := fun hb => (h.backed hb).imp_right ?_ }
    rintro ⟨⟨old, hold, hou⟩, hcause⟩
    refine ⟨⟨old, ?_, hou⟩, hcause⟩
    rw [withStore, Store.get?_insert_of_not_same, hold]
    cases hsame : doc.path.same p with
    | false => rfl
    | true => simp [Store.contains, Store.get?_congr _ hsame, hold] at hnew
  erased owed d q h _ := by
    refine { h with honest := h.honest.erased q, owes := fun doc hdoc hdu => ?_, backed := fun hb => ?_ }
    · rcases List.mem_append.mp hdoc with hdoc | hdoc
      · exact h.owes doc hdoc hdu
      · have hpath := (h.honest q doc u (Option.mem_toList.mp hdoc) hdu).symm.trans hu
        rw [Document.kind, Option.some.inj hpath]
        exact hfaust
    · rcases h.backed hb with ⟨doc, hdoc, hdu⟩ | ⟨⟨doc, hdoc, hdu⟩, hcause⟩
      · exact .inl ⟨doc, List.mem_append_left _ hdoc, hdu⟩
      · cases hsame : q.same p with
        | true => exact .inl ⟨doc, by simp [Store.get?_congr _ hsame, hdoc], hdu⟩
        | false => exact .inr ⟨⟨doc, (Store.get?_erase_of_not_same _ hsame).trans hdoc, hdu⟩, hcause⟩
  cleared owed d doc v h _ hv := by
    refine h.told v [] (fun x hx => h.owes x (List.mem_cons_of_mem _ hx)) (fun _ hm => by simp at hm) ?_
    rintro hne ⟨x, hx, hxu⟩
    rcases List.mem_cons.mp hx with rfl | hx
    · exact absurd (Option.some.inj (hv.symm.trans hxu)) hne
    · exact ⟨x, hx, hxu⟩
  unowed owed d doc h hdoc := by
    refine { h with owes := fun x hx => h.owes x (List.mem_cons_of_mem _ hx), backed := fun hb => ?_ }
    refine (h.backed hb).imp_left ?_
    rintro ⟨x, hx, hxu⟩
    rcases List.mem_cons.mp hx with rfl | hx
    · simp [hdoc (h.owes x List.mem_cons_self hxu)] at hxu
    · exact ⟨x, hx, hxu⟩
  checked d q doc v found h _ _ _ hfound := by
    refine h.told v found h.owes (fun _ hm => ?_) fun _ => id
    obtain ⟨m, hm, hforeign⟩ := hm
    exact absurd hforeign (hchecks q doc.content found hfound m hm)
  compiled d doc c h hcompiles hdoc := by
    have hrecorded : Backed since foreign u p stale [] { d with shared := { d.shared with
        compiled := d.shared.compiled ++ [c] } } := ⟨h.later, h.unheard, h.honest, h.owes, h.backed⟩
    refine ⟨hrecorded, fun v hv => hrecorded.told v _ h.owes (fun hvu _ => .inr ?_) fun _ => id⟩
    have hpath := (h.honest _ doc v hdoc hv).symm.trans (hvu ▸ hu)
    have hsame : c.request.path.same p = true := by
      rw [← Option.some.inj hpath, Path.same_comm]
      exact Store.same_of_get?_eq_some hdoc
    refine ⟨⟨doc, ?_, hvu ▸ hv⟩, .inr ?_⟩
    · rw [← Store.get?_congr _ hsame]
      exact hdoc
    · exact (d.workspace.compiles_congr hsame).symm.trans hcompiles

/-- What the handler of an event leaves stale, apart from what it finds stale: nothing, if it
    leaves the path tracked. -/
def Leaves (since : Shared) (foreign : String → Prop) (u : Uri) (p : Path) (stale : Prop) (d : Desk) : Prop :=
  Heeded (Backed since foreign u p (stale ∨ d.workspace.tracks p = false)) d

theorem Leaves.of_heeded (h : Heeded (Backed since foreign u p stale) d) : d.Leaves since foreign u p stale :=
  ⟨h.1, h.2.mono .inl⟩

/-! ### Checks -/

section Faust

variable (hchecks : checks.Apart foreign) (hu : u.toPath? = some p) (hfaust : (FileKind.ofPath p).isFaust = true)
include hchecks hu hfaust

/-- A check takes back what the compiler said about its path. -/
theorem check_backs (stale' : Prop) (hsame : q.same p = true) (hd : Heeded (Backed since foreign u p stale) d) :
    wp (liftM (Shared.check checks q) : Act Desk Bool) (fun _ => Heeded (Backed since foreign u p stale'))
      (fun _ _ => True) d := by
  have hkeeps := backed_heeds since hchecks hu hfaust stale
  suffices h : wp (liftM (Shared.check checks q) : Act Desk Bool) (fun _ d' => ¬ since.Blames foreign d'.shared u)
      (fun _ _ => True) d by
    refine wp_imp (wp_and (hkeeps.check_heeds trivial d hd) h) (fun _ d' hd' => ?_) fun _ _ _ => trivial
    exact ⟨hd'.1.1, hd'.1.2.of_not_blames hd'.2⟩
  rw [wp_onShared, Shared.check, wp_bind, wp_get]
  cases hdoc : d.shared.store.get? q with
  | none =>
    refine (wp_pure _).mpr (hd.2.not_blames_of_absent ?_)
    simp [Store.contains, ← Store.get?_congr _ hsame, hdoc]
  | some doc =>
    have hkind : doc.kind.isFaust = true := by
      rw [Document.kind, FileKind.ofPath_congr (Store.same_of_get?_eq_some hdoc), FileKind.ofPath_congr hsame]
      exact hfaust
    refine (wp_ite _ _).mpr ⟨fun hother => by simp [hkind] at hother, fun _ => ?_⟩
    cases hfound : checks.check q doc.content with
    | none => exact (wp_throw _).mpr trivial
    | some found =>
      rw [wp_bind, Shared.wp_revise]
      refine ⟨fun store hstore => ?_, fun hout => by simp [Store.contains, hdoc] at hout⟩
      -- What blames the path is shown for its document's URI.
      have huri : since.Blames foreign d.shared u → doc.uri = some u := by
        intro hb
        rcases hd.2.backed hb with ⟨x, hx, -⟩ | ⟨⟨x, hx, hxu⟩, -⟩
        · cases hx
        · rw [← Store.get?_congr _ hsame, hdoc] at hx
          rwa [Option.some.inj hx]
      dsimp only
      cases hv : doc.uri with
      | none =>
        refine (wp_pure _).mpr fun hb => ?_
        simp [huri hb] at hv
      | some v =>
        rw [wp_bind, Shared.wp_publish_told, wp_pure]
        intro hb
        rw [Shared.Blames, Shared.shown_told (s := { d.shared with store := store }) hd.2.later] at hb
        split at hb
        · obtain ⟨m, hm, hforeign⟩ := hb
          exact hchecks q doc.content found hfound m hm hforeign
        · rename_i hmissed
          have hvu : v = u := Option.some.inj (hv.symm.trans (huri hb))
          exact hd.2.not_blames_of_unheard (Bool.eq_false_iff.mpr fun hheard => hmissed ⟨hheard, hvu⟩) hb

theorem diagnose_backs (hsame : q.same p = true) (hd : Heeded (Backed since foreign u p stale) d) :
    wp (diagnose checks q) (fun _ => Heeded (Backed since foreign u p stale')) (fun _ _ => True) d := by
  rw [diagnose, wp_bind]
  refine wp_imp (check_backs hchecks hu hfaust stale' hsame hd) (fun isFaust d' hd' => ?_) fun _ _ he => he
  refine wp_imp (Preserves.ite (fun _ => ?_) (fun _ => Preserves.pure _) d' hd') (fun _ _ hd => hd) fun _ _ _ => trivial
  exact (backed_heeds since hchecks hu hfaust stale').compile_heeds

/-! ### The configuration -/

/-- Under another configuration all markers of the compiler's are stale, until the documents of
    the tracked paths have been checked. -/
theorem reloadConfig_backs (hd : Heeded (Backed since foreign u p stale) d) :
    wp (reloadConfig checks)
      (fun _ => Leaves since foreign u p stale')
      (fun _ _ => True) d := by
  have hkeeps := fun stale => backed_heeds since hchecks hu hfaust stale
  rw [reloadConfig, diagnoseAll, wp_bind]
  refine wp_imp ((hkeeps stale).report_heeds _ d hd) (fun _ d hd => ?_) fun _ _ _ => trivial
  rw [wp_bind]
  have hconfig : ∀ (d : Desk) (c : ProjectConfig), Backed since foreign u p stale [] d →
      Backed since foreign u p True [] { d with workspace := { d.workspace with config := c } } := fun d c hd =>
    ⟨hd.later, hd.unheard, hd.honest, hd.owes, fun hb => (hd.backed hb).imp_right (And.imp_right fun _ => .inl trivial)⟩
  refine wp_imp ((hkeeps stale).loadConfig_heeds hconfig hd) (fun _ d hd => ?_) fun _ _ he => he
  rw [wp_bind, wp_get, wp_bind]
  refine wp_imp (wp_forM (fun done d' => d'.workspace = d.workspace
    ∧ Heeded (Backed since foreign u p (∀ x ∈ done, x.same p = false)) d') ?_ fun done x rest d' _ hd' => ?_)
    (fun _ d' hd' => ?_) fun _ _ he => he
  · exact ⟨rfl, hd.1, hd.2.mono fun _ => by simp⟩
  · rw [wp_bind]
    have hsame := onShared_workspace (Shared.check checks x) d.workspace d' hd'.1
    cases hx : x.same p with
    | true =>
      have hcheck := check_backs hchecks hu hfaust (∀ y ∈ done ++ [x], y.same p = false) hx hd'.2
      exact wp_imp (wp_and hsame hcheck) (fun _ d'' hd'' => (wp_pure _).mpr hd'') fun _ _ _ => trivial
    | false =>
      refine wp_imp (wp_and hsame ((hkeeps _).check_heeds trivial d' hd'.2)) (fun _ d'' hd'' => ?_) fun _ _ _ => trivial
      refine (wp_pure _).mpr ⟨hd''.1, hd''.2.1, hd''.2.2.mono fun hnone => ?_⟩
      simpa [or_imp, forall_and, hx] using hnone
  · have hsame : wp (compile checks) (fun _ d'' => d''.workspace = d.workspace) (fun _ _ => True) d' := by
      rw [compile, wp_bind, wp_get]
      exact wp_imp (onShared_workspace _ _ d' hd'.1) (fun _ _ hw => hw) fun _ _ _ => trivial
    refine wp_imp (wp_and hsame ((hkeeps _).compile_heeds d' hd'.2)) (fun _ d'' hd'' => ?_) fun _ _ _ => trivial
    refine ⟨hd''.2.1, hd''.2.2.mono fun hnone => .inr ?_⟩
    rw [hd''.1, Bool.eq_false_iff]
    intro htracks
    obtain ⟨x, hx, hsame⟩ := List.any_eq_true.mp htracks
    simp [hnone x (Path.mem_sort.mpr hx)] at hsame

/-! ### Events -/

theorem onDiskEvent_backs (e : Watch.Event) (hd : Heeded (Backed since foreign u p stale) d) :
    wp (onDiskEvent checks e) (fun _ => Leaves since foreign u p stale) (fun _ _ => True) d := by
  refine (backed_heeds since hchecks hu hfaust stale).onDiskEvent_heeds (fun _ _ => trivial) (fun _ _ _ _ => trivial) hd
    (fun _ => .of_heeded hd) (fun _ _ _ => trivial) fun d' hd' => (wp_ite _ _).mpr ⟨fun _ => ?_, fun _ => ?_⟩
  · exact reloadConfig_backs hchecks hu hfaust hd'
  · exact (wp_pure _).mpr (.of_heeded hd')

/-- What is closed is dropped or checked, unless it is open again. -/
theorem editorClosed_backs (hsame : q.same p = true) (hd : Heeded (Backed since foreign u p True) d) :
    wp (editorClosed checks q) (fun _ => Heeded (Backed since foreign u p (d.shared.store.isOpen q = true)))
      (fun _ _ => True) d := by
  have hkeeps := backed_heeds since hchecks hu hfaust True
  generalize hstale : (d.shared.store.isOpen q = true) = stale
  rw [editorClosed, wp_bind, wp_get]
  refine (wp_ite _ _).mpr ⟨fun hclosed => (wp_ite _ _).mpr ⟨fun _ => ?_, fun _ => ?_⟩, fun hopen => ?_⟩
  · -- The document has gone before its markers have.
    have herased := hkeeps.erased [] _ q
      (hkeeps.aside [] d { d with workspace := d.workspace.release q } hd.2 ⟨rfl, rfl, rfl, rfl, rfl, rfl⟩) trivial
    refine wp_imp ((backed_heeds since hchecks hu hfaust stale).forget_heeds_of _ hd.1 { herased with backed := fun hb => ?_ })
      (fun _ _ hd => hd) fun _ _ _ => trivial
    refine (herased.backed hb).imp_right fun hnames => ?_
    have hout : (d.shared.store.erase q).contains p = false := by simp [Store.contains_erase_eq, hsame]
    exact absurd hnames.1.contains (Bool.eq_false_iff.mp hout)
  · rw [wp_bind]
    refine wp_imp (hkeeps.reload_finds trivial hd) (fun outcome d' hd' => ?_) fun _ _ _ => trivial
    split
    · refine (wp_pure _).mpr ⟨hd'.1.1, hd'.1.2.of_not_blames (hd'.1.2.not_blames_of_absent ?_)⟩
      rw [Store.contains, ← Store.get?_congr _ hsame]
      exact hd'.2 rfl
    · rw [wp_bind]
      refine wp_imp (hkeeps.track_heeds q d' hd'.1) (fun _ d' hd' => ?_) fun _ _ _ => trivial
      rw [wp_bind]
      refine wp_imp (hkeeps.syncReplica_heeds q d' hd') (fun _ d' hd' => ?_) fun _ _ _ => trivial
      exact diagnose_backs hchecks hu hfaust hsame hd'
  · simp only [Bool.not_eq_true', Bool.not_eq_false] at hopen
    exact (wp_pure _).mpr ⟨hd.1, hd.2.mono fun _ => hstale ▸ hopen⟩

/-- What is changed is checked. -/
theorem editorChanged_backs (hsame : q.same p = true) (hd : Heeded (Backed since foreign u p True) d) :
    wp (editorChanged checks q) (fun _ => Heeded (Backed since foreign u p stale)) (fun _ _ => True) d := by
  rw [editorChanged, wp_bind, wp_get]
  refine (wp_ite _ _).mpr ⟨fun _ => ?_, fun hout => (wp_pure _).mpr ⟨hd.1, ?_⟩⟩
  · rw [wp_bind]
    refine wp_imp ((backed_heeds since hchecks hu hfaust True).syncReplica_heeds q d hd) (fun _ d' hd' => ?_) fun _ _ _ => trivial
    exact diagnose_backs hchecks hu hfaust hsame hd'
  · refine hd.2.of_not_blames (hd.2.not_blames_of_absent ?_)
    rw [Store.contains, ← Store.get?_congr _ hsame]
    simpa [Store.contains] using hout

/-- Once an event of the editor is handled, its path is stale no more, unless the event leaves
    that to another one. -/
theorem onEditorEvent_backs (e : EditorEvent) (hd : Heeded (Backed since foreign u p (stale ∨ e.path.same p = true)) d) :
    wp (onEditorEvent checks e)
      (fun outcome d' => outcome = .ok () →
        d'.Leaves since foreign u p (stale ∨ e.path.same p = true ∧ e.Defers d.shared.store))
      (fun _ _ => True) d := by
  have hend : ∀ {stale : Prop} (r : Path) (d' : Desk), Heeded (Backed since foreign u p stale) d' → wp (do
      if r.isConfigFile then reloadConfig checks
      return (.ok () : Except WorkspaceError Unit))
      (fun outcome d' => outcome = .ok () → d'.Leaves since foreign u p stale) (fun _ _ => True) d' := by
    intro stale r d' hd'
    refine (wp_ite _ _).mpr ⟨fun _ => ?_, fun _ => (wp_pure _).mpr fun _ => .of_heeded hd'⟩
    rw [wp_bind]
    exact wp_imp (reloadConfig_backs hchecks hu hfaust hd') (fun _ _ hd => (wp_pure _).mpr fun _ => hd) fun _ _ he => he
  cases hsame : e.path.same p with
  | false =>
    have hd' : Heeded (Backed since foreign u p (stale ∨ false = true ∧ e.Defers d.shared.store)) d :=
      ⟨hd.1, hd.2.mono fun hs => .inl (by simpa [hsame] using hs)⟩
    exact (backed_heeds since hchecks hu hfaust _).onEditorEvent_heeds trivial hd' (fun _ _ hok => by cases hok)
      (fun _ _ _ => trivial) (fun _ _ d' hd' _ => .of_heeded hd') fun _ => hend e.path
  | true =>
    have hstale : Heeded (Backed since foreign u p True) d := ⟨hd.1, hd.2.mono fun _ => trivial⟩
    rw [onEditorEvent, wp_bind, wp_get]
    refine (wp_ite _ _).mpr ⟨fun _ => ?_, fun _ => ?_⟩
    · rw [wp_bind, wp_onShared, Shared.wp_report, wp_pure]
      exact fun hok => by cases hok
    · cases e with
      | opened q =>
        rw [wp_bind]
        refine wp_imp ((backed_heeds since hchecks hu hfaust True).editorOpened_heeds q d hstale) (fun _ d' hd' => ?_)
          fun _ _ _ => trivial
        exact (wp_pure _).mpr fun _ => .of_heeded ⟨hd'.1, hd'.2.mono fun _ => .inr ⟨rfl, trivial⟩⟩
      | changed q =>
        rw [wp_bind]
        exact wp_imp (editorChanged_backs hchecks hu hfaust hsame hstale) (fun _ => hend q) fun _ _ he => he
      | closed q =>
        rw [wp_bind]
        refine wp_imp (editorClosed_backs hchecks hu hfaust hsame hstale) (fun _ d' hd' => hend q d' ?_) fun _ _ he => he
        exact ⟨hd'.1, hd'.2.mono fun hopen => .inr ⟨rfl, hopen⟩⟩

end Faust

/-! ### Other files -/

/-- What is shown for a URI is what was shown before, unless the path that it names has been
    compiled since. -/
structure Standing (since : Shared) (u : Uri) (p : Path) (shown : Option (List String)) (compiled : Nat)
    (owed : List Document) (d : Desk) : Prop where
  later : since.published.length ≤ d.shared.published.length
  longer : compiled ≤ d.shared.compiled.length
  honest : d.shared.store.Honest
  owes : ∀ doc ∈ owed, ∀ v, doc.uri = some v → v.toPath? = some doc.path
  stands : (∀ c ∈ d.shared.compiled.drop compiled, c.request.path.same p = false) → since.shown d.shared u = shown

variable {shown : Option (List String)} {n : Nat}

/-- Messages for the URI of a file of the compiler's language leave what is shown for other
    files alone. -/
theorem Standing.told (h : Standing since u p shown n owed d) {doc : Document} {v : Uri} (messages : List String)
    (hu : u.toPath? = some p) (hother : (FileKind.ofPath p).isFaust = false) (hkind : doc.kind.isFaust = true)
    (hv : v.toPath? = some doc.path) :
    Standing since u p shown n owed { d with shared := d.shared.told v messages } := by
  have hne : v ≠ u := by
    rintro rfl
    have hpath := Option.some.inj (hv.symm.trans hu)
    simp [Document.kind, hpath, hother] at hkind
  refine ⟨Shared.later_told h.later v messages, ?_, ?_, h.owes, fun hnone => ?_⟩
  · rw [Shared.told_compiled]
    exact h.longer
  · rw [Shared.told_store]
    exact h.honest
  · rw [Shared.told_compiled] at hnone
    rw [Shared.shown_told h.later, if_neg fun hboth => hne hboth.2]
    exact h.stands hnone

/-- What is shown for a file that is not of the compiler's language bears all that handlers do,
    but for its compilations. -/
theorem standing_heeds (checks : Checkers) (since : Shared) (shown : Option (List String)) (n : Nat)
    (hu : u.toPath? = some p) (hother : (FileKind.ofPath p).isFaust = false) :
    Heeds checks (Standing since u p shown n) fun _ => True where
  aside owed d d' h haside := by
    refine ⟨?_, ?_, ?_, h.owes, fun hnone => ?_⟩
    · rw [haside.published]
      exact h.later
    · rw [haside.compiled]
      exact h.longer
    · rw [haside.store]
      exact h.honest
    · rw [haside.compiled] at hnone
      rw [Shared.shown_of_published haside.published]
      exact h.stands hnone
  revised _ _ _ _ h _ hstore := { h with honest := h.honest.revised hstore }
  entered _ _ h _ hnew huri := { h with honest := h.honest.inserted hnew huri }
  erased owed d q h _ := by
    refine { h with honest := h.honest.erased q, owes := fun doc hdoc v hv => ?_ }
    rcases List.mem_append.mp hdoc with hdoc | hdoc
    · exact h.owes doc hdoc v hv
    · exact h.honest q doc v (Option.mem_toList.mp hdoc) hv
  cleared owed d doc v h hkind hv := by
    have hdoc : Standing since u p shown n owed d := { h with owes := fun x hx => h.owes x (List.mem_cons_of_mem _ hx) }
    exact hdoc.told [] hu hother hkind (h.owes doc List.mem_cons_self v hv)
  unowed owed d doc h _ := { h with owes := fun x hx => h.owes x (List.mem_cons_of_mem _ hx) }
  checked d q doc v found h hdoc hkind hv _ := h.told found hu hother hkind (h.honest q doc v hdoc hv)
  compiled d doc c h _ hdoc := by
    have hrecorded : Standing since u p shown n [] { d with shared := { d.shared with
        compiled := d.shared.compiled ++ [c] } } := by
      refine ⟨h.later, ?_, h.honest, h.owes, fun hnone => h.stands fun x hx => hnone x ?_⟩
      · simp only [List.length_append]
        exact Nat.le_add_right_of_le h.longer
      · rw [List.drop_append_of_le_length h.longer]
        exact List.mem_append_left _ hx
    refine ⟨hrecorded, fun v hv => ⟨Shared.later_told hrecorded.later v _, ?_, ?_, h.owes, fun hnone => ?_⟩⟩
    · rw [Shared.told_compiled]
      exact hrecorded.longer
    · rw [Shared.told_store]
      exact h.honest
    · rw [Shared.told_compiled] at hnone
      have hne : v ≠ u := by
        rintro rfl
        have hpath := Option.some.inj ((h.honest _ doc v hdoc hv).symm.trans hu)
        have hsame := hnone c (by rw [List.drop_append_of_le_length h.longer]; simp)
        rw [← hpath, Path.same_comm, Store.same_of_get?_eq_some hdoc] at hsame
        cases hsame
      rw [Shared.shown_told hrecorded.later, if_neg fun hboth => hne hboth.2]
      exact hrecorded.stands hnone

theorem Standing.configured (h : Standing since u p shown n owed d) (c : ProjectConfig) :
    Standing since u p shown n owed { d with workspace := { d.workspace with config := c } } :=
  ⟨h.later, h.longer, h.honest, h.owes, h.stands⟩

end Desk

/-! ### Turns -/

namespace Desk

variable {checks : Checkers} {since : Shared} {foreign : String → Prop} {u : Uri} {p : Path} {stale : Prop} {d : Desk}

/-- Where a path that is not tracked has no document, it is not left stale. -/
theorem Leaves.heeded (h : d.Leaves since foreign u p stale)
    (hout : ¬ stale → d.workspace.tracks p = false → d.shared.store.contains p = false) :
    Heeded (Backed since foreign u p stale) d := by
  by_cases hstale : stale
  · exact ⟨h.1, h.2.mono fun _ => hstale⟩
  · cases htracks : d.workspace.tracks p with
    | true => exact ⟨h.1, h.2.mono (Or.resolve_right · (by simp [htracks]))⟩
    | false =>
      have hbare : Backed since foreign u p True [] d := h.2.mono fun _ => trivial
      exact ⟨h.1, hbare.of_not_blames (hbare.not_blames_of_absent (hout hstale htracks))⟩

end Desk

namespace Solo

variable (checks : Checkers) {J : List Document → Desk → Prop} {since : Shared} {foreign : String → Prop} {u : Uri}
  {p root : Path} {s : Solo} {turn : Turn} {turns : List Turn}

/-- A call keeps what bears changes of documents. -/
theorem afterCall_heeds (h : Desk.Heeds checks J fun _ => True) (hs : Desk.Heeded J s.desk) (c : Call) :
    Desk.Heeded J (s.afterCall c).desk := by
  obtain ⟨es, shared, hd, -, hafter⟩ := afterCall_ends
    (Call.act_preserves (T := fun shared => Desk.Heeded J ⟨shared, s.running.workspace⟩) (w := s.running.workspace)
      (fun q r shared hd => (wp_onShared _).mp (h.revise_heeds trivial r ⟨shared, _⟩ hd))
      (fun q root replica shared hd => (wp_onShared _).mp (h.openPath_heeds trivial root true replica ⟨shared, _⟩ hd)) c
      s.shared hs)
  simpa only [hafter, desk, enqueue_shared, enqueue_workspace] using hd

/-- What holds after a turn of a loop that goes on running, by what its handlers do: other turns
    keep what bears changes of documents, and may have events queued. -/
theorem step_heeds (h : Desk.Heeds checks J fun _ => True) (hs : Desk.Heeded J s.desk) (hturn : Regards root turn)
    {P : List EditorEvent → Desk → Prop} (hidle : ∀ es d, Desk.Heeded J d → P (s.running.queue ++ es) d)
    (hnext : ∀ e rest, s.running.queue = e :: rest →
      wp (Desk.onEditorEvent checks e) (fun outcome d => outcome = .ok () → P rest d) (fun _ _ => True) s.desk)
    (hdisk : ∀ e, wp (Desk.onDiskEvent checks e) (fun _ => P s.running.queue) (fun _ _ => True) s.desk)
    (halive' : (s.step checks turn).running.isAlive = true) :
    P (s.step checks turn).running.queue (s.step checks turn).desk := by
  have halive := isAlive_of_step checks halive'
  have hsame : ∀ d, Desk.Heeded J d → P s.running.queue d := fun d hd => by simpa using hidle [] d hd
  cases turn with
  | call c =>
    have hd := afterCall_heeds checks h hs c
    obtain ⟨es, hrunning, -⟩ := s.afterCall_trails (c := c) halive
    rw [step, hrunning]
    exact hidle es _ hd
  | disk disk => exact hsame _ ⟨hturn, h.aside _ _ _ hs.2 ⟨rfl, rfl, rfl, rfl, rfl, rfl⟩⟩
  | handleWatchFailure =>
    rw [step, Running.handleWatchFailure, if_pos halive]
    exact hsame _ ⟨hs.1, h.aside _ _ _ hs.2 ⟨rfl, rfl, rfl, rfl, rfl, rfl⟩⟩
  | handleNext =>
    cases hqueue : s.running.queue with
    | nil => simpa [step, Running.handleNext, halive, hqueue, ofPair] using hsame _ hs
    | cons e rest =>
      obtain ⟨d, hrun, hstep⟩ := (step_handleNext checks halive hqueue).2.2 halive'
      rw [hstep]
      exact (wp_of_ok hrun).mp (hnext e rest hqueue) rfl
  | handleDisk e =>
    obtain ⟨d, hrun, hstep⟩ := (step_handleDisk (e := e) checks halive).2 halive'
    rw [hstep]
    exact (wp_of_ok hrun).mp (hdisk e)

/-! ### Runs, for files of the compiler's language -/

/-- As long as the loop runs, what the compiler said about a path is stale only while an event
    for that path waits. -/
def Backed (since : Shared) (foreign : String → Prop) (u : Uri) (p : Path) (s : Solo) : Prop :=
  s.running.isAlive = true → Desk.Heeded (Desk.Backed since foreign u p (Waits s.running.queue p)) s.desk

section Faust

variable (hchecks : checks.Apart foreign) (hu : u.toPath? = some p) (hfaust : (FileKind.ofPath p).isFaust = true)
  (hp : root.Below p)
include hchecks hu hfaust hp

/-- **No turn leaves what the compiler said without a cause, unless an event waits.** -/
theorem step_backed (h : s.Backed since foreign u p) (htrails : s.Trails)
    (hregistered : (s.step checks turn).Registered root) (hturn : Regards root turn) :
    (s.step checks turn).Backed since foreign u p := by
  intro halive'
  have halive := isAlive_of_step checks halive'
  have hs := h halive
  have hleaves : (s.step checks turn).desk.Leaves since foreign u p (Waits (s.step checks turn).running.queue p) := by
    refine step_heeds checks (Desk.backed_heeds since hchecks hu hfaust _) hs hturn
      (P := fun queue d => d.Leaves since foreign u p (Waits queue p)) (fun es d hd => ?_) (fun e rest hqueue => ?_)
      (fun e => Desk.onDiskEvent_backs hchecks hu hfaust e hs) halive'
    · refine .of_heeded ⟨hd.1, hd.2.mono ?_⟩
      rintro ⟨e, he, hsame⟩
      exact ⟨e, List.mem_append_left _ he, hsame⟩
    · have htrailed := htrails halive
      rw [hqueue] at htrailed
      have hd : Desk.Heeded (Desk.Backed since foreign u p (Waits rest p ∨ e.path.same p = true)) s.desk := by
        refine ⟨hs.1, hs.2.mono ?_⟩
        rintro ⟨x, hx, hsame⟩
        rw [hqueue] at hx
        rcases List.mem_cons.mp hx with rfl | hx
        · exact .inr hsame
        · exact .inl ⟨x, hx, hsame⟩
      refine wp_imp (Desk.onEditorEvent_backs hchecks hu hfaust e hd) (fun outcome d' hd' hok => ?_) fun _ _ he => he
      refine ⟨(hd' hok).1, (hd' hok).2.mono (Or.imp_left ?_)⟩
      rintro (hwaits | ⟨hsame, hdefers⟩)
      · exact hwaits
      · obtain ⟨x, hx, hxe⟩ := htrailed.1 hdefers
        exact ⟨x, hx, (Path.same_congr hxe p).trans hsame⟩
  refine hleaves.heeded fun hidle htracks => ?_
  have hnone : ∀ e ∈ (s.step checks turn).running.queue, e.path.same p = false := fun e he =>
    Bool.eq_false_iff.mpr fun hsame => hidle ⟨e, he, hsame⟩
  rw [Bool.eq_false_iff]
  intro hin
  have htracked := (hregistered.tracks_iff halive' hnone).mpr ⟨hin, hp⟩
  exact absurd (htracks.symm.trans htracked) (by simp)

theorem run_backed (h : s.Backed since foreign u p) (htrails : s.Trails) (hregistered : s.Registered root)
    (hturns : ∀ turn ∈ turns, Regards root turn) : (s.run checks turns).Backed since foreign u p := by
  induction turns generalizing s with
  | nil => exact h
  | cons turn rest ih =>
    have hturn := hturns turn List.mem_cons_self
    have hnext := step_registered checks hregistered hturn
    refine ih ?_ (step_trails checks htrails) hnext fun t ht => hturns t (List.mem_cons_of_mem _ ht)
    exact step_backed checks hchecks hu hfaust hp h htrails hnext hturn

end Faust

/-! ### Runs, for other files -/

/-- As long as the loop runs, what is shown for a URI is what was shown before, unless the path
    that it names has been compiled since. -/
def Standing (since : Shared) (u : Uri) (p : Path) (shown : Option (List String)) (compiled : Nat) (s : Solo) : Prop :=
  s.running.isAlive = true → Desk.Heeded (Desk.Standing since u p shown compiled) s.desk

section Other

variable {shown : Option (List String)} {n : Nat} (hu : u.toPath? = some p)
  (hother : (FileKind.ofPath p).isFaust = false)
include hu hother

/-- **No turn takes back what is shown for a file of another language, but by a compilation.** -/
theorem step_standing (h : s.Standing since u p shown n) (hturn : Regards root turn) :
    (s.step checks turn).Standing since u p shown n := by
  intro halive'
  have hs := h (isAlive_of_step checks halive')
  have hheeds := Desk.standing_heeds checks since shown n hu hother
  have hreload : ∀ {d}, Desk.Heeded (Desk.Standing since u p shown n) d →
      wp (Desk.reloadConfig checks) (fun _ => Desk.Heeded (Desk.Standing since u p shown n)) (fun _ _ => True) d := fun hd =>
    hheeds.reloadConfig_heeds (fun _ => trivial) (fun _ c hd => hd.configured c) hd
  refine step_heeds checks hheeds hs hturn (P := fun _ => Desk.Heeded (Desk.Standing since u p shown n))
    (fun _ _ => id) (fun e rest _ => ?_) (fun e => ?_) halive'
  · refine hheeds.onEditorEvent_heeds trivial hs (fun _ _ hok => by cases hok) (fun _ _ _ => trivial)
      (fun _ _ d hd _ => hd) fun _ d hd => (wp_ite _ _).mpr ⟨fun _ => ?_, fun _ => (wp_pure _).mpr fun _ => hd⟩
    rw [wp_bind]
    exact wp_imp (hreload hd) (fun _ _ hd => (wp_pure _).mpr fun _ => hd) fun _ _ he => he
  · refine hheeds.onDiskEvent_heeds (fun _ _ => trivial) (fun _ _ _ _ => trivial) hs (fun _ => hs) (fun _ _ _ => trivial)
      fun d hd => (wp_ite _ _).mpr ⟨fun _ => hreload hd, fun _ => (wp_pure _).mpr hd⟩

theorem run_standing (h : s.Standing since u p shown n) (hturns : ∀ turn ∈ turns, Regards root turn) :
    (s.run checks turns).Standing since u p shown n := by
  induction turns generalizing s with
  | nil => exact h
  | cons turn rest ih =>
    refine ih ?_ fun t ht => hturns t (List.mem_cons_of_mem _ ht)
    exact step_standing checks hu hother h (hturns turn List.mem_cons_self)

end Other

/-! ### From the opening on -/

variable {given replicaRoot : Path} {shared : Shared} {start : Solo}

/-- A workspace is opened before anything of the compiler's is shown. -/
theorem backed_of_opened (hchecks : checks.Apart foreign) (hu : u.toPath? = some p)
    (hfaust : (FileKind.ofPath p).isFaust = true) (h : opened checks given replicaRoot shared = some start)
    (hproper : shared.disk.Proper) (hhonest : shared.store.Honest) : start.Backed shared foreign u p := by
  obtain ⟨w, hrunning, hcreate⟩ := create_of_opened checks h
  have hheeds := Desk.backed_heeds shared hchecks hu hfaust False
  have hnow : Desk.Heeded (Desk.Backed shared foreign u p False) ⟨start.shared, w⟩ := by
    -- Nothing is compiled before the configuration is read.
    refine (hheeds.and (Desk.workspace_heeds checks fun _ c => c = {})).create_heeds (fun _ => trivial) hcreate
      (fun root _ => ⟨hproper, ?_, rfl⟩) fun d hd => ?_
    · refine ⟨Nat.le_refl _, fun _ => rfl, hhonest, fun doc hdoc => absurd hdoc List.not_mem_nil, fun hb => ?_⟩
      simp [Shared.Blames, Shared.shown, Publication.last?] at hb
    · have hconfig : ∀ (d : Desk) (c : ProjectConfig), Desk.Backed shared foreign u p False [] d ∧ d.workspace.config = {} →
          Desk.Backed shared foreign u p False [] { d with workspace := { d.workspace with config := c } } := by
        intro d c hd
        refine ⟨hd.1.later, hd.1.unheard, hd.1.honest, hd.1.owes, fun hb => ?_⟩
        rcases hd.1.backed hb with hdropped | ⟨-, hfalse | hcompiles⟩
        · exact .inl hdropped
        · exact hfalse.elim
        · simp [Workspace.compiles, hd.2, ProjectConfig.processPaths] at hcompiles
      rw [wp_bind]
      refine wp_imp ((hheeds.and (Desk.workspace_heeds checks fun _ c => c = {})).loadConfig_heeds hconfig hd)
        (fun _ d' hd' => ?_) fun _ _ he => he
      exact wp_imp (hheeds.compile_heeds d' hd') (fun _ _ hd => hd) fun _ _ _ => trivial
  have hdesk : start.desk = ⟨start.shared, w⟩ := by rw [desk, hrunning]
  intro _
  rw [hdesk]
  exact ⟨hnow.1, hnow.2.mono False.elim⟩

theorem standing_of_opened (hu : u.toPath? = some p) (hother : (FileKind.ofPath p).isFaust = false)
    (h : opened checks given replicaRoot shared = some start) (hproper : shared.disk.Proper)
    (hhonest : shared.store.Honest) : start.Standing shared u p none shared.compiled.length := by
  obtain ⟨w, hrunning, hcreate⟩ := create_of_opened checks h
  have hheeds := Desk.standing_heeds checks shared none shared.compiled.length hu hother
  have hnow : Desk.Heeded (Desk.Standing shared u p none shared.compiled.length) ⟨start.shared, w⟩ := by
    refine hheeds.create_heeds (fun _ => trivial) hcreate (fun root _ => ⟨hproper, ?_⟩) fun d hd => ?_
    · refine ⟨Nat.le_refl _, Nat.le_refl _, hhonest, fun doc hdoc => absurd hdoc List.not_mem_nil, fun _ => ?_⟩
      simp [Shared.shown, Publication.last?]
    · rw [wp_bind]
      refine wp_imp (hheeds.loadConfig_heeds (fun _ c hd => hd.configured c) hd) (fun _ d' hd' => ?_) fun _ _ he => he
      exact wp_imp (hheeds.compile_heeds d' hd') (fun _ _ hd => hd) fun _ _ _ => trivial
  have hdesk : start.desk = ⟨start.shared, w⟩ := by rw [desk, hrunning]
  intro _
  rwa [hdesk]

theorem run_append (s : Solo) (done rest : List Turn) :
    s.run checks (done ++ rest) = (s.run checks done).run checks rest := List.foldl_append

/-- What is shown for a file that is not of the compiler's language is the same at the end of a
    run as somewhere on the way, unless the file has been compiled since. -/
theorem shown_of_run (hu : u.toPath? = some p) (hother : (FileKind.ofPath p).isFaust = false)
    (h : opened checks given replicaRoot shared = some start) (hproper : shared.disk.Proper)
    (hhonest : shared.store.Honest) {done rest : List Turn} (hturns : ∀ turn ∈ done ++ rest, Regards root turn)
    (halive : (start.run checks (done ++ rest)).running.isAlive = true)
    (hnone : ∀ c ∈ (start.run checks (done ++ rest)).shared.compiled.drop (start.run checks done).shared.compiled.length,
      c.request.path.same p = false) :
    shared.shown (start.run checks (done ++ rest)).shared u = shared.shown (start.run checks done).shared u := by
  have hdone : (start.run checks done).Standing shared u p none shared.compiled.length :=
    run_standing checks hu hother (standing_of_opened checks hu hother h hproper hhonest) fun t ht =>
      hturns t (List.mem_append_left _ ht)
  have hagain : (start.run checks done).Standing shared u p (shared.shown (start.run checks done).shared u)
      (start.run checks done).shared.compiled.length := by
    intro halive'
    obtain ⟨hdisk, hd⟩ := hdone halive'
    exact ⟨hdisk, hd.later, Nat.le_refl _, hd.honest, hd.owes, fun _ => rfl⟩
  have hend := run_standing checks hu hother hagain fun t ht => hturns t (List.mem_append_right _ ht)
  rw [run_append] at halive hnone ⊢
  exact (hend halive).2.stands hnone

/-- **What the compiler said about a file is taken back with its cause.**  From the opening of a
    workspace on, and as long as the loop runs and no event waits for a path of the workspace,
    nothing of the compiler's is shown for a file of its language that has no document any more
    or is not compiled.  What is shown for a file of another language is taken back by nothing
    but the file's next compilation. -/
theorem backed_of_run (hchecks : checks.Apart foreign) (h : opened checks given replicaRoot shared = some start)
    (hroot : shared.disk.canonicalize given = .ok root) (hproper : shared.disk.Proper)
    (hfresh : ∀ p, root.Below p → shared.store.contains p = false) (hhonest : shared.store.Honest)
    (hturns : ∀ turn ∈ turns, Regards root turn) :
    let s := start.run checks turns
    s.running.isAlive = true → ∀ p u, root.Below p → u.toPath? = some p → (∀ e ∈ s.running.queue, e.path.same p = false) →
      ((FileKind.ofPath p).isFaust = true → s.shared.store.contains p = false ∨ s.running.workspace.compiles p = false →
        ¬ shared.Blames foreign s.shared u)
      ∧ ((FileKind.ofPath p).isFaust = false → ∀ done rest, turns = done ++ rest →
        (∀ c ∈ s.shared.compiled.drop (start.run checks done).shared.compiled.length, c.request.path.same p = false) →
        shared.shown s.shared u = shared.shown (start.run checks done).shared u) := by
  intro s halive p u hp hu hnone
  constructor
  · intro hfaust hgone hb
    have hs : s.Backed shared foreign u p :=
      run_backed checks hchecks hu hfaust hp (backed_of_opened checks hchecks hu hfaust h hproper hhonest)
        (trails_of_opened checks h) (registered_of_opened checks h hroot hproper hfresh) hturns
    rcases (hs halive).2.backed hb with ⟨doc, hdoc, -⟩ | ⟨hnames, hcause⟩
    · cases hdoc
    · rcases hgone with hout | hnot
      · exact absurd (hout.symm.trans hnames.contains) (by simp)
      · rcases hcause with ⟨e, he, hsame⟩ | hcompiles
        · simp [hnone e he] at hsame
        · exact absurd (hnot.symm.trans hcompiles) (by simp)
  · rintro hother done rest rfl hcompiled
    exact shown_of_run checks hu hother h hproper hhonest hturns halive hcompiled

/-- The program does not compile well, and then the compiler is switched off. -/
def silencingTurns : List Turn :=
  [.call (.didOpen ⟨"/w/a.dsp"⟩ "odd"), .handleNext, .handleNext,
    .call (.didOpen ⟨"/w/.faustcfg.json"⟩ "\x7b\"compiler_diagnostics\": false\x7d"), .handleNext, .handleNext]

/-- What the compiler said about the program is taken back. -/
theorem backed_while_silencing :
    Shared.Blames { disk := smallDisk } (· = "warning") (strict.run strictCheckers (silencingTurns.take 3)).shared
        ⟨"file:///w/a.dsp", by decide +kernel⟩
      ∧ ¬ Shared.Blames { disk := smallDisk } (· = "warning") (strict.run strictCheckers silencingTurns).shared
        ⟨"file:///w/a.dsp", by decide +kernel⟩ := by
  have hchecks : strictCheckers.Apart (· = "warning") := by
    intro q text found hfound m hm hwarning
    simp only [strictCheckers, Option.some.injEq] at hfound
    subst hfound hwarning
    split at hm <;> simp at hm
  have hturns : ∀ turn ∈ silencingTurns, Regards ⟨"/w"⟩ turn := by
    intro turn hturn
    simp only [silencingTurns, List.mem_cons, List.not_mem_nil, or_false] at hturn
    rcases hturn with rfl | rfl | rfl | rfl | rfl | rfl
    · exact (by decide : Path.startsWith ⟨"/w/a.dsp"⟩ ⟨"/w"⟩ = true)
    · trivial
    · trivial
    · exact (by decide : Path.startsWith ⟨"/w/.faustcfg.json"⟩ ⟨"/w"⟩ = true)
    · trivial
    · trivial
  have hopened : opened strictCheckers ⟨"/w"⟩ ⟨"/r"⟩ { disk := smallDisk } = some strict := (Option.some_get _).symm
  have hhonest : Store.Honest {} := fun p doc u hdoc => by simp [Store.get?] at hdoc
  have hbelow : Path.startsWith ⟨"/w/a.dsp"⟩ ⟨"/w"⟩ = true := by decide
  have hend : (strict.run strictCheckers silencingTurns).running.isAlive = true
      ∧ (strict.run strictCheckers silencingTurns).running.queue = []
      ∧ (strict.run strictCheckers silencingTurns).running.workspace.compiles ⟨"/w/a.dsp"⟩ = false := by decide +kernel
  obtain ⟨halive, hqueue, hsilent⟩ := hend
  refine ⟨⟨"warning", by decide +kernel, rfl⟩, ?_⟩
  have hbacked := backed_of_run strictCheckers hchecks hopened small_begins.resolved small_begins.ground.proper
    (fun _ _ => rfl) hhonest hturns halive ⟨"/w/a.dsp"⟩ ⟨"file:///w/a.dsp", by decide +kernel⟩ hbelow (by decide +kernel)
    (by simp [hqueue])
  exact hbacked.1 (by decide) (.inr hsilent)

/-- A file that is no program is named as one, and goes. -/
def namingTurns : List Turn :=
  [.call (.didOpen ⟨"/w/x.txt"⟩ "odd"), .handleNext, .handleNext,
    .call (.didOpen ⟨"/w/.faustcfg.json"⟩ "\x7b\"process_files\": [\"x.txt\"]\x7d"), .handleNext, .handleNext,
    .call (.didClose ⟨"/w/x.txt"⟩), .handleNext]

/-- What the compiler said about it while it was tracked stays, though nothing waits. -/
theorem text_still_blamed :
    (strict.run strictCheckers (namingTurns.take 6)).running.workspace.tracks ⟨"/w/x.txt"⟩ = true
      ∧ (strict.run strictCheckers namingTurns).running.isAlive = true
      ∧ (strict.run strictCheckers namingTurns).running.queue = []
      ∧ (strict.run strictCheckers namingTurns).shared.store.contains ⟨"/w/x.txt"⟩ = false
      ∧ Shared.Blames { disk := smallDisk } (· = "warning") (strict.run strictCheckers namingTurns).shared
        ⟨"file:///w/x.txt", by decide +kernel⟩ :=
  ⟨by decide +kernel, by decide +kernel, by decide +kernel, by decide +kernel, "warning", by decide +kernel, rfl⟩

end Solo

end LiveWorkspace
