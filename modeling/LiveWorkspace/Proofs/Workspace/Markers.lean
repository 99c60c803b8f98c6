/-
  LiveWorkspace/Proofs/Workspace/Markers.lean
  ===========================================
  **What is shown for a document, and for what has none.**

  Each list that is published for a URI replaces the one before, and lists come from checks,
  from compilations and from the dropping of documents.  What is shown for a document fits it
  (`Desk.Fits`) when it is what the check of its text found, or else, for a file that is
  compiled, what the latest compilation of it found.

  The pieces of a handler leave gaps for one another: a path is stale from the change of its
  text to its next check, it is late from then to the next compilation, and a dropped document
  is owed the list that takes its markers away.  `Desk.Marked` names these gaps, and each piece
  opens or closes them.  As no two paths have one URI, what is published for one document
  leaves the others alone.
-/
import LiveWorkspace.Proofs.Uri
import LiveWorkspace.Proofs.Workspace.LettingGo
import LiveWorkspace.Proofs.Workspace.Triples

namespace LiveWorkspace

/-! ### The latest of a list -/

/-- The messages published last for a URI. -/
def Publication.last? (ms : List Publication) (u : Uri) : Option (List String) :=
  (ms.filter (·.uri = u)).getLast?.map (·.messages)

theorem Publication.last?_append (ms : List Publication) (m : Publication) (u : Uri) :
    last? (ms ++ [m]) u = if m.uri = u then some m.messages else last? ms u := by
  by_cases h : m.uri = u <;> simp [last?, h]

namespace Shared

/-- The messages published last for a URI since another state. -/
def shown (since s : Shared) (u : Uri) : Option (List String) :=
  Publication.last? (s.published.drop since.published.length) u

/-- The latest compilation of a path. -/
def compilation? (s : Shared) (p : Path) : Option Compilation := (s.compiled.filter (·.request.path.same p)).getLast?

theorem compilation?_append (s : Shared) (c : Compilation) (p : Path) :
    compilation? { s with compiled := s.compiled ++ [c] } p
      = if c.request.path.same p then some c else s.compilation? p := by
  cases h : c.request.path.same p <;> simp [compilation?, h]

theorem shown_append {since s : Shared} (h : since.published.length ≤ s.published.length) (m : Publication) (u : Uri) :
    since.shown { s with published := s.published ++ [m] } u
      = if m.uri = u then some m.messages else since.shown s u := by
  rw [shown, List.drop_append_of_le_length h, Publication.last?_append]
  rfl

end Shared

/-! ### URIs of documents -/

/-- The URI of each document names its path. -/
def Store.Honest (s : Store) : Prop := ∀ p doc u, s.get? p = some doc → doc.uri = some u → u.toPath? = some doc.path

namespace Store

variable {s store : Store} {p q : Path} {doc : Document} {u : Uri}

theorem get?_path (h : s.get? p = some doc) : s.get? doc.path = some doc :=
  (get?_congr s (same_of_get?_eq_some h)).trans h

theorem contains_of_get? (h : s.get? p = some doc) : s.contains p = true := by simp [contains, h]

/-- No two paths have one URI. -/
theorem Honest.same_of_uri (h : s.Honest) {doc' : Document} (hdoc : s.get? p = some doc) (hu : doc.uri = some u)
    (hdoc' : s.get? q = some doc') (hu' : doc'.uri = some u) : p.same q = true := by
  have hpath := (h p doc u hdoc hu).symm.trans (h q doc' u hdoc' hu')
  have hp := same_of_get?_eq_some hdoc
  have hq := same_of_get?_eq_some hdoc'
  rw [Option.some.inj hpath] at hp
  exact (Path.same_congr hp q).symm.trans hq

theorem Honest.revised (h : s.Honest) {r : Revision} (hstore : s.revise? p r = .ok store) : store.Honest := by
  intro q doc u hdoc hu
  rw [get?_of_revise? hstore] at hdoc
  split at hdoc
  · obtain ⟨old, hold, rfl⟩ := Option.map_eq_some_iff.mp hdoc
    have huri : (old.revise s.encoding r).uri = old.uri := by cases r <;> rfl
    rw [Document.revise_path]
    exact h q old u hold (huri.symm.trans hu)
  · exact h q doc u hdoc hu

theorem Honest.inserted (h : s.Honest) (hnew : s.contains doc.path = false)
    (hdoc : ∀ u, doc.uri = some u → u.toPath? = some doc.path) : (s.insert doc).Honest := by
  intro q doc' u hdoc' hu
  cases hsame : doc.path.same q with
  | false =>
    rw [get?_insert_of_not_same s hsame] at hdoc'
    exact h q doc' u hdoc' hu
  | true =>
    rw [← get?_congr _ hsame, get?_insert_self hnew] at hdoc'
    obtain rfl := Option.some.inj hdoc'
    exact hdoc u hu

theorem Honest.erased (h : s.Honest) (p : Path) : (s.erase p).Honest := by
  intro q doc u hdoc hu
  cases hsame : p.same q with
  | false =>
    rw [get?_erase_of_not_same s hsame] at hdoc
    exact h q doc u hdoc hu
  | true => simp [← get?_congr _ hsame, get?_erase_self] at hdoc

end Store

/-! ### Markers that fit -/

/-- Whether the configuration names a path as a file to compile, and wants such compiled. -/
def Workspace.compiles (w : Workspace) (p : Path) : Bool :=
  w.config.compilerDiagnostics && (w.config.processPaths w.root).any (·.same p)

theorem Workspace.compiles_congr (w : Workspace) {p q : Path} (h : p.same q = true) : w.compiles p = w.compiles q := by
  simp only [compiles, Path.same_comm _ p, Path.same_comm _ q, Path.same_congr h]

theorem FileKind.ofPath_congr {p q : Path} (h : p.same q = true) : ofPath p = ofPath q := by
  simp only [ofPath, Path.extension?, Path.fileName?, Path.same_iff.mp h]

namespace Desk

variable (checks : Checkers) (since : Shared)

/-- For a file whose check found something that is shown; for another that is compiled what
    the latest compilation found. -/
def Shows (d : Desk) (p : Path) (found : List String) (u : Uri) : Prop :=
  if found.isEmpty && d.workspace.compiles p then
    ∃ c, d.shared.compilation? p = some c ∧ since.shown d.shared u = some (checks.compile c.request c.input)
  else since.shown d.shared u = some found

/-- What is shown for a document fits it. What is late shows what its check found. -/
def Fits (late : Path → Prop) (d : Desk) (p : Path) (doc : Document) : Prop :=
  ∃ r found, r.same p = true ∧ checks.check r doc.content = some found ∧ doc.hasErrors = !found.isEmpty
    ∧ ∀ u, doc.uri = some u →
      (late p → since.shown d.shared u = some found) ∧ (¬ late p → d.Shows checks since p found u)

/-- What is shown fits the documents of all tracked paths that are not stale, unless the
    replica has failed; and where there is no document, there are no markers, but for those
    that are owed. -/
structure Marked (stale late : Path → Prop) (owed : List Document) (d : Desk) : Prop where
  heard : d.shared.isHeard = true
  later : since.published.length ≤ d.shared.published.length
  failed : since.failures ≤ d.shared.failures
  honest : d.shared.store.Honest
  owes : ∀ doc ∈ owed, (∀ u, doc.uri = some u → u.toPath? = some doc.path) ∧ d.shared.store.contains doc.path = false
  clear : ∀ p u, u.toPath? = some p → (FileKind.ofPath p).isFaust = true →
    (∀ doc, d.shared.store.get? p = some doc → doc.uri ≠ some u) → (∀ doc ∈ owed, doc.uri ≠ some u) →
      (since.shown d.shared u).getD [] = []
  fits : d.shared.failures = since.failures → ∀ p doc, d.shared.store.get? p = some doc →
    d.workspace.tracks p = true → (FileKind.ofPath p).isFaust = true → ¬ stale p → d.Fits checks since late p doc

/-- Nothing is late. -/
abbrev Never (_ : Path) : Prop := False

/-- A path is stale next to others. -/
abbrev Touched (stale : Path → Prop) (p : Path) (q : Path) : Prop := stale q ∨ p.same q = true

namespace Marked

variable {checks since} {stale stale' late late' : Path → Prop} {owed owed' : List Document} {d : Desk} {p : Path}

theorem mono (h : Marked checks since stale late owed d) (hstale : ∀ q, stale q → stale' q) :
    Marked checks since stale' late owed d :=
  { h with fits := fun hok q doc hdoc htracks hfaust hfresh =>
      h.fits hok q doc hdoc htracks hfaust fun hs => hfresh (hstale q hs) }

theorem relate (h : Marked checks since stale late owed d) (hlate : ∀ q, late q ↔ late' q) :
    Marked checks since stale late' owed d := by
  obtain rfl : late = late' := funext fun q => propext (hlate q)
  exact h

/-- A touched path whose markers fit is stale no more. -/
theorem settled (h : Marked checks since (Touched stale p) late owed d)
    (hlate : ∀ q, p.same q = false → (late' q ↔ late q))
    (hfits : d.shared.failures = since.failures → ∀ q doc, p.same q = true → d.shared.store.get? q = some doc →
      d.workspace.tracks q = true → (FileKind.ofPath q).isFaust = true → ¬ stale q → d.Fits checks since late' q doc) :
    Marked checks since stale late' owed d := by
  refine { h with fits := fun hok q doc hdoc htracks hfaust hfresh => ?_ }
  cases hsame : p.same q with
  | true => exact hfits hok q doc hsame hdoc htracks hfaust hfresh
  | false =>
    have hold := h.fits hok q doc hdoc htracks hfaust (by simp [Touched, hfresh, hsame])
    simpa only [Fits, hlate q hsame] using hold

/-- Where there is no document, nothing is stale. -/
theorem settled_of_absent (h : Marked checks since (Touched stale p) late owed d)
    (hout : d.shared.store.contains p = false) (hlate : ∀ q, p.same q = false → (late' q ↔ late q)) :
    Marked checks since stale late' owed d := by
  refine h.settled hlate fun _ q doc hsame hdoc => ?_
  simp [Store.contains, Store.get?_congr _ hsame, hdoc] at hout

/-- Nothing is stale where the replica has failed. -/
theorem settled_of_failed (h : Marked checks since stale' late owed d) (hfailed : since.failures < d.shared.failures) :
    Marked checks since stale late owed d :=
  { h with fits := fun hok => absurd hok (Nat.ne_of_gt hfailed) }

/-! ### Changes of the desk -/

/-- Other changes of the shared state than of the documents and of what was published and
    compiled. -/
theorem of_aside (h : Marked checks since stale late owed d) {s : Shared} (hstore : s.store = d.shared.store)
    (hheard : s.isHeard = d.shared.isHeard) (hpublished : s.published = d.shared.published)
    (hcompiled : s.compiled = d.shared.compiled) (hfailures : d.shared.failures ≤ s.failures) :
    Marked checks since stale late owed { d with shared := s } := by
  have hshown : since.shown s = since.shown d.shared := by
    funext u
    rw [Shared.shown, hpublished, Shared.shown]
  have hcompilation : s.compilation? = d.shared.compilation? := by
    funext q
    rw [Shared.compilation?, hcompiled, Shared.compilation?]
  constructor
  · exact hheard.trans h.heard
  · rw [hpublished]
    exact h.later
  · exact Nat.le_trans h.failed hfailures
  · rw [hstore]
    exact h.honest
  · rw [hstore]
    exact h.owes
  · rw [hstore, hshown]
    exact h.clear
  · intro hok q doc hdoc htracks hfaust hfresh
    have hd : d.shared.failures = since.failures := Nat.le_antisymm (hok ▸ hfailures) h.failed
    rw [hstore] at hdoc
    simpa only [Fits, Shows, hshown, hcompilation] using h.fits hd q doc hdoc htracks hfaust hfresh

theorem withDisk (h : Marked checks since stale late owed d) (disk : Disk) :
    Marked checks since stale late owed { d with shared := { d.shared with disk := disk } } :=
  h.of_aside rfl rfl rfl rfl (Nat.le_refl _)

theorem reported (h : Marked checks since stale late owed d) (rs : List Report) :
    Marked checks since stale late owed { d with shared := { d.shared with reports := d.shared.reports ++ rs } } := by
  apply h.of_aside <;> first | rfl | simp [Shared.failures_append]

/-- What has a document as before, with the markers as before, has no markers to be taken away. -/
theorem withStore (h : Marked checks since stale late owed d) {store : Store} (hhonest : store.Honest)
    (howed : ∀ doc ∈ owed', (∀ u, doc.uri = some u → u.toPath? = some doc.path) ∧ store.contains doc.path = false)
    (hclear : ∀ q doc u, d.shared.store.get? q = some doc → doc.uri = some u →
      (∃ doc', store.get? q = some doc' ∧ doc'.uri = some u) ∨ ∃ doc ∈ owed', doc.uri = some u)
    (hsub : ∀ doc ∈ owed, doc ∈ owed')
    (hother : ∀ q, p.same q = false → store.get? q = d.shared.store.get? q) :
    Marked checks since (Touched stale p) late owed' (d.withStore store) := by
  refine { h with honest := hhonest, owes := howed, clear := ?_, fits := ?_ }
  · intro q u hu hfaust hnone howes
    refine h.clear q u hu hfaust (fun doc hdoc hdu => ?_) fun doc hdoc => howes doc (hsub doc hdoc)
    rcases hclear q doc u hdoc hdu with ⟨doc', hdoc', hdu'⟩ | ⟨doc', hmem, hdu'⟩
    · exact hnone doc' hdoc' hdu'
    · exact howes doc' hmem hdu'
  · intro hok q doc hdoc htracks hfaust hfresh
    simp only [Touched, not_or, Bool.not_eq_true] at hfresh
    rw [Desk.withStore, hother q hfresh.2] at hdoc
    exact h.fits hok q doc hdoc htracks hfaust hfresh.1

/-- The text of a path was changed. -/
theorem revised (h : Marked checks since stale late owed d) {r : Revision} {store : Store}
    (hstore : d.shared.store.revise? p r = .ok store) :
    Marked checks since (Touched stale p) late owed (d.withStore store) := by
  have hget := Store.get?_of_revise? hstore
  refine h.withStore (h.honest.revised hstore) (fun doc hdoc => ?_) (fun q doc u hdoc hu => .inl ?_) (fun _ => id) ?_
  · simpa [Store.contains_revise? hstore] using h.owes doc hdoc
  · rw [hget, hdoc]
    split
    · exact ⟨doc.revise d.shared.store.encoding r, rfl, by cases r <;> exact hu⟩
    · exact ⟨doc, rfl, hu⟩
  · intro q hsame
    simp [hget, hsame]

/-- A document was entered. -/
theorem entered (h : Marked checks since stale late [] d) {doc : Document}
    (hnew : d.shared.store.contains doc.path = false) (huri : ∀ u, doc.uri = some u → u.toPath? = some doc.path) :
    Marked checks since (Touched stale doc.path) late [] (d.withStore (d.shared.store.insert doc)) := by
  have hother : ∀ q, doc.path.same q = false → (d.shared.store.insert doc).get? q = d.shared.store.get? q :=
    fun q hsame => Store.get?_insert_of_not_same _ hsame
  refine h.withStore (h.honest.inserted hnew huri) (by simp) (fun q old u hold hu => .inl ⟨old, ?_, hu⟩) (by simp) hother
  rw [hother q ?_, hold]
  cases hsame : doc.path.same q with
  | false => rfl
  | true => simp [Store.contains, Store.get?_congr _ hsame, hold] at hnew

/-- A document was dropped, and is owed the list that takes its markers away. -/
theorem erased (h : Marked checks since stale late owed d) (p : Path) :
    Marked checks since stale late (owed ++ (d.shared.store.get? p).toList) (d.withStore (d.shared.store.erase p)) := by
  have hgone : ∀ q, (d.shared.store.erase p).contains q = (d.shared.store.contains q && !p.same q) :=
    Store.contains_erase_eq _ p
  have herased : Marked checks since (Touched stale p) late (owed ++ (d.shared.store.get? p).toList)
      (d.withStore (d.shared.store.erase p)) := by
    refine h.withStore (h.honest.erased p) (fun doc hdoc => ?_) (fun q doc u hdoc hu => ?_)
      (fun _ => List.mem_append_left _) fun q => Store.get?_erase_of_not_same _
    · rcases List.mem_append.mp hdoc with hdoc | hdoc
      · simpa [hgone, (h.owes doc hdoc).2] using (h.owes doc hdoc).1
      · have hp := Option.mem_toList.mp hdoc
        refine ⟨fun u hu => h.honest p doc u hp hu, ?_⟩
        simp [hgone, Path.same_comm p, Store.same_of_get?_eq_some hp]
    · cases hsame : p.same q with
      | false => exact .inl ⟨doc, (Store.get?_erase_of_not_same _ hsame).trans hdoc, hu⟩
      | true =>
        rw [← Store.get?_congr _ hsame] at hdoc
        exact .inr ⟨doc, by simp [hdoc], hu⟩
  refine herased.settled_of_absent ?_ fun _ _ => Iff.rfl
  simp [Desk.withStore, hgone, Path.same_refl]

/-- Other paths are tracked, but no more than before next to a touched one. -/
theorem withTracked (h : Marked checks since stale late owed d) {w : Workspace} (hroot : w.root = d.workspace.root)
    (hconfig : w.config = d.workspace.config)
    (htracks : ∀ q, w.tracks q = true → ¬ stale q → d.workspace.tracks q = true) :
    Marked checks since stale late owed { d with workspace := w } := by
  refine { h with fits := fun hok q doc hdoc hq hfaust hfresh => ?_ }
  have hcompiles : w.compiles q = d.workspace.compiles q := by simp only [Workspace.compiles, hroot, hconfig]
  have hold := h.fits hok q doc hdoc (htracks q hq hfresh) hfaust hfresh
  simpa only [Fits, Shows, hcompiles] using hold

theorem tracked (h : Marked checks since (Touched stale p) late owed d) :
    Marked checks since (Touched stale p) late owed { d with workspace := d.workspace.track p } := by
  refine h.withTracked ?_ ?_ fun q hq hfresh => ?_
  · unfold Workspace.track
    split <;> rfl
  · unfold Workspace.track
    split <;> rfl
  · simpa [Workspace.tracks_track, not_or.mp hfresh] using hq

theorem released (h : Marked checks since stale late owed d) (p : Path) :
    Marked checks since stale late owed { d with workspace := d.workspace.release p } := by
  refine h.withTracked rfl rfl fun q hq _ => ?_
  simp only [Workspace.tracks_release, Bool.and_eq_true] at hq
  exact hq.1

/-- Under another configuration all markers but those of what is late have to be made anew. -/
theorem configured (h : Marked checks since stale late owed d) (c : ProjectConfig) :
    Marked checks since (fun q => stale q ∨ ¬ late q) late owed
      { d with workspace := { d.workspace with config := c } } := by
  refine { h with fits := fun hok q doc hdoc htracks hfaust hfresh => ?_ }
  obtain ⟨hfresh, hlate⟩ := not_or.mp hfresh
  obtain ⟨r, found, hr, hcheck, herrors, hshown⟩ := h.fits hok q doc hdoc htracks hfaust hfresh
  exact ⟨r, found, hr, hcheck, herrors, fun u hu => ⟨(hshown u hu).1, fun hnot => absurd hnot hlate⟩⟩

/-! ### Publications and compilations -/

/-- Messages were published for a document. -/
theorem published (h : Marked checks since stale late owed d) {doc : Document} {u : Uri}
    (hdoc : d.shared.store.get? p = some doc) (hu : doc.uri = some u) (messages : List String) :
    Marked checks since (Touched stale p) late owed
      { d with shared := { d.shared with published := d.shared.published ++ [⟨u, messages⟩] } } := by
  have hshown := Shared.shown_append h.later ⟨u, messages⟩
  refine { h with later := ?_, clear := ?_, fits := ?_ }
  · simp only [List.length_append]
    exact Nat.le_add_right_of_le h.later
  · intro q v hv hfaust hnone howes
    have hne : u ≠ v := by
      rintro rfl
      have hpath := Option.some.inj ((h.honest p doc u hdoc hu).symm.trans hv)
      exact hnone doc (hpath ▸ Store.get?_path hdoc) hu
    rw [hshown, if_neg hne]
    exact h.clear q v hv hfaust hnone howes
  · intro hok q doc' hdoc' htracks hfaust hfresh
    obtain ⟨hfresh, hother⟩ := not_or.mp hfresh
    obtain ⟨r, found, hr, hcheck, herrors, hfit⟩ := h.fits hok q doc' hdoc' htracks hfaust hfresh
    refine ⟨r, found, hr, hcheck, herrors, fun v hv => ?_⟩
    have hne : u ≠ v := by
      rintro rfl
      exact hother (h.honest.same_of_uri hdoc hu hdoc' hv)
    simp only [Shows, hshown, if_neg hne]
    exact hfit v hv

/-- A path was compiled. -/
theorem compiled (h : Marked checks since stale late owed d) (c : Compilation) :
    Marked checks since (Touched stale c.request.path) late owed
      { d with shared := { d.shared with compiled := d.shared.compiled ++ [c] } } := by
  refine { h with fits := fun hok q doc hdoc htracks hfaust hfresh => ?_ }
  obtain ⟨hfresh, hother⟩ := not_or.mp hfresh
  have hcompilation := Shared.compilation?_append d.shared c q
  rw [if_neg hother] at hcompilation
  simp only [Fits, Shows, hcompilation]
  exact h.fits hok q doc hdoc htracks hfaust hfresh

/-- A dropped document got the list that takes its markers away. -/
theorem cleared (h : Marked checks since stale late (doc :: owed) d) {u : Uri} (hu : doc.uri = some u) :
    Marked checks since stale late owed
      { d with shared := { d.shared with published := d.shared.published ++ [⟨u, []⟩] } } := by
  have hshown := Shared.shown_append h.later ⟨u, []⟩
  obtain ⟨hpath, hout⟩ := h.owes doc List.mem_cons_self
  have hnone : ∀ q old, d.shared.store.get? q = some old → old.uri ≠ some u := by
    intro q old hold hou
    have hsame := Option.some.inj ((h.honest q old u hold hou).symm.trans (hpath u hu))
    simp [Store.contains, ← hsame, Store.get?_path hold] at hout
  refine { h with later := ?_, owes := fun x hx => h.owes x (List.mem_cons_of_mem _ hx), clear := ?_, fits := ?_ }
  · simp only [List.length_append]
    exact Nat.le_add_right_of_le h.later
  · intro q v hv hfaust hv' howes
    rw [hshown]
    split
    · rfl
    · rename_i hne
      refine h.clear q v hv hfaust hv' fun x hx => ?_
      rcases List.mem_cons.mp hx with rfl | hx
      · exact fun hxv => hne (Option.some.inj (hu.symm.trans hxv))
      · exact howes x hx
  · intro hok q old hold htracks hfaust hfresh
    obtain ⟨r, found, hr, hcheck, herrors, hfit⟩ := h.fits hok q old hold htracks hfaust hfresh
    refine ⟨r, found, hr, hcheck, herrors, fun v hv => ?_⟩
    have hne : u ≠ v := by
      rintro rfl
      exact hnone q old hold hv
    simp only [Shows, hshown, if_neg hne]
    exact hfit v hv

/-- A dropped document that has no markers is owed nothing. -/
theorem unowed (h : Marked checks since stale late (doc :: owed) d)
    (hdoc : (FileKind.ofPath doc.path).isFaust = true → doc.uri = none) : Marked checks since stale late owed d := by
  refine { h with owes := fun x hx => h.owes x (List.mem_cons_of_mem _ hx), clear := ?_ }
  intro q u hu hfaust hnone howes
  refine h.clear q u hu hfaust hnone fun x hx => ?_
  rcases List.mem_cons.mp hx with rfl | hx
  · intro hxu
    obtain rfl := Option.some.inj (((h.owes x List.mem_cons_self).1 u hxu).symm.trans hu)
    simp [hdoc hfaust] at hxu
  · exact howes x hx

end Marked

end Desk

end LiveWorkspace
