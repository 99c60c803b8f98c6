/-
  LiveWorkspace/Proofs/Watch/Opening.lean
  =======================================
  **A workspace that has just been opened is abreast of its tree.**

  A workspace is opened while nothing has a document and there is no replica
  (`Observed.Opens`), and then all directories of its tree are handed to the watch.  Where the
  operating system takes the paths of the tree and those of all copies (`Observed.Begins`), the
  workspace has nothing to wait for (`Observed.Begins.abreast`).  Where it takes no path of a
  copy, there is still no replica afterwards (`Observed.Opens.disk_eq`).
-/
import LiveWorkspace.Proofs.Watch.Observed
import LiveWorkspace.Proofs.Watch.Outset
import LiveWorkspace.Proofs.Workspace.Display

namespace LiveWorkspace

open Watch (Deed Scene View)

/-- A follower that has taken up all of a tree, and is told of all that happens in it, has
    nothing to wait for. -/
theorem Watch.Scene.follows_of_takesUp {v : View} {s : Scene} (htakes : v.TakesUp (fun q => v.tree q ≠ none) s.toView)
    (hcopy : ∀ q, v.copy q = none) (htext : ∀ q, v.text q = none) (hroot : s.tree [] = some .directory)
    (hrooted : s.Rooted) (hhanded : ∀ q, s.handed q ↔ s.tree q = some .directory) (hbacklog : s.backlog = []) :
    s.Follows := by
  have htree : s.tree = v.tree := htakes.tree
  have htold : ∀ q, s.tree q ≠ none → s.Told q := fun q hq hne => (hhanded _).mpr (hrooted.parent hq hne)
  have hcopied : ∀ q t, s.tree q = some t → ∃ k, s.copy q = some k ∧ t.CopiedAs k := fun q t ht => by
    refine htakes.copied q t ?_ (htree ▸ ht) fun r k _ hk => by simp [hcopy] at hk
    rw [← htree, ht]
    exact Option.some_ne_none t
  have hunheard : ∀ {l r : List Watch.Notice} {e : Watch.Notice} {α : Prop}, s.backlog = l ++ e :: r → α :=
    fun hcut => by
    simp [hbacklog] at hcut
  constructor
  case root => exact (hhanded []).mpr hroot
  case closed => exact fun q n hq => (hhanded q).mpr (hrooted q n (by simp [(hhanded _).mp hq]))
  case rooted => exact hrooted
  case named => simp [hbacklog]
  case stale =>
    intro q k hk
    have hq : s.tree q ≠ none := by
      rcases htakes.frame q with hsame | ⟨-, -, p, hp, hqp, hne⟩ | ⟨hq, -⟩
      · rw [hsame, hcopy] at hk
        cases hk
      · simp [hrooted.directory (htree ▸ hp) hqp hne]
      · exact htree ▸ hq
    obtain ⟨t, ht⟩ := Option.ne_none_iff_exists'.mp hq
    obtain ⟨k', hk', hkind⟩ := hcopied q t ht
    rw [hk] at hk'
    cases hk'
    exact .inr ⟨htold q hq, t, ht, hkind.isDirectory⟩
  case staleText =>
    intro q x hx
    obtain ⟨c, hc⟩ : ∃ c, v.tree q = some (.file c) := by
      refine Classical.byContradiction fun hno => ?_
      rw [htakes.spared q fun c _ hc => hno ⟨c, hc⟩, htext] at hx
      cases hx
    rw [← htree] at hc
    exact .inr ⟨htold q (by simp [hc]), _, hc, rfl⟩
  case current =>
    intro q t ht
    have hq : s.tree q ≠ none := by simp [ht]
    refine .inl ⟨htold q hq, fun hdir => (hhanded q).mpr (hdir ▸ ht), hcopied q t ht, ?_,
      by simp [hbacklog, Watch.Struck]⟩
    cases t with
    | file c => exact htakes.text q c (htree ▸ hq) (htree ▸ ht)
    | directory =>
      refine (htakes.spared q fun c _ hc => ?_).trans (htext q)
      rw [← htree, ht] at hc
      cases hc
  case announced => exact fun _ _ _ _ hcut => hunheard hcut
  case arrived => exact fun _ _ _ _ hcut => hunheard hcut

/-- What a workspace is opened at is a directory. -/
theorem Workspace.hasDirectory_of_create {checks : Checkers} {s s' : Shared} {w : Workspace}
    {root replicaRoot resolved : Path}
    (hroot : s.disk.canonicalize root = .ok resolved) (h : create checks root replicaRoot s = .ok (.ok w) s') :
    s.disk.hasDirectory resolved = true := by
  have hrun :
    wp (create checks root replicaRoot) (fun outcome _ => ∀ w, outcome = .ok w → s.disk.hasDirectory resolved = true)
      (fun _ _ => True) s := by
    rw [create, wp_bind, wp_get]
    simp only [hroot]
    refine (wp_ite _ _).mpr ⟨fun _ => (wp_pure _).mpr fun _ hw => (by cases hw), fun hdir => ?_⟩
    have hdir : s.disk.hasDirectory resolved = true := by simpa using hdir
    cases hd : Desk.populate checks ⟨s, ofRoot resolved replicaRoot⟩ with
    | ok u d => exact (wp_of_ok (by simp only [hd]; rfl)).mpr fun _ _ => hdir
    | error err d => exact (wp_of_error (by simp only [hd]; rfl)).mpr trivial
  exact (wp_of_ok h).mp hrun w rfl

namespace Observed

variable (checks : Checkers) {m : Layout} {given replicaRoot : Path} {s : Shared} {start : Solo} {o : Observed}
  {turns : List Turn}

/-! ### The beginning -/

/-- All directories in the tree of a workspace are handed to the watch, and nothing has been
    told of yet. -/
def watching (s : Solo) : Observed := ⟨s, (s.shared.disk.tree s.running.workspace.root).1.dirs, []⟩

/-- A workspace is opened while nothing has a document and there is no replica. -/
structure Opens (m : Layout) (given replicaRoot : Path) (s : Shared) (start : Solo) : Prop where
  original : m.original.Tidy s.disk
  absent : ∀ loc, m.site.zone <+: loc → s.disk.get? loc = none
  aboveRoot : m.Lasting s.disk m.original.parent m.original.base
  aboveReplica : m.Lasting s.disk m.site.parent m.site.base
  empty : ∀ p, s.store.get? p = none
  resolved : s.disk.canonicalize given = .ok m.root
  placed : Replica.ofWorkspace replicaRoot m.root = ⟨m.site.dir⟩
  opened : Solo.opened checks given replicaRoot s = some start

/-- A run begins when the operating system takes all paths in the tree, and those of their
    copies. -/
structure Begins (m : Layout) (given replicaRoot : Path) (s : Shared) (start : Solo) : Prop
    extends Opens checks m given replicaRoot s start where
  fits : ∀ q, m.original.node s.disk q ≠ none → m.Fits q

namespace Opens

variable (h : Opens checks m given replicaRoot s start)
include h

/-- Before anything has been found the workspace is in order. -/
theorem inOrder : m.InOrder ⟨s, Workspace.ofRoot m.root replicaRoot⟩ where
  holds := {
    original := h.original
    aboveRoot := h.aboveRoot
    aboveReplica := h.aboveReplica
    replica :=
      { proper := h.original.proper
        named := fun loc e hloc he => by simp [h.absent loc hloc] at he
        stands :=
          { proper := m.named ▸ h.original.stands.proper
            reached := fun d' hout => h.aboveReplica d' (.of_replica hout)
            unlinked := fun loc target hloc => by simp [h.absent loc hloc] } } }
  replica := congrArg Replica.dir h.placed
  registered :=
    { rooted := rfl
      proper := h.original.proper
      below := fun q hq => absurd hq List.not_mem_nil
      known := fun q hq => by simp [Workspace.tracks, Workspace.ofRoot] at hq
      owned := fun q hq => by simp [Store.contains, h.empty] at hq }
  closed p := by simp [Store.isOpen, h.empty]
  keyed p hp := by simp [Store.contains, h.empty] at hp

theorem root_eq : m.original.node s.disk [] = some .directory := by
  obtain ⟨w, -, hcreate⟩ := Solo.create_of_opened checks h.opened
  have hdir := Workspace.hasDirectory_of_create h.resolved hcreate
  exact h.original.hasDirectory_iff.mp (h.original.stands.hasDirectory_ok m.found hdir)

theorem copy_eq_none (q : List String) : m.site.node s.disk q = none := by
  rw [Site.node, h.absent _ (Site.zone_prefix_place m.site q), Option.bind_none]

/-- What is left of the work of an opening. -/
theorem populate_eq : Desk.populate checks ⟨s, Workspace.ofRoot m.root replicaRoot⟩ = .ok () start.desk
    ∧ start.running.isAlive = true := by
  obtain ⟨w, hrunning, hcreate⟩ := Solo.create_of_opened checks h.opened
  rw [Solo.desk, hrunning]
  exact ⟨Workspace.populate_of_create checks h.resolved hcreate, rfl⟩

end Opens

namespace Begins

variable (h : Begins checks m given replicaRoot s start)
include h

theorem text_eq_none (q : List String) : (m.view ⟨s, Workspace.ofRoot m.root replicaRoot⟩).text q = none := by
  simp [Layout.view, Desk.text?, h.empty]

/-- All of the tree has been taken up. -/
theorem takesUp : (m.view ⟨s, Workspace.ofRoot m.root replicaRoot⟩).TakesUp (fun q => m.original.node s.disk q ≠ none)
    (m.view start.desk) ∧ m.InOrder start.desk := by
  obtain ⟨v', htakes, hstage⟩ := (wp_of_ok (h.populate_eq checks).1).mp
    ((h.inOrder checks).stage.populate checks h.fits (h.root_eq checks) (h.copy_eq_none checks) (h.text_eq_none checks))
  exact ⟨hstage.view ▸ htakes, hstage.order⟩

theorem node_eq : m.original.node start.desk.shared.disk = m.original.node s.disk := (h.takesUp checks).1.tree

theorem allFit : m.AllFit (m.view start.desk) := fun q hq => h.fits q (by rwa [← h.node_eq checks])

/-- Just the directories of the tree are handed over. -/
theorem mem_handed_iff {p : Path} :
    p ∈ (watching start).handed ↔ ∃ q, m.original.node start.desk.shared.disk q = some .directory ∧ p = m.path q := by
  have horder := (h.takesUp checks).2
  have hroot : m.original.node start.desk.shared.disk [] = some .directory := by rw [h.node_eq checks, h.root_eq checks]
  have hwatched : start.running.workspace.root = m.root := horder.registered.rooted
  show p ∈ (start.shared.disk.tree start.running.workspace.root).1.dirs ↔ _
  rw [hwatched]
  refine (horder.holds.mem_dirs_iff (q := []) (h.allFit checks) hroot).trans ?_
  exact exists_congr fun q => and_iff_right List.nil_prefix

/-- **A workspace that has just been opened is abreast of its tree.** -/
theorem abreast : (watching start).Abreast m [] := by
  obtain ⟨htakes, horder⟩ := h.takesUp checks
  have hroot : m.original.node start.desk.shared.disk [] = some .directory := by rw [h.node_eq checks, h.root_eq checks]
  refine ⟨rfl, horder, h.allFit checks, ?_, by simp, by simp⟩
  refine Scene.follows_of_takesUp htakes (h.copy_eq_none checks) (h.text_eq_none checks) hroot horder.rooted
    (fun q => ?_) rfl
  show (_ ∧ m.path q ∈ (watching start).handed) ↔ m.original.node start.desk.shared.disk q = _
  rw [h.mem_handed_iff checks]
  constructor
  · rintro ⟨hproper, r, hdir, heq⟩
    rwa [Layout.path_inj hproper (horder.holds.proper_names (by simp [hdir])) heq]
  · intro hdir
    exact ⟨horder.holds.proper_names (by simp [hdir]), q, hdir, rfl⟩

/-- Each directory has been handed over with the one it lies in. -/
theorem nested : (watching start).Nested m := by
  have horder := (h.takesUp checks).2
  intro p hp
  obtain ⟨q, hdir, rfl⟩ := (h.mem_handed_iff checks).mp hp
  rw [Layout.names_path (horder.holds.proper_names (by simp [hdir]))]
  by_cases hq : q = []
  · exact .inl hq
  · have hparent := horder.rooted.parent (show m.original.node start.desk.shared.disk q ≠ none by simp [hdir]) hq
    exact .inr ((h.mem_handed_iff checks).mpr ⟨q.dropLast, hparent, rfl⟩)

end Begins

end Observed

end LiveWorkspace
