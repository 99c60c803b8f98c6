/-
  LiveWorkspace/Proofs/Session/DeepestRoot.lean
  =============================================
  **A path belongs to the deepest root above it.**

  The roots above a path are picked by components and ranked by the length of their
  spelling.  Resolved roots above one path lie above one another, and of two of them the
  deeper one is longer.  So the longest root is the one that all the others lie above;
  it is one alone, in whatever order the workspaces come (`owned_by_deepest_root`).

  Roots that are opened later change the owner of no path but those below them.
-/
import LiveWorkspace.Proofs.Session.Routing

namespace LiveWorkspace

/-- Paths that are above each other are the same. -/
theorem Path.same_of_startsWith {p q : Path} (hpq : p.startsWith q = true) (hqp : q.startsWith p = true) :
    p.same q = true := by
  have hq : q.components <+: p.components := startsWith_iff.mp hpq
  have hp : p.components <+: q.components := startsWith_iff.mp hqp
  exact same_iff.mpr (hp.eq_of_length_le hq.length_le)

namespace Session

variable {ses : Session} {p root : Path} {r : Running} {ws : List Running} (checks : Checkers)

/-! ### The owner of a path -/

theorem owner?_eq_none_iff : ses.owner? p = none ↔ ∀ root ∈ ses.openRoots, p.startsWith root = false := by
  have howner := owner?_root ses p
  constructor
  · intro hnone root hroot
    rw [hnone, Option.map_none] at howner
    exact not_startsWith_of_ownerOf howner.symm hroot
  · intro habove
    cases hr : ses.owner? p with
    | none => rfl
    | some r =>
      rw [hr, Option.map_some] at howner
      obtain ⟨hroot, hstarts⟩ := startsWith_of_ownerOf howner.symm
      rw [habove _ hroot] at hstarts
      cases hstarts

/-- Workspaces with distinct roots are told apart by them. -/
theorem eq_of_same_root (hroots : Path.Distinct ses.openRoots) {r' : Running} (hr : r ∈ ses.workspaces)
    (hr' : r' ∈ ses.workspaces) (hsame : r.workspace.root.same r'.workspace.root = true) : r = r' := by
  by_contra hne
  have hapart := List.pairwise_map.mp hroots.apart
  have hsymm : Std.Symm fun a b : Running => a.workspace.root.same b.workspace.root = false := by
    constructor
    intro a b hab
    rwa [Path.same_comm]
  rw [hapart.forall hr hr' hne] at hsame
  cases hsame

/-- Of the roots above a path, all lie above that of its owner, and the owner is the only
    workspace of which that holds. -/
theorem owner?_eq_some_iff (hroots : Path.Distinct ses.openRoots) :
    ses.owner? p = some r ↔ r ∈ ses.workspaces ∧ p.startsWith r.workspace.root = true
      ∧ ∀ root ∈ ses.openRoots, p.startsWith root = true → r.workspace.root.startsWith root = true := by
  have hdeepest : ∀ {x : Running}, ses.owner? p = some x → p.startsWith x.workspace.root = true
      ∧ ∀ root ∈ ses.openRoots, p.startsWith root = true → x.workspace.root.startsWith root = true := by
    intro x hx
    have howner := owner?_root ses p
    rw [hx, Option.map_some] at howner
    refine ⟨(startsWith_of_ownerOf howner.symm).2, fun root hroot hp => ?_⟩
    obtain ⟨owner, howner', hdeeper⟩ := exists_ownerOf hroots.resolved hroot hp
    rw [← howner] at howner'
    cases howner'
    exact hdeeper
  constructor
  · intro hr
    exact ⟨mem_of_owner? hr, hdeepest hr⟩
  · rintro ⟨hmem, hstarts, habove⟩
    have hroot : r.workspace.root ∈ ses.openRoots := List.mem_map_of_mem hmem
    cases hx : ses.owner? p with
    | none =>
      rw [owner?_eq_none_iff.mp hx _ hroot] at hstarts
      cases hstarts
    | some x =>
      obtain ⟨hxstarts, hxabove⟩ := hdeepest hx
      have hxmem := mem_of_owner? hx
      -- Each of the two roots lies above the other.
      have hrx := habove _ (List.mem_map_of_mem hxmem) hxstarts
      have hxr := hxabove _ hroot hstarts
      rw [eq_of_same_root hroots hxmem hmem (Path.same_of_startsWith hxr hrx)]

/-! ### The order of the workspaces -/

theorem distinct_of_perm (hroots : Path.Distinct ses.openRoots) (hws : ws.Perm ses.workspaces) :
    Path.Distinct { ses with workspaces := ws }.openRoots := by
  have hperm : { ses with workspaces := ws }.openRoots.Perm ses.openRoots := hws.map _
  constructor
  · intro root hroot
    exact hroots.resolved root (hperm.mem_iff.mp hroot)
  · refine (hperm.pairwise_iff fun {a b} hab => ?_).mpr hroots.apart
    rw [← hab]
    exact Path.same_comm _ _

theorem owner?_of_perm (hroots : Path.Distinct ses.openRoots) (hws : ws.Perm ses.workspaces) (p : Path) :
    owner? { ses with workspaces := ws } p = ses.owner? p := by
  ext r
  rw [owner?_eq_some_iff (distinct_of_perm hroots hws), owner?_eq_some_iff hroots, hws.mem_iff]
  have hroots' : ∀ root, root ∈ openRoots { ses with workspaces := ws } ↔ root ∈ ses.openRoots :=
    fun root => (hws.map _).mem_iff
  simp only [hroots']

/-! ### Roots opened later -/

/-- Nothing has to be known of the shared state for the work for a root. -/
theorem anything_serves (ρ root : Path) : Shared.Serves ρ (fun _ _ => True) root fun _ => True where
  report _ _ _ := trivial
  publish _ _ _ := trivial
  compiled _ _ _ _ _ _ := trivial
  revised _ _ _ _ _ _ := trivial
  erased _ _ _ := trivial
  found _ _ _ _ _ _ := trivial
  watched _ _ _ := trivial
  entered _ _ _ _ _ _ _ := trivial
  worked _ _ _ _ _ _ := trivial
  moved _ _ _ _ _ _ := trivial

/-- A workspace that is made has the resolved root. -/
theorem create_root (ρ : Path) (s : Shared) :
    wp (Workspace.create checks root ρ)
      (fun outcome _ => ∀ w, outcome = .ok w → s.disk.canonicalize root = .ok w.root) (fun _ _ => True) s := by
  cases hresolved : s.disk.canonicalize root with
  | error cause =>
    rw [wp_create_unresolved checks hresolved]
    rintro _ ⟨⟩
  | ok resolved =>
    have hany := anything_serves ρ resolved
    refine wp_imp (hany.kept.grows.create_keeps checks hany.records (fun _ _ => trivial) fun q hq _ => ?_)
      (fun outcome s' hs' => ?_) fun _ _ _ => trivial
    · rw [hresolved] at hq
      cases hq
      exact ⟨rfl, ⟨rfl, trivial, fun _ _ => trivial⟩, trivial⟩
    · rintro w rfl
      have hroot : w.root = resolved := hs'.root
      rw [hroot]

/-- Opening a root adds one workspace at most, and that at the resolved root. -/
def Opens (root : Path) (ses ses' : Session) : Prop :=
  ∃ more, ses'.workspaces = ses.workspaces ++ more
    ∧ ∀ r ∈ more, ses.shared.disk.canonicalize root = .ok r.workspace.root

theorem Opens.refl (root : Path) {ses' : Session} (h : ses'.workspaces = ses.workspaces) : Opens root ses ses' :=
  ⟨[], by rw [h, List.append_nil], by simp⟩

theorem openWorkspace_opens (root : Path) (ses : Session) :
    wp (openWorkspace checks root) (fun _ => Opens root ses) (fun _ => Opens root ses) ses := by
  -- What follows once a workspace has been made, or not, however it goes on.
  have hmake : ∀ next : Except WorkspaceError Workspace → Act Session (Except SessionError Path),
      (∀ cause, next (.error cause) = pure (.error (.cannotOpen root cause))) →
      (∀ w, next (.ok w) = do
        let _ ← Shared.tree w.root
        Shared.report (.info "Workspace opened")
        modify fun ses => { ses with workspaces := ses.workspaces ++ [{ workspace := w }] }
        return .ok w.root) →
      wp ((liftM (Workspace.create checks root ses.replicaRoot) : Act Session _) >>= next)
        (fun _ => Opens root ses) (fun _ => Opens root ses) ses := by
    intro next herror hok
    rw [wp_bind, wp_onShared_session]
    refine wp_imp (create_root checks ses.replicaRoot ses.shared) (fun outcome s hroot => ?_) fun _ _ _ => .refl root rfl
    cases outcome with
    | error cause =>
      rw [herror, wp_pure]
      exact .refl root rfl
    | ok w =>
      rw [hok, wp_bind, wp_onShared_session]
      refine wp_imp (wp_true _ _) (fun _ s _ => ?_) fun _ _ _ => .refl root rfl
      rw [wp_bind, wp_onShared_session]
      refine wp_imp (wp_true _ _) (fun _ s _ => ?_) fun _ _ _ => .refl root rfl
      rw [wp_bind, wp_modify, wp_pure]
      refine ⟨[{ workspace := w }], rfl, fun r hr => ?_⟩
      rw [List.mem_singleton.mp hr]
      exact hroot w rfl
  rw [openWorkspace, wp_bind, wp_get]
  cases ses.shared.disk.canonicalize root with
  | error cause => exact hmake _ (fun _ => rfl) fun _ => rfl
  | ok resolved =>
    refine (wp_ite _ _).mpr ⟨fun _ => ?_, fun _ => hmake _ (fun _ => rfl) fun _ => rfl⟩
    rw [wp_pure]
    exact .refl root rfl

theorem step_opens (root : Path) (ses : Session) : Opens root ses (ses.step checks (.openWorkspace root)) := by
  have hopens := openWorkspace_opens checks root ses
  rw [step, after]
  cases hrun : openWorkspace checks root ses with
  | ok outcome ses' => exact (wp_of_ok hrun).mp hopens
  | error err ses' => exact (wp_of_error hrun).mp hopens

/-- Opening roots one after the other adds workspaces behind the ones that are there, each
    at one of the roots as it was resolved in its turn. -/
theorem run_opens (roots : List Path) (ses : Session) :
    ∃ more, (ses.run checks (roots.map .openWorkspace)).workspaces = ses.workspaces ++ more
      ∧ ∀ r ∈ more, ∃ before root after, roots = before ++ root :: after
        ∧ (ses.run checks (before.map .openWorkspace)).shared.disk.canonicalize root = .ok r.workspace.root := by
  induction roots generalizing ses with
  | nil => exact ⟨[], by rw [List.append_nil]; rfl, by simp⟩
  | cons root rest ih =>
    obtain ⟨first, hfirst, hresolved⟩ := step_opens checks root ses
    obtain ⟨later, hlater, hothers⟩ := ih (ses.step checks (.openWorkspace root))
    refine ⟨first ++ later, ?_, fun r hr => ?_⟩
    · rw [← List.append_assoc, ← hfirst]
      exact hlater
    · rcases List.mem_append.mp hr with hr | hr
      · exact ⟨[], root, rest, rfl, hresolved r hr⟩
      · obtain ⟨before, next, after, rfl, hnext⟩ := hothers r hr
        exact ⟨root :: before, next, after, rfl, hnext⟩

/-- Workspaces behind the ones that are there change the owner of the paths below them only. -/
theorem owner?_of_append {ses' : Session} {more : List Running} (h : ses'.workspaces = ses.workspaces ++ more)
    (hmore : ∀ r ∈ more, p.startsWith r.workspace.root = false) : ses'.owner? p = ses.owner? p := by
  have hnone : more.filter (fun r => p.startsWith r.workspace.root) = [] :=
    List.filter_eq_nil_iff.mpr fun r hr => by rw [hmore r hr]; exact Bool.false_ne_true
  rw [owner?, owner?, h, List.filter_append, hnone, List.append_nil]

/-! ### The deepest root -/

/-- **A path belongs to the deepest root above it, and to no workspace if there is none.**
    The roots of the open workspaces are resolved and distinct, and may lie below one
    another.  A path has no owner just if no root is above it.  Its owner is the one
    workspace above it whose root has all other roots above the path above itself.  The order
    of the workspaces does not matter for that.  When further roots are opened, a path
    keeps its owner unless it lies below one of the workspaces that this adds. -/
theorem owned_by_deepest_root (ses : Session) (hroots : Path.Distinct ses.openRoots) (p : Path) :
    (ses.owner? p = none ↔ ∀ root ∈ ses.openRoots, p.startsWith root = false)
      ∧ (∀ r, ses.owner? p = some r ↔ r ∈ ses.workspaces ∧ p.startsWith r.workspace.root = true
          ∧ ∀ root ∈ ses.openRoots, p.startsWith root = true → r.workspace.root.startsWith root = true)
      ∧ (∀ ws, ws.Perm ses.workspaces → owner? { ses with workspaces := ws } p = ses.owner? p)
      ∧ ∀ roots, let later := ses.run checks (roots.map .openWorkspace)
        ∃ more, later.workspaces = ses.workspaces ++ more
          ∧ (∀ r ∈ more, ∃ before root after, roots = before ++ root :: after
              ∧ (ses.run checks (before.map .openWorkspace)).shared.disk.canonicalize root = .ok r.workspace.root)
          ∧ (later.owner? p = ses.owner? p ∨ ∃ r ∈ more, p.startsWith r.workspace.root = true) := by
  refine ⟨owner?_eq_none_iff, fun r => owner?_eq_some_iff hroots, fun ws hws => owner?_of_perm hroots hws p, ?_⟩
  intro roots later
  obtain ⟨more, hlater, hresolved⟩ := run_opens checks roots ses
  refine ⟨more, hlater, hresolved, ?_⟩
  by_cases hbelow : ∃ r ∈ more, p.startsWith r.workspace.root = true
  · exact .inr hbelow
  · refine .inl (owner?_of_append hlater fun r hr => ?_)
    exact Bool.eq_false_iff.mpr fun hstarts => hbelow ⟨r, hr, hstarts⟩

/-- Workspaces at a directory, at the root of all, and at a directory below the first. -/
def nested : Session :=
  { inHarbor projectDisk with
    workspaces := [⟨"/w"⟩, ⟨"/"⟩, ⟨"/w/s"⟩].map fun root => { workspace := Workspace.ofRoot root ⟨"/r"⟩ } }

/-- Of three workspaces above one another the deepest has the path, in whatever order they come. -/
theorem owned_while_nested :
    let p : Path := ⟨"/w//s/b.dsp"⟩
    ∀ ws, ws.Perm nested.workspaces →
      (owner? { nested with workspaces := ws } p).map (·.workspace.root) = some ⟨"/w/s"⟩ := by
  intro p ws hws
  have hroots : Path.Distinct nested.openRoots := by
    constructor
    · intro root hroot
      have hnames : ∃ ns ∈ [["w"], [], ["w", "s"]], root = ns.foldl Path.child ⟨"/"⟩ ∧ ∀ n ∈ ns, Path.Proper n := by
        revert root
        decide
      obtain ⟨ns, -, hroot, hns⟩ := hnames
      exact ⟨ns, hns, hroot⟩
    · decide
  obtain ⟨-, -, hperm, -⟩ := owned_by_deepest_root ⟨fun _ _ => some [], fun _ _ => []⟩ nested hroots p
  rw [hperm ws hws]
  decide

end Session

end LiveWorkspace
