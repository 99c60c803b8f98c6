/-
  LiveWorkspace/Proofs/Workspace/Renaming.lean
  ============================================
  **A rename leaves what a removal and a creation leave.**

  When a path has been renamed, its copy is moved along, the old path is let go, the new one is
  taken up, and the copies of what is open below the old one are written again.  A removal of
  the old path and a creation of the new one let go, clear and write these copies first, and take
  up afterwards.  Either way the same entries are put at the same names, so that they are
  compared by what was put (`Site.Fills.node_eq`), and by what was there before that: the
  replica with the copy moved away (`Site.Shifted`) or taken away (`Site.Removal`).

  Only at and below the new names it is not known what else there is: what was moved along is
  not taken away again where the disk does not have it any more.
-/
import LiveWorkspace.Proofs.Workspace.Creation
import LiveWorkspace.Proofs.Workspace.Removal

namespace LiveWorkspace

/-! ### Series that put the same -/

namespace Site

variable {z : Site} {d d' a a₀ b b₀ : Disk} {ns ms r : List String} {put put' added : List String → (Entry → Prop) → Prop}

/-- Where the same is put on two disks, the sites show the same at and above what was put, and
    else as much as they did before. -/
theorem Fills.node_eq (h : z.Fills put a₀ a) (h' : z.Fills put b₀ b) (ha : z.Tidy a) (hb : z.Tidy b)
    (hput : ∀ q P, put q P → ∃ k, ∀ e, P e → e.node? = some k)
    (hbase : (∀ q P, put q P → ¬ r <+: q) → z.node a₀ r = z.node b₀ r) : z.node a r = z.node b r := by
  by_cases hway : ∃ q P, put q P ∧ r <+: q
  · obtain ⟨q, P, hq, hr⟩ := hway
    by_cases heq : r = q
    · subst heq
      obtain ⟨k, hk⟩ := hput r P hq
      obtain ⟨e, he, hPe⟩ := h.there r P hq
      obtain ⟨e', he', hPe'⟩ := h'.there r P hq
      rw [node, node, ← entry, ← entry, he, he', Option.bind_some, Option.bind_some, hk e hPe, hk e' hPe']
    · obtain ⟨mode, hdir⟩ := h.above ha hq hr heq
      obtain ⟨mode', hdir'⟩ := h'.above hb hq hr heq
      rw [node_eq_directory_iff.mpr ⟨mode, hdir⟩, node_eq_directory_iff.mpr ⟨mode', hdir'⟩]
  · have hfree : ∀ q P, put q P → ¬ r <+: q := fun q P hq hr => hway ⟨q, P, hq, hr⟩
    rw [node_congr (h.apart hfree), node_congr (h'.apart hfree), hbase hfree]

/-- What is there as if it had been put, may count as put. -/
theorem Fills.extend (h : z.Fills put d d') (hput : ∀ r P, put' r P ↔ put r P ∨ added r P)
    (hthere : ∀ r P, added r P → ∃ e, z.entry d' r = some e ∧ P e) : z.Fills put' d d' where
  outside := h.outside
  there r P hP := ((hput r P).mp hP).elim (h.there r P) (hthere r P)
  frame r hr := by
    rcases h.frame r fun P hP => hr P ((hput r P).mpr (.inl hP)) with hsame | ⟨harises, q, P, hP, hway⟩
    · exact .inl hsame
    · exact .inr ⟨harises, q, P, (hput q P).mpr (.inl hP), hway⟩

/-! ### Copies that move along -/

/-- What is left when a copy was to be moved along: nothing has changed if there is none, and
    else directories have come on the way to its new names, and it is there. -/
inductive Shifted (z : Site) (ns ms : List String) (d : Disk) : Disk → Prop
  | nothing (h : z.entry d ns = none) : Shifted z ns ms d d
  | moved (t d' : Disk) (hgrown : z.Grown ms d t) (hrenaming : z.Renaming ns ms t d') : Shifted z ns ms d d'

/-- Nothing is below what is no directory. -/
theorem Tidy.entry_below (h : z.Tidy d) (hdir : ∀ mode, z.entry d ns ≠ some (.directory mode)) (hr : ns <+: r) (hne : ns ≠ r) :
    z.entry d r = none := by
  by_cases hfound : z.entry d r = none
  · exact hfound
  · obtain ⟨mode, hmode⟩ := h.entry_above hfound hr hne
    exact absurd hmode (hdir mode)

theorem Grown.entry_eq (h : z.Grown ms d d') (hr : ¬ r <+: ms) : z.entry d' r = z.entry d r := by
  cases hold : z.entry d r with
  | some e => exact h.kept _ _ hold
  | none =>
    rcases h.new _ hold with hnone | ⟨os, hos, hplace, -⟩
    · exact hnone
    · rw [place_inj hplace] at hr
      exact absurd hos hr

/-- An entry only moves to where there is nothing below. -/
theorem Tidy.entry_below_of_free {e : Entry} (h : z.Tidy d) (hgrown : z.Grown ms d d')
    (hfree : d'.mayReplace e (z.place ms) = .ok ()) (hr : ms <+: r) (hne : ms ≠ r) : z.entry d r = none := by
  by_cases hfound : z.entry d r = none
  · exact hfound
  · exfalso
    obtain ⟨mode, hdir⟩ := h.entry_above hfound hr hne
    obtain ⟨found, hfound⟩ := Option.ne_none_iff_exists'.mp hfound
    obtain ⟨rest, rfl⟩ := hr
    have hrest : rest.map Name.text ≠ [] := by simpa using hne
    have hmore : d'.get? (z.place ms ++ rest.map .text) = some found := by
      rw [← place_append]
      exact hgrown.kept _ _ hfound
    have hnonempty := Disk.below_ne_nil hmore hrest
    rw [Disk.mayReplace, hgrown.kept _ _ hdir] at hfree
    -- A directory is not replaced by a file, nor by a directory when it holds something.
    cases e with
    | file content mode' => cases hfree
    | link target => cases hfree
    | directory mode' => simp [Entry.isDirectory, hnonempty] at hfree

/-- Nothing is left where the copy was. -/
theorem Shifted.gone (h : z.Shifted ns ms d d') (htidy : z.Tidy d) (hr : ns <+: r) (hbelow : ¬ ms <+: r) :
    z.entry d' r = none := by
  cases h with
  | nothing hnone =>
    by_cases heq : ns = r
    · rwa [← heq]
    · exact htidy.entry_below (by simp [hnone]) hr heq
  | moved t d' hgrown hrenaming =>
    cases hrenaming with
    | same heq => exact absurd (heq ▸ hr) hbelow
    | moved e _ _ _ _ _ _ =>
      exact Disk.get?_move_source t (place_prefix_iff.mpr hr) fun hp => hbelow (place_prefix_iff.mp hp)

/-- Away from the old and the new names nothing changes. -/
theorem Shifted.kept (h : z.Shifted ns ms d d') (hr : ¬ ns <+: r) (hbelow : ¬ ms <+: r) (habove : ¬ r <+: ms) :
    z.entry d' r = z.entry d r := by
  cases h with
  | nothing _ => rfl
  | moved t d' hgrown hrenaming =>
    cases hrenaming with
    | same heq => exact hgrown.entry_eq habove
    | moved e _ _ _ _ _ _ =>
      rw [← hgrown.entry_eq habove]
      exact Disk.get?_move_of_not_prefix t (fun hp => hr (place_prefix_iff.mp hp)) fun hp => hbelow (place_prefix_iff.mp hp)

/-- Where nothing lands, all is below the new names as it was, and nothing was below both. -/
theorem Shifted.landed {rest : List String} (h : z.Shifted ns ms d d') (htidy : z.Tidy d) (hway : ¬ ms ++ rest <+: ms)
    (hnone : z.entry d (ns ++ rest) = none) :
    z.entry d' (ms ++ rest) = z.entry d (ms ++ rest) ∧ (ns <+: ms ++ rest → z.entry d (ms ++ rest) = none) := by
  have hne : ms ≠ ms ++ rest := fun heq => hway (heq ▸ List.prefix_rfl)
  cases h with
  | nothing hsource =>
    refine ⟨rfl, fun hr => ?_⟩
    by_cases heq : ns = ms ++ rest
    · rwa [← heq]
    · exact htidy.entry_below (by simp [hsource]) hr heq
  | moved t d' hgrown hrenaming =>
    cases hrenaming with
    | same heq => exact ⟨hgrown.entry_eq hway, fun _ => heq ▸ hnone⟩
    | moved e _ _ _ hbelow _ hfree =>
      have hfree := htidy.entry_below_of_free hgrown hfree (List.prefix_append ms rest) hne
      have hsource : z.entry t (ns ++ rest) = none := by
        rw [hgrown.entry_eq fun hp => hbelow ((List.prefix_append ns rest).trans hp), hnone]
      refine ⟨?_, fun _ => hfree⟩
      rw [hfree, ← hsource, entry, entry, place_append, place_append]
      exact Disk.get?_move_target t (rest.map .text)

/-- A copy that moves along, and one that is taken away, leave the same, but for what lands at
    the new names. -/
theorem Shifted.node_eq (h : z.Shifted ns ms d d') (htidy : z.Tidy d) (hgone : ns <+: r → z.node b r = none) (hkept : ¬ ns <+: r → z.node b r = z.node d r) (hway : ¬ r <+: ms)
    (hland : ∀ rest, r = ms ++ rest → z.node d (ns ++ rest) = none) : z.node d' r = z.node b r := by
  by_cases hbelow : ms <+: r
  · obtain ⟨rest, rfl⟩ := hbelow
    obtain ⟨hsame, hnone⟩ := h.landed htidy hway (htidy.node_eq_none_iff.mp (hland rest rfl))
    rw [node_congr hsame]
    by_cases hr : ns <+: ms ++ rest
    · rw [hgone hr, htidy.node_eq_none_iff]
      exact hnone hr
    · exact (hkept hr).symm
  · by_cases hr : ns <+: r
    · rw [hgone hr, node, ← entry, h.gone htidy hr hbelow, Option.bind_none]
    · rw [hkept hr, node_congr (h.kept hr hbelow hway)]

end Site

namespace Premises

variable {m : Premises} {old : Disk} {text : Path → String} {dirs files : Path → Prop} {r : List String} {P : Entry → Prop}

/-- It is known of what is put what a site shows there. -/
theorem Put.node (h : m.Put old (Site.Holding text) dirs files r P) : ∃ k, ∀ e, P e → e.node? = some k := by
  rcases h with ⟨p, -, -, rfl⟩ | ⟨p, -, -, rfl⟩
  · refine ⟨.directory, ?_⟩
    rintro e ⟨mode, -, rfl⟩
    rfl
  · refine ⟨.file (Text.Utf8.encode (text p)), ?_⟩
    rintro e ⟨mode, rfl⟩
    rfl

end Premises

/-! ### What is taken up at the new path -/

namespace Disk

variable {d disk : Disk} {p q : Path} {m : Premises}

/-- What is taken up with a path lies at or below it. -/
theorem exists_names_of_at (hd : d.Proper) (h : q ∈ d.dirsAt p ∨ q ∈ d.filesAt p) :
    ∃ ks : List String, (∀ n ∈ ks, Path.Proper n) ∧ q = ks.foldl Path.child p := by
  rw [dirsAt, filesAt] at h
  cases hdir : d.hasDirectory p with
  | true =>
    rw [hdir, if_pos rfl, if_pos rfl] at h
    exact exists_names_of_mem_tree hd h
  | false =>
    rw [hdir, if_neg Bool.false_ne_true, if_neg Bool.false_ne_true] at h
    rcases h with h | h
    · exact absurd h List.not_mem_nil
    · exact ⟨[], fun _ hn => absurd hn List.not_mem_nil, List.mem_singleton.mp h⟩

/-- A path that leads to something is taken up itself. -/
theorem mem_at_self (d : Disk) (p : Path) : p ∈ d.dirsAt p ∨ p ∈ d.filesAt p := by
  rw [dirsAt, filesAt]
  cases hdir : d.hasDirectory p with
  | true => exact .inl (by rw [if_pos rfl]; exact mem_dirs_of_hasDirectory hdir)
  | false => exact .inr (by rw [if_neg Bool.false_ne_true]; exact List.mem_singleton_self p)

end Disk

theorem Premises.Detached.listed_at {m : Premises} {old : Disk} {p : Path} (h : m.Detached old p) (disk : Disk)
    (hout : Disk.SameOutside m.site.zone old disk) (q : Path) (hq : q ∈ old.dirsAt p ∨ q ∈ old.filesAt p) :
    disk.stat q = old.stat q := by
  rw [Disk.dirsAt, Disk.filesAt] at hq
  cases hdir : old.hasDirectory p with
  | true =>
    rw [hdir, if_pos rfl, if_pos rfl] at hq
    exact h.listed disk hout q hq
  | false =>
    rw [hdir, if_neg Bool.false_ne_true, if_neg Bool.false_ne_true] at hq
    rcases hq with hq | hq
    · exact absurd hq List.not_mem_nil
    · rw [List.mem_singleton.mp hq]
      exact h.stat disk hout

namespace Desk

variable {m : Premises} {d : Desk} {p q x y : Path} {E : Crash → Desk → Prop}

/-- The text that the copy of a path gets when the path is taken up. -/
def textAt (d : Desk) (q : Path) : String := d.account.textOr q (d.shared.disk.textOf q)

theorem record_of_opens (h : d.account.opens x = true) : d.account.record x = some (d.textAt x, true) := by
  obtain ⟨content, hrecord⟩ := Account.record_of_opens h
  rw [textAt, Account.textOr_of_opens hrecord, hrecord]

/-- The files whose copies are written for a rename: those at the new path, and what is open at
    the old one. -/
def Refills (p q : Path) (d : Desk) (x : Path) : Prop := x ∈ d.shared.disk.filesAt q ∨ d.Stays p x

namespace Seated

theorem encloses_at (h : d.Seated m) (hq : m.root.Encloses q) (hx : x ∈ d.shared.disk.dirsAt q ∨ x ∈ d.shared.disk.filesAt q) :
    m.root.Encloses x := by
  obtain ⟨ks, hks, rfl⟩ := Disk.exists_names_of_at h.tidy.proper hx
  exact hq.foldl_child hks

/-- What is taken up with a path is told apart by its names. -/
theorem eq_of_names_at (h : d.Seated m) (hq : m.root.Encloses q)
    (hx : x ∈ d.shared.disk.dirsAt q ∨ x ∈ d.shared.disk.filesAt q)
    (hy : y ∈ d.shared.disk.dirsAt q ∨ y ∈ d.shared.disk.filesAt q) (hnames : m.names x = m.names y) : x = y := by
  obtain ⟨ks, hks, rfl⟩ := Disk.exists_names_of_at h.tidy.proper hx
  obtain ⟨ls, hls, rfl⟩ := Disk.exists_names_of_at h.tidy.proper hy
  rw [Premises.names, Premises.names, hq.namesBelow_foldl_child hks, hq.namesBelow_foldl_child hls,
    List.append_cancel_left_eq] at hnames
  rw [hnames]

theorem encloses_stays (h : d.Seated m) (hx : d.Stays p x) : m.root.Encloses x := by
  obtain ⟨y, hy, hsame⟩ := List.any_eq_true.mp hx.1
  exact (h.below y hy).congr hsame

/-- Whatever is written at some names has one text. -/
theorem coherent_refills (h : d.Seated m) (hq : m.root.Encloses q) :
    m.Coherent d.shared.disk (Site.Holding d.textAt) (· ∈ d.shared.disk.dirsAt q) (d.Refills p q) := by
  have hencloses : ∀ x, d.Refills p q x → m.root.Encloses x := by
    rintro x (hx | hx)
    · exact h.encloses_at hq (.inr hx)
    · exact h.encloses_stays hx
  constructor
  · intro x y hx hy hnames
    rw [h.eq_of_names_at hq (.inl hx) (.inl hy) hnames]
  · intro x y hx hy hnames
    apply Site.holding_congr
    have hsame := (Premises.names_eq_iff (hencloses x hx) (hencloses y hy)).mp hnames
    have hrecord : d.account.record x = d.account.record y := Store.record_congr _ hsame
    cases hopen : d.account.opens x with
    | true =>
      have hopen' : d.account.opens y = true := by rwa [Account.opens, ← hrecord, ← Account.opens]
      have htext := record_of_opens hopen
      rw [hrecord, record_of_opens hopen'] at htext
      exact (Prod.mk.inj (Option.some.inj htext)).1.symm
    | false =>
      -- What is closed is written for the new path only.
      have hopen' : d.account.opens y = false := by rwa [Account.opens, ← hrecord, ← Account.opens]
      have hclosed : ∀ z, d.account.opens z = false → d.Refills p q z → z ∈ d.shared.disk.filesAt q := by
        intro z hz hrefills
        rcases hrefills with hin | hstays
        · exact hin
        · rw [opens_account, hstays.2.2] at hz
          cases hz
      rw [h.eq_of_names_at hq (.inr (hclosed x hopen hx)) (.inr (hclosed y hopen' hy)) hnames]

end Seated

/-! ### What a rename puts -/

/-- The documents and the tracked paths when one path has been let go and another taken up. -/
def relocated (p q : Path) (d : Desk) : Account := (d.account.letGo p).takeAll d.shared.disk (d.shared.disk.filesAt q)

theorem opens_relocated (p q : Path) (d : Desk) (x : Path) : (d.relocated p q).opens x = d.account.opens x := by
  rw [relocated, Account.opens_takeAll, Account.opens_letGo]

/-- What is open keeps its record. -/
theorem record_relocated (hx : d.account.opens x = true) : (d.relocated p q).record x = some (d.textAt x, true) := by
  obtain ⟨content, hrecord⟩ := Account.record_of_opens ((opens_relocated p q d x).trans hx)
  have htext := Account.textOr_of_opens hrecord (d.shared.disk.textOf x)
  rw [relocated, Account.textOr_takeAll, Account.textOr_letGo] at htext
  rw [hrecord, ← htext, textAt]

/-- What is open at and below the old path is tracked just as before. -/
theorem stays_relocated (hknown : ∀ x, x.startsWith p = true → d.shared.store.contains x = true → d.workspace.tracks x = true) :
    (d.relocated p q).tracks x = true ∧ x.startsWith p = true ∧ (d.relocated p q).opens x = true ↔ d.Stays p x := by
  rw [opens_relocated, opens_account]
  constructor
  · rintro ⟨-, hx, hopen⟩
    exact ⟨hknown x hx (Store.contains_of_isOpen hopen), hx, hopen⟩
  · rintro ⟨htracks, hx, hopen⟩
    refine ⟨?_, hx, hopen⟩
    rw [relocated, Account.tracks_takeAll, (Account.letGo_of_opens ((opens_account d x).trans hopen) p).2, Bool.or_eq_true]
    exact .inl htracks

section Renamed

variable (checks : Checkers)

theorem putting_congr {since : Shared} {a : Account} {base : Disk → Prop} {text : Path → String}
    {dirs files dirs' files' : Path → Prop} (hdirs : ∀ x, dirs x ↔ dirs' x) (hfiles : ∀ x, files x ↔ files' x) :
    Putting m since a base text dirs files = Putting m since a base text dirs' files' := by
  rw [Putting, Putting, Premises.put_congr hdirs hfiles]

/-- What is done about a rename once the copy has been moved along. -/
def settle (source target : Path) : Act Desk Unit := do
  untrackAndClear source
  if (← get).shared.disk.hasDirectory target then trackDir checks target
  else
    trackFile target
    syncReplica target
    diagnose checks target
  resyncOpen source

theorem wp_renamed {I : Desk → Prop} {Q : Unit → Desk → Prop} (hpath : d.shared.disk.hasPath q = true)
    (hmove : d.shared.disk.hasPath (d.workspace.replicaPath p) = true →
      wp (onReplica (Replica.rename (d.workspace.replicaPath p) (d.workspace.replicaPath q)) "Failed to rename mirror entry")
        (fun _ => I) E d)
    (hstay : d.shared.disk.hasPath (d.workspace.replicaPath p) = false → I d)
    (hsettle : ∀ d', I d' → wp (settle checks p q) Q E d') : wp (renamed checks p q) Q E d := by
  rw [renamed, wp_bind, wp_get, if_pos hpath]
  refine (wp_ite _ _).mpr ⟨fun hcopy => ?_, fun hcopy => hsettle d (hstay (by simpa using hcopy))⟩
  rw [wp_bind]
  exact wp_imp (hmove hcopy) (fun _ d' hd' => hsettle d' hd') fun _ _ he => he

namespace Amid

variable {since : Shared} {a : Account} {base : Disk → Prop} {text : Path → String} {dirs files : Path → Prop}

/-- A file that another one has become gets its copy. -/
theorem fileAt (htotal : checks.Total) (h : d.Putting m since a base text dirs files) (hp : m.root.Encloses p)
    (hfile : since.disk.hasDirectory p = false) (hstat : d.shared.disk.stat p = since.disk.stat p)
    (htext : ∀ x ∈ since.disk.filesAt p, text x = a.textOr x (since.disk.textOf x))
    (hcoherent : m.Coherent since.disk (Site.Holding text) (fun x => dirs x ∨ x ∈ since.disk.dirsAt p)
      fun x => files x ∨ x ∈ since.disk.filesAt p) :
    wp (do Desk.trackFile p; Desk.syncReplica p; diagnose checks p)
      (fun _ => Putting m since (a.takeAll since.disk (since.disk.filesAt p)) base text
        (fun x => dirs x ∨ x ∈ since.disk.dirsAt p) fun x => files x ∨ x ∈ since.disk.filesAt p) E d := by
  have hdirs : since.disk.dirsAt p = [] := by rw [Disk.dirsAt, hfile, if_neg Bool.false_ne_true]
  have hfiles : since.disk.filesAt p = [p] := by rw [Disk.filesAt, hfile, if_neg Bool.false_ne_true]
  rw [hdirs, hfiles] at hcoherent ⊢
  have hnone : ∀ x, dirs x ↔ dirs x ∨ x ∈ [] := by simp
  have hone : ∀ x, files x ∨ x = p ↔ files x ∨ x ∈ [p] := by simp
  rw [← putting_congr hnone hone, wp_bind]
  refine wp_imp (h.trackFile hp (Disk.textOf_congr hstat)) (fun _ d₁ h₁ => ?_) fun _ _ he => he
  have hrecord := a.record_take_self p (since.disk.textOf p)
  rw [← htext p (by rw [hfiles]; exact List.mem_singleton_self p)] at hrecord
  rw [wp_bind]
  refine wp_imp (h₁.puts hp hrecord (S := (· = p)) rfl (fun x hx => by rw [hx])
    (hcoherent.mono (fun x => (hnone x).mp) fun x => (hone x).mp)) (fun _ d₂ h₂ => ?_) fun _ _ he => he
  exact ((amid_calm _ _ _ _).diagnose_keeps checks (amid_records _ _ _ _) p).unbroken (diagnose_ends checks htotal p) h₂

end Amid

end Renamed

namespace Seated

variable (checks : Checkers)

/-- Once the copy has been moved along, the new path is taken up, and the copies of what is open
    at the old one are put. -/
theorem settle_puts {base : Disk → Prop} {d₁ : Desk} (htotal : checks.Total) (h : d.Seated m) (hq : m.root.Encloses q)
    (hdetached : m.Detached d.shared.disk q)
    (hknown : ∀ x, x.startsWith p = true → d.shared.store.contains x = true → d.workspace.tracks x = true)
    (h₁ : Putting m d.shared d.account base d.textAt (fun _ => False) (fun _ => False) d₁) :
    wp (settle checks p q) (fun _ => Putting m d.shared (d.relocated p q) base d.textAt (· ∈ d.shared.disk.dirsAt q)
      (d.Refills p q)) E d₁ := by
  have hcoherent := h.coherent_refills (p := p) hq
  have hat : m.Coherent d.shared.disk (Site.Holding d.textAt) (fun x => False ∨ x ∈ d.shared.disk.dirsAt q)
      fun x => False ∨ x ∈ d.shared.disk.filesAt q := by
    refine hcoherent.mono (fun x hx => ?_) fun x hx => .inl ?_
    · simpa using hx
    · simpa using hx
  have htext : ∀ x ∈ d.shared.disk.filesAt q, d.textAt x = (d.account.letGo p).textOr x (d.shared.disk.textOf x) := by
    intro x _
    rw [Account.textOr_letGo, textAt]
  have hresync : ∀ d', Putting m d.shared (d.relocated p q) base d.textAt (fun x => False ∨ x ∈ d.shared.disk.dirsAt q)
      (fun x => False ∨ x ∈ d.shared.disk.filesAt q) d' → wp (resyncOpen p) (fun _ => Putting m d.shared (d.relocated p q) base
        d.textAt (· ∈ d.shared.disk.dirsAt q) (d.Refills p q)) E d' := by
    intro d' h'
    have hrefills : ∀ x, (False ∨ x ∈ d.shared.disk.filesAt q) ∨ (d.relocated p q).tracks x = true ∧ x.startsWith p = true
        ∧ (d.relocated p q).opens x = true ↔ d.Refills p q x := by
      intro x
      rw [false_or, stays_relocated hknown, Refills]
    have hdirs : ∀ x, False ∨ x ∈ d.shared.disk.dirsAt q ↔ x ∈ d.shared.disk.dirsAt q := by simp
    rw [← putting_congr hdirs hrefills]
    refine h'.resyncOpen (fun x hx => ?_) (hcoherent.mono (fun x => (hdirs x).mp) fun x => (hrefills x).mp)
    rw [opens_relocated] at hx
    exact record_relocated hx
  rw [settle, wp_bind]
  refine wp_imp (h₁.untrackAndClear fun x hx hrecord _ => hknown x hx ?_) (fun _ d₂ h₂ => ?_) fun _ _ he => he
  · rw [Store.contains_eq_record, Option.isSome_iff_ne_none]
    exact hrecord
  have hstat := hdetached.stat _ h₂.outside
  have hsame : d₂.shared.disk.hasDirectory q = d.shared.disk.hasDirectory q := by
    rw [Disk.hasDirectory, hstat, Disk.hasDirectory]
  rw [wp_bind, wp_get]
  refine (wp_ite _ _).mpr ⟨fun hdir => ?_, fun hfile => ?_⟩
  · rw [wp_bind]
    exact wp_imp (h₂.directoryAt checks htotal hq (hdetached.tree _ h₂.outside) (hsame ▸ hdir) hdetached.listed_at htext hat)
      (fun _ d₃ h₃ => hresync d₃ h₃) fun _ _ he => he
  · have hfile : d.shared.disk.hasDirectory q = false := by simpa [hsame] using hfile
    have hput := h₂.fileAt checks htotal hq hfile hstat htext hat (E := E)
    rw [wp_bind] at hput ⊢
    refine wp_imp hput (fun _ d₃ h₃ => ?_) fun _ _ he => he
    rw [wp_bind] at h₃ ⊢
    refine wp_imp h₃ (fun _ d₄ h₄ => ?_) fun _ _ he => he
    rw [wp_bind]
    exact wp_imp h₄ (fun _ d₅ h₅ => hresync d₅ h₅) fun _ _ he => he

/-- A rename moves the copy along, puts what it takes up at the new path, and puts the copies of
    what is open at the old one, unless something fails. -/
theorem renamed_puts (htotal : checks.Total) (h : d.Seated m) (hp : m.root.Encloses p) (hq : m.root.Encloses q)
    (hpath : d.shared.disk.hasPath q = true) (hdetached : m.Detached d.shared.disk q)
    (hknown : ∀ x, x.startsWith p = true → d.shared.store.contains x = true → d.workspace.tracks x = true) :
    wp (renamed checks p q) (fun _ => Putting m d.shared (d.relocated p q)
      (fun disk => (m.copyOf p).flaw? = none → m.site.Shifted (m.names p) (m.names q) d.shared.disk disk) d.textAt
      (· ∈ d.shared.disk.dirsAt q) (d.Refills p q)) E d := by
  have hspells := Premises.spells_copyOf hp
  have hspells' := Premises.spells_copyOf hq
  have hnothing : ∀ r P, ¬ m.Put d.shared.disk (Site.Holding d.textAt) (fun _ => False) (fun _ => False) r P := by
    rintro r P (⟨_, hfalse, -⟩ | ⟨_, hfalse, -⟩)
    · exact hfalse
    · exact hfalse
  apply wp_renamed (I := Putting m d.shared d.account
    (fun disk => (m.copyOf p).flaw? = none → m.site.Shifted (m.names p) (m.names q) d.shared.disk disk) d.textAt
    (fun _ => False) fun _ => False) checks hpath
  · -- The copy moves, or the failure is reported.
    intro _
    rw [h.replicaPath_eq, h.replicaPath_eq]
    refine wp_imp (h.amid.onReplica (by decide) (Site.rename_kempt hspells hspells' d.shared.disk) fun u disk _ hrename => ?_)
      (fun _ _ hd' => hd'.1) fun _ _ he => he
    obtain ⟨t, hgrown, hrenaming⟩ := h.tidy.stands.rename_ok hspells hspells' hrename
    exact ⟨disk, fun _ => .moved t disk hgrown hrenaming, .refl hnothing disk⟩
  · intro hcopy
    rw [h.replicaPath_eq] at hcopy
    refine (h.putting d.textAt).imp fun disk _ hfilled => ?_
    obtain ⟨_, rfl, hfills⟩ := hfilled
    refine ⟨_, fun hflaw => .nothing ?_, hfills⟩
    apply h.tidy.node_eq_none_iff.mp
    by_cases hnone : m.site.node d.shared.disk (m.names p) = none
    · exact hnone
    · rw [(h.tidy.hasPath_iff hspells hflaw).mpr hnone] at hcopy
      cases hcopy
  · exact fun d₁ h₁ => h.settle_puts checks htotal hq hdetached hknown h₁

end Seated

/-! ### What a removal and a creation put -/

/-- What is put for a rename: the directories at the new path, and the files whose copies are
    written. -/
abbrev Refilling (m : Premises) (p q : Path) (d : Desk) : List String → (Entry → Prop) → Prop :=
  m.Put d.shared.disk (Site.Holding d.textAt) (· ∈ d.shared.disk.dirsAt q) (d.Refills p q)

/-- Names lead to something that is put for a rename. -/
def Shown (m : Premises) (p q : Path) (d : Desk) (r : List String) : Prop :=
  ∃ x, (x ∈ d.shared.disk.dirsAt q ∨ d.Refills p q x) ∧ r <+: m.names x

theorem not_shown_iff {r : List String} : ¬ d.Shown m p q r ↔ ∀ r' P, d.Refilling m p q r' P → ¬ r <+: r' := by
  constructor
  · rintro hfree r' P (⟨x, hx, rfl, -⟩ | ⟨x, hx, rfl, -⟩) hr
    · exact hfree ⟨x, .inl hx, hr⟩
    · exact hfree ⟨x, .inr hx, hr⟩
  · rintro hfree ⟨x, hx | hx, hr⟩
    · exact hfree _ _ (.inl ⟨x, hx, rfl, rfl⟩) hr
    · exact hfree _ _ (.inr ⟨x, hx, rfl, rfl⟩) hr

/-- A path can be moved like one that goes and comes again: it is not open, or else all that is
    tracked at and below it is open, and its copy has its text. -/
def Movable (p : Path) (d : Desk) : Prop :=
  d.shared.store.isOpen p = false
    ∨ (∀ x, d.workspace.tracks x = true → x.startsWith p = true → d.shared.store.isOpen x = true)
      ∧ ∃ doc, d.shared.store.get? p = some doc
        ∧ d.shared.disk.read (d.workspace.replicaPath p) = .ok (Text.Utf8.encode doc.content)

/-- Where all is open, nothing is let go. -/
theorem letGo_of_open (hall : ∀ x, d.workspace.tracks x = true → x.startsWith p = true → d.shared.store.isOpen x = true)
    (hknown : ∀ x, x.startsWith p = true → d.shared.store.contains x = true → d.workspace.tracks x = true) :
    d.account.letGo p = d.account := by
  have hopen : ∀ x, x.startsWith p = true → d.account.opens x = false → d.shared.store.contains x = false := by
    intro x hx hclosed
    rw [Bool.eq_false_iff]
    intro hin
    rw [opens_account, hall x (hknown x hx hin) hx] at hclosed
    cases hclosed
  refine Account.ext (funext fun x => ?_) (funext fun x => ?_)
  · show (if x.startsWith p && !d.account.opens x then none else d.account.record x) = d.account.record x
    split
    · rename_i hcond
      rw [Bool.and_eq_true, Bool.not_eq_true'] at hcond
      have hout := hopen x hcond.1 hcond.2
      rw [Store.contains_eq_record, Option.isSome_eq_false_iff, Option.isNone_iff_eq_none] at hout
      exact hout.symm
    · rfl
  · show (d.account.tracks x && !(x.startsWith p && !d.account.opens x)) = d.account.tracks x
    cases htracks : d.account.tracks x with
    | false => rfl
    | true =>
      cases hx : x.startsWith p with
      | false => rfl
      | true =>
        rw [opens_account, hall x htracks hx]
        rfl

/-- What is in the replica after a removal and a creation. The removal of what is open does
    nothing. -/
inductive Recreated (m : Premises) (p q : Path) (d : Desk) (disk : Disk) : Prop
  | closed (hclosed : d.shared.store.isOpen p = false)
      (hfilled : m.site.Filled (fun b => (m.copyOf p).flaw? = none ∧ m.site.Removal (m.names p) d.shared.disk b)
        (m.Put d.shared.disk (Site.Holding d.textAt) (· ∈ d.shared.disk.dirsAt q) (d.Refills p q)) disk)
  | opened (hopen : d.shared.store.isOpen p = true)
      (hfills : m.site.Fills
        (m.Put d.shared.disk (Site.Holding d.textAt) (· ∈ d.shared.disk.dirsAt q) (· ∈ d.shared.disk.filesAt q))
        d.shared.disk disk)

namespace Seated

variable (checks : Checkers)

/-- After something has been let go, the new path is taken up. -/
theorem created_later {base : Disk → Prop} {files : Path → Prop} {d₁ : Desk} (htotal : checks.Total) (h : d.Seated m)
    (hq : m.root.Encloses q) (hclosed : d.shared.store.isOpen q = false) (hpath : d.shared.disk.hasPath q = true)
    (hdetached : m.Detached d.shared.disk q) (hfiles : ∀ x, files x → d.Stays p x)
    (h₁ : Putting m d.shared (d.account.letGo p) base d.textAt (fun _ => False) files d₁) :
    wp (onDiskEvent checks (.created q)) (fun _ => Putting m d.shared (d.relocated p q) base d.textAt
      (· ∈ d.shared.disk.dirsAt q) fun x => files x ∨ x ∈ d.shared.disk.filesAt q) E d₁ := by
  have hclosed₁ : d₁.shared.store.isOpen q = false := by
    rw [h₁.opens, Account.opens_letGo, opens_account, hclosed]
  have hdirs : ∀ x, False ∨ x ∈ d.shared.disk.dirsAt q ↔ x ∈ d.shared.disk.dirsAt q := by simp
  have hcoherent : m.Coherent d.shared.disk (Site.Holding d.textAt) (fun x => False ∨ x ∈ d.shared.disk.dirsAt q)
      fun x => files x ∨ x ∈ d.shared.disk.filesAt q := by
    refine (h.coherent_refills (p := p) hq).mono (fun x => (hdirs x).mp) fun x hx => ?_
    exact hx.elim (fun hx => .inr (hfiles x hx)) .inl
  have htext : ∀ x ∈ d.shared.disk.filesAt q, d.textAt x = (d.account.letGo p).textOr x (d.shared.disk.textOf x) := by
    intro x _
    rw [Account.textOr_letGo, textAt]
  rw [← putting_congr hdirs fun _ => Iff.rfl]
  apply Amid.onDiskEvent checks (e := .created q) htotal hclosed₁
  refine wp_imp (h₁.created_puts checks htotal hq (hdetached.stat _ h₁.outside) (hdetached.tree _ h₁.outside) hpath
    hdetached.listed_at htext hcoherent) (fun _ d₂ h₂ => h₂.imp fun disk _ hfilled => hfilled.1) fun _ _ he => he

/-- A removal and a creation end, whatever fails in them. -/
theorem recreated (htotal : checks.Total) (h : d.Seated m) (hp : m.root.Encloses p) (hq : m.root.Encloses q)
    (hclosed : d.shared.store.isOpen q = false) (hpath : d.shared.disk.hasPath q = true)
    (hdetached : m.Detached d.shared.disk q) (hmovable : d.Movable p)
    (hknown : ∀ x, x.startsWith p = true → d.shared.store.contains x = true → d.workspace.tracks x = true) :
    ∃ d₁ d₂, onDiskEvent checks (.removed p) d = .ok () d₁ ∧ onDiskEvent checks (.created q) d₁ = .ok () d₂
      ∧ d₂.Amid m d.shared (d.relocated p q) (d.Recreated m p q) := by
  cases hopen : d.shared.store.isOpen p with
  | true =>
    obtain ⟨hall, -⟩ := hmovable.resolve_left (by simp [hopen])
    have h₁ := h.putting d.textAt
    rw [← letGo_of_open hall hknown] at h₁
    obtain ⟨d₂, hrun, h₂⟩ := exists_ok_of_wp (h.created_later checks htotal hq hclosed hpath hdetached (fun _ hx => hx.elim) h₁)
    refine ⟨d, d₂, onDiskEvent_of_open checks hopen, hrun, h₂.imp fun disk _ hfilled => .opened hopen ?_⟩
    obtain ⟨_, rfl, hfills⟩ := hfilled
    have hfiles : ∀ x, False ∨ x ∈ d.shared.disk.filesAt q ↔ x ∈ d.shared.disk.filesAt q := by simp
    rwa [Premises.put_congr (fun _ => Iff.rfl) hfiles] at hfills
  | false =>
    have hremoved := h.removed_puts checks (E := fun _ _ => False) hp hknown fun x hx => record_of_opens hx
    obtain ⟨d₁, hrun₁, h₁⟩ := exists_ok_of_wp (Amid.onDiskEvent checks (e := .removed p) htotal hopen hremoved)
    obtain ⟨d₂, hrun₂, h₂⟩ := exists_ok_of_wp (h.created_later checks htotal hq hclosed hpath hdetached (fun _ hx => hx) h₁)
    refine ⟨d₁, d₂, hrun₁, hrun₂, h₂.imp fun disk _ hfilled => .closed hopen ?_⟩
    have hfiles : ∀ x, d.Stays p x ∨ x ∈ d.shared.disk.filesAt q ↔ d.Refills p q x := fun x => or_comm
    rwa [Premises.put_congr (fun _ => Iff.rfl) hfiles] at hfilled

/-- A copy with the text of its open document, which counts as put. -/
theorem there_of_open {a₀ a b : Disk} (h : d.Seated m) (hq : m.root.Encloses q) (hstays : d.Stays p p)
    (hcopy : ∃ mode, m.site.entry d.shared.disk (m.names p) = some (.file (Text.Utf8.encode (d.textAt p)) mode))
    (hfills : m.site.Fills (d.Refilling m p q) a₀ a)
    (hfills' : m.site.Fills (m.Put d.shared.disk (Site.Holding d.textAt) (· ∈ d.shared.disk.dirsAt q) (· ∈ d.shared.disk.filesAt q))
      d.shared.disk b) : ∃ e, m.site.entry b (m.names p) = some e ∧ Site.Holding d.textAt p e := by
  obtain ⟨e, he, mode, rfl⟩ := hfills.there _ _ (.inr ⟨p, .inr hstays, rfl, rfl⟩)
  by_cases hput : ∃ P, m.Put d.shared.disk (Site.Holding d.textAt) (· ∈ d.shared.disk.dirsAt q) (· ∈ d.shared.disk.filesAt q)
      (m.names p) P
  · obtain ⟨P, ⟨x, hx, hnames, rfl⟩ | ⟨x, hx, hnames, rfl⟩⟩ := hput
    · -- A directory could not have been put beside the file.
      obtain ⟨e', he', mode', -, rfl⟩ := hfills.there _ _ (.inl ⟨x, hx, hnames, rfl⟩)
      rw [he] at he'
      cases he'
    · rw [← (h.coherent_refills (p := p) hq).alike x p (.inl hx) (.inr hstays) hnames]
      exact hfills'.there _ _ (.inr ⟨x, hx, hnames, rfl⟩)
  · obtain ⟨mode', hold⟩ := hcopy
    rcases hfills'.frame (m.names p) fun P hP => hput ⟨P, hP⟩ with hsame | ⟨⟨hnone, -⟩, -⟩
    · exact ⟨_, hsame.trans hold, mode', rfl⟩
    · rw [hnone] at hold
      cases hold

/-- The text of an open document is that which its copy gets. -/
theorem content_of_open {doc : Document} (hopen : d.shared.store.isOpen p = true) (hdoc : d.shared.store.get? p = some doc) :
    doc.content = d.textAt p := by
  have hrecord := record_of_opens ((opens_account d p).trans hopen)
  have hrecord' : d.account.record p = some (doc.content, doc.isOpen) := by
    show d.shared.store.record p = _
    rw [Store.record, hdoc, Option.map_some]
  rw [hrecord'] at hrecord
  exact (Prod.mk.inj (Option.some.inj hrecord)).1

/-- Where the copy of a path has been put as a file, nothing open lies below the path. -/
theorem names_of_stays {a₀ a : Disk} (h : d.Seated m) (hp : m.root.Encloses p) (htidy : m.site.Tidy a)
    (hfills : m.site.Fills (d.Refilling m p q) a₀ a) (hself : d.Stays p p) {x : Path} (hx : d.Stays p x) :
    m.names x = m.names p := by
  by_cases heq : m.names p = m.names x
  · exact heq.symm
  · obtain ⟨e, he, mode, rfl⟩ := hfills.there _ _ (.inr ⟨p, .inr hself, rfl, rfl⟩)
    have hway := (Premises.names_prefix_iff hp (h.encloses_stays hx)).mpr hx.2.1
    obtain ⟨mode', hdir⟩ := hfills.above htidy (.inr ⟨x, .inr hx, rfl, rfl⟩) hway heq
    rw [hdir] at he
    cases he

/-- A removal and a creation put the same as a rename, where nothing is left of the old path. -/
theorem refilled {a₀ a b : Disk} (h : d.Seated m) (hp : m.root.Encloses p) (hq : m.root.Encloses q) (hmovable : d.Movable p)
    (hknown : ∀ x, x.startsWith p = true → d.shared.store.contains x = true → d.workspace.tracks x = true)
    (htidy : m.site.Tidy a) (hfills : m.site.Fills (d.Refilling m p q) a₀ a) (hrecreated : d.Recreated m p q b) :
    (m.copyOf p).flaw? = none ∧ ∃ b₀, m.site.Fills (d.Refilling m p q) b₀ b
      ∧ ∀ r, ¬ d.Shown m p q r → (m.names p <+: r → m.site.node b₀ r = none)
        ∧ (¬ m.names p <+: r → m.site.node b₀ r = m.site.node d.shared.disk r) := by
  cases hrecreated with
  | closed hclosed hfilled =>
    obtain ⟨b₀, ⟨hflaw, hremoval⟩, hfills'⟩ := hfilled
    have hcleared := hremoval.cleared h.tidy
    exact ⟨hflaw, b₀, hfills', fun r _ => ⟨hcleared.gone r, hcleared.kept r⟩⟩
  | opened hopen hfills' =>
    obtain ⟨hall, doc, hdoc, hread⟩ := hmovable.resolve_left (by simp [hopen])
    rw [h.replicaPath_eq] at hread
    have hflaw := Disk.flaw?_of_read hread
    have hstays : d.Stays p p :=
      ⟨hknown p (Path.startsWith_refl p) (Store.contains_of_isOpen hopen), Path.startsWith_refl p, hopen⟩
    rw [content_of_open hopen hdoc] at hread
    obtain ⟨-, hcopy⟩ := (h.tidy.stands.read_eq_ok_iff (Premises.spells_copyOf hp) hflaw).mp hread
    have hthere := h.there_of_open hq hstays hcopy hfills hfills'
    have hnames : ∀ x, d.Stays p x → m.names x = m.names p := fun x => h.names_of_stays hp htidy hfills hstays
    have hlike : ∀ x, d.Stays p x → Site.Holding d.textAt x = Site.Holding d.textAt p := fun x hx =>
      (h.coherent_refills (p := p) hq).alike x p (.inr hx) (.inr hstays) (hnames x hx)
    have hput : ∀ r P, d.Refilling m p q r P ↔
        m.Put d.shared.disk (Site.Holding d.textAt) (· ∈ d.shared.disk.dirsAt q) (· ∈ d.shared.disk.filesAt q) r P
          ∨ ∃ x, d.Stays p x ∧ m.names x = r ∧ P = Site.Holding d.textAt x := by
      intro r P
      simp only [Premises.Put, Refills, or_and_right, exists_or, or_assoc]
    refine ⟨hflaw, d.shared.disk, hfills'.extend hput ?_, fun r hfree => ⟨fun hr => ?_, fun _ => rfl⟩⟩
    · rintro r P ⟨x, hx, rfl, rfl⟩
      rw [hnames x hx, hlike x hx]
      exact hthere
    · obtain ⟨mode, hcopy⟩ := hcopy
      rw [h.tidy.node_eq_none_iff]
      refine h.tidy.entry_below (fun mode' hdir => ?_) hr fun heq => ?_
      · rw [Site.entry, hcopy] at hdir
        cases hdir
      · exact hfree ⟨p, .inr (.inr hstays), heq ▸ List.prefix_rfl⟩

end Seated

/-! ### The same is left -/

/-- What a rename leaves beside what a removal and a creation leave: the same documents and
    tracked paths, whatever fails; and, unless something fails, the same in the replica but for
    what has moved along to where nothing is shown. Of the old path nothing is left but what is
    open, and nothing is left at the new one that is not shown there, and was neither there nor
    has moved along. -/
structure Alike (m : Premises) (p q : Path) (d d₁ d₂ : Desk) : Prop where
  records : ∀ x, d₁.shared.store.record x = d₂.shared.store.record x
  tracks : ∀ x, d₁.workspace.tracks x = d₂.workspace.tracks x
  spared : ∀ x, x.startsWith p = true → x.startsWith q = false → d₁.workspace.tracks x = true →
    d₁.shared.store.isOpen x = true
  nodes : d₁.shared.failures = d.shared.failures → d₂.shared.failures = d.shared.failures → ∀ r,
    (∀ rest, r = m.names q ++ rest → m.site.node d.shared.disk (m.names p ++ rest) = none ∨ d.Shown m p q r) →
      m.site.node d₁.shared.disk r = m.site.node d₂.shared.disk r
  bare : d₁.shared.failures = d.shared.failures → d₂.shared.failures = d.shared.failures → ∀ r,
    ¬ d.Shown m p q r → m.names p <+: r → ¬ m.names q <+: r → m.site.node d₁.shared.disk r = none
  landed : d₁.shared.failures = d.shared.failures → d₂.shared.failures = d.shared.failures → ∀ rest,
    ¬ d.Shown m p q (m.names q ++ rest) → m.site.node d.shared.disk (m.names q ++ rest) = none →
      m.site.node d.shared.disk (m.names p ++ rest) = none → m.site.node d₁.shared.disk (m.names q ++ rest) = none

theorem shown_of_way {r : List String} (hr : r <+: m.names q) : d.Shown m p q r :=
  ⟨q, (d.shared.disk.mem_at_self q).imp id .inl, hr⟩

namespace Seated

variable (checks : Checkers)

theorem startsWith_at (h : d.Seated m) (hq : m.root.Encloses q) (hx : x ∈ d.shared.disk.dirsAt q ∨ x ∈ d.shared.disk.filesAt q) :
    x.startsWith q = true := by
  have hin := h.encloses_at hq hx
  obtain ⟨ks, hks, rfl⟩ := Disk.exists_names_of_at h.tidy.proper hx
  rw [← Premises.names_prefix_iff hq hin, Premises.names, Premises.names, hq.namesBelow_foldl_child hks]
  exact List.prefix_append _ _

/-- What is still tracked of the old path is open. -/
theorem opens_of_relocated (h : d.Seated m) (hq : m.root.Encloses q) (hx : x.startsWith p = true) (hout : x.startsWith q = false)
    (htracks : (d.relocated p q).tracks x = true) : (d.relocated p q).opens x = true := by
  rw [relocated, Account.tracks_takeAll, Bool.or_eq_true] at htracks
  rcases htracks with hkept | hnew
  · have hkept : (d.account.tracks x && !(x.startsWith p && !d.account.opens x)) = true := hkept
    rw [opens_relocated]
    simpa [hx] using (Bool.and_eq_true_iff.mp hkept).2
  · obtain ⟨y, hy, hsame⟩ := List.any_eq_true.mp hnew
    rw [← Path.startsWith_congr hsame, h.startsWith_at hq (.inr hy)] at hout
    cases hout

/-- **A rename leaves what a removal and a creation leave.** -/
theorem alike (htotal : checks.Total) (h : d.Seated m) (hp : m.root.Encloses p) (hq : m.root.Encloses q)
    (hclosed : d.shared.store.isOpen q = false) (hpath : d.shared.disk.hasPath q = true)
    (hdetached : m.Detached d.shared.disk q) (hmovable : d.Movable p)
    (hknown : ∀ x, x.startsWith p = true → d.shared.store.contains x = true → d.workspace.tracks x = true) :
    ∃ d₁ d' d₂, onDiskEvent checks (.renamed p q) d = .ok () d₁ ∧ onDiskEvent checks (.removed p) d = .ok () d'
      ∧ onDiskEvent checks (.created q) d' = .ok () d₂ ∧ Alike m p q d d₁ d₂ := by
  have hrenamed := h.renamed_puts checks (E := fun _ _ => False) htotal hp hq hpath hdetached hknown
  obtain ⟨d₁, hrun₁, h₁⟩ := exists_ok_of_wp (Amid.onDiskEvent checks (e := .renamed p q) htotal hclosed hrenamed)
  obtain ⟨d', d₂, hrun', hrun₂, h₂⟩ := h.recreated checks htotal hp hq hclosed hpath hdetached hmovable hknown
  refine ⟨d₁, d', d₂, hrun₁, hrun', hrun₂, ?_⟩
  have hbase : d₁.shared.failures = d.shared.failures → d₂.shared.failures = d.shared.failures → ∃ a₀ b₀,
      m.site.Shifted (m.names p) (m.names q) d.shared.disk a₀ ∧ m.site.Fills (d.Refilling m p q) a₀ d₁.shared.disk
        ∧ m.site.Fills (d.Refilling m p q) b₀ d₂.shared.disk ∧ ∀ r, ¬ d.Shown m p q r →
          (m.names p <+: r → m.site.node b₀ r = none)
            ∧ (¬ m.names p <+: r → m.site.node b₀ r = m.site.node d.shared.disk r) := by
    intro hnone₁ hnone₂
    obtain ⟨a₀, hshifted, hfills⟩ := h₁.filled hnone₁
    obtain ⟨hflaw, b₀, hfills', hvacant⟩ := h.refilled hp hq hmovable hknown h₁.tidy hfills (h₂.filled hnone₂)
    exact ⟨a₀, b₀, hshifted hflaw, hfills, hfills', hvacant⟩
  constructor
  · intro x
    rw [h₁.record, h₂.record]
  · intro x
    rw [h₁.tracks, h₂.tracks]
  · intro x hx hout htracks
    rw [h₁.tracks] at htracks
    rw [h₁.opens]
    exact h.opens_of_relocated hq hx hout htracks
  · intro hnone₁ hnone₂ r hland
    obtain ⟨a₀, b₀, hshifted, hfills, hfills', hvacant⟩ := hbase hnone₁ hnone₂
    refine hfills.node_eq hfills' h₁.tidy h₂.tidy (fun _ _ => Premises.Put.node) fun hfree => ?_
    have hfree := not_shown_iff.mpr hfree
    exact hshifted.node_eq h.tidy (hvacant r hfree).1 (hvacant r hfree).2 (fun hr => hfree (shown_of_way hr)) fun rest heq =>
      (hland rest heq).resolve_right hfree
  · intro hnone₁ hnone₂ r hfree hr hbelow
    obtain ⟨a₀, -, hshifted, hfills, -⟩ := hbase hnone₁ hnone₂
    rw [Site.node_congr (hfills.apart (not_shown_iff.mp hfree)), Site.node, ← Site.entry, hshifted.gone h.tidy hr hbelow,
      Option.bind_none]
  · intro hnone₁ hnone₂ rest hfree hold hmoved
    obtain ⟨a₀, -, hshifted, hfills, -⟩ := hbase hnone₁ hnone₂
    have hlanded := hshifted.landed h.tidy (fun hr => hfree (shown_of_way hr)) (h.tidy.node_eq_none_iff.mp hmoved)
    rw [Site.node_congr (hfills.apart (not_shown_iff.mp hfree)), Site.node_congr hlanded.1, hold]

end Seated

end Desk

namespace Solo

variable (checks : Checkers) {m : Premises} {s : Solo} {p q : Path}

/-- **Renames.**  In any state that a workspace reaches and in which no event of the editor
    waits, the rename of a path to one that is not open leaves what its removal and the creation
    of the other path leave. -/
theorem alike_of_renamed (htotal : checks.Total) (h : Reached checks m s) (halive : s.running.isAlive = true)
    (hqueue : s.running.queue = []) (hp : m.root.Encloses p) (hq : m.root.Encloses q)
    (hclosed : s.shared.store.isOpen q = false) (hpath : s.shared.disk.hasPath q = true)
    (hdetached : m.Detached s.shared.disk q) (hmovable : s.desk.Movable p) :
    Desk.Alike m p q s.desk (s.step checks (.handleDisk (.renamed p q))).desk
      ((s.step checks (.handleDisk (.removed p))).step checks (.handleDisk (.created q))).desk := by
  have hseated : s.desk.Seated m := (h.seated checks).desk
  obtain ⟨d₁, d', d₂, hrun₁, hrun', hrun₂, halike⟩ := hseated.alike checks htotal hp hq hclosed hpath hdetached hmovable
    fun x => h.known checks halive hqueue hp
  have hdesk' : (s.step checks (.handleDisk (.removed p))).desk = d' := by
    rw [desk_step_handleDisk checks halive, Desk.after_of_ok hrun']
  have halive' := isAlive_handleDisk checks halive hrun'
  rw [desk_step_handleDisk checks halive, desk_step_handleDisk checks halive', hdesk', Desk.after_of_ok hrun₁,
    Desk.after_of_ok hrun₂]
  exact halike

/-- A directory comes with two programs, an editor opens one of them, and then the directory
    gets another name. -/
def shiftingTurns : List Turn :=
  let filled := ((small.shared.disk.insert [.text "w", .text "sub"] (.directory 0o755)).insert
    [.text "w", .text "sub", .text "a.dsp"] (.file (Text.Utf8.encode "a") 0o644)).insert
    [.text "w", .text "sub", .text "b.dsp"] (.file (Text.Utf8.encode "b") 0o644)
  let early : List Turn := [.disk filled, .handleDisk (.created ⟨"/w/sub"⟩), .call (.didOpen ⟨"/w/sub/b.dsp"⟩ "new"),
    .handleNext, .handleNext]
  let disk := (small.run contentCheckers early).shared.disk
  early ++ [.disk (disk.move [.text "w", .text "sub"] [.text "w", .text "new"])]

/-- Both programs get the new path, and the one that is open stays at the old one, too. -/
theorem alike_while_shifting :
    let s := small.run contentCheckers shiftingTurns
    let d₁ := (s.step contentCheckers (.handleDisk (.renamed ⟨"/w/sub"⟩ ⟨"/w/new"⟩))).desk
    let d₂ := ((s.step contentCheckers (.handleDisk (.removed ⟨"/w/sub"⟩))).step contentCheckers
      (.handleDisk (.created ⟨"/w/new"⟩))).desk
    Desk.Alike smallPremises ⟨"/w/sub"⟩ ⟨"/w/new"⟩ s.desk d₁ d₂
      ∧ d₁.account.record ⟨"/w/new/b.dsp"⟩ = some ("b", false) ∧ d₁.account.record ⟨"/w/sub/b.dsp"⟩ = some ("new", true)
      ∧ d₁.shared.failures = s.shared.failures ∧ d₂.shared.failures = s.shared.failures := by
  have hreached : Reached contentCheckers smallPremises (small.run contentCheckers shiftingTurns) :=
    small_starts.reached contentCheckers smallPremises_spelled (by decide +kernel)
  have hclear : (small.run contentCheckers shiftingTurns).shared.disk.isClear = true := by decide +kernel
  have hpath : (⟨"/w/new"⟩ : Path) = ["w", "new"].foldl Path.child ⟨"/"⟩ := by decide +kernel
  have hdetached : smallPremises.Detached (small.run contentCheckers shiftingTurns).shared.disk ⟨"/w/new"⟩ :=
    .of_plain (Disk.proper_of_clear hclear) hpath
      (Disk.plain_of_clear hclear (by decide +kernel) (by decide +kernel)) ⟨by decide +kernel, by decide +kernel⟩
  exact ⟨alike_of_renamed contentCheckers (fun _ _ => rfl) hreached (by decide +kernel) (by decide +kernel) (by decide)
    (by decide) (by decide +kernel) (by decide +kernel) hdetached (.inl (by decide +kernel)), by decide +kernel⟩

/-! ### Where renames differ -/

/-- Some turns in the small project, and then others change the disk. -/
def changed (turns : List Turn) (change : Disk → Disk) : List Turn :=
  turns ++ [.disk (change (small.run contentCheckers turns).shared.disk)]

/-- A directory comes with one program. -/
def coming (early : List Turn) (dir : String) : List Turn :=
  changed early (fun disk => (disk.insert [.text "w", .text dir] (.directory 0o755)).insert
    [.text "w", .text dir, .text "x.dsp"] (.file [] 0o644)) ++ [.handleDisk (.created (Path.child ⟨"/w"⟩ dir))]

/-- An editor opens a path, and this is handled. -/
def opening (p : Path) : List Turn := [.call (.didOpen p "new"), .handleNext, .handleNext]

/-- What a rename leaves after some turns in the small project, and what a removal and a creation
    leave. -/
def bothWays (checks : Checkers) (turns : List Turn) (p q : Path) : Desk × Desk :=
  let s := small.run contentCheckers turns
  ((s.step checks (.handleDisk (.renamed p q))).desk,
    ((s.step checks (.handleDisk (.removed p))).step checks (.handleDisk (.created q))).desk)

/-- **A rename may leave what no removal and creation leave.**  Events for a path that is open are
    ignored, and with the rename also the end of the old path; a copy moves along with all that it
    holds, whether the disk still has it or not, and what links show of it is taken up; a removal
    of what is open is ignored, whatever lies below it, or is in the place of its copy; when a
    checker breaks down, open documents are without their copies; and a copy that cannot move is
    left where it was. -/
theorem renamed_unlike_recreated :
    let node (d : Desk) (names : List String) : Option Node := smallPremises.site.node d.shared.disk names
    let move (old new : String) (d : Disk) : Disk := d.move [.text "w", .text old] [.text "w", .text new]
    let shifted := bothWays contentCheckers
    let targeted := changed (opening ⟨"/w/b.dsp"⟩) (move "a.dsp" "b.dsp")
    let outdated := changed (coming [] "sub") fun d => (move "sub" "new" d).erase [.text "w", .text "new", .text "x.dsp"]
    let linked := changed (coming [] "sub") fun d => (move "sub" "new" d).insert
      [.text "w", .text "new", .text "l.dsp"] (.link ⟨"/r/w/new/x.dsp"⟩)
    let covered := changed (coming [] "sub" ++ opening ⟨"/w/sub"⟩) (move "sub" "new")
    let missed := changed (changed [] (·.insert [.text "w", .text "sub"] (.directory 0o755))
      ++ [.handleDisk (.created ⟨"/w/sub"⟩)] ++ opening ⟨"/w/sub"⟩) (move "sub" "new")
    let broken := changed (coming [] "sub" ++ opening ⟨"/w/sub/x.dsp"⟩) (move "sub" "new")
    let blocked := changed (coming (coming [] "sub") "new") fun d => move "sub" "new" (d.eraseBelow [.text "w", .text "new"])
    ((shifted targeted ⟨"/w/a.dsp"⟩ ⟨"/w/b.dsp"⟩).1.workspace.tracks ⟨"/w/a.dsp"⟩ = true
        ∧ (shifted targeted ⟨"/w/a.dsp"⟩ ⟨"/w/b.dsp"⟩).2.workspace.tracks ⟨"/w/a.dsp"⟩ = false)
      ∧ (node (shifted outdated ⟨"/w/sub"⟩ ⟨"/w/new"⟩).1 ["new", "x.dsp"] = some (.file [])
        ∧ node (shifted outdated ⟨"/w/sub"⟩ ⟨"/w/new"⟩).2 ["new", "x.dsp"] = none)
      ∧ ((shifted linked ⟨"/w/sub"⟩ ⟨"/w/new"⟩).1.workspace.tracks ⟨"/w/new/l.dsp"⟩ = true
        ∧ (shifted linked ⟨"/w/sub"⟩ ⟨"/w/new"⟩).2.workspace.tracks ⟨"/w/new/l.dsp"⟩ = false)
      ∧ ((shifted covered ⟨"/w/sub"⟩ ⟨"/w/new"⟩).1.workspace.tracks ⟨"/w/sub/x.dsp"⟩ = false
        ∧ (shifted covered ⟨"/w/sub"⟩ ⟨"/w/new"⟩).2.workspace.tracks ⟨"/w/sub/x.dsp"⟩ = true)
      ∧ (node (shifted missed ⟨"/w/sub"⟩ ⟨"/w/new"⟩).1 ["sub"] = some (.file (Text.Utf8.encode "new"))
        ∧ node (shifted missed ⟨"/w/sub"⟩ ⟨"/w/new"⟩).2 ["sub"] = some .directory)
      ∧ (node (bothWays ⟨fun _ _ => none, fun _ _ => []⟩ broken ⟨"/w/sub"⟩ ⟨"/w/new"⟩).1 ["sub", "x.dsp"] = none
        ∧ node (bothWays ⟨fun _ _ => none, fun _ _ => []⟩ broken ⟨"/w/sub"⟩ ⟨"/w/new"⟩).2 ["sub", "x.dsp"]
          = some (.file (Text.Utf8.encode "new")))
      ∧ (node (shifted blocked ⟨"/w/sub"⟩ ⟨"/w/new"⟩).1 ["sub", "x.dsp"] = some (.file [])
        ∧ node (shifted blocked ⟨"/w/sub"⟩ ⟨"/w/new"⟩).2 ["sub", "x.dsp"] = none)
      ∧ ∀ turns ∈ [targeted, outdated, covered, missed, broken, blocked],
        small.Along contentCheckers (fun s turn _ => Clear smallPremises ["r"] s turn) turns
          ∧ (small.run contentCheckers turns).running.queue = [] := by
  decide +kernel

end Solo

end LiveWorkspace
