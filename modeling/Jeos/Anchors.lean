import Mathlib.Data.List.Induction
import Jeos.Puts

/-!
# Mount anchors

The roots and mountpoints of the mounts are anchors, and every walk starts at one. A dentry of a walk is
put when the walk goes on, unless it is `g_root_dent` or the root of the current mount; but `..` leads
to dentries that are neither of the two and that the walk holds no reference to : out of a mount to its
mountpoint, and inside a mount to a directory that was put on the way down. As long as no such dentry is
put or made a mountpoint (`UpsKept`), every anchor keeps its reference and no put meets a counter that is
0 (`anchors_pinned`). `vfs_stat("/dev/..")` takes the reference of the mountpoint of `/dev`
(`dev_unpinned`).
-/

namespace Jeos

namespace Vfs

set_option linter.unusedSectionVars false

variable {κ ι : Type}

/-- The root or the mountpoint of a mount. -/
def Anchor (s : State κ ι) (a : ℕ) : Prop := ∃ m ∈ s.mounts, m.root = a ∨ m.mountpoint = some a

/-- The dentry has a reference. -/
def Referenced (s : State κ ι) (a : ℕ) : Prop := ∃ d, dentryAt s a = some d ∧ d.refcnt ≠ 0

/-- Every anchor has a reference. -/
def Pinned (s : State κ ι) : Prop := ∀ a, Anchor s a → Referenced s a

/-- The last component besides `.` is `..`. -/
def Up (names : List (List U8)) : Prop := (names.filter (· ≠ dot)).getLast? = some dotdot

/-- When a walk goes on from where `..` led to, there is nothing to put : it goes on from `g_root_dent`
or the root of the mount, or into a mount. -/
def StepsKept (env : Env κ ι) (s : State κ ι) (names : List (List U8)) : Prop :=
  ∀ pre c post x t m cur child u, names = pre ++ c :: post → Up pre → ¬IsDots c →
    (start >>= fun y => walk env y pre) s = some (.ok x, t) →
    lookupChild env x.1 x.2 c t = some (.ok (m, cur, child), u) → AtTop u (m, cur)

/-- And there is nothing to put at the end of a path that `..` ends, where the dentry is `used`. -/
def EndKept (env : Env κ ι) (used : Inode ι → Bool) (s : State κ ι) (path : List U8) : Prop :=
  Up (components path) → ∀ x t i, vfsLookup env path s = some (.ok x, t) → inodeAt t x.2 = some i →
    used i = true → AtTop t x

/-- The call puts no dentry that `..` led to, and mounts on none but an anchor. -/
def UpsKept (env : CallEnv κ ι) (s : State κ ι) : Call → Prop
  | .mount type device target =>
    type ∈ s.fsTypes → ¬(target.takeWhile (· != 0) = [slash] ∧ s.rootMnt = none) →
      StepsKept env.toEnv s (components target) ∧ (Up (components target) → ∀ d t u,
        mountTarget env.toEnv target s = some (.ok (some d), t) →
          vfsMount env.toEnv type device target s = some (.ok (), u) → Anchor t d)
  | .umount _ target => StepsKept env.toEnv s (components target)
  | .lookup path => StepsKept env.toEnv s (components path)
  | .path (.stat path) => StepsKept env.toEnv s (components path) ∧
      EndKept env.toEnv (fun i => (env.getattr i).isSome) s path
  | .path (.mkdir path _) => StepsKept env.toEnv s (components path).dropLast
  | .path (.unlink path) => StepsKept env.toEnv s (components path).dropLast
  | .path (.openClose path flags _) =>
    if flags &&& oCreat ≠ 0 then StepsKept env.toEnv s (components path).dropLast
    else StepsKept env.toEnv s (components path) ∧ EndKept env.toEnv (fun _ => true) s path

variable {env : CallEnv κ ι} {s t u : State κ ι} {mnt m : Mount} {a d dir cur : ℕ}
  {name path : List U8} {names : List (List U8)} {x y : Mount × ℕ}

/-! ## Anchors and held dentries -/

/-- A dentry with a reference that is no anchor : one that a walk may put. -/
def Held (s : State κ ι) (a : ℕ) : Prop := Referenced s a ∧ ¬Anchor s a

theorem anchor_congr (h : t.mounts = s.mounts) : Anchor t a ↔ Anchor s a := by
  rw [Anchor, Anchor, h]

theorem Grow.referenced (h : Grow s t) (ha : Referenced s a) : Referenced t a := by
  obtain ⟨e, he, hr⟩ := ha
  exact ⟨e, h.dentryAt he, hr⟩

theorem Grow.pinned (h : Grow s t) (hs : Pinned s) : Pinned t := fun a ha =>
  h.referenced (hs a ((anchor_congr h.mounts).1 ha))

theorem Grow.held (h : Grow s t) (ha : Held s a) : Held t a :=
  ⟨h.referenced ha.1, fun hanchor => ha.2 ((anchor_congr h.mounts).1 hanchor)⟩

/-- A change in one page that holds no anchor. -/
theorem Pinned.update (hs : Pinned s) (ha : ¬Anchor s a) (g : Option (Page ι)) :
    Pinned { s with heap := Function.update s.heap a g } := by
  intro b hb
  have hne : b ≠ a := fun he => ha (he ▸ hb)
  obtain ⟨e, he, hr⟩ := hs b hb
  refine ⟨e, ?_, hr⟩
  unfold dentryAt
  dsimp only
  rw [Function.update_of_ne hne]
  exact he

theorem Pinned.not_anchor_of_free (hs : Pinned s) (ha : s.heap a = none) : ¬Anchor s a := by
  intro hanchor
  obtain ⟨e, he, -⟩ := hs a hanchor
  rw [dentryAt_eq_none ha] at he
  cases he

theorem dentryPut_pinned (hs : Pinned s) (ha : ¬Anchor s a) {r : Except ℤ Unit}
    (h : dentryPut a s = some (r, t)) : Pinned t := by
  rcases Fallible.bind_eq_some.1 h with ⟨e, hd, -⟩ | ⟨e, s₁, hd, hput⟩
  · exact absurd hd getDentry_ne_error
  obtain ⟨-, rfl⟩ := getDentry_eq_ok.1 hd
  split_ifs at hput
  · obtain ⟨-, rfl⟩ := Prod.mk.inj (Option.some.inj hput)
    exact hs.update ha none
  · obtain ⟨-, rfl⟩ := Prod.mk.inj (Option.some.inj hput)
    exact hs.update ha _

theorem strictPut_eq (ha : Referenced s a) : strictPut a s = dentryPut a s := by
  obtain ⟨e, he, hr⟩ := ha
  rw [strictPut, Fallible.bind_ok (getDentry_of he), if_neg hr]

/-! ## Computations with checked puts -/

/-- With checked puts the computation has the same result, and it leaves the anchors pinned. -/
structure Pins {α : Type} (x' x : VfsM κ ι α) (s : State κ ι) : Prop where
  same : x' s = x s
  pinned : ∀ r t, x s = some (r, t) → Pinned t

theorem Pins.bind {α β : Type} {x' x : VfsM κ ι α} {f' f : α → VfsM κ ι β} (hx : Pins x' x s)
    (hf : ∀ y t, x s = some (.ok y, t) → Pinned t → Pins (f' y) (f y) t) :
    Pins (x' >>= f') (x >>= f) s := by
  refine ⟨Fallible.bind_congr hx.same fun y t h => (hf y t h (hx.pinned _ t h)).same, ?_⟩
  intro r u h
  rcases Fallible.bind_eq_some.1 h with ⟨e, he, -⟩ | ⟨y, t, hy, hr⟩
  · exact hx.pinned _ u he
  · exact (hf y t hy (hx.pinned _ t hy)).pinned r u hr

/-- A computation without puts. -/
theorem Pins.of_grow {α : Type} {x : VfsM κ ι α} (hx : Fallible.Keeps Grow x) (hs : Pinned s) :
    Pins x x s :=
  ⟨rfl, fun r t h => (hx s r t h).pinned hs⟩

theorem Pins.pure {α : Type} (hs : Pinned s) (y : α) : Pins (pure y : VfsM κ ι α) (pure y) s :=
  .of_grow (Fallible.Keeps.pure Grow.refl y) hs

theorem Pins.throw {α : Type} (hs : Pinned s) (e : ℤ) : Pins (throw e : VfsM κ ι α) (throw e) s :=
  .of_grow (Fallible.Keeps.throw Grow.refl e) hs

theorem grow_of_readOnly {α : Type} {x : VfsM κ ι α} (h : Fallible.Keeps (@Eq (State κ ι)) x) :
    Fallible.Keeps Grow x :=
  h.mono fun s t (he : s = t) => he ▸ Grow.refl s

theorem pins_put (hs : Pinned s) (ha : Held s a) : Pins (strictPut a) (dentryPut a) s :=
  ⟨strictPut_eq ha.1, fun _ _ h => dentryPut_pinned hs ha.2 h⟩

/-- `vfs_dentry_put` behind its guard. -/
theorem pins_release (hs : Pinned s) (hx : AtTop s (mnt, cur) ∨ Held s cur) :
    Pins (releaseWith strictPut mnt cur) (release mnt cur) s := by
  by_cases hput : s.rootDent ≠ some cur ∧ mnt.root ≠ cur
  · have hheld : Held s cur := by
      rcases hx with hx | hx
      · rcases hx with hx | hx
        · exact absurd hx.symm hput.2
        · exact absurd hx hput.1
      · exact hx
    have hpins := pins_put hs hheld
    refine ⟨?_, fun r t h => ?_⟩
    · rw [releaseWith, release, if_pos hput, if_pos hput, hpins.same]
    · rw [release, if_pos hput] at h
      exact hpins.pinned r t h
  · refine ⟨?_, fun r t h => ?_⟩
    · rw [releaseWith, release, if_neg hput, if_neg hput]
    · rw [release, if_neg hput] at h
      obtain ⟨-, rfl⟩ := Prod.mk.inj (Option.some.inj h)
      exact hs

/-- The puts of `vfs_lookup_child` are of a dentry that is new. -/
theorem lookupChildWith_eq (s : State κ ι) :
    lookupChildWith env strictPut mnt dir name s = lookupChild env.toEnv mnt dir name s := by
  refine Fallible.bind_congr rfl fun e s₁ _ => ?_
  rcases e.inode with _ | i
  · rfl
  dsimp only
  split_ifs
  · rfl
  · rfl
  refine Fallible.bind_congr rfl fun p s₂ htmp => ?_
  rcases p with _ | child
  · rfl
  obtain ⟨-, rfl⟩ := tmpDentry_some htmp
  refine Fallible.bind_congr rfl fun z s₃ hl => ?_
  obtain ⟨-, fs, rfl⟩ := fsLookup_ok hl
  refine Fallible.bind_congr rfl fun e' s₄ hd => ?_
  obtain ⟨hchild, rfl⟩ := getDentry_eq_ok.1 hd
  rw [withFs_put, dentryAt_put_self] at hchild
  obtain rfl := Option.some.inj hchild
  refine Fallible.bind_congr rfl fun _ s₅ hset => ?_
  rw [setDentry_eq_ok] at hset
  subst hset
  have href : ∀ (v : State κ ι) (ino : Option (Inode ι)),
      Referenced (v.put child ⟨1, name, ino, some dir, false⟩) child := fun v ino =>
    ⟨_, dentryAt_put_self, by simp⟩
  split_ifs
  · exact Fallible.bind_congr (strictPut_eq (href _ _)) fun _ _ _ => rfl
  rcases z.2 with _ | ino
  · exact Fallible.bind_congr (strictPut_eq (href _ _)) fun _ _ _ => rfl
  refine Fallible.bind_congr rfl fun y s₆ hfind => ?_
  rcases y with _ | sub
  · rfl
  obtain ⟨rfl, -⟩ := findByInode_some hfind
  exact Fallible.bind_congr (strictPut_eq (href _ _)) fun _ _ _ => rfl

theorem pins_lookupChild (hs : Pinned s) :
    Pins (lookupChildWith env strictPut mnt dir name) (lookupChild env.toEnv mnt dir name) s :=
  ⟨lookupChildWith_eq s, fun r t h => (lookupChild_grow s r t h).pinned hs⟩

/-! ## Walks -/

/-- A dentry that a walk may put or is not asked to. -/
def Kept (s : State κ ι) (x : Mount × ℕ) : Prop := AtTop s x ∨ Held s x.2

theorem Grow.kept (h : Grow s t) (hx : Kept s x) : Kept t x := by
  rcases hx with (hx | hx) | hx
  · exact Or.inl (Or.inl hx)
  · exact Or.inl (Or.inr (h.rootDent.trans hx))
  · exact Or.inr (h.held hx)

/-- The directory is kept after the lookup in it, and so is the child. -/
theorem lookupChild_kept {child : ℕ} (hs : Pinned s)
    (h : lookupChild env.toEnv mnt dir name s = some (.ok (m, cur, child), t)) :
    (Kept s (mnt, dir) → Kept t (m, cur)) ∧
      ∀ r u, Kept t (m, cur) → release m cur t = some (r, u) → Kept u (m, child) := by
  have hgrow := lookupChild_grow s _ t h
  obtain ⟨e, i, a, ino, fs, he, -, hpage, -, hcase⟩ := lookupChild_ok h
  rcases hcase with ⟨rfl, rfl, rfl, rfl, -⟩ | ⟨rfl, rfl, rfl, -⟩
  · refine ⟨hgrow.kept, fun r u hcur hrel => ?_⟩
    have hfree := env.kalloc_fresh s child hpage
    have hne : child ≠ cur := (ne_of_free he hfree).symm
    have hchild : dentryAt (s.withChild fs child cur name 1 ino) child =
        some ⟨1, name, some ino, some cur, false⟩ := dentryAt_put_self
    have hanchor : ¬Anchor u child := by
      have hmounts := (release_evolves _ r u hrel).mounts
      exact fun ha => hs.not_anchor_of_free hfree ((anchor_congr (hmounts.trans hgrow.mounts)).1 ha)
    refine Or.inr ⟨⟨⟨1, name, some ino, some cur, false⟩, ?_, by simp⟩, hanchor⟩
    unfold release at hrel
    split_ifs at hrel
    · rw [dentryPut_of (hgrow.dentryAt he)] at hrel
      obtain ⟨-, rfl⟩ := Prod.mk.inj (Option.some.inj hrel)
      split_ifs
      · rw [dentryAt_free_of_ne hne, hchild]
      · rw [dentryAt_put_of_ne hne, hchild]
    · obtain ⟨-, rfl⟩ := Prod.mk.inj (Option.some.inj hrel)
      exact hchild
  · exact ⟨fun _ => Or.inl (Or.inl rfl), fun _ _ _ _ => Or.inl (Or.inl rfl)⟩

/-- A step down. -/
theorem pins_walkStep (hs : Pinned s) (hname : ¬IsDots name)
    (hkept : ∀ m cur child t, lookupChild env.toEnv x.1 x.2 name s = some (.ok (m, cur, child), t) →
      Kept t (m, cur)) :
    Pins (walkStepWith env strictPut x name) (walkStep env.toEnv x name) s ∧
      ∀ y t, walkStep env.toEnv x name s = some (.ok y, t) → Kept t y := by
  obtain ⟨mnt, dir⟩ := x
  have hdot : name ≠ dot := fun he => hname (Or.inl he)
  have hdotdot : name ≠ dotdot := fun he => hname (Or.inr he)
  rw [walkStepWith, walkStep, if_neg hdot, if_neg hdot, if_neg hdotdot, if_neg hdotdot]
  constructor
  · refine (pins_lookupChild hs).bind fun z t hz ht => ?_
    obtain ⟨m, cur, child⟩ := z
    exact (pins_release ht (hkept m cur child t hz)).bind fun _ u _ hu => .pure hu _
  · intro y t h
    obtain ⟨⟨m, cur, child⟩, s₁, hz, h₁⟩ := Fallible.bind_eq_ok.1 h
    obtain ⟨_, s₂, hrel, h₂⟩ := Fallible.bind_eq_ok.1 h₁
    obtain ⟨hr, rfl⟩ := Prod.mk.inj (Option.some.inj h₂)
    obtain rfl := Except.ok.inj hr
    exact (lookupChild_kept hs hz).2 _ s₂ (hkept m cur child s₁ hz) hrel

theorem up_append_dot : Up (names ++ [dot]) ↔ Up names := by
  rw [Up, Up, List.filter_append]
  simp

theorem up_append_dotdot : Up (names ++ [dotdot]) := by
  rw [Up, List.filter_append]
  exact List.getLast?_concat

theorem not_up_append (hname : ¬IsDots name) : ¬Up (names ++ [name]) := by
  have hdot : name ≠ dot := fun he => hname (Or.inl he)
  rw [Up, List.filter_append, List.filter_cons_of_pos (by simpa using hdot), List.filter_nil,
    List.getLast?_concat]
  exact fun he => hname (Or.inr (Option.some.inj he))

theorem StepsKept.of_append {names' : List (List U8)} {env : Env κ ι}
    (h : StepsKept env s (names ++ names')) : StepsKept env s names :=
  fun pre c post x t m cur child u he hup hc hw hl =>
    h pre c (post ++ names') x t m cur child u (by rw [he, List.append_assoc, List.cons_append]) hup
      hc hw hl

/-- A walk from the start, and where it has led to. -/
theorem pins_startWalk (hr : Rooted s) (hs : Pinned s) (h : StepsKept env.toEnv s names) :
    Pins (startWalkWith env strictPut names) (start >>= fun y => walk env.toEnv y names) s ∧
      ∀ y t, (start >>= fun y => walk env.toEnv y names : VfsM κ ι _) s = some (.ok y, t) →
        ¬Up names → Kept t y := by
  induction names using List.reverseRecOn with
  | nil =>
    constructor
    · exact (Pins.of_grow (grow_of_readOnly start_readOnly) hs).bind fun y t _ ht => .pure ht y
    · intro y t hy _
      obtain ⟨y', t', hstart, hpure⟩ := Fallible.bind_eq_ok.1 hy
      obtain ⟨rfl, -, htop⟩ := start_top hr hstart
      obtain ⟨hy', rfl⟩ := Prod.mk.inj (Option.some.inj hpure)
      obtain rfl := Except.ok.inj hy'
      exact Or.inl htop
  | append_singleton names name ih =>
    obtain ⟨hpins, hkept⟩ := ih h.of_append
    have hsplit : (start >>= fun y => walk env.toEnv y (names ++ [name]) : VfsM κ ι _) =
        (start >>= fun y => walk env.toEnv y names) >>= fun z => walkStep env.toEnv z name := by
      simp only [bind_assoc, walk_append, walk_cons, walk_nil, bind_pure]
    have hsplit' : startWalkWith env strictPut (names ++ [name]) =
        startWalkWith env strictPut names >>= fun z => walkStepWith env strictPut z name := by
      simp only [startWalkWith, walkWith, bind_assoc, List.foldlM_append, List.foldlM_cons,
        List.foldlM_nil, bind_pure]
    rw [hsplit, hsplit']
    by_cases hname : IsDots name
    · have hne : dotdot ≠ dot := by decide
      have hsame : ∀ z, walkStepWith env strictPut z name = walkStep env.toEnv z name := by
        rintro ⟨m, d⟩
        rw [walkStepWith, walkStep]
        rcases hname with rfl | rfl
        · rw [if_pos rfl, if_pos rfl]
        · rw [if_neg hne, if_pos rfl, if_neg hne, if_pos rfl]
      have hread : ∀ z, Fallible.Keeps (@Eq (State κ ι)) (walkStep env.toEnv z name) := by
        rintro ⟨m, d⟩
        rw [walkStep]
        rcases hname with rfl | rfl
        · rw [if_pos rfl]
          exact Fallible.Keeps.pure (fun _ => rfl) _
        · rw [if_neg hne, if_pos rfl]
          exact climb_readOnly.bind (fun _ _ _ => Eq.trans) fun _ =>
            Fallible.Keeps.pure (fun _ => rfl) _
      constructor
      · refine hpins.bind fun z t _ ht => ?_
        rw [hsame z]
        exact .of_grow (grow_of_readOnly (hread z)) ht
      · intro y t hy hup
        obtain ⟨z, t', hz, hstep⟩ := Fallible.bind_eq_ok.1 hy
        rcases hname with rfl | rfl
        · obtain ⟨m, d⟩ := z
          rw [walkStep, if_pos rfl] at hstep
          obtain ⟨hr', rfl⟩ := Prod.mk.inj (Option.some.inj hstep)
          obtain rfl := Except.ok.inj hr'
          exact hkept _ t' hz fun hup' => hup (up_append_dot.2 hup')
        · exact absurd up_append_dotdot hup
    · have hdown : ∀ z t, (start >>= fun y => walk env.toEnv y names : VfsM κ ι _) s = some (.ok z, t) →
          Pinned t → ∀ m cur child u, lookupChild env.toEnv z.1 z.2 name t =
            some (.ok (m, cur, child), u) → Kept u (m, cur) := by
        intro z t hz ht m cur child u hl
        by_cases hup : Up names
        · exact Or.inl (h names name [] z t m cur child u rfl hup hname hz hl)
        · exact (lookupChild_kept ht hl).1 (hkept z t hz hup)
      constructor
      · exact hpins.bind fun z t hz ht => (pins_walkStep ht hname (hdown z t hz ht)).1
      · intro y t hy _
        obtain ⟨z, t', hz, hstep⟩ := Fallible.bind_eq_ok.1 hy
        have ht' := hpins.pinned _ t' hz
        exact (pins_walkStep ht' hname (hdown z t' hz ht')).2 y t hstep

theorem pins_vfsLookup (hr : Rooted s) (hs : Pinned s)
    (h : StepsKept env.toEnv s (components path)) :
    Pins (vfsLookupWith env strictPut path) (vfsLookup env.toEnv path) s ∧
      ∀ y t, vfsLookup env.toEnv path s = some (.ok y, t) → ¬Up (components path) → Kept t y := by
  rw [vfsLookup_eq]
  exact pins_startWalk hr hs h

/-! ## Calls that take a path -/

theorem OnlyFs.keepsGrow {α : Type} {x : VfsM κ ι α} (h : Fallible.Keeps OnlyFs x) :
    Fallible.Keeps Grow x :=
  h.mono fun _ _ => OnlyFs.grow

theorem setInode_held {ino : Option (Inode ι)} {r : Except ℤ Unit} (hs : Pinned s) (ha : Held s a)
    (h : setInode a ino s = some (r, t)) : Pinned t ∧ Held t a := by
  rcases Fallible.bind_eq_some.1 h with ⟨e, hd, -⟩ | ⟨e, s₁, hd, hset⟩
  · exact absurd hd getDentry_ne_error
  obtain ⟨hd, rfl⟩ := getDentry_eq_ok.1 hd
  obtain ⟨-, rfl⟩ := Prod.mk.inj (Option.some.inj hset)
  obtain ⟨e', he', hr⟩ := ha.1
  obtain rfl := Option.some.inj (hd.symm.trans he')
  exact ⟨hs.update ha.2 _, ⟨⟨_, dentryAt_put_self, hr⟩, ha.2⟩⟩

theorem pins_setInode {ino : Option (Inode ι)} (hs : Pinned s) (ha : Held s a) :
    Pins (setInode a ino) (setInode a ino) s :=
  ⟨rfl, fun _ _ h => (setInode_held hs ha h).1⟩

theorem leafDentry_eq {α : Type} {op : Inode ι → Option α} :
    leafDentry env op path = (start >>= fun y => walk env.toEnv y (components path).dropLast) >>=
      fun y => newLeaf env op y.2 ((components path).getLast?.getD []) := by
  rw [leafDentry, vfsLookupParent_eq]
  simp only [bind_assoc, pure_bind]

/-- The dentry of a leaf is new. -/
theorem pins_leafDentry {α : Type} {op : Inode ι → Option α} (hr : Rooted s) (hs : Pinned s)
    (h : StepsKept env.toEnv s (components path).dropLast) :
    Pins (leafDentryWith env strictPut op path) (leafDentry env op path) s ∧
      ∀ y t, leafDentry env op path s = some (.ok y, t) → Held t y.2.2.2 := by
  obtain ⟨hpins, -⟩ := pins_startWalk hr hs h
  rw [leafDentry_eq]
  constructor
  · exact hpins.bind fun y t _ ht => .of_grow newLeaf_grow ht
  · intro y t hy
    obtain ⟨z, t', hz, hleaf⟩ := Fallible.bind_eq_ok.1 hy
    obtain ⟨hfree, fs, rfl⟩ := newLeaf_ok hleaf
    exact ⟨⟨_, dentryAt_put_self, by simp⟩, (hpins.pinned _ t' hz).not_anchor_of_free hfree⟩

/-- The dentry of a leaf gets an inode, and then the call goes on with it. -/
theorem pins_fill {α β : Type} {f : κ → α × κ} {g : α → Option (Inode ι)} {k' k : α → VfsM κ ι β}
    (hs : Pinned s) (ha : Held s a)
    (hk : ∀ z t, Pinned t → Held t a → Pins (k' z) (k z) t) :
    Pins (do let z ← fsCall f; setInode a (g z); k' z) (do let z ← fsCall f; setInode a (g z); k z)
      s := by
  have hgrow := OnlyFs.keepsGrow (fsCall_onlyFs (ι := ι) (f := f))
  refine (Pins.of_grow hgrow hs).bind fun z t hz ht => ?_
  have hat := (hgrow s _ t hz).held ha
  refine (pins_setInode ht hat).bind fun _ u hu _ => ?_
  obtain ⟨hpinned, hheld⟩ := setInode_held ht hat hu
  exact hk z u hpinned hheld

/-- `vfs_dentry_put` of a leaf. -/
theorem pins_put_bind {β : Type} {k : VfsM κ ι β} (hs : Pinned s) (ha : Held s a)
    (hk : ∀ t, Pinned t → Pins k k t) :
    Pins (strictPut a >>= fun _ => k) (dentryPut a >>= fun _ => k) s :=
  (pins_put hs ha).bind fun _ t _ ht => hk t ht

theorem pins_vfsMkdir {mode : U32} (hr : Rooted s) (hs : Pinned s)
    (h : StepsKept env.toEnv s (components path).dropLast) :
    Pins (vfsMkdirWith env strictPut path mode) (vfsMkdir env path mode) s := by
  obtain ⟨hpins, hheld⟩ := pins_leafDentry hr hs h
  refine hpins.bind fun ⟨i, mkdir, leaf, child⟩ t hy ht => ?_
  exact pins_fill ht (hheld _ t hy) fun z u hu hat => pins_put_bind hu hat fun v hv => .pure hv _

theorem pins_lookupLeaf {i : Inode ι} (hs : Pinned s) (ha : Held s a) :
    Pins (lookupLeafWith env strictPut i name a) (lookupLeaf env i name a) s ∧
      ∀ y t, lookupLeaf env i name a s = some (.ok y, t) → Held t a := by
  unfold lookupLeafWith lookupLeaf
  split_ifs
  swap
  · refine ⟨.pure hs _, fun y t h => ?_⟩
    obtain ⟨-, rfl⟩ := Prod.mk.inj (Option.some.inj h)
    exact ha
  have hgrow : Fallible.Keeps Grow (fsLookup env.toEnv i name) := OnlyFs.keepsGrow fsLookup_onlyFs
  constructor
  · refine (Pins.of_grow hgrow hs).bind fun z t hz ht => ?_
    have hat := (hgrow s _ t hz).held ha
    refine (pins_setInode ht hat).bind fun _ u hu _ => ?_
    obtain ⟨hpinned, hheld⟩ := setInode_held ht hat hu
    split_ifs
    · exact pins_put_bind hpinned hheld fun v hv => .throw hv _
    · exact .pure hpinned _
  · intro y t h
    obtain ⟨z, s₁, hz, h₁⟩ := Fallible.bind_eq_ok.1 h
    obtain ⟨_, s₂, hset, h₂⟩ := Fallible.bind_eq_ok.1 h₁
    have hheld := (setInode_held ((hgrow s _ s₁ hz).pinned hs) ((hgrow s _ s₁ hz).held ha) hset).2
    split_ifs at h₂
    · obtain ⟨_, s₃, -, h₃⟩ := Fallible.bind_eq_ok.1 h₂
      cases h₃
    · obtain ⟨-, rfl⟩ := Prod.mk.inj (Option.some.inj h₂)
      exact hheld

theorem pins_vfsUnlink (hr : Rooted s) (hs : Pinned s)
    (h : StepsKept env.toEnv s (components path).dropLast) :
    Pins (vfsUnlinkWith env strictPut path) (vfsUnlink env path) s := by
  obtain ⟨hpins, hheld⟩ := pins_leafDentry hr hs h
  refine hpins.bind fun ⟨i, unlink, leaf, child⟩ t hy ht => ?_
  obtain ⟨hlook, hheld'⟩ : Pins (lookupLeafWith env strictPut i leaf child)
      (lookupLeaf env i leaf child) t ∧ _ := pins_lookupLeaf ht (hheld _ t hy)
  refine hlook.bind fun _ u hu hpu => ?_
  refine (Pins.of_grow (grow_of_readOnly getDentry_readOnly) hpu).bind fun e v hv hpv => ?_
  have hgrow := OnlyFs.keepsGrow (fsCall_onlyFs (ι := ι) (f := unlink leaf e.inode))
  refine (Pins.of_grow hgrow hpv).bind fun rc w hw hpw => ?_
  have hread := grow_of_readOnly (ι := ι) (getDentry_readOnly (a := child)) u _ v hv
  exact pins_put_bind hpw ((hgrow v _ w hw).held (hread.held (hheld' _ u hu))) fun _ h => .pure h _

/-- What a path led to is kept, where the caller puts it. -/
theorem EndKept.kept {used : Inode ι → Bool} {i : Inode ι} (h : EndKept env.toEnv used s path)
    (hl : vfsLookup env.toEnv path s = some (.ok x, t)) (hi : inodeAt t x.2 = some i)
    (hused : used i = true) (hkept : ¬Up (components path) → Kept t x) : Kept t x := by
  by_cases hup : Up (components path)
  · exact Or.inl (h hup x t i hl hi hused)
  · exact hkept hup

theorem pins_vfsStat (hr : Rooted s) (hs : Pinned s) (h : StepsKept env.toEnv s (components path))
    (hend : EndKept env.toEnv (fun i => (env.getattr i).isSome) s path) :
    Pins (vfsStatWith env strictPut path) (vfsStat env path) s := by
  obtain ⟨hpins, hkept⟩ := pins_vfsLookup hr hs h
  refine hpins.bind fun ⟨mnt, d⟩ t hl ht => ?_
  refine (Pins.of_grow (grow_of_readOnly getDentry_readOnly) ht).bind fun e u hd hu => ?_
  obtain ⟨he, rfl⟩ := getDentry_eq_ok.1 hd
  rcases hi : e.inode with _ | i
  · exact .throw hu _
  dsimp only
  rcases hop : env.getattr i with _ | getattr
  · exact .throw hu _
  have hgrow := OnlyFs.keepsGrow (fsCall_onlyFs (ι := ι) (f := getattr))
  refine (Pins.of_grow hgrow hu).bind fun r v hv hpv => ?_
  have hat := hend.kept hl (inodeAt_eq_some.2 ⟨e, he, hi⟩) (by rw [hop]; rfl) (hkept _ _ hl)
  exact (pins_release hpv ((hgrow _ _ v hv).kept hat)).bind fun _ w _ hw => .pure hw _

theorem pins_openInode {flags mode : U32} (hr : Rooted s) (hs : Pinned s)
    (h : UpsKept env s (.path (.openClose path flags mode))) :
    Pins (openInodeWith env strictPut path flags mode) (openInode env path flags mode) s := by
  unfold openInodeWith openInode
  simp only [UpsKept] at h
  split_ifs at h ⊢
  · obtain ⟨hpins, hheld⟩ : Pins (leafDentryWith env strictPut env.create path)
        (leafDentry env env.create path) s ∧ _ := pins_leafDentry hr hs h
    refine hpins.bind fun ⟨i, create, leaf, child⟩ t hy ht => ?_
    refine pins_fill ht (hheld _ t hy) fun z u hu hat => ?_
    split_ifs
    · exact pins_put_bind hu hat fun v hv => .throw hv _
    rcases z.2 with _ | i
    · exact pins_put_bind hu hat fun v hv => .throw hv _
    · exact pins_put_bind hu hat fun v hv => .pure hv _
  · obtain ⟨hpins, hkept⟩ := pins_vfsLookup hr hs h.1
    refine hpins.bind fun ⟨mnt, d⟩ t hl ht => ?_
    refine (Pins.of_grow (grow_of_readOnly getDentry_readOnly) ht).bind fun e u hd hu => ?_
    obtain ⟨he, rfl⟩ := getDentry_eq_ok.1 hd
    rcases hi : e.inode with _ | i
    · exact .throw hu _
    · have hat := h.2.kept hl (inodeAt_eq_some.2 ⟨e, he, hi⟩) rfl (hkept _ _ hl)
      exact (pins_release hu hat).bind fun _ w _ hw => .pure hw _

/-- A computation and the state behind it. -/
theorem Pins.map {α : Type} {x' x : VfsM κ ι α} (h : Pins x' x s) :
    (x' s).map Prod.snd = (x s).map Prod.snd ∧ ∀ t, (x s).map Prod.snd = some t → Pinned t := by
  refine ⟨by rw [h.same], fun t ht => ?_⟩
  obtain ⟨⟨r, t'⟩, hx, rfl⟩ := Option.map_eq_some_iff.1 ht
  exact h.pinned r _ hx

theorem PathCall.pins {c : PathCall} (hr : Rooted s) (hs : Pinned s) (h : UpsKept env s (.path c)) :
    c.runWith env strictPut s = c.run env s ∧ ∀ t, c.run env s = some t → Pinned t := by
  cases c with
  | stat path => exact (pins_vfsStat hr hs h.1 h.2).map
  | mkdir path mode => exact (pins_vfsMkdir hr hs h).map
  | unlink path => exact (pins_vfsUnlink hr hs h).map
  | openClose path flags mode =>
    have hpins : Pins
        (openInodeWith env strictPut path flags mode >>= fun i => openFile env flags i >>= vfsClose env)
        (openInode env path flags mode >>= fun i => openFile env flags i >>= vfsClose env) s :=
      (pins_openInode hr hs h).bind fun i t _ ht =>
        (Pins.of_grow (OnlyFs.keepsGrow (openFile_onlyFs i)) ht).bind fun f u _ hu =>
          .of_grow (OnlyFs.keepsGrow (vfsClose_onlyFs f)) hu
    rw [runWith, run]
    simp only [vfsOpen, bind_assoc]
    exact hpins.map

/-! ## `vfs_mount` and `vfs_umount` -/

/-- What a walk has led to has a reference, unless it was `..`. -/
theorem Kept.referenced (hs : Mounted t) (hp : Pinned t) (hroot : t.rootMnt ≠ none)
    (hmem : x.1 ∈ t.mounts) (hx : Kept t x) : Referenced t x.2 := by
  rcases hx with (hx | hx) | hx
  · exact hp _ ⟨x.1, hmem, Or.inl hx.symm⟩
  · obtain ⟨m, hm⟩ := Option.ne_none_iff_exists'.1 hroot
    obtain ⟨hm', hdent, -⟩ := hs.rooted m hm
    exact hp _ ⟨m, hm', Or.inl (Option.some.inj (hdent.symm.trans hx))⟩
  · exact hx.1

theorem vfsLookup_referenced (hs : Mounted s) (hp : Pinned s)
    (h : StepsKept env.toEnv s (components path)) (hup : ¬Up (components path))
    (hl : vfsLookup env.toEnv path s = some (.ok x, t)) : Referenced t x.2 := by
  obtain ⟨hpins, hkept⟩ := pins_vfsLookup hs.rooted hp h
  have hev := vfsLookup_evolves path s _ t hl
  have hlookup := hl
  rw [vfsLookup_eq] at hlookup
  obtain ⟨⟨m, d⟩, s₁, hstart, hwalk⟩ := Fallible.bind_eq_ok.1 hlookup
  obtain ⟨rfl, hm, -⟩ := start_ok hs.rooted hstart
  have hroot : t.rootMnt ≠ none := by
    rw [hev.rootMnt]
    intro hnone
    rw [start, hnone] at hstart
    cases hstart
  exact (hkept x t hl hup).referenced (hs.evolves hev) (hpins.pinned _ t hl) hroot
    (walk_mem hm hwalk)

/-- The dentry to mount on has a reference. -/
theorem mountTarget_pinned {r : Except ℤ (Option ℕ)} (hs : Mounted s) (hp : Pinned s)
    (hc : ¬(path.takeWhile (· != 0) = [slash] ∧ s.rootMnt = none) →
      StepsKept env.toEnv s (components path))
    (h : mountTarget env.toEnv path s = some (r, t)) :
    Pinned t ∧ ∀ d, r = .ok (some d) → ¬Up (components path) → Referenced t d := by
  unfold mountTarget at h
  split_ifs at h with hfirst
  · obtain ⟨rfl, rfl⟩ := Prod.mk.inj (Option.some.inj h)
    exact ⟨hp, fun d hd => by cases hd⟩
  obtain ⟨hpins, -⟩ := pins_vfsLookup hs.rooted hp (hc hfirst)
  rcases Fallible.bind_eq_some.1 h with ⟨e, hl, rfl⟩ | ⟨y, s₁, hl, h₁⟩
  · exact ⟨hpins.pinned _ t hl, fun d hd => by cases hd⟩
  have hp₁ := hpins.pinned _ s₁ hl
  rcases Fallible.bind_eq_some.1 h₁ with ⟨e, hd, -⟩ | ⟨e, s₂, hd, h₂⟩
  · exact absurd hd getDentry_ne_error
  obtain ⟨-, rfl⟩ := getDentry_eq_ok.1 hd
  rcases hi : e.inode with _ | i <;> rw [hi] at h₂
  · obtain ⟨rfl, rfl⟩ := Prod.mk.inj (Option.some.inj h₂)
    exact ⟨hp₁, fun d hd => by cases hd⟩
  dsimp only at h₂
  split_ifs at h₂
  · obtain ⟨rfl, rfl⟩ := Prod.mk.inj (Option.some.inj h₂)
    refine ⟨hp₁, fun d hd hup => ?_⟩
    obtain rfl := Option.some.inj (Except.ok.inj hd)
    exact vfsLookup_referenced hs hp (hc hfirst) hup hl
  · obtain ⟨rfl, rfl⟩ := Prod.mk.inj (Option.some.inj h₂)
    exact ⟨hp₁, fun d hd => by cases hd⟩

/-- A new root has a reference, and the mark of a mountpoint changes none. -/
theorem Pinned.add {ino : Inode ι} {r : Except ℤ Unit} (hp : Pinned s) (hnew : NewMount s u m ino)
    (hmp : ∀ d, m.mountpoint = some d → Referenced s d) (hadd : addMount m u = some (r, t)) :
    Pinned t := by
  obtain ⟨-, hmounts, hcase⟩ := addMount_cases hadd
  have hu : ∀ a, Anchor t a → Referenced u a := by
    rintro a ⟨m', hm', ha⟩
    rw [hmounts] at hm'
    rcases List.mem_cons.1 hm' with rfl | hm'
    · rcases ha with rfl | ha
      · exact ⟨_, hnew.root, by simp⟩
      · exact hnew.grow.referenced (hmp a ha)
    · exact hnew.grow.pinned hp a ⟨m', hm', ha⟩
  intro a ha
  obtain ⟨e, he, hr⟩ := hu a ha
  rcases hcase with ⟨-, -, -, hheap⟩ | ⟨mp, e', -, he', -, -, hheap⟩
  · exact ⟨e, (dentryAt_congr hheap a).trans he, hr⟩
  · by_cases hamp : a = mp
    · subst hamp
      obtain rfl := Option.some.inj (he.symm.trans he')
      exact ⟨{ e with isMountpoint := true }, (dentryAt_congr hheap a).trans dentryAt_put_self, hr⟩
    · exact ⟨e, (dentryAt_congr hheap a).trans ((dentryAt_put_of_ne hamp).trans he), hr⟩

theorem vfsMount_pinned {type : List U8} {device : ℕ} {r : Except ℤ Unit} (hs : Mounted s)
    (hp : Pinned s) (hc : UpsKept env s (.mount type device path))
    (h : vfsMount env.toEnv type device path s = some (r, t)) : Pinned t := by
  have hmount := h
  rw [vfsMount_eq] at h
  split_ifs at h with htype
  swap
  · obtain ⟨-, rfl⟩ := Prod.mk.inj (Option.some.inj h)
    exact hp
  have htarget : ∀ {r s₁}, mountTarget env.toEnv path s = some (r, s₁) → _ := fun hmp =>
    mountTarget_pinned hs hp (fun hfirst => (hc htype hfirst).1) hmp
  rcases Fallible.bind_eq_some.1 h with ⟨e, hm, rfl⟩ | ⟨m, u, hm, hadd⟩
  · rcases newMount_spec hm with ⟨e', -, hmp⟩ | ⟨mp, s₁, hmp, ⟨e', -, hg⟩ | ⟨_, _, he, -⟩⟩
    · exact (htarget hmp).1
    · exact hg.pinned (htarget hmp).1
    · cases he
  · rcases newMount_spec hm with ⟨e', he, -⟩ | ⟨mp, s₁, hmp, ⟨e', he, -⟩ | ⟨m', ino, he, hmpt, hnew⟩⟩
    · cases he
    · cases he
    obtain rfl := Except.ok.inj he
    obtain ⟨hp₁, href⟩ := htarget hmp
    refine hp₁.add hnew (fun d hd => ?_) hadd
    rw [hmpt] at hd
    subst hd
    by_cases hup : Up (components path)
    · have hfirst : ¬(path.takeWhile (· != 0) = [slash] ∧ s.rootMnt = none) := fun hf => by
        rw [mountTarget, if_pos hf] at hmp
        cases hmp
      obtain ⟨rfl, -⟩ := addMount_cases hadd
      exact hp₁ d ((hc htype hfirst).2 hup d s₁ t hmp hmount)
    · exact href d rfl hup

/-- `vfs_umount` frees no dentry. -/
theorem Pinned.umounts {sbType : ℕ → List U8} (hs : Mounted s) (hp : Pinned s)
    (h : Umounts sbType s t env.toEnv d m) : Pinned t := by
  obtain ⟨before, after, hms, hmt, -⟩ := h.found
  obtain ⟨e, he, hheap⟩ := h.dentry
  have hmem : m ∈ s.mounts := hms ▸ List.mem_append_right _ List.mem_cons_self
  obtain ⟨hpage, hsb⟩ := hs.pages m hmem
  rintro a ⟨m', hm', ha⟩
  have hm'' : m' ∈ s.mounts := by
    rw [hmt] at hm'
    rw [hms]
    exact List.mem_append.2 ((List.mem_append.1 hm').imp_right (List.mem_cons_of_mem m))
  obtain ⟨e', he', hr⟩ := hp a ⟨m', hm'', ha⟩
  have h₁ : a ≠ m.page := (ne_of_dentryAt he' hpage nofun).symm
  have h₂ : a ≠ m.sb := (ne_of_dentryAt he' hsb nofun).symm
  have hat : dentryAt t a = dentryAt (s.put d { e with isMountpoint := false }) a := by
    rw [dentryAt_congr hheap, dentryAt_free_of_ne h₁, dentryAt_free_of_ne h₂]
  by_cases had : a = d
  · subst had
    obtain rfl := Option.some.inj (he.symm.trans he')
    exact ⟨{ e with isMountpoint := false }, hat.trans dentryAt_put_self, hr⟩
  · exact ⟨e', hat.trans ((dentryAt_put_of_ne had).trans he'), hr⟩

theorem vfsUmount_pinned {sbType : ℕ → List U8} {r : Except ℤ Unit} (hs : Mounted s) (hp : Pinned s)
    (hc : StepsKept env.toEnv s (components path))
    (h : vfsUmount env sbType path s = some (r, t)) : Pinned t := by
  obtain ⟨hpins, -⟩ := pins_vfsLookup hs.rooted hp hc
  rcases Fallible.bind_eq_some.1 h with ⟨e, hl, -⟩ | ⟨x, s₁, hl, h₁⟩
  · exact hpins.pinned _ t hl
  have hp₁ := hpins.pinned _ s₁ hl
  have hmounts : s₁.mounts = [] ++ s₁.mounts := rfl
  rcases umountFrom_cases hmounts (fun m hm => absurd hm List.not_mem_nil) h₁
    with ⟨-, rfl, -⟩ | ⟨-, m, hm⟩
  · exact hp₁
  · exact hp₁.umounts (hs.evolves (vfsLookup_evolves path s _ s₁ hl)) hm

/-! ## Every run -/

theorem callStep_pinned {c : Call} (hs : Mounted s) (hp : Pinned s) (hc : UpsKept env s c) :
    PutsCount env s c ∧ ∀ t, callStep env s c = some t → Pinned t := by
  cases c with
  | mount type device target =>
    refine ⟨fun htype hfirst => (pins_vfsLookup hs.rooted hp (hc htype hfirst).1).1.same, ?_⟩
    intro t h
    obtain ⟨⟨r, t'⟩, hx, rfl⟩ := Option.map_eq_some_iff.1 h
    exact vfsMount_pinned hs hp hc hx
  | umount sbType target =>
    refine ⟨(pins_vfsLookup hs.rooted hp hc).1.same, fun t h => ?_⟩
    obtain ⟨⟨r, t'⟩, hx, rfl⟩ := Option.map_eq_some_iff.1 h
    exact vfsUmount_pinned hs hp hc hx
  | lookup path =>
    refine ⟨(pins_vfsLookup hs.rooted hp hc).1.same, fun t h => ?_⟩
    obtain ⟨⟨r, t'⟩, hx, rfl⟩ := Option.map_eq_some_iff.1 h
    exact (pins_vfsLookup hs.rooted hp hc).1.pinned r _ hx
  | path c => exact PathCall.pins hs.rooted hp hc

/-- In every run whose calls put no dentry that `..` led to : every anchor has a reference in every
state, and no put decrements a counter that is 0. -/
theorem anchors_pinned {fsTypes : List (List U8)} {fs : κ} {calls : List Call}
    (h : Run.EachStep (callStep env) (UpsKept env) (init fsTypes fs) calls) :
    Run.Always (callStep env) Pinned (init fsTypes fs) calls ∧
      Run.EachStep (callStep env) (PutsCount env) (init fsTypes fs) calls := by
  have hstep : ∀ (s : State κ ι) c t, Mounted s ∧ Pinned s → UpsKept env s c →
      callStep env s c = some t → Mounted t ∧ Pinned t := fun s c t hs hc ht =>
    ⟨hs.1.callStep ht, (callStep_pinned hs.1 hs.2 hc).2 t ht⟩
  have hinit : Mounted (init fsTypes fs : State κ ι) ∧ Pinned (init fsTypes fs : State κ ι) := by
    refine ⟨mounted_init, ?_⟩
    rintro a ⟨m, hm, -⟩
    exact absurd hm List.not_mem_nil
  exact ⟨(Run.always_of_eachStep hstep hinit h).mono fun _ => And.right,
    h.of_invariant hstep (fun s c hs hc => (callStep_pinned hs.1 hs.2 hc).1) hinit⟩

/-! ## Paths without `..` -/

theorem not_up (h : dotdot ∉ names) : ¬Up names := fun hup =>
  h (List.mem_filter.1 (List.mem_of_getLast? hup)).1

/-- Only `..` leads to dentries that the walk has no reference to. -/
theorem stepsKept_of_notMem {env : Env κ ι} (h : dotdot ∉ names) : StepsKept env s names := by
  intro pre c post x t m cur child u he hup
  exact absurd hup (not_up fun hmem => h (he ▸ List.mem_append_left _ hmem))

theorem endKept_of_notMem {env : Env κ ι} {used : Inode ι → Bool} (h : dotdot ∉ components path) :
    EndKept env used s path := fun hup => absurd hup (not_up h)

/-! ## `vfs_stat("/dev/..")` -/

/-- `vfs_mount("initfs", 0, "/", 0, 0)` and `vfs_mount("devfs", 0, "/dev", 0, 0)`. -/
def bootCallList : List Call := [.mount initfs 0 [slash], .mount devfs 0 (slash :: dev)]

/-- The mountpoint of `/dev` is put to 0. -/
theorem dev_unpinned :
    ¬∀ calls (s : State ℕ Bool),
      Run.run (callStep bootCalls) (init [initfs, devfs] 1) calls = some s →
        Pinned s ∧ ∀ c, PutsCount bootCalls s c := by
  intro hall
  have hrun : (Run.run (callStep bootCalls) (init [initfs, devfs] 1)
      (bootCallList ++ [.path (.stat (slash :: dev ++ slash :: dotdot))])).map (fun s =>
      (s.mounts.map Mount.mountpoint, (dentryAt s 4).map Dentry.refcnt)) =
      some ([some 4, none], some 0) := by decide +kernel
  obtain ⟨s, hs, heq⟩ := Option.map_eq_some_iff.1 hrun
  obtain ⟨hmounts, hput⟩ := Prod.mk.inj heq
  have hmem : some 4 ∈ s.mounts.map Mount.mountpoint := by
    rw [hmounts]
    exact List.mem_cons_self
  obtain ⟨m, hm, hmp⟩ := List.mem_map.1 hmem
  obtain ⟨e, he, href⟩ := (hall _ s hs).1 4 ⟨m, hm, Or.inr hmp⟩
  rw [he] at hput
  exact href (Option.some.inj hput)

/-- The two mounts and `vfs_stat("/dev")`. -/
theorem anchors_pinned_dev :
    Run.Always (callStep bootCalls) Pinned (init [initfs, devfs] 1 : State ℕ Bool)
        (bootCallList ++ [.path (.stat (slash :: dev))]) ∧
      Run.EachStep (callStep bootCalls) (PutsCount bootCalls) (init [initfs, devfs] 1 : State ℕ Bool)
        (bootCallList ++ [.path (.stat (slash :: dev))]) := by
  refine anchors_pinned ⟨fun _ _ => ⟨stepsKept_of_notMem (by decide), fun hup => ?_⟩, fun s _ =>
    ⟨fun _ _ => ⟨stepsKept_of_notMem (by decide), fun hup => ?_⟩, fun t _ =>
      ⟨⟨stepsKept_of_notMem (by decide), endKept_of_notMem (by decide)⟩, fun u _ => trivial⟩⟩⟩
  · exact absurd hup (not_up (by decide))
  · exact absurd hup (not_up (by decide))

end Vfs

end Jeos
