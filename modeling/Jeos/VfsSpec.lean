import Jeos.Vfs

/-!
# The two walkers

What `vfs_lookup_child` does to the heap : it allocates the page of the child, and in a
successful step that page holds the child's dentry, or the dentry that the mounted root has
replaced. The directory stays as it was.

Both loops walk along the same components (`lookupLoop_eq`, `lookupParentLoop_eq`). So
`vfs_lookup` and `vfs_lookup_parent` with one `vfs_lookup_child` on the leaf do the same steps,
and their results agree (`walkers_agree`) : `vfs_lookup` then releases the directory, which a
step has just read and which is not the child.
-/

namespace Jeos

namespace Vfs

set_option linter.unusedSectionVars false

variable {κ ι : Type} {env : Env κ ι} {s t : State κ ι} {mnt mnt' : Mount} {a b cur dir child : ℕ}
  {d : Dentry ι} {name : List U8}

/-! ## Dentries in the heap -/

/-- The state with a dentry in page `a`. -/
def State.put (s : State κ ι) (a : ℕ) (d : Dentry ι) : State κ ι :=
  { s with heap := Function.update s.heap a (some (.dentry d)) }

/-- The state with other file system data. -/
def State.withFs (s : State κ ι) (fs : κ) : State κ ι := { s with fs := fs }

/-- The state with page `a` free. -/
def State.free (s : State κ ι) (a : ℕ) : State κ ι :=
  { s with heap := Function.update s.heap a none }

@[simp] theorem dentryAt_put_self : dentryAt (s.put a d) a = some d := by
  simp [dentryAt, State.put]

@[simp] theorem dentryAt_put_of_ne (h : b ≠ a) : dentryAt (s.put a d) b = dentryAt s b := by
  simp [dentryAt, State.put, Function.update_of_ne h]

@[simp] theorem dentryAt_free_of_ne (h : b ≠ a) : dentryAt (s.free a) b = dentryAt s b := by
  simp [dentryAt, State.free, Function.update_of_ne h]

@[simp] theorem dentryAt_free_self : dentryAt (s.free a) a = none := by
  simp [dentryAt, State.free]

@[simp] theorem put_put (d' : Dentry ι) : (s.put a d).put a d' = s.put a d' := by
  simp [State.put]

@[simp] theorem dentryAt_withFs (fs : κ) : dentryAt (s.withFs fs) a = dentryAt s a := rfl

@[simp] theorem withFs_put (fs : κ) : (s.put a d).withFs fs = (s.withFs fs).put a d := rfl

@[simp] theorem withFs_withFs (fs fs' : κ) : (s.withFs fs).withFs fs' = s.withFs fs' := rfl

theorem dentryAt_eq_none (h : s.heap a = none) : dentryAt s a = none := by
  rw [dentryAt, h]

theorem getDentry_of (h : dentryAt s a = some d) : getDentry a s = some (.ok d, s) := by
  rw [getDentry, h, Option.map_some]

theorem getDentry_eq_ok : getDentry a s = some (.ok d, t) ↔ dentryAt s a = some d ∧ t = s := by
  rw [getDentry, Option.map_eq_some_iff]
  constructor
  · rintro ⟨d', hd, he⟩
    obtain ⟨h₁, h₂⟩ := Prod.mk.inj he
    exact ⟨by rw [hd, Except.ok.inj h₁], h₂.symm⟩
  · rintro ⟨hd, rfl⟩
    exact ⟨d, hd, rfl⟩

theorem setDentry_eq_ok {u : Unit} : setDentry a d s = some (.ok u, t) ↔ t = s.put a d :=
  ⟨fun h => (Prod.mk.inj (Option.some.inj h)).2.symm, fun h => h ▸ rfl⟩

theorem fsLookup_ok {i : Inode ι} {x : ℤ × Option (Inode ι)}
    (h : fsLookup env i name s = some (.ok x, t)) :
    (env.lookup i name s.fs).2.1 = x.2 ∧ ∃ fs, t = s.withFs fs :=
  ⟨congrArg Prod.snd (Except.ok.inj (Prod.mk.inj (Option.some.inj h)).1), _,
    (Prod.mk.inj (Option.some.inj h)).2.symm⟩

/-- The last reference of a parentless dentry frees it. -/
theorem dentryPut_of (h : dentryAt s a = some d) :
    dentryPut a s = some (.ok (),
      if d.refcnt - 1 = 0 ∧ d.parent = none then s.free a
      else s.put a { d with refcnt := d.refcnt - 1 }) := by
  rw [dentryPut, Fallible.bind_ok (getDentry_of h)]
  split_ifs <;> rfl

/-- A dentry with a parent stays. -/
theorem dentryPut_of_parent (h : dentryAt s a = some d) (hp : d.parent = some dir) :
    dentryPut a s = some (.ok (), s.put a { d with refcnt := d.refcnt - 1 }) := by
  rw [dentryPut_of h, if_neg (by rw [hp]; exact fun h => nomatch h.2)]

/-- The only reference to the dentry of a child. -/
theorem dentryPut_child {ino : Option (Inode ι)} :
    dentryPut a (s.put a ⟨1, name, ino, some dir, false⟩) =
      some (.ok (), s.put a ⟨0, name, ino, some dir, false⟩) := by
  rw [dentryPut_of_parent dentryAt_put_self rfl, put_put, show (1 : U32) - 1 = 0 from rfl]

/-! ## One child -/

/-- The mount that `vfs_find_mount_by_inode` finds covers the inode. -/
theorem findByInode_some {i : Inode ι} {ms : List Mount}
    (h : findByInode i ms s = some (.ok (some mnt), t)) :
    t = s ∧ mnt ∈ ms ∧ ∃ mp d j, mnt.mountpoint = some mp ∧ dentryAt s mp = some d ∧
      d.inode = some j ∧ j.Same i := by
  induction ms with
  | nil => cases h
  | cons m ms ih =>
    have hrest : findByInode i ms s = some (.ok (some mnt), t) →
        t = s ∧ mnt ∈ m :: ms ∧ ∃ mp d j, mnt.mountpoint = some mp ∧ dentryAt s mp = some d ∧
          d.inode = some j ∧ j.Same i := fun h =>
      ⟨(ih h).1, List.mem_cons_of_mem m (ih h).2.1, (ih h).2.2⟩
    rw [findByInode] at h
    rcases hmp : m.mountpoint with _ | mp <;> rw [hmp] at h
    · exact hrest h
    · obtain ⟨d, s', hd, h'⟩ := Fallible.bind_eq_ok.1 h
      obtain ⟨hd, rfl⟩ := getDentry_eq_ok.1 hd
      rcases hj : d.inode with _ | j <;> rw [hj] at h'
      · exact hrest h'
      · dsimp only at h'
        split_ifs at h' with hsame
        · obtain ⟨h₁, h₂⟩ := Prod.mk.inj (Option.some.inj h')
          obtain rfl := Option.some.inj (Except.ok.inj h₁)
          exact ⟨h₂.symm, List.mem_cons_self, mp, d, j, hmp, hd, hj, hsame⟩
        · exact hrest h'

/-- No mountpoint has the inode if `vfs_find_mount_by_inode` finds no mount. -/
theorem findByInode_none {i : Inode ι} {ms : List Mount}
    (h : findByInode i ms s = some (.ok none, t)) :
    t = s ∧ ∀ m ∈ ms, ∀ mp d j, m.mountpoint = some mp → dentryAt s mp = some d →
      d.inode = some j → ¬j.Same i := by
  induction ms with
  | nil =>
    obtain ⟨-, h⟩ := Prod.mk.inj (Option.some.inj h)
    exact ⟨h.symm, nofun⟩
  | cons m ms ih =>
    have hrest : findByInode i ms s = some (.ok none, t) →
        (∀ mp d j, m.mountpoint = some mp → dentryAt s mp = some d → d.inode = some j →
          ¬j.Same i) →
        t = s ∧ ∀ m' ∈ m :: ms, ∀ mp d j, m'.mountpoint = some mp → dentryAt s mp = some d →
          d.inode = some j → ¬j.Same i := fun h hm =>
      ⟨(ih h).1, List.forall_mem_cons.2 ⟨hm, (ih h).2⟩⟩
    rw [findByInode] at h
    rcases hmp : m.mountpoint with _ | mp <;> rw [hmp] at h hrest
    · exact hrest h nofun
    · obtain ⟨d, s', hd, h'⟩ := Fallible.bind_eq_ok.1 h
      obtain ⟨hd, rfl⟩ := getDentry_eq_ok.1 hd
      rcases hj : d.inode with _ | j <;> rw [hj] at h'
      · refine hrest h' ?_
        rintro mp' d' j' ⟨⟩ hd' hj'
        obtain rfl := Option.some.inj (hd.symm.trans hd')
        cases hj.symm.trans hj'
      · dsimp only at h'
        split_ifs at h' with hsame
        · cases h'
        · refine hrest h' ?_
          rintro mp' d' j' ⟨⟩ hd' hj'
          obtain rfl := Option.some.inj (hd.symm.trans hd')
          obtain rfl := Option.some.inj (hj.symm.trans hj')
          exact hsame

theorem tmpDentry_some (h : tmpDentry env name dir s = some (.ok (some a), t)) :
    (env.kalloc s).1 = some a ∧
      t = (s.withFs (env.kalloc s).2).put a ⟨1, name, none, some dir, false⟩ := by
  unfold tmpDentry at h
  split_ifs at h
  · cases h
  · unfold kalloc at h
    split at h
    · cases h
    · rename_i b fs hb
      obtain ⟨h₁, h₂⟩ := Prod.mk.inj (Option.some.inj h)
      obtain rfl := Option.some.inj (Except.ok.inj h₁)
      exact ⟨by rw [hb], by rw [hb]; exact h₂.symm⟩

/-- The inode the file system gives for a name in a directory. -/
def fsChild (env : Env κ ι) (s : State κ ι) (i : Inode ι) (name : List U8) : Option (Inode ι) :=
  (env.lookup i name (env.kalloc s).2).2.1

/-- The state with the dentry of a child in page `a`. -/
def State.withChild (s : State κ ι) (fs : κ) (a dir : ℕ) (name : List U8) (n : U32)
    (ino : Inode ι) : State κ ι :=
  (s.withFs fs).put a ⟨n, name, some ino, some dir, false⟩

/-- A successful step : the child is a new page, or the root of a mount whose mountpoint has the
child's inode, and then the page has been put. -/
theorem lookupChild_ok (h : lookupChild env mnt dir name s = some (.ok (mnt', cur, child), t)) :
    ∃ d i a ino fs, dentryAt s dir = some d ∧ d.inode = some i ∧ (env.kalloc s).1 = some a ∧
      fsChild env s i name = some ino ∧
      (mnt' = mnt ∧ cur = dir ∧ child = a ∧ t = s.withChild fs a dir name 1 ino ∧
          findByInode ino s.mounts t = some (.ok none, t) ∨
        cur = mnt'.root ∧ child = mnt'.root ∧ t = s.withChild fs a dir name 0 ino ∧
          findByInode ino s.mounts (s.withChild fs a dir name 1 ino) =
            some (.ok (some mnt'), s.withChild fs a dir name 1 ino)) := by
  obtain ⟨d, s₁, hd, h₁⟩ := Fallible.bind_eq_ok.1 h
  obtain ⟨hd, rfl⟩ := getDentry_eq_ok.1 hd
  rcases hi : d.inode with _ | i <;> rw [hi] at h₁
  · cases h₁
  dsimp only at h₁
  split_ifs at h₁
  · cases h₁
  · cases h₁
  obtain ⟨x, s₂, ha, h₂⟩ := Fallible.bind_eq_ok.1 h₁
  rcases x with _ | a
  · cases h₂
  obtain ⟨hpage, rfl⟩ := tmpDentry_some ha
  obtain ⟨⟨rc, ino⟩, s₃, hl, h₃⟩ := Fallible.bind_eq_ok.1 h₂
  obtain ⟨hino, fs', rfl⟩ := fsLookup_ok hl
  obtain ⟨c, s₄, hc, h₄⟩ := Fallible.bind_eq_ok.1 h₃
  obtain ⟨hnew, rfl⟩ := getDentry_eq_ok.1 hc
  rw [withFs_put, withFs_withFs, dentryAt_put_self] at hnew
  obtain rfl := Option.some.inj hnew
  obtain ⟨_, s₅, hset, h₅⟩ := Fallible.bind_eq_ok.1 h₄
  rw [setDentry_eq_ok, withFs_put, withFs_withFs, put_put] at hset
  subst hset
  split_ifs at h₅
  · obtain ⟨_, s₆, _, h₆⟩ := Fallible.bind_eq_ok.1 h₅
    cases h₆
  rcases ino with _ | ino
  · obtain ⟨_, s₆, _, h₆⟩ := Fallible.bind_eq_ok.1 h₅
    cases h₆
  obtain ⟨sub, s₆, hfind, h₆⟩ := Fallible.bind_eq_ok.1 h₅
  rcases sub with _ | sub
  · obtain ⟨rfl, -⟩ := findByInode_none hfind
    obtain ⟨hr, rfl⟩ := Prod.mk.inj (Option.some.inj h₆)
    obtain ⟨rfl, rfl, rfl⟩ : mnt = mnt' ∧ dir = cur ∧ a = child := by
      simpa only [Except.ok.injEq, Prod.mk.injEq] using hr
    exact ⟨d, i, a, ino, fs', hd, hi, hpage, hino, Or.inl ⟨rfl, rfl, rfl, rfl, hfind⟩⟩
  · obtain ⟨rfl, -, -⟩ := findByInode_some hfind
    obtain ⟨_, s₇, hput, h₇⟩ := Fallible.bind_eq_ok.1 h₆
    rw [dentryPut_child] at hput
    obtain ⟨-, rfl⟩ := Prod.mk.inj (Option.some.inj hput)
    obtain ⟨hr, rfl⟩ := Prod.mk.inj (Option.some.inj h₇)
    obtain ⟨rfl, rfl, rfl⟩ : sub = mnt' ∧ sub.root = cur ∧ sub.root = child := by
      simpa only [Except.ok.injEq, Prod.mk.injEq] using hr
    exact ⟨d, i, a, ino, fs', hd, hi, hpage, hino, Or.inr ⟨rfl, rfl, rfl, hfind⟩⟩

/-! ## What does not change -/

/-- The mount table is the same, and so is every page that was in use. -/
structure Grow (s t : State κ ι) : Prop where
  mounts : t.mounts = s.mounts
  rootMnt : t.rootMnt = s.rootMnt
  rootDent : t.rootDent = s.rootDent
  heap : ∀ a, s.heap a ≠ none → t.heap a = s.heap a

theorem Grow.refl (s : State κ ι) : Grow s s := ⟨rfl, rfl, rfl, fun _ _ => rfl⟩

theorem Grow.trans (s t u : State κ ι) (h : Grow s t) (h' : Grow t u) : Grow s u where
  mounts := h'.mounts.trans h.mounts
  rootMnt := h'.rootMnt.trans h.rootMnt
  rootDent := h'.rootDent.trans h.rootDent
  heap a ha := (h'.heap a (by rwa [h.heap a ha])).trans (h.heap a ha)

theorem Grow.dentryAt (h : Grow s t) (hd : dentryAt s a = some d) : dentryAt t a = some d := by
  have ha : s.heap a ≠ none := fun ha => by rw [dentryAt_eq_none ha] at hd; cases hd
  rwa [Vfs.dentryAt, h.heap a ha]

/-- The states that differ from `s` at most in page `a` and the file systems. -/
def OnlyPage (s : State κ ι) (a : ℕ) (t : State κ ι) : Prop :=
  ∃ fs g, t = { s with fs := fs, heap := Function.update s.heap a g }

theorem OnlyPage.grow (h : OnlyPage s a t) (ha : s.heap a = none) : Grow s t := by
  obtain ⟨fs, g, rfl⟩ := h
  refine ⟨rfl, rfl, rfl, fun b hb => Function.update_of_ne ?_ _ _⟩
  rintro rfl
  exact hb ha

theorem OnlyPage.set (h : OnlyPage s a t) (g : Option (Page ι)) :
    OnlyPage s a { t with heap := Function.update t.heap a g } := by
  obtain ⟨fs, g', rfl⟩ := h
  exact ⟨fs, g, by simp⟩

/-- A computation that only touches page `a` and the file systems. -/
abbrev Stays (s : State κ ι) (a : ℕ) {α : Type} (x : VfsM κ ι α) : Prop :=
  Fallible.Keeps (fun t u => OnlyPage s a t → OnlyPage s a u) x

theorem getDentry_readOnly : Fallible.Keeps Eq (getDentry a : VfsM κ ι (Dentry ι)) := by
  intro s r t h
  obtain ⟨d, -, h⟩ := Option.map_eq_some_iff.1 h
  exact (Prod.mk.inj h).2

theorem findByInode_readOnly {i : Inode ι} (ms : List Mount) :
    Fallible.Keeps Eq (findByInode i ms : VfsM κ ι (Option Mount)) := by
  induction ms with
  | nil => exact Fallible.Keeps.pure (fun _ => rfl) _
  | cons m ms ih =>
    rw [findByInode]
    rcases m.mountpoint with _ | mp
    · exact ih
    · refine getDentry_readOnly.bind (fun _ _ _ => Eq.trans) fun d => ?_
      rcases d.inode with _ | j
      · exact ih
      · dsimp only
        split_ifs
        · exact Fallible.Keeps.pure (fun _ => rfl) _
        · exact ih

theorem climb_readOnly : Fallible.Keeps Eq (climb mnt cur : VfsM κ ι ℕ) := by
  unfold climb
  split
  · exact Fallible.Keeps.pure (fun _ => rfl) _
  · exact getDentry_readOnly.bind (fun _ _ _ => Eq.trans) fun _ =>
      Fallible.Keeps.pure (fun _ => rfl) _

theorem followOverlay_readOnly : Fallible.Keeps Eq (followOverlay mnt cur : VfsM κ ι _) := by
  refine getDentry_readOnly.bind (fun _ _ _ => Eq.trans) fun e => ?_
  split_ifs
  · refine Fallible.Keeps.bind (fun _ _ _ => Eq.trans) ?_ fun x => ?_
    · exact fun _ _ _ h => (Prod.mk.inj (Option.some.inj h)).2
    · rcases x with _ | overlay <;> exact Fallible.Keeps.pure (fun _ => rfl) _
  · exact Fallible.Keeps.pure (fun _ => rfl) _

theorem start_readOnly : Fallible.Keeps Eq (start : VfsM κ ι (Mount × ℕ)) := by
  intro s r t h
  unfold start at h
  split at h
  · exact followOverlay_readOnly s r t h
  · exact (Prod.mk.inj (Option.some.inj h)).2

theorem Stays.of_readOnly {α : Type} {x : VfsM κ ι α} (h : Fallible.Keeps (@Eq (State κ ι)) x) :
    Stays s a x :=
  h.mono fun t u (e : t = u) h => e ▸ h

theorem Stays.bind {α β : Type} {x : VfsM κ ι α} {f : α → VfsM κ ι β} (hx : Stays s a x)
    (hf : ∀ y, Stays s a (f y)) : Stays s a (x >>= f) :=
  Fallible.Keeps.bind (fun _ _ _ h h' => h' ∘ h) hx hf

theorem setDentry_stays : Stays s a (setDentry a d) := by
  intro t r u h hs
  obtain ⟨-, rfl⟩ := Prod.mk.inj (Option.some.inj h)
  exact hs.set _

theorem fsLookup_stays {i : Inode ι} : Stays s a (fsLookup env i name) := by
  intro t r u h hs
  obtain ⟨-, rfl⟩ := Prod.mk.inj (Option.some.inj h)
  obtain ⟨fs, g, rfl⟩ := hs
  exact ⟨_, g, rfl⟩

theorem dentryPut_stays : Stays s a (dentryPut a : VfsM κ ι Unit) := by
  refine Stays.bind (Stays.of_readOnly getDentry_readOnly) fun d => ?_
  split_ifs
  · intro t r u h hs
    obtain ⟨-, rfl⟩ := Prod.mk.inj (Option.some.inj h)
    exact hs.set _
  · exact setDentry_stays

theorem kalloc_grow (g : Page ι) : Fallible.Keeps Grow (kalloc env g) := by
  intro s r t h
  unfold kalloc at h
  split at h
  · obtain ⟨-, rfl⟩ := Prod.mk.inj (Option.some.inj h)
    exact ⟨rfl, rfl, rfl, fun _ _ => rfl⟩
  · rename_i a fs ha
    obtain ⟨-, rfl⟩ := Prod.mk.inj (Option.some.inj h)
    exact OnlyPage.grow ⟨fs, some g, rfl⟩ (env.kalloc_fresh s a (by rw [ha]))

theorem tmpDentry_grow : Fallible.Keeps Grow (tmpDentry env name dir) := by
  unfold tmpDentry
  split_ifs
  · exact Fallible.Keeps.pure Grow.refl _
  · exact kalloc_grow _

/-- With any result `vfs_lookup_child` touches no page that was in use. -/
theorem lookupChild_grow : Fallible.Keeps Grow (lookupChild env mnt dir name) := by
  refine (getDentry_readOnly.mono fun s _ h => h ▸ Grow.refl s).bind Grow.trans fun d => ?_
  rcases d.inode with _ | i
  · exact Fallible.Keeps.throw Grow.refl _
  dsimp only
  split_ifs
  · exact Fallible.Keeps.throw Grow.refl _
  · exact Fallible.Keeps.throw Grow.refl _
  intro s r t h
  rcases Fallible.bind_eq_some.1 h with ⟨e, htmp, -⟩ | ⟨x, s₁, htmp, hrest⟩
  · exact tmpDentry_grow s _ t htmp
  rcases x with _ | a
  · obtain ⟨-, rfl⟩ := Prod.mk.inj (Option.some.inj hrest)
    exact tmpDentry_grow s _ _ htmp
  · obtain ⟨hpage, rfl⟩ := tmpDentry_some htmp
    -- from here on only the child's page is touched
    refine OnlyPage.grow (a := a) (Stays.bind fsLookup_stays (fun x => ?_) _ r t hrest ?_)
      (env.kalloc_fresh _ _ hpage)
    · refine Stays.bind (Stays.of_readOnly getDentry_readOnly) fun _ => ?_
      refine Stays.bind setDentry_stays fun _ => ?_
      split_ifs
      · exact Stays.bind dentryPut_stays fun _ => Fallible.Keeps.throw (fun _ => id) _
      rcases x.2 with _ | ino
      · exact Stays.bind dentryPut_stays fun _ => Fallible.Keeps.throw (fun _ => id) _
      · refine Stays.bind (Stays.of_readOnly fun s r t h =>
          findByInode_readOnly s.mounts s r t h) fun y => ?_
        rcases y with _ | sub
        · exact Fallible.Keeps.pure (fun _ => id) _
        · exact Stays.bind dentryPut_stays fun _ => Fallible.Keeps.pure (fun _ => id) _
    · exact ⟨_, _, rfl⟩

/-! ## The walkers agree -/

/-- The inode of the dentry in a page. -/
def inodeAt (s : State κ ι) (a : ℕ) : Option (Inode ι) := (dentryAt s a).bind Dentry.inode

/-- What a caller sees of a walk : the error, or the mount and the inode. -/
def outcome (x : Option (Except ℤ (Mount × ℕ) × State κ ι)) :
    Option (Except ℤ (Mount × Option (Inode ι))) :=
  x.map fun (r, s) => r.map fun (mnt, d) => (mnt, inodeAt s d)

theorem outcome_bind {α : Type} {x : VfsM κ ι α} {f g : α → VfsM κ ι (Mount × ℕ)}
    (h : ∀ a t, outcome (f a t) = outcome (g a t)) :
    outcome ((x >>= f) s) = outcome ((x >>= g) s) := by
  rw [Fallible.bind_apply, Fallible.bind_apply]
  rcases x s with _ | ⟨_ | a, t⟩
  · rfl
  · rfl
  · exact h a t

/-- After a successful step the directory can be released, and the child keeps its inode. -/
theorem release_of_lookupChild
    (h : lookupChild env mnt dir name s = some (.ok (mnt', cur, child), t)) :
    ∃ u, release mnt' cur t = some (.ok (), u) ∧ inodeAt u child = inodeAt t child := by
  unfold release
  split_ifs with hroot
  · obtain ⟨d, i, a, ino, fs, hd, -, hpage, -, ⟨rfl, rfl, rfl, rfl, -⟩ | ⟨rfl, rfl, rfl, -⟩⟩ :=
      lookupChild_ok h
    · have hne : cur ≠ child := by
        rintro rfl
        rw [dentryAt_eq_none (env.kalloc_fresh _ _ hpage)] at hd
        cases hd
      have hcur : dentryAt (s.withChild fs child cur name 1 ino) cur = some d := by
        rw [State.withChild, dentryAt_put_of_ne hne, dentryAt_withFs, hd]
      refine ⟨_, dentryPut_of hcur, ?_⟩
      unfold inodeAt
      split_ifs
      · rw [dentryAt_free_of_ne hne.symm]
      · rw [dentryAt_put_of_ne hne.symm]
    · exact absurd rfl hroot.2
  · exact ⟨t, rfl, rfl⟩

/-- For every namespace and every path with a last component that is neither `.` nor `..` :
`vfs_lookup` gives the same error, or the same mount and inode, as `vfs_lookup_parent` followed by
`vfs_lookup_child` on the leaf. -/
theorem walkers_agree (env : Env κ ι) (s : State κ ι) (path leaf : List U8)
    (hleaf : (components path).getLast? = some leaf) (hdot : leaf ≠ dot) (hdotdot : leaf ≠ dotdot) :
    outcome (vfsLookup env path s) =
      outcome ((do
        let (mnt, dir, leaf) ← vfsLookupParent env path
        let (mnt, _, child) ← lookupChild env mnt dir leaf
        pure (mnt, child) : VfsM κ ι (Mount × ℕ)) s) := by
  have hsplit : components path = (components path).dropLast ++ [leaf] :=
    (List.dropLast_append_getLast? leaf hleaf).symm
  rw [vfsLookup_eq, vfsLookupParent_eq, hleaf, bind_assoc]
  refine outcome_bind fun x t => ?_
  rw [bind_assoc]
  conv_lhs => rw [hsplit, walk_append]
  refine outcome_bind fun y t => ?_
  rw [walk_cons, walkStep, if_neg hdot, if_neg hdotdot, pure_bind]
  simp only [walk_nil, bind_pure, Option.getD_some]
  -- after the same step only the release is left
  rcases hstep : lookupChild env y.1 y.2 leaf t with _ | ⟨e | ⟨mnt, cur, child⟩, u⟩
  · rw [Fallible.bind_none hstep, Fallible.bind_none hstep]
  · rw [Fallible.bind_error hstep, Fallible.bind_error hstep]
  · obtain ⟨v, hv, hino⟩ := release_of_lookupChild hstep
    rw [Fallible.bind_ok hstep, Fallible.bind_ok hstep]
    dsimp only
    rw [Fallible.bind_ok hv]
    exact congrArg (fun i => some (Except.ok (mnt, i))) hino

/-! ## The mounts of a system without a disk -/

/-- The names `initfs`, `devfs` and `dev`. -/
def initfs : List U8 := [105, 110, 105, 116, 102, 115]
def devfs : List U8 := [100, 101, 118, 102, 115]
def dev : List U8 := [100, 101, 118]

/-- initfs with the one directory `dev`, devfs without directories, and an allocator that counts
pages. `priv` tells the inodes of initfs. -/
def bootEnv : Env ℕ Bool where
  kalloc s := if (s.heap s.fs).isNone then (some s.fs, s.fs + 1) else (none, s.fs)
  kalloc_fresh s a h := by
    split_ifs at h with hn
    obtain rfl := Option.some.inj h
    exact Option.isNone_iff_eq_none.1 hn
  lookup i name n :=
    if i.priv ∧ name = dev then (0, some ⟨2, 0o040755, i.sb, true, true⟩, n)
    else (ENOENT, none, n)
  mount type sb _ n := (0, some ⟨1, 0o040755, sb, true, type = initfs⟩, n)
  unmount _ _ n := n

/-- The path `/dev/` after `vfs_mount("initfs", 0, "/", 0, 0)`. -/
theorem walkers_agree_dev :
    ∃ s, vfsMount bootEnv initfs 0 [slash] (init [initfs, devfs] 1) = some (.ok (), s) ∧
      outcome (vfsLookup bootEnv (slash :: dev ++ [slash]) s) =
        outcome ((do
          let (mnt, dir, leaf) ← vfsLookupParent bootEnv (slash :: dev ++ [slash])
          let (mnt, _, child) ← lookupChild bootEnv mnt dir leaf
          pure (mnt, child) : VfsM ℕ Bool (Mount × ℕ)) s) :=
  ⟨_, rfl, walkers_agree bootEnv _ _ dev (by decide) (by decide) (by decide)⟩

end Vfs

end Jeos
