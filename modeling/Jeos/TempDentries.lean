import Jeos.MountTable

/-!
# Temporary dentries

`vfs_tmp_dentry` gives every dentry the directory as its parent, and `vfs_dentry_put` frees only
dentries without one. So a call leaves its dentries behind, and the pages of the dentries are the same
after `vfs_stat`, `vfs_mkdir`, `vfs_unlink` or `vfs_open` with `vfs_close` exactly if the call gets no
page from `vfs_tmp_dentry` (`temps_freed_iff`). That is decided in front of the first component that
is neither `.` nor `..`; after `vfs_stat("/dev")` there is one dentry more (`stat_leaks`).
-/

namespace Jeos

namespace Vfs

set_option linter.unusedSectionVars false

variable {κ ι : Type}

/-- The pages of the dentries. -/
def dentryPages (s : State κ ι) : Set ℕ := {a | (dentryAt s a).isSome}

/-- A call that takes a path; `openClose` is `vfs_open` and, where it succeeds, `vfs_close`. -/
inductive PathCall where
  | stat (path : List U8)
  | mkdir (path : List U8) (mode : U32)
  | unlink (path : List U8)
  | openClose (path : List U8) (flags mode : U32)

/-- The state after a call, with any result. -/
def PathCall.run (env : CallEnv κ ι) (s : State κ ι) : PathCall → Option (State κ ι)
  | .stat path => (vfsStat env path s).map Prod.snd
  | .mkdir path mode => (vfsMkdir env path mode s).map Prod.snd
  | .unlink path => (vfsUnlink env path s).map Prod.snd
  | .openClose path flags mode =>
    ((do vfsClose env (← vfsOpen env path flags mode) : VfsM κ ι Unit) s).map Prod.snd

/-- Any call on the namespace. -/
inductive Call where
  | mount (type : List U8) (device : ℕ) (target : List U8)
  | umount (sbType : ℕ → List U8) (target : List U8)
  | lookup (path : List U8)
  | path (call : PathCall)

def callStep (env : CallEnv κ ι) (s : State κ ι) : Call → Option (State κ ι)
  | .mount type device target => mountStep env.toEnv s (type, device, target)
  | .umount sbType target => (vfsUmount env sbType target s).map Prod.snd
  | .lookup path => (vfsLookup env.toEnv path s).map Prod.snd
  | .path call => call.run env s

/-! ## The first temporary dentry -/

/-- The components that need no dentry. -/
def IsDots (c : List U8) : Prop := c = dot ∨ c = dotdot

instance (c : List U8) : Decidable (IsDots c) := inferInstanceAs (Decidable (_ ∨ _))

/-- `vfs_tmp_dentry` is called for `name` in `dir`, a directory with the operation `op`, and gets a
page. -/
def Admits (env : Env κ ι) (op : Inode ι → Bool) (s : State κ ι) (dir : ℕ) (name : List U8) : Prop :=
  (∃ i, inodeAt s dir = some i ∧ i.isDir = true ∧ op i = true) ∧ name.length < 256 ∧
    (env.kalloc s).1 ≠ none

/-- The components are `.` and `..`, and lead to `x`. -/
def Climbs (env : Env κ ι) (s : State κ ι) (names : List (List U8)) (x : Mount × ℕ) : Prop :=
  (∀ c ∈ names, IsDots c) ∧ ∃ y, start s = some (.ok y, s) ∧ walk env y names s = some (.ok x, s)

/-- The walk along the components gets a temporary dentry. -/
def WalkTemp (env : Env κ ι) (s : State κ ι) (names : List (List U8)) : Prop :=
  ∃ pre c post x, names = pre ++ c :: post ∧ ¬IsDots c ∧ Climbs env s pre x ∧
    Admits env Inode.lookup s x.2 c

/-- The walk to the parent gets a temporary dentry, or the leaf gets one. -/
def LeafTemp (env : Env κ ι) (op : Inode ι → Bool) (s : State κ ι) (names : List (List U8)) : Prop :=
  WalkTemp env s names.dropLast ∨
    ∃ leaf x, names.getLast? = some leaf ∧ Climbs env s names.dropLast x ∧ Admits env op s x.2 leaf

/-- The call gets a temporary dentry. -/
def PathCall.Temp (env : CallEnv κ ι) (s : State κ ι) : PathCall → Prop
  | .stat path => WalkTemp env.toEnv s (components path)
  | .mkdir path _ => LeafTemp env.toEnv (fun i => (env.mkdir i).isSome) s (components path)
  | .unlink path => LeafTemp env.toEnv (fun i => (env.unlink i).isSome) s (components path)
  | .openClose path flags _ =>
    if flags &&& oCreat ≠ 0 then
      LeafTemp env.toEnv (fun i => (env.create i).isSome) s (components path)
    else WalkTemp env.toEnv s (components path)

variable {env : CallEnv κ ι} {s t u : State κ ι} {mnt : Mount} {a d dir cur : ℕ}
  {name : List U8} {names pre : List (List U8)} {x y : Mount × ℕ}

/-! ## Dentries with a parent stay -/

/-- A dentry with a parent. -/
def Parented (s : State κ ι) (a : ℕ) : Prop := ∃ d, dentryAt s a = some d ∧ d.parent ≠ none

/-- Dentries with a parent stay dentries with a parent. -/
def KeepsTemps (s t : State κ ι) : Prop := ∀ a, Parented s a → Parented t a

theorem KeepsTemps.refl (s : State κ ι) : KeepsTemps s s := fun _ => id

theorem KeepsTemps.trans (s t u : State κ ι) (h : KeepsTemps s t) (h' : KeepsTemps t u) :
    KeepsTemps s u := fun a ha => h' a (h a ha)

theorem Grow.keepsTemps (h : Grow s t) : KeepsTemps s t := fun _ ⟨d, hd, hp⟩ =>
  ⟨d, h.dentryAt hd, hp⟩

theorem keepsTemps_of_readOnly {α : Type} {x : VfsM κ ι α}
    (h : Fallible.Keeps (@Eq (State κ ι)) x) : Fallible.Keeps KeepsTemps x :=
  h.mono fun s t (e : s = t) => e ▸ KeepsTemps.refl s

theorem keepsTemps_put {e : Dentry ι} {p : Dentry ι} (he : dentryAt s a = some e)
    (hp : e.parent ≠ none → p.parent ≠ none) : KeepsTemps s (s.put a p) := by
  rintro b ⟨d, hd, hpd⟩
  by_cases hb : b = a
  · subst hb
    obtain rfl := Option.some.inj (he.symm.trans hd)
    exact ⟨p, dentryAt_put_self, hp hpd⟩
  · exact ⟨d, (dentryAt_put_of_ne hb).trans hd, hpd⟩

/-- `vfs_dentry_put` frees no dentry with a parent. -/
theorem dentryPut_keepsTemps : Fallible.Keeps KeepsTemps (dentryPut a : VfsM κ ι Unit) := by
  intro s r t h
  rcases Fallible.bind_eq_some.1 h with ⟨e, hd, -⟩ | ⟨e, s₁, hd, hput⟩
  · exact keepsTemps_of_readOnly getDentry_readOnly s _ t hd
  obtain ⟨hd, rfl⟩ := getDentry_eq_ok.1 hd
  split_ifs at hput with hlast
  · obtain ⟨-, rfl⟩ := Prod.mk.inj (Option.some.inj hput)
    rintro b ⟨e', he', hp⟩
    have hb : b ≠ a := by
      rintro rfl
      obtain rfl := Option.some.inj (hd.symm.trans he')
      exact hp hlast.2
    exact ⟨e', (dentryAt_free_of_ne hb).trans he', hp⟩
  · obtain ⟨-, rfl⟩ := Prod.mk.inj (Option.some.inj hput)
    exact keepsTemps_put hd id

theorem setInode_keepsTemps {ino : Option (Inode ι)} :
    Fallible.Keeps KeepsTemps (setInode a ino : VfsM κ ι Unit) := by
  intro s r t h
  rcases Fallible.bind_eq_some.1 h with ⟨e, hd, -⟩ | ⟨e, s₁, hd, hset⟩
  · exact keepsTemps_of_readOnly getDentry_readOnly s _ t hd
  obtain ⟨hd, rfl⟩ := getDentry_eq_ok.1 hd
  obtain ⟨-, rfl⟩ := Prod.mk.inj (Option.some.inj hset)
  exact keepsTemps_put hd id

theorem keepsTemps_setInode {β : Type} {ino : Option (Inode ι)} {f : Unit → VfsM κ ι β}
    (hf : ∀ u, Fallible.Keeps KeepsTemps (f u)) : Fallible.Keeps KeepsTemps
      (getDentry a >>= fun e => setDentry a { e with inode := ino } >>= f : VfsM κ ι β) := by
  have he : (getDentry a >>= fun e => setDentry a { e with inode := ino } >>= f : VfsM κ ι β) =
      setInode a ino >>= f := (bind_assoc _ _ _).symm
  rw [he]
  exact setInode_keepsTemps.bind KeepsTemps.trans hf

/-- Only the file systems change. -/
def OnlyFs (s t : State κ ι) : Prop := ∃ fs, t = s.withFs fs

theorem OnlyFs.refl (s : State κ ι) : OnlyFs s s := ⟨s.fs, rfl⟩

theorem OnlyFs.trans (s t u : State κ ι) (h : OnlyFs s t) (h' : OnlyFs t u) : OnlyFs s u := by
  obtain ⟨fs, rfl⟩ := h
  obtain ⟨fs', rfl⟩ := h'
  exact ⟨fs', rfl⟩

theorem OnlyFs.heap (h : OnlyFs s t) : t.heap = s.heap := by
  obtain ⟨fs, rfl⟩ := h
  rfl

theorem OnlyFs.grow (h : OnlyFs s t) : Grow s t := by
  obtain ⟨fs, rfl⟩ := h
  exact ⟨rfl, rfl, rfl, fun _ _ => rfl⟩

theorem OnlyFs.keepsTemps (h : OnlyFs s t) : KeepsTemps s t := h.grow.keepsTemps

theorem fsLookup_onlyFs {i : Inode ι} : Fallible.Keeps OnlyFs (fsLookup env.toEnv i name) := by
  intro s r t h
  obtain ⟨-, rfl⟩ := Prod.mk.inj (Option.some.inj h)
  exact ⟨_, rfl⟩

theorem fsCall_onlyFs {α : Type} {f : κ → α × κ} :
    Fallible.Keeps OnlyFs (fsCall f : VfsM κ ι α) := by
  intro s r t h
  obtain ⟨-, rfl⟩ := Prod.mk.inj (Option.some.inj h)
  exact ⟨_, rfl⟩

/-- No dentry is touched once the inode is there. -/
theorem openFile_onlyFs {flags : U32} (i : Inode ι) :
    Fallible.Keeps OnlyFs (openFile env flags i) := by
  refine Fallible.Keeps.bind OnlyFs.trans ?_ fun x => ?_
  · intro s r t h
    obtain ⟨-, rfl⟩ := Prod.mk.inj (Option.some.inj h)
    exact ⟨_, rfl⟩
  rcases x with _ | page
  · exact Fallible.Keeps.throw OnlyFs.refl _
  dsimp only
  rcases env.openFile i with _ | op
  · exact Fallible.Keeps.pure OnlyFs.refl _
  refine fsCall_onlyFs.bind OnlyFs.trans fun rc => ?_
  split_ifs
  · exact Fallible.Keeps.throw OnlyFs.refl _
  · exact Fallible.Keeps.pure OnlyFs.refl _

theorem vfsClose_onlyFs (f : File ι) : Fallible.Keeps OnlyFs (vfsClose env f) := by
  unfold vfsClose
  rcases env.closeFile f.inode with _ | op
  · exact Fallible.Keeps.pure OnlyFs.refl _
  refine fsCall_onlyFs.bind OnlyFs.trans fun rc => ?_
  split_ifs
  · exact Fallible.Keeps.throw OnlyFs.refl _
  · exact Fallible.Keeps.pure OnlyFs.refl _

theorem fsLookup_keepsTemps {i : Inode ι} :
    Fallible.Keeps KeepsTemps (fsLookup env.toEnv i name) :=
  fsLookup_onlyFs.mono fun _ _ => OnlyFs.keepsTemps

theorem fsCall_keepsTemps {α : Type} {f : κ → α × κ} :
    Fallible.Keeps KeepsTemps (fsCall f : VfsM κ ι α) :=
  fsCall_onlyFs.mono fun _ _ => OnlyFs.keepsTemps

theorem release_keepsTemps : Fallible.Keeps KeepsTemps (release mnt cur : VfsM κ ι Unit) := by
  intro s r t h
  unfold release at h
  split_ifs at h
  · exact dentryPut_keepsTemps s r t h
  · obtain ⟨-, rfl⟩ := Prod.mk.inj (Option.some.inj h)
    exact KeepsTemps.refl s

theorem walkStep_keepsTemps (x : Mount × ℕ) (name : List U8) :
    Fallible.Keeps KeepsTemps (walkStep env.toEnv x name) := by
  obtain ⟨mnt, cur⟩ := x
  unfold walkStep
  dsimp only
  split_ifs
  · exact Fallible.Keeps.pure KeepsTemps.refl _
  · exact (keepsTemps_of_readOnly climb_readOnly).bind KeepsTemps.trans fun _ =>
      Fallible.Keeps.pure KeepsTemps.refl _
  · refine (lookupChild_grow.mono fun _ _ => Grow.keepsTemps).bind KeepsTemps.trans fun _ => ?_
    exact release_keepsTemps.bind KeepsTemps.trans fun _ =>
      Fallible.Keeps.pure KeepsTemps.refl _

theorem walk_keepsTemps (x : Mount × ℕ) (names : List (List U8)) :
    Fallible.Keeps KeepsTemps (walk env.toEnv x names) :=
  Fallible.Keeps.foldlM KeepsTemps.refl KeepsTemps.trans walkStep_keepsTemps x names

/-! ## A temporary dentry leaks -/

/-- With any result the computation leaves a dentry in a page that was free. -/
def Leaks {α : Type} (x : VfsM κ ι α) (s : State κ ι) : Prop :=
  ∀ r t, x s = some (r, t) → ∃ a, s.heap a = none ∧ Parented t a

theorem Leaks.bind {α β : Type} {x : VfsM κ ι α} {f : α → VfsM κ ι β} (hx : Leaks x s)
    (hf : ∀ y, Fallible.Keeps KeepsTemps (f y)) : Leaks (x >>= f) s := by
  intro r t h
  rcases Fallible.bind_eq_some.1 h with ⟨e, hx', -⟩ | ⟨y, s₁, hx', hr⟩
  · exact hx _ t hx'
  · obtain ⟨a, ha, ht⟩ := hx _ s₁ hx'
    exact ⟨a, ha, hf y s₁ r t hr a ht⟩

theorem Leaks.of_ok {α β : Type} {x : VfsM κ ι α} {f : α → VfsM κ ι β} {y : α}
    (hx : x s = some (.ok y, s)) (hf : Leaks (f y) s) : Leaks (x >>= f) s := fun r t h =>
  hf r t ((Fallible.bind_ok hx).symm.trans h)

/-- What is done with the page of `vfs_tmp_dentry`, where it gives one. -/
theorem Leaks.tmpDentry {β : Type} {f : Option ℕ → VfsM κ ι β} (hlen : name.length < 256)
    (hpage : (env.kalloc s).1 ≠ none) (hf : ∀ a, Fallible.Keeps KeepsTemps (f (some a))) :
    Leaks (tmpDentry env.toEnv name dir >>= f) s := by
  obtain ⟨a, ha⟩ := Option.ne_none_iff_exists'.1 hpage
  have htmp : Vfs.tmpDentry env.toEnv name dir s = some (.ok (some a),
      (s.withFs (env.kalloc s).2).put a ⟨1, name, none, some dir, false⟩) := by
    rw [Vfs.tmpDentry, if_neg (Nat.not_le.2 hlen), kalloc]
    rcases hk : env.kalloc s with ⟨p, fs⟩
    rw [hk] at ha
    obtain rfl : p = some a := ha
    rfl
  intro r t h
  rw [Fallible.bind_ok htmp] at h
  refine ⟨a, env.kalloc_fresh s a ha, hf a _ r t h a ⟨_, dentryAt_put_self, ?_⟩⟩
  exact Option.some_ne_none dir

theorem lookupChild_leaks (h : Admits env.toEnv Inode.lookup s dir name) :
    Leaks (lookupChild env.toEnv mnt dir name) s := by
  obtain ⟨⟨i, hi, hdir, hop⟩, hlen, hpage⟩ := h
  obtain ⟨e, he, hi⟩ := inodeAt_eq_some.1 hi
  refine Leaks.of_ok (getDentry_of he) ?_
  rw [hi]
  dsimp only
  rw [if_neg (by rw [hdir]; decide), if_neg (by rw [hop]; decide)]
  refine Leaks.tmpDentry hlen hpage fun a => ?_
  refine fsLookup_keepsTemps.bind KeepsTemps.trans fun x => ?_
  refine keepsTemps_setInode fun _ => ?_
  split_ifs
  · exact dentryPut_keepsTemps.bind KeepsTemps.trans fun _ => Fallible.Keeps.throw KeepsTemps.refl _
  rcases x.2 with _ | ino
  · exact dentryPut_keepsTemps.bind KeepsTemps.trans fun _ => Fallible.Keeps.throw KeepsTemps.refl _
  refine (keepsTemps_of_readOnly fun s r t h => findByInode_readOnly s.mounts s r t h).bind
    KeepsTemps.trans fun y => ?_
  rcases y with _ | sub
  · exact Fallible.Keeps.pure KeepsTemps.refl _
  · exact dentryPut_keepsTemps.bind KeepsTemps.trans fun _ => Fallible.Keeps.pure KeepsTemps.refl _

/-- The walk behind `.` and `..`. -/
theorem walk_leaks {c : List U8} (hc : ¬IsDots c)
    (h : Admits env.toEnv Inode.lookup s x.2 c) (post : List (List U8)) :
    Leaks (walk env.toEnv x (c :: post)) s := by
  rw [walk_cons]
  refine Leaks.bind ?_ fun y => walk_keepsTemps y post
  obtain ⟨mnt, cur⟩ := x
  rw [walkStep, if_neg fun he => hc (Or.inl he), if_neg fun he => hc (Or.inr he)]
  refine (lookupChild_leaks h).bind fun z => ?_
  exact release_keepsTemps.bind KeepsTemps.trans fun _ => Fallible.Keeps.pure KeepsTemps.refl _

theorem start_walk_leaks (h : WalkTemp env.toEnv s names) :
    Leaks (start >>= fun x => walk env.toEnv x names) s := by
  obtain ⟨pre, c, post, x, rfl, hc, ⟨-, y, hy, hx⟩, ha⟩ := h
  refine Leaks.of_ok hy ?_
  rw [walk_append]
  exact Leaks.of_ok hx (walk_leaks hc ha post)

theorem vfsLookup_leaks {path : List U8} (h : WalkTemp env.toEnv s (components path)) :
    Leaks (vfsLookup env.toEnv path) s := by
  rw [vfsLookup_eq]
  exact start_walk_leaks h

theorem newLeaf_leaks {α : Type} {op : Inode ι → Option α} (hname : name ≠ [])
    (h : Admits env.toEnv (fun i => (op i).isSome) s dir name) : Leaks (newLeaf env op dir name) s := by
  obtain ⟨⟨i, hi, hdir, hop⟩, hlen, hpage⟩ := h
  obtain ⟨e, he, hi⟩ := inodeAt_eq_some.1 hi
  obtain ⟨f, hf⟩ := Option.isSome_iff_exists.1 hop
  rw [newLeaf, if_neg hname]
  refine Leaks.of_ok (getDentry_of he) ?_
  rw [hi]
  dsimp only
  rw [if_neg (by rw [hdir]; decide), hf]
  exact Leaks.tmpDentry hlen hpage fun a => Fallible.Keeps.pure KeepsTemps.refl _

theorem newLeaf_grow {α : Type} {op : Inode ι → Option α} :
    Fallible.Keeps Grow (newLeaf env op dir name) := by
  unfold newLeaf
  split_ifs
  · exact Fallible.Keeps.throw Grow.refl _
  refine (getDentry_readOnly.mono fun s _ h => h ▸ Grow.refl s).bind Grow.trans fun e => ?_
  rcases e.inode with _ | i
  · exact Fallible.Keeps.throw Grow.refl _
  dsimp only
  split_ifs
  · exact Fallible.Keeps.throw Grow.refl _
  rcases op i with _ | f
  · exact Fallible.Keeps.throw Grow.refl _
  refine tmpDentry_grow.bind Grow.trans fun y => ?_
  rcases y with _ | child
  · exact Fallible.Keeps.throw Grow.refl _
  · exact Fallible.Keeps.pure Grow.refl _

theorem newLeaf_keepsTemps {α : Type} {op : Inode ι → Option α} :
    Fallible.Keeps KeepsTemps (newLeaf env op dir name) :=
  newLeaf_grow.mono fun _ _ => Grow.keepsTemps

/-- A component of a path is not empty. -/
theorem ne_nil_of_mem_components {p c : List U8} (h : c ∈ components p) : c ≠ [] := by
  have := (List.mem_filter.1 h).2
  simpa using this

theorem isName_of_mem_components {p c : List U8} (h : c ∈ components p) : ∀ b ∈ c, isName b = true := by
  by_cases hend : (nextComponent p).1 = []
  · rw [components_eq_nil_iff.2 hend] at h
    cases h
  · rw [components_cons hend] at h
    rcases List.mem_cons.1 h with rfl | hrest
    · exact fun b hb => List.mem_takeWhile_imp hb
    · have := length_nextComponent hend
      exact isName_of_mem_components hrest
termination_by p.length

theorem zero_notMem_of_mem_components {p c : List U8} (h : c ∈ components p) : 0 ∉ c := fun h0 =>
  (isName_iff.1 (isName_of_mem_components h 0 h0)).1 rfl

/-- The dentry of a leaf, or one in front of it. -/
theorem leafDentry_leaks {α : Type} {op : Inode ι → Option α} {path : List U8}
    (h : LeafTemp env.toEnv (fun i => (op i).isSome) s (components path)) :
    Leaks (leafDentry env op path) s := by
  rw [leafDentry, vfsLookupParent_eq]
  simp only [bind_assoc, pure_bind]
  rcases h with h | ⟨leaf, x, hleaf, ⟨-, y, hy, hx⟩, ha⟩
  · rw [← bind_assoc]
    exact (start_walk_leaks h).bind fun y => newLeaf_keepsTemps
  · refine Leaks.of_ok hy (Leaks.of_ok hx ?_)
    rw [hleaf]
    exact newLeaf_leaks (ne_nil_of_mem_components (List.mem_of_getLast? hleaf)) ha

theorem lookupLeaf_keepsTemps {i : Inode ι} :
    Fallible.Keeps KeepsTemps (lookupLeaf env i name a) := by
  unfold lookupLeaf
  split_ifs
  · refine fsLookup_keepsTemps.bind KeepsTemps.trans fun z => ?_
    refine setInode_keepsTemps.bind KeepsTemps.trans fun _ => ?_
    split_ifs
    · exact dentryPut_keepsTemps.bind KeepsTemps.trans fun _ =>
        Fallible.Keeps.throw KeepsTemps.refl _
    · exact Fallible.Keeps.pure KeepsTemps.refl _
  · exact Fallible.Keeps.pure KeepsTemps.refl _

/-- The condition for the inode that `vfs_open` opens. -/
theorem openInode_leaks {path : List U8} {flags mode : U32}
    (h : (PathCall.openClose path flags mode).Temp env s) :
    Leaks (openInode env path flags mode) s := by
  unfold openInode
  simp only [PathCall.Temp] at h
  split_ifs at h ⊢
  · refine (leafDentry_leaks h).bind fun y => ?_
    obtain ⟨i, create, leaf, child⟩ := y
    have hput : ∀ {β : Type} (x : VfsM κ ι β), Fallible.Keeps KeepsTemps x →
        Fallible.Keeps KeepsTemps (dentryPut child >>= fun _ => x) := fun x hx =>
      dentryPut_keepsTemps.bind KeepsTemps.trans fun _ => hx
    refine fsCall_keepsTemps.bind KeepsTemps.trans fun z => ?_
    refine setInode_keepsTemps.bind KeepsTemps.trans fun _ => ?_
    split_ifs
    · exact hput _ (Fallible.Keeps.throw KeepsTemps.refl _)
    rcases z.2 with _ | i
    · exact hput _ (Fallible.Keeps.throw KeepsTemps.refl _)
    · exact hput _ (Fallible.Keeps.pure KeepsTemps.refl _)
  · refine (vfsLookup_leaks h).bind fun y => ?_
    refine (keepsTemps_of_readOnly getDentry_readOnly).bind KeepsTemps.trans fun e => ?_
    rcases e.inode with _ | i
    · exact Fallible.Keeps.throw KeepsTemps.refl _
    · exact release_keepsTemps.bind KeepsTemps.trans fun _ => Fallible.Keeps.pure KeepsTemps.refl _

/-- A call that gets a temporary dentry has one more page at the end. -/
theorem PathCall.leaks {c : PathCall} (h : c.Temp env s) (hr : c.run env s = some t) :
    ∃ a, s.heap a = none ∧ Parented t a := by
  have hend : ∀ {α : Type} {x : VfsM κ ι α}, Leaks x s → (x s).map Prod.snd = some t →
      ∃ a, s.heap a = none ∧ Parented t a := fun hx hr => by
    obtain ⟨⟨r, t'⟩, hx', rfl⟩ := Option.map_eq_some_iff.1 hr
    exact hx r t' hx'
  cases c with
  | stat path =>
    refine hend ((vfsLookup_leaks h).bind fun y => ?_) hr
    refine (keepsTemps_of_readOnly getDentry_readOnly).bind KeepsTemps.trans fun e => ?_
    rcases e.inode with _ | i
    · exact Fallible.Keeps.throw KeepsTemps.refl _
    dsimp only
    rcases env.getattr i with _ | getattr
    · exact Fallible.Keeps.throw KeepsTemps.refl _
    · exact fsCall_keepsTemps.bind KeepsTemps.trans fun _ => release_keepsTemps.bind KeepsTemps.trans
        fun _ => Fallible.Keeps.pure KeepsTemps.refl _
  | mkdir path mode =>
    refine hend ((leafDentry_leaks h).bind fun y => ?_) hr
    exact fsCall_keepsTemps.bind KeepsTemps.trans fun _ => setInode_keepsTemps.bind KeepsTemps.trans
      fun _ => dentryPut_keepsTemps.bind KeepsTemps.trans fun _ =>
        Fallible.Keeps.pure KeepsTemps.refl _
  | unlink path =>
    refine hend ((leafDentry_leaks h).bind fun y => ?_) hr
    refine (lookupLeaf_keepsTemps).bind KeepsTemps.trans fun _ => ?_
    exact (keepsTemps_of_readOnly getDentry_readOnly).bind KeepsTemps.trans fun _ =>
      fsCall_keepsTemps.bind KeepsTemps.trans fun _ => dentryPut_keepsTemps.bind KeepsTemps.trans
        fun _ => Fallible.Keeps.pure KeepsTemps.refl _
  | openClose path flags mode =>
    refine hend (Leaks.bind ((openInode_leaks h).bind fun i => ?_) fun f =>
      (vfsClose_onlyFs f).mono fun _ _ => OnlyFs.keepsTemps) hr
    exact (openFile_onlyFs i).mono fun _ _ => OnlyFs.keepsTemps

/-! ## Without a temporary dentry -/

/-- The mounts at which a walk starts : the root, or one that covers it. -/
def TopMount (s : State κ ι) (mnt : Mount) : Prop :=
  ∃ r e, s.rootDent = some r ∧ dentryAt s r = some e ∧ e.parent = none ∧
    (mnt.mountpoint = none ∧ mnt.root = r ∨ mnt.mountpoint = some r)

/-- The dentries that `.` and `..` lead to from there. -/
def AtTop (s : State κ ι) (x : Mount × ℕ) : Prop := x.2 = x.1.root ∨ s.rootDent = some x.2

theorem start_top (hs : Rooted s) (h : start s = some (.ok x, t)) :
    t = s ∧ TopMount s x.1 ∧ AtTop s x := by
  obtain ⟨mnt, d⟩ := x
  obtain ⟨rfl, -, hroot, -⟩ := start_ok hs h
  refine ⟨rfl, ?_, Or.inl hroot⟩
  unfold start at h
  rcases hm : t.rootMnt with _ | m
  · rw [hm] at h
    cases h
  obtain ⟨-, hdent, hmp, e, he, hp⟩ := hs m hm
  rw [hm, hdent] at h
  change followOverlay m m.root t = _ at h
  unfold followOverlay at h
  rw [Fallible.bind_ok (getDentry_of he)] at h
  have hself : some (Except.ok (m, m.root), t) = some (Except.ok (ε := ℤ) (mnt, d), t) →
      TopMount t mnt := by
    rintro ⟨⟩
    exact ⟨_, e, hdent, he, hp, Or.inl ⟨hmp, rfl⟩⟩
  split_ifs at h
  · obtain ⟨y, s₁, hy, h₁⟩ := Fallible.bind_eq_ok.1 h
    obtain ⟨hfind, rfl⟩ := Prod.mk.inj (Option.some.inj hy)
    rcases y with _ | o
    · exact hself h₁
    · obtain ⟨hr, -⟩ := Prod.mk.inj (Option.some.inj h₁)
      obtain ⟨rfl, rfl⟩ := Prod.mk.inj (Except.ok.inj hr)
      have hcov := List.find?_some (Except.ok.inj hfind)
      exact ⟨_, e, hdent, he, hp, Or.inr (by simpa using hcov)⟩
  · exact hself h

theorem climb_top (hm : TopMount s mnt) (hd : AtTop s (mnt, d)) :
    ∃ d', climb mnt d s = some (.ok d', s) ∧ AtTop s (mnt, d') := by
  obtain ⟨r, e, hr, he, hp, hcase⟩ := hm
  have hstay : ∀ {d}, d = r → d ≠ mnt.root → climb mnt d s = some (.ok r, s) := by
    rintro d rfl hne
    rw [climb_of_ne hne he, hp]
    rfl
  by_cases hroot : d = mnt.root
  · subst hroot
    rcases hcase with ⟨hmp, hr'⟩ | hmp
    · refine ⟨mnt.root, ?_, Or.inl rfl⟩
      rw [climb, hmp]
      refine (Fallible.bind_ok (getDentry_of (hr' ▸ he))).trans ?_
      rw [hp]
      rfl
    · exact ⟨r, climb_mountpoint hmp, Or.inr hr⟩
  · have hdr : d = r := by
      rcases hd with hd | hd
      · exact absurd hd hroot
      · exact Option.some.inj (hd.symm.trans hr)
    exact ⟨r, hstay hdr hroot, Or.inr hr⟩

theorem tmpDentry_none (dir : ℕ) (h : ¬(name.length < 256 ∧ (env.kalloc s).1 ≠ none)) :
    ∃ fs, tmpDentry env.toEnv name dir s = some (.ok none, s.withFs fs) := by
  unfold tmpDentry
  split_ifs with hlen
  · exact ⟨s.fs, rfl⟩
  · have hnone : (env.kalloc s).1 = none := by
      by_contra hne
      exact h ⟨Nat.not_le.1 hlen, hne⟩
    refine ⟨(env.kalloc s).2, ?_⟩
    unfold kalloc
    split
    · rename_i fs hk
      rw [hk]
      rfl
    · rename_i a fs hk
      rw [hk] at hnone
      cases hnone

/-- Without a page `vfs_lookup_child` fails and leaves the heap. -/
theorem lookupChild_no_temp {r : Except ℤ (Mount × ℕ × ℕ)}
    (ha : ¬Admits env.toEnv Inode.lookup s dir name)
    (h : lookupChild env.toEnv mnt dir name s = some (r, t)) :
    t.heap = s.heap ∧ ∃ e, r = .error e := by
  unfold lookupChild at h
  rcases Fallible.bind_eq_some.1 h with ⟨e, hd, rfl⟩ | ⟨d, s₁, hd, h₁⟩
  · exact ⟨congrArg State.heap (getDentry_readOnly s _ t hd).symm, e, rfl⟩
  obtain ⟨hd, rfl⟩ := getDentry_eq_ok.1 hd
  rcases hi : d.inode with _ | i <;> rw [hi] at h₁
  · obtain ⟨rfl, rfl⟩ := Prod.mk.inj (Option.some.inj h₁)
    exact ⟨rfl, _, rfl⟩
  dsimp only at h₁
  split_ifs at h₁ with hdir hop
  · obtain ⟨rfl, rfl⟩ := Prod.mk.inj (Option.some.inj h₁)
    exact ⟨rfl, _, rfl⟩
  · obtain ⟨rfl, rfl⟩ := Prod.mk.inj (Option.some.inj h₁)
    exact ⟨rfl, _, rfl⟩
  · have hat : inodeAt s₁ dir = some i := inodeAt_eq_some.2 ⟨d, hd, hi⟩
    obtain ⟨fs, htmp⟩ := tmpDentry_none dir fun hpage =>
      ha ⟨⟨i, hat, by simpa using hdir, by simpa using hop⟩, hpage⟩
    rw [Fallible.bind_ok htmp] at h₁
    obtain ⟨rfl, rfl⟩ := Prod.mk.inj (Option.some.inj h₁)
    exact ⟨rfl, _, rfl⟩

/-- Without a temporary dentry a walk stays at the top, or it fails. -/
theorem walk_no_temp {r : Except ℤ (Mount × ℕ)} (hm : TopMount s mnt) (hd : AtTop s (mnt, d))
    (hno : ∀ pre c post y, names = pre ++ c :: post → ¬IsDots c → (∀ c ∈ pre, IsDots c) →
      walk env.toEnv (mnt, d) pre s = some (.ok y, s) → ¬Admits env.toEnv Inode.lookup s y.2 c)
    (h : walk env.toEnv (mnt, d) names s = some (r, t)) :
    t.heap = s.heap ∧ ∀ y, r = .ok y → t = s ∧ (∀ c ∈ names, IsDots c) ∧ AtTop s y := by
  induction names generalizing d with
  | nil =>
    obtain ⟨rfl, rfl⟩ := Prod.mk.inj (Option.some.inj h)
    refine ⟨rfl, fun y hy => ⟨rfl, fun c hc => absurd hc List.not_mem_nil, ?_⟩⟩
    rw [← Except.ok.inj hy]
    exact hd
  | cons name names ih =>
    rw [walk_cons] at h
    by_cases hname : IsDots name
    · obtain ⟨d', hstep, hd'⟩ : ∃ d', walkStep env.toEnv (mnt, d) name s = some (.ok (mnt, d'), s) ∧
          AtTop s (mnt, d') := by
        by_cases hdot : name = dot
        · exact ⟨d, by rw [walkStep, if_pos hdot]; rfl, hd⟩
        · obtain ⟨d', hclimb, hd'⟩ := climb_top hm hd
          refine ⟨d', ?_, hd'⟩
          rw [walkStep, if_neg hdot, if_pos (hname.resolve_left hdot), Fallible.bind_ok hclimb]
          rfl
      rw [Fallible.bind_ok hstep] at h
      obtain ⟨hheap, hok⟩ := ih hd' (fun pre c post y he hc hpre hw => by
        refine hno (name :: pre) c post y (by rw [he, List.cons_append]) hc
          (List.forall_mem_cons.2 ⟨hname, hpre⟩) ?_
        rw [walk_cons, Fallible.bind_ok hstep, hw]) h
      refine ⟨hheap, fun y hy => ?_⟩
      obtain ⟨ht, hdots, hy⟩ := hok y hy
      exact ⟨ht, List.forall_mem_cons.2 ⟨hname, hdots⟩, hy⟩
    · have hadm := hno [] name names (mnt, d) rfl hname (fun c hc => absurd hc List.not_mem_nil) rfl
      rw [walkStep, if_neg fun he => hname (Or.inl he), if_neg fun he => hname (Or.inr he)] at h
      rcases Fallible.bind_eq_some.1 h with ⟨e, hs, rfl⟩ | ⟨y, s₁, hs, -⟩
      · rcases Fallible.bind_eq_some.1 hs with ⟨e', hl, -⟩ | ⟨z, s₂, hl, -⟩
        · exact ⟨(lookupChild_no_temp hadm hl).1, fun y hy => by cases hy⟩
        · obtain ⟨-, e', he'⟩ := lookupChild_no_temp hadm hl
          cases he'
      · obtain ⟨z, s₂, hl, -⟩ := Fallible.bind_eq_ok.1 hs
        obtain ⟨-, e', he'⟩ := lookupChild_no_temp hadm hl
        cases he'

theorem start_walk_no_temp {r : Except ℤ (Mount × ℕ)} (hs : Rooted s)
    (hno : ¬WalkTemp env.toEnv s names)
    (h : (start >>= fun x => walk env.toEnv x names : VfsM κ ι _) s = some (r, t)) :
    t.heap = s.heap ∧ ∀ y, r = .ok y → t = s ∧ Climbs env.toEnv s names y ∧ AtTop s y := by
  rcases Fallible.bind_eq_some.1 h with ⟨e, hx, rfl⟩ | ⟨x, s₁, hx, hw⟩
  · exact ⟨congrArg State.heap (start_readOnly s _ t hx).symm, fun y hy => by cases hy⟩
  obtain ⟨rfl, hm, hd⟩ := start_top hs hx
  obtain ⟨hheap, hok⟩ := walk_no_temp hm hd (fun pre c post y he hc hpre hw ha =>
    hno ⟨pre, c, post, y, he, hc, ⟨hpre, x, hx, hw⟩, ha⟩) hw
  refine ⟨hheap, fun y hy => ?_⟩
  obtain ⟨rfl, hdots, hy'⟩ := hok y hy
  exact ⟨rfl, ⟨hdots, x, hx, hy ▸ hw⟩, hy'⟩

theorem vfsLookup_no_temp {path : List U8} {r : Except ℤ (Mount × ℕ)} (hs : Rooted s)
    (hno : ¬WalkTemp env.toEnv s (components path))
    (h : vfsLookup env.toEnv path s = some (r, t)) :
    t.heap = s.heap ∧ ∀ y, r = .ok y → t = s ∧ AtTop s y := by
  rw [vfsLookup_eq] at h
  obtain ⟨hheap, hok⟩ := start_walk_no_temp hs hno h
  exact ⟨hheap, fun y hy => ⟨(hok y hy).1, (hok y hy).2.2⟩⟩

theorem newLeaf_no_temp {α : Type} {op : Inode ι → Option α} {r : Except ℤ (Inode ι × α × List U8 × ℕ)}
    (ha : name ≠ [] → ¬Admits env.toEnv (fun i => (op i).isSome) s dir name)
    (h : newLeaf env op dir name s = some (r, t)) : t.heap = s.heap ∧ ∃ e, r = .error e := by
  unfold newLeaf at h
  split_ifs at h with hname
  · obtain ⟨rfl, rfl⟩ := Prod.mk.inj (Option.some.inj h)
    exact ⟨rfl, _, rfl⟩
  rcases Fallible.bind_eq_some.1 h with ⟨e, hd, rfl⟩ | ⟨d, s₁, hd, h₁⟩
  · exact ⟨congrArg State.heap (getDentry_readOnly s _ t hd).symm, e, rfl⟩
  obtain ⟨hd, rfl⟩ := getDentry_eq_ok.1 hd
  rcases hi : d.inode with _ | i <;> rw [hi] at h₁
  · obtain ⟨rfl, rfl⟩ := Prod.mk.inj (Option.some.inj h₁)
    exact ⟨rfl, _, rfl⟩
  dsimp only at h₁
  split_ifs at h₁ with hdir
  · obtain ⟨rfl, rfl⟩ := Prod.mk.inj (Option.some.inj h₁)
    exact ⟨rfl, _, rfl⟩
  rcases hop : op i with _ | f <;> rw [hop] at h₁
  · obtain ⟨rfl, rfl⟩ := Prod.mk.inj (Option.some.inj h₁)
    exact ⟨rfl, _, rfl⟩
  · have hat : inodeAt s₁ dir = some i := inodeAt_eq_some.2 ⟨d, hd, hi⟩
    obtain ⟨fs, htmp⟩ := tmpDentry_none dir fun hpage =>
      ha hname ⟨⟨i, hat, by simpa using hdir, by simp [hop]⟩, hpage⟩
    dsimp only at h₁
    rw [Fallible.bind_ok htmp] at h₁
    obtain ⟨rfl, rfl⟩ := Prod.mk.inj (Option.some.inj h₁)
    exact ⟨rfl, _, rfl⟩

theorem leafDentry_no_temp {α : Type} {op : Inode ι → Option α} {path : List U8}
    {r : Except ℤ (Inode ι × α × List U8 × ℕ)} (hs : Rooted s)
    (hno : ¬LeafTemp env.toEnv (fun i => (op i).isSome) s (components path))
    (h : leafDentry env op path s = some (r, t)) : t.heap = s.heap ∧ ∃ e, r = .error e := by
  rw [leafDentry, vfsLookupParent_eq] at h
  simp only [bind_assoc, pure_bind] at h
  rw [← bind_assoc] at h
  rcases Fallible.bind_eq_some.1 h with ⟨e, hw, rfl⟩ | ⟨y, s₁, hw, h₁⟩
  · exact ⟨(start_walk_no_temp hs (fun hw => hno (Or.inl hw)) hw).1, e, rfl⟩
  · obtain ⟨rfl, hclimb, -⟩ := (start_walk_no_temp hs (fun hw => hno (Or.inl hw)) hw).2 y rfl
    refine newLeaf_no_temp (fun hname ha => hno (Or.inr ?_)) h₁
    rcases hl : (components path).getLast? with _ | leaf
    · rw [hl] at hname
      exact absurd rfl hname
    · rw [hl] at ha
      exact ⟨leaf, y, rfl, hclimb, ha⟩

/-- At the top `vfs_dentry_put` is not called. -/
theorem release_atTop (hx : AtTop s x) : release x.1 x.2 s = some (.ok (), s) := by
  unfold release
  rw [if_neg]
  rintro ⟨hroot, hmnt⟩
  rcases hx with hx | hx
  · exact hmnt hx.symm
  · exact hroot hx

/-- What is done with the dentry that was found at the top. -/
theorem lookup_bind_no_temp {β : Type} {path : List U8} {r : Except ℤ β}
    {f : Mount × ℕ → VfsM κ ι β} (hs : Rooted s) (hno : ¬WalkTemp env.toEnv s (components path))
    (hf : ∀ x r u, AtTop s x → f x s = some (r, u) → u.heap = s.heap)
    (h : (vfsLookup env.toEnv path >>= f) s = some (r, t)) : t.heap = s.heap := by
  rcases Fallible.bind_eq_some.1 h with ⟨e, hl, -⟩ | ⟨x, s₁, hl, h₁⟩
  · exact (vfsLookup_no_temp hs hno hl).1
  · obtain ⟨rfl, htop⟩ := (vfsLookup_no_temp hs hno hl).2 x rfl
    exact hf x r t htop h₁

/-- A leaf without a page is the end of the call. -/
theorem leaf_bind_no_temp {α β : Type} {op : Inode ι → Option α} {path : List U8}
    {r : Except ℤ β} {f : Inode ι × α × List U8 × ℕ → VfsM κ ι β} (hs : Rooted s)
    (hno : ¬LeafTemp env.toEnv (fun i => (op i).isSome) s (components path))
    (h : (leafDentry env op path >>= f) s = some (r, t)) : t.heap = s.heap := by
  rcases Fallible.bind_eq_some.1 h with ⟨e, hl, -⟩ | ⟨y, s₁, hl, -⟩
  · exact (leafDentry_no_temp hs hno hl).1
  · obtain ⟨-, e, he⟩ := leafDentry_no_temp hs hno hl
    cases he

theorem vfsStat_no_temp {path : List U8} {r : Except ℤ (ℤ × Stat)} (hs : Rooted s)
    (hno : ¬WalkTemp env.toEnv s (components path)) (h : vfsStat env path s = some (r, t)) :
    t.heap = s.heap := by
  refine lookup_bind_no_temp hs hno (fun x r u htop h₁ => ?_) h
  rcases Fallible.bind_eq_some.1 h₁ with ⟨e, hd, -⟩ | ⟨d, s₂, hd, h₂⟩
  · exact congrArg State.heap (getDentry_readOnly s _ _ hd).symm
  obtain ⟨hd, rfl⟩ := getDentry_eq_ok.1 hd
  rcases hi : d.inode with _ | i <;> rw [hi] at h₂
  · obtain ⟨-, rfl⟩ := Prod.mk.inj (Option.some.inj h₂)
    rfl
  dsimp only at h₂
  rcases hop : env.getattr i with _ | getattr <;> rw [hop] at h₂
  · obtain ⟨-, rfl⟩ := Prod.mk.inj (Option.some.inj h₂)
    rfl
  · dsimp only at h₂
    have htop' : AtTop (s₂.withFs (getattr s₂.fs).2) x := htop
    rw [Fallible.bind_ok (show fsCall getattr s₂ = some (.ok (getattr s₂.fs).1,
      s₂.withFs (getattr s₂.fs).2) from rfl), Fallible.bind_ok (release_atTop htop')] at h₂
    obtain ⟨-, rfl⟩ := Prod.mk.inj (Option.some.inj h₂)
    rfl

theorem openInode_no_temp {path : List U8} {flags mode : U32} {r : Except ℤ (Inode ι)}
    (hs : Rooted s) (hno : ¬(PathCall.openClose path flags mode).Temp env s)
    (h : openInode env path flags mode s = some (r, t)) : t.heap = s.heap := by
  simp only [PathCall.Temp] at hno
  unfold openInode at h
  split_ifs at hno h
  · exact leaf_bind_no_temp hs hno h
  refine lookup_bind_no_temp hs hno (fun x r u htop h₁ => ?_) h
  rcases Fallible.bind_eq_some.1 h₁ with ⟨e, hd, -⟩ | ⟨d, s₂, hd, h₂⟩
  · exact congrArg State.heap (getDentry_readOnly s _ _ hd).symm
  obtain ⟨hd, rfl⟩ := getDentry_eq_ok.1 hd
  rcases hi : d.inode with _ | i <;> rw [hi] at h₂
  · obtain ⟨-, rfl⟩ := Prod.mk.inj (Option.some.inj h₂)
    rfl
  · dsimp only at h₂
    rw [Fallible.bind_ok (release_atTop htop)] at h₂
    obtain ⟨-, rfl⟩ := Prod.mk.inj (Option.some.inj h₂)
    rfl

/-- A call that gets no temporary dentry leaves the heap. -/
theorem PathCall.no_temp {c : PathCall} (hs : Rooted s) (h : ¬c.Temp env s)
    (hr : c.run env s = some t) : t.heap = s.heap := by
  cases c with
  | stat path =>
    obtain ⟨⟨r, t'⟩, hx, rfl⟩ := Option.map_eq_some_iff.1 hr
    exact vfsStat_no_temp hs h hx
  | mkdir path mode =>
    obtain ⟨⟨r, t'⟩, hx, rfl⟩ := Option.map_eq_some_iff.1 hr
    exact leaf_bind_no_temp hs h hx
  | unlink path =>
    obtain ⟨⟨r, t'⟩, hx, rfl⟩ := Option.map_eq_some_iff.1 hr
    exact leaf_bind_no_temp hs h hx
  | openClose path flags mode =>
    obtain ⟨⟨r, t'⟩, hx, rfl⟩ := Option.map_eq_some_iff.1 hr
    rcases Fallible.bind_eq_some.1 hx with ⟨e, ho, -⟩ | ⟨f, s₁, ho, hclose⟩
    · rcases Fallible.bind_eq_some.1 ho with ⟨e', hi, -⟩ | ⟨i, s₂, hi, hf⟩
      · exact openInode_no_temp hs h hi
      · exact (openFile_onlyFs i s₂ _ _ hf).heap.trans (openInode_no_temp hs h hi)
    · obtain ⟨i, s₂, hi, hf⟩ := Fallible.bind_eq_ok.1 ho
      exact ((vfsClose_onlyFs f s₁ _ _ hclose).heap.trans (openFile_onlyFs i s₂ _ _ hf).heap).trans
        (openInode_no_temp hs h hi)

/-! ## Every namespace -/

theorem setInode_stays {ino : Option (Inode ι)} : Stays s a (setInode a ino : VfsM κ ι Unit) :=
  Stays.bind (Stays.of_readOnly getDentry_readOnly) fun _ => setDentry_stays

theorem fsCall_stays {α : Type} {f : κ → α × κ} : Stays s a (fsCall f : VfsM κ ι α) := by
  rintro t r u h ⟨fs, g, rfl⟩
  obtain ⟨-, rfl⟩ := Prod.mk.inj (Option.some.inj h)
  exact ⟨_, g, rfl⟩

theorem lookupLeaf_stays {i : Inode ι} : Stays s a (lookupLeaf env i name a) := by
  unfold lookupLeaf
  split_ifs
  · refine Stays.bind fsLookup_stays fun z => Stays.bind setInode_stays fun _ => ?_
    split_ifs
    · exact Stays.bind dentryPut_stays fun _ => Fallible.Keeps.throw (fun _ => id) _
    · exact Fallible.Keeps.pure (fun _ => id) _
  · exact Fallible.Keeps.pure (fun _ => id) _

/-- The directory of a leaf, and the page of its dentry. -/
theorem newLeaf_eq_ok {α : Type} {op : Inode ι → Option α} {i : Inode ι} {f : α} {leaf : List U8}
    {child : ℕ} (h : newLeaf env op dir name s = some (.ok (i, f, leaf, child), t)) :
    leaf = name ∧ inodeAt s dir = some i ∧ i.isDir = true ∧ op i = some f ∧ name.length < 256 ∧
      (env.kalloc s).1 = some child ∧
      t = (s.withFs (env.kalloc s).2).put child ⟨1, name, none, some dir, false⟩ := by
  unfold newLeaf at h
  split_ifs at h
  · cases h
  obtain ⟨d, s₁, hd, h₁⟩ := Fallible.bind_eq_ok.1 h
  obtain ⟨hd, rfl⟩ := getDentry_eq_ok.1 hd
  rcases hi : d.inode with _ | i <;> rw [hi] at h₁
  · cases h₁
  dsimp only at h₁
  split_ifs at h₁ with hdir
  · cases h₁
  rcases hop : op i with _ | f <;> rw [hop] at h₁
  · cases h₁
  dsimp only at h₁
  obtain ⟨x, s₂, htmp, h₂⟩ := Fallible.bind_eq_ok.1 h₁
  rcases x with _ | child
  · cases h₂
  have hlen : name.length < 256 := by
    by_contra hlen
    rw [tmpDentry, if_pos (Nat.le_of_not_lt hlen)] at htmp
    cases htmp
  obtain ⟨hpage, rfl⟩ := tmpDentry_some htmp
  obtain ⟨hr, rfl⟩ := Prod.mk.inj (Option.some.inj h₂)
  obtain ⟨rfl, rfl, rfl, rfl⟩ := Except.ok.inj hr
  refine ⟨rfl, ?_, by simpa using hdir, hop, hlen, hpage, rfl⟩
  rw [inodeAt, hd]
  exact hi

/-- The dentry of a leaf is in a page that was free. -/
theorem newLeaf_ok {α : Type} {op : Inode ι → Option α} {y : Inode ι × α × List U8 × ℕ}
    (h : newLeaf env op dir name s = some (.ok y, t)) :
    s.heap y.2.2.2 = none ∧
      ∃ fs, t = (s.withFs fs).put y.2.2.2 ⟨1, name, none, some dir, false⟩ := by
  obtain ⟨-, -, -, -, -, hpage, ht⟩ := newLeaf_eq_ok h
  exact ⟨env.kalloc_fresh _ _ hpage, _, ht⟩

/-- A call that only touches the dentry of its leaf, besides the walk to the parent. -/
theorem leafDentry_evolves {α β : Type} {op : Inode ι → Option α} {path : List U8}
    {f : Inode ι × α × List U8 × ℕ → VfsM κ ι β}
    (hf : ∀ s i g n child, Stays s child (f (i, g, n, child))) :
    Fallible.Keeps Evolves (leafDentry env op path >>= f) := by
  rw [leafDentry, vfsLookupParent_eq]
  simp only [bind_assoc, pure_bind]
  refine (evolves_of_readOnly start_readOnly).bind Evolves.trans fun x => ?_
  refine (walk_evolves x _).bind Evolves.trans fun y => ?_
  intro s r t h
  rcases Fallible.bind_eq_some.1 h with ⟨e, hl, -⟩ | ⟨⟨i, g, n, child⟩, s₁, hl, hr⟩
  · exact (newLeaf_grow s _ t hl).evolves
  · obtain ⟨hfree, fs, rfl⟩ := newLeaf_ok hl
    exact ((hf s i g n child _ r t hr ⟨fs, _, rfl⟩).grow hfree).evolves

theorem OnlyFs.evolves (h : OnlyFs s t) : Evolves s t := h.grow.evolves

theorem vfsStat_evolves {path : List U8} : Fallible.Keeps Evolves (vfsStat env path) := by
  refine (vfsLookup_evolves path).bind Evolves.trans fun x => ?_
  refine (evolves_of_readOnly getDentry_readOnly).bind Evolves.trans fun e => ?_
  rcases e.inode with _ | i
  · exact Fallible.Keeps.throw Evolves.refl _
  dsimp only
  rcases env.getattr i with _ | getattr
  · exact Fallible.Keeps.throw Evolves.refl _
  · exact (fsCall_onlyFs.mono fun _ _ => OnlyFs.evolves).bind Evolves.trans fun _ =>
      release_evolves.bind Evolves.trans fun _ => Fallible.Keeps.pure Evolves.refl _

theorem vfsMkdir_evolves {path : List U8} {mode : U32} :
    Fallible.Keeps Evolves (vfsMkdir env path mode) := by
  refine leafDentry_evolves fun s i mkdir n child => ?_
  refine Stays.bind fsCall_stays fun z => Stays.bind setInode_stays fun _ => ?_
  exact Stays.bind dentryPut_stays fun _ => Fallible.Keeps.pure (fun _ => id) _

theorem vfsUnlink_evolves {path : List U8} : Fallible.Keeps Evolves (vfsUnlink env path) := by
  refine leafDentry_evolves fun s i unlink n child => ?_
  refine Stays.bind lookupLeaf_stays fun _ => ?_
  refine Stays.bind (Stays.of_readOnly getDentry_readOnly) fun _ => Stays.bind fsCall_stays fun _ => ?_
  exact Stays.bind dentryPut_stays fun _ => Fallible.Keeps.pure (fun _ => id) _

theorem openInode_evolves {path : List U8} {flags mode : U32} :
    Fallible.Keeps Evolves (openInode env path flags mode) := by
  unfold openInode
  split_ifs
  · refine leafDentry_evolves fun s i create n child => ?_
    refine Stays.bind fsCall_stays fun z => Stays.bind setInode_stays fun _ => ?_
    split_ifs
    · exact Stays.bind dentryPut_stays fun _ => Fallible.Keeps.throw (fun _ => id) _
    rcases z.2 with _ | i
    · exact Stays.bind dentryPut_stays fun _ => Fallible.Keeps.throw (fun _ => id) _
    · exact Stays.bind dentryPut_stays fun _ => Fallible.Keeps.pure (fun _ => id) _
  · refine (vfsLookup_evolves path).bind Evolves.trans fun x => ?_
    refine (evolves_of_readOnly getDentry_readOnly).bind Evolves.trans fun e => ?_
    rcases e.inode with _ | i
    · exact Fallible.Keeps.throw Evolves.refl _
    · exact release_evolves.bind Evolves.trans fun _ => Fallible.Keeps.pure Evolves.refl _

theorem PathCall.evolves {c : PathCall} (hr : c.run env s = some t) : Evolves s t := by
  cases c with
  | stat path =>
    obtain ⟨⟨r, t'⟩, hx, rfl⟩ := Option.map_eq_some_iff.1 hr
    exact vfsStat_evolves s r _ hx
  | mkdir path mode =>
    obtain ⟨⟨r, t'⟩, hx, rfl⟩ := Option.map_eq_some_iff.1 hr
    exact vfsMkdir_evolves s r _ hx
  | unlink path =>
    obtain ⟨⟨r, t'⟩, hx, rfl⟩ := Option.map_eq_some_iff.1 hr
    exact vfsUnlink_evolves s r _ hx
  | openClose path flags mode =>
    obtain ⟨⟨r, t'⟩, hx, rfl⟩ := Option.map_eq_some_iff.1 hr
    have hkeeps : Fallible.Keeps Evolves
        (do vfsClose env (← vfsOpen env path flags mode) : VfsM κ ι Unit) :=
      (openInode_evolves.bind Evolves.trans fun i =>
        (openFile_onlyFs i).mono fun _ _ => OnlyFs.evolves).bind Evolves.trans fun f =>
          (vfsClose_onlyFs f).mono fun _ _ => OnlyFs.evolves
    exact hkeeps s r _ hx

theorem mounted_init {fsTypes : List (List U8)} {fs : κ} :
    Mounted (init fsTypes fs : State κ ι) :=
  ⟨fun m hm => (by cases hm), fun m hm => absurd hm List.not_mem_nil, List.Pairwise.nil⟩

theorem Mounted.callStep {c : Call} (hs : Mounted s) (h : callStep env s c = some t) : Mounted t := by
  cases c with
  | mount type device target =>
    obtain ⟨⟨r, t'⟩, hmount, rfl⟩ := Option.map_eq_some_iff.1 h
    exact hs.vfsMount hmount
  | umount sbType target =>
    obtain ⟨⟨r, t'⟩, humount, rfl⟩ := Option.map_eq_some_iff.1 h
    exact hs.vfsUmount humount
  | lookup path =>
    obtain ⟨⟨r, t'⟩, hlookup, rfl⟩ := Option.map_eq_some_iff.1 h
    exact hs.evolves (vfsLookup_evolves path s r _ hlookup)
  | path c => exact hs.evolves (PathCall.evolves h)

/-- Every namespace has a consistent mount table. -/
theorem mounted_of_calls {fsTypes : List (List U8)} {fs : κ} {calls : List Call}
    (h : Run.run (Vfs.callStep env) (init fsTypes fs) calls = some s) : Mounted s :=
  Run.run_invariant (fun _ _ _ => Mounted.callStep) mounted_init h

/-- In every namespace and for every path and outcome : the calls leave the pages of the dentries as
they were exactly if they get no temporary dentry. -/
theorem temps_freed_iff {fsTypes : List (List U8)} {fs : κ} {calls : List Call}
    (h : Run.run (callStep env) (init fsTypes fs) calls = some s) (c : PathCall)
    (hr : c.run env s = some t) : dentryPages t = dentryPages s ↔ ¬c.Temp env s := by
  constructor
  · intro he htemp
    obtain ⟨a, ha, d, hd, -⟩ := PathCall.leaks htemp hr
    have hmem : a ∈ dentryPages t := by
      rw [dentryPages, Set.mem_ofPred_eq, hd]
      rfl
    rw [he, dentryPages, Set.mem_ofPred_eq, dentryAt_eq_none ha] at hmem
    cases hmem
  · intro htemp
    have hheap := PathCall.no_temp (mounted_of_calls h).rooted htemp hr
    ext a
    rw [dentryPages, dentryPages, Set.mem_ofPred_eq, Set.mem_ofPred_eq, dentryAt_congr hheap a]

/-! ## `vfs_stat("/dev")` on initfs -/

/-- `vfs_mount("initfs", 0, "/", 0, 0)`. -/
def mountInitfs : List Call := [.mount initfs 0 [slash]]

/-- `vfs_stat("/dev")` leaves the dentry of `dev` in page 4. -/
theorem stat_leaks :
    ¬∀ calls (s : State ℕ Bool),
      Run.run (callStep bootCalls) (init [initfs, devfs] 1) calls = some s →
      ∀ c t, PathCall.run bootCalls s c = some t → dentryPages t = dentryPages s := by
  intro hall
  have hrun : ((Run.run (callStep bootCalls) (init [initfs, devfs] 1) mountInitfs).bind fun s =>
      (PathCall.run bootCalls s (.stat (slash :: dev))).map fun t =>
        ((dentryAt s 4).isSome, (dentryAt t 4).isSome)) = some (false, true) := by decide +kernel
  obtain ⟨s, hs, hstat⟩ := Option.bind_eq_some_iff.1 hrun
  obtain ⟨t, ht, heq⟩ := Option.map_eq_some_iff.1 hstat
  obtain ⟨hbefore, hafter⟩ := Prod.mk.inj heq
  have hpages := hall mountInitfs s hs _ t ht
  have hmem : 4 ∈ dentryPages t := hafter
  rw [hpages] at hmem
  exact Bool.noConfusion (hbefore.symm.trans hmem)

/-- The condition for `vfs_stat("/")` and `vfs_stat("/dev")`. -/
theorem temps_freed_iff_dev :
    ∃ s t u, Run.run (callStep bootCalls) (init [initfs, devfs] 1) mountInitfs = some s ∧
      PathCall.run bootCalls s (.stat [slash]) = some t ∧
      PathCall.run bootCalls s (.stat (slash :: dev)) = some u ∧
      (dentryPages t = dentryPages s ↔ ¬(PathCall.stat [slash]).Temp bootCalls s) ∧
      (dentryPages u = dentryPages s ↔ ¬(PathCall.stat (slash :: dev)).Temp bootCalls s) := by
  have hrun : ((Run.run (callStep bootCalls) (init [initfs, devfs] 1) mountInitfs).map fun s =>
      ((PathCall.run bootCalls s (.stat [slash])).isSome,
        (PathCall.run bootCalls s (.stat (slash :: dev))).isSome)) = some (true, true) := by
    decide +kernel
  obtain ⟨s, hs, heq⟩ := Option.map_eq_some_iff.1 hrun
  obtain ⟨hroot, hdev⟩ := Prod.mk.inj heq
  obtain ⟨t, ht⟩ := Option.isSome_iff_exists.1 hroot
  obtain ⟨u, hu⟩ := Option.isSome_iff_exists.1 hdev
  exact ⟨s, t, u, hs, ht, hu, temps_freed_iff hs _ ht, temps_freed_iff hs _ hu⟩

end Vfs

end Jeos
