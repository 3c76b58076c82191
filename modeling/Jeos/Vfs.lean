import Mathlib.Data.List.TakeWhile
import Mathlib.Logic.Function.Basic
import Jeos.Lib.Fallible
import Jeos.Types

/-!
# Path resolution and mounts

The walkers `vfs_lookup` and `vfs_lookup_parent` of `vfs.c`, with everything they call, and
`vfs_mount`. A dentry is a page of the heap; a function that reads a page that is no dentry (it
has been freed) has no result. Mounts keep their fields once they are in `g_mounts`, and are
passed as values.

The file systems, their operations and the page allocator are parameters (`Env`). A file
system's `lookup` reads the directory's inode and the name, and fills `child->inode`.
-/

namespace Jeos

namespace Vfs

/-- `struct vfs_inode`. `lookup` tells whether `iops` has a `lookup`, and `priv` belongs to the
file system. -/
structure Inode (ι : Type) where
  ino : U64
  mode : U32
  sb : ℕ
  lookup : Bool
  priv : ι

/-- `vfs_is_dir` of an inode. -/
def Inode.isDir {ι : Type} (i : Inode ι) : Bool := i.mode &&& 0o170000 == 0o040000

/-- Two inodes have one number and one superblock. -/
def Inode.Same {ι : Type} (i j : Inode ι) : Prop := i.ino = j.ino ∧ i.sb = j.sb

instance {ι : Type} (i j : Inode ι) : Decidable (i.Same j) := inferInstanceAs (Decidable (_ ∧ _))

/-- `struct vfs_dentry`. -/
structure Dentry (ι : Type) where
  refcnt : U32
  name : List U8
  inode : Option (Inode ι)
  parent : Option ℕ
  isMountpoint : Bool

/-- What a page in use holds. -/
inductive Page (ι : Type) where
  | dentry (d : Dentry ι)
  | superblock
  | mount

/-- `struct vfs_mount`, with the pages of the mount and its superblock. -/
structure Mount where
  page : ℕ
  sb : ℕ
  mountpoint : Option ℕ
  root : ℕ
  deriving DecidableEq

/-- The globals of `vfs.c` and the heap. `fs` is the state of the file systems. -/
structure State (κ ι : Type) where
  heap : ℕ → Option (Page ι)
  fsTypes : List (List U8)
  mounts : List Mount
  rootMnt : Option Mount
  rootDent : Option ℕ
  fs : κ

/-- The code outside `vfs.c` : `kalloc(1)`, `iops->lookup`, and `mount` and `unmount` of a file
system type. `mount` returns the inode of the root, whose dentry is made by `fsMount`. -/
structure Env (κ ι : Type) where
  kalloc : State κ ι → Option ℕ × κ
  kalloc_fresh : ∀ s a, (kalloc s).1 = some a → s.heap a = none
  lookup : Inode ι → List U8 → κ → ℤ × Option (Inode ι) × κ
  mount : List U8 → ℕ → ℕ → κ → ℤ × Option (Inode ι) × κ
  unmount : List U8 → ℕ → κ → κ

abbrev VfsM (κ ι : Type) := Fallible (State κ ι) ℤ

def EINVAL : ℤ := -22
def ENOENT : ℤ := -2
def ENOTDIR : ℤ := -20
def ENOSYS : ℤ := -38
def ENOMEM : ℤ := -12

/-! ## Components of a path -/

def slash : U8 := 47
def dot : List U8 := [46]
def dotdot : List U8 := [46, 46]

/-- A byte of a component. A path ends at its first 0, or with the list. -/
def isName (c : U8) : Bool := c != 0 && c != slash

/-- `vfs_next_component` : the component, and where `*p` points afterwards. -/
def nextComponent (p : List U8) : List U8 × List U8 :=
  let s := p.dropWhile (· == slash)
  (s.takeWhile isName, (s.dropWhile isName).dropWhile (· == slash))

/-- The components of a path. -/
def components (p : List U8) : List (List U8) :=
  ((p.takeWhile (· != 0)).splitOn slash).filter (· != [])

/-- A component shortens the path. -/
theorem length_nextComponent {p : List U8} (h : (nextComponent p).1 ≠ []) :
    (nextComponent p).2.length < p.length := by
  have h₁ := (List.dropWhile_suffix (l := p) (· == slash)).length_le
  have h₂ := congrArg List.length
    (List.takeWhile_append_dropWhile (p := isName) (l := p.dropWhile (· == slash)))
  have h₃ := (List.dropWhile_suffix (l := (p.dropWhile (· == slash)).dropWhile isName)
    (· == slash)).length_le
  have h₄ := List.length_pos_of_ne_nil h
  rw [List.length_append] at h₂
  simp only [nextComponent] at h₄ ⊢
  omega

theorem isName_iff {c : U8} : isName c = true ↔ c ≠ 0 ∧ c ≠ slash := by
  simp [isName]

theorem components_slash (p : List U8) : components (slash :: p) = components p := by
  rw [components, List.takeWhile_cons_of_pos (by decide), List.splitOn_cons_eq_if_modifyHead,
    if_pos (beq_self_eq_true slash), List.filter_cons_of_neg (by simp)]
  rfl

theorem components_dropWhile (p : List U8) :
    components (p.dropWhile (· == slash)) = components p := by
  induction p with
  | nil => rfl
  | cons c p ih =>
    rw [List.dropWhile_cons]
    split_ifs with h
    · rw [ih, eq_of_beq h, components_slash]
    · rfl

/-- A word in front of what is no part of a word. -/
theorem components_word {w r : List U8} (hw : ∀ c ∈ w, isName c = true) (hne : w ≠ [])
    (hr : ∀ c ∈ r.head?, isName c = false) : components (w ++ r) = w :: components r := by
  have hzero : ∀ c ∈ w, (c != 0) = true := fun c hc => bne_iff_ne.2 (isName_iff.1 (hw c hc)).1
  have hslash : slash ∉ w := fun hc => (isName_iff.1 (hw slash hc)).2 rfl
  rw [components, List.takeWhile_append_of_pos hzero]
  rcases r with _ | ⟨c, r⟩
  · rw [List.takeWhile_nil, List.append_nil, List.splitOn_eq_singleton hslash,
      List.filter_cons_of_pos (by simpa using hne)]
    rfl
  by_cases hc : c = slash
  · rw [hc, components_slash, List.takeWhile_cons_of_pos (by decide),
      List.splitOn_append_cons_self_of_not_mem hslash, List.filter_cons_of_pos (by simpa using hne)]
    rfl
  · obtain rfl : c = 0 := by
      by_contra h0
      exact Bool.noConfusion ((hr c rfl).symm.trans (isName_iff.2 ⟨h0, hc⟩))
    rw [List.takeWhile_cons_of_neg (by decide), List.append_nil, List.splitOn_eq_singleton hslash,
      List.filter_cons_of_pos (by simpa using hne)]
    rfl

theorem head_dropWhile {f : U8 → Bool} {p : List U8} :
    ∀ c ∈ (p.dropWhile f).head?, f c = false := by
  intro c hc
  have := List.head?_dropWhile_not f p
  rw [Option.mem_def.1 hc] at this
  simpa using this

/-- `vfs_next_component` yields the components one after the other. -/
theorem components_eq (p : List U8) :
    components p = if (nextComponent p).1 = [] then []
      else (nextComponent p).1 :: components (nextComponent p).2 := by
  have hlhs := (components_dropWhile p).symm
  have hnext : nextComponent p = ((p.dropWhile (· == slash)).takeWhile isName,
    ((p.dropWhile (· == slash)).dropWhile isName).dropWhile (· == slash)) := rfl
  have hhead : ∀ c ∈ (p.dropWhile (· == slash)).head?, (c == slash) = false := head_dropWhile
  rw [hlhs, hnext]
  generalize p.dropWhile (· == slash) = s at hhead
  have hword : ∀ c ∈ s.takeWhile isName, isName c = true := fun c hc => List.mem_takeWhile_imp hc
  split_ifs with hw
  · -- no word : the path is at its end
    rcases s with _ | ⟨c, r⟩
    · rfl
    · have hname : isName c = false := by simpa [List.takeWhile_cons] using hw
      have hne : c ≠ slash := by simpa using hhead c rfl
      obtain rfl : c = 0 := by
        by_contra h0
        exact Bool.noConfusion (hname.symm.trans (isName_iff.2 ⟨h0, hne⟩))
      simp [components]
  · rw [components_dropWhile]
    conv_lhs => rw [← List.takeWhile_append_dropWhile (p := isName) (l := s)]
    exact components_word hword hw head_dropWhile
theorem components_cons {p : List U8} (h : (nextComponent p).1 ≠ []) :
    components p = (nextComponent p).1 :: components (nextComponent p).2 := by
  rw [components_eq, if_neg h]

theorem components_eq_nil_iff {p : List U8} : components p = [] ↔ (nextComponent p).1 = [] := by
  rw [components_eq]
  split_ifs with h <;> simp [h]

variable {κ ι : Type}

/-! ## Dentries -/

/-- The dentry in a page, if it is one. -/
def dentryAt (s : State κ ι) (a : ℕ) : Option (Dentry ι) :=
  match s.heap a with
  | some (.dentry d) => some d
  | _ => none

def getDentry (a : ℕ) : VfsM κ ι (Dentry ι) := fun s =>
  (dentryAt s a).map fun d => (.ok d, s)

def setPage (a : ℕ) (g : Option (Page ι)) : VfsM κ ι Unit := fun s =>
  some (.ok (), { s with heap := Function.update s.heap a g })

def setDentry (a : ℕ) (d : Dentry ι) : VfsM κ ι Unit := setPage a (some (.dentry d))

def kfree (a : ℕ) : VfsM κ ι Unit := setPage a none

variable (env : Env κ ι)

/-- `kalloc(1)`, and the page is filled. -/
def kalloc (g : Page ι) : VfsM κ ι (Option ℕ) := fun s =>
  match env.kalloc s with
  | (none, fs) => some (.ok none, { s with fs := fs })
  | (some a, fs) =>
    some (.ok (some a), { s with fs := fs, heap := Function.update s.heap a (some g) })

/-- `vfs_tmp_dentry`. -/
def tmpDentry (name : List U8) (parent : ℕ) : VfsM κ ι (Option ℕ) :=
  if name.length ≥ 256 then pure none
  else kalloc env (.dentry ⟨1, name, none, some parent, false⟩)

/-- `vfs_dentry_put`. -/
def dentryPut (a : ℕ) : VfsM κ ι Unit := do
  let d ← getDentry a
  if d.refcnt - 1 = 0 ∧ d.parent = none then kfree a
  else setDentry a { d with refcnt := d.refcnt - 1 }

/-! ## Mounts -/

/-- `vfs_find_mount_by_mountpoint`. -/
def findMountByMountpoint (mp : ℕ) : VfsM κ ι (Option Mount) := fun s =>
  some (.ok (s.mounts.find? fun m => m.mountpoint = some mp), s)

/-- The loop of `vfs_find_mount_by_inode`. -/
def findByInode (i : Inode ι) : List Mount → VfsM κ ι (Option Mount)
  | [] => pure none
  | m :: ms =>
    match m.mountpoint with
    | none => findByInode i ms
    | some mp => do
      match (← getDentry mp).inode with
      | some j => if j.Same i then pure (some m) else findByInode i ms
      | none => findByInode i ms

/-- `vfs_find_mount_by_inode`. -/
def findMountByInode (i : Inode ι) : VfsM κ ι (Option Mount) := fun s =>
  findByInode i s.mounts s

/-! ## The walkers -/

/-- `iops->lookup(dir_ino, child)`. -/
def fsLookup (i : Inode ι) (name : List U8) : VfsM κ ι (ℤ × Option (Inode ι)) := fun s =>
  let (rc, ino, fs) := env.lookup i name s.fs
  some (.ok (rc, ino), { s with fs := fs })

/-- `vfs_lookup_child` : the values of `*mnt`, `*dir_dent` and `*out_child`. -/
def lookupChild (mnt : Mount) (dir : ℕ) (name : List U8) :
    VfsM κ ι (Mount × ℕ × ℕ) := do
  match (← getDentry dir).inode with
  | none => throw ENOTDIR
  | some i =>
    if i.isDir = false then throw ENOTDIR
    else if i.lookup = false then throw ENOSYS
    else
      match ← tmpDentry env name dir with
      | none => throw ENOMEM
      | some child =>
        let (rc, ino) ← fsLookup env i name
        setDentry child { ← getDentry child with inode := ino }
        if rc < 0 then do
          dentryPut child
          throw rc
        else
          match ino with
          | none => do
            dentryPut child
            throw ENOENT
          | some ino => do
            match ← findMountByInode ino with
            | some sub =>
              dentryPut child
              pure (sub, sub.root, sub.root)
            | none => pure (mnt, dir, child)

/-- `cur != g_root_dent && cur != mnt->root`, and then `vfs_dentry_put(cur)`. -/
def release (mnt : Mount) (cur : ℕ) : VfsM κ ι Unit := fun s =>
  if s.rootDent ≠ some cur ∧ mnt.root ≠ cur then dentryPut cur s else some (.ok (), s)

/-- The component `..`. -/
def climb (mnt : Mount) (cur : ℕ) : VfsM κ ι ℕ := do
  match mnt.mountpoint, decide (cur = mnt.root) with
  | some mp, true => pure mp
  | _, _ => return ((← getDentry cur).parent).getD cur

/-- A walk starts at what is mounted over the root, if anything is. -/
def followOverlay (mnt : Mount) (cur : ℕ) : VfsM κ ι (Mount × ℕ) := do
  if (← getDentry cur).isMountpoint then
    match ← findMountByMountpoint cur with
    | some overlay => pure (overlay, overlay.root)
    | none => pure (mnt, cur)
  else pure (mnt, cur)

/-- The start of a walk, with its check that there is a root. -/
def start : VfsM κ ι (Mount × ℕ) := fun s =>
  match s.rootMnt, s.rootDent with
  | some mnt, some cur => followOverlay mnt cur s
  | _, _ => some (.error EINVAL, s)

/-- The loop of `vfs_lookup`. -/
def lookupLoop (mnt : Mount) (cur : ℕ) (p : List U8) : VfsM κ ι (Mount × ℕ) :=
  if _ : (nextComponent p).1 = [] then pure (mnt, cur)
  else if (nextComponent p).1 = dot then lookupLoop mnt cur (nextComponent p).2
  else if (nextComponent p).1 = dotdot then do
    let cur ← climb mnt cur
    lookupLoop mnt cur (nextComponent p).2
  else do
    let (mnt, cur, child) ← lookupChild env mnt cur (nextComponent p).1
    release mnt cur
    lookupLoop mnt child (nextComponent p).2
termination_by p.length
decreasing_by all_goals exact length_nextComponent ‹_›

/-- `vfs_lookup`. -/
def vfsLookup (path : List U8) : VfsM κ ι (Mount × ℕ) := do
  let (mnt, cur) ← start
  lookupLoop env mnt cur (path.dropWhile (· == slash))

/-- The loop of `vfs_lookup_parent`, which stops in front of the last component. -/
def lookupParentLoop (mnt : Mount) (cur : ℕ) (p : List U8) :
    VfsM κ ι (Mount × ℕ × List U8) :=
  if _ : (nextComponent p).1 = [] then pure (mnt, cur, [])
  else if (nextComponent (nextComponent p).2).1 = [] then pure (mnt, cur, (nextComponent p).1)
  else if (nextComponent p).1 = dot then lookupParentLoop mnt cur (nextComponent p).2
  else if (nextComponent p).1 = dotdot then do
    let cur ← climb mnt cur
    lookupParentLoop mnt cur (nextComponent p).2
  else do
    let (mnt, cur, child) ← lookupChild env mnt cur (nextComponent p).1
    release mnt cur
    lookupParentLoop mnt child (nextComponent p).2
termination_by p.length
decreasing_by all_goals exact length_nextComponent ‹_›

/-- `vfs_lookup_parent` : the mount, the parent and the leaf. -/
def vfsLookupParent (path : List U8) : VfsM κ ι (Mount × ℕ × List U8) := do
  let (mnt, cur) ← start
  lookupParentLoop env mnt cur (path.dropWhile (· == slash))

/-! ## Mounting -/

/-- `type->mount(sb, device, opts)` : the result and `sb->root`. Every file system allocates the
dentry of its root last, without a parent. -/
def fsMount (type : List U8) (sb device : ℕ) : VfsM κ ι (ℤ × Option ℕ) := do
  let (rc, ino) ← (fun s =>
    let (rc, ino, fs) := env.mount type sb device s.fs
    some (.ok (rc, ino), { s with fs := fs }) : VfsM κ ι (ℤ × Option (Inode ι)))
  match ino with
  | none => pure (rc, none)
  | some ino =>
    match ← kalloc env (.dentry ⟨1, [slash], some ino, none, false⟩) with
    | none => pure (ENOMEM, none)
    | some root => pure (rc, some root)

def fsUnmount (type : List U8) (sb : ℕ) : VfsM κ ι Unit := fun s =>
  some (.ok (), { s with fs := env.unmount type sb s.fs })

/-- The dentry to mount on, or none for the first mount of `/`. -/
def mountTarget (target : List U8) : VfsM κ ι (Option ℕ) := fun s =>
  if target.takeWhile (· != 0) = [slash] ∧ s.rootMnt = none then some (.ok none, s)
  else (do
    let (_, d) ← vfsLookup env target
    match (← getDentry d).inode with
    | none => throw EINVAL
    | some i => if i.isDir then pure (some d) else throw ENOTDIR : VfsM κ ι (Option ℕ)) s

/-- A new mount becomes the root, or its mountpoint is marked; and it gets the first of the
list. -/
def addMount (mnt : Mount) : VfsM κ ι Unit := do
  match mnt.mountpoint with
  | none => fun s => some (.ok (), { s with rootMnt := some mnt, rootDent := some mnt.root })
  | some mp => setDentry mp { ← getDentry mp with isMountpoint := true }
  fun s => some (.ok (), { s with mounts := mnt :: s.mounts })

instance : LawfulBEq (List U8) := inferInstance

/-- `vfs_mount`. -/
def vfsMount (type : List U8) (device : ℕ) (target : List U8) : VfsM κ ι Unit := fun s =>
  if type ∈ s.fsTypes then
    (do
      let mp ← mountTarget env target
      match ← kalloc env .superblock with
      | none => throw ENOMEM
      | some sb =>
        let (rc, root) ← fsMount env type sb device
        if rc < 0 then do
          kfree sb
          throw rc
        else
          match root with
          | none => do
            fsUnmount env type sb
            kfree sb
            throw EINVAL
          | some root => do
            match ← kalloc env .mount with
            | none =>
              fsUnmount env type sb
              kfree sb
              throw ENOMEM
            | some page => addMount ⟨page, sb, mp, root⟩ : VfsM κ ι Unit) s
  else some (.error ENOENT, s)

/-- The state after `vfs_init`, with the file systems registered. -/
def init (fsTypes : List (List U8)) (fs : κ) : State κ ι where
  heap := fun _ => none
  fsTypes := fsTypes
  mounts := []
  rootMnt := none
  rootDent := none
  fs := fs

/-! ## Walks over components -/

/-- One component of a walk. -/
def walkStep : Mount × ℕ → List U8 → VfsM κ ι (Mount × ℕ)
  | (mnt, cur), name =>
    if name = dot then pure (mnt, cur)
    else if name = dotdot then do
      let cur ← climb mnt cur
      pure (mnt, cur)
    else do
      let (mnt, cur, child) ← lookupChild env mnt cur name
      release mnt cur
      pure (mnt, child)

/-- A walk along a list of components. -/
def walk (x : Mount × ℕ) (names : List (List U8)) : VfsM κ ι (Mount × ℕ) :=
  names.foldlM (walkStep env) x

@[simp] theorem walk_nil (x : Mount × ℕ) : walk env x [] = pure x := rfl

@[simp] theorem walk_cons (x : Mount × ℕ) (name : List U8) (names : List (List U8)) :
    walk env x (name :: names) = walkStep env x name >>= fun y => walk env y names := rfl

theorem walk_append (x : Mount × ℕ) (names names' : List (List U8)) :
    walk env x (names ++ names') = walk env x names >>= fun y => walk env y names' :=
  List.foldlM_append ..

/-- The loop of `vfs_lookup` walks along the components of the path. -/
theorem lookupLoop_eq (mnt : Mount) (cur : ℕ) (p : List U8) :
    lookupLoop env mnt cur p = walk env (mnt, cur) (components p) := by
  induction mnt, cur, p using lookupLoop.induct with
  | case1 mnt cur p h =>
    rw [lookupLoop, dif_pos h, components_eq, if_pos h, walk_nil]
  | case2 mnt cur p h hdot ih =>
    rw [lookupLoop, dif_neg h, if_pos hdot, ih, components_cons h, walk_cons, walkStep,
      if_pos hdot, pure_bind]
  | case3 mnt cur p h hdot hdotdot ih =>
    rw [lookupLoop, dif_neg h, if_neg hdot, if_pos hdotdot, components_cons h, walk_cons,
      walkStep, if_neg hdot, if_pos hdotdot, bind_assoc]
    simp only [ih, pure_bind]
  | case4 mnt cur p h hdot hdotdot ih =>
    rw [lookupLoop, dif_neg h, if_neg hdot, if_neg hdotdot, components_cons h, walk_cons,
      walkStep, if_neg hdot, if_neg hdotdot, bind_assoc]
    simp only [ih, bind_assoc, pure_bind]

theorem vfsLookup_eq (path : List U8) :
    vfsLookup env path = start >>= fun x => walk env x (components path) := by
  simp only [vfsLookup, lookupLoop_eq, components_dropWhile]

/-- The loop of `vfs_lookup_parent` walks along all components but the last one. -/
theorem lookupParentLoop_eq (mnt : Mount) (cur : ℕ) (p : List U8) :
    lookupParentLoop env mnt cur p = walk env (mnt, cur) (components p).dropLast >>= fun x =>
      pure (x.1, x.2, (components p).getLast?.getD []) := by
  induction mnt, cur, p using lookupParentLoop.induct with
  | case1 mnt cur p h =>
    rw [lookupParentLoop, dif_pos h, components_eq, if_pos h]
    rfl
  | case2 mnt cur p h hlast =>
    rw [lookupParentLoop, dif_neg h, if_pos hlast, components_eq, if_neg h, components_eq,
      if_pos hlast]
    rfl
  | case3 mnt cur p h hlast hdot ih =>
    rw [lookupParentLoop, dif_neg h, if_neg hlast, if_pos hdot, ih, components_cons h,
      List.dropLast_cons_of_ne_nil (mt components_eq_nil_iff.1 hlast), walk_cons, walkStep,
      if_pos hdot, pure_bind, List.getLast?_cons_of_ne_nil (mt components_eq_nil_iff.1 hlast)]
  | case4 mnt cur p h hlast hdot hdotdot ih =>
    rw [lookupParentLoop, dif_neg h, if_neg hlast, if_neg hdot, if_pos hdotdot, components_cons h,
      List.dropLast_cons_of_ne_nil (mt components_eq_nil_iff.1 hlast), walk_cons, walkStep,
      if_neg hdot, if_pos hdotdot, List.getLast?_cons_of_ne_nil (mt components_eq_nil_iff.1 hlast)]
    simp only [ih, bind_assoc, pure_bind]
  | case5 mnt cur p h hlast hdot hdotdot ih =>
    rw [lookupParentLoop, dif_neg h, if_neg hlast, if_neg hdot, if_neg hdotdot, components_cons h,
      List.dropLast_cons_of_ne_nil (mt components_eq_nil_iff.1 hlast), walk_cons, walkStep,
      if_neg hdot, if_neg hdotdot, List.getLast?_cons_of_ne_nil (mt components_eq_nil_iff.1 hlast)]
    simp only [ih, bind_assoc, pure_bind]

theorem vfsLookupParent_eq (path : List U8) :
    vfsLookupParent env path = start >>= fun x => walk env x (components path).dropLast >>= fun y =>
      pure (y.1, y.2, (components path).getLast?.getD []) := by
  simp only [vfsLookupParent, lookupParentLoop_eq, components_dropWhile]

end Vfs

end Jeos
