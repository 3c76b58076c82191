import Jeos.TempDentries

/-!
# Puts of a counter at zero

The calls with another `vfs_dentry_put` : with `dentryPut` they are the calls themselves
(`PathCall.runWith_dentryPut`), and with `strictPut`, which has no result on a dentry without a
reference, they have the result of the call exactly if no put of the call meets such a dentry
(`PutsCount`).
-/

namespace Jeos

namespace Vfs

set_option linter.unusedSectionVars false

variable {κ ι : Type}

/-- `vfs_dentry_put` of a dentry with a reference. -/
def strictPut (a : ℕ) : VfsM κ ι Unit := do
  if (← getDentry a).refcnt = 0 then fun _ => none else dentryPut a

section With

variable (env : CallEnv κ ι) (put : ℕ → VfsM κ ι Unit)

def lookupChildWith (mnt : Mount) (dir : ℕ) (name : List U8) : VfsM κ ι (Mount × ℕ × ℕ) := do
  match (← getDentry dir).inode with
  | none => throw ENOTDIR
  | some i =>
    if i.isDir = false then throw ENOTDIR
    else if i.lookup = false then throw ENOSYS
    else
      match ← tmpDentry env.toEnv name dir with
      | none => throw ENOMEM
      | some child =>
        let (rc, ino) ← fsLookup env.toEnv i name
        setDentry child { ← getDentry child with inode := ino }
        if rc < 0 then do
          put child
          throw rc
        else
          match ino with
          | none => do
            put child
            throw ENOENT
          | some ino => do
            match ← findMountByInode ino with
            | some sub =>
              put child
              pure (sub, sub.root, sub.root)
            | none => pure (mnt, dir, child)

def releaseWith (mnt : Mount) (cur : ℕ) : VfsM κ ι Unit := fun s =>
  if s.rootDent ≠ some cur ∧ mnt.root ≠ cur then put cur s else some (.ok (), s)

def walkStepWith : Mount × ℕ → List U8 → VfsM κ ι (Mount × ℕ)
  | (mnt, cur), name =>
    if name = dot then pure (mnt, cur)
    else if name = dotdot then do
      let cur ← climb mnt cur
      pure (mnt, cur)
    else do
      let (mnt, cur, child) ← lookupChildWith env put mnt cur name
      releaseWith put mnt cur
      pure (mnt, child)

def walkWith (x : Mount × ℕ) (names : List (List U8)) : VfsM κ ι (Mount × ℕ) :=
  names.foldlM (walkStepWith env put) x

/-- The components of a path from its start. -/
def startWalkWith (names : List (List U8)) : VfsM κ ι (Mount × ℕ) := do
  walkWith env put (← start) names

def vfsLookupWith (path : List U8) : VfsM κ ι (Mount × ℕ) :=
  startWalkWith env put (components path)

def vfsStatWith (path : List U8) : VfsM κ ι (ℤ × Stat) := do
  let (mnt, d) ← vfsLookupWith env put path
  match (← getDentry d).inode with
  | none => throw ENOENT
  | some i =>
    match env.getattr i with
    | none => throw ENOSYS
    | some getattr =>
      let r ← fsCall getattr
      releaseWith put mnt d
      pure r

def leafDentryWith {α : Type} (op : Inode ι → Option α) (path : List U8) :
    VfsM κ ι (Inode ι × α × List U8 × ℕ) := do
  let (_, dir) ← startWalkWith env put (components path).dropLast
  newLeaf env op dir ((components path).getLast?.getD [])

def vfsMkdirWith (path : List U8) (mode : U32) : VfsM κ ι ℤ := do
  let (_, mkdir, leaf, child) ← leafDentryWith env put env.mkdir path
  let (rc, ino) ← fsCall (mkdir leaf mode)
  setInode child ino
  put child
  pure rc

def lookupLeafWith (i : Inode ι) (leaf : List U8) (child : ℕ) : VfsM κ ι Unit := do
  if i.lookup = true then
    let (lrc, ino) ← fsLookup env.toEnv i leaf
    setInode child ino
    if lrc < 0 then do
      put child
      throw lrc
    else pure ()
  else pure ()

def vfsUnlinkWith (path : List U8) : VfsM κ ι ℤ := do
  let (i, unlink, leaf, child) ← leafDentryWith env put env.unlink path
  lookupLeafWith env put i leaf child
  let rc ← fsCall (unlink leaf (← getDentry child).inode)
  put child
  pure rc

def openInodeWith (path : List U8) (flags mode : U32) : VfsM κ ι (Inode ι) := do
  if flags &&& oCreat ≠ 0 then
    let (_, create, leaf, child) ← leafDentryWith env put env.create path
    let (rc, ino) ← fsCall (create leaf mode)
    setInode child ino
    if rc < 0 then do
      put child
      throw rc
    else
      match ino with
      | none => do
        put child
        throw EINVAL
      | some i => do
        put child
        pure i
  else
    let (mnt, d) ← vfsLookupWith env put path
    match (← getDentry d).inode with
    | none => throw ENOENT
    | some i =>
      releaseWith put mnt d
      pure i

def PathCall.runWith (s : State κ ι) : PathCall → Option (State κ ι)
  | .stat path => (vfsStatWith env put path s).map Prod.snd
  | .mkdir path mode => (vfsMkdirWith env put path mode s).map Prod.snd
  | .unlink path => (vfsUnlinkWith env put path s).map Prod.snd
  | .openClose path flags mode =>
    ((do vfsClose env (← openFile env flags (← openInodeWith env put path flags mode)) :
      VfsM κ ι Unit) s).map Prod.snd

end With

variable {env : CallEnv κ ι} {s : State κ ι} {path : List U8}

theorem vfsLookupWith_dentryPut : vfsLookupWith env dentryPut path = vfsLookup env.toEnv path := by
  rw [vfsLookup_eq]
  rfl

theorem leafDentryWith_dentryPut {α : Type} {op : Inode ι → Option α} :
    leafDentryWith env dentryPut op path = leafDentry env op path := by
  rw [leafDentry, vfsLookupParent_eq, leafDentryWith, startWalkWith]
  simp only [bind_assoc, pure_bind]
  rfl

theorem openInodeWith_dentryPut {flags mode : U32} :
    openInodeWith env dentryPut path flags mode = openInode env path flags mode := by
  rw [openInodeWith, leafDentryWith_dentryPut, vfsLookupWith_dentryPut]
  rfl

/-- With `vfs_dentry_put` the calls are those of `vfs.c`. -/
theorem PathCall.runWith_dentryPut (c : PathCall) : c.runWith env dentryPut s = c.run env s := by
  cases c with
  | stat path =>
    rw [runWith, vfsStatWith, vfsLookupWith_dentryPut]
    rfl
  | mkdir path mode =>
    rw [runWith, vfsMkdirWith, leafDentryWith_dentryPut]
    rfl
  | unlink path =>
    rw [runWith, vfsUnlinkWith, leafDentryWith_dentryPut]
    rfl
  | openClose path flags mode =>
    rw [runWith, openInodeWith_dentryPut, run]
    simp only [vfsOpen, bind_assoc]

/-- No `vfs_dentry_put` of the call decrements a counter that is 0. The puts of `vfs_mount` and
`vfs_umount` are those of the lookup of the target. -/
def PutsCount (env : CallEnv κ ι) (s : State κ ι) : Call → Prop
  | .mount type _ target => type ∈ s.fsTypes → ¬(target.takeWhile (· != 0) = [slash] ∧ s.rootMnt = none) →
    vfsLookupWith env strictPut target s = vfsLookup env.toEnv target s
  | .umount _ target => vfsLookupWith env strictPut target s = vfsLookup env.toEnv target s
  | .lookup path => vfsLookupWith env strictPut path s = vfsLookup env.toEnv path s
  | .path c => c.runWith env strictPut s = c.run env s

end Vfs

end Jeos
