import Jeos.DotDot

/-!
# The calls that take a path

`vfs_stat`, `vfs_mkdir`, `vfs_unlink`, `vfs_open` with `vfs_close`, and `vfs_umount` of `vfs.c`, over
the walkers. The operations of the file systems are parameters; they fill the inode of a child and
touch no other dentry.

The page of a file is not in the heap of the namespace, since nothing here reads it.
-/

namespace Jeos

namespace Vfs

set_option linter.unusedSectionVars false

/-- `struct vfs_stat`. -/
structure Stat where
  ino : U64
  mode : U32
  nlink : U32
  uid : U32
  gid : U32
  size : U64
  blocks : U64
  atime : U64
  mtime : U64
  ctime : U64

/-- The operations of the file systems besides `lookup`, each where `iops` or `fops` has it. -/
structure CallEnv (κ ι : Type) extends Env κ ι where
  getattr : Inode ι → Option (κ → (ℤ × Stat) × κ)
  create : Inode ι → Option (List U8 → U32 → κ → (ℤ × Option (Inode ι)) × κ)
  mkdir : Inode ι → Option (List U8 → U32 → κ → (ℤ × Option (Inode ι)) × κ)
  unlink : Inode ι → Option (List U8 → Option (Inode ι) → κ → ℤ × κ)
  openFile : Inode ι → Option (κ → ℤ × κ)
  closeFile : Inode ι → Option (κ → ℤ × κ)

/-- `VFS_O_CREAT`. -/
def oCreat : U32 := 0x0100

/-- `struct vfs_file` with its page, as `vfs_open` returns it. -/
structure File (ι : Type) where
  page : ℕ
  refcnt : U32
  flags : U32
  pos : U64
  inode : Inode ι

variable {κ ι : Type}

/-- A call into a file system. -/
def fsCall {α : Type} (f : κ → α × κ) : VfsM κ ι α := fun s =>
  some (.ok (f s.fs).1, { s with fs := (f s.fs).2 })

/-- `child->inode = ino;` -/
def setInode (child : ℕ) (ino : Option (Inode ι)) : VfsM κ ι Unit := do
  setDentry child { ← getDentry child with inode := ino }

variable (env : CallEnv κ ι)

/-- `vfs_stat`. -/
def vfsStat (path : List U8) : VfsM κ ι (ℤ × Stat) := do
  let (mnt, d) ← vfsLookup env.toEnv path
  match (← getDentry d).inode with
  | none => throw ENOENT
  | some i =>
    match env.getattr i with
    | none => throw ENOSYS
    | some getattr =>
      let r ← fsCall getattr
      release mnt d
      pure r

/-- The dentry of `leaf` in `dir`, with the inode of `dir` and its operation `op`. -/
def newLeaf {α : Type} (op : Inode ι → Option α) (dir : ℕ) (leaf : List U8) :
    VfsM κ ι (Inode ι × α × List U8 × ℕ) := do
  if leaf = [] then throw EINVAL
  else
    match (← getDentry dir).inode with
    | none => throw ENOTDIR
    | some i =>
      if i.isDir = false then throw ENOTDIR
      else
        match op i with
        | none => throw ENOSYS
        | some f =>
          match ← tmpDentry env.toEnv leaf dir with
          | none => throw ENOMEM
          | some child => pure (i, f, leaf, child)

/-- The start of `vfs_mkdir`, `vfs_unlink` and `vfs_open` with `VFS_O_CREAT`. -/
def leafDentry {α : Type} (op : Inode ι → Option α) (path : List U8) :
    VfsM κ ι (Inode ι × α × List U8 × ℕ) := do
  let (_, dir, leaf) ← vfsLookupParent env.toEnv path
  newLeaf env op dir leaf

/-- `vfs_mkdir`. -/
def vfsMkdir (path : List U8) (mode : U32) : VfsM κ ι ℤ := do
  let (_, mkdir, leaf, child) ← leafDentry env env.mkdir path
  let (rc, ino) ← fsCall (mkdir leaf mode)
  setInode child ino
  dentryPut child
  pure rc

/-- The lookup of `vfs_unlink`, which fills the inode of the leaf. -/
def lookupLeaf (i : Inode ι) (leaf : List U8) (child : ℕ) : VfsM κ ι Unit := do
  if i.lookup = true then
    let (lrc, ino) ← fsLookup env.toEnv i leaf
    setInode child ino
    if lrc < 0 then do
      dentryPut child
      throw lrc
    else pure ()
  else pure ()

/-- `vfs_unlink`. -/
def vfsUnlink (path : List U8) : VfsM κ ι ℤ := do
  let (i, unlink, leaf, child) ← leafDentry env env.unlink path
  lookupLeaf env i leaf child
  let rc ← fsCall (unlink leaf (← getDentry child).inode)
  dentryPut child
  pure rc

/-- The inode that `vfs_open` opens. -/
def openInode (path : List U8) (flags mode : U32) : VfsM κ ι (Inode ι) := do
  if flags &&& oCreat ≠ 0 then
    let (_, create, leaf, child) ← leafDentry env env.create path
    let (rc, ino) ← fsCall (create leaf mode)
    setInode child ino
    if rc < 0 then do
      dentryPut child
      throw rc
    else
      match ino with
      | none => do
        dentryPut child
        throw EINVAL
      | some i => do
        dentryPut child
        pure i
  else
    let (mnt, d) ← vfsLookup env.toEnv path
    match (← getDentry d).inode with
    | none => throw ENOENT
    | some i =>
      release mnt d
      pure i

/-- `kalloc(1)` for a file. -/
def kallocFile : VfsM κ ι (Option ℕ) := fun s =>
  some (.ok (env.kalloc s).1, { s with fs := (env.kalloc s).2 })

/-- The second part of `vfs_open`, which makes the file. -/
def openFile (flags : U32) (i : Inode ι) : VfsM κ ι (File ι) := do
  match ← kallocFile env with
  | none => throw ENOMEM
  | some page =>
    match env.openFile i with
    | none => pure ⟨page, 1, flags, 0, i⟩
    | some op =>
      let rc ← fsCall op
      -- `vfs_file_put` frees the file
      if rc < 0 then throw rc else pure ⟨page, 1, flags, 0, i⟩

/-- `vfs_open`. -/
def vfsOpen (path : List U8) (flags mode : U32) : VfsM κ ι (File ι) := do
  openFile env flags (← openInode env path flags mode)

/-- `vfs_close`. -/
def vfsClose (f : File ι) : VfsM κ ι Unit := do
  match env.closeFile f.inode with
  | none => pure ()
  | some op =>
    let rc ← fsCall op
    if rc < 0 then throw rc

/-- The loop of `vfs_umount` : the first mount on the dentry `d`. -/
def umountFrom (sbType : ℕ → List U8) (d : ℕ) : List Mount → List Mount → VfsM κ ι Unit
  | _, [] => throw ENOENT
  | before, m :: ms =>
    if m.mountpoint = some d then do
      -- `mnt->refcnt` is 1, which only `vfs_mount` writes
      setDentry d { ← getDentry d with isMountpoint := false }
      (fun s => some (.ok (), { s with mounts := before ++ ms }) : VfsM κ ι Unit)
      fsUnmount env.toEnv (sbType m.sb) m.sb
      kfree m.sb
      kfree m.page
    else umountFrom sbType d (before ++ [m]) ms

/-- `vfs_umount`, where `sbType` is `sb->type` of each superblock. -/
def vfsUmount (sbType : ℕ → List U8) (target : List U8) : VfsM κ ι Unit := do
  let (_, d) ← vfsLookup env.toEnv target
  fun s => umountFrom env sbType d [] s.mounts s

/-- The file systems of `bootEnv`, with `getattr`. -/
def bootCalls : CallEnv ℕ Bool where
  toEnv := bootEnv
  getattr i := some fun n => ((0, ⟨i.ino, i.mode, 1, 0, 0, 0, 0, 0, 0, 0⟩), n)
  create _ := none
  mkdir _ := none
  unlink _ := none
  openFile _ := none
  closeFile _ := none

end Vfs

end Jeos
