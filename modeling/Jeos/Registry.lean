import Jeos.Lib.LinkedCells
import Jeos.Lib.Run
import Jeos.MountTable

/-!
# The registry of file systems

`vfs_register_fs` and `vfs_unregister_fs` of `vfs.c`, and `vfs_mount` and `vfs_umount` once more, over
the two lists as they lie in memory : `g_fs_types` through the `next` of types that belong to the
callers, and `g_mounts` through the `next` of the mounts. The walkers of `Vfs` run over the mounts in
the order in which the list is followed; as there, a call that uses a page as a dentry that is none (it
has been freed) has no result.

A loop over a list may take `fuel` steps; a list that is longer, or does not end, gives no result.
-/

namespace Jeos

namespace Vfs

set_option linter.unusedSectionVars false

def EEXIST : ℤ := -17
def EBUSY : ℤ := -16

/-- `struct vfs_fs_type` without its `next`. -/
structure FsType (κ ι : Type) where
  name : Option (List U8)
  mount : Option (ℕ → ℕ → κ → ℤ × Option (Inode ι) × κ)
  unmount : Option (ℕ → κ → κ)

/-- The globals of `vfs.c` and the memory. -/
structure Registry (κ ι : Type) where
  heap : ℕ → Option (Page ι)
  fs : κ
  /-- `g_fs_types`, and the `next` of each type. -/
  typeLinks : Option ℕ → Option ℕ
  /-- `g_mounts`, and the `next` of each mount. -/
  mountLinks : Option ℕ → Option ℕ
  /-- The other fields of the mount in a page. -/
  mountAt : ℕ → Mount
  /-- `sb->type`. -/
  sbType : ℕ → Option ℕ
  rootMnt : Option ℕ
  rootDent : Option ℕ

abbrev RegistryM (κ ι : Type) := Fallible (Registry κ ι) ℤ

namespace Registry

variable {κ ι : Type}

/-- What the walkers see, over a list of mounts. -/
def state (s : Registry κ ι) (mounts : List Mount) : State κ ι where
  heap := s.heap
  fsTypes := []
  mounts := mounts
  rootMnt := s.rootMnt.map s.mountAt
  rootDent := s.rootDent
  fs := s.fs

/-- `vfs_init`. -/
def vfsInit (s : Registry κ ι) : Registry κ ι :=
  { s with
    typeLinks := Function.update s.typeLinks none none
    mountLinks := Function.update s.mountLinks none none
    rootMnt := none
    rootDent := none }

variable (fuel : ℕ)

/-- The mounts in the order of the list. -/
def mounts (s : Registry κ ι) : Option (List Mount) :=
  ((LinkStore.links ℕ).toList fuel s.mountLinks none).map fun ps => ps.reduceOption.map s.mountAt

/-- A computation that leaves the lists. -/
def overMounts {α : Type} (x : VfsM κ ι α) : RegistryM κ ι α := fun s =>
  (s.mounts fuel).bind fun ms => (x (s.state ms)).map fun (r, t) =>
    (r, { s with heap := t.heap, fs := t.fs })

/-- A loop over `g_fs_types` : the cell with the first type with `p`. -/
def findType (p : Option ℕ → Bool) : RegistryM κ ι (Option (Option ℕ)) := fun s =>
  ((LinkStore.links ℕ).find p fuel s.typeLinks none).map fun c => (.ok c, s)

/-- A loop over `g_mounts` : the cell with the first mount with `p`. -/
def findMount (p : Registry κ ι → Mount → Bool) : RegistryM κ ι (Option (Option ℕ)) := fun s =>
  ((LinkStore.links ℕ).find (fun a => (a.map s.mountAt).any (p s)) fuel s.mountLinks none).map
    fun c => (.ok c, s)

/-- The string behind a pointer. -/
def cstr (p : List U8) : List U8 := p.takeWhile (· != 0)

variable (env : CallEnv κ ι) (types : ℕ → FsType κ ι)

/-- The name of the type is `name`, as `kstrcmp` compares them. -/
def hasName (name : List U8) (t : Option ℕ) : Bool :=
  (t.bind fun t => (types t).name).any fun n => cstr n == cstr name

/-- `vfs_find_fs`. -/
def vfsFindFs (name : List U8) : RegistryM κ ι (Option ℕ) := do
  let c ← findType fuel (hasName types name)
  fun s => some (.ok (c.bind s.typeLinks), s)

/-- `vfs_register_fs`. -/
def vfsRegisterFs : Option ℕ → RegistryM κ ι Unit
  | none => throw EINVAL
  | some t =>
    match (types t).name, (types t).mount with
    | some name, some _ => do
      match ← vfsFindFs fuel types name with
      | some _ => throw EEXIST
      | none => fun s => some (.ok (), { s with
          typeLinks := (LinkStore.links ℕ).push s.typeLinks none (some t) })
    | _, _ => throw EINVAL

/-- `vfs_unregister_fs`. -/
def vfsUnregisterFs : Option ℕ → RegistryM κ ι Unit
  | none => throw EINVAL
  | some t => do
    match ← findMount fuel (fun s m => s.sbType m.sb == some t) with
    | some _ => throw EBUSY
    | none =>
      match ← findType fuel (· == some t) with
      | none => throw ENOENT
      | some pp => fun s => some (.ok (), { s with
          typeLinks := Function.update
            (Function.update s.typeLinks pp (s.typeLinks (some t))) (some t) none })

/-- The file system behind a type. -/
def withType (t : FsType κ ι) (mount : ℕ → ℕ → κ → ℤ × Option (Inode ι) × κ) : CallEnv κ ι :=
  { env with mount := fun _ => mount, unmount := fun _ => t.unmount.getD fun _ fs => fs }

/-- The writes of `vfs_mount` to its mount and superblock, and to the list. -/
def addMount (t : ℕ) (m : Mount) : RegistryM κ ι Unit := do
  fun s => some (.ok (), { s with
    sbType := Function.update s.sbType m.sb (some t)
    mountAt := Function.update s.mountAt m.page m })
  match m.mountpoint with
  | none => fun s => some (.ok (), { s with rootMnt := some m.page, rootDent := some m.root })
  | some mp => overMounts fuel do setDentry mp { ← getDentry mp with isMountpoint := true }
  fun s => some (.ok (), { s with
    mountLinks := (LinkStore.links ℕ).push s.mountLinks none (some m.page) })

/-- `vfs_mount`. -/
def vfsMount (typeName : Option (List U8)) (device : ℕ) (target : Option (List U8)) :
    RegistryM κ ι Unit :=
  match typeName, target with
  | some name, some path => do
    match ← vfsFindFs fuel types name with
    | none => throw ENOENT
    | some t =>
      match (types t).mount with
      | none => fun _ => none
      | some mount =>
        let m ← overMounts fuel (newMount (withType env (types t) mount).toEnv name device path)
        addMount fuel t m
  | _, _ => throw EINVAL

/-- The end of `vfs_umount` : `type->unmount`, and the pages of the mount. -/
def freeMount (m : Mount) : RegistryM κ ι Unit := fun s =>
  let unmount := ((s.sbType m.sb).bind fun t => (types t).unmount).getD fun _ fs => fs
  some (.ok (), { s with
    fs := unmount m.sb s.fs
    heap := Function.update (Function.update s.heap m.sb none) m.page none })

/-- `vfs_umount`. -/
def vfsUmount (target : Option (List U8)) : RegistryM κ ι Unit :=
  match target with
  | none => throw EINVAL
  | some path => do
    let (_, d) ← overMounts fuel (vfsLookup env.toEnv path)
    match ← findMount fuel (fun _ m => m.mountpoint == some d) with
    | none => throw ENOENT
    | some pp => fun s =>
      match s.mountLinks pp with
      | none => none
      | some a => (do
        -- `mnt->refcnt` is 1, which only `vfs_mount` writes
        overMounts fuel do setDentry d { ← getDentry d with isMountpoint := false }
        (fun s => some (.ok (), { s with
          mountLinks := Function.update s.mountLinks pp (s.mountLinks (some a)) }) : RegistryM κ ι Unit)
        freeMount types (s.mountAt a) : RegistryM κ ι Unit) s

/-- A call of one of the four. -/
inductive Call where
  | register (type : Option ℕ)
  | unregister (type : Option ℕ)
  | mount (typeName : Option (List U8)) (device : ℕ) (target : Option (List U8))
  | umount (target : Option (List U8))

/-- The state after a call, with any result. -/
def step (s : Registry κ ι) : Call → Option (Registry κ ι)
  | .register t => (vfsRegisterFs fuel types t s).map Prod.snd
  | .unregister t => (vfsUnregisterFs fuel t s).map Prod.snd
  | .mount typeName device target =>
    (vfsMount fuel env types typeName device target s).map Prod.snd
  | .umount target => (vfsUmount fuel env types target s).map Prod.snd

end Registry

end Vfs

end Jeos
