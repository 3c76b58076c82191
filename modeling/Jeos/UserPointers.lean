import Jeos.FileOps
import Jeos.Files
import Jeos.Vfs

/-!
# System calls and user pointers

`syscall_handler` with the functions it passes a user pointer to : which addresses a call
accesses because of its arguments, and what it returns. The calls are those of `syscall.c`,
with `proc_exec`, `read_elf` and `setup_user_stack` of `proc.c`, and `vfs_open`, `vfs_read`,
`vfs_write`, `vfs_fstat` and `vfs_stat` of `vfs.c`.

`Kernel` is the state before the call, with what the call meets outside this code. The memory is
total, and an address without a page counts as 0 : a fault ends the kernel. It does not change
before `proc_exec` switches to the new page tables, and then it is the image of the program.
Bytes read twice are listed once.
-/

namespace Jeos

namespace UserPointers

/-- What a call does : the ranges it reads or writes because of its arguments, and the value it
returns, if it returns. -/
structure Outcome where
  touched : List (Extent 64)
  result : Option U64

/-- `return -1` at once. -/
def Outcome.fail : Outcome := ⟨[], some (-1)⟩

/-- The ranges that a function of `vfs.c` accesses, and its result, if it returns. -/
abbrev Reply (α : Type) := List (Extent 64) × Option (Except ℤ α)

/-- `if (x != VFS_OK) return -1; return 0;` -/
def Reply.check : Reply Unit → Outcome
  | (es, none) => ⟨es, none⟩
  | (es, some (.error _)) => ⟨es, some (-1)⟩
  | (es, some (.ok ())) => ⟨es, some 0⟩

/-- A `struct vfs_file` : the operations in its `fops`, and the fields of `struct vfs_stat` that
the `getattr` of its inode fills. -/
structure OpenFile where
  read : Option FileOp
  write : Option FileOp
  getattr : Option (List (Fin 10))

/-- An end of a new pipe. Its `fops` and the `iops` of its inode are 0. -/
def pipeEnd : OpenFile := ⟨none, none, none⟩

/-- How `read_elf`, `create_user_pml4` and `elf_load_segments` end for a path that is resolved. A
program that is loaded has a memory image. -/
inductive Elf where
  | unreadable
  | unloadable
  | loaded (image : Mem)

/-- The system calls. -/
inductive Syscall where
  | sysExit
  | sysWrite
  | sysGetpid
  | sysExec
  | sysFork
  | sysOpen
  | sysClose
  | sysRead
  | sysSeek
  | sysFstat
  | sysStat
  | sysWait
  | sysDup
  | sysDup2
  | sysBrk
  | sysPipe
  | sysFbinfo
  | unknown
  deriving DecidableEq

/-- The numbers of `syscall.h`. -/
def Syscall.ofNumber (num : U64) : Syscall :=
  match num.toNat with
  | 0 => .sysExit
  | 1 => .sysWrite
  | 2 => .sysGetpid
  | 3 => .sysExec
  | 4 => .sysFork
  | 5 => .sysOpen
  | 6 => .sysClose
  | 7 => .sysRead
  | 8 => .sysSeek
  | 9 => .sysFstat
  | 10 => .sysStat
  | 11 => .sysWait
  | 12 => .sysDup
  | 13 => .sysDup2
  | 14 => .sysBrk
  | 15 => .sysPipe
  | 16 => .sysFbinfo
  | _ => .unknown

/-- The state before a call. -/
structure Kernel (κ ι : Type) where
  mem : Mem
  /-- The descriptors of `current_proc`, if there is a current process. -/
  files : Option (Fin maxFds → Option OpenFile)
  env : Vfs.Env κ ι
  vfs : Vfs.State κ ι
  /-- `vfs_open` with these flags gives a file for what `vfs_lookup` found. -/
  opens : U32 → Vfs.Mount × ℕ → Bool
  /-- The `getattr` of the inode that `vfs_lookup` found, if there is one. -/
  getattr : Vfs.Mount × ℕ → Option (List (Fin 10))
  elf : Vfs.Mount × ℕ → Elf
  /-- The pid of the child that `sys_wait` finds, unless it waits forever. -/
  child : Option U32
  /-- `pipe_create` succeeds. -/
  pipeCreated : Bool
  /-- The result of a call that is passed no pointer. -/
  plain : Syscall → U64 → U64 → U64 → Option U64

/-! ## Structures, strings and arrays -/

/-- Field `k` of the structure at `p`. -/
def fieldExtent (fs : List CType) (p : U64) (k : Fin fs.length) : Extent 64 :=
  ⟨fieldAddr fs p k, (fs.get k).size⟩

/-- `struct fb_info`. -/
abbrev fbInfoFields : List CType := [.u32, .u32, .u32, .u32, .u64, .u64]

/-- The pointers of the array at `argv`, with the 0 at its end, and the strings they point to.
`argc` is a number here and does not overflow. -/
def argvExtents (mem : Mem) (argv : U64) : List (Extent 64) :=
  let ptrs := words mem (2 ^ 64) argv
  ⟨argv, 8 * (ptrs.length + 1)⟩ :: ptrs.map (stringExtent mem)

/-- The extents `setup_user_stack` reads. -/
def setupUserStack (mem : Mem) (argv : U64) : List (Extent 64) :=
  if argv = 0 then [] else argvExtents mem argv

namespace Kernel

variable {κ ι : Type} (k : Kernel κ ι)

/-! ## Paths -/

/-- What is left of the path `p` when `vfs_lookup` ends. -/
def pathRest (x : Vfs.Mount × ℕ) (p : List U8) (s : Vfs.State κ ι) : List U8 :=
  if _ : (Vfs.nextComponent p).1 = [] then (Vfs.nextComponent p).2
  else match Vfs.walkStep k.env x (Vfs.nextComponent p).1 s with
    | some (.ok y, t) => pathRest y (Vfs.nextComponent p).2 t
    | _ => (Vfs.nextComponent p).2
termination_by p.length
decreasing_by exact Vfs.length_nextComponent ‹_›

/-- How many bytes of the path at `path` `vfs_lookup` reads : none if there is no root, else all
it passed and the one it stands at. -/
def pathReads (path : U64) : ℕ :=
  match Vfs.start k.vfs with
  | some (.ok x, s) =>
    (stringAt k.mem path).length - (k.pathRest x (stringAt k.mem path) s).length + 1
  | _ => 0

/-- The bytes that `vfs_lookup` reads, and its result. -/
def vfsLookup (path : U64) : Reply (Vfs.Mount × ℕ) :=
  if path = 0 then ([], some (.error Vfs.EINVAL))
  else ([⟨path, k.pathReads path⟩],
    (Vfs.vfsLookup k.env (stringAt k.mem path) k.vfs).map Prod.fst)

/-! ## Descriptors -/

/-- `fd_get`. A negative `fd` is at least `2 ^ 31` as an unsigned number. -/
def fdGet (files : Fin maxFds → Option OpenFile) (fd : U32) : Option OpenFile :=
  if h : fd.toNat < maxFds then files ⟨fd.toNat, h⟩ else none

/-- `fd_alloc` : the descriptor. -/
def fdAlloc (files : Fin maxFds → Option OpenFile) : Option (Fin maxFds) :=
  (List.finRange maxFds).find? fun fd => (files fd).isNone

/-- `current_proc` and then `fd_get` of the low half of `fd`. -/
def currentFile (fd : U64) : Option OpenFile :=
  k.files.bind fun files => fdGet files (fd.setWidth 32)

/-! ## `vfs.c` -/

/-- `vfs_read` and `vfs_write`, by the operation in `f->fops`. -/
def vfsTransfer (op : Option FileOp) (buf count : U64) : Outcome :=
  if buf = 0 then ⟨[], some vfsEINVAL⟩
  else match op with
    | none => ⟨[], some vfsENOSYS⟩
    | some op => ⟨[⟨buf, (op.run count).1⟩], (op.run count).2⟩

/-- `vfs_read`. -/
def vfsRead (f : OpenFile) (buf count : U64) : Outcome := vfsTransfer f.read buf count

/-- `vfs_write`. -/
def vfsWrite (f : OpenFile) (buf count : U64) : Outcome := vfsTransfer f.write buf count

/-- `getattr(inode, st)`, after the checks for 0. -/
def fillStat (getattr : Option (List (Fin 10))) (st : U64) : Reply Unit :=
  match getattr with
  | none => ([], some (.error Vfs.ENOSYS))
  | some fields => (fields.map (fieldExtent vfsStatFields st), some (.ok ()))

/-- `vfs_fstat`. -/
def vfsFstat (f : OpenFile) (st : U64) : Reply Unit :=
  if st = 0 then ([], some (.error Vfs.EINVAL)) else fillStat f.getattr st

/-- `vfs_stat`. -/
def vfsStat (path st : U64) : Reply Unit :=
  if path = 0 ∨ st = 0 then ([], some (.error Vfs.EINVAL))
  else match k.vfsLookup path with
    | (es, none) => (es, none)
    | (es, some (.error e)) => (es, some (.error e))
    | (es, some (.ok x)) =>
      (es ++ (fillStat (k.getattr x) st).1, (fillStat (k.getattr x) st).2)

/-! ## `syscall.c` -/

/-- The flags for `vfs_open`. -/
def openFlags (flags : U64) : U32 :=
  if flags &&& 3 = 1 then 0x0002 else if flags &&& 3 = 2 then 0x0003 else 0x0001

/-- `sys_open`. The flags have no `VFS_O_CREAT`, so `vfs_open` resolves the path by
`vfs_lookup`. -/
def sysOpen (path flags : U64) : Outcome :=
  match k.files with
  | none => .fail
  | some files =>
    if validUserPtr path then
      match k.vfsLookup path with
      | (es, none) => ⟨es, none⟩
      | (es, some (.error _)) => ⟨es, some (-1)⟩
      | (es, some (.ok x)) =>
        if k.opens (openFlags flags) x then
          match fdAlloc files with
          | some fd => ⟨es, some (BitVec.ofNat 64 fd)⟩
          | none => ⟨es, some (-1)⟩
        else ⟨es, some (-1)⟩
    else .fail

/-- `sys_read`. -/
def sysRead (fd buf len : U64) : Outcome :=
  if k.files.isSome && validUserPtr buf then
    match k.currentFile fd with
    | none => .fail
    | some f => vfsRead f buf ((len.setWidth 32).setWidth 64)
  else .fail

/-- `sys_write`. -/
def sysWrite (fd buf len : U64) : Outcome :=
  if validUserPtr buf then
    match k.currentFile fd with
    | none => if fd = 1 ∨ fd = 2 then ⟨[⟨buf, len.toNat⟩], some len⟩ else .fail
    | some f => vfsWrite f buf ((len.setWidth 32).setWidth 64)
  else .fail

/-- `sys_fstat`. -/
def sysFstat (fd st : U64) : Outcome :=
  if k.files.isSome && validUserPtr st then
    match k.currentFile fd with
    | none => .fail
    | some f => Reply.check (vfsFstat f st)
  else .fail

/-- `sys_stat`. -/
def sysStat (path st : U64) : Outcome :=
  if validUserPtr path && validUserPtr st then Reply.check (k.vfsStat path st) else .fail

/-- `sys_wait`. -/
def sysWait (statusOut : U64) : Outcome :=
  match k.files, k.child with
  | none, _ => .fail
  | some _, none => ⟨[], none⟩
  | some _, some pid =>
    ⟨if statusOut ≠ 0 ∧ validUserPtr statusOut then [⟨statusOut, 4⟩] else [],
      some (pid.signExtend 64)⟩

/-- `sys_pipe`. The second `fd_alloc` sees what the first stored. -/
def sysPipe (fds : U64) : Outcome :=
  if validUserPtr fds then
    match k.files with
    | none => .fail
    | some files =>
      if k.pipeCreated then
        match fdAlloc files with
        | none => .fail
        | some rfd =>
          match fdAlloc (Function.update files rfd (some pipeEnd)) with
          | none => .fail
          | some _ => ⟨[⟨fds, 4⟩, ⟨fds + 4, 4⟩], some 0⟩
      else .fail
  else .fail

/-- `sys_fbinfo`. -/
def sysFbinfo (info : U64) : Outcome :=
  if validUserPtr info then
    ⟨(List.finRange fbInfoFields.length).map (fieldExtent fbInfoFields info), some 0⟩
  else .fail

/-- `sys_exit`. -/
def sysExit : Outcome := ⟨[], if k.files.isSome then none else some 0⟩

/-! ## `proc_exec` -/

/-- `klog("EXEC", "read_elf failed for %s", path)`, which prints `(null)` for 0. -/
def klogPath (path : U64) : List (Extent 64) :=
  if path = 0 then [] else [stringExtent k.mem path]

/-- `proc_exec`. The name of the process is copied from `path` when the image is in place. -/
def procExec (path argv : U64) : Outcome :=
  match k.files with
  | none => .fail
  | some _ =>
    match k.vfsLookup path with
    | (es, none) => ⟨es, none⟩
    | (es, some (.error _)) => ⟨es ++ k.klogPath path, some (-1)⟩
    | (es, some (.ok x)) =>
      match k.elf x with
      | .unreadable => ⟨es ++ k.klogPath path, some (-1)⟩
      | .unloadable => ⟨es, some (-1)⟩
      | .loaded image =>
        ⟨es ++ setupUserStack k.mem argv ++ [stringExtent image path], some 0⟩

/-- `syscall_handler`. The fifth and sixth argument are ignored. -/
def syscallHandler (num a1 a2 a3 _a4 _a5 : U64) : Outcome :=
  match Syscall.ofNumber num with
  | .sysExit => k.sysExit
  | .sysWrite => k.sysWrite a1 a2 a3
  | .sysExec => k.procExec a1 a2
  | .sysOpen => k.sysOpen a1 a2
  | .sysRead => k.sysRead a1 a2 a3
  | .sysFstat => k.sysFstat a1 a2
  | .sysStat => k.sysStat a1 a2
  | .sysWait => k.sysWait a1
  | .sysPipe => k.sysPipe a1
  | .sysFbinfo => sysFbinfo a1
  | .unknown => .fail
  | c => ⟨[], k.plain c a1 a2 a3⟩

end Kernel

end UserPointers

end Jeos
