import Jeos.Pipe

/-!
# Open files and descriptors

The objects behind file descriptors : `struct vfs_file` with its reference count, its
inode and its operation table, `struct pipe`, and the table `proc_table[k].files[fd]`
of every process. Files and pipes are numbered in the order of their creation, and a
number is not used again, so an access to a freed file shows : it is `none` here.

The functions are those of `vfs.c`, `pipe.c`, `proc.c` and `syscall.c` on descriptors.
Whether a `kalloc` succeeds is an argument. The close hooks of the other file systems
only return `VFS_OK`, and the reference count of an inode is never acted on, so both
are left out. The objects are apart from each other in memory.

A run of `FileSystemState.step` is any sequence of the system calls on descriptors by
any processes, with processes forked, exiting and reaped in between.
-/

namespace Jeos

/-- `MAX_PROCS`. -/
abbrev maxProcs : ℕ := 64

/-- `MAX_FDS`. -/
abbrev maxFds : ℕ := 32

instance : NeZero maxProcs := ⟨by decide⟩

instance : NeZero maxFds := ⟨by decide⟩

/-- The states of a process. -/
inductive ProcState where
  | unused
  | embryo
  | runnable
  | running
  | zombie
  deriving DecidableEq

/-- A table of file operations : one of the two of a pipe, or a driver's. -/
inductive FileOps where
  | pipeReadOps
  | pipeWriteOps
  | driver (read write : Bool)
  deriving DecidableEq

/-- `struct vfs_inode` : the number, the operation table and, for a pipe end, the pipe. -/
structure VfsInode where
  ino : U64
  fops : Option FileOps
  priv : Option ℕ

/-- `struct vfs_file`. `live` is false before it is allocated and after it is freed. -/
structure VfsFile where
  live : Bool
  refcnt : U32
  inode : VfsInode
  fops : Option FileOps

/-- A `struct pipe` and how often it was passed to `kfree`. -/
structure PipeObject where
  pipe : Pipe
  frees : ℕ

/-- The place of a descriptor : `proc_table[k].files[fd]`. -/
abbrev FdSlot := Fin maxProcs × Fin maxFds

/-- All open files, pipes and descriptor tables. -/
structure FileSystemState where
  procState : Fin maxProcs → ProcState
  fds : FdSlot → Option ℕ
  file : ℕ → VfsFile
  nextFile : ℕ
  pipe : ℕ → PipeObject
  nextPipe : ℕ

/-- Which of the five calls of `kalloc` in `pipe_create` succeed. -/
structure PipeAllocs where
  pipe : Bool
  readInode : Bool
  readFile : Bool
  writeInode : Bool
  writeFile : Bool

/-- All five succeed. -/
def PipeAllocs.all (a : PipeAllocs) : Bool :=
  a.pipe && (a.readInode && a.readFile) && (a.writeInode && a.writeFile)

/-- `PIPE_READ_END`. -/
def pipeReadEnd : U64 := 1

/-- `PIPE_WRITE_END`. -/
def pipeWriteEnd : U64 := 2

/-- `VFS_ENOSYS`. -/
def vfsENOSYS : U64 := -38

/-- `VFS_EINVAL`. -/
def vfsEINVAL : U64 := -22

/-- `USER_PTR_MAX`. -/
def userPtrMax : U64 := 0x800000000000

/-- `valid_user_ptr`. -/
def validUserPtr (p : U64) : Bool := p < userPtrMax

/-- A system call on descriptors by process `k`, or a `sys_wait` that frees its entry. -/
inductive FdEvent where
  | sysOpen (k : Fin maxProcs) (opened : Option (VfsInode × Bool × Bool))
  | sysClose (k : Fin maxProcs) (fd : U64)
  | sysDup (k : Fin maxProcs) (fd : U64)
  | sysDup2 (k : Fin maxProcs) (oldFd newFd : U64)
  | sysPipe (k : Fin maxProcs) (fdsPtr : U64) (a : PipeAllocs)
  | procFork (k : Fin maxProcs) (kstackOk pml4Ok : Bool)
  | sysExit (k : Fin maxProcs)
  | reap (k : Fin maxProcs)

/-- The processes that can make a system call once they are scheduled. -/
def ProcState.alive : ProcState → Bool
  | .runnable | .running => true
  | _ => false

/-- The values of `sys_read` and `sys_write` : returned at once, or those of a loop or of a
file operation that is entered. -/
inductive IoResult where
  | ret (v : U64)
  | console (len : U64)
  | pipeRead (q : Option ℕ) (len : U64)
  | pipeWrite (q : Option ℕ) (len : U64)
  | driver
  deriving DecidableEq

namespace FileSystemState

variable (s : FileSystemState)

def setFd (sl : FdSlot) (x : Option ℕ) : FileSystemState :=
  { s with fds := Function.update s.fds sl x }

def setFile (i : ℕ) (f : VfsFile) : FileSystemState :=
  { s with file := Function.update s.file i f }

/-! ## `vfs.c` and `pipe.c` -/

/-- `vfs_file_get`. -/
def vfsFileGet (i : ℕ) : Option FileSystemState :=
  if (s.file i).live then
    some (s.setFile i { s.file i with refcnt := (s.file i).refcnt + 1 })
  else none

/-- `vfs_file_put`. -/
def vfsFilePut (i : ℕ) : Option FileSystemState :=
  if (s.file i).live then
    let refcnt := (s.file i).refcnt - 1
    some (s.setFile i { s.file i with refcnt := refcnt, live := refcnt ≠ 0 })
  else none

/-- `kfree(p, 1)` for a pipe. -/
def freePipe (q : ℕ) : FileSystemState :=
  { s with pipe := Function.update s.pipe q ⟨(s.pipe q).pipe, (s.pipe q).frees + 1⟩ }

/-- `pipe_close`. -/
def pipeClose (i : ℕ) : Option FileSystemState :=
  (s.file i).inode.priv.map fun q =>
    let (p', dead) := (s.pipe q).pipe.closeSection ((s.file i).inode.ino = pipeWriteEnd)
    let s₁ := { s with pipe := Function.update s.pipe q ⟨p', (s.pipe q).frees⟩ }
    if dead then s₁.freePipe q else s₁

/-- `vfs_close`. -/
def vfsClose (i : ℕ) : Option FileSystemState :=
  if (s.file i).live then
    match (s.file i).fops with
    | some .pipeReadOps => (s.pipeClose i).bind fun s' => s'.vfsFilePut i
    | some .pipeWriteOps => (s.pipeClose i).bind fun s' => s'.vfsFilePut i
    | _ => s.vfsFilePut i
  else none

/-- A new file, with one reference. -/
def newFile (inode : VfsInode) (fops : Option FileOps) : FileSystemState :=
  { s.setFile s.nextFile ⟨true, 1, inode, fops⟩ with nextFile := s.nextFile + 1 }

/-- `make_pipe_end`. The operation table goes to the inode; `f->fops` stays 0. -/
def makePipeEnd (q : ℕ) (ops : FileOps) (endTag : U64) (inodeOk fileOk : Bool) :
    FileSystemState × Option ℕ :=
  if inodeOk && fileOk then
    (s.newFile ⟨endTag, some ops, some q⟩ none, some s.nextFile)
  else (s, none)

/-- `kfree(f->inode, 1); kfree(f, 1);` if there is a file. -/
def dropFile : Option ℕ → FileSystemState
  | none => s
  | some i => s.setFile i { s.file i with live := false, refcnt := 0 }

/-- A new pipe. -/
def newPipe : FileSystemState :=
  { s with
    pipe := Function.update s.pipe s.nextPipe ⟨Pipe.create, 0⟩
    nextPipe := s.nextPipe + 1 }

/-- `pipe_create`. -/
def pipeCreate (a : PipeAllocs) : FileSystemState × Option (ℕ × ℕ) :=
  if a.pipe then
    let q := s.nextPipe
    let (s₂, r) := s.newPipe.makePipeEnd q .pipeReadOps pipeReadEnd a.readInode a.readFile
    let (s₃, w) := s₂.makePipeEnd q .pipeWriteOps pipeWriteEnd a.writeInode a.writeFile
    match r, w with
    | some r, some w => (s₃, some (r, w))
    | _, _ => (((s₃.dropFile r).dropFile w).freePipe q, none)
  else (s, none)

/-! ## Descriptors -/

/-- `fd_get`. A negative `fd` is at least `2 ^ 31` as an unsigned number. -/
def fdGet (k : Fin maxProcs) (fd : BitVec 32) : Option ℕ :=
  if h : fd.toNat < maxFds then s.fds (k, ⟨fd.toNat, h⟩) else none

/-- `fd_alloc`. -/
def fdAlloc (k : Fin maxProcs) (i : ℕ) : FileSystemState × Option (Fin maxFds) :=
  match (List.finRange maxFds).find? fun fd => s.fds (k, fd) = none with
  | some fd => (s.setFd (k, fd) (some i), some fd)
  | none => (s, none)

/-- `if (files[fd]) { vfs_close(files[fd]); files[fd] = 0; }` -/
def closeSlot (sl : FdSlot) : Option FileSystemState :=
  match s.fds sl with
  | none => some s
  | some i => (s.vfsClose i).map fun s' => s'.setFd sl none

/-- `proc_close_fds`. -/
def procCloseFds (k : Fin maxProcs) : Option FileSystemState :=
  (List.finRange maxFds).foldlM (fun s' fd => closeSlot s' (k, fd)) s

/-- `sys_open`, when `vfs_open` gives the file described, or fails. -/
def sysOpen (k : Fin maxProcs) : Option (VfsInode × Bool × Bool) → Option FileSystemState
  | none => some s
  | some (inode, read, write) =>
    let i := s.nextFile
    match (s.newFile { inode with priv := none } (some (.driver read write))).fdAlloc k i with
    | (s', some _) => some s'
    | (s', none) => s'.vfsClose i

/-- `sys_close`. The slot cleared is that of the 64-bit `fd`; beyond the table this is not
a slot, and the model ends. -/
def sysClose (k : Fin maxProcs) (fd : U64) : Option FileSystemState :=
  match s.fdGet k (fd.setWidth 32) with
  | none => some s
  | some i => if h : fd.toNat < maxFds then (s.setFd (k, ⟨fd.toNat, h⟩) none).vfsClose i else none

/-- `sys_dup`. -/
def sysDup (k : Fin maxProcs) (fd : U64) : Option FileSystemState :=
  match s.fdGet k (fd.setWidth 32) with
  | none => some s
  | some i =>
    (s.vfsFileGet i).bind fun s₁ =>
      match s₁.fdAlloc k i with
      | (s₂, some _) => some s₂
      | (s₂, none) => s₂.vfsClose i

/-- `sys_dup2`. -/
def sysDup2 (k : Fin maxProcs) (oldFd newFd : U64) : Option FileSystemState :=
  if h : newFd.toNat < maxFds then
    match s.fdGet k (oldFd.setWidth 32) with
    | none => some s
    | some i =>
      if oldFd = newFd then some s
      else
        (s.closeSlot (k, ⟨newFd.toNat, h⟩)).bind fun s₁ =>
          (s₁.vfsFileGet i).map fun s₂ => s₂.setFd (k, ⟨newFd.toNat, h⟩) (some i)
  else some s

/-- `sys_pipe`, with the two descriptors it stores for the caller. -/
def sysPipe (k : Fin maxProcs) (fdsPtr : U64) (a : PipeAllocs) :
    Option (FileSystemState × Option (Fin maxFds × Fin maxFds)) :=
  if validUserPtr fdsPtr then
    match s.pipeCreate a with
    | (s₁, none) => some (s₁, none)
    | (s₁, some (r, w)) =>
      let (s₂, rfd) := s₁.fdAlloc k r
      let (s₃, wfd) := s₂.fdAlloc k w
      match rfd, wfd with
      | some rfd, some wfd => some (s₃, some (rfd, wfd))
      | _, _ =>
        let s₄ := match rfd with
          | some rfd => s₃.setFd (k, rfd) none
          | none => s₃
        (s₄.vfsClose r).bind fun s₅ => (s₅.vfsClose w).map fun s₆ => (s₆, none)
  else some (s, none)

/-- One round of the descriptor loop of `proc_fork`. -/
def inheritFd (parent child : Fin maxProcs) (fd : Fin maxFds) : Option FileSystemState :=
  match s.fds (parent, fd) with
  | none => some s
  | some i => (s.vfsFileGet i).map fun s' => s'.setFd (child, fd) (some i)

/-- The slot `proc_alloc` takes. -/
def unusedProc : Option (Fin maxProcs) :=
  (List.finRange maxProcs).find? fun k => s.procState k = .unused

def setProcState (k : Fin maxProcs) (st : ProcState) : FileSystemState :=
  { s with procState := Function.update s.procState k st }

/-- `proc_fork`. -/
def procFork (k : Fin maxProcs) (kstackOk pml4Ok : Bool) : Option FileSystemState :=
  match s.unusedProc with
  | none => some s
  | some c =>
    if kstackOk && pml4Ok then
      ((List.finRange maxFds).foldlM (fun s' fd => inheritFd s' k c fd)
        (s.setProcState c .embryo)).map fun s' => s'.setProcState c .runnable
    else some s

/-- `sys_exit`. -/
def sysExit (k : Fin maxProcs) : Option FileSystemState :=
  (s.procCloseFds k).map fun s' => s'.setProcState k .zombie

/-- `vfs_read`. -/
def vfsRead (i : ℕ) (buf count : U64) : IoResult :=
  if buf = 0 then .ret vfsEINVAL
  else match (s.file i).fops with
    | some .pipeReadOps => .pipeRead (s.file i).inode.priv count
    | some (.driver true _) => .driver
    | _ => .ret vfsENOSYS

/-- `vfs_write`. -/
def vfsWrite (i : ℕ) (buf count : U64) : IoResult :=
  if buf = 0 then .ret vfsEINVAL
  else match (s.file i).fops with
    | some .pipeWriteOps => .pipeWrite (s.file i).inode.priv count
    | some (.driver _ true) => .driver
    | _ => .ret vfsENOSYS

/-- `sys_read`. -/
def sysRead (k : Fin maxProcs) (fd buf len : U64) : IoResult :=
  if validUserPtr buf then
    match s.fdGet k (fd.setWidth 32) with
    | none => .ret (-1)
    | some i => s.vfsRead i buf ((len.setWidth 32).setWidth 64)
  else .ret (-1)

/-- `sys_write`. -/
def sysWrite (k : Fin maxProcs) (fd buf len : U64) : IoResult :=
  if validUserPtr buf then
    match s.fdGet k (fd.setWidth 32) with
    | none => if fd = 1 ∨ fd = 2 then .console len else .ret (-1)
    | some i => s.vfsWrite i buf ((len.setWidth 32).setWidth 64)
  else .ret (-1)

/-! ## Runs -/

/-- The caller can make a call, or the process is a zombie to be reaped. -/
def Enabled : FdEvent → Prop
  | .sysOpen k _ | .sysClose k _ | .sysDup k _ | .sysDup2 k _ _ | .sysPipe k _ _
  | .procFork k _ _ | .sysExit k => (s.procState k).alive = true
  | .reap k => s.procState k = .zombie

instance (e : FdEvent) : Decidable (s.Enabled e) := by
  cases e <;> unfold Enabled <;> infer_instance

/-- The state after a call. -/
def perform : FdEvent → Option FileSystemState
  | .sysOpen k opened => s.sysOpen k opened
  | .sysClose k fd => s.sysClose k fd
  | .sysDup k fd => s.sysDup k fd
  | .sysDup2 k oldFd newFd => s.sysDup2 k oldFd newFd
  | .sysPipe k fdsPtr a => (s.sysPipe k fdsPtr a).map Prod.fst
  | .procFork k kstackOk pml4Ok => s.procFork k kstackOk pml4Ok
  | .sysExit k => s.sysExit k
  | .reap k => some (s.setProcState k .unused)

def step (e : FdEvent) : Option FileSystemState := if s.Enabled e then s.perform e else none

/-- One process without descriptors. -/
def init : FileSystemState where
  procState k := if k = 0 then .runnable else .unused
  fds _ := none
  file _ := ⟨false, 0, ⟨0, none, none⟩, none⟩
  nextFile := 0
  pipe _ := ⟨Pipe.create, 0⟩
  nextPipe := 0

end FileSystemState

end Jeos
