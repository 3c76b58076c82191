import Jeos.Lib.Replies
import Jeos.Lib.SharedCells
import Jeos.Seek
import Jeos.VfsCalls

/-!
# Open files on recycled pages

The system calls on descriptors with their data : `struct vfs_file` on a page from `kalloc`, which gets
free with the last reference and may come back as another open file, and its position, which
all descriptors of the file share. Every call gives its reply.

The operations of the inodes are a parameter (`Driver`), and so is what `vfs_open` does before it allocates
the file. Every call is one step, for any of the processes. Left out are pipes, and the close
operations, which only return `VFS_OK` in the drivers.

`Spec` is what the calls mean without memory and without counts. A descriptor refers to an open
file that is kept for ever, `sys_dup`, `sys_dup2` and `proc_fork` copy the reference, and a close clears it.
-/

namespace Jeos.OpenFiles

open SharedCells (Numbered)
open Vfs (Stat)

/-- The part of `struct vfs_file` that is not its count. -/
structure Description (ι : Type) where
  flags : U32
  pos : U64
  inode : ι

/-- `struct vfs_file`. -/
structure VfsFile (ι : Type) extends Description ι where
  refcnt : U32

/-- What a call returns, with what it stores for the caller. `proc_fork` returns the entry of the child
in place of its pid. -/
inductive Reply where
  | value (v : U64)
  | data (v : U64) (bytes : List U8)
  | stat (v : U64) (st : Stat)
  | child (c : Fin maxProcs)
  | done

/-- The operations of the inodes, each where `iops` or `fops` has it, and the console. `lookup` is what
`vfs_open` does before it allocates the file. `read` and `write` return their value and the position. -/
structure Driver (κ ι : Type) where
  lookup : List U8 → U32 → κ → Option ι × κ
  openFile : ι → Option (κ → ℤ × κ)
  read : ι → Option (U64 → U64 → κ → (U64 × List U8 × U64) × κ)
  write : ι → Option ((U64 → U8) → U64 → U64 → κ → (U64 × U64) × κ)
  llseek : ι → Option (U64 → U64 → U32 → κ → U64 × U64)
  getattr : ι → Option (κ → (ℤ × Stat) × κ)
  putc : (U64 → U8) → U64 → κ → κ

/-- The calls. `page` is what `kalloc` gives, `kstackOk` and `pml4Ok` tell whether the allocations of
`proc_fork` succeed, and `data` is what the caller has at its pointer. -/
inductive Call where
  | sysOpen (path : U64) (name : List U8) (flags : U64) (page : Option ℕ)
  | sysClose (fd : U64)
  | sysDup (fd : U64)
  | sysDup2 (oldFd newFd : U64)
  | sysRead (fd buf len : U64)
  | sysWrite (fd buf len : U64) (data : U64 → U8)
  | sysSeek (fd off whence : U64)
  | sysFstat (fd st : U64)
  | procFork (kstackOk pml4Ok : Bool)
  | sysExit
  /-- A `sys_wait` frees the entry. -/
  | reap

variable {κ ι : Type}

/-! ## Files -/

section Vfs

variable (D : Driver κ ι) (f : Description ι) (fs : κ)

/-- `vfs_read`. -/
def vfsRead (buf count : U64) : Reply × Description ι × κ :=
  if buf = 0 then (.value vfsEINVAL, f, fs)
  else
    match D.read f.inode with
    | none => (.value vfsENOSYS, f, fs)
    | some read =>
      let ((ret, bytes, pos), fs) := read count f.pos fs
      (.data ret bytes, { f with pos }, fs)

/-- `vfs_write`. -/
def vfsWrite (buf count : U64) (data : U64 → U8) : Reply × Description ι × κ :=
  if buf = 0 then (.value vfsEINVAL, f, fs)
  else
    match D.write f.inode with
    | none => (.value vfsENOSYS, f, fs)
    | some write =>
      let ((ret, pos), fs) := write data count f.pos fs
      (.value ret, { f with pos }, fs)

/-- `vfs_seek`. -/
def vfsSeek (off : U64) (whence : U32) : Reply × Description ι × κ :=
  match D.llseek f.inode with
  | some llseek =>
    let (ret, pos) := llseek f.pos off whence fs
    (.value ret, { f with pos }, fs)
  | none =>
    match D.getattr f.inode with
    | none => (.value vfsENOSYS, f, fs)
    | some getattr =>
      let ((rc, st), fs) := getattr fs
      if rc < 0 then (.value vfsEINVAL, f, fs)
      else if whence = vfsSeekSet then (.value off, { f with pos := off }, fs)
      else if whence = vfsSeekCur then (.value (f.pos + off), { f with pos := f.pos + off }, fs)
      else if whence = vfsSeekEnd then (.value (st.size + off), { f with pos := st.size + off }, fs)
      else (.value vfsEINVAL, f, fs)

/-- `vfs_fstat`, with the return value of `sys_fstat`. -/
def vfsFstat : Reply × Description ι × κ :=
  match D.getattr f.inode with
  | none => (.value (-1), f, fs)
  | some getattr =>
    let ((rc, st), fs) := getattr fs
    if rc = 0 then (.stat 0 st, f, fs) else (.stat (-1) st, f, fs)

end Vfs

/-- A call on an open file : what it does with the file, and what without. -/
structure FileCall (κ ι : Type) where
  fd : U64
  valid : Bool
  missing : κ → Reply × κ
  op : Description ι → κ → Reply × Description ι × κ

section Calls

variable (D : Driver κ ι) (fd : U64)

/-- `sys_read`. -/
def sysRead (buf len : U64) : FileCall κ ι where
  fd := fd
  valid := validUserPtr buf
  missing fs := (.value (-1), fs)
  op f fs := vfsRead D f fs buf ((len.setWidth 32).setWidth 64)

/-- `sys_write`. Without a file, descriptors 1 and 2 are the console. -/
def sysWrite (buf len : U64) (data : U64 → U8) : FileCall κ ι where
  fd := fd
  valid := validUserPtr buf
  missing fs := if fd = 1 ∨ fd = 2 then (.value len, D.putc data len fs) else (.value (-1), fs)
  op f fs := vfsWrite D f fs buf ((len.setWidth 32).setWidth 64) data

/-- `sys_seek`. -/
def sysSeek (off whence : U64) : FileCall κ ι where
  fd := fd
  valid := true
  missing fs := (.value (-1), fs)
  op f fs := vfsSeek D f fs off (whence.setWidth 32)

/-- `sys_fstat`. -/
def sysFstat (st : U64) : FileCall κ ι where
  fd := fd
  valid := validUserPtr st
  missing fs := (.value (-1), fs)
  op f fs := if st = 0 then (.value (-1), f, fs) else vfsFstat D f fs

end Calls

/-! ## Descriptors -/

section Table

variable {A : Type} (fds : FdSlot → Option A) (k : Fin maxProcs)

/-- `fd_get`. A negative `fd` is at least `2 ^ 31` as an unsigned number. -/
def fdGet (fd : U32) : Option A :=
  if h : fd.toNat < maxFds then fds (k, ⟨fd.toNat, h⟩) else none

/-- The slot `fd_alloc` takes. -/
def fdFree : Option (Fin maxFds) := (List.finRange maxFds).find? fun fd => (fds (k, fd)).isNone

end Table

/-- The flags of `sys_open`. -/
def openFlags (flags : U64) : U32 :=
  if flags &&& 3 = 1 then 0x0002 else if flags &&& 3 = 2 then 0x0003 else 0x0001

/-- The slot `proc_alloc` takes. -/
def unusedProc (procState : Fin maxProcs → ProcState) : Option (Fin maxProcs) :=
  (List.finRange maxProcs).find? fun k => procState k = .unused

/-- Of an inode that is found, whether the `open` operation returns no error. -/
def openInode (D : Driver κ ι) (inode : ι) (fs : κ) : Bool × κ :=
  match D.openFile inode with
  | none => (true, fs)
  | some openFile =>
    let (rc, fs) := openFile fs
    (decide (0 ≤ rc), fs)

/-! ## The code -/

/-- The descriptor tables, and the open files by page. -/
structure State (κ ι : Type) where
  procState : Fin maxProcs → ProcState
  fds : FdSlot → Option ℕ
  heap : ℕ → Option (VfsFile ι)
  fs : κ

namespace State

variable (D : Driver κ ι) (s : State κ ι) (k : Fin maxProcs)

def setFd (sl : FdSlot) (x : Option ℕ) : State κ ι := { s with fds := Function.update s.fds sl x }

def setFile (a : ℕ) (x : Option (VfsFile ι)) : State κ ι :=
  { s with heap := Function.update s.heap a x }

def withFs (fs : κ) : State κ ι := { s with fs := fs }

def setProcState (st : ProcState) : State κ ι :=
  { s with procState := Function.update s.procState k st }

/-- `vfs_file_get`. -/
def vfsFileGet (a : ℕ) : Option (State κ ι) :=
  (s.heap a).map fun f => s.setFile a (some { f with refcnt := f.refcnt + 1 })

/-- `vfs_file_put`. -/
def vfsFilePut (a : ℕ) : Option (State κ ι) :=
  (s.heap a).map fun f =>
    if f.refcnt - 1 = 0 then s.setFile a none
    else s.setFile a (some { f with refcnt := f.refcnt - 1 })

/-- `vfs_close`. -/
def vfsClose (a : ℕ) : Option (State κ ι) := s.vfsFilePut a

/-- `vfs_open` : the error, or the page of the file. -/
def vfsOpen (name : List U8) (flags : U32) (page : Option ℕ) : Option (Option ℕ × State κ ι) :=
  match D.lookup name flags s.fs with
  | (none, fs) => some (none, s.withFs fs)
  | (some inode, fs) =>
    match page with
    | none => some (none, s.withFs fs)
    | some a =>
      let s₁ := (s.withFs fs).setFile a (some ⟨⟨flags, 0, inode⟩, 1⟩)
      match openInode D inode fs with
      | (false, fs) => ((s₁.withFs fs).vfsFilePut a).map fun s₂ => (none, s₂)
      | (true, fs) => some (some a, s₁.withFs fs)

/-- `fd = fd_alloc(p, f); if (fd < 0) { vfs_close(f); return -1; } return fd;` -/
def giveFd (a : ℕ) : Option (Reply × State κ ι) :=
  match fdFree s.fds k with
  | some fd => some (.value (BitVec.ofNat 64 fd), s.setFd (k, fd) (some a))
  | none => (s.vfsClose a).map fun s₁ => (.value (-1), s₁)

/-- `sys_open`. -/
def sysOpen (path : U64) (name : List U8) (flags : U64) (page : Option ℕ) :
    Option (Reply × State κ ι) :=
  if validUserPtr path ∧ path ≠ 0 then
    (s.vfsOpen D name (openFlags flags) page).bind fun x =>
      match x.1 with
      | none => some (.value (-1), x.2)
      | some a => x.2.giveFd k a
  else some (.value (-1), s)

/-- `sys_close`. Beyond the table `files[fd]` is not a slot, and the model ends. -/
def sysClose (fd : U64) : Option (Reply × State κ ι) :=
  match fdGet s.fds k (fd.setWidth 32) with
  | none => some (.value (-1), s)
  | some a =>
    if h : fd.toNat < maxFds then
      ((s.setFd (k, ⟨fd.toNat, h⟩) none).vfsClose a).map fun s₁ => (.value 0, s₁)
    else none

/-- `sys_dup`. -/
def sysDup (fd : U64) : Option (Reply × State κ ι) :=
  match fdGet s.fds k (fd.setWidth 32) with
  | none => some (.value (-1), s)
  | some a => (s.vfsFileGet a).bind fun s₁ => s₁.giveFd k a

/-- `if (files[fd]) { vfs_close(files[fd]); files[fd] = 0; }` -/
def closeSlot (sl : FdSlot) : Option (State κ ι) :=
  match s.fds sl with
  | none => some s
  | some a => (s.vfsClose a).map fun s₁ => s₁.setFd sl none

/-- `sys_dup2`. -/
def sysDup2 (oldFd newFd : U64) : Option (Reply × State κ ι) :=
  if h : newFd.toNat < maxFds then
    match fdGet s.fds k (oldFd.setWidth 32) with
    | none => some (.value (-1), s)
    | some a =>
      if oldFd = newFd then some (.value newFd, s)
      else
        (s.closeSlot (k, ⟨newFd.toNat, h⟩)).bind fun s₁ =>
          (s₁.vfsFileGet a).map fun s₂ =>
            (.value newFd, s₂.setFd (k, ⟨newFd.toNat, h⟩) (some a))
  else some (.value (-1), s)

/-- A call on an open file. -/
def fileCall (c : FileCall κ ι) : Option (Reply × State κ ι) :=
  if c.valid then
    match fdGet s.fds k (c.fd.setWidth 32) with
    | none => some ((c.missing s.fs).1, s.withFs (c.missing s.fs).2)
    | some a =>
      (s.heap a).map fun f =>
        let (r, f', fs) := c.op f.toDescription s.fs
        (r, (s.setFile a (some { f with toDescription := f' })).withFs fs)
  else some (.value (-1), s)

/-- One round of the descriptor loop of `proc_fork`. -/
def inheritFd (child : Fin maxProcs) (fd : Fin maxFds) : Option (State κ ι) :=
  match s.fds (k, fd) with
  | none => some s
  | some a => (s.vfsFileGet a).map fun s₁ => s₁.setFd (child, fd) (some a)

/-- `proc_fork`. -/
def procFork (kstackOk pml4Ok : Bool) : Option (Reply × State κ ι) :=
  match unusedProc s.procState with
  | none => some (.value (-1), s)
  | some c =>
    if kstackOk && pml4Ok then
      ((List.finRange maxFds).foldlM (fun s₁ fd => inheritFd s₁ k c fd)
        (s.setProcState c .embryo)).map fun s₁ => (.child c, s₁.setProcState c .runnable)
    else some (.value (-1), s)

/-- `proc_close_fds`. -/
def procCloseFds : Option (State κ ι) :=
  (List.finRange maxFds).foldlM (fun s₁ fd => closeSlot s₁ (k, fd)) s

/-- `sys_exit`. -/
def sysExit : Option (Reply × State κ ι) :=
  (s.procCloseFds k).map fun s₁ => (.done, s₁.setProcState k .zombie)

/-- The state after a call of process `k`. -/
def perform (D : Driver κ ι) (s : State κ ι) : Fin maxProcs × Call → Option (Reply × State κ ι)
  | (k, .sysOpen path name flags page) => s.sysOpen D k path name flags page
  | (k, .sysClose fd) => s.sysClose k fd
  | (k, .sysDup fd) => s.sysDup k fd
  | (k, .sysDup2 oldFd newFd) => s.sysDup2 k oldFd newFd
  | (k, .sysRead fd buf len) => s.fileCall k (sysRead D fd buf len)
  | (k, .sysWrite fd buf len data) => s.fileCall k (sysWrite D fd buf len data)
  | (k, .sysSeek fd off whence) => s.fileCall k (sysSeek D fd off whence)
  | (k, .sysFstat fd st) => s.fileCall k (sysFstat D fd st)
  | (k, .procFork kstackOk pml4Ok) => s.procFork k kstackOk pml4Ok
  | (k, .sysExit) => s.sysExit k
  | (k, .reap) => some (.done, s.setProcState k .unused)

/-- The caller can make a call, or the process is a zombie to be reaped, and `kalloc` gives a page that is
not in use. The descriptors of `sys_close` and `sys_dup2` have 32 bits. -/
def Enabled (s : State κ ι) : Fin maxProcs × Call → Prop
  | (k, .sysOpen _ _ _ page) => (s.procState k).alive ∧ page.all fun a => (s.heap a).isNone
  | (k, .sysClose fd) => (s.procState k).alive ∧ fd.toNat < 2 ^ 32
  | (k, .sysDup2 oldFd _) => (s.procState k).alive ∧ oldFd.toNat < 2 ^ 32
  | (k, .reap) => s.procState k = .zombie
  | (k, _) => (s.procState k).alive

instance enabledDecidable (s : State κ ι) : ∀ e, Decidable (s.Enabled e)
  | (_, .sysOpen ..) => inferInstanceAs (Decidable (_ ∧ _))
  | (_, .sysClose _) => inferInstanceAs (Decidable (_ ∧ _))
  | (_, .sysDup2 _ _) => inferInstanceAs (Decidable (_ ∧ _))
  | (k, .reap) => inferInstanceAs (Decidable (s.procState k = .zombie))
  | (k, .sysDup _) => inferInstanceAs (Decidable ((s.procState k).alive = true))
  | (k, .sysRead ..) => inferInstanceAs (Decidable ((s.procState k).alive = true))
  | (k, .sysWrite ..) => inferInstanceAs (Decidable ((s.procState k).alive = true))
  | (k, .sysSeek ..) => inferInstanceAs (Decidable ((s.procState k).alive = true))
  | (k, .sysFstat _ _) => inferInstanceAs (Decidable ((s.procState k).alive = true))
  | (k, .procFork _ _) => inferInstanceAs (Decidable ((s.procState k).alive = true))
  | (k, .sysExit) => inferInstanceAs (Decidable ((s.procState k).alive = true))

/-- One process without descriptors. -/
def init (fs : κ) : State κ ι where
  procState k := if k = 0 then .runnable else .unused
  fds _ := none
  heap _ := none
  fs := fs

end State

/-! ## What the calls mean -/

/-- Descriptors that refer to open files. -/
structure Spec (κ ι : Type) where
  procState : Fin maxProcs → ProcState
  files : Numbered FdSlot (Description ι)
  fs : κ

namespace Spec

variable (D : Driver κ ι) (t : Spec κ ι) (k : Fin maxProcs)

def setFd (sl : FdSlot) (x : Option ℕ) : Spec κ ι := { t with files := t.files.put sl x }

def withFs (fs : κ) : Spec κ ι := { t with fs := fs }

def setProcState (st : ProcState) : Spec κ ι :=
  { t with procState := Function.update t.procState k st }

/-- The number of the file of a descriptor. -/
def get (fd : U64) : Option ℕ := fdGet t.files.table k (fd.setWidth 32)

/-- The file, with its number. -/
def file (fd : U64) : Option (ℕ × Description ι) :=
  (t.get k fd).bind fun x => (t.files.cells[x]?).map fun f => (x, f)

/-- The lowest free descriptor refers to the file `x`, if there is one. -/
def share (x : ℕ) : Reply × Spec κ ι :=
  match fdFree t.files.table k with
  | some fd => (.value (BitVec.ofNat 64 fd), t.setFd (k, fd) (some x))
  | none => (.value (-1), t)

/-- The inode that is opened, if there is memory for the file. -/
def opened (name : List U8) (flags : U32) (page : Option ℕ) : Option ι × κ :=
  match D.lookup name flags t.fs with
  | (none, fs) => (none, fs)
  | (some inode, fs) =>
    match page with
    | none => (none, fs)
    | some _ =>
      match openInode D inode fs with
      | (false, fs) => (none, fs)
      | (true, fs) => (some inode, fs)

def sysOpen (path : U64) (name : List U8) (flags : U64) (page : Option ℕ) : Reply × Spec κ ι :=
  if validUserPtr path ∧ path ≠ 0 then
    match t.opened D name (openFlags flags) page with
    | (none, fs) => (.value (-1), t.withFs fs)
    | (some inode, fs) =>
      match fdFree t.files.table k with
      | none => (.value (-1), t.withFs fs)
      | some _ => share { t with
          files := t.files.new ⟨openFlags flags, 0, inode⟩
          fs := fs } k t.files.next
  else (.value (-1), t)

def sysClose (fd : U64) : Reply × Spec κ ι :=
  match t.get k fd with
  | none => (.value (-1), t)
  | some _ =>
    if h : fd.toNat < maxFds then (.value 0, t.setFd (k, ⟨fd.toNat, h⟩) none) else (.value (-1), t)

def sysDup (fd : U64) : Reply × Spec κ ι :=
  match t.get k fd with
  | none => (.value (-1), t)
  | some x => t.share k x

def sysDup2 (oldFd newFd : U64) : Reply × Spec κ ι :=
  match t.get k oldFd with
  | none => (.value (-1), t)
  | some x =>
    if h : newFd.toNat < maxFds then (.value newFd, t.setFd (k, ⟨newFd.toNat, h⟩) (some x))
    else (.value (-1), t)

def fileCall (c : FileCall κ ι) : Reply × Spec κ ι :=
  if c.valid then
    match t.file k c.fd with
    | none => ((c.missing t.fs).1, t.withFs (c.missing t.fs).2)
    | some (x, f) =>
      let (r, f, fs) := c.op f t.fs
      (r, { t with files := t.files.write x f, fs := fs })
  else (.value (-1), t)

/-- The child has the descriptors of its parent. -/
def procFork (kstackOk pml4Ok : Bool) : Reply × Spec κ ι :=
  match unusedProc t.procState with
  | none => (.value (-1), t)
  | some c =>
    if kstackOk && pml4Ok then
      (.child c, { t with
        procState := Function.update t.procState c .runnable
        files := { t.files with
          table := fun sl => t.files.table (if sl.1 = c then (k, sl.2) else sl) } })
    else (.value (-1), t)

def sysExit : Reply × Spec κ ι :=
  (.done, { t with
    procState := Function.update t.procState k .zombie
    files := { t.files with table := fun sl => if sl.1 = k then none else t.files.table sl } })

def perform (D : Driver κ ι) (t : Spec κ ι) : Fin maxProcs × Call → Reply × Spec κ ι
  | (k, .sysOpen path name flags page) => t.sysOpen D k path name flags page
  | (k, .sysClose fd) => t.sysClose k fd
  | (k, .sysDup fd) => t.sysDup k fd
  | (k, .sysDup2 oldFd newFd) => t.sysDup2 k oldFd newFd
  | (k, .sysRead fd buf len) => t.fileCall k (sysRead D fd buf len)
  | (k, .sysWrite fd buf len data) => t.fileCall k (sysWrite D fd buf len data)
  | (k, .sysSeek fd off whence) => t.fileCall k (sysSeek D fd off whence)
  | (k, .sysFstat fd st) => t.fileCall k (sysFstat D fd st)
  | (k, .procFork kstackOk pml4Ok) => t.procFork k kstackOk pml4Ok
  | (k, .sysExit) => t.sysExit k
  | (k, .reap) => (.done, t.setProcState k .unused)

def init (fs : κ) : Spec κ ι where
  procState k := if k = 0 then .runnable else .unused
  files := ⟨fun _ => none, []⟩
  fs := fs

end Spec

end Jeos.OpenFiles
