import Jeos.PipeLifetime

/-!
# Reference counts of files, and 64-bit descriptors

The calls on descriptors together with the two functions that open files on their own :
`proc_exec`, which reads the program with `read_elf`, and `proc_create`, which also gives the
new process its first three descriptors. In every state of a run in which the descriptor
arguments are below 2^32 the count of a file is the number of slots that hold it, and no call
meets a freed file (`refcounts_right`).

`fd_get` takes an `i32`, so `sys_close` and `sys_dup2` look a 64-bit descriptor up under its
lower half and then store to, or compare, the whole number. `sysCloseCall` and `sysDup2Call`
are the two calls with their return values and with a store that can miss the table. They keep
to the slots their arguments name exactly if the descriptor is a 32-bit number or its lower
half is not open (`wide_descriptors_iff`).

The hooks `open` and `close` of the file systems only return `VFS_OK`.
-/

namespace Jeos

open SlotTable

/-- What `vfs_open` finds : nothing, or an inode whose operations can read and can write. -/
abbrev Opened := Option (VfsInode × Bool × Bool)

/-- How far `read_elf` gets : `vfs_open`, `vfs_fstat`, `kalloc` and `vfs_read`. -/
structure ElfRead where
  opened : Opened
  statOk : Bool
  bufOk : Bool
  readOk : Bool

/-- A call on descriptors, or one of the functions that open files. -/
inductive FileEvent where
  | call (e : FdEvent)
  | procExec (k : Fin maxProcs) (elf : ElfRead)
  | procCreate (elf : ElfRead) (kstackOk pml4Ok loadOk : Bool) (stdin stdout : Opened)

/-- The descriptors of the event are 32-bit numbers. -/
def FileEvent.Narrow : FileEvent → Prop
  | .call e => e.Narrow
  | _ => True

namespace FileSystemState

variable (s : FileSystemState)

/-! ## `read_elf`, `proc_exec` and `proc_create` -/

/-- `vfs_open` without `VFS_O_CREAT`. -/
def vfsOpen : Opened → FileSystemState × Option ℕ
  | none => (s, none)
  | some (inode, read, write) =>
    (s.newFile { inode with priv := none } (some (.driver read write)), some s.nextFile)

/-- `read_elf` : the state, and whether there is a buffer. -/
def readElf (elf : ElfRead) : Option (FileSystemState × Bool) :=
  match s.vfsOpen elf.opened with
  | (s₁, none) => some (s₁, false)
  | (s₁, some f) =>
    if !elf.statOk then (s₁.vfsClose f).map fun s₂ => (s₂, false)
    else if !elf.bufOk then (s₁.vfsClose f).map fun s₂ => (s₂, false)
    else if !elf.readOk then (s₁.vfsClose f).map fun s₂ => (s₂, false)
    else (s₁.vfsClose f).map fun s₂ => (s₂, true)

/-- `proc_exec`. Behind `read_elf` it leaves files and descriptors alone. -/
def procExec (elf : ElfRead) : Option FileSystemState := (s.readElf elf).map Prod.fst

/-- `proc_init_fds`. -/
def procInitFds (c : Fin maxProcs) (stdin stdout : Opened) : Option FileSystemState :=
  let s₂ := match s.vfsOpen stdin with
    | (s₁, some f) => s₁.setFd (c, 0) (some f)
    | (s₁, none) => s₁
  match s₂.vfsOpen stdout with
  | (s₃, some f) =>
    ((s₃.setFd (c, 1) (some f)).vfsFileGet f).map fun s₄ => s₄.setFd (c, 2) (some f)
  | (s₃, none) => some s₃

/-- `proc_create`. -/
def procCreate (elf : ElfRead) (kstackOk pml4Ok loadOk : Bool) (stdin stdout : Opened) :
    Option FileSystemState :=
  match s.readElf elf with
  | none => none
  | some (s₁, false) => some s₁
  | some (s₁, true) =>
    match s₁.unusedProc with
    | none => some s₁
    | some c =>
      if kstackOk && pml4Ok && loadOk then
        ((s₁.setProcState c .embryo).procInitFds c stdin stdout).map fun s₂ =>
          s₂.setProcState c .runnable
      else some s₁

/-- The caller can make the call. `proc_create` is called by the kernel. -/
def FileEnabled : FileEvent → Prop
  | .call e => s.Enabled e
  | .procExec k _ => (s.procState k).alive = true
  | .procCreate _ _ _ _ _ _ => True

instance (e : FileEvent) : Decidable (s.FileEnabled e) := by
  cases e <;> unfold FileEnabled <;> infer_instance

def filePerform : FileEvent → Option FileSystemState
  | .call e => s.perform e
  | .procExec _ elf => s.procExec elf
  | .procCreate elf kstackOk pml4Ok loadOk stdin stdout =>
    s.procCreate elf kstackOk pml4Ok loadOk stdin stdout

def fileStep (e : FileEvent) : Option FileSystemState :=
  if s.FileEnabled e then s.filePerform e else none

/-- No process and no file. -/
def boot : FileSystemState := { init with procState := fun _ => .unused }

/-! ## What opening files does -/

/-- `s'` is `s` with more files, none of them an end of a pipe, and other references. -/
structure FilesOpened (s s' : FileSystemState) : Prop where
  pipe : s'.pipe = s.pipe
  nextPipe : s'.nextPipe = s.nextPipe
  procState : s'.procState = s.procState
  nextFile : s.nextFile ≤ s'.nextFile
  old : ∀ i < s.nextFile,
    (s'.file i).inode = (s.file i).inode ∧ (s'.file i).fops = (s.file i).fops
  new : ∀ i, s.nextFile ≤ i → i < s'.nextFile → (s'.file i).inode.priv = none

variable {s} {s' s₁ s₂ : FileSystemState} {extra : List ℕ} {i : ℕ}

theorem FilesOpened.trans (h : FilesOpened s s₁) (h' : FilesOpened s₁ s₂) : FilesOpened s s₂ where
  pipe := h'.pipe.trans h.pipe
  nextPipe := h'.nextPipe.trans h.nextPipe
  procState := h'.procState.trans h.procState
  nextFile := h.nextFile.trans h'.nextFile
  old i hi := by
    obtain ⟨h1, h2⟩ := h'.old i (Nat.lt_of_lt_of_le hi h.nextFile)
    exact ⟨h1.trans (h.old i hi).1, h2.trans (h.old i hi).2⟩
  new i hge hlt := by
    rcases Nat.lt_or_ge i s₁.nextFile with hi | hi
    · rw [(h'.old i hi).1]
      exact h.new i hge hi
    · exact h'.new i hi hlt

theorem SameObjects.filesOpened (h : SameObjects s s') : FilesOpened s s' where
  pipe := h.pipe
  nextPipe := h.nextPipe
  procState := h.procState
  nextFile := h.nextFile ▸ Nat.le_refl _
  old := h.old
  new _ hge hlt := absurd (h.nextFile ▸ hlt) (Nat.not_lt_of_le hge)

theorem filesOpened_newFile (s : FileSystemState) {inode : VfsInode} {fops : Option FileOps}
    (hp : inode.priv = none) : FilesOpened s (s.newFile inode fops) where
  pipe := rfl
  nextPipe := rfl
  procState := rfl
  nextFile := Nat.le_succ _
  old i hi := by simp [newFile, setFile, Nat.ne_of_lt hi]
  new i hge hlt := by
    obtain rfl : i = s.nextFile := Nat.le_antisymm (Nat.le_of_lt_succ hlt) hge
    simpa [newFile, setFile] using hp

/-- `vfs_open` fails, or makes a file with one reference, which is in the hands of the caller. -/
theorem vfsOpen_spec (h : FilesOk s extra) (opened : Opened) :
    s.vfsOpen opened = (s, none) ∨ ∃ s', s.vfsOpen opened = (s', some s.nextFile) ∧
      FilesOk s' (s.nextFile :: extra) ∧ FilesOpened s s' ∧ s'.fds = s.fds := by
  cases opened with
  | none => exact Or.inl rfl
  | some o =>
    obtain ⟨inode, read, write⟩ := o
    exact Or.inr ⟨_, rfl, newFile_spec h _ ⟨by simp, by simp⟩, filesOpened_newFile s rfl, rfl⟩

/-- `read_elf` closes the file it opens, however far it gets. -/
theorem readElf_spec (h : FilesOk s []) (elf : ElfRead) :
    ∃ s' b, s.readElf elf = some (s', b) ∧ FilesOk s' [] ∧ FilesOpened s s' ∧ s'.fds = s.fds := by
  unfold readElf
  rcases vfsOpen_spec h elf.opened with he | ⟨s₁, he, hok₁, hnew₁, hfds₁⟩
  · exact ⟨s, false, by rw [he], h, (SameObjects.refl s).filesOpened, rfl⟩
  · obtain ⟨s₂, hs₂, hok₂, hfds₂, hsame₂⟩ := vfsClose_spec hok₁
    refine ⟨s₂, elf.statOk && elf.bufOk && elf.readOk, ?_, hok₂,
      hnew₁.trans hsame₂.filesOpened, hfds₂.trans hfds₁⟩
    simp only [he, hs₂, Option.map_some]
    cases elf.statOk <;> cases elf.bufOk <;> cases elf.readOk <;> rfl

theorem procInitFds_spec (h : FilesOk s []) {c : Fin maxProcs} (hc : ∀ fd, s.fds (c, fd) = none)
    (stdin stdout : Opened) :
    ∃ s', s.procInitFds c stdin stdout = some s' ∧ FilesOk s' [] ∧ FilesOpened s s' ∧
      ∀ sl : FdSlot, sl.1 ≠ c → s'.fds sl = s.fds sl := by
  have hother : ∀ {sl : FdSlot} {fd : Fin maxFds}, sl.1 ≠ c → sl ≠ (c, fd) := fun hsl e =>
    hsl (congrArg Prod.fst e)
  -- The two calls of `vfs_open` are apart : the second starts from the state `s₂`.
  have hin : ∃ s₂, (match s.vfsOpen stdin with
      | (s₁, some f) => s₁.setFd (c, 0) (some f)
      | (s₁, none) => s₁) = s₂ ∧ FilesOk s₂ [] ∧ FilesOpened s s₂ ∧
      ∀ sl, sl ≠ (c, 0) → s₂.fds sl = s.fds sl := by
    rcases vfsOpen_spec h stdin with he | ⟨s₁, he, hok₁, hnew₁, hfds₁⟩
    · exact ⟨s, by rw [he], h, (SameObjects.refl s).filesOpened, fun _ _ => rfl⟩
    · refine ⟨s₁.setFd (c, 0) (some s.nextFile), by rw [he], hok₁.fillFd (hfds₁ ▸ hc 0),
        hnew₁.trans (sameObjects_setFd _ _ _).filesOpened, fun sl hsl => ?_⟩
      rw [← hfds₁]
      exact Function.update_of_ne hsl _ _
  obtain ⟨s₂, he₂, hok₂, hnew₂, hfds₂⟩ := hin
  simp only [procInitFds, he₂]
  rcases vfsOpen_spec hok₂ stdout with he | ⟨s₃, he, hok₃, hnew₃, hfds₃⟩
  · exact ⟨s₂, by rw [he], hok₂, hnew₂, fun sl hsl => hfds₂ sl (hother hsl)⟩
  · have hfree : ∀ fd : Fin maxFds, fd ≠ 0 → s₃.fds (c, fd) = none := fun fd hfd => by
      rw [hfds₃, hfds₂ _ fun e => hfd (congrArg Prod.snd e), hc]
    have hok₄ := hok₃.fillFd (hfree 1 (by decide))
    have hself : (s₃.setFd (c, 1) (some s₂.nextFile)).fds (c, 1) = some s₂.nextFile := by
      simp [setFd]
    obtain ⟨s₅, he₅, hok₅, hfds₅, hsame₅⟩ :=
      vfsFileGet_spec hok₄ (hok₄.live_of_fd hself) (by simp)
    have hfree₅ : s₅.fds (c, 2) = none := by
      rw [hfds₅]
      simpa [setFd] using hfree 2 (by decide)
    refine ⟨s₅.setFd (c, 2) (some s₂.nextFile), ?_, hok₅.fillFd hfree₅, ?_, fun sl hsl => ?_⟩
    · simp only [he, he₅, Option.map_some]
    · exact hnew₂.trans (hnew₃.trans ((sameObjects_setFd _ _ _).trans
        (hsame₅.trans (sameObjects_setFd _ _ _))).filesOpened)
    · simp only [setFd, hfds₅, Function.update_of_ne (hother hsl), hfds₃, hfds₂ sl (hother hsl)]

/-! ## The invariant -/

/-- Opening files keeps the invariant of the runs of calls. -/
theorem PipesOk.opened (h : PipesOk s) (hok : FilesOk s' []) (hnew : FilesOpened s s')
    (hidle : ∀ k, (s.procState k).alive = false → ∀ fd, s'.fds (k, fd) = none) : PipesOk s' where
  files := hok
  idle k hk := hidle k (hnew.procState ▸ hk)
  priv i hi q hq := by
    rcases Nat.lt_or_ge i s.nextFile with hlt | hge
    · rw [(hnew.old i hlt).2, hnew.nextPipe]
      exact h.priv i hlt q ((hnew.old i hlt).1 ▸ hq)
    · rw [hnew.new i hge hi] at hq
      exact absurd hq (by simp)
  pipe q hq := by
    rw [hnew.pipe]
    exact h.pipe q (hnew.nextPipe ▸ hq)

theorem PipesOk.readElf (h : PipesOk s) (elf : ElfRead) :
    ∃ s' b, s.readElf elf = some (s', b) ∧ PipesOk s' := by
  obtain ⟨s', b, hs', hok, hnew, hfds⟩ := readElf_spec h.files elf
  exact ⟨s', b, hs', h.opened hok hnew fun k hk fd => hfds ▸ h.idle k hk fd⟩

/-- `proc_create` returns in every case. -/
theorem PipesOk.procCreate (h : PipesOk s) (elf : ElfRead) (kstackOk pml4Ok loadOk : Bool)
    (stdin stdout : Opened) :
    ∃ s', s.procCreate elf kstackOk pml4Ok loadOk stdin stdout = some s' ∧ PipesOk s' := by
  obtain ⟨s₁, b, hs₁, hok₁⟩ := h.readElf elf
  unfold FileSystemState.procCreate
  cases b with
  | false => exact ⟨s₁, by rw [hs₁], hok₁⟩
  | true =>
    simp only [hs₁]
    cases hc : s₁.unusedProc with
    | none => exact ⟨s₁, rfl, hok₁⟩
    | some c =>
      have hcu : s₁.procState c = .unused := by simpa using List.find?_some hc
      have hfree : ∀ fd, s₁.fds (c, fd) = none := hok₁.idle c (by rw [hcu]; rfl)
      dsimp only
      split_ifs with hyes
      · obtain ⟨s₂, hs₂, hok₂, hnew₂, hfds₂⟩ :=
          procInitFds_spec (hok₁.files.setProcState c .embryo) hfree stdin stdout
        refine ⟨s₂.setProcState c .runnable, by rw [hs₂, Option.map_some], ?_⟩
        have hrun : PipesOk (s₁.setProcState c .runnable) := hok₁.setProcState (Or.inl rfl)
        have hps : (s₂.setProcState c .runnable).procState =
            (s₁.setProcState c .runnable).procState := by
          simp [FileSystemState.setProcState, hnew₂.procState]
        refine hrun.opened (hok₂.setProcState c .runnable)
          ⟨hnew₂.pipe, hnew₂.nextPipe, hps, hnew₂.nextFile, hnew₂.old, hnew₂.new⟩ fun k hk fd => ?_
        have hkc : k ≠ c := fun e => by
          simp [FileSystemState.setProcState, e, ProcState.alive] at hk
        exact (hfds₂ (k, fd) hkc).trans (hrun.idle k hk fd)
      · exact ⟨s₁, rfl, hok₁⟩

theorem TableStep.pipesOk_or {e : FdEvent}
    (h : TableStep s s' e ∧ s.HasRoom e ∨ PipeStep s s' e) : PipesOk s' := by
  rcases h with ⟨h, -⟩ | h
  · exact h.ok
  · exact h.ok

/-- Every call returns, so none of them meets a freed file. -/
theorem PipesOk.filePerform {e : FileEvent} (h : PipesOk s) (he : s.FileEnabled e)
    (hn : e.Narrow) : ∃ s', s.filePerform e = some s' ∧ PipesOk s' := by
  cases e with
  | call e =>
    obtain ⟨s', hs', hc⟩ := h.perform he hn
    exact ⟨s', hs', TableStep.pipesOk_or hc⟩
  | procExec k elf =>
    obtain ⟨s', b, hs', hok⟩ := h.readElf elf
    exact ⟨s', by rw [FileSystemState.filePerform, procExec, hs', Option.map_some], hok⟩
  | procCreate elf kstackOk pml4Ok loadOk stdin stdout =>
    exact h.procCreate elf kstackOk pml4Ok loadOk stdin stdout

theorem PipesOk.fileStep {e : FileEvent} (h : PipesOk s) (hn : e.Narrow)
    (hs : s.fileStep e = some s') : PipesOk s' := by
  unfold FileSystemState.fileStep at hs
  split_ifs at hs with he
  obtain ⟨s₁, hs₁, hok⟩ := h.filePerform he hn
  exact Option.some.inj (hs₁.symm.trans hs) ▸ hok

theorem pipesOk_boot : PipesOk boot where
  files := ⟨pipesOk_init.files.counts, pipesOk_init.files.live, pipesOk_init.files.fops,
    pipesOk_init.files.fresh⟩
  idle _ _ _ := rfl
  priv := pipesOk_init.priv
  pipe := pipesOk_init.pipe

/-- The count of a file is the number of slots that hold it, and a file is there as long as a
slot holds it. -/
structure RefcountsRight (s : FileSystemState) : Prop where
  refcnt : ∀ i, (s.file i).live = true → (s.file i).refcnt.toNat = refs s.fds i
  live : ∀ i, (s.file i).live = true ↔ refs s.fds i ≠ 0
  slots : ∀ sl i, s.fds sl = some i → (s.file i).live = true

theorem PipesOk.refcnt_eq (h : PipesOk s) (i : ℕ) : (s.file i).refcnt.toNat = refs s.fds i := by
  simpa using h.files.counts i

theorem PipesOk.refcountsRight (h : PipesOk s) : RefcountsRight s where
  refcnt i _ := h.refcnt_eq i
  live i := by
    rw [h.files.live i, decide_eq_true_eq, ← h.refcnt_eq i]
    exact not_congr ⟨fun h0 => by rw [h0]; rfl, fun h0 => BitVec.eq_of_toNat_eq h0⟩
  slots _ _ hi := h.files.live_of_fd hi

/-- The caller's table has no slot for what the call wants to put in it. -/
def FdAllocFails (s : FileSystemState) : FileEvent → Prop
  | .call (.sysOpen k (some _)) => ∀ fd, s.fds (k, fd) ≠ none
  | .call (.sysDup k _) => ∀ fd, s.fds (k, fd) ≠ none
  | .call (.sysPipe k fdsPtr a) => ¬s.HasRoom (.sysPipe k fdsPtr a)
  | _ => False

/-- If `fd_alloc` fails, the descriptors stay as they were. -/
theorem PipesOk.fds_of_fdAllocFails {e : FileEvent} (h : PipesOk s) (hf : s.FdAllocFails e)
    (hs : s.fileStep e = some s') : s'.fds = s.fds := by
  unfold FileSystemState.fileStep at hs
  split_ifs at hs
  cases e with
  | procExec k elf => exact hf.elim
  | procCreate elf kstackOk pml4Ok loadOk stdin stdout => exact hf.elim
  | call e =>
    change s.perform e = some s' at hs
    cases e with
    | sysOpen k opened =>
      cases opened with
      | none => exact hf.elim
      | some o =>
        obtain ⟨s₁, hs₁, -, -, -, -, -, -, -, hfds | ⟨fd, hfree, -⟩⟩ :=
          sysOpen_spec h.files k (some o)
        · obtain rfl : s₁ = s' := Option.some.inj (hs₁.symm.trans hs)
          exact hfds
        · exact absurd hfree (hf fd)
    | sysDup k fd =>
      obtain ⟨s₁, hs₁, -, -, hfds | ⟨i, sl, fd', -, hfree, -⟩⟩ := sysDup_spec h.files k fd
      · obtain rfl : s₁ = s' := Option.some.inj (hs₁.symm.trans hs)
        exact hfds
      · exact absurd hfree (hf fd')
    | sysPipe k fdsPtr a =>
      obtain ⟨s₁, r, hs₁, -, hc⟩ := sysPipe_spec h.files k fdsPtr a
      rw [FileSystemState.perform, hs₁, Option.map_some] at hs
      obtain rfl : s₁ = s' := Option.some.inj hs
      obtain ⟨-, hfds, -⟩ | ⟨-, -, ⟨fd, fd', hne, -, hfd, hfd', -⟩ | ⟨-, hfds⟩⟩ := hc
      · exact hfds
      · exact absurd (fun _ => ⟨fd, fd', hne, hfd, hfd'⟩) hf
      · exact hfds
    | _ => exact hf.elim

/-- From boot on, any processes, in any order : the counts are right in every state, every
further call returns in such a state, and a call whose `fd_alloc` fails changes no slot, no
count and no file's life. -/
theorem refcounts_right {es : List FileEvent} (hn : ∀ e ∈ es, e.Narrow)
    (hr : Run.run fileStep boot es = some s) :
    RefcountsRight s ∧ ∀ e, s.FileEnabled e → e.Narrow →
      ∃ s', s.fileStep e = some s' ∧ RefcountsRight s' ∧
        (∀ i, (s.file i).live = true → ((s'.file i).live = false ↔ refs s'.fds i = 0)) ∧
        (s.FdAllocFails e → s'.fds = s.fds ∧
          ∀ i, (s'.file i).refcnt = (s.file i).refcnt ∧ (s'.file i).live = (s.file i).live) := by
  have h : PipesOk s :=
    Run.run_invariant_of (fun _ _ _ h hn hs => h.fileStep hn hs) pipesOk_boot hn hr
  refine ⟨h.refcountsRight, fun e he hne => ?_⟩
  obtain ⟨s', hs', h'⟩ := h.filePerform he hne
  have hstep : s.fileStep e = some s' := (if_pos he).trans hs'
  refine ⟨s', hstep, h'.refcountsRight, fun i _ => ?_, fun hf => ?_⟩
  · rw [← Bool.not_eq_true, h'.refcountsRight.live i, not_not]
  · have hfds := h.fds_of_fdAllocFails hf hstep
    have hcnt : ∀ i, (s'.file i).refcnt = (s.file i).refcnt := fun i =>
      BitVec.eq_of_toNat_eq (by rw [h'.refcnt_eq, h.refcnt_eq, hfds])
    exact ⟨hfds, fun i => ⟨hcnt i, by rw [h'.files.live, h.files.live, hcnt]⟩⟩

/-- Two processes with the console open ; the child has closed its last descriptor. -/
theorem refcounts_right_fork :
    ∃ s, Run.run fileStep boot
        [.procCreate ⟨some (⟨7, none, none⟩, true, false), true, true, true⟩ true true true
          (some (⟨3, none, none⟩, true, false)) (some (⟨3, none, none⟩, false, true)),
          .call (.procFork 0 true true), .call (.sysClose 1 2)] = some s ∧
      RefcountsRight s ∧ ∀ e, s.FileEnabled e → e.Narrow →
        ∃ s', s.fileStep e = some s' ∧ RefcountsRight s' ∧
          (∀ i, (s.file i).live = true → ((s'.file i).live = false ↔ refs s'.fds i = 0)) ∧
          (s.FdAllocFails e → s'.fds = s.fds ∧
            ∀ i, (s'.file i).refcnt = (s.file i).refcnt ∧ (s'.file i).live = (s.file i).live) := by
  have hs : (Run.run fileStep boot
      [.procCreate ⟨some (⟨7, none, none⟩, true, false), true, true, true⟩ true true true
        (some (⟨3, none, none⟩, true, false)) (some (⟨3, none, none⟩, false, true)),
        .call (.procFork 0 true true), .call (.sysClose 1 2)]).isSome := by decide
  obtain ⟨s, hs⟩ := Option.isSome_iff_exists.1 hs
  exact ⟨s, hs, refcounts_right (by simp [FileEvent.Narrow, FdEvent.Narrow]) hs⟩

/-! ## 64-bit descriptors -/

/-- The state after a call, its value, and the distance from `p->files` of an eight-byte store
that does not hit the table. -/
structure FdReturn where
  state : FileSystemState
  value : U64
  stray : Option U64

/-- The slot at which `p->files[fd]` is, if it is one : `fd` is scaled to bytes modulo 2^64. -/
def slotAt (fd : U64) : Option (Fin maxFds) :=
  if h : (8 * fd).toNat < 8 * maxFds then some ⟨(8 * fd).toNat / 8, by omega⟩ else none

/-- `p->files[fd] = 0`. -/
def clearAt (s : FileSystemState) (k : Fin maxProcs) (fd : U64) : FileSystemState × Option U64 :=
  match slotAt fd with
  | some fd' => (s.setFd (k, fd') none, none)
  | none => (s, some (8 * fd))

/-- `sys_close`. -/
def sysCloseCall (s : FileSystemState) (k : Fin maxProcs) (fd : U64) : Option FdReturn :=
  match s.fdGet k (fd.setWidth 32) with
  | none => some ⟨s, -1, none⟩
  | some f => ((s.clearAt k fd).1.vfsClose f).map fun s' => ⟨s', 0, (s.clearAt k fd).2⟩

/-- `sys_dup2`. -/
def sysDup2Call (s : FileSystemState) (k : Fin maxProcs) (oldFd newFd : U64) : Option FdReturn :=
  if h : newFd.toNat < maxFds then
    match s.fdGet k (oldFd.setWidth 32) with
    | none => some ⟨s, -1, none⟩
    | some f =>
      if oldFd = newFd then some ⟨s, newFd, none⟩
      else
        (s.closeSlot (k, ⟨newFd.toNat, h⟩)).bind fun s₁ =>
          (s₁.vfsFileGet f).map fun s₂ =>
            ⟨s₂.setFd (k, ⟨newFd.toNat, h⟩) (some f), newFd, none⟩
  else some ⟨s, -1, none⟩

/-- The file of descriptor `fd`, a number of any size. -/
def openFile (s : FileSystemState) (k : Fin maxProcs) (fd : U64) : Option ℕ :=
  if h : fd.toNat < maxFds then s.fds (k, ⟨fd.toNat, h⟩) else none

/-- `sys_close(fd)` closes the open slot `fd` and nothing else, or fails and changes nothing. -/
def CloseExact (s : FileSystemState) (k : Fin maxProcs) (fd : U64) : Prop :=
  ∃ r, s.sysCloseCall k fd = some r ∧ r.stray = none ∧
    match s.openFile k fd with
    | none => r.value = -1 ∧ r.state = s
    | some _ => r.value = 0 ∧ r.state.procState = s.procState ∧
        r.state.fds = fun sl => if sl.1 = k ∧ sl.2.val = fd.toNat then none else s.fds sl

/-- `sys_dup2(old, new)` makes the slot `new` refer to the live file of the open slot `old` and
changes no other slot, or fails and changes nothing. -/
def Dup2Exact (s : FileSystemState) (k : Fin maxProcs) (oldFd newFd : U64) : Prop :=
  ∃ r, s.sysDup2Call k oldFd newFd = some r ∧ r.stray = none ∧
    match s.openFile k oldFd with
    | some f => if newFd.toNat < maxFds then
        r.value = newFd ∧ (r.state.file f).live = true ∧
          r.state.fds = fun sl => if sl.1 = k ∧ sl.2.val = newFd.toNat then some f else s.fds sl
      else r.value = -1 ∧ r.state = s
    | none => r.value = -1 ∧ r.state = s

variable {k : Fin maxProcs} {fd oldFd newFd : U64} {f : ℕ}

theorem fdGet_eq_openFile (hfd : fd.toNat < 2 ^ 32) :
    s.fdGet k (fd.setWidth 32) = s.openFile k fd := fdGet_eq hfd

theorem lt_of_openFile (h : s.openFile k fd = some f) : fd.toNat < maxFds := by
  unfold openFile at h
  split_ifs at h with hlt
  exact hlt

theorem openFile_eq_none (hfd : 2 ^ 32 ≤ fd.toNat) : s.openFile k fd = none :=
  dif_neg fun h => by
    have : fd.toNat < 32 := h
    omega

/-- An open descriptor is found under its lower half. -/
theorem openFile_eq_none_of_fdGet (h : s.fdGet k (fd.setWidth 32) = none) :
    s.openFile k fd = none := by
  rcases Nat.lt_or_ge fd.toNat (2 ^ 32) with hlt | hge
  · rw [← fdGet_eq_openFile hlt, h]
  · exact openFile_eq_none hge

theorem slotAt_eq (h : fd.toNat < maxFds) : slotAt fd = some ⟨fd.toNat, h⟩ := by
  have hb : (8 * fd).toNat = 8 * fd.toNat := by
    have : fd.toNat < 32 := h
    bv_omega
  unfold slotAt
  rw [dif_pos (by rw [hb]; exact Nat.mul_lt_mul_of_pos_left h (by decide))]
  simp only [hb, Nat.mul_div_cancel_left _ (show 0 < 8 by decide)]

/-- Without the upper half the call is the one of the runs. -/
theorem sysCloseCall_state (hfd : fd.toNat < 2 ^ 32) :
    s.sysCloseCall k fd = (s.sysClose k fd).map fun s' =>
      ⟨s', if s.openFile k fd = none then -1 else 0, none⟩ := by
  unfold sysCloseCall sysClose
  rw [fdGet_eq_openFile hfd]
  cases hf : s.openFile k fd with
  | none => rfl
  | some f =>
    have hlt := lt_of_openFile hf
    simp only [clearAt, slotAt_eq hlt, dif_pos hlt]
    rfl

theorem sysDup2Call_state (s : FileSystemState) (k : Fin maxProcs) (oldFd newFd : U64) :
    (s.sysDup2Call k oldFd newFd).map FdReturn.state = s.sysDup2 k oldFd newFd := by
  unfold sysDup2Call sysDup2
  by_cases hnew : newFd.toNat < maxFds
  · rw [dif_pos hnew, dif_pos hnew]
    cases s.fdGet k (oldFd.setWidth 32) with
    | none => rfl
    | some f =>
      by_cases he : oldFd = newFd
      · simp only [if_pos he, Option.map_some]
      · simp only [if_neg he, Option.map_bind, Function.comp_def, Option.map_map]
  · rw [dif_neg hnew, dif_neg hnew]
    rfl

/-- A successful `sys_dup2` returns the new descriptor. -/
theorem sysDup2Call_value {r : FdReturn} (hf : s.fdGet k (oldFd.setWidth 32) = some f)
    (hnew : newFd.toNat < maxFds) (hr : s.sysDup2Call k oldFd newFd = some r) :
    r.value = newFd ∧ r.stray = none := by
  unfold sysDup2Call at hr
  rw [dif_pos hnew, hf] at hr
  dsimp only at hr
  split_ifs at hr
  · exact Option.some.inj hr ▸ ⟨rfl, rfl⟩
  · obtain ⟨s₁, -, hr⟩ := Option.bind_eq_some_iff.1 hr
    obtain ⟨s₂, -, rfl⟩ := Option.map_eq_some_iff.1 hr
    exact ⟨rfl, rfl⟩

theorem closeExact_iff (h : FilesOk s []) (k : Fin maxProcs) (fd : U64) :
    s.CloseExact k fd ↔ s.fdGet k (fd.setWidth 32) = none ∨ fd.toNat < 2 ^ 32 := by
  constructor
  · rintro ⟨r, hr, -, hexact⟩
    by_contra hno
    rw [not_or, Nat.not_lt] at hno
    rw [openFile_eq_none hno.2] at hexact
    unfold sysCloseCall at hr
    split at hr
    case h_1 hf => exact hno.1 hf
    case h_2 f _ =>
      -- The call returns 0 for a descriptor that is not open.
      obtain ⟨s', -, rfl⟩ := Option.map_eq_some_iff.1 hr
      exact absurd hexact.1 (show ¬(0 : U64) = -1 by decide)
  · rintro (hf | hfd)
    · refine ⟨⟨s, -1, none⟩, by rw [sysCloseCall, hf], rfl, ?_⟩
      rw [openFile_eq_none_of_fdGet hf]
      exact ⟨rfl, rfl⟩
    · obtain ⟨s', hs', -, hsame, hfds⟩ := sysClose_spec h (k := k) hfd
      refine ⟨_, by rw [sysCloseCall_state hfd, hs', Option.map_some], rfl, ?_⟩
      cases hf : s.openFile k fd with
      | none =>
        rw [sysClose, fdGet_eq_openFile hfd, hf] at hs'
        exact ⟨rfl, (Option.some.inj hs').symm⟩
      | some f => exact ⟨rfl, hsame.procState, hfds⟩

theorem dup2Exact_iff (h : FilesOk s []) (k : Fin maxProcs) (oldFd newFd : U64) :
    s.Dup2Exact k oldFd newFd ↔ maxFds ≤ newFd.toNat ∨
      s.fdGet k (oldFd.setWidth 32) = none ∨ oldFd.toNat < 2 ^ 32 := by
  constructor
  · rintro ⟨r, hr, -, hexact⟩
    by_contra hno
    simp only [not_or, Nat.not_le, Nat.not_lt] at hno
    obtain ⟨hnew, hf, hold⟩ := hno
    obtain ⟨f, hf⟩ := Option.ne_none_iff_exists'.1 hf
    rw [openFile_eq_none hold] at hexact
    have hv : newFd = -1 := (sysDup2Call_value hf hnew hr).1.symm.trans hexact.1
    rw [hv] at hnew
    exact absurd hnew (by decide)
  · intro hyes
    rcases Nat.lt_or_ge newFd.toNat maxFds with hnew | hnew
    · cases hf : s.fdGet k (oldFd.setWidth 32) with
      | none =>
        refine ⟨⟨s, -1, none⟩, by rw [sysDup2Call, dif_pos hnew, hf], rfl, ?_⟩
        rw [openFile_eq_none_of_fdGet hf]
        exact ⟨rfl, rfl⟩
      | some f =>
        have hold : oldFd.toNat < 2 ^ 32 := by
          rcases hyes with hge | hnone | hlt
          · exact absurd hnew (Nat.not_lt_of_le hge)
          · rw [hf] at hnone
            cases hnone
          · exact hlt
        obtain ⟨s', hs', hok, -, hc⟩ := @sysDup2_spec s h k oldFd newFd hold
        rw [← sysDup2Call_state] at hs'
        obtain ⟨r, hr, rfl⟩ := Option.map_eq_some_iff.1 hs'
        obtain ⟨hv, hstray⟩ := sysDup2Call_value hf hnew hr
        have hopen : s.openFile k oldFd = some f := by rw [← fdGet_eq_openFile hold, hf]
        refine ⟨r, hr, hstray, ?_⟩
        rw [hopen]
        dsimp only
        rw [if_pos hnew]
        have htab : ∀ {T : FdSlot → Option ℕ}, Function.update T (k, ⟨newFd.toNat, hnew⟩) (some f) =
            fun sl => if sl.1 = k ∧ sl.2.val = newFd.toNat then some f else T sl := by
          intro T
          ext1 sl
          simp [Function.update_apply, Prod.ext_iff, Fin.ext_iff]
        have hfds : r.state.fds = Function.update s.fds (k, ⟨newFd.toNat, hnew⟩) (some f) := by
          rcases hc with ⟨hfds, hno | heq | hge⟩ | ⟨i, fd, fd', -, -, hval, hi, -, hfds⟩
          · rw [hf] at hno
            cases hno
          · have hlt := lt_of_openFile hopen
            have hself : s.fds (k, ⟨newFd.toNat, hnew⟩) = some f := by
              subst heq
              simpa only [openFile, dif_pos hlt] using hopen
            rw [hfds, ← hself, Function.update_eq_self]
          · exact absurd hnew (Nat.not_lt_of_le hge)
          · obtain rfl : f = i := Option.some.inj (hf.symm.trans hi)
            obtain rfl : fd' = ⟨newFd.toNat, hnew⟩ := Fin.ext hval
            exact hfds
        have hslot : r.state.fds (k, ⟨newFd.toNat, hnew⟩) = some f := by
          rw [hfds, Function.update_self]
        exact ⟨hv, hok.live_of_fd hslot, hfds.trans htab⟩
    · refine ⟨⟨s, -1, none⟩, by rw [sysDup2Call, dif_neg (Nat.not_lt_of_le hnew)], rfl, ?_⟩
      cases s.openFile k oldFd with
      | none => exact ⟨rfl, rfl⟩
      | some f =>
        dsimp only
        rw [if_neg (Nat.not_lt_of_le hnew)]
        exact ⟨rfl, rfl⟩

/-- `sys_close` and `sys_dup2` keep to the slots their arguments name exactly if no lower half
of a wider number is taken for an open descriptor. -/
theorem wide_descriptors_iff (h : FilesOk s []) (k : Fin maxProcs) :
    (∀ fd, s.CloseExact k fd ↔ s.fdGet k (fd.setWidth 32) = none ∨ fd.toNat < 2 ^ 32) ∧
      ∀ oldFd newFd, s.Dup2Exact k oldFd newFd ↔ maxFds ≤ newFd.toNat ∨
        s.fdGet k (oldFd.setWidth 32) = none ∨ oldFd.toNat < 2 ^ 32 :=
  ⟨closeExact_iff h k, dup2Exact_iff h k⟩

theorem wide_descriptors_iff_init :
    (∀ fd, init.CloseExact 0 fd ↔ init.fdGet 0 (fd.setWidth 32) = none ∨ fd.toNat < 2 ^ 32) ∧
      ∀ oldFd newFd, init.Dup2Exact 0 oldFd newFd ↔ maxFds ≤ newFd.toNat ∨
        init.fdGet 0 (oldFd.setWidth 32) = none ∨ oldFd.toNat < 2 ^ 32 :=
  wide_descriptors_iff pipesOk_init.files 0

/-- With descriptor 0 open, `sys_close(2^32)` returns 0, leaves the slot with a freed file and
clears eight bytes 32 GiB behind the table, and `sys_dup2(2^32, 0)` meets the file it has just
freed. -/
theorem wide_close_leaves_freed_file :
    ∃ s, Run.run step init [.sysOpen 0 (some (⟨7, none, none⟩, true, false))] = some s ∧
      (∃ r, s.sysCloseCall 0 0x100000000 = some r ∧ r.value = 0 ∧ r.stray = some 0x800000000 ∧
        r.state.fds (0, 0) = some 0 ∧ (r.state.file 0).live = false) ∧
      s.sysDup2Call 0 0x100000000 0 = none ∧
      ¬s.CloseExact 0 0x100000000 ∧ ¬s.Dup2Exact 0 0x100000000 0 := by
  have hs : (Run.run step init [.sysOpen 0 (some (⟨7, none, none⟩, true, false))]).isSome := by
    decide
  obtain ⟨s, hs⟩ := Option.isSome_iff_exists.1 hs
  have hok : FilesOk s [] := (Run.run_invariant_of (G := FdEvent.Narrow)
    (fun _ _ _ h hn hs => TableStep.pipesOk_or (PipesOk.step h hn hs)) pipesOk_init
    (by simp [FdEvent.Narrow]) hs).files
  have hget : s.fdGet 0 ((0x100000000 : U64).setWidth 32) = some 0 := by
    have : (Run.run step init [.sysOpen 0 (some (⟨7, none, none⟩, true, false))]).bind
        (fun s => s.fdGet 0 ((0x100000000 : U64).setWidth 32)) = some 0 := by decide
    rwa [hs] at this
  have hclose : (s.sysCloseCall 0 0x100000000).map (fun r =>
      (r.value, r.stray, r.state.fds (0, 0), (r.state.file 0).live)) =
      some (0, some 0x800000000, some 0, false) := by
    have : (Run.run step init [.sysOpen 0 (some (⟨7, none, none⟩, true, false))]).bind
        (fun s => (s.sysCloseCall 0 0x100000000).map fun r =>
          (r.value, r.stray, r.state.fds (0, 0), (r.state.file 0).live)) =
        some (0, some 0x800000000, some 0, false) := by decide
    rwa [hs] at this
  have hdup : s.sysDup2Call 0 0x100000000 0 = none := by
    have : (Run.run step init [.sysOpen 0 (some (⟨7, none, none⟩, true, false))]).map
        (fun s => (s.sysDup2Call 0 0x100000000 0).isNone) = some true := by decide
    rw [hs] at this
    exact Option.isNone_iff_eq_none.1 (Option.some.inj this)
  obtain ⟨r, hr, he⟩ := Option.map_eq_some_iff.1 hclose
  simp only [Prod.mk.injEq] at he
  have hopen : s.fdGet 0 ((0x100000000 : U64).setWidth 32) ≠ none := fun h0 => by
    rw [h0] at hget
    cases hget
  refine ⟨s, hs, ⟨r, hr, he⟩, hdup, ?_, ?_⟩
  · rw [closeExact_iff hok, not_or]
    exact ⟨hopen, by decide⟩
  · rw [dup2Exact_iff hok, not_or, not_or]
    exact ⟨by decide, hopen, by decide⟩

end FileSystemState

end Jeos
