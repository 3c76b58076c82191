import Jeos.Descriptors
import Jeos.ExecSuccess

/-!
# `proc_create`

A process is made from a file : `proc_create` reads the program, takes an entry of the process
table, loads the program into new page tables, prepares the kernel stack and opens the console.

`kstack_setup` copies `p->tf` to the stack if its `rip` is not 0, and nobody clears the `tf` of an
entry that is given back. So the new process starts where its program says exactly if the entry
has no frame, or by chance the frame of the new process (`create_fresh_iff`). A frame is there once
a process of the entry has made a system call : a program that follows one that has exited starts
where that one called `exit` (`recycled_entry`).

The descriptors are those of `proc_init_fds` in every case, since after any history an entry that
cannot run has none (`idle_of_run`). The calls of `klog` are left out.
-/

set_option linter.unusedSectionVars false

namespace Jeos

open ByteMemory Machine FileSystemState Elf

/-! ## The descriptors of unused entries -/

namespace FileSystemState

variable {s s' s₁ s₂ : FileSystemState} {k c : Fin maxProcs} {i : ℕ} {sl : FdSlot} {x : Option ℕ}

/-- An entry that cannot run has no descriptors. -/
def Idle (s : FileSystemState) : Prop :=
  ∀ k, (s.procState k).alive = false → ∀ fd, s.fds (k, fd) = none

/-- The table of no process but `k` is another one. -/
structure OthersKept (s s' : FileSystemState) (k : Fin maxProcs) : Prop where
  procState : s'.procState = s.procState
  fds : ∀ sl : FdSlot, sl.1 ≠ k → s'.fds sl = s.fds sl

theorem OthersKept.refl (s : FileSystemState) (k : Fin maxProcs) : OthersKept s s k :=
  ⟨rfl, fun _ _ => rfl⟩

theorem OthersKept.trans (h : OthersKept s s₁ k) (h' : OthersKept s₁ s' k) : OthersKept s s' k :=
  ⟨h'.procState.trans h.procState, fun sl hsl => (h'.fds sl hsl).trans (h.fds sl hsl)⟩

theorem othersKept_of_eq (hp : s'.procState = s.procState) (hf : s'.fds = s.fds) :
    OthersKept s s' k := ⟨hp, fun _ _ => congrFun hf _⟩

theorem othersKept_setFd (s : FileSystemState) (hk : sl.1 = k) : OthersKept s (s.setFd sl x) k :=
  ⟨rfl, fun sl' hsl => Function.update_of_ne (fun e => hsl (by rw [e, hk])) _ _⟩

/-- What the process `k` does to its table while it can run. -/
theorem Idle.othersKept (h : Idle s) (ht : OthersKept s s' k)
    (hk : (s.procState k).alive = true) : Idle s' := by
  intro k' hk' fd
  rw [ht.procState] at hk'
  have hne : k' ≠ k := fun e => by
    rw [e, hk] at hk'
    cases hk'
  rw [ht.fds _ hne, h k' hk' fd]

theorem Idle.congr (h : Idle s) (hp : s'.procState = s.procState) (hf : s'.fds = s.fds) :
    Idle s' := fun k hk fd => by rw [hf, h k (hp ▸ hk) fd]

/-- A process whose table is empty can stop, and any process can go on. -/
theorem Idle.setProcState {st : ProcState} (h : Idle s)
    (hk : st.alive = true ∨ ∀ fd, s.fds (k, fd) = none) : Idle (s.setProcState k st) := by
  intro k' hk' fd
  by_cases he : k' = k
  · subst he
    rcases hk with hst | hnone
    · simp [FileSystemState.setProcState, hst] at hk'
    · exact hnone fd
  · simp only [FileSystemState.setProcState, Function.update_of_ne he] at hk'
    exact h k' hk' fd

theorem othersKept_newFile (s : FileSystemState) (inode : VfsInode) (fops : Option FileOps)
    (k : Fin maxProcs) : OthersKept s (s.newFile inode fops) k := othersKept_of_eq rfl rfl

theorem vfsFileGet_tables (h : s.vfsFileGet i = some s') :
    s'.procState = s.procState ∧ s'.fds = s.fds := by
  rw [vfsFileGet] at h
  split_ifs at h
  obtain rfl := Option.some.inj h
  exact ⟨rfl, rfl⟩

theorem vfsFilePut_tables (h : s.vfsFilePut i = some s') :
    s'.procState = s.procState ∧ s'.fds = s.fds := by
  rw [vfsFilePut] at h
  split_ifs at h
  obtain rfl := Option.some.inj h
  exact ⟨rfl, rfl⟩

theorem pipeClose_tables (h : s.pipeClose i = some s') :
    s'.procState = s.procState ∧ s'.fds = s.fds := by
  obtain ⟨q, -, rfl⟩ := Option.map_eq_some_iff.1 h
  dsimp only
  split_ifs
  · exact ⟨rfl, rfl⟩
  · exact ⟨rfl, rfl⟩

theorem vfsClose_tables (h : s.vfsClose i = some s') :
    s'.procState = s.procState ∧ s'.fds = s.fds := by
  have hpipe : (s.pipeClose i).bind (fun s₁ => s₁.vfsFilePut i) = some s' →
      s'.procState = s.procState ∧ s'.fds = s.fds := fun h => by
    obtain ⟨s₁, h₁, h₂⟩ := Option.bind_eq_some_iff.1 h
    obtain ⟨hp, hf⟩ := pipeClose_tables h₁
    obtain ⟨hp', hf'⟩ := vfsFilePut_tables h₂
    exact ⟨hp'.trans hp, hf'.trans hf⟩
  rw [vfsClose] at h
  split_ifs at h
  split at h
  · exact hpipe h
  · exact hpipe h
  · exact vfsFilePut_tables h

theorem fdAlloc_tables (s : FileSystemState) (k : Fin maxProcs) (i : ℕ) :
    OthersKept s (s.fdAlloc k i).1 k := by
  rcases fdAlloc_cases s k i with ⟨fd, -, he⟩ | ⟨-, he⟩
  · rw [he]
    exact othersKept_setFd s rfl
  · rw [he]
    exact OthersKept.refl s k

theorem closeSlot_tables (h : s.closeSlot sl = some s') :
    s'.procState = s.procState ∧ s'.fds = Function.update s.fds sl none := by
  rw [closeSlot] at h
  cases hi : s.fds sl with
  | none =>
    rw [hi] at h
    obtain rfl := Option.some.inj h
    exact ⟨rfl, by rw [← hi, Function.update_eq_self]⟩
  | some i =>
    rw [hi] at h
    obtain ⟨s₁, h₁, rfl⟩ := Option.map_eq_some_iff.1 h
    obtain ⟨hp, hf⟩ := vfsClose_tables h₁
    exact ⟨hp, by rw [← hf]; rfl⟩

/-- `vfs_open` makes a file and nothing else. -/
theorem vfsOpen_tables (s : FileSystemState) (o : Opened) :
    (s.vfsOpen o).1.procState = s.procState ∧ (s.vfsOpen o).1.fds = s.fds := by
  cases o with
  | none => exact ⟨rfl, rfl⟩
  | some o => exact ⟨rfl, rfl⟩

theorem readElf_tables {elf : ElfRead} {b : Bool} (h : s.readElf elf = some (s', b)) :
    s'.procState = s.procState ∧ s'.fds = s.fds := by
  obtain ⟨hp, hf⟩ := vfsOpen_tables s elf.opened
  rw [readElf] at h
  rcases ho : s.vfsOpen elf.opened with ⟨s₁, _ | f⟩ <;> rw [ho] at h hp hf
  · obtain ⟨rfl, -⟩ := Prod.mk.inj (Option.some.inj h)
    exact ⟨hp, hf⟩
  · have hclose : ∀ b', (s₁.vfsClose f).map (fun s₂ => (s₂, b')) = some (s', b) →
        s'.procState = s.procState ∧ s'.fds = s.fds := fun b' h => by
      obtain ⟨s₂, h₂, he⟩ := Option.map_eq_some_iff.1 h
      obtain ⟨rfl, -⟩ := Prod.mk.inj he
      obtain ⟨hp₂, hf₂⟩ := vfsClose_tables h₂
      exact ⟨hp₂.trans hp, hf₂.trans hf⟩
    dsimp only at h
    split_ifs at h
    · exact hclose _ h
    · exact hclose _ h
    · exact hclose _ h
    · exact hclose _ h

/-! ### Every call keeps the other tables -/

variable {fd newFd fdsPtr : U64} {a : PipeAllocs}

theorem sysOpen_others {o : Option (VfsInode × Bool × Bool)} (h : s.sysOpen k o = some s') :
    OthersKept s s' k := by
  cases o with
  | none =>
    obtain rfl := Option.some.inj h
    exact OthersKept.refl s k
  | some o =>
    obtain ⟨inode, read, write⟩ := o
    rw [sysOpen] at h
    rcases fdAlloc_cases (s.newFile { inode with priv := none } (some (.driver read write))) k
      s.nextFile with ⟨fd, -, he⟩ | ⟨-, he⟩
    · simp only [he] at h
      obtain rfl := Option.some.inj h
      exact (othersKept_newFile s _ _ k).trans (othersKept_setFd _ rfl)
    · simp only [he] at h
      obtain ⟨hp, hf⟩ := vfsClose_tables h
      exact (othersKept_newFile s _ _ k).trans (othersKept_of_eq hp hf)

theorem sysClose_others (h : s.sysClose k fd = some s') : OthersKept s s' k := by
  rw [sysClose] at h
  split at h
  · obtain rfl := Option.some.inj h
    exact OthersKept.refl s k
  · split_ifs at h
    obtain ⟨hp, hf⟩ := vfsClose_tables h
    exact (othersKept_setFd s rfl).trans (othersKept_of_eq hp hf)

theorem sysDup_others (h : s.sysDup k fd = some s') : OthersKept s s' k := by
  rw [sysDup] at h
  split at h
  · obtain rfl := Option.some.inj h
    exact OthersKept.refl s k
  · rename_i i _
    obtain ⟨s₁, h₁, h⟩ := Option.bind_eq_some_iff.1 h
    obtain ⟨hp₁, hf₁⟩ := vfsFileGet_tables h₁
    have hget : OthersKept s s₁ k := othersKept_of_eq hp₁ hf₁
    rcases fdAlloc_cases s₁ k i with ⟨fd, -, he⟩ | ⟨-, he⟩
    · simp only [he] at h
      obtain rfl := Option.some.inj h
      exact hget.trans (othersKept_setFd _ rfl)
    · simp only [he] at h
      obtain ⟨hp, hf⟩ := vfsClose_tables h
      exact hget.trans (othersKept_of_eq hp hf)

theorem sysDup2_others (h : s.sysDup2 k fd newFd = some s') : OthersKept s s' k := by
  have hsame : some s = some s' → OthersKept s s' k := fun h =>
    Option.some.inj h ▸ OthersKept.refl s k
  rw [sysDup2] at h
  by_cases hlt : newFd.toNat < maxFds
  · rw [dif_pos hlt] at h
    cases hi : s.fdGet k (fd.setWidth 32) with
    | none =>
      rw [hi] at h
      exact hsame h
    | some i =>
      rw [hi] at h
      by_cases he : fd = newFd
      · exact hsame ((if_pos he).symm.trans h)
      · obtain ⟨s₁, h₁, h⟩ := Option.bind_eq_some_iff.1 ((if_neg he).symm.trans h)
        obtain ⟨s₂, h₂, rfl⟩ := Option.map_eq_some_iff.1 h
        obtain ⟨hp₁, hf₁⟩ := closeSlot_tables h₁
        obtain ⟨hp₂, hf₂⟩ := vfsFileGet_tables h₂
        have hclose : OthersKept s s₁ k := ⟨hp₁, fun sl hsl => by
          rw [hf₁]
          exact Function.update_of_ne (fun e => hsl (by rw [e])) _ _⟩
        exact (hclose.trans (othersKept_of_eq hp₂ hf₂)).trans (othersKept_setFd _ rfl)
  · rw [dif_neg hlt] at h
    exact hsame h

theorem pipeCreate_tables (s : FileSystemState) (a : PipeAllocs) :
    (s.pipeCreate a).1.procState = s.procState ∧ (s.pipeCreate a).1.fds = s.fds := by
  obtain ⟨pipe, readInode, readFile, writeInode, writeFile⟩ := a
  cases pipe <;> cases readInode <;> cases readFile <;> cases writeInode <;> cases writeFile <;>
    exact ⟨rfl, rfl⟩

/-- The end of a `sys_pipe` without two free descriptors. -/
theorem closeBoth_tables {r w : ℕ} {v : Option (Fin maxFds × Fin maxFds)}
    (h : ((s.vfsClose r).bind fun s₅ => (s₅.vfsClose w).map fun s₆ => (s₆, none)) =
      some (s', v)) : s'.procState = s.procState ∧ s'.fds = s.fds := by
  obtain ⟨s₅, h₅, h⟩ := Option.bind_eq_some_iff.1 h
  obtain ⟨s₆, h₆, he⟩ := Option.map_eq_some_iff.1 h
  obtain ⟨rfl, -⟩ := Prod.mk.inj he
  obtain ⟨hp₅, hf₅⟩ := vfsClose_tables h₅
  obtain ⟨hp₆, hf₆⟩ := vfsClose_tables h₆
  exact ⟨hp₆.trans hp₅, hf₆.trans hf₅⟩

theorem sysPipe_others {v : Option (Fin maxFds × Fin maxFds)}
    (h : s.sysPipe k fdsPtr a = some (s', v)) : OthersKept s s' k := by
  rw [sysPipe] at h
  split_ifs at h
  · obtain ⟨hp, hf⟩ := pipeCreate_tables s a
    rcases he : s.pipeCreate a with ⟨s₁, _ | ⟨r, w⟩⟩ <;> rw [he] at h hp hf
    · obtain ⟨rfl, -⟩ := Prod.mk.inj (Option.some.inj h)
      exact othersKept_of_eq hp hf
    · have h₁ : OthersKept s s₁ k := othersKept_of_eq hp hf
      dsimp only at h
      rcases fdAlloc_cases s₁ k r with ⟨rfd, -, hr⟩ | ⟨-, hr⟩
      · have h₂ : OthersKept s (s₁.setFd (k, rfd) (some r)) k :=
          h₁.trans (othersKept_setFd s₁ rfl)
        rcases fdAlloc_cases (s₁.setFd (k, rfd) (some r)) k w with ⟨wfd, -, hw⟩ | ⟨-, hw⟩
        · simp only [hr, hw] at h
          obtain ⟨rfl, -⟩ := Prod.mk.inj (Option.some.inj h)
          exact h₂.trans (othersKept_setFd _ rfl)
        · simp only [hr, hw] at h
          obtain ⟨hp', hf'⟩ := closeBoth_tables h
          exact (h₂.trans (othersKept_setFd _ rfl)).trans (othersKept_of_eq hp' hf')
      · rcases fdAlloc_cases s₁ k w with ⟨wfd, -, hw⟩ | ⟨-, hw⟩
        · simp only [hr, hw] at h
          obtain ⟨hp', hf'⟩ := closeBoth_tables h
          exact (h₁.trans (othersKept_setFd _ rfl)).trans (othersKept_of_eq hp' hf')
        · simp only [hr, hw] at h
          obtain ⟨hp', hf'⟩ := closeBoth_tables h
          exact h₁.trans (othersKept_of_eq hp' hf')
  · obtain ⟨rfl, -⟩ := Prod.mk.inj (Option.some.inj h)
    exact OthersKept.refl s k

/-- A loop over the descriptors that writes the table of `c` only. -/
theorem foldlM_others {f : FileSystemState → Fin maxFds → Option FileSystemState}
    (hf : ∀ {s s' fd}, f s fd = some s' → OthersKept s s' c) :
    ∀ {l : List (Fin maxFds)} {s s' : FileSystemState}, l.foldlM f s = some s' → OthersKept s s' c
  | [], s, s', h => by
    obtain rfl := Option.some.inj h
    exact OthersKept.refl s c
  | fd :: l, s, s', h => by
    obtain ⟨s₁, h₁, h⟩ := Option.bind_eq_some_iff.1 h
    exact (hf h₁).trans (foldlM_others hf h)

theorem inheritFd_others {fd : Fin maxFds} (h : s.inheritFd k c fd = some s') :
    OthersKept s s' c := by
  rw [inheritFd] at h
  split at h
  · obtain rfl := Option.some.inj h
    exact OthersKept.refl s c
  · obtain ⟨s₁, h₁, rfl⟩ := Option.map_eq_some_iff.1 h
    obtain ⟨hp, hf⟩ := vfsFileGet_tables h₁
    exact (othersKept_of_eq hp hf).trans (othersKept_setFd _ rfl)

/-- `proc_close_fds` empties the table. -/
theorem procCloseFds_tables (h : s.procCloseFds k = some s') :
    OthersKept s s' k ∧ ∀ fd, s'.fds (k, fd) = none := by
  have hslot : ∀ {s s' : FileSystemState} {fd : Fin maxFds}, s.closeSlot (k, fd) = some s' →
      OthersKept s s' k := fun h => by
    obtain ⟨hp, hf⟩ := closeSlot_tables h
    exact ⟨hp, fun sl hsl => by
      rw [hf]
      exact Function.update_of_ne (fun e => hsl (by rw [e])) _ _⟩
  have hnone : ∀ (l : List (Fin maxFds)) (s : FileSystemState),
      l.foldlM (fun s' fd => closeSlot s' (k, fd)) s = some s' →
        ∀ fd, fd ∈ l ∨ s.fds (k, fd) = none → s'.fds (k, fd) = none := by
    intro l
    induction l with
    | nil =>
      rintro s h fd (hfd | hfd)
      · exact absurd hfd List.not_mem_nil
      · exact Option.some.inj h ▸ hfd
    | cons fd' l ih =>
      intro s h fd hfd
      obtain ⟨s₁, h₁, h⟩ := Option.bind_eq_some_iff.1 h
      obtain ⟨-, hf⟩ := closeSlot_tables h₁
      refine ih s₁ h fd ?_
      by_cases he : fd = fd'
      · exact Or.inr (by rw [hf, he, Function.update_self])
      · refine hfd.imp (fun hm => (List.mem_cons.1 hm).resolve_left he) fun hn => ?_
        rw [hf, Function.update_of_ne fun e => he (Prod.mk.inj e).2, hn]
  exact ⟨foldlM_others hslot h, fun fd => hnone _ _ h fd (Or.inl (List.mem_finRange fd))⟩

/-- The second half of `proc_init_fds`, for the descriptors 1 and 2. -/
theorem openOut_tables {stdout : Opened} (h : (match s.vfsOpen stdout with
      | (s₃, some f) =>
        ((s₃.setFd (c, 1) (some f)).vfsFileGet f).map fun s₄ => s₄.setFd (c, 2) (some f)
      | (s₃, none) => some s₃) = some s') : OthersKept s s' c ∧ ∀ fd, s'.fds (c, fd) =
        if stdout.isSome ∧ (fd = 1 ∨ fd = 2) then some s.nextFile else s.fds (c, fd) := by
  cases stdout with
  | none =>
    obtain rfl := Option.some.inj h
    exact ⟨OthersKept.refl s c, fun fd => (if_neg (by simp)).symm⟩
  | some o =>
    obtain ⟨s₄, h₄, rfl⟩ := Option.map_eq_some_iff.1 h
    obtain ⟨hp, hf⟩ := vfsFileGet_tables h₄
    refine ⟨((othersKept_newFile s _ _ c).trans (othersKept_setFd _ rfl)).trans
      ((othersKept_of_eq hp hf).trans (othersKept_setFd _ rfl)), fun fd => ?_⟩
    change Function.update s₄.fds (c, 2) (some s.nextFile) (c, fd) = _
    rw [hf]
    change Function.update (Function.update s.fds (c, 1) (some s.nextFile)) (c, 2)
      (some s.nextFile) (c, fd) = _
    simp only [Function.update_apply, Prod.mk.injEq, true_and, Option.isSome_some]
    grind

/-- The descriptors `proc_init_fds` installs : the files opened from then on. -/
def installedFds (s : FileSystemState) (stdin stdout : Opened) (fd : Fin maxFds) : Option ℕ :=
  if fd = 0 then stdin.map fun _ => s.nextFile
  else if fd = 1 ∨ fd = 2 then stdout.map fun _ => (s.vfsOpen stdin).1.nextFile
  else none

theorem procInitFds_others {stdin stdout : Opened} (h : s.procInitFds c stdin stdout = some s') :
    OthersKept s s' c := by
  cases stdin with
  | none => exact (openOut_tables (s := s) h).1
  | some o =>
    exact ((othersKept_newFile s _ _ c).trans (othersKept_setFd _ rfl)).trans (openOut_tables h).1

theorem procInitFds_fds {stdin stdout : Opened} (h : s.procInitFds c stdin stdout = some s')
    (hc : ∀ fd, s.fds (c, fd) = none) (fd : Fin maxFds) :
    s'.fds (c, fd) = s.installedFds stdin stdout fd := by
  cases stdin with
  | none =>
    rw [(openOut_tables (s := s) h).2, installedFds, hc]
    cases stdout <;> grind [vfsOpen]
  | some o =>
    have h0 : ((s.vfsOpen (some o)).1.setFd (c, 0) (some s.nextFile)).fds (c, fd) =
        if fd = 0 then some s.nextFile else none := by
      change Function.update s.fds (c, 0) (some s.nextFile) (c, fd) = _
      simp only [Function.update_apply, Prod.mk.injEq, true_and, hc]
    rw [(openOut_tables (s := (s.vfsOpen (some o)).1.setFd (c, 0) (some s.nextFile)) h).2,
      installedFds, h0]
    cases stdout <;> grind [setFd]

/-! ### The invariant -/

/-- A new process is made in the entry `c`. -/
theorem Idle.made (h : Idle s) (ht : OthersKept (s.setProcState c .embryo) s' c) :
    Idle (s'.setProcState c .runnable) := by
  intro k hk fd
  have hkc : k ≠ c := fun e => by
    simp [FileSystemState.setProcState, e, ProcState.alive] at hk
  have hp : (s'.setProcState c .runnable).procState k = s.procState k := by
    simp [FileSystemState.setProcState, Function.update_of_ne hkc, ht.procState]
  rw [hp] at hk
  exact (ht.fds (k, fd) hkc).trans (h k hk fd)

theorem Idle.procFork {kstackOk pml4Ok : Bool} (h : Idle s)
    (hs : s.procFork k kstackOk pml4Ok = some s') : Idle s' := by
  rw [FileSystemState.procFork] at hs
  split at hs
  · obtain rfl := Option.some.inj hs
    exact h
  · split_ifs at hs
    · obtain ⟨s₁, h₁, rfl⟩ := Option.map_eq_some_iff.1 hs
      exact h.made (foldlM_others (fun hs => inheritFd_others hs) h₁)
    · obtain rfl := Option.some.inj hs
      exact h

theorem Idle.step {e : FdEvent} (h : Idle s) (hs : s.step e = some s') : Idle s' := by
  rw [FileSystemState.step] at hs
  split_ifs at hs with he
  cases e with
  | sysOpen k o => exact h.othersKept (sysOpen_others hs) he
  | sysClose k fd => exact h.othersKept (sysClose_others hs) he
  | sysDup k fd => exact h.othersKept (sysDup_others hs) he
  | sysDup2 k oldFd newFd => exact h.othersKept (sysDup2_others hs) he
  | sysPipe k fdsPtr a =>
    obtain ⟨⟨s₁, v⟩, h₁, rfl⟩ := Option.map_eq_some_iff.1 hs
    exact h.othersKept (sysPipe_others h₁) he
  | procFork k kstackOk pml4Ok => exact h.procFork hs
  | sysExit k =>
    obtain ⟨s₁, h₁, rfl⟩ := Option.map_eq_some_iff.1 hs
    obtain ⟨hk, hnone⟩ := procCloseFds_tables h₁
    exact (h.othersKept hk he).setProcState (Or.inr hnone)
  | reap k =>
    obtain rfl := Option.some.inj hs
    exact h.setProcState (Or.inr (h k (by rw [show s.procState k = .zombie from he]; rfl)))

theorem Idle.fileStep {e : FileEvent} (h : Idle s) (hs : s.fileStep e = some s') : Idle s' := by
  rw [FileSystemState.fileStep] at hs
  split_ifs at hs with he
  cases e with
  | call e =>
    exact h.step (e := e) ((if_pos (show s.Enabled e from he)).trans hs)
  | procExec k elf =>
    obtain ⟨⟨s₁, b⟩, h₁, rfl⟩ := Option.map_eq_some_iff.1 hs
    obtain ⟨hp, hf⟩ := readElf_tables h₁
    exact h.congr hp hf
  | procCreate elf kstackOk pml4Ok loadOk stdin stdout =>
    rw [filePerform, FileSystemState.procCreate] at hs
    rcases hr : s.readElf elf with _ | ⟨s₁, b⟩ <;> rw [hr] at hs
    · cases hs
    obtain ⟨hp, hf⟩ := readElf_tables hr
    have h₁ := h.congr hp hf
    cases b with
    | false => exact Option.some.inj hs ▸ h₁
    | true =>
      dsimp only at hs
      split at hs
      · exact Option.some.inj hs ▸ h₁
      · split_ifs at hs
        · obtain ⟨s₂, h₂, rfl⟩ := Option.map_eq_some_iff.1 hs
          exact h₁.made (procInitFds_others h₂)
        · exact Option.some.inj hs ▸ h₁

/-- Whatever the processes do, an entry that cannot run has no descriptors. -/
theorem idle_of_run {es : List FileEvent} (hr : Run.run fileStep boot es = some s) : Idle s :=
  Run.run_invariant (I := Idle) (fun _ _ _ h hs => h.fileStep hs) (fun _ _ _ => rfl) hr

end FileSystemState

/-! ## The kernel stack of a new process -/

section KernelStack

variable {m : Mem} {p : U64} {tf : TfField → U64} {f : TfField}

/-- The words of a trap frame. -/
def tfWords (tf : TfField → U64) : List U64 := TfField.all.map tf

@[simp] theorem tfWords_length (tf : TfField → U64) : (tfWords tf).length = 22 := rfl

theorem tfWord_tfWords (tf : TfField → U64) (f : TfField) : tfWord (tfWords tf) f = tf f := by
  cases f <;> rfl

/-- The fields that are left are stored behind the ones that are there. -/
theorem writeTf_rest {l : List TfField} : ∀ (pre : List TfField) {m : Mem},
    pre ++ l = TfField.all → WordsAt m p (pre.map tf) →
      WordsAt (l.foldl (fun m f => storeTf m p f (tf f)) m) p (tfWords tf) := by
  induction l with
  | nil =>
    intro pre m hall hw
    rwa [tfWords, ← hall, List.append_nil]
  | cons f l ih =>
    intro pre m hall hw
    have hlen : pre.length + (l.length + 1) = 22 := by
      rw [← List.length_cons (a := f), ← List.length_append, hall]
      rfl
    have hidx : f.index = pre.length := by
      have hget : TfField.all[pre.length]? = some f := by
        rw [← hall, List.getElem?_append_right (Nat.le_refl _), Nat.sub_self,
          List.getElem?_cons_zero]
      have hall' : ∀ i < 22, ∀ g, TfField.all[i]? = some g → g.index = i := by
        decide
      exact hall' _ (by omega) f hget
    rw [List.foldl_cons]
    refine ih (pre ++ [f]) (by rw [List.append_assoc]; exact hall) ?_
    rw [storeTf, tfAddr, hidx, List.map_append]
    have hnext := hw.store_next (v := tf f) (by decide)
      (by rw [List.length_map]; exact le_trans (by omega) (show 8 * 22 ≤ 2 ^ 64 by norm_num))
    rwa [List.length_map] at hnext

/-- A trap frame that is written lies there as words. -/
theorem writeTf_words (m : Mem) (p : U64) (tf : TfField → U64) :
    WordsAt (writeTf m p tf) p (tfWords tf) :=
  writeTf_rest [] rfl wordsAt_nil

/-- The frame `kstack_setup` puts on the stack. -/
def firstTf (tf : TfField → U64) (entry userRsp : U64) : TfField → U64 :=
  if tf .rip ≠ 0 then tf else freshTf entry userRsp

/-- `kstack_setup` leaves a context, a return address and the frame. -/
theorem ForkState.kstackSetup_words (s : ForkState) (c : Fin maxProcs)
    (entry userRsp forkret trapret : U64) :
    ((s.kstackSetup c entry userRsp forkret trapret).entry c).context =
        (s.entry c).kstack + BitVec.ofNat 64 7952 ∧
      WordsAt (s.kstackSetup c entry userRsp forkret trapret).heap.mem
        ((s.entry c).kstack + BitVec.ofNat 64 7952)
        (startWords forkret trapret (tfWords (firstTf (s.entry c).tf entry userRsp))) := by
  generalize hk : (s.entry c).kstack = k
  generalize hws : tfWords (firstTf (s.entry c).tf entry userRsp) = ws
  have hlen : ws.length = 22 := hws ▸ rfl
  -- the stores one after the other
  obtain ⟨m₁, hm₁⟩ : ∃ m₁, m₁ = writeTf s.heap.mem (k + BitVec.ofNat 64 8016)
    (firstTf (s.entry c).tf entry userRsp) := ⟨_, rfl⟩
  obtain ⟨m₂, hm₂⟩ : ∃ m₂, m₂ = store64 m₁ (k + BitVec.ofNat 64 8008) trapret := ⟨_, rfl⟩
  obtain ⟨m₃, hm₃⟩ : ∃ m₃, m₃ = fill m₂ (k + BitVec.ofNat 64 7952) 0 56 := ⟨_, rfl⟩
  obtain ⟨m₄, hm₄⟩ : ∃ m₄, m₄ = store64 m₃ (k + BitVec.ofNat 64 7952 + BitVec.ofNat 64 (8 * 6))
    forkret := ⟨_, rfl⟩
  -- the frame with the return address in front of it
  have hw₁ : WordsAt m₁ (k + BitVec.ofNat 64 8016) ws := by
    rw [hm₁, ← hws]
    exact writeTf_words _ _ _
  have hw₂ : WordsAt m₂ (k + BitVec.ofNat 64 8008) (trapret :: ws) := by
    have h := hw₁.store_prev (v := trapret) (by decide) (by rw [hlen]; decide)
    rw [stackRet_addr] at h
    rw [hm₂]
    exact h
  have hlen₂ : (trapret :: ws).length = 23 := by rw [List.length_cons, hlen]
  have hw₃ : WordsAt m₃ (k + BitVec.ofNat 64 8008) (trapret :: ws) := by
    rw [hm₃]
    refine hw₂.congr (by rw [hlen₂]; decide) fun x hx => fill_of_not_within ?_
    rw [hlen₂] at hx
    exact (apart_add k (by decide) (by decide) (Or.inr (by decide))) x hx
  have hw₄ : WordsAt m₄ (k + BitVec.ofNat 64 8008) (trapret :: ws) := by
    rw [hm₄, ← add_ofNat_add]
    refine hw₃.store_of_apart (by rw [hlen₂]; decide) ?_
    rw [hlen₂]
    exact apart_add k (by decide) (by decide) (Or.inr (by decide))
  -- the context
  have hz₃ : WordsAt m₃ (k + BitVec.ofNat 64 7952) (List.replicate 7 0) := by
    rw [hm₃]
    exact wordsAt_fill_zero (by decide) (by decide)
  have hz₄ : WordsAt m₄ (k + BitVec.ofNat 64 7952) (List.replicate 6 0 ++ [forkret]) := by
    rw [hm₄]
    exact hz₃.set (by decide) (by decide) (by decide)
  have hmem : (s.kstackSetup c entry userRsp forkret trapret).heap.mem = m₄ := by
    have hf : fieldAddr contextFields (k + BitVec.ofNat 64 7952) 6 =
        k + BitVec.ofNat 64 7952 + BitVec.ofNat 64 (8 * 6) := rfl
    have hone : (if (s.entry c).tf .rip ≠ 0 then
        writeTf s.heap.mem (k + BitVec.ofNat 64 8016) (s.entry c).tf
        else writeTf s.heap.mem (k + BitVec.ofNat 64 8016) (freshTf entry userRsp)) = m₁ := by
      rw [hm₁, firstTf]
      split_ifs <;> rfl
    have hctx := stackContext_addr k
    rw [context_size] at hctx
    simp only [kstackSetup, hk, stackTf_addr, stackRet_addr, hone, ← hm₂, context_size, hctx,
      ← hm₃, hf, ← hm₄]
  refine ⟨?_, ?_⟩
  · simp only [kstackSetup, setEntry, Function.update_self, hk, stackTf_addr, stackRet_addr,
      stackContext_addr]
  · have hc8 : k + BitVec.ofNat 64 7952 + BitVec.ofNat 64 (8 * 7) = k + BitVec.ofNat 64 8008 := by
      rw [← add_ofNat_add]
    rw [hmem, startWords, wordsAt_append]
    exact ⟨hz₄, by rw [← hc8] at hw₄; exact hw₄⟩

end KernelStack

/-! ## `proc_create` -/

namespace ExecState

/-- `proc_create` up to `kfree(elf_buf, elf_pages)` : the entry of the process table and the entry
point, unless it returns 0. From `create_user_pml4` on the steps are those of `proc_exec`. -/
def createLoad (s : ExecState) (p : ProgramFile) :
    Option (ExecState × Option (Fin maxProcs × U64)) :=
  (p.readElf s.heap s.files).bind fun r =>
    let s := { s with
      heap := r.heap
      files := r.files
      events := r.freed.map .free ++ s.events }
    match r.result with
    | none => some (s, none)
    | some (buf, pages) =>
      s.procAlloc.bind fun (f, c) =>
        let s := { s with toForkState := f }
        match c with
        | none => (s.kfree buf (pages.setWidth 64)).map fun s => (s, none)
        | some c =>
          (s.loadImage buf pages).map fun (s, pml4, entry) =>
            let s := s.setProc c { s.entry c with pml4 := pml4 }
            match entry with
            | none => ({ s with toForkState := s.setProcState c .unused }, none)
            | some entry => (s, some (c, entry))

/-- `proc_create`, when the file system does `p` for the path and `stdin` and `stdout` for the two
calls with `/dev/cons`. -/
def procCreate (s : ExecState) (p : ProgramFile) (path : List U8) (stdin stdout : Opened)
    (forkret trapret : U64) : Option (ExecState × Option (Fin maxProcs)) :=
  (s.createLoad p).bind fun
    | (s, none) => some (s, none)
    | (s, some (c, entry)) =>
      let s := { s with toForkState := s.kstackSetup c entry userStackTop forkret trapret }
      let s := s.setProc c { s.entry c with brk := userHeapBase, ppid := 0 }
      (s.files.procInitFds c stdin stdout).map fun files =>
        let s := { s with files := files }
        let s := s.setProc c { s.entry c with name := copyName (s.entry c).name (baseName path) }
        ({ s with toForkState := s.setProcState c .runnable }, some c)

variable {s s₁ s' : ExecState} {p : ProgramFile} {path : List U8} {stdin stdout : Opened}
  {forkret trapret entry buf pml4 size : U64} {pages : U32} {c : Fin maxProcs} {o : ℕ}

/-! ### What it keeps -/

/-- `read_elf` changes no table. -/
theorem readElf_tables {h : Heap} {f : FileSystemState} {r : ElfBuffer}
    (hr : p.readElf h f = some r) : r.files.procState = f.procState ∧ r.files.fds = f.fds := by
  obtain ⟨hp, hf⟩ := vfsOpen_tables f p.opened
  rw [ProgramFile.readElf] at hr
  rcases ho : f.vfsOpen p.opened with ⟨f₁, _ | i⟩ <;> rw [ho] at hr hp hf
  · obtain rfl := Option.some.inj hr
    exact ⟨hp, hf⟩
  have hclose : ∀ b : FileSystemState → ElfBuffer, (∀ g, (b g).files = g) →
      (f₁.vfsClose i).map b = some r → r.files.procState = f.procState ∧ r.files.fds = f.fds := by
    intro b hb h
    obtain ⟨f₂, h₂, rfl⟩ := Option.map_eq_some_iff.1 h
    obtain ⟨hp₂, hf₂⟩ := vfsClose_tables h₂
    rw [hb]
    exact ⟨hp₂.trans hp, hf₂.trans hf⟩
  dsimp only at hr
  cases hsz : p.size with
  | none =>
    rw [hsz] at hr
    exact hclose _ (fun _ => rfl) hr
  | some size =>
    rw [hsz] at hr
    obtain ⟨⟨g, v⟩, -, hr⟩ := Option.bind_eq_some_iff.1 hr
    dsimp only at hr
    split_ifs at hr
    · exact hclose _ (fun _ => rfl) hr
    · obtain ⟨g', -, hr⟩ := Option.bind_eq_some_iff.1 hr
      exact hclose _ (fun _ => rfl) hr
    · exact hclose _ (fun _ => rfl) hr

theorem loadImage_files {e : U64 × Option U64} (h : s.loadImage buf pages = some (s', e)) :
    s'.files = s.files := by
  have hfree : ∀ {s s' : ExecState} {n : U64}, s.kfree buf n = some s' → s'.files = s.files :=
    fun h => by
      obtain ⟨g, -, rfl⟩ := Option.map_eq_some_iff.1 h
      rfl
  obtain ⟨⟨t, pml4⟩, -, h⟩ := Option.bind_eq_some_iff.1 h
  dsimp only at h
  split_ifs at h with h0
  · obtain ⟨s₁, hk, h⟩ := Option.map_eq_some_iff.1 h
    obtain ⟨rfl, -⟩ := Prod.mk.inj h
    have hfiles := hfree hk
    exact hfiles
  · obtain ⟨⟨l, entry⟩, -, h⟩ := Option.bind_eq_some_iff.1 h
    cases entry with
    | none =>
      obtain ⟨s₁, ht, h⟩ := Option.bind_eq_some_iff.1 h
      obtain ⟨s₂, hk, h⟩ := Option.map_eq_some_iff.1 h
      obtain ⟨rfl, -⟩ := Prod.mk.inj h
      obtain ⟨f, -, rfl⟩ := Option.map_eq_some_iff.1 ht
      have hfiles := hfree hk
      exact hfiles
    | some entry =>
      obtain ⟨s₁, hk, h⟩ := Option.map_eq_some_iff.1 h
      obtain ⟨rfl, -⟩ := Prod.mk.inj h
      have hfiles := hfree hk
      exact hfiles

/-- `proc_alloc` leaves the trap frame of the entry it takes. -/
theorem procAlloc_some {f f' : ForkState} (h : f.procAlloc = some (f', some c)) :
    f.files.procState c = .unused ∧ f'.files = f.files.setProcState c .embryo ∧
      (f'.entry c).tf = (f.entry c).tf := by
  rw [ForkState.procAlloc] at h
  cases hc : f.files.unusedProc with
  | none =>
    rw [hc] at h
    exact absurd (Prod.mk.inj (Option.some.inj h)).2 (by simp)
  | some c' =>
    rw [hc] at h
    obtain ⟨⟨g, v⟩, -, h⟩ := Option.map_eq_some_iff.1 h
    dsimp only at h
    split_ifs at h
    · exact absurd (Prod.mk.inj h).2 (by simp)
    · obtain ⟨rfl, hcc⟩ := Prod.mk.inj h
      obtain rfl := Option.some.inj hcc
      exact ⟨by simpa using List.find?_some hc, rfl, by
        simp only [ForkState.setEntry, ForkState.setProcState, Function.update_self]⟩

/-- What `proc_create` has when the program is loaded : an unused entry, whose trap frame nobody
has touched. -/
theorem createLoad_some (hl : s.createLoad p = some (s₁, some (c, entry))) :
    s.files.procState c = .unused ∧ s₁.files.fds = s.files.fds ∧
      (s₁.entry c).tf = (s.entry c).tf := by
  obtain ⟨r, hr, hl⟩ := Option.bind_eq_some_iff.1 hl
  obtain ⟨hp, hf⟩ := readElf_tables hr
  dsimp only at hl
  cases hres : r.result with
  | none =>
    rw [hres] at hl
    exact absurd (Prod.mk.inj (Option.some.inj hl)).2 (by simp)
  | some b =>
    rw [hres] at hl
    obtain ⟨⟨f, c'⟩, ha, hl⟩ := Option.bind_eq_some_iff.1 hl
    dsimp only at hl
    cases c' with
    | none =>
      obtain ⟨s₂, -, he⟩ := Option.map_eq_some_iff.1 hl
      exact absurd (Prod.mk.inj he).2 (by simp)
    | some c' =>
      obtain ⟨⟨s₂, pml4, e⟩, hload, he⟩ := Option.map_eq_some_iff.1 hl
      cases e with
      | none => exact absurd (Prod.mk.inj he).2 (by simp)
      | some e =>
        dsimp only at he
        obtain ⟨rfl, hce⟩ := Prod.mk.inj he
        obtain ⟨rfl, rfl⟩ := Prod.mk.inj (Option.some.inj hce)
        obtain ⟨hun, hfiles, htf⟩ := procAlloc_some ha
        have hsame := (loadImage_same hload).1
        have hfiles₂ := loadImage_files hload
        refine ⟨hp ▸ hun, ?_, ?_⟩
        · change s₂.files.fds = _
          rw [hfiles₂]
          change f.files.fds = _
          rw [hfiles]
          exact hf
        · simp only [setProc, Function.update_self]
          rw [hsame]
          exact htf

/-- A call that makes a process has gone through all the steps. -/
theorem procCreate_some
    (hr : s.procCreate p path stdin stdout forkret trapret = some (s', some c)) :
    ∃ s₁ entry files, s.createLoad p = some (s₁, some (c, entry)) ∧
      s₁.files.procInitFds c stdin stdout = some files ∧ s'.files.fds = files.fds ∧
      (s'.entry c).context = (s₁.entry c).kstack + BitVec.ofNat 64 7952 ∧
      WordsAt s'.heap.mem ((s'.entry c).context)
        (startWords forkret trapret (tfWords (firstTf (s₁.entry c).tf entry userStackTop))) := by
  obtain ⟨⟨s₁, r⟩, hl, hr⟩ := Option.bind_eq_some_iff.1 hr
  cases r with
  | none => exact absurd (Prod.mk.inj (Option.some.inj hr)).2 (by simp)
  | some r =>
    obtain ⟨c', entry⟩ := r
    obtain ⟨files, hfiles, he⟩ := Option.map_eq_some_iff.1 hr
    obtain ⟨rfl, hc⟩ := Prod.mk.inj he
    obtain rfl := Option.some.inj hc
    obtain ⟨hctx, hw⟩ := s₁.kstackSetup_words c' entry userStackTop forkret trapret
    refine ⟨s₁, entry, files, hl, hfiles, rfl, ?_, ?_⟩
    · simp only [setProc, ForkState.setProcState, Function.update_self]
      exact hctx
    · simp only [setProc, ForkState.setProcState, Function.update_self]
      rw [hctx]
      exact hw

end ExecState

/-! ## The first run -/

/-- The user state in which a new process is to start. -/
structure FreshUser (entry : U64) (u : UserState) : Prop where
  rip : u.rip = entry
  rsp : u.regs .rsp = userStackTop
  rflags : u.rflags = 0x202
  cs : u.cs = userCs
  ss : u.ss = userDs
  regs : ∀ r, r ≠ .rsp → u.regs r = 0

/-- The scheduler switches to the process, whose kernel stack is as it is in `s`. `runForkret` is
the effect of `forkret`. -/
structure Dispatches (s : ForkState) (c : Fin maxProcs) (runForkret : State → State)
    (t : State) : Prop where
  rsi : t.regs .rsi = (s.entry c).context
  mem : ∀ x, Within x (t.regs .rsi) 240 → t.mem x = s.heap.mem x
  stack : Apart (t.regs .rsp - BitVec.ofNat 64 48) 48 (t.regs .rsi) 240
  old : Apart (t.regs .rdi) 8 (t.regs .rsi) 240
  returns : Returns (ret (exec id 0 swtch t)).1 (runForkret (ret (exec id 0 swtch t)).1) 184

/-- However it is dispatched first, the process starts as a new one. -/
def StartsFresh (s : ForkState) (c : Fin maxProcs) (entry forkret trapret : U64) : Prop :=
  ∀ runForkret t, Dispatches s c runForkret t →
    ∃ u, firstRun runForkret forkret trapret t = some u ∧ FreshUser entry u

/-- The frame does no harm : `kstack_setup` makes a new one, or would make the same one, but for
the two words `trapret` drops. -/
def Unspoilt (tf : TfField → U64) (entry : U64) : Prop :=
  tf .rip = 0 ∨ ∀ f, f ≠ .intNo → f ≠ .errorCode → tf f = freshTf entry userStackTop f

section FirstRun

variable {s : ForkState} {c : Fin maxProcs} {entry forkret trapret : U64} {t : State}
  {tf : TfField → U64} {runForkret : State → State} {u : UserState}

/-- The user gets the frame. -/
structure Starts (tf : TfField → U64) (u : UserState) : Prop where
  regs : trapretRegs.map u.regs = (tfWords tf).take 15
  rip : u.rip = tf .rip
  cs : u.cs = tf .cs
  rflags : u.rflags = tf .rflags
  rsp : u.regs .rsp = tf .rsp
  ss : u.ss = tf .ss

theorem Dispatches.starts (hd : Dispatches s c runForkret t)
    (hw : WordsAt s.heap.mem ((s.entry c).context) (startWords forkret trapret (tfWords tf))) :
    ∃ u, firstRun runForkret forkret trapret t = some u ∧ Starts tf u := by
  have hlen : (startWords forkret trapret (tfWords tf)).length = 30 := rfl
  have hwt : WordsAt t.mem (t.regs .rsi) (startWords forkret trapret (tfWords tf)) := by
    rw [← hd.rsi] at hw
    exact hw.congr (by rw [hlen]; decide) fun x hx => hd.mem x (by rw [hlen] at hx; exact hx)
  obtain ⟨u, hu, h1, h2, h3, h4, h5, h6⟩ := firstRun_words rfl hwt hd.stack hd.old hd.returns
  simp only [tfWord_tfWords] at h2 h3 h4 h5 h6
  exact ⟨u, hu, h1, h2, h3, h4, h5, h6⟩

/-- There is such a switch, whatever the context. -/
theorem exists_dispatches (s : ForkState) (c : Fin maxProcs) : ∃ t, Dispatches s c id t := by
  let k := (s.entry c).context
  refine ⟨⟨fun r => if r = .rsi then k else if r = .rsp then k + BitVec.ofNat 64 1024 else
    k + BitVec.ofNat 64 2048, s.heap.mem, false, 0, 0⟩, rfl, fun _ _ => rfl, ?_, ?_,
    ⟨fun _ _ => rfl, fun _ _ => rfl⟩⟩
  · have h := apart_add k (i := 976) (n := 48) (j := 0) (k := 240) (by norm_num) (by norm_num)
      (Or.inr (by norm_num))
    rw [BitVec.add_zero] at h
    change Apart (k + BitVec.ofNat 64 1024 - BitVec.ofNat 64 48) 48 k 240
    rwa [add_ofNat_sub k (show 48 ≤ 1024 by norm_num)]
  · have h := apart_add k (i := 2048) (n := 8) (j := 0) (k := 240) (by norm_num) (by norm_num)
      (Or.inr (by norm_num))
    rwa [BitVec.add_zero] at h

/-- All registers but `rsp` are popped. -/
theorem mem_trapretRegs {r : Reg} (hr : r ≠ .rsp) : r ∈ trapretRegs := by
  cases r <;> first | decide | exact absurd rfl hr

/-- The registers are those of the frame. -/
theorem Starts.freshUser_iff (h : Starts tf u) : FreshUser entry u ↔
    ∀ f, f ≠ .intNo → f ≠ .errorCode → tf f = freshTf entry userStackTop f := by
  have hregs : (∀ r ∈ trapretRegs, u.regs r = 0) ↔ ∀ f ∈ TfField.all.take 15, tf f = 0 := by
    have hl := h.regs
    rw [tfWords, ← List.map_take] at hl
    have hall : (∀ v ∈ trapretRegs.map u.regs, v = 0) ↔
        ∀ v ∈ (TfField.all.take 15).map tf, v = 0 := by rw [hl]
    simpa only [List.forall_mem_map] using hall
  constructor
  · rintro ⟨hrip, hrsp, hflags, hcs, hss, hall⟩ f hint herr
    have hzero := hregs.1 fun r hr => hall r fun e => absurd (e ▸ hr) (by decide)
    cases f <;> first
      | exact hzero _ (by decide)
      | exact absurd rfl hint
      | exact absurd rfl herr
      | exact h.rip.symm.trans hrip
      | exact h.cs.symm.trans hcs
      | exact h.rflags.symm.trans hflags
      | exact h.rsp.symm.trans hrsp
      | exact h.ss.symm.trans hss
  · intro hall
    refine ⟨h.rip.trans (hall .rip (by decide) (by decide)),
      h.rsp.trans (hall .rsp (by decide) (by decide)),
      h.rflags.trans (hall .rflags (by decide) (by decide)),
      h.cs.trans (hall .cs (by decide) (by decide)),
      h.ss.trans (hall .ss (by decide) (by decide)), fun r hr => ?_⟩
    refine hregs.2 (fun f hf => ?_) r (mem_trapretRegs hr)
    have hf' : f ≠ .intNo ∧ f ≠ .errorCode ∧ freshTf entry userStackTop f = 0 := by
      cases f <;> first | exact ⟨by decide, by decide, rfl⟩ | exact absurd hf (by decide)
    rw [hall f hf'.1 hf'.2.1, hf'.2.2]

/-- A process starts as a new one just if the frame on its stack is the one of a new process. -/
theorem startsFresh_iff (hw : WordsAt s.heap.mem ((s.entry c).context)
    (startWords forkret trapret (tfWords (firstTf tf entry userStackTop)))) :
    StartsFresh s c entry forkret trapret ↔ Unspoilt tf entry := by
  have hframe : StartsFresh s c entry forkret trapret ↔ ∀ f, f ≠ .intNo → f ≠ .errorCode →
      firstTf tf entry userStackTop f = freshTf entry userStackTop f := by
    constructor
    · intro h
      obtain ⟨t, ht⟩ := exists_dispatches s c
      obtain ⟨u, hu, hs⟩ := ht.starts hw
      obtain ⟨u', hu', hfresh⟩ := h id t ht
      obtain rfl := Option.some.inj (hu.symm.trans hu')
      exact hs.freshUser_iff.1 hfresh
    · intro h runForkret t ht
      obtain ⟨u, hu, hs⟩ := ht.starts hw
      exact ⟨u, hu, hs.freshUser_iff.2 h⟩
  rw [hframe, Unspoilt, firstTf]
  by_cases h0 : tf .rip = 0
  · rw [if_neg (not_not.2 h0)]
    exact iff_of_true (fun _ _ _ => rfl) (Or.inl h0)
  · rw [if_pos h0, or_iff_right h0]

end FirstRun

/-! ## New processes -/

/-- The entry point in the file, as `read_elf` has read it. -/
def ProgramFile.fileEntry (p : ProgramFile) (size : U64) : U64 :=
  eEntry fun a => p.elfByte size a.toNat

namespace ExecState

variable {s s₁ s' : ExecState} {p : ProgramFile} {path : List U8} {stdin stdout : Opened}
  {forkret trapret entry buf pml4 size : U64} {pages : U32} {c : Fin maxProcs} {o : ℕ}

/-- The entry point is the one in the buffer. -/
theorem loadImage_entry (hs : s.heap.Sound) (hb : HeldBlock s.heap (pages.setWidth 64) buf o)
    (hr : s.loadImage buf pages = some (s', pml4, some entry)) :
    ∃ elf, BufferBytes s.heap buf pages elf ∧ entry = eEntry elf := by
  obtain ⟨⟨t, p4⟩, hcreate, hr⟩ := Option.bind_eq_some_iff.1 hr
  dsimp only at hr
  split_ifs at hr with h0
  · obtain ⟨s₁, -, he⟩ := Option.map_eq_some_iff.1 hr
    exact absurd (Prod.mk.inj (Prod.mk.inj he).2).2 (by simp)
  obtain ⟨-, t', hc', -⟩ | ⟨t', p', hc', htok, -⟩ := ForkState.createUserPml4_cases hs s.cr3
  · exact absurd (Prod.mk.inj (Option.some.inj (hcreate.symm.trans hc'))).2 h0
  obtain ⟨rfl, rfl⟩ := Prod.mk.inj (Option.some.inj (hcreate.symm.trans hc'))
  have hbytes := bufferBytes_create hb (PagingState.createUserPml4_spec (s := ⟨s.heap, true⟩) hs
    hcreate htok)
  obtain ⟨⟨l, e⟩, hload, hr⟩ := Option.bind_eq_some_iff.1 hr
  cases e with
  | none =>
    obtain ⟨s₁, -, hr⟩ := Option.bind_eq_some_iff.1 hr
    obtain ⟨s₂, -, he⟩ := Option.map_eq_some_iff.1 hr
    exact absurd (Prod.mk.inj (Prod.mk.inj he).2).2 (by simp)
  | some e =>
    obtain ⟨s₁, -, he⟩ := Option.map_eq_some_iff.1 hr
    rw [Prod.mk.injEq, Prod.mk.injEq, Option.some.injEq] at he
    obtain ⟨-, -, rfl⟩ := he
    refine ⟨_, hbytes, ?_⟩
    by_cases hisElf : IsElf64 fun o => t.heap.mem (buf + o)
    · exact LoadState.elfLoadSegments_entry hisElf hload
    · obtain ⟨l', hrej, -⟩ := LoadState.elfLoadSegments_reject hisElf p4
        (pages.setWidth 64 * pageSize) ⟨⟨t.heap, true, s.tablesOk⟩, [], []⟩
      exact absurd (Prod.mk.inj (Option.some.inj (hload.symm.trans hrej))).2 (by simp)

/-- The buffer of `read_elf`, with what the read left in it. -/
theorem readElf_buffer {h : Heap} {f : FileSystemState} {r : ElfBuffer}
    (hr : p.readElf h f = some r) (hres : r.result = some (buf, pages)) (hsz : p.size = some size) :
    ∃ h₁, pages = elfPages size ∧ kalloc h ((elfPages size).setWidth 64) = some (h₁, buf) ∧
      buf ≠ 0 ∧ r.heap = p.filled size buf h₁ := by
  have hno : ∀ {o : Option FileSystemState} {b : FileSystemState → ElfBuffer},
      (∀ g, (b g).result = none) → o.map b ≠ some r := fun hb h => by
    obtain ⟨g, -, rfl⟩ := Option.map_eq_some_iff.1 h
    rw [hb] at hres
    cases hres
  rw [ProgramFile.readElf] at hr
  rcases ho : f.vfsOpen p.opened with ⟨f₁, _ | i⟩ <;> rw [ho] at hr
  · obtain rfl := Option.some.inj hr
    cases hres
  rw [hsz] at hr
  obtain ⟨⟨h₁, v⟩, hk, hr⟩ := Option.bind_eq_some_iff.1 hr
  dsimp only at hr
  split_ifs at hr with h0
  · exact absurd hr (hno fun _ => rfl)
  · obtain ⟨g, -, hr⟩ := Option.bind_eq_some_iff.1 hr
    exact absurd hr (hno fun _ => rfl)
  · obtain ⟨g, -, rfl⟩ := Option.map_eq_some_iff.1 hr
    obtain ⟨rfl, rfl⟩ := Prod.mk.inj (Option.some.inj hres)
    refine ⟨h₁, rfl, hk, h0, ?_⟩
    rw [ProgramFile.filled, ProgramFile.vfsRead_eq ho h0]

/-- `proc_alloc` takes two pages for the kernel stack. -/
theorem procAlloc_stack {f f' : ForkState} (hs : f.heap.Sound)
    (h : f.procAlloc = some (f', some c)) : ∃ v, TakesStack f.heap f'.heap v := by
  cases hc : f.files.unusedProc with
  | none =>
    rw [ForkState.procAlloc, hc] at h
    exact absurd (Prod.mk.inj (Option.some.inj h)).2 (by simp)
  | some c' =>
    obtain ⟨f₁, r, h₁, v, -, ⟨-, rfl, -⟩ | ⟨-, ht, -⟩⟩ := ForkState.procAlloc_spec hs hc
    · exact absurd (Prod.mk.inj (Option.some.inj (h.symm.trans h₁))).2 (by simp)
    · obtain ⟨rfl, -⟩ := Prod.mk.inj (Option.some.inj (h.symm.trans h₁))
      exact ⟨v, ht⟩

/-- It is the one in the file, when the read stays in the pages of the buffer. -/
theorem createLoad_entry (hs : s.heap.Sound) (hsz : p.size = some size)
    (hst : (p.reply size).stored ≤ (elfPages size).toNat * 4096)
    (hl : s.createLoad p = some (s₁, some (c, entry))) : entry = p.fileEntry size := by
  obtain ⟨r, hr, hl⟩ := Option.bind_eq_some_iff.1 hl
  dsimp only at hl
  cases hres : r.result with
  | none =>
    rw [hres] at hl
    exact absurd (Prod.mk.inj (Option.some.inj hl)).2 (by simp)
  | some b =>
    obtain ⟨buf, pages⟩ := b
    obtain ⟨h₁, rfl, hk, h0, hheap⟩ := readElf_buffer hr hres hsz
    have hn : ((elfPages size).setWidth 64).toNat ≤ 2 ^ 63 := by
      rw [BitVec.toNat_setWidth_of_le (by norm_num)]
      exact (elfPages size).isLt.le.trans (by norm_num)
    obtain ⟨hk', -⟩ | ⟨h', v, o, hk', ht⟩ := kalloc_block hs hn
    · exact absurd (Prod.mk.inj (Option.some.inj (hk.symm.trans hk'))).2 h0
    obtain ⟨rfl, rfl⟩ := Prod.mk.inj (Option.some.inj (hk.symm.trans hk'))
    obtain ⟨hgs, hgfree⟩ := ht.sound.congr (p.filled size buf h₁) rfl rfl fun x hx =>
      ProgramFile.filled_mem ht hst (by rw [ht.free] at hx; exact hx.2)
    have hheld := ht.held hgfree
    rw [hres] at hl
    obtain ⟨⟨f, c'⟩, ha, hl⟩ := Option.bind_eq_some_iff.1 hl
    rw [hheap] at ha
    dsimp only at hl
    cases c' with
    | none =>
      obtain ⟨s₂, -, he⟩ := Option.map_eq_some_iff.1 hl
      exact absurd (Prod.mk.inj he).2 (by simp)
    | some c' =>
      obtain ⟨⟨s₂, pml4, e⟩, hload, he⟩ := Option.map_eq_some_iff.1 hl
      cases e with
      | none => exact absurd (Prod.mk.inj he).2 (by simp)
      | some e =>
        dsimp only at he
        obtain ⟨rfl, hce⟩ := Prod.mk.inj he
        obtain ⟨rfl, rfl⟩ := Prod.mk.inj (Option.some.inj hce)
        obtain ⟨v, hstack⟩ := procAlloc_stack hgs ha
        have hsub : f.heap.freePages ⊆ (p.filled size buf h₁).freePages := by
          rw [hstack.free]
          exact Set.sdiff_subset
        obtain ⟨elf, hbytes, rfl⟩ := loadImage_entry (s := { s with
            toForkState := f
            events := r.freed.map ExecEvent.free ++ s.events }) hstack.sound (hheld.mono hsub) hload
        have hlow : ∀ i < 4096, elf (BitVec.ofNat 64 i) = p.elfByte size i := fun i hi => by
          have hlt := (elfPages size).isLt
          have hpos : 0 < (elfPages size).toNat := Nat.pos_of_ne_zero fun h0 =>
            ht.pages_ne (by rw [BitVec.eq_of_toNat_eq (y := (0 : U32)) h0]; rfl)
          rw [hbytes i (by omega), ← ProgramFile.filled_byte ht hst (by omega)]
          exact hstack.agree.mem _ fun hfree => Set.disjoint_left.1 hheld.held
            (HeldBlock.pageOf_mem hheld (within_add buf (by omega) (by omega))) hfree
        have hfile : ∀ i < 4096, elf (BitVec.ofNat 64 i) =
            (fun a : U64 => p.elfByte size a.toNat) (BitVec.ofNat 64 i) := fun i hi => by
          have hi64 : (BitVec.ofNat 64 i).toNat = i := by
            rw [BitVec.toNat_ofNat, Nat.mod_eq_of_lt (by omega)]
          exact (hlow i hi).trans (congrArg (p.elfByte size) hi64.symm)
        exact load64_congr fun x hx => @eq_of_low elf (fun a => p.elfByte size a.toNat) 4096 8 hfile
          (field ehdr 0 9).start x (by decide) (by norm_num) hx

/-- The process starts with its program, and has the descriptors of `proc_init_fds` and no
others. -/
structure CreatedFresh (files : FileSystemState) (s' : ExecState) (c : Fin maxProcs)
    (entry forkret trapret : U64) (stdin stdout : Opened) : Prop where
  starts : StartsFresh s'.toForkState c entry forkret trapret
  fds : ∀ fd, s'.files.fds (c, fd) = files.installedFds stdin stdout fd

/-- After any history of the process table a process that is made is a fresh one exactly if its
entry has no frame, or that of a fresh process. -/
theorem create_fresh_iff {es : List FileEvent} (hh : Run.run fileStep boot es = some s.files)
    (hr : s.procCreate p path stdin stdout forkret trapret = some (s', some c)) :
    ∃ s₁ entry, s.createLoad p = some (s₁, some (c, entry)) ∧
      (s.heap.Sound → ∀ size, p.size = some size →
        (p.reply size).stored ≤ (elfPages size).toNat * 4096 → entry = p.fileEntry size) ∧
      (CreatedFresh s₁.files s' c entry forkret trapret stdin stdout ↔
        Unspoilt (s.entry c).tf entry) := by
  obtain ⟨s₁, entry, files, hl, hfiles, hfds, -, hw⟩ := procCreate_some hr
  obtain ⟨hun, hfds₁, htf⟩ := createLoad_some hl
  have hnone : ∀ fd, s₁.files.fds (c, fd) = none := fun fd => by
    rw [hfds₁]
    exact idle_of_run hh c (by rw [hun]; rfl) fd
  rw [htf] at hw
  refine ⟨s₁, entry, hl, fun hs size hsz hst => createLoad_entry hs hsz hst hl, ?_⟩
  rw [← startsFresh_iff (s := s'.toForkState) hw]
  exact ⟨fun h => h.starts, fun h => ⟨h, fun fd => by
    rw [hfds]
    exact procInitFds_fds hfiles hnone fd⟩⟩

/-! ### Two processes in one entry -/

/-- The kernel with these files, and with the frame `tf` in every entry. -/
def spawner (h : Heap) (files : FileSystemState) (tf : TfField → U64) : ExecState where
  heap := h
  files := files
  entry _ := ⟨0, 0, 0, 0, 0, tf, 0, fun _ => 0⟩
  nextPid := 1
  cr3 := 0
  tablesOk := true
  events := []

/-- A program of one page becomes a process when there is room. -/
theorem exists_procCreate {files : FileSystemState} (hf : FilesOk files [])
    (hun : files.unusedProc = some c) (tf : TfField → U64) : ∃ h s', h.Sound ∧
      (spawner h files tf).procCreate (pageFile (bufOf launcher)) [0x2F, 0x62] none none 0 0 =
        some (s', some c) := by
  obtain ⟨h, hboot, hs, hcard, -⟩ := exists_boot_heap_of (n := 32) (by norm_num)
  have hpair : ((freerange (kinit (fun _ => 0) 0xffff800000000000) 0x100000
      (BitVec.ofNat 64 (0x100000 + 4096 * 32))).bind fun h =>
        (kalloc h 1).map fun r => decide (PairFree r.1)) = some true := by decide
  rw [hboot, Option.bind_some] at hpair
  obtain ⟨-, hempty⟩ | ⟨h₁, v, hk, ht'⟩ := kalloc_one hs
  · rw [hempty, Set.ncard_empty] at hcard
    exact absurd hcard (by norm_num)
  rw [hk, Option.map_some] at hpair
  have hpair : PairFree h₁ := of_decide_eq_true (Option.some.inj hpair)
  -- the file is in the buffer
  obtain ⟨files', hok', hopen, hkept, ⟨hno, -⟩ | ⟨-, size, h₁', v', o, hsz, ht, hk', hread⟩⟩ :=
    ProgramFile.readElf_cases (p := pageFile (bufOf launcher)) hs hf
  · rcases hno with hno | hno
    · exact absurd hno (Option.some_ne_none _)
    · have h0 := hno 4096 rfl
      exact absurd (Prod.mk.inj (Option.some.inj (hk.symm.trans h0))).2 ht'.ne_zero
  obtain rfl : 4096 = size := Option.some.inj hsz
  obtain ⟨rfl, rfl⟩ := Prod.mk.inj (Option.some.inj (hk.symm.trans hk'))
  have hst : ((pageFile (bufOf launcher)).reply 4096).stored ≤ (elfPages 4096).toNat * 4096 := by
    decide
  rw [ProgramFile.finish, if_neg (by decide)] at hread
  set g := (pageFile (bufOf launcher)).filled 4096 v h₁ with hg
  obtain ⟨hgs, hgfree⟩ := ht.sound.congr g rfl rfl fun x hx =>
    ProgramFile.filled_mem ht hst (by rw [ht.free] at hx; exact hx.2)
  have hcard₁ := Set.ncard_sdiff_singleton_of_mem ht'.mem_free
  rw [← ht'.free, ← hgfree, hcard] at hcard₁
  -- the entry and its kernel stack
  have hun' : files'.unusedProc = some c := by
    rw [unusedProc, hkept.procState]
    exact hun
  obtain ⟨f, r, halloc, w, hentry, ⟨hno, -⟩ | ⟨rfl, hstack, hfiles⟩⟩ := ForkState.procAlloc_spec
    (s := { (spawner h files tf).toForkState with heap := g, files := files' }) hgs hun'
  · exact absurd hpair hno
  have hcard₂ := hstack.ncard_free hgs
  change g.freePages.ncard = f.heap.freePages.ncard + 2 at hcard₂
  have hsub : f.heap.freePages ⊆ g.freePages := by
    rw [hstack.free]
    exact Set.sdiff_subset
  -- the image
  have hheld := (ht.held hgfree).mono hsub
  have hfile : ∀ elf, BufferBytes f.heap v (elfPages 4096) elf → IsElf64 elf ∧ Tame elf ∧
      4 * (elfPlan elf).length + 1 ≤ f.heap.freePages.ncard := fun elf hb => by
    have hl : IsLauncher elf := fun i hi => by
      rw [hb i hi]
      refine (hstack.agree.mem _ fun hfree => Set.disjoint_left.1 (ht.held hgfree).held
        (HeldBlock.pageOf_mem (ht.held hgfree) (within_add v hi (by decide))) hfree).trans ?_
      rw [ProgramFile.filled_byte ht hst hi, ProgramFile.elfByte,
        if_pos (show i < ((pageFile (bufOf launcher)).reply 4096).stored from hi)]
      rfl
    refine ⟨hl.isElf64, hl.wellFormed.tame, ?_⟩
    rw [hl.plan_length]
    omega
  obtain ⟨s₂, p4, e, hload, -⟩ := exists_loadImage (s := { (spawner h files tf) with
    toForkState := f }) hstack.sound hheld rfl hfile
  have hl : ∃ s₃ e, (spawner h files tf).createLoad (pageFile (bufOf launcher)) =
      some (s₃, some (c, e)) := by
    have hread' : (pageFile (bufOf launcher)).readElf (spawner h files tf).heap
        (spawner h files tf).files = _ := hread
    rw [createLoad, hread', Option.bind_some]
    dsimp only
    rw [show ({ (spawner h files tf).toForkState with heap := g, files := files' } :
      ForkState).procAlloc = _ from halloc, Option.bind_some]
    dsimp only
    exact ⟨_, _, congrArg (Option.map _) hload⟩
  obtain ⟨s₃, e', hl⟩ := hl
  obtain ⟨s', hr⟩ : ∃ s', (spawner h files tf).procCreate (pageFile (bufOf launcher)) [0x2F, 0x62]
      none none 0 0 = some (s', some c) := by
    rw [procCreate, hl, Option.bind_some]
    exact ⟨_, rfl⟩
  exact ⟨h, s', hs, hr⟩

/-- The program starts at `0x400000`. -/
theorem fileEntry_launcher : (pageFile (bufOf launcher)).fileEntry 4096 = 0x400000 := by
  have hl : IsLauncher fun a => (pageFile (bufOf launcher)).elfByte 4096 a.toNat := fun i hi => by
    have hi64 : (BitVec.ofNat 64 i).toNat = i := by
      rw [BitVec.toNat_ofNat, Nat.mod_eq_of_lt (by omega)]
    dsimp only
    rw [hi64, ProgramFile.elfByte,
      if_pos (show i < ((pageFile (bufOf launcher)).reply 4096).stored from hi)]
    rfl
  exact hl.eEntry_eq

/-- A process was made in the entry 0, has called `exit` and was reaped. -/
def exitedRun : List FileEvent :=
  [.procCreate ⟨some (⟨7, none, none⟩, true, false), true, true, true⟩ true true true none none,
    .call (.sysExit 0), .call (.reap 0)]

/-- The frame of that call, with the registers `regs`. -/
def exitFrame (regs : Reg → U64) : TfField → U64 := tfWord (savedTf regs)

/-- The process resumes at `0x401000`. -/
def exitRegs (r : Reg) : U64 := if r = .rcx then 0x401000 else 0

theorem exists_exited : ∃ files, Run.run fileStep boot exitedRun = some files ∧
    FilesOk files [] ∧ files.unusedProc = some 0 := by
  have hrun : ((Run.run fileStep boot exitedRun).map fun f => decide (f.unusedProc = some 0)) =
      some true := by decide
  obtain ⟨files, hr, hun⟩ := Option.map_eq_some_iff.1 hrun
  have hok : PipesOk files := Run.run_invariant_of (fun _ _ _ h hn hs => h.fileStep hn hs)
    pipesOk_boot (by simp [exitedRun, FileEvent.Narrow, FdEvent.Narrow]) hr
  exact ⟨files, hr, hok.files, of_decide_eq_true hun⟩

/-- A process in an entry without a frame. -/
theorem create_fresh_boot : ∃ (s s' : ExecState) (c : Fin maxProcs) (p : ProgramFile) (size : U64),
    Run.run fileStep boot [] = some s.files ∧
    s.procCreate p [0x2F, 0x62] none none 0 0 = some (s', some c) ∧ p.size = some size ∧
      ∃ files, CreatedFresh files s' c (p.fileEntry size) 0 0 none none := by
  obtain ⟨h, s', hs, hr⟩ := exists_procCreate pipesOk_boot.files (c := 0) (by decide) fun _ => 0
  have hrun : Run.run fileStep boot [] = some boot := rfl
  obtain ⟨s₁, entry, -, hentry, hiff⟩ := create_fresh_iff hrun hr
  rw [hentry hs 4096 rfl (by decide)] at hiff
  exact ⟨_, s', 0, _, 4096, hrun, hr, rfl, s₁.files, hiff.2 (Or.inl rfl)⟩

/-- A process in an entry whose last process has called `exit` at `0x401000` : it starts there, and
not at `0x400000`. -/
theorem recycled_entry : ∃ (s s' : ExecState) (c : Fin maxProcs) (p : ProgramFile) (size : U64)
    (es : List FileEvent), Run.run fileStep boot es = some s.files ∧ s.heap.Sound ∧
    p.size = some size ∧ p.fileEntry size = 0x400000 ∧ (s.entry c).tf = exitFrame exitRegs ∧
    s.procCreate p [0x2F, 0x62] none none 0 0 = some (s', some c) ∧
    (∃ t u, Dispatches s'.toForkState c id t ∧ firstRun id 0 0 t = some u ∧ u.rip = 0x401000) ∧
    ∀ files, ¬CreatedFresh files s' c (p.fileEntry size) 0 0 none none := by
  obtain ⟨files, hrun, hok, hun⟩ := exists_exited
  obtain ⟨h, s', hs, hr⟩ := exists_procCreate hok hun (exitFrame exitRegs)
  obtain ⟨s₁, entry, _, hl, -, -, -, hw⟩ := procCreate_some hr
  obtain ⟨-, -, htf⟩ := createLoad_some hl
  obtain ⟨t, ht⟩ := exists_dispatches s'.toForkState 0
  have hfirst : firstTf (s₁.entry 0).tf entry userStackTop = exitFrame exitRegs := by
    rw [htf]
    exact if_pos (show exitFrame exitRegs .rip ≠ 0 by decide)
  rw [hfirst] at hw
  obtain ⟨u, hu, hstart⟩ := ht.starts hw
  have hrip : u.rip = 0x401000 := hstart.rip.trans (by decide)
  refine ⟨_, s', 0, _, 4096, exitedRun, hrun, hs, rfl, fileEntry_launcher, rfl, hr,
    ⟨t, u, ht, hu, hrip⟩, fun files hc => ?_⟩
  obtain ⟨u', hu', hfresh⟩ := hc.starts id t ht
  obtain rfl := Option.some.inj (hu.symm.trans hu')
  rw [fileEntry_launcher] at hfresh
  exact absurd (hrip.symm.trans hfresh.rip) (by decide)

end ExecState

end Jeos
