import Jeos.Files

/-!
# Processes, CPUs and page tables

The process table with the PML4 page of every process, the `CR3` register of every CPU,
and the position of every CPU in the code that allocates, frees and loads PML4 pages :
`scheduler`, `yield`, `sys_exit`, `proc_create`, `proc_fork`, `proc_exec` and `sys_wait`.
`proc_lock` is a field, so a section under it excludes the others.

A page is its number, and 0 is the null pointer. `live` tells which PML4 pages were given
out by `kalloc` and not passed to `kfree` since. Which page a `kalloc` returns is an argument
of the event, 0 for a failure. The table of the boot loader is never freed.

The system calls run with interrupts off, so a CPU leaves them only where they call `yield`.
Between two events of one CPU there may be any events of the others.
-/

namespace Jeos

/-- The fields of `struct proc` the code on page tables uses. -/
structure ProcEntry where
  state : ProcState
  pid : U32
  ppid : U32
  pml4 : ℕ

/-- Where a CPU is. -/
inductive Activity where
  /-- in `kmain`, before `scheduler` -/
  | kmain
  /-- in `scheduler` -/
  | scheduler
  /-- switched to a process that still holds `proc_lock` -/
  | resuming
  /-- in the user's code, or in kernel code not listed here -/
  | running
  /-- in `proc_fork` or `proc_create`, behind `proc_alloc`, and behind `create_user_pml4` if
  the flag is set -/
  | creating (child : Fin maxProcs) (made : Bool)
  /-- in `proc_exec`, with the new PML4 -/
  | execBuilt (newPml4 : ℕ)
  /-- in `proc_exec`, behind `p->pml4 = new_pml4` -/
  | execSet (oldPml4 newPml4 : ℕ)
  /-- in `proc_exec`, behind `kfree(old_pml4, 1)` -/
  | execFreed (newPml4 : ℕ)
  deriving DecidableEq

/-- `c->proc`, the `CR3` register and the place in the code. -/
structure CpuState where
  proc : Option (Fin maxProcs)
  cr3 : ℕ
  act : Activity

/-- Where a CPU goes on behind `proc_fork` or `proc_create`. -/
def CpuState.back (x : CpuState) : CpuState :=
  { x with act := if x.proc = none then .kmain else .running }

structure SchedState (ι : Type*) where
  procs : Fin maxProcs → ProcEntry
  cpus : ι → CpuState
  live : ℕ → Bool
  lock : Option ι
  nextPid : U32

/-- One step of a CPU. -/
inductive SchedEvent (ι : Type*) where
  /-- `kmain` calls `scheduler` -/
  | startScheduler (c : ι)
  /-- `scheduler` acquires the lock for a pass over the table -/
  | beginPass (c : ι)
  /-- `scheduler` finds entry `i` runnable -/
  | dispatch (c : ι) (i : Fin maxProcs)
  /-- the end of a pass -/
  | endPass (c : ι)
  /-- `release` in `forkret` or behind the `swtch` of `yield` -/
  | resume (c : ι)
  | yield (c : ι)
  | sysExit (c : ι)
  /-- `sys_wait`, one pass over the table -/
  | sysWait (c : ι)
  /-- `proc_alloc`, with the result of the `kalloc` of the kernel stack -/
  | procAlloc (c : ι) (kstackOk : Bool)
  /-- `create_user_pml4` in `proc_fork` or `proc_create` -/
  | createPml4 (c : ι) (page : ℕ)
  /-- a bad ELF file in `proc_create` -/
  | createFail (c : ι)
  /-- the new process gets runnable -/
  | publish (c : ι)
  /-- `proc_exec` up to its `create_user_pml4` -/
  | execBuild (c : ι) (page : ℕ)
  /-- a bad ELF file in `proc_exec` -/
  | execFail (c : ι)
  /-- `p->pml4 = new_pml4` -/
  | execSet (c : ι)
  /-- `free_user_pml4(old_pml4)` and `kfree(old_pml4, 1)` -/
  | execFree (c : ι)
  /-- `lcr3` in `proc_exec` -/
  | execLoad (c : ι)

namespace SchedState

variable {ι : Type*} [DecidableEq ι] (s : SchedState ι)

def setProc (i : Fin maxProcs) (p : ProcEntry) : SchedState ι :=
  { s with procs := Function.update s.procs i p }

def setCpu (c : ι) (x : CpuState) : SchedState ι :=
  { s with cpus := Function.update s.cpus c x }

/-- `kalloc(1)` returns the page. -/
def allocated (page : ℕ) : SchedState ι := { s with live := Function.update s.live page true }

/-- `kfree(page, 1)`. -/
def kfreed (page : ℕ) : SchedState ι := { s with live := Function.update s.live page false }

/-- The page can be the next one `kalloc` returns. -/
def CanAlloc (page : ℕ) : Prop := page ≠ 0 ∧ s.live page = false

instance (page : ℕ) : Decidable (s.CanAlloc page) :=
  inferInstanceAs (Decidable (_ ∧ _))

/-- The first entry that is unused. -/
def firstUnused : Option (Fin maxProcs) :=
  (List.finRange maxProcs).find? fun i => (s.procs i).state = .unused

/-- The first zombie with the process `k` as its parent. -/
def zombieChild (k : Fin maxProcs) : Option (Fin maxProcs) :=
  (List.finRange maxProcs).find? fun i =>
    (s.procs i).state = .zombie ∧ (s.procs i).ppid = (s.procs k).pid

/-! ## The functions -/

/-- An iteration of the loop in `scheduler`, up to the `swtch`. -/
def dispatch (c : ι) (i : Fin maxProcs) : Option (SchedState ι) :=
  if (s.cpus c).act = .scheduler ∧ s.lock = some c ∧ (s.procs i).state = .runnable then
    some ((s.setProc i { s.procs i with state := .running }).setCpu c
      ⟨some i, (s.procs i).pml4, .resuming⟩)
  else none

/-- `yield` and `sys_exit`, up to the `swtch` to the scheduler with the lock held. -/
def leave (c : ι) (state : ProcState) : Option (SchedState ι) :=
  match (s.cpus c).act, (s.cpus c).proc, s.lock with
  | .running, some i, none =>
    some { (s.setProc i { s.procs i with state := state }).setCpu c
      { s.cpus c with proc := none, act := .scheduler } with lock := some c }
  | _, _, _ => none

/-- One pass of `sys_wait`. Without a zombie child the lock is released again. -/
def sysWait (c : ι) : Option (SchedState ι) :=
  match (s.cpus c).act, (s.cpus c).proc, s.lock with
  | .running, some k, none =>
    match s.zombieChild k with
    | some i => some ((s.kfreed (s.procs i).pml4).setProc i
        { s.procs i with state := .unused, pml4 := 0 })
    | none => some s
  | _, _, _ => none

/-- `proc_alloc`. -/
def procAlloc (c : ι) (kstackOk : Bool) : Option (SchedState ι) :=
  if ((s.cpus c).act = .running ∨ (s.cpus c).act = .kmain) ∧ s.lock = none then
    match s.firstUnused with
    | none => some s
    | some i =>
      let s' := { s with nextPid := s.nextPid + 1 }
      if kstackOk then
        some ((s'.setProc i { s.procs i with pid := s.nextPid, state := .embryo }).setCpu c
          { s.cpus c with act := .creating i false })
      else some (s'.setProc i { s.procs i with pid := s.nextPid, state := .unused })
  else none

/-- `child->pml4 = create_user_pml4()` and its check. -/
def createPml4 (c : ι) (page : ℕ) : Option (SchedState ι) :=
  match (s.cpus c).act with
  | .creating i false =>
    if page = 0 then
      some ((s.setProc i { s.procs i with state := .unused, pml4 := 0 }).setCpu c (s.cpus c).back)
    else if s.CanAlloc page then
      some (((s.allocated page).setProc i { s.procs i with pml4 := page }).setCpu c
        { s.cpus c with act := .creating i true })
    else none
  | _ => none

/-- The error path of `proc_create` behind `elf_load_segments`. `p->pml4` keeps its value. -/
def createFail (c : ι) : Option (SchedState ι) :=
  match (s.cpus c).act, (s.cpus c).proc with
  | .creating i true, none =>
    some (((s.kfreed (s.procs i).pml4).setProc i { s.procs i with state := .unused }).setCpu c
      (s.cpus c).back)
  | _, _ => none

/-- The end of `proc_fork` and `proc_create`. -/
def publish (c : ι) : Option (SchedState ι) :=
  match (s.cpus c).act, s.lock with
  | .creating i true, none =>
    some ((s.setProc i { s.procs i with
      state := .runnable
      ppid := match (s.cpus c).proc with
        | some k => (s.procs k).pid
        | none => 0 }).setCpu c (s.cpus c).back)
  | _, _ => none

/-- `proc_exec` up to `create_user_pml4`. -/
def execBuild (c : ι) (page : ℕ) : Option (SchedState ι) :=
  match (s.cpus c).act, (s.cpus c).proc with
  | .running, some _ =>
    if page = 0 then some s
    else if s.CanAlloc page then
      some ((s.allocated page).setCpu c { s.cpus c with act := .execBuilt page })
    else none
  | _, _ => none

/-- The error path of `proc_exec` behind `elf_load_segments`. -/
def execFail (c : ι) : Option (SchedState ι) :=
  match (s.cpus c).act with
  | .execBuilt page => some ((s.kfreed page).setCpu c { s.cpus c with act := .running })
  | _ => none

/-- `old_pml4 = p->pml4; p->pml4 = new_pml4;` -/
def execSet (c : ι) : Option (SchedState ι) :=
  match (s.cpus c).act, (s.cpus c).proc with
  | .execBuilt page, some i =>
    some ((s.setProc i { s.procs i with pml4 := page }).setCpu c
      { s.cpus c with act := .execSet (s.procs i).pml4 page })
  | _, _ => none

/-- `free_user_pml4(old_pml4); kfree(old_pml4, 1);` -/
def execFree (c : ι) : Option (SchedState ι) :=
  match (s.cpus c).act with
  | .execSet old page => some ((s.kfreed old).setCpu c { s.cpus c with act := .execFreed page })
  | _ => none

/-- `lcr3(VIRT_TO_PHYS((u64)new_pml4))`. -/
def execLoad (c : ι) : Option (SchedState ι) :=
  match (s.cpus c).act with
  | .execFreed page => some (s.setCpu c { s.cpus c with cr3 := page, act := .running })
  | _ => none

/-- One event. -/
def step : SchedEvent ι → Option (SchedState ι)
  | .startScheduler c =>
    if (s.cpus c).act = .kmain then some (s.setCpu c { s.cpus c with act := .scheduler }) else none
  | .beginPass c =>
    if (s.cpus c).act = .scheduler ∧ s.lock = none then some { s with lock := some c } else none
  | .dispatch c i => s.dispatch c i
  | .endPass c =>
    if (s.cpus c).act = .scheduler ∧ s.lock = some c then some { s with lock := none } else none
  | .resume c =>
    if (s.cpus c).act = .resuming ∧ s.lock = some c then
      some { s.setCpu c { s.cpus c with act := .running } with lock := none }
    else none
  | .yield c => s.leave c .runnable
  | .sysExit c => s.leave c .zombie
  | .sysWait c => s.sysWait c
  | .procAlloc c kstackOk => s.procAlloc c kstackOk
  | .createPml4 c page => s.createPml4 c page
  | .createFail c => s.createFail c
  | .publish c => s.publish c
  | .execBuild c page => s.execBuild c page
  | .execFail c => s.execFail c
  | .execSet c => s.execSet c
  | .execFree c => s.execFree c
  | .execLoad c => s.execLoad c

/-- The boot CPU in `kmain`, the others in `scheduler`, all with the page table `boot` of the
boot loader. -/
def init (bsp : ι) (boot : ℕ) : SchedState ι where
  procs := fun _ => ⟨.unused, 0, 0, 0⟩
  cpus := fun c => ⟨none, boot, if c = bsp then .kmain else .scheduler⟩
  live := fun page => page = boot
  lock := none
  nextPid := 1

end SchedState

end Jeos
