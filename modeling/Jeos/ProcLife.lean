import Jeos.Files

/-!
# The life of a process

The process table under `proc_lock` : `proc_alloc`, the ends of `proc_create` and `proc_fork`,
`scheduler`, `yield`, `sys_exit` and `sys_wait`, on any number of CPUs. A section under the
lock is one step. Where `swtch` hands the lock over, the step ends with the lock held by the
CPU and another step of that CPU releases it. The stores to the table outside the lock are
steps of their own : the kernel stack, the way back from a failure, and `ppid`.

`log` remembers what happened, and `issued` how many pids were given out. The code has neither.
A kernel stack is its number, 0 the null pointer, and which one a `kalloc` returns is an
argument. In a system call a CPU is only left where `yield` is called, as interrupts are off.
The page tables of the processes are in another model.
-/

namespace Jeos

namespace ProcLife

/-- Where a process goes on when it runs. -/
inductive Point where
  /-- outside `sys_wait` -/
  | user
  /-- in `sys_wait`, before a pass over the table -/
  | scan
  /-- in `sys_wait`, behind a pass that found nothing -/
  | retry
  deriving DecidableEq

/-- The fields of `struct proc` the life of a process depends on. -/
structure Proc where
  pid : U32
  ppid : U32
  state : ProcState
  exitCode : U32
  kstack : ℕ
  point : Point

/-- Where a CPU is. -/
inductive Duty where
  /-- in `kmain`, before `scheduler` -/
  | kmain
  /-- in `scheduler` -/
  | scheduler
  /-- switched to a process, with the lock still held -/
  | resuming
  /-- in a process -/
  | running
  /-- in `proc_alloc`, behind its section -/
  | allocated (i : Fin maxProcs)
  /-- in `proc_create` or `proc_fork`, behind `proc_alloc` -/
  | building (i : Fin maxProcs)
  /-- behind the store to `ppid` -/
  | ready (i : Fin maxProcs)
  deriving DecidableEq

/-- The entry a CPU is filling. -/
def Duty.makes : Duty → Option (Fin maxProcs)
  | .allocated i | .building i | .ready i => some i
  | _ => none

/-- `c->proc`, and the place in the code. -/
structure Cpu where
  proc : Option (Fin maxProcs)
  duty : Duty

/-- Where a CPU goes on behind `proc_fork` or `proc_create`. -/
def Cpu.back (x : Cpu) : Cpu := { x with duty := if x.proc = none then .kmain else .running }

/-- What happened : a pid given out with an entry, a process made in an entry by `proc_create`,
or by `proc_fork` in the process `parent`, `sys_exit` with its argument, and a `sys_wait` in
the process `parent` with its value and what it stored. -/
inductive Entry where
  | alloc (i : Fin maxProcs) (pid : U32)
  | create (pid : U32) (i : Fin maxProcs)
  | fork (parent pid : U32) (i : Fin maxProcs)
  | exit (pid : U32) (status : U32)
  | wait (parent pid : U32) (stored : Option U32)
  deriving DecidableEq

/-- The process an entry is about. -/
def Entry.pid : Entry → U32
  | .alloc _ pid | .create pid _ | .fork _ pid _ | .exit pid _ | .wait _ pid _ => pid

structure State (ι : Type*) where
  procs : Fin maxProcs → Proc
  cpus : ι → Cpu
  lock : Option ι
  nextPid : U32
  liveStack : ℕ → Bool
  log : List Entry
  issued : ℕ

/-- One step of a CPU. -/
inductive Event (ι : Type*) where
  /-- `kmain` calls `scheduler` -/
  | startScheduler (c : ι)
  /-- `scheduler` acquires the lock for a pass over the table -/
  | beginPass (c : ι)
  /-- `scheduler` finds entry `i` runnable -/
  | dispatch (c : ι) (i : Fin maxProcs)
  /-- the end of a pass -/
  | endPass (c : ι)
  /-- `release` in `forkret` or behind the `swtch` of `yield` -/
  | resume (c : ι)
  | yield (c : ι)
  | sysExit (c : ι) (status : U32)
  /-- one pass of `sys_wait`, and whether `status_out` can be stored to -/
  | sysWait (c : ι) (stores : Bool)
  /-- the section of `proc_alloc` -/
  | procAlloc (c : ι)
  /-- `p->kstack = kalloc(KSTACK_SIZE / PAGE_SIZE)` -/
  | allocStack (c : ι) (stack : ℕ)
  /-- `create_user_pml4` or `elf_load_segments` fails -/
  | buildFail (c : ι)
  /-- `child->ppid = parent->pid` or `p->ppid = 0` -/
  | setParent (c : ι)
  /-- the new process gets runnable -/
  | publish (c : ι)

namespace State

variable {ι : Type*} [DecidableEq ι] (s : State ι)

def setProc (i : Fin maxProcs) (p : Proc) : State ι :=
  { s with procs := Function.update s.procs i p }

def setCpu (c : ι) (x : Cpu) : State ι := { s with cpus := Function.update s.cpus c x }

def setStack (stack : ℕ) (b : Bool) : State ι :=
  { s with liveStack := Function.update s.liveStack stack b }

def record (e : Entry) : State ι := { s with log := s.log ++ [e] }

/-- The first entry that is unused. -/
def firstUnused : Option (Fin maxProcs) :=
  (List.finRange maxProcs).find? fun i => (s.procs i).state = .unused

/-- The first zombie with the process `k` as its parent. -/
def zombieChild (k : Fin maxProcs) : Option (Fin maxProcs) :=
  (List.finRange maxProcs).find? fun i =>
    (s.procs i).state = .zombie ∧ (s.procs i).ppid = (s.procs k).pid

/-- The pid that `ppid` gets. -/
def parentPid (c : ι) : U32 :=
  match (s.cpus c).proc with
  | some k => (s.procs k).pid
  | none => 0

/-! ## The functions -/

/-- An iteration of the loop in `scheduler`, up to the `swtch`. -/
def dispatch (c : ι) (i : Fin maxProcs) : Option (State ι) :=
  if (s.cpus c).duty = .scheduler ∧ s.lock = some c ∧ (s.procs i).state = .runnable then
    some ((s.setProc i { s.procs i with state := .running }).setCpu c ⟨some i, .resuming⟩)
  else none

/-- The switch to the scheduler, which sets `c->proc` to 0 and has the lock. -/
def leave (c : ι) (i : Fin maxProcs) (p : Proc) : State ι :=
  { (s.setProc i p).setCpu c ⟨none, .scheduler⟩ with lock := some c }

/-- `yield`, up to the `swtch`. In `sys_wait` the next pass follows. -/
def yield (c : ι) : Option (State ι) :=
  match (s.cpus c).duty, (s.cpus c).proc, s.lock with
  | .running, some i, none =>
    some (s.leave c i { s.procs i with
      state := .runnable
      point := if (s.procs i).point = .retry then .scan else (s.procs i).point })
  | _, _, _ => none

/-- `sys_exit`. -/
def sysExit (c : ι) (status : U32) : Option (State ι) :=
  match (s.cpus c).duty, (s.cpus c).proc, s.lock with
  | .running, some i, none =>
    if (s.procs i).point = .user then
      some ((s.leave c i { s.procs i with exitCode := status, state := .zombie }).record
        (.exit (s.procs i).pid status))
    else none
  | _, _, _ => none

/-- The entry `i` is reaped : its stack is freed. -/
def reap (i : Fin maxProcs) : State ι :=
  (s.setStack (s.procs i).kstack false).setProc i { s.procs i with kstack := 0, state := .unused }

/-- One pass of `sys_wait` in process `k`. -/
def sysWait (c : ι) (stores : Bool) : Option (State ι) :=
  match (s.cpus c).duty, (s.cpus c).proc, s.lock with
  | .running, some k, none =>
    if (s.procs k).point = .retry then none
    else match s.zombieChild k with
      | some i => some (((s.reap i).setProc k { s.procs k with point := .user }).record
          (.wait (s.procs k).pid (s.procs i).pid
            (if stores then some (s.procs i).exitCode else none)))
      | none => some (s.setProc k { s.procs k with point := .retry })
  | _, _, _ => none

/-- A CPU can start `proc_fork` or `proc_create`. -/
def CanMake (c : ι) : Prop :=
  match (s.cpus c).duty, (s.cpus c).proc with
  | .running, some k => (s.procs k).point = .user
  | .kmain, none => True
  | _, _ => False

instance (c : ι) : Decidable (s.CanMake c) := by
  unfold CanMake
  split <;> infer_instance

/-- The section of `proc_alloc`. -/
def procAlloc (c : ι) : Option (State ι) :=
  if s.CanMake c ∧ s.lock = none then
    match s.firstUnused with
    | none => some s
    | some i => some (({ s with nextPid := s.nextPid + 1, issued := s.issued + 1 }.setProc i
        { s.procs i with pid := s.nextPid, state := .embryo }).setCpu c
          { s.cpus c with duty := .allocated i } |>.record (.alloc i s.nextPid))
  else none

/-- The rest of `proc_alloc`. -/
def allocStack (c : ι) (stack : ℕ) : Option (State ι) :=
  match (s.cpus c).duty with
  | .allocated i =>
    if stack = 0 then
      some ((s.setProc i { s.procs i with kstack := 0, state := .unused }).setCpu c (s.cpus c).back)
    else if s.liveStack stack = false then
      some (((s.setStack stack true).setProc i { s.procs i with kstack := stack }).setCpu c
        { s.cpus c with duty := .building i })
    else none
  | _ => none

/-- The error paths of `proc_fork` and `proc_create` behind `proc_alloc`. The stack is kept. -/
def buildFail (c : ι) : Option (State ι) :=
  match (s.cpus c).duty with
  | .building i =>
    some ((s.setProc i { s.procs i with state := .unused }).setCpu c (s.cpus c).back)
  | _ => none

/-- The store to `ppid`. -/
def setParent (c : ι) : Option (State ι) :=
  match (s.cpus c).duty with
  | .building i =>
    some ((s.setProc i { s.procs i with ppid := s.parentPid c }).setCpu c
      { s.cpus c with duty := .ready i })
  | _ => none

/-- The end of `proc_fork` and `proc_create`. -/
def publish (c : ι) : Option (State ι) :=
  match (s.cpus c).duty, s.lock with
  | .ready i, none =>
    some (((s.setProc i { s.procs i with state := .runnable, point := .user }).setCpu c
      (s.cpus c).back).record
      (match (s.cpus c).proc with
        | some k => .fork (s.procs k).pid (s.procs i).pid i
        | none => .create (s.procs i).pid i))
  | _, _ => none

/-- One event. -/
def step : Event ι → Option (State ι)
  | .startScheduler c =>
    if (s.cpus c).duty = .kmain then some (s.setCpu c { s.cpus c with duty := .scheduler })
    else none
  | .beginPass c =>
    if (s.cpus c).duty = .scheduler ∧ s.lock = none then some { s with lock := some c } else none
  | .dispatch c i => s.dispatch c i
  | .endPass c =>
    if (s.cpus c).duty = .scheduler ∧ s.lock = some c then some { s with lock := none } else none
  | .resume c =>
    if (s.cpus c).duty = .resuming ∧ s.lock = some c then
      some { s.setCpu c { s.cpus c with duty := .running } with lock := none }
    else none
  | .yield c => s.yield c
  | .sysExit c status => s.sysExit c status
  | .sysWait c stores => s.sysWait c stores
  | .procAlloc c => s.procAlloc c
  | .allocStack c stack => s.allocStack c stack
  | .buildFail c => s.buildFail c
  | .setParent c => s.setParent c
  | .publish c => s.publish c

/-- The boot CPU in `kmain`, the others in `scheduler`, and no process. -/
def init (bsp : ι) : State ι where
  procs := fun _ => ⟨0, 0, .unused, 0, 0, .user⟩
  cpus := fun c => ⟨none, if c = bsp then .kmain else .scheduler⟩
  lock := none
  nextPid := 1
  liveStack := fun _ => false
  log := []
  issued := 0

end State

end ProcLife

end Jeos
