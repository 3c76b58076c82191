import Mathlib.Logic.Function.Basic
import Jeos.Lib.Run
import Jeos.Types

/-!
# The interrupt flag across `yield`

One CPU with `pushcli`, `popcli`, `acquire` and `release` of `spinlock.h`, and the places where
`scheduler`, `yield`, `forkret` and `sys_exit` call them on `proc_lock`. `intena` is a field of
the CPU : `pushcli` stores the flag of the context that acquires the lock, and the `popcli` that
restores it belongs to the context that `swtch` has switched to.

So a process gets the flag with which the lock was last acquired, which is set by the scheduler
at the start of a pass, and by the process that left last otherwise. `yield` returns with the
flag it was called with exactly if the two agree (`interrupts_kept_iff`). The first process of a
pass that called `yield` in a system call gets interrupts (`yield_enables_interrupts`).
-/

namespace Jeos

/-- `ncli` and `intena` of `struct cpu`, and the interrupt flag of the processor. -/
structure IrqCpu where
  ncli : BitVec 8
  intena : Bool
  interrupts : Bool

namespace IrqCpu

variable (x : IrqCpu)

/-- `pushcli`. -/
def pushcli : IrqCpu where
  ncli := x.ncli + 1
  intena := if x.ncli = 0 then x.interrupts else x.intena
  interrupts := false

/-- `popcli`, or `none` where it halts. -/
def popcli : Option IrqCpu :=
  if x.interrupts then none
  else if x.ncli = 0 then none
  else some
    { x with
      ncli := x.ncli - 1
      interrupts := x.ncli - 1 = 0 && x.intena }

/-- `holding`, with `locked` telling whether this CPU has the lock. -/
def holding (locked : Bool) : Option (IrqCpu × Bool) := x.pushcli.popcli.map fun y => (y, locked)

/-- `acquire` of a lock that no other CPU has. -/
def acquire (locked : Bool) : Option (IrqCpu × Bool) :=
  (x.pushcli.holding locked).bind fun (y, held) => if held then none else some (y, true)

/-- `release`. -/
def release (locked : Bool) : Option (IrqCpu × Bool) :=
  (x.holding locked).bind fun (y, held) =>
    if held then y.popcli.map fun z => (z, false) else none

end IrqCpu

/-- What the stack of a process holds : nothing, the frame of `forkret`, that of `yield` called
with the flag given, or the process is on the CPU, or was. -/
inductive Saved where
  | absent
  | forkret
  | yield (flag : Bool)
  | onCpu
  | exited
  deriving DecidableEq

/-- The context the CPU is in. -/
inductive Place (π : Type*) where
  /-- `scheduler`, in front of `sti` -/
  | idle
  /-- `scheduler`, in a pass -/
  | pass
  /-- behind `swtch` in `forkret` or `yield` of a process -/
  | resuming (p : π)
  | running (p : π)
  deriving DecidableEq

/-- The CPU with the processes. `handed` is the flag with which `proc_lock` was acquired last,
and `back` the flags of the last `yield` that returned, when it was called and afterwards. -/
structure IrqState (π : Type*) where
  cpu : IrqCpu
  locked : Bool
  place : Place π
  saved : π → Saved
  handed : Bool
  back : Option (Bool × Bool)

inductive IrqEvent (π : Type*) where
  /-- a new process gets runnable -/
  | spawn (p : π)
  /-- `sti` and `acquire` in `scheduler` -/
  | beginPass
  | dispatch (p : π)
  /-- `release` in `forkret` or `yield` -/
  | resume
  /-- the process enters the kernel by `syscall` or an interrupt gate -/
  | enterKernel
  /-- `sysret` or `iretq` -/
  | leaveKernel
  | yield
  | sysExit
  /-- `release` in `scheduler` -/
  | endPass

namespace IrqState

set_option linter.unusedSectionVars false

variable {π : Type*} [DecidableEq π] (s : IrqState π)

/-- A context acquires `proc_lock` and goes on in a pass of the scheduler. -/
def enterPass (x : IrqCpu) (saved : π → Saved) : Option (IrqState π) :=
  (x.acquire s.locked).map fun (y, locked) =>
    { s with cpu := y, locked := locked, place := .pass, saved := saved, handed := x.interrupts }

def dispatch (p : π) : Option (IrqState π) :=
  match s.place, s.saved p with
  | .pass, .forkret => some { s with place := .resuming p }
  | .pass, .yield _ => some { s with place := .resuming p }
  | _, _ => none

/-- The end of `forkret` or `yield`. -/
def resume : Option (IrqState π) :=
  match s.place with
  | .resuming p =>
    (s.cpu.release s.locked).map fun (y, locked) =>
      { s with
        cpu := y
        locked := locked
        place := .running p
        saved := Function.update s.saved p .onCpu
        back := match s.saved p with
          | .yield flag => some (flag, y.interrupts)
          | _ => s.back }
  | _ => none

/-- The flag changes in a process. -/
def setFlag (b : Bool) : Option (IrqState π) :=
  match s.place with
  | .running _ => some { s with cpu := { s.cpu with interrupts := b } }
  | _ => none

def step : IrqEvent π → Option (IrqState π)
  | .spawn p =>
    if s.saved p = .absent then
      some { s with saved := Function.update s.saved p .forkret }
    else none
  | .beginPass =>
    match s.place with
    | .idle => s.enterPass { s.cpu with interrupts := true } s.saved
    | _ => none
  | .dispatch p => s.dispatch p
  | .resume => s.resume
  | .enterKernel => s.setFlag false
  | .leaveKernel => s.setFlag true
  | .yield =>
    match s.place with
    | .running p => s.enterPass s.cpu (Function.update s.saved p (.yield s.cpu.interrupts))
    | _ => none
  | .sysExit =>
    match s.place with
    | .running p => s.enterPass s.cpu (Function.update s.saved p .exited)
    | _ => none
  | .endPass =>
    match s.place with
    | .pass => (s.cpu.release s.locked).map fun (y, locked) =>
        { s with cpu := y, locked := locked, place := .idle }
    | _ => none

/-- The scheduler before its first pass, and no process. -/
def init : IrqState π where
  cpu := ⟨0, false, false⟩
  locked := false
  place := .idle
  saved := fun _ => .absent
  handed := false
  back := none

/-- The last `yield` that returned did so with the flag it was called with. -/
def FlagKept (s : IrqState π) : Prop := ∀ flag now, s.back = some (flag, now) → flag = now

/-- A process that goes on in `yield` called it with the flag with which the lock was acquired
last : set if it is the first one of a pass, that of the process before it otherwise. -/
def KeepsFlag (s : IrqState π) : IrqEvent π → Prop
  | .resume => ∀ p flag, s.place = .resuming p → s.saved p = .yield flag → flag = s.handed
  | _ => True

/-! ## The lock and the flag -/

/-- The CPU while it has the lock. -/
def Held (x : IrqCpu) (flag : Bool) : Prop := x.ncli = 1 ∧ x.intena = flag ∧ x.interrupts = false

/-- `acquire` outside any `pushcli` saves the flag. -/
theorem acquire_spec {x : IrqCpu} (hx : x.ncli = 0) :
    ∃ y, x.acquire false = some (y, true) ∧ Held y x.interrupts := by
  obtain ⟨n, a, b⟩ := x
  obtain rfl : n = 0 := hx
  refine ⟨⟨1, b, false⟩, ?_, rfl, rfl, rfl⟩
  simp [IrqCpu.acquire, IrqCpu.holding, IrqCpu.pushcli, IrqCpu.popcli]

/-- `release` restores the flag that was saved last. -/
theorem release_spec {x : IrqCpu} {flag : Bool} (hx : Held x flag) :
    ∃ y, x.release true = some (y, false) ∧ y.ncli = 0 ∧ y.interrupts = flag := by
  obtain ⟨n, a, b⟩ := x
  obtain ⟨hn, ha, hb⟩ := hx
  obtain rfl : n = 1 := hn
  obtain rfl : a = flag := ha
  obtain rfl : b = false := hb
  refine ⟨⟨0, a, a⟩, ?_, rfl, rfl⟩
  simp [IrqCpu.release, IrqCpu.holding, IrqCpu.pushcli, IrqCpu.popcli]

/-- The CPU in the place it is in. -/
def PlaceOk (s : IrqState π) : Prop :=
  match s.place with
  | .pass | .resuming _ => s.locked = true ∧ Held s.cpu s.handed
  | .idle | .running _ => s.locked = false ∧ s.cpu.ncli = 0

variable {s} {s' : IrqState π} {p : π}

theorem enterPass_spec {x : IrqCpu} (saved : π → Saved) (hl : s.locked = false)
    (hx : x.ncli = 0) :
    ∃ s', s.enterPass x saved = some s' ∧ PlaceOk s' ∧ s'.back = s.back := by
  obtain ⟨y, hy, hheld⟩ := acquire_spec hx
  exact ⟨{ s with
    cpu := y, locked := true, place := .pass, saved := saved, handed := x.interrupts },
    by rw [enterPass, hl, hy, Option.map_some], ⟨rfl, hheld⟩, rfl⟩

/-- `resume` never halts, and `yield` returns with the flag in `intena`. -/
theorem resume_spec (h : PlaceOk s) (hp : s.place = .resuming p) :
    ∃ s', s.resume = some s' ∧ PlaceOk s' ∧
      s'.back = match s.saved p with
        | .yield flag => some (flag, s.handed)
        | _ => s.back := by
  unfold PlaceOk at h
  rw [hp] at h
  obtain ⟨hl, hheld⟩ := h
  obtain ⟨y, hy, hn, hflag⟩ := release_spec hheld
  refine ⟨{ s with
      cpu := y
      locked := false
      place := .running p
      saved := Function.update s.saved p .onCpu
      back := match s.saved p with
        | .yield flag => some (flag, y.interrupts)
        | _ => s.back }, ?_, ⟨rfl, hn⟩, ?_⟩
  · simp only [resume, hp, hl, hy, Option.map_some]
  · rw [← hflag]

/-- Every step but the return from `yield` leaves `back` alone. -/
theorem PlaceOk.step {e : IrqEvent π} (h : PlaceOk s) (hs : s.step e = some s') :
    PlaceOk s' ∧ (e ≠ .resume → s'.back = s.back) := by
  cases e with
  | spawn p =>
    simp only [IrqState.step] at hs
    split_ifs at hs
    obtain rfl := Option.some.inj hs
    exact ⟨h, fun _ => rfl⟩
  | beginPass =>
    simp only [IrqState.step] at hs
    split at hs
    · rename_i hp
      rw [PlaceOk, hp] at h
      obtain ⟨s₁, hs₁, hok, hback⟩ := enterPass_spec s.saved
        (x := { s.cpu with interrupts := true }) h.1 h.2
      obtain rfl : s₁ = s' := Option.some.inj (hs₁.symm.trans hs)
      exact ⟨hok, fun _ => hback⟩
    · cases hs
  | dispatch p =>
    simp only [IrqState.step, IrqState.dispatch] at hs
    split at hs
    · rename_i hp _
      obtain rfl := Option.some.inj hs
      rw [PlaceOk, hp] at h
      exact ⟨h, fun _ => rfl⟩
    · rename_i hp _
      obtain rfl := Option.some.inj hs
      rw [PlaceOk, hp] at h
      exact ⟨h, fun _ => rfl⟩
    · cases hs
  | resume =>
    have hp : ∃ p, s.place = .resuming p := by
      simp only [IrqState.step, IrqState.resume] at hs
      split at hs
      · exact ⟨_, ‹_›⟩
      · cases hs
    obtain ⟨p, hp⟩ := hp
    obtain ⟨s₁, hs₁, hok, -⟩ := resume_spec h hp
    obtain rfl : s₁ = s' := Option.some.inj (hs₁.symm.trans hs)
    exact ⟨hok, fun hne => absurd rfl hne⟩
  | enterKernel | leaveKernel =>
    simp only [IrqState.step, IrqState.setFlag] at hs
    split at hs
    · rename_i hp
      obtain rfl := Option.some.inj hs
      rw [PlaceOk, hp] at h
      refine ⟨?_, fun _ => rfl⟩
      rw [PlaceOk]
      simpa only [hp] using h
    · cases hs
  | yield | sysExit =>
    simp only [IrqState.step] at hs
    split at hs
    · rename_i p hp
      rw [PlaceOk, hp] at h
      obtain ⟨s₁, hs₁, hok, hback⟩ := enterPass_spec _ h.1 h.2
      obtain rfl : s₁ = s' := Option.some.inj (hs₁.symm.trans hs)
      exact ⟨hok, fun _ => hback⟩
    · cases hs
  | endPass =>
    simp only [IrqState.step] at hs
    split at hs
    · rename_i hp
      rw [PlaceOk, hp] at h
      obtain ⟨y, hy, hn, -⟩ := release_spec h.2
      rw [h.1, hy] at hs
      obtain rfl := Option.some.inj hs
      exact ⟨⟨rfl, hn⟩, fun _ => rfl⟩
    · cases hs

/-! ## Runs -/

/-- The invariant of runs in which every `yield` so far has kept the flag. -/
structure FlagOk (s : IrqState π) : Prop where
  place : PlaceOk s
  kept : FlagKept s

theorem FlagOk.step {e : IrqEvent π} (h : FlagOk s) (hk : s.KeepsFlag e)
    (hs : s.step e = some s') : FlagOk s' := by
  obtain ⟨hok, hback⟩ := h.place.step hs
  refine ⟨hok, ?_⟩
  by_cases he : e = .resume
  · subst he
    intro flag now hb
    obtain ⟨p, hp⟩ : ∃ p, s.place = .resuming p := by
      simp only [IrqState.step, resume] at hs
      split at hs
      · exact ⟨_, ‹_›⟩
      · cases hs
    obtain ⟨s₁, hs₁, -, hback₁⟩ := resume_spec h.place hp
    obtain rfl : s₁ = s' := Option.some.inj (hs₁.symm.trans hs)
    rw [hback₁] at hb
    split at hb
    · rename_i flag' hsaved
      obtain ⟨rfl, rfl⟩ := Prod.mk.inj (Option.some.inj hb)
      exact hk p flag' hp hsaved
    · exact h.kept flag now hb
  · intro flag now hb
    rw [hback he] at hb
    exact h.kept flag now hb

theorem FlagOk.not_flagKept {e : IrqEvent π} (h : FlagOk s) (hk : ¬s.KeepsFlag e)
    (hs : s.step e = some s') : ¬FlagKept s' := by
  cases e with
  | resume =>
    simp only [KeepsFlag, not_forall] at hk
    obtain ⟨p, flag, hp, hsaved, hne⟩ := hk
    obtain ⟨s₁, hs₁, -, hback⟩ := resume_spec h.place hp
    obtain rfl : s₁ = s' := Option.some.inj (hs₁.symm.trans hs)
    rw [hsaved] at hback
    exact fun hkept => hne (hkept flag s.handed hback)
  | _ => exact absurd trivial hk

theorem flagOk_init : FlagOk (init : IrqState π) where
  place := ⟨rfl, rfl⟩
  kept flag now hb := by cases hb

/-- For any processes and any order in which they are picked : every `yield` of a run returns
with the interrupt flag it was called with exactly if every process that goes on in `yield`
called it with the flag with which the lock was acquired last. -/
theorem interrupts_kept_iff {es : List (IrqEvent π)} (hr : Run.run step init es = some s) :
    Run.EachStep step KeepsFlag (init : IrqState π) es ↔
      Run.Always step FlagKept (init : IrqState π) es :=
  Run.eachStep_iff_always (G := fun _ => True) (fun _ _ _ h _ hk hs => h.step hk hs)
    (fun _ h => h.kept) (fun _ _ _ h _ hk hs => h.not_flagKept hk hs) flagOk_init
    (fun _ _ => trivial) hr

/-- A process calls `yield` in a system call and is the first one of the next pass : it leaves
`yield` with interrupts. -/
theorem yield_enables_interrupts :
    ∃ s, Run.run step init
        [.spawn 0, .beginPass, .dispatch 0, .resume, .leaveKernel, .enterKernel, .yield, .endPass,
          .beginPass, .dispatch 0, .resume] = some s ∧
      s.back = some (false, true) ∧ ¬FlagKept (s : IrqState ℕ) := by
  have hs : (Run.run step (init : IrqState ℕ)
      [.spawn 0, .beginPass, .dispatch 0, .resume, .leaveKernel, .enterKernel, .yield, .endPass,
        .beginPass, .dispatch 0, .resume]).map back = some (some (false, true)) := by decide
  obtain ⟨s, hs, hb⟩ := Option.map_eq_some_iff.1 hs
  exact ⟨s, hs, hb, fun hkept => Bool.false_ne_true (hkept false true hb)⟩

/-- Two processes yield to each other in one pass. -/
theorem interrupts_kept_iff_two :
    ∃ s, Run.run step (init : IrqState ℕ)
        [.spawn 0, .spawn 1, .beginPass, .dispatch 0, .resume, .enterKernel, .yield, .dispatch 1,
          .resume, .enterKernel, .yield, .dispatch 0, .resume] = some s ∧
      (Run.EachStep step KeepsFlag (init : IrqState ℕ)
          [.spawn 0, .spawn 1, .beginPass, .dispatch 0, .resume, .enterKernel, .yield, .dispatch 1,
            .resume, .enterKernel, .yield, .dispatch 0, .resume] ↔
        Run.Always step FlagKept (init : IrqState ℕ)
          [.spawn 0, .spawn 1, .beginPass, .dispatch 0, .resume, .enterKernel, .yield, .dispatch 1,
            .resume, .enterKernel, .yield, .dispatch 0, .resume]) := by
  have hs : (Run.run step (init : IrqState ℕ)
      [.spawn 0, .spawn 1, .beginPass, .dispatch 0, .resume, .enterKernel, .yield, .dispatch 1,
        .resume, .enterKernel, .yield, .dispatch 0, .resume]).isSome := by decide
  obtain ⟨s, hs⟩ := Option.isSome_iff_exists.1 hs
  exact ⟨s, hs, interrupts_kept_iff hs⟩

end IrqState

end Jeos
