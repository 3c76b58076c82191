import Mathlib.Tactic.IntervalCases
import Jeos.InterruptFlag

/-!
# Spinlocks

`pushcli`, `popcli`, `holding`, `acquire` and `release` of `spinlock.h` on any number of CPUs, one
access to a field of a lock and one change of an interrupt flag at a time. `holding` reads `locked` and
`cpu` one after the other while other CPUs write them. An interrupt may come between any two steps when
the flag is set, and its handler may take locks and switch to another thread, which later goes on
somewhere else. The switch leaves the locks with the CPU.

The callers acquire only locks that their CPU does not hold, release only what it holds, and leave a
handler with no lock. Then no lock has two holders, whoever spins waits for another CPU
(`spinlock_exclusive`), no `hlt` of these functions is reached, and interrupts come only to CPUs without
a lock (`spinlock_no_panic`). The flag is the same again when a CPU has left the last lock
(`interrupts_restored`).
-/

namespace Jeos

/-- `struct spinlock` without the name. -/
structure SpinLock (ι : Type*) where
  locked : Bool
  cpu : Option ι

/-- The functions that call `holding`. -/
inductive Holder where
  | acquire
  | release
  deriving DecidableEq

/-- Where a thread is in these functions. -/
inductive Pc (L : Type*) where
  /-- in other code -/
  | idle
  /-- `acquire`, in front of `read_rflags` and of `cli` in `pushcli` -/
  | readFlags (l : L)
  | cli (l : L) (flags : Bool)
  /-- the same in the `pushcli` of `holding` -/
  | holdFlags (f : Holder) (l : L)
  | holdCli (f : Holder) (l : L) (flags : Bool)
  | readLocked (f : Holder) (l : L)
  | readCpu (f : Holder) (l : L)
  /-- the `popcli` of `holding`, which returns `r` -/
  | holdPop (f : Holder) (l : L) (r : Bool)
  | xchg (l : L)
  | setCpu (l : L)
  | clearCpu (l : L)
  | unlock (l : L)
  /-- the `popcli` of `release` -/
  | pop
  | halted
  deriving DecidableEq

/-- A CPU and the thread on it, with the places where the thread has been interrupted. `held` are the
locks whose `xchg` has succeeded here and that have not been unlocked. -/
structure SpinCpu (L T : Type*) where
  irq : IrqCpu
  pc : Pc L
  saved : List (Pc L)
  thread : T
  held : List L

structure SpinState (ι L T : Type*) where
  lock : L → SpinLock ι
  cpus : ι → SpinCpu L T
  parked : T → Option (List (Pc L))

inductive SpinEvent (ι L T : Type*) where
  | acquire (c : ι) (l : L)
  | release (c : ι) (l : L)
  /-- the next step of `acquire` or `release` -/
  | next (c : ι)
  | interrupt (c : ι)
  | iret (c : ι)
  /-- `sti` or `cli` in other code, `syscall` or `sysret` -/
  | setFlag (c : ι) (b : Bool)
  /-- `swtch` to a thread that has called `swtch`, or is new -/
  | swtch (c : ι) (t : T)

/-- `pushcli` from its `cli` on. -/
def IrqCpu.cli (x : IrqCpu) (flags : Bool) : IrqCpu where
  ncli := x.ncli + 1
  intena := if x.ncli = 0 then flags else x.intena
  interrupts := false

/-- What comes after `holding`. -/
def Holder.after {L : Type*} (l : L) : Holder → Bool → Pc L
  | .acquire, true => .halted
  | .acquire, false => .xchg l
  | .release, true => .clearCpu l
  | .release, false => .halted

namespace SpinState

variable {ι L T : Type*} [DecidableEq ι] [DecidableEq L] [DecidableEq T] (s : SpinState ι L T)

def setCpu (c : ι) (x : SpinCpu L T) : SpinState ι L T :=
  { s with cpus := Function.update s.cpus c x }

def setLock (l : L) (k : SpinLock ι) : SpinState ι L T :=
  { s with lock := Function.update s.lock l k }

/-- A `popcli`, and the place behind it. -/
def popcli (c : ι) (pc : Pc L) : SpinState ι L T :=
  let x := s.cpus c
  match x.irq.popcli with
  | none => s.setCpu c { x with pc := .halted }
  | some irq => s.setCpu c { x with irq := irq, pc := pc }

/-- One step of `acquire` or `release`. -/
def next (c : ι) : Option (SpinState ι L T) :=
  let x := s.cpus c
  match x.pc with
  | .idle => none
  | .readFlags l => some (s.setCpu c { x with pc := .cli l x.irq.interrupts })
  | .cli l flags => some (s.setCpu c { x with irq := x.irq.cli flags, pc := .holdFlags .acquire l })
  | .holdFlags f l => some (s.setCpu c { x with pc := .holdCli f l x.irq.interrupts })
  | .holdCli f l flags => some (s.setCpu c { x with irq := x.irq.cli flags, pc := .readLocked f l })
  | .readLocked f l =>
    some (s.setCpu c { x with pc := if (s.lock l).locked then .readCpu f l else .holdPop f l false })
  | .readCpu f l => some (s.setCpu c { x with pc := .holdPop f l ((s.lock l).cpu = some c) })
  | .holdPop f l r => some (s.popcli c (f.after l r))
  | .xchg l =>
    if (s.lock l).locked then some s
    else some ((s.setLock l { s.lock l with locked := true }).setCpu c
      { x with pc := .setCpu l, held := l :: x.held })
  | .setCpu l => some ((s.setLock l { s.lock l with cpu := some c }).setCpu c { x with pc := .idle })
  | .clearCpu l => some ((s.setLock l { s.lock l with cpu := none }).setCpu c { x with pc := .unlock l })
  | .unlock l =>
    some ((s.setLock l { s.lock l with locked := false }).setCpu c
      { x with pc := .pop, held := x.held.erase l })
  | .pop => some (s.popcli c .idle)
  | .halted => none

def step : SpinEvent ι L T → Option (SpinState ι L T)
  | .acquire c l =>
    let x := s.cpus c
    -- `ncli` is a byte, and two levels are added to one for each lock.
    if x.pc = .idle ∧ l ∉ x.held ∧ x.held.length < 254 then
      some (s.setCpu c { x with pc := .readFlags l })
    else none
  | .release c l =>
    let x := s.cpus c
    if x.pc = .idle ∧ l ∈ x.held then some (s.setCpu c { x with pc := .holdFlags .release l })
    else none
  | .next c => s.next c
  | .interrupt c =>
    let x := s.cpus c
    if x.irq.interrupts then
      some (s.setCpu c
        { x with irq := { x.irq with interrupts := false }, pc := .idle, saved := x.pc :: x.saved })
    else none
  | .iret c =>
    let x := s.cpus c
    match x.saved with
    | [] => none
    | pc :: saved =>
      if x.pc = .idle ∧ x.held = [] then
        some (s.setCpu c
          { x with irq := { x.irq with interrupts := true }, pc := pc, saved := saved })
      else none
  | .setFlag c b =>
    let x := s.cpus c
    if x.pc = .idle ∧ x.held = [] then
      some (s.setCpu c { x with irq := { x.irq with interrupts := b } })
    else none
  | .swtch c t =>
    let x := s.cpus c
    match s.parked t with
    | none => none
    | some saved =>
      if x.pc = .idle then
        some { (s.setCpu c { x with thread := t, saved := saved }) with
          parked := Function.update (Function.update s.parked t none) x.thread (some x.saved) }
      else none

/-- All locks are free and all threads but those on the CPUs are new. -/
def init (thread : ι → T) (flag : ι → Bool) (new : T → Bool) : SpinState ι L T where
  lock _ := ⟨false, none⟩
  cpus c := ⟨⟨0, false, flag c⟩, .idle, [], thread c, []⟩
  parked t := if new t then some [] else none

end SpinState

/-! ## The invariant -/

section Invariant

variable {ι L T : Type*}

/-- What `f` has checked when it calls `holding`, or its caller has. -/
def Holder.Ok (held : List L) (l : L) : Holder → Prop
  | .acquire => l ∉ held ∧ held.length < 254
  | .release => l ∈ held

/-- The levels that `f` has pushed when it calls `holding`. -/
def Holder.depth : Holder → ℕ
  | .acquire => 1
  | .release => 0

namespace Pc

/-- The levels of `pushcli` beside one for each lock. -/
def depth : Pc L → ℕ
  | .idle | .readFlags _ | .cli _ _ => 0
  | .holdFlags f _ | .holdCli f _ _ => f.depth
  | .readLocked f _ | .readCpu f _ | .holdPop f _ _ => f.depth + 1
  | .xchg _ | .pop => 1
  | .setCpu _ | .clearCpu _ | .unlock _ | .halted => 0

/-- The place fits the locks of the CPU and its flag. -/
def Ok (held : List L) (interrupts : Bool) : Pc L → Prop
  | .idle | .pop => True
  | .readFlags l | .xchg l => l ∉ held ∧ held.length < 254
  | .cli l flags => (l ∉ held ∧ held.length < 254) ∧ flags = interrupts
  | .holdFlags f l | .holdCli f l _ | .readLocked f l | .readCpu f l => f.Ok held l
  | .holdPop f l r => f.Ok held l ∧ (r = true ↔ l ∈ held)
  | .setCpu l | .clearCpu l | .unlock l => l ∈ held
  | .halted => False

/-- A place where a thread can be interrupted. -/
def Open : Pc L → Prop
  | .idle | .readFlags _ => True
  | .cli _ flags => flags = true
  | _ => False

/-- The lock is taken, but `cpu` is not set. -/
def Busy (l : L) (pc : Pc L) : Prop := pc = .setCpu l ∨ pc = .unlock l

theorem Open.not_busy {pc : Pc L} {l : L} (h : pc.Open) : ¬pc.Busy l := by
  rintro (rfl | rfl) <;> exact h

end Pc

structure SpinCpu.Ok (x : SpinCpu L T) : Prop where
  depth : x.irq.ncli.toNat = x.held.length + x.pc.depth
  off : x.irq.ncli ≠ 0 → x.irq.interrupts = false
  pc : x.pc.Ok x.held x.irq.interrupts
  small : x.held.length ≤ 254
  nodup : x.held.Nodup
  saved : ∀ p ∈ x.saved, p.Open

/-- A lock is taken if and only if some CPU holds it, and names that CPU up to the ends. -/
structure SpinState.LockOk (s : SpinState ι L T) (l : L) : Prop where
  locked : (s.lock l).locked = true ↔ ∃ c, l ∈ (s.cpus c).held
  owner : ∀ c, (s.lock l).cpu = some c ↔ l ∈ (s.cpus c).held ∧ ¬(s.cpus c).pc.Busy l
  unique : ∀ c c', l ∈ (s.cpus c).held → l ∈ (s.cpus c').held → c = c'

structure SpinState.Ok (s : SpinState ι L T) : Prop where
  cpu : ∀ c, (s.cpus c).Ok
  lock : ∀ l, s.LockOk l
  parked : ∀ t saved, s.parked t = some saved → ∀ p ∈ saved, p.Open

end Invariant

/-! ## The flag of a CPU -/

namespace IrqCpu

variable {x : IrqCpu}

/-- `pushcli` without an interrupt in it. -/
theorem cli_interrupts (x : IrqCpu) : x.cli x.interrupts = x.pushcli := rfl

theorem popcli_eq (hoff : x.interrupts = false) (hn : x.ncli ≠ 0) :
    x.popcli = some { x with
      ncli := x.ncli - 1
      interrupts := x.ncli - 1 = 0 && x.intena } := by
  rw [popcli, if_neg (by simp [hoff]), if_neg hn]

theorem cli_toNat (flags : Bool) (hn : x.ncli.toNat < 255) :
    (x.cli flags).ncli.toNat = x.ncli.toNat + 1 := by
  change (x.ncli + 1).toNat = _
  rw [BitVec.toNat_add]
  exact Nat.mod_eq_of_lt (by simpa using Nat.succ_lt_succ hn)

theorem cli_ne_zero (flags : Bool) (hn : x.ncli.toNat < 255) : (x.cli flags).ncli ≠ 0 := fun h =>
  Nat.succ_ne_zero _ ((cli_toNat flags hn).symm.trans (congrArg BitVec.toNat h))

theorem pred_toNat {n : BitVec 8} (hn : n ≠ 0) : (n - 1).toNat = n.toNat - 1 :=
  BitVec.toNat_sub_of_le (BitVec.le_def.2 (Nat.one_le_iff_ne_zero.2 fun h =>
    hn (BitVec.eq_of_toNat_eq h)))

end IrqCpu

namespace SpinCpu

variable {L T : Type*} {x : SpinCpu L T} {pc : Pc L}

/-- A CPU that interrupts can come to holds no lock. -/
theorem Ok.ncli_eq_zero (h : x.Ok) (hi : x.irq.interrupts = true) : x.irq.ncli = 0 := by
  by_contra hn
  exact Bool.false_ne_true ((h.off hn).symm.trans hi)

theorem Ok.held_eq_nil (h : x.Ok) (hn : x.irq.ncli = 0) : x.held = [] := by
  have := h.depth
  rw [hn] at this
  exact List.eq_nil_of_length_eq_zero (by simp at this; omega)

/-- An interrupt finds the thread at an open place. -/
theorem Ok.pc_open (h : x.Ok) (hi : x.irq.interrupts = true) : x.pc.Open := by
  have hn := h.ncli_eq_zero hi
  have hnil := h.held_eq_nil hn
  have hd : x.pc.depth = 0 := by
    have := h.depth
    rw [hn] at this
    simp at this
    omega
  have hpc := h.pc
  rw [hnil, hi] at hpc
  revert hd hpc
  cases x.pc with
  | idle => exact fun _ _ => trivial
  | readFlags l => exact fun _ _ => trivial
  | cli l flags => exact fun _ hpc => hpc.2
  | holdFlags f l => cases f <;> simp [Pc.depth, Holder.depth, Pc.Ok, Holder.Ok]
  | holdCli f l flags => cases f <;> simp [Pc.depth, Holder.depth, Pc.Ok, Holder.Ok]
  | readLocked f l => simp [Pc.depth]
  | readCpu f l => simp [Pc.depth]
  | holdPop f l r => simp [Pc.depth]
  | xchg l => simp [Pc.depth]
  | setCpu l => simp [Pc.Ok]
  | clearCpu l => simp [Pc.Ok]
  | unlock l => simp [Pc.Ok]
  | pop => simp [Pc.depth]
  | halted => simp [Pc.Ok]

/-- The thread goes on at an open place. -/
theorem Ok.of_open (h : x.Ok) (hn : x.irq.ncli = 0) (hpc : pc.Open) {b : Bool} (hb : b = true)
    {saved : List (Pc L)} (hs : ∀ p ∈ saved, p.Open) :
    Ok { x with irq := { x.irq with interrupts := b }, pc := pc, saved := saved } := by
  have hnil := h.held_eq_nil hn
  refine ⟨?_, fun hne => absurd hn hne, ?_, h.small, h.nodup, hs⟩
  · change x.irq.ncli.toNat = x.held.length + pc.depth
    rw [hn, hnil]
    cases pc <;> first | rfl | exact hpc.elim
  · change pc.Ok x.held b
    rw [hnil, hb]
    cases pc with
    | idle => trivial
    | readFlags l => exact ⟨List.not_mem_nil, by simp⟩
    | cli l flags => exact ⟨⟨List.not_mem_nil, by simp⟩, hpc⟩
    | _ => exact hpc.elim

/-- A step inside these functions before which the flag is off. -/
theorem Ok.moved (h : x.Ok) (hd : pc.depth = x.pc.depth) (hpc : pc.Ok x.held x.irq.interrupts) :
    Ok { x with pc := pc } :=
  ⟨h.depth.trans (congrArg _ hd.symm), h.off, hpc, h.small, h.nodup, h.saved⟩

/-- The rest of `pushcli`, with a place left for one lock. -/
theorem Ok.cli (h : x.Ok) (flags : Bool) (hd : pc.depth = x.pc.depth + 1)
    (hn : x.held.length + x.pc.depth < 255) (hpc : pc.Ok x.held false) :
    Ok { x with irq := x.irq.cli flags, pc := pc } := by
  refine ⟨?_, fun _ => rfl, hpc, h.small, h.nodup, h.saved⟩
  change (x.irq.cli flags).ncli.toNat = x.held.length + pc.depth
  rw [IrqCpu.cli_toNat flags (h.depth ▸ hn), h.depth, hd, Nat.add_assoc]

/-- `popcli` with a level to take. -/
theorem Ok.popcli (h : x.Ok) (hd : x.pc.depth = pc.depth + 1) (hpc : ∀ b, pc.Ok x.held b) :
    ∃ irq, x.irq.popcli = some irq ∧ irq.ncli.toNat + 1 = x.irq.ncli.toNat ∧
      Ok { x with irq := irq, pc := pc } := by
  have hpos : x.irq.ncli.toNat = x.held.length + pc.depth + 1 := by
    rw [h.depth, hd, Nat.add_assoc]
  have hn : x.irq.ncli ≠ 0 := fun h0 => by simp [h0] at hpos
  have hlast : (x.irq.ncli - 1).toNat = x.held.length + pc.depth := by
    rw [IrqCpu.pred_toNat hn, hpos, Nat.add_sub_cancel]
  refine ⟨_, IrqCpu.popcli_eq (h.off hn) hn, ?_, hlast, ?_, hpc _, h.small, h.nodup, h.saved⟩
  · change (x.irq.ncli - 1).toNat + 1 = _
    rw [hlast, hpos]
  · intro hne
    change (decide (x.irq.ncli - 1 = 0) && x.irq.intena) = false
    rw [decide_eq_false hne, Bool.false_and]

end SpinCpu

/-- `holding` has told the truth, so its callers do not halt. -/
theorem Holder.after_ok {L : Type*} {f : Holder} {held : List L} {l : L} {r : Bool}
    (h : (Pc.holdPop f l r).Ok held false) :
    (f.after l r).depth = f.depth ∧ (∀ b, (f.after l r).Ok held b) ∧
      ∀ l', ¬(f.after l r).Busy l' := by
  obtain ⟨hf, hr⟩ := h
  cases f <;> cases r
  · exact ⟨rfl, fun _ => hf, by simp [Holder.after, Pc.Busy]⟩
  · exact absurd (hr.1 rfl) hf.1
  · exact absurd (hr.2 hf) Bool.false_ne_true
  · exact ⟨rfl, fun _ => hf, by simp [Holder.after, Pc.Busy]⟩

/-! ## Locks -/

namespace SpinState

set_option linter.unusedSectionVars false

variable {ι L T : Type*} [DecidableEq ι] [DecidableEq L] {s s' : SpinState ι L T} {c : ι} {l : L}
  {x : SpinCpu L T}

@[simp] theorem setCpu_lock (c : ι) (x : SpinCpu L T) : (s.setCpu c x).lock = s.lock := rfl

@[simp] theorem setCpu_cpus (c : ι) (x : SpinCpu L T) :
    (s.setCpu c x).cpus = Function.update s.cpus c x := rfl

@[simp] theorem setLock_cpus (l : L) (k : SpinLock ι) : (s.setLock l k).cpus = s.cpus := rfl

@[simp] theorem setLock_lock_self (l : L) (k : SpinLock ι) : (s.setLock l k).lock l = k :=
  Function.update_self ..

theorem setLock_lock_of_ne {l' : L} (h : l' ≠ l) (k : SpinLock ι) :
    (s.setLock l k).lock l' = s.lock l' :=
  Function.update_of_ne h ..

/-- What the state of a lock depends on. -/
theorem LockOk.congr (h : s.LockOk l) (hl : s'.lock l = s.lock l)
    (hheld : ∀ c, l ∈ (s'.cpus c).held ↔ l ∈ (s.cpus c).held)
    (hbusy : ∀ c, (s'.cpus c).pc.Busy l ↔ (s.cpus c).pc.Busy l) : s'.LockOk l where
  locked := by simpa only [hl, hheld] using h.locked
  owner c := by simpa only [hl, hheld, hbusy] using h.owner c
  unique c c' hc hc' := h.unique c c' ((hheld c).1 hc) ((hheld c').1 hc')

/-- A CPU goes on, and leaves the lock as it is. -/
theorem LockOk.setCpu (h : s.LockOk l) (hheld : l ∈ x.held ↔ l ∈ (s.cpus c).held)
    (hbusy : x.pc.Busy l ↔ (s.cpus c).pc.Busy l) : (s.setCpu c x).LockOk l := by
  refine h.congr rfl (fun c' => ?_) fun c' => ?_ <;> rw [setCpu_cpus]
  · by_cases hc : c' = c
    · rw [hc, Function.update_self, hheld]
    · rw [Function.update_of_ne hc]
  · by_cases hc : c' = c
    · rw [hc, Function.update_self, hbusy]
    · rw [Function.update_of_ne hc]

/-- A CPU goes on, and leaves all locks as they are. -/
theorem Ok.setCpu (h : s.Ok) (hx : x.Ok) (hheld : x.held = (s.cpus c).held)
    (hbusy : ∀ l, x.pc.Busy l ↔ (s.cpus c).pc.Busy l) : (s.setCpu c x).Ok where
  cpu c' := by
    rw [setCpu_cpus]
    by_cases hc : c' = c
    · rwa [hc, Function.update_self]
    · rw [Function.update_of_ne hc]
      exact h.cpu c'
  lock l := (h.lock l).setCpu (by rw [hheld]) (hbusy l)
  parked := h.parked

/-- A CPU goes on and changes one lock. -/
theorem Ok.setLock (h : s.Ok) {k : SpinLock ι} (hx : x.Ok)
    (hl : ((s.setLock l k).setCpu c x).LockOk l)
    (hheld : ∀ l' ≠ l, (l' ∈ x.held ↔ l' ∈ (s.cpus c).held))
    (hbusy : ∀ l' ≠ l, (x.pc.Busy l' ↔ (s.cpus c).pc.Busy l')) :
    ((s.setLock l k).setCpu c x).Ok where
  cpu c' := by
    rw [setCpu_cpus]
    by_cases hc : c' = c
    · rwa [hc, Function.update_self]
    · rw [Function.update_of_ne hc]
      exact h.cpu c'
  lock l' := by
    by_cases hne : l' = l
    · rwa [hne]
    · exact LockOk.setCpu ((h.lock l').congr (setLock_lock_of_ne hne k) (fun _ => Iff.rfl)
        fun _ => Iff.rfl) (hheld l' hne) (hbusy l' hne)
  parked := h.parked

/-- The CPU `c` has the lock alone. -/
theorem LockOk.of_holder {k : SpinLock ι} (h : ∀ c' ≠ c, l ∉ (s.cpus c').held) (hx : l ∈ x.held)
    (hk : k.locked = true) (hcpu : ∀ c', k.cpu = some c' ↔ c' = c ∧ ¬x.pc.Busy l) :
    ((s.setLock l k).setCpu c x).LockOk l := by
  have hheld : ∀ c', l ∈ (((s.setLock l k).setCpu c x).cpus c').held ↔ c' = c := by
    intro c'
    rw [setCpu_cpus]
    by_cases hc : c' = c
    · rw [hc, Function.update_self]
      exact iff_of_true hx rfl
    · rw [Function.update_of_ne hc]
      exact iff_of_false (h c' hc) hc
  refine ⟨?_, fun c' => ?_, fun c₁ c₂ h₁ h₂ => ((hheld c₁).1 h₁).trans ((hheld c₂).1 h₂).symm⟩
  · rw [setCpu_lock, setLock_lock_self]
    exact iff_of_true hk ⟨c, (hheld c).2 rfl⟩
  · rw [setCpu_lock, setLock_lock_self, hcpu, hheld]
    refine and_congr_right ?_
    rintro rfl
    rw [setCpu_cpus, Function.update_self]

/-- No CPU has the lock. -/
theorem LockOk.of_free {k : SpinLock ι} (h : ∀ c' ≠ c, l ∉ (s.cpus c').held) (hx : l ∉ x.held)
    (hk : k = ⟨false, none⟩) : ((s.setLock l k).setCpu c x).LockOk l := by
  have hheld : ∀ c', l ∉ (((s.setLock l k).setCpu c x).cpus c').held := by
    intro c'
    rw [setCpu_cpus]
    by_cases hc : c' = c
    · rwa [hc, Function.update_self]
    · rw [Function.update_of_ne hc]
      exact h c' hc
  subst hk
  refine ⟨?_, fun c' => ?_, fun c₁ _ h₁ => absurd h₁ (hheld c₁)⟩
  · rw [setCpu_lock, setLock_lock_self]
    exact iff_of_false Bool.false_ne_true fun hc' => hheld _ hc'.choose_spec
  · rw [setCpu_lock, setLock_lock_self]
    exact iff_of_false (Option.some_ne_none c').symm fun hc' => hheld c' hc'.1

/-! ## Steps -/

theorem Ok.popcli (h : s.Ok) {pc : Pc L} (hd : (s.cpus c).pc.depth = pc.depth + 1)
    (hpc : ∀ b, pc.Ok (s.cpus c).held b) (hbusy : ∀ l, pc.Busy l ↔ (s.cpus c).pc.Busy l) :
    (s.popcli c pc).Ok := by
  obtain ⟨irq, hirq, -, hx⟩ := (h.cpu c).popcli hd hpc
  rw [SpinState.popcli, hirq]
  exact h.setCpu hx rfl hbusy

/-- One step of `acquire` or `release` keeps the invariant. -/
theorem Ok.next (h : s.Ok) (hs : s.next c = some s') : s'.Ok := by
  have hx := h.cpu c
  have hpc := hx.pc
  rw [SpinState.next] at hs
  cases he : (s.cpus c).pc <;> rw [he] at hpc <;> simp only [he] at hs
  case idle => cases hs
  case readFlags l =>
    obtain rfl := Option.some.inj hs
    exact h.setCpu (hx.moved (by rw [he]; rfl) ⟨hpc, rfl⟩) rfl (by simp [he, Pc.Busy])
  case cli l flags =>
    obtain rfl := Option.some.inj hs
    refine h.setCpu (hx.cli flags (by rw [he]; rfl) ?_ hpc.1) rfl (by simp [he, Pc.Busy])
    rw [he]
    exact Nat.lt_succ_of_lt hpc.1.2
  case holdFlags f l =>
    obtain rfl := Option.some.inj hs
    exact h.setCpu (hx.moved (by rw [he]; rfl) hpc) rfl (by simp [he, Pc.Busy])
  case holdCli f l flags =>
    obtain rfl := Option.some.inj hs
    refine h.setCpu (hx.cli flags (by rw [he]; rfl) ?_ hpc) rfl (by simp [he, Pc.Busy])
    rw [he]
    cases f with
    | acquire => exact Nat.succ_lt_succ hpc.2
    | release => exact Nat.lt_succ_of_le hx.small
  case readLocked f l =>
    obtain rfl := Option.some.inj hs
    refine h.setCpu (hx.moved ?_ ?_) rfl fun l' => ?_
    · rw [he]
      split <;> rfl
    · split
      · exact hpc
      · rename_i hlocked
        refine ⟨hpc, iff_of_false Bool.false_ne_true fun hl => hlocked ?_⟩
        exact (h.lock l).locked.2 ⟨c, hl⟩
    · rw [he]
      split <;> simp [Pc.Busy]
  case readCpu f l =>
    obtain rfl := Option.some.inj hs
    refine h.setCpu (hx.moved (by rw [he]; rfl) ⟨hpc, ?_⟩) rfl (by simp [he, Pc.Busy])
    rw [decide_eq_true_iff, (h.lock l).owner c, and_iff_left]
    simp [he, Pc.Busy]
  case holdPop f l r =>
    obtain rfl := Option.some.inj hs
    obtain ⟨hd, hok, hbusy⟩ := Holder.after_ok hpc
    exact h.popcli (by rw [he, hd]; rfl) hok fun l' => iff_of_false (hbusy l') (by simp [he, Pc.Busy])
  case xchg l =>
    by_cases hlocked : (s.lock l).locked
    · rw [if_pos hlocked] at hs
      exact Option.some.inj hs ▸ h
    · rw [if_neg hlocked] at hs
      obtain rfl := Option.some.inj hs
      have hfree : ∀ c', l ∉ (s.cpus c').held := fun c' hl =>
        hlocked ((h.lock l).locked.2 ⟨c', hl⟩)
      refine h.setLock ⟨?_, hx.off, List.mem_cons_self, hpc.2, ?_, hx.saved⟩ ?_ ?_ ?_
      · refine hx.depth.trans ?_
        rw [he]
        rfl
      · exact List.nodup_cons.2 ⟨hpc.1, hx.nodup⟩
      · refine LockOk.of_holder (fun c' _ => hfree c') List.mem_cons_self rfl fun c' => ?_
        refine iff_of_false (fun hcpu => hfree c' ((h.lock l).owner c' |>.1 hcpu).1) ?_
        exact fun hc => hc.2 (.inl rfl)
      · intro l' hne
        exact List.mem_cons.trans (or_iff_right hne)
      · intro l' hne
        rw [he]
        simpa [Pc.Busy] using Ne.symm hne
  case setCpu l =>
    obtain rfl := Option.some.inj hs
    have hothers : ∀ c' ≠ c, l ∉ (s.cpus c').held := fun c' hne hl =>
      hne ((h.lock l).unique c' c hl hpc)
    refine h.setLock (hx.moved (by rw [he]; rfl) trivial) ?_ (fun _ _ => Iff.rfl) ?_
    · refine LockOk.of_holder hothers hpc ((h.lock l).locked.2 ⟨c, hpc⟩) fun c' => ?_
      simp [Pc.Busy, eq_comm]
    · intro l' hne
      rw [he]
      simpa [Pc.Busy] using Ne.symm hne
  case clearCpu l =>
    obtain rfl := Option.some.inj hs
    have hothers : ∀ c' ≠ c, l ∉ (s.cpus c').held := fun c' hne hl =>
      hne ((h.lock l).unique c' c hl hpc)
    refine h.setLock (hx.moved (by rw [he]; rfl) hpc) ?_ (fun _ _ => Iff.rfl) ?_
    · refine LockOk.of_holder hothers hpc ((h.lock l).locked.2 ⟨c, hpc⟩) fun c' => ?_
      simp [Pc.Busy]
    · intro l' hne
      rw [he]
      simpa [Pc.Busy] using Ne.symm hne
  case unlock l =>
    obtain rfl := Option.some.inj hs
    have hothers : ∀ c' ≠ c, l ∉ (s.cpus c').held := fun c' hne hl =>
      hne ((h.lock l).unique c' c hl hpc)
    have hcpu : (s.lock l).cpu = none := by
      refine Option.eq_none_iff_forall_ne_some.2 fun c' hc' => ?_
      obtain ⟨hl, hbusy⟩ := (h.lock l).owner c' |>.1 hc'
      obtain rfl := (h.lock l).unique c' c hl hpc
      exact hbusy (.inr he)
    refine h.setLock ⟨?_, hx.off, trivial, ?_, hx.nodup.erase l, hx.saved⟩ ?_ ?_ ?_
    · have hlen := List.length_erase_of_mem hpc
      have hpos := List.length_pos_of_mem hpc
      refine hx.depth.trans ?_
      rw [he]
      change (s.cpus c).held.length + 0 = ((s.cpus c).held.erase l).length + 1
      omega
    · exact (List.length_erase_le).trans hx.small
    · exact LockOk.of_free hothers (hx.nodup.not_mem_erase) (by rw [hcpu])
    · intro l' hne
      exact List.mem_erase_of_ne hne
    · intro l' hne
      rw [he]
      simpa [Pc.Busy] using Ne.symm hne
  case pop =>
    obtain rfl := Option.some.inj hs
    exact h.popcli (by rw [he]; rfl) (fun _ => trivial) (by simp [he, Pc.Busy])
  case halted => cases hs

variable [DecidableEq T] {e : SpinEvent ι L T} {es fs : List (SpinEvent ι L T)}

theorem ok_init (thread : ι → T) (flag : ι → Bool) (new : T → Bool) :
    (init thread flag new : SpinState ι L T).Ok where
  cpu _ := ⟨rfl, fun h => absurd rfl h, trivial, Nat.zero_le _, List.nodup_nil,
    fun _ h => absurd h List.not_mem_nil⟩
  lock _ := ⟨iff_of_false Bool.false_ne_true fun h => List.not_mem_nil h.choose_spec,
    fun c => iff_of_false (Option.some_ne_none c).symm fun h => List.not_mem_nil h.1,
    fun _ _ h => absurd h List.not_mem_nil⟩
  parked t saved h := by
    change (if new t then some [] else none) = some saved at h
    split at h
    · obtain rfl := Option.some.inj h
      exact fun p hp => absurd hp List.not_mem_nil
    · cases h

/-- A CPU outside these functions and without a lock has no level pushed. -/
theorem Ok.ncli_eq_zero (h : s.Ok) (hc : (s.cpus c).pc = .idle) (hl : (s.cpus c).held = []) :
    (s.cpus c).irq.ncli = 0 := by
  have := (h.cpu c).depth
  rw [hc, hl] at this
  exact BitVec.eq_of_toNat_eq this

/-- Every step keeps the invariant. -/
theorem Ok.step (h : s.Ok) (hs : s.step e = some s') : s'.Ok := by
  cases e with
  | acquire c l =>
    obtain ⟨⟨hc, hl, hn⟩, hs⟩ := Option.ite_none_right_eq_some.1 hs
    obtain rfl := Option.some.inj hs
    exact h.setCpu ((h.cpu c).moved (by rw [hc]; rfl) ⟨hl, hn⟩) rfl (by simp [hc, Pc.Busy])
  | release c l =>
    obtain ⟨⟨hc, hl⟩, hs⟩ := Option.ite_none_right_eq_some.1 hs
    obtain rfl := Option.some.inj hs
    exact h.setCpu ((h.cpu c).moved (by rw [hc]; rfl) hl) rfl (by simp [hc, Pc.Busy])
  | next c => exact h.next hs
  | interrupt c =>
    obtain ⟨hi, hs⟩ := Option.ite_none_right_eq_some.1 hs
    obtain rfl := Option.some.inj hs
    have hx := h.cpu c
    have hopen := hx.pc_open hi
    refine h.setCpu ⟨?_, fun _ => rfl, trivial, hx.small, hx.nodup, ?_⟩ rfl fun l => ?_
    · change (s.cpus c).irq.ncli.toNat = (s.cpus c).held.length + 0
      rw [hx.ncli_eq_zero hi, hx.held_eq_nil (hx.ncli_eq_zero hi)]
      rfl
    · exact List.forall_mem_cons.2 ⟨hopen, hx.saved⟩
    · exact iff_of_false (by simp [Pc.Busy]) hopen.not_busy
  | iret c =>
    rw [SpinState.step] at hs
    cases hsaved : (s.cpus c).saved with
    | nil => simp only [hsaved] at hs; cases hs
    | cons pc saved =>
      simp only [hsaved] at hs
      obtain ⟨⟨hc, hl⟩, hs⟩ := Option.ite_none_right_eq_some.1 hs
      obtain rfl := Option.some.inj hs
      have hx := h.cpu c
      obtain ⟨hpc, hs'⟩ := List.forall_mem_cons.1 (hsaved ▸ hx.saved)
      refine h.setCpu (hx.of_open (h.ncli_eq_zero hc hl) hpc rfl hs') rfl fun l => ?_
      rw [hc]
      exact iff_of_false hpc.not_busy (by simp [Pc.Busy])
  | setFlag c b =>
    obtain ⟨⟨hc, hl⟩, hs⟩ := Option.ite_none_right_eq_some.1 hs
    obtain rfl := Option.some.inj hs
    have hx := h.cpu c
    refine h.setCpu ⟨hx.depth, fun hn => absurd (h.ncli_eq_zero hc hl) hn, ?_, hx.small, hx.nodup,
      hx.saved⟩ rfl fun _ => Iff.rfl
    change (s.cpus c).pc.Ok _ _
    rw [hc]
    trivial
  | swtch c t =>
    rw [SpinState.step] at hs
    cases ht : s.parked t with
    | none => simp only [ht] at hs; cases hs
    | some saved =>
      simp only [ht] at hs
      obtain ⟨hc, hs⟩ := Option.ite_none_right_eq_some.1 hs
      obtain rfl := Option.some.inj hs
      have hx := h.cpu c
      have hx' : ({ s.cpus c with thread := t, saved := saved } : SpinCpu L T).Ok :=
        ⟨hx.depth, hx.off, hx.pc, hx.small, hx.nodup, h.parked t saved ht⟩
      have hok := h.setCpu hx' rfl fun _ => Iff.rfl
      refine ⟨hok.cpu, fun l => (hok.lock l).congr rfl (fun _ => Iff.rfl) fun _ => Iff.rfl, ?_⟩
      intro t' saved' ht'
      change Function.update (Function.update s.parked t none) _ _ t' = _ at ht'
      by_cases hself : t' = (s.cpus c).thread
      · subst hself
        rw [Function.update_self] at ht'
        exact Option.some.inj ht' ▸ hx.saved
      · rw [Function.update_of_ne hself] at ht'
        by_cases hnew : t' = t
        · subst hnew
          rw [Function.update_self] at ht'
          cases ht'
        · rw [Function.update_of_ne hnew] at ht'
          exact h.parked t' saved' ht'

/-- The invariant holds at the end of every run. -/
theorem ok_of_run {thread : ι → T} {flag : ι → Bool} {new : T → Bool}
    (hr : Run.run step (init thread flag new : SpinState ι L T) es = some s) : s.Ok :=
  Run.run_invariant (fun _ _ _ h hs => h.step hs) (ok_init thread flag new) hr

/-! ## The flag over a run -/

/-- What a step can do to the flag of a CPU. -/
inductive IrqStep (x : IrqCpu) : IrqCpu → Prop
  | same : IrqStep x x
  | push {flags : Bool} (h : x.ncli = 0 → flags = x.interrupts) (hn : (x.cli flags).ncli ≠ 0) :
    IrqStep x (x.cli flags)
  | pop {y : IrqCpu} (h : x.popcli = some y) : IrqStep x y
  | flag {b : Bool} (h : x.ncli = 0) : IrqStep x { x with interrupts := b }

theorem irqStep_setCpu {c' : ι} {x : SpinCpu L T} (h : IrqStep (s.cpus c).irq x.irq) :
    IrqStep (s.cpus c').irq ((s.setCpu c x).cpus c').irq := by
  rw [setCpu_cpus]
  by_cases hc : c' = c
  · rwa [hc, Function.update_self]
  · rw [Function.update_of_ne hc]
    exact .same

theorem irqStep_popcli (c' : ι) (pc : Pc L) :
    IrqStep (s.cpus c').irq ((s.popcli c pc).cpus c').irq := by
  rw [SpinState.popcli]
  cases hirq : (s.cpus c).irq.popcli with
  | none => exact irqStep_setCpu .same
  | some y => exact irqStep_setCpu (.pop hirq)

theorem Ok.irqStep_next (h : s.Ok) (hs : s.next c = some s') (c' : ι) :
    IrqStep (s.cpus c').irq (s'.cpus c').irq := by
  have hx := h.cpu c
  have hpc := hx.pc
  rw [SpinState.next] at hs
  cases he : (s.cpus c).pc <;> rw [he] at hpc <;> simp only [he] at hs
  case cli l flags =>
    obtain rfl := Option.some.inj hs
    refine irqStep_setCpu (.push (fun _ => hpc.2) (IrqCpu.cli_ne_zero flags ?_))
    rw [hx.depth, he]
    exact Nat.lt_succ_of_lt hpc.1.2
  case holdCli f l flags =>
    obtain rfl := Option.some.inj hs
    refine irqStep_setCpu (.push (fun hn => ?_) (IrqCpu.cli_ne_zero flags ?_))
    · -- `holding` comes behind the first `pushcli`
      have hd := hx.depth
      rw [hn, he] at hd
      cases f with
      | acquire => simp [Pc.depth, Holder.depth] at hd
      | release => simp [hx.held_eq_nil hn, Pc.Ok, Holder.Ok] at hpc
    · rw [hx.depth, he]
      cases f with
      | acquire => exact Nat.succ_lt_succ hpc.2
      | release => exact Nat.lt_succ_of_le hx.small
  case holdPop f l r =>
    obtain rfl := Option.some.inj hs
    exact irqStep_popcli c' _
  case pop =>
    obtain rfl := Option.some.inj hs
    exact irqStep_popcli c' _
  case xchg l =>
    split at hs <;> obtain rfl := Option.some.inj hs
    · exact .same
    · exact irqStep_setCpu .same
  case idle | halted => cases hs
  all_goals
    obtain rfl := Option.some.inj hs
    exact irqStep_setCpu .same

theorem Ok.irqStep (h : s.Ok) (hs : s.step e = some s') (c' : ι) :
    IrqStep (s.cpus c').irq (s'.cpus c').irq := by
  cases e with
  | next c => exact h.irqStep_next hs c'
  | acquire c l | release c l =>
    obtain ⟨-, hs⟩ := Option.ite_none_right_eq_some.1 hs
    obtain rfl := Option.some.inj hs
    exact irqStep_setCpu .same
  | interrupt c =>
    obtain ⟨hi, hs⟩ := Option.ite_none_right_eq_some.1 hs
    obtain rfl := Option.some.inj hs
    exact irqStep_setCpu (.flag ((h.cpu c).ncli_eq_zero hi))
  | setFlag c b =>
    obtain ⟨⟨hc, hl⟩, hs⟩ := Option.ite_none_right_eq_some.1 hs
    obtain rfl := Option.some.inj hs
    exact irqStep_setCpu (.flag (h.ncli_eq_zero hc hl))
  | iret c =>
    rw [SpinState.step] at hs
    cases hsaved : (s.cpus c).saved with
    | nil => simp only [hsaved] at hs; cases hs
    | cons pc saved =>
      simp only [hsaved] at hs
      obtain ⟨⟨hc, hl⟩, hs⟩ := Option.ite_none_right_eq_some.1 hs
      obtain rfl := Option.some.inj hs
      exact irqStep_setCpu (.flag (h.ncli_eq_zero hc hl))
  | swtch c t =>
    rw [SpinState.step] at hs
    cases ht : s.parked t with
    | none => simp only [ht] at hs; cases hs
    | some saved =>
      simp only [ht] at hs
      obtain ⟨-, hs⟩ := Option.ite_none_right_eq_some.1 hs
      obtain rfl := Option.some.inj hs
      exact irqStep_setCpu (x := { s.cpus c with thread := t, saved := saved }) .same

variable {x y : IrqCpu}

/-- The first `pushcli` saves the flag. -/
theorem IrqStep.saved (h : IrqStep x y) (hx : x.ncli = 0) (hy : y.ncli ≠ 0) :
    y.intena = x.interrupts := by
  cases h with
  | same => exact absurd hx hy
  | push hf _ => exact (if_pos hx).trans (hf hx)
  | pop hp => exact absurd hp (by simp [IrqCpu.popcli, hx])
  | flag _ => exact absurd hx hy

/-- What has been saved stays, and the last `popcli` puts it back. -/
theorem IrqStep.kept (h : IrqStep x y) (hx : x.ncli ≠ 0) :
    y.intena = x.intena ∧ (y.ncli = 0 → y.interrupts = x.intena) := by
  cases h with
  | same => exact ⟨rfl, fun hy => absurd hy hx⟩
  | push _ hn => exact ⟨if_neg hx, fun hy => absurd hy hn⟩
  | pop hp =>
    rw [IrqCpu.popcli] at hp
    obtain ⟨-, hp⟩ := Option.ite_none_left_eq_some.1 hp
    obtain ⟨-, hp⟩ := Option.ite_none_left_eq_some.1 hp
    obtain rfl := Option.some.inj hp
    refine ⟨rfl, fun hy => ?_⟩
    change (decide (x.ncli - 1 = 0) && x.intena) = x.intena
    rw [decide_eq_true hy, Bool.true_and]
  | flag h0 => exact absurd h0 hx

/-- While levels are pushed the flag to restore stays the same. -/
theorem Ok.intena_of_run (h : s.Ok) {t : SpinState ι L T} (c : ι)
    (hr : Run.run SpinState.step s es = some t)
    (hn : ∀ n < es.length, ∀ u, Run.run SpinState.step s (es.take n) = some u →
      (u.cpus c).irq.ncli ≠ 0)
    (hne : es ≠ []) (ht : (t.cpus c).irq.ncli = 0) :
    (t.cpus c).irq.interrupts = (s.cpus c).irq.intena := by
  induction es generalizing s with
  | nil => exact absurd rfl hne
  | cons e es ih =>
    obtain ⟨u, hu, hr'⟩ := Option.bind_eq_some_iff.1 hr
    have hkept := (h.irqStep hu c).kept (hn 0 (Nat.succ_pos _) s rfl)
    by_cases hes : es = []
    · subst hes
      obtain rfl := Option.some.inj hr'
      exact hkept.2 ht
    · refine (ih (h.step hu) hr' (fun n hlt v hv => ?_) hes).trans hkept.1
      refine hn (n + 1) (Nat.succ_lt_succ hlt) v ?_
      rw [List.take_succ_cons, Run.run_cons, hu]
      exact hv

end SpinState

/-! ## Every run -/

section Runs

variable {ι L T : Type*} [DecidableEq ι] [DecidableEq L] [DecidableEq T] {thread : ι → T}
  {flag : ι → Bool} {new : T → Bool} {es fs : List (SpinEvent ι L T)} {s t : SpinState ι L T}

/-- Two CPUs never hold the same lock, `locked` is set as long as one does, and a CPU that spins waits
for another one. -/
theorem spinlock_exclusive
    (hr : Run.run SpinState.step (SpinState.init thread flag new) es = some s) (l : L) :
    (∀ c c', l ∈ (s.cpus c).held → l ∈ (s.cpus c').held → c = c') ∧
      ((s.lock l).locked = true ↔ ∃ c, l ∈ (s.cpus c).held) ∧
      ∀ c, (s.cpus c).pc = .xchg l → (s.lock l).locked = true →
        ∃ c' ≠ c, l ∈ (s.cpus c').held := by
  have h := SpinState.ok_of_run hr
  refine ⟨(h.lock l).unique, (h.lock l).locked, fun c hc hl => ?_⟩
  obtain ⟨c', hc'⟩ := (h.lock l).locked.1 hl
  refine ⟨c', ?_, hc'⟩
  rintro rfl
  exact (hc ▸ (h.cpu c').pc : (Pc.xchg l).Ok _ _).1 hc'

theorem spinlock_exclusive_two :
    ∃ s : SpinState (Fin 2) Unit (Fin 2),
      Run.run SpinState.step (SpinState.init id (fun _ => true) fun _ => false)
          (.acquire 0 () :: List.replicate 7 (.next 0) ++ .interrupt 1 :: .acquire 1 () ::
            List.replicate 8 (.next 1)) = some s ∧
        (s.cpus 1).pc = .xchg () ∧ ∃ c' ≠ 1, () ∈ (s.cpus c').held :=
  Exists.imp
    (fun s hr => ⟨hr, by cases hr; rfl,
      (spinlock_exclusive hr ()).2.2 1 (by cases hr; rfl) (by cases hr; rfl)⟩)
    ⟨_, rfl⟩

/-- When the last level of a CPU has been taken its flag is the one from before the first, whatever
other CPUs, interrupts and `swtch` have done meanwhile. -/
theorem interrupts_restored (c : ι)
    (hr : Run.run SpinState.step (SpinState.init thread flag new) es = some s)
    (hs : (s.cpus c).irq.ncli = 0) (ht : Run.run SpinState.step s fs = some t)
    (htn : (t.cpus c).irq.ncli = 0) (hlen : 1 < fs.length)
    (hpushed : ∀ n, 0 < n → n < fs.length → ∀ u, Run.run SpinState.step s (fs.take n) = some u →
      (u.cpus c).irq.ncli ≠ 0) :
    (t.cpus c).irq.interrupts = (s.cpus c).irq.interrupts := by
  have h := SpinState.ok_of_run hr
  cases fs with
  | nil => simp at hlen
  | cons e fs =>
    obtain ⟨u, hu, hr'⟩ := Option.bind_eq_some_iff.1 ht
    have hstep : ∀ n v, Run.run SpinState.step u (fs.take n) = some v →
        Run.run SpinState.step s ((e :: fs).take (n + 1)) = some v := fun n v hv => by
      rw [List.take_succ_cons, Run.run_cons, hu]
      exact hv
    have hun := hpushed 1 one_pos hlen u (hstep 0 u rfl)
    have hintena := (h.step hu).intena_of_run c hr'
      (fun n hlt v hv => hpushed (n + 1) (Nat.succ_pos n) (Nat.succ_lt_succ hlt) v (hstep n v hv))
      (by rintro rfl; simp at hlen) htn
    exact hintena.trans ((h.irqStep hu c).saved hs hun)

theorem interrupts_restored_two :
    ∃ s : SpinState (Fin 2) Unit (Fin 2),
      Run.run SpinState.step (SpinState.init id (fun _ => true) fun _ => false)
          [.acquire 0 (), .next 0] = some s ∧
        ∃ t, Run.run SpinState.step s (List.replicate 7 (.next 0) ++ .release 0 () ::
            List.replicate 8 (.next 0)) = some t ∧
          (t.cpus 0).irq.interrupts = (s.cpus 0).irq.interrupts := by
  refine ⟨_, rfl, _, rfl, ?_⟩
  refine @interrupts_restored _ _ _ _ _ _ id (fun _ => true) (fun _ => false)
    [.acquire 0 (), .next 0]
    (List.replicate 7 (.next 0) ++ .release 0 () :: List.replicate 8 (.next 0)) _ _ 0
    rfl (by decide) rfl (by decide) (by simp) ?_
  intro n hpos hlt u hu
  simp at hlt
  interval_cases n <;> cases hu <;> decide

end Runs
end Jeos
