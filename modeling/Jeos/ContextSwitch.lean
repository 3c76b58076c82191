import Jeos.ForkFrame
import Jeos.Lib.Preemption

/-!
# Interrupts and context switches in the kernel

An interrupt in kernel code pushes the trap frame on the stack in use (`isr_common` of `idt.c`), and its
handler may call `yield`. The `swtch` there leaves the registers that a function keeps on the stack, and
its address in `p->context`. When a scheduler, maybe on another CPU, calls `swtch` with that address,
`yield` goes on with its stack and these registers : a context switch is a call that returns
(`swtch_returns`).

So every register and the stack in use are as before when the interrupted code goes on
(`Preempted.resumed`).
-/

namespace Jeos

open ByteMemory Machine

/-- `isr_common`, up to the call of `exception_handler`. -/
def isrCommon : List Instr :=
  [.testMem 3 .rsp 24,
    .jz 1,
    .swapgs,
    .push .rax,
    .push .rbx,
    .push .rcx,
    .push .rdx,
    .push .rsi,
    .push .rdi,
    .push .rbp,
    .push .r8,
    .push .r9,
    .push .r10,
    .push .r11,
    .push .r12,
    .push .r13,
    .push .r14,
    .push .r15,
    .mov .rdi .rsp]

/-- What the processor and the stub push on the aligned stack. -/
structure Interrupt where
  num : U64
  err : U64
  rip : U64
  cs : U64
  rflags : U64
  ss : U64

/-- The words that are pushed, the last one first. -/
def Interrupt.words (i : Interrupt) (rsp : U64) : List U64 :=
  [i.num, i.err, i.rip, i.cs, i.rflags, rsp, i.ss]

/-- The state at the first instruction of `isr_common`. -/
def Interrupt.enter (i : Interrupt) (s : State) : State :=
  (((((((s.set .rsp (s.regs .rsp &&& ~~~15)).push i.ss).push (s.regs .rsp)).push i.rflags).push
    i.cs).push i.rip).push i.err).push i.num

/-- After the `swtch` that `yield` calls in the state `s`, a scheduler calls `swtch` in the state `r` with
`p->context`. Nobody else has written to the stack of the process, of which `n` bytes are in use, or to
`p->context`, and what `swtch` writes for the scheduler is somewhere else. -/
structure TakenUp (n : ℕ) (s r : State) : Prop where
  len : 48 + n ≤ 2 ^ 64
  rsi : r.regs .rsi = load64 r.mem (s.regs .rdi)
  stack : ∀ x, Within x (s.regs .rsp - BitVec.ofNat 64 48) (48 + n) →
    r.mem x = (exec id 0 swtch s).mem x
  context : ∀ x, Within x (s.regs .rdi) 8 → r.mem x = (exec id 0 swtch s).mem x
  apart : Apart (s.regs .rdi) 8 (s.regs .rsp - BitVec.ofNat 64 48) (48 + n)
  pushes : Apart (r.regs .rsp - BitVec.ofNat 64 48) 48 (s.regs .rsp - BitVec.ofNat 64 48) (48 + n)
  saved : Apart (r.regs .rdi) 8 (s.regs .rsp - BitVec.ofNat 64 48) (48 + n)

/-- A call in the state `s` returns in the state `t`, with `n` bytes of the stack in use. A C function
returns as the calling convention asks for, as long as the functions that it calls do. -/
inductive Calls : ℕ → State → State → Prop
  | plain {n : ℕ} {s t : State} (h : Returns s t n) : Calls n s t
  | swtch {n : ℕ} {s r : State} (h : TakenUp n s r) : Calls n s (exec id 0 swtch r)
  | nested {n n₁ : ℕ} {s s₁ t₁ t : State} (inner : Calls n₁ s₁ t₁)
    (h : Returns s₁ t₁ n₁ → Returns s t n) : Calls n s t

/-- The state when `iretq` goes back to kernel code. -/
def resume (s : State) : State := { s with regs := (iretq s).regs }

/-- Kernel code is interrupted in the state `s`, with `n` bytes of the stack in use, and goes on in the
state `s'`. -/
def Preempted (n : ℕ) (s s' : State) : Prop :=
  ∃ (i : Interrupt) (t : State), i.cs &&& 3 = 0 ∧
    Calls (176 + (s.regs .rsp).toNat % 16 + n) (exec id 0 isrCommon (i.enter s)) t ∧
    s' = resume (exec id 0 trapret t)

variable {s t r s' : State} {n : ℕ}

/-! ## The context switch -/

/-- `swtch` comes back with the stack and the registers that a function keeps. -/
theorem swtch_returns (h : TakenUp n s r) : Returns s (exec id 0 swtch r) n := by
  obtain ⟨t, ht, hexec⟩ := exec_swtch_stack s
  have hlen := h.len
  have hmem : (exec id 0 swtch s).mem = t.mem := by rw [hexec, exec_pops_mem]
  have hctx : WordsAt t.mem (s.regs .rsp - BitVec.ofNat 64 48) (contextRegs.map s.regs).reverse :=
    ht.context (h.apart.mono (Nat.le_refl _) (Nat.le_add_right _ _))
  have hrsi : r.regs .rsi = s.regs .rsp - BitVec.ofNat 64 48 := by
    rw [h.rsi, ← ht.saved]
    exact load64_congr fun x hx => (h.context x hx).trans (congrFun hmem x)
  have hw : WordsAt r.mem (r.regs .rsi) (contextRegs.map s.regs).reverse := by
    rw [hrsi]
    refine hctx.congr (by simp [contextRegs]) fun x hx => ?_
    rw [h.stack x (Nat.lt_of_lt_of_le hx (Nat.le_add_right _ _)), hmem]
  obtain ⟨hregs, hrsp, hkeep⟩ := exec_swtch_pops (s := r) rfl hw
    (hrsi ▸ h.pushes.mono (Nat.le_refl _) (Nat.le_add_right _ _))
    (hrsi ▸ h.saved.mono (Nat.le_refl _) (Nat.le_add_right _ _))
  have hback : (exec id 0 swtch r).regs .rsp = s.regs .rsp := by
    rw [hrsp, hrsi, BitVec.sub_add_cancel]
  rw [← List.map_reverse] at hregs
  have hvals := List.map_inj_left.1 hregs
  refine ⟨fun q hq => ?_, fun x hx => ?_⟩
  · by_cases he : q = .rsp
    · rw [he, hback]
    · exact hvals q (by revert he hq; cases q <;> decide)
  · rw [← BitVec.sub_add_cancel (s.regs .rsp) (BitVec.ofNat 64 48)] at hx
    obtain ⟨hin, hout⟩ := hx.behind hlen
    rw [hkeep x (fun hx' => h.pushes x hx' hin) fun hx' => h.saved x hx' hin, h.stack x hin, hmem,
      ht.mem x hout fun hx' => h.apart x hx' hin]

theorem Calls.returns (h : Calls n s t) : Returns s t n := by
  induction h with
  | plain h => exact h
  | swtch h => exact swtch_returns h
  | nested _ h ih => exact h ih

/-! ## The interrupt -/

theorem enter_pushed (i : Interrupt) (s : State) :
    Pushed (s.set .rsp (s.regs .rsp &&& ~~~15)) (i.enter s) (i.words (s.regs .rsp)) :=
  ((((((pushed_push _ i.ss).trans (pushed_push _ _) (by simp)).trans (pushed_push _ _) (by simp)).trans
    (pushed_push _ _) (by simp)).trans (pushed_push _ _) (by simp)).trans (pushed_push _ _)
    (by simp)).trans (pushed_push _ _) (by simp)

/-- `isr_common` pushes the registers. -/
theorem exec_isrCommon (s : State) :
    (exec id 0 isrCommon s).regs .rsp + BitVec.ofNat 64 120 = s.regs .rsp ∧
      WordsAt (exec id 0 isrCommon s).mem ((exec id 0 isrCommon s).regs .rsp)
        (trapretRegs.map s.regs) ∧
      ∀ x, ¬Within x ((exec id 0 isrCommon s).regs .rsp) 120 →
        (exec id 0 isrCommon s).mem x = s.mem x := by
  have hcode : isrCommon = [.testMem 3 .rsp 24] ++ .jz [Instr.swapgs].length ::
    ([.swapgs] ++ (trapretRegs.reverse.map .push ++ [.mov .rdi .rsp])) := rfl
  -- neither the test nor `swapgs` changes a register or the memory
  obtain ⟨u, hexec, hmem, hregs⟩ : ∃ u, exec id 0 isrCommon s =
      exec id 0 (trapretRegs.reverse.map .push ++ [.mov .rdi .rsp]) u ∧ u.mem = s.mem ∧
        u.regs = s.regs := by
    rw [hcode, exec_append (by decide), exec_jz (by decide)]
    refine ⟨_, rfl, ?_⟩
    split_ifs
    · exact ⟨rfl, rfl⟩
    · exact ⟨rfl, rfl⟩
  have hpush : Pushed u (exec id 0 (trapretRegs.reverse.map .push) u) _ :=
    exec_pushes (by decide) (by decide)
  rw [hexec, exec_append (by decide), exec_cons rfl, exec_nil]
  generalize exec id 0 (trapretRegs.reverse.map .push) u = t at hpush
  rw [List.map_reverse, List.reverse_reverse, hregs] at hpush
  have hrsp : (Instr.step id t (.mov .rdi .rsp)).regs .rsp = t.regs .rsp := State.set_of_ne _ _ (by decide)
  rw [hrsp]
  refine ⟨?_, hpush.words, fun x hx => ?_⟩
  · rw [← hregs, ← hpush.rsp]
    rfl
  · rw [← hmem]
    exact hpush.mem x hx

theorem align_add (x : U64) : (x &&& ~~~15) + BitVec.ofNat 64 (x.toNat % 16) = x :=
  BitVec.eq_of_toNat_eq (by
    have hx := x.isLt
    rw [BitVec.toNat_add, and_not_fifteen_toNat, BitVec.toNat_ofNat]
    omega)

/-- The trap frame is on the stack, below what is in use. -/
theorem exec_interrupt (i : Interrupt) (s : State) :
    (exec id 0 isrCommon (i.enter s)).regs .rsp +
        BitVec.ofNat 64 (176 + (s.regs .rsp).toNat % 16) = s.regs .rsp ∧
      WordsAt (exec id 0 isrCommon (i.enter s)).mem ((exec id 0 isrCommon (i.enter s)).regs .rsp)
        (trapretRegs.map s.regs ++ i.words (s.regs .rsp)) ∧
      ∀ x, ¬Within x ((exec id 0 isrCommon (i.enter s)).regs .rsp) 176 →
        (exec id 0 isrCommon (i.enter s)).mem x = s.mem x := by
  have hpush := enter_pushed i s
  obtain ⟨hrsp, hw, hmem⟩ := exec_isrCommon (i.enter s)
  generalize exec id 0 isrCommon (i.enter s) = a at *
  generalize i.enter s = u at *
  have hbase : u.regs .rsp + BitVec.ofNat 64 56 = s.regs .rsp &&& ~~~15 :=
    hpush.rsp.trans (State.set_self s _)
  have hregs : trapretRegs.map u.regs = trapretRegs.map s.regs :=
    List.map_congr_left fun r hr => by
      have hne : r ≠ .rsp := fun e => absurd (e ▸ hr) (by decide)
      exact (hpush.regs r hne).trans (State.set_of_ne s _ hne)
  rw [hregs] at hw
  refine ⟨?_, wordsAt_append.2 ⟨hw, ?_⟩, fun x hx => ?_⟩
  · have hsum : 176 + (s.regs .rsp).toNat % 16 = 120 + (56 + (s.regs .rsp).toNat % 16) := by omega
    rw [hsum, add_ofNat_add, hrsp, add_ofNat_add, hbase, align_add]
  · have hwords := hpush.words
    rw [← hrsp] at hwords
    refine hwords.congr (by simp [Interrupt.words]) fun x hx => hmem x ?_
    exact (hx.behind (by simp [Interrupt.words])).2
  · rw [hmem x fun h => hx (Nat.lt_of_lt_of_le h (by norm_num))]
    refine hpush.mem x fun h => hx ?_
    rw [← hrsp] at h
    exact (h.behind (by simp [Interrupt.words])).1

theorem exec_trapret_mem (s : State) : (exec id 0 trapret s).mem = s.mem := by
  have hcode : trapret = trapretRegs.map .pop ++
    ([.add .rsp 16, .testMem 3 .rsp 8] ++ .jz [Instr.swapgs].length :: ([.swapgs] ++ [])) := rfl
  rw [hcode, exec_append (by decide), ← exec_pops_mem (c := id) trapretRegs (s := s)]
  generalize exec id 0 (trapretRegs.map .pop) s = t
  rw [exec_append (by decide), exec_jz (by decide), exec_nil]
  split_ifs
  · rfl
  · rfl

/-- The interrupted code goes on with every register and the stack in use as before. -/
theorem Preempted.resumed (h : Preempted n s s') (hn : n + 192 ≤ 2 ^ 64) : Resumed n s s' := by
  obtain ⟨i, t, -, hcall, rfl⟩ := h
  have hret := hcall.returns
  obtain ⟨hrsp, hw, hmem⟩ := exec_interrupt i s
  generalize exec id 0 isrCommon (i.enter s) = a at *
  have hlen : (trapretRegs.map s.regs ++ i.words (s.regs .rsp)).length = 22 := by simp [trapretRegs, Interrupt.words]
  have hwt := hret.words (by rw [hlen]; omega) (by omega) hw
  obtain ⟨hregs, -, -, -, hback, -⟩ := exec_trapret hlen hwt
  rw [List.take_left' (by simp [trapretRegs])] at hregs
  have hvals := List.map_inj_left.1 hregs
  refine ⟨?_, fun x hx => ?_⟩
  · funext q
    by_cases hq : q = .rsp
    · rw [hq]
      exact hback
    · exact hvals q (by revert hq; cases q <;> decide)
  · change (exec id 0 trapret t).mem x = s.mem x
    rw [exec_trapret_mem]
    rw [← hrsp] at hx
    obtain ⟨hin, hout⟩ := hx.behind (by omega)
    rw [hret.frame x hin]
    exact hmem x fun h => hout (Nat.lt_of_lt_of_le h (Nat.le_add_right _ _))

/-- Preemption keeps the stack of a process. -/
theorem keepsStack_preempted (top : U64) {size : ℕ} (hsize : size + 192 ≤ 2 ^ 64) :
    KeepsStack (fun s s' => Preempted (inUse top size s) s s') top size := fun s s' h => by
  refine h.resumed (le_trans (Nat.add_le_add_right ?_ 192) hsize)
  rw [inUse]
  split_ifs with hle
  · exact hle
  · exact Nat.zero_le _

end Jeos
