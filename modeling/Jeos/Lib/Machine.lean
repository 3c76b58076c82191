import Jeos.Lib.WordMemory

/-!
# A register machine with a stack

The part of the x86-64 instruction set that system call entries and context switches
use : moves, loads and stores, pushes and pops, accesses relative to the GS base, forward
jumps over a block, and calls of a function the machine takes as a parameter.

`exec` runs a list of instructions. A sequence of pushes leaves the registers as words at
the stack pointer (`Pushed`, `exec_pushes`), and a sequence of pops takes the words into
registers (`Popped`, `exec_pops`). `Returns` is what the calling convention promises to the
caller of a C function.
-/

namespace Machine

open ByteMemory

inductive Reg
  | rax
  | rbx
  | rcx
  | rdx
  | rsi
  | rdi
  | rbp
  | rsp
  | r8
  | r9
  | r10
  | r11
  | r12
  | r13
  | r14
  | r15
  deriving DecidableEq

inductive Instr
  /-- `mov dst, src` -/
  | mov (dst src : Reg)
  /-- `mov dst, v` -/
  | movImm (dst : Reg) (v : BitVec 64)
  /-- `lea dst, [base + d]` -/
  | lea (dst base : Reg) (d : ℕ)
  /-- `mov dst, [base + d]` -/
  | load (dst base : Reg) (d : ℕ)
  /-- `mov [base + d], src` -/
  | store (base : Reg) (d : ℕ) (src : Reg)
  /-- `mov dst, [gs:d]` -/
  | loadGs (dst : Reg) (d : ℕ)
  /-- `mov [gs:d], src` -/
  | storeGs (d : ℕ) (src : Reg)
  | push (src : Reg)
  /-- `push qword [gs:d]` -/
  | pushGs (d : ℕ)
  | pop (dst : Reg)
  /-- `add dst, v` -/
  | add (dst : Reg) (v : BitVec 64)
  /-- `xor r, r` -/
  | clear (r : Reg)
  /-- `test r, r` -/
  | test (r : Reg)
  /-- `testl v, [base + d]` -/
  | testMem (v : BitVec 32) (base : Reg) (d : ℕ)
  /-- `jz` over the next `n` instructions -/
  | jz (n : ℕ)
  | swapgs
  | call

/-- The registers, the memory, the zero flag and the two bases `swapgs` exchanges. -/
structure State where
  regs : Reg → BitVec 64
  mem : Memory 64
  zf : Bool
  gs : BitVec 64
  kernelGs : BitVec 64

namespace State

def set (s : State) (r : Reg) (v : BitVec 64) : State :=
  { s with regs := Function.update s.regs r v }

def push (s : State) (v : BitVec 64) : State :=
  { s.set .rsp (s.regs .rsp - BitVec.ofNat 64 8) with
    mem := store64 s.mem (s.regs .rsp - BitVec.ofNat 64 8) v }

def pop (s : State) (r : Reg) : State :=
  (s.set .rsp (s.regs .rsp + BitVec.ofNat 64 8)).set r (load64 s.mem (s.regs .rsp))

variable (s : State) {r r' : Reg} (v : BitVec 64)

@[simp] theorem set_self : (s.set r v).regs r = v := Function.update_self _ _ _

@[simp] theorem set_of_ne (h : r' ≠ r) : (s.set r v).regs r' = s.regs r' :=
  Function.update_of_ne h _ _

@[simp] theorem set_mem : (s.set r v).mem = s.mem := rfl

@[simp] theorem set_zf : (s.set r v).zf = s.zf := rfl

@[simp] theorem set_gs : (s.set r v).gs = s.gs := rfl

@[simp] theorem set_kernelGs : (s.set r v).kernelGs = s.kernelGs := rfl

end State

/-! ## Execution -/

/-- The effect of one instruction. `c s` is the state in which the called function
returns. -/
def Instr.step (c : State → State) (s : State) : Instr → State
  | .mov dst src => s.set dst (s.regs src)
  | .movImm dst v => s.set dst v
  | .lea dst base d => s.set dst (s.regs base + BitVec.ofNat 64 d)
  | .load dst base d => s.set dst (load64 s.mem (s.regs base + BitVec.ofNat 64 d))
  | .store base d src =>
    { s with mem := store64 s.mem (s.regs base + BitVec.ofNat 64 d) (s.regs src) }
  | .loadGs dst d => s.set dst (load64 s.mem (s.gs + BitVec.ofNat 64 d))
  | .storeGs d src => { s with mem := store64 s.mem (s.gs + BitVec.ofNat 64 d) (s.regs src) }
  | .push src => s.push (s.regs src)
  | .pushGs d => s.push (load64 s.mem (s.gs + BitVec.ofNat 64 d))
  | .pop dst => s.pop dst
  | .add dst v => { s.set dst (s.regs dst + v) with zf := s.regs dst + v = 0 }
  | .clear r => { s.set r 0 with zf := true }
  | .test r => { s with zf := s.regs r = 0 }
  | .testMem v base d =>
    { s with zf := load32 s.mem (s.regs base + BitVec.ofNat 64 d) &&& v = 0 }
  | .jz _ => s
  | .swapgs => { s with gs := s.kernelGs, kernelGs := s.gs }
  | .call => c s

/-- How many of the next instructions are jumped over. -/
def Instr.skips (s : State) : Instr → ℕ
  | .jz n => if s.zf then n else 0
  | _ => 0

def Instr.isJump : Instr → Bool
  | .jz _ => true
  | _ => false

/-- Run a list of instructions, except for the first `n`. -/
def exec (c : State → State) : ℕ → List Instr → State → State
  | _, [], s => s
  | n + 1, _ :: p, s => exec c n p s
  | 0, i :: p, s => exec c (i.skips s) p (i.step c s)

variable {c : State → State} {p q : List Instr} {s t : State} {i : Instr}

@[simp] theorem exec_nil : exec c 0 [] s = s := rfl

theorem exec_cons (hi : i.isJump = false) :
    exec c 0 (i :: p) s = exec c 0 p (i.step c s) := by
  have h : i.skips s = 0 := by cases i <;> simp_all [Instr.skips, Instr.isJump]
  rw [exec, h]

/-- A block without jumps runs to its end. -/
theorem exec_append (hp : ∀ i ∈ p, i.isJump = false) :
    exec c 0 (p ++ q) s = exec c 0 q (exec c 0 p s) := by
  induction p generalizing s with
  | nil => rfl
  | cons i p ih =>
    have hi := hp i List.mem_cons_self
    rw [List.cons_append, exec_cons hi, exec_cons hi,
      ih fun j hj => hp j (List.mem_cons_of_mem _ hj)]

theorem exec_skip : exec c p.length (p ++ q) s = exec c 0 q s := by
  induction p with
  | nil => rfl
  | cons i p ih => exact ih

/-- A jump over a block. -/
theorem exec_jz (hp : ∀ i ∈ p, i.isJump = false) :
    exec c 0 (.jz p.length :: (p ++ q)) s =
      exec c 0 q (if s.zf then s else exec c 0 p s) := by
  rw [exec, Instr.skips, Instr.step]
  cases s.zf
  · exact exec_append hp
  · exact exec_skip

/-! ## Pushes and pops -/

/-- `t` is `s` with the words `vs` pushed, the last one pushed first in the list. -/
structure Pushed (s t : State) (vs : List (BitVec 64)) : Prop where
  rsp : t.regs .rsp + BitVec.ofNat 64 (8 * vs.length) = s.regs .rsp
  regs : ∀ r, r ≠ .rsp → t.regs r = s.regs r
  words : WordsAt t.mem (t.regs .rsp) vs
  mem : ∀ x, ¬Within x (t.regs .rsp) (8 * vs.length) → t.mem x = s.mem x
  gs : t.gs = s.gs
  kernelGs : t.kernelGs = s.kernelGs

theorem pushed_push (s : State) (v : BitVec 64) : Pushed s (s.push v) [v] where
  rsp := by simp [State.push, BitVec.sub_add_cancel]
  regs := fun r hr => State.set_of_ne s _ hr
  words := wordsAt_cons.2
    ⟨by simp [State.push, load64_store64_self (show 3 ≤ 64 by decide)], wordsAt_nil⟩
  mem := fun x hx => store64_of_not_within (by simpa [State.push] using hx)
  gs := rfl
  kernelGs := rfl

theorem Pushed.trans {u : State} {vs ws : List (BitVec 64)} (h : Pushed s t vs)
    (h' : Pushed t u ws) (hlen : 8 * (ws ++ vs).length ≤ 2 ^ 64) : Pushed s u (ws ++ vs) := by
  rw [List.length_append] at hlen
  have hap : Apart (u.regs .rsp + BitVec.ofNat 64 (8 * ws.length)) (8 * vs.length)
      (u.regs .rsp + BitVec.ofNat 64 0) (8 * ws.length) :=
    apart_add _ (by omega) (by omega) (Or.inr (by omega))
  rw [h'.rsp, BitVec.add_zero] at hap
  refine ⟨?_, fun r hr => (h'.regs r hr).trans (h.regs r hr), wordsAt_append.2 ⟨h'.words, ?_⟩,
    fun x hx => ?_, h'.gs.trans h.gs, h'.kernelGs.trans h.kernelGs⟩
  · rw [List.length_append, Nat.mul_add, add_ofNat_add, h'.rsp, h.rsp]
  · rw [h'.rsp]
    exact h.words.congr (by omega) fun x hx => h'.mem x (hap x hx)
  · rw [List.length_append] at hx
    have hw : ¬Within x (u.regs .rsp) (8 * ws.length) := by
      unfold Within at hx ⊢
      omega
    have hv : ¬Within x (t.regs .rsp) (8 * vs.length) := by
      rcases Nat.eq_zero_or_pos vs.length with h0 | h0
      · simp [h0, Within]
      · rw [← h'.rsp, within_add_iff (by omega) (by omega)]
        unfold Within at hx
        omega
    rw [h'.mem x hw, h.mem x hv]

/-- Pushing registers puts them on the stack, the last one on top. -/
theorem exec_pushes {rs : List Reg} (hrs : .rsp ∉ rs) (hlen : 8 * rs.length ≤ 2 ^ 64) :
    Pushed s (exec c 0 (rs.map .push) s) (rs.map s.regs).reverse := by
  induction rs generalizing s with
  | nil => exact ⟨by simp, fun _ _ => rfl, wordsAt_nil, fun _ _ => rfl, rfl, rfl⟩
  | cons r rs ih =>
    rw [List.mem_cons, not_or] at hrs
    have h1 : Pushed s (s.push (s.regs r)) [s.regs r] := pushed_push s _
    have hmap : rs.map (s.push (s.regs r)).regs = rs.map s.regs :=
      List.map_congr_left fun r' hr' => h1.regs r' fun e => hrs.2 (e ▸ hr')
    have h2 := ih (s := s.push (s.regs r)) hrs.2 (by rw [List.length_cons] at hlen; omega)
    rw [hmap] at h2
    rw [List.map_cons, exec_cons rfl, List.map_cons, List.reverse_cons]
    exact h1.trans h2 (by simpa using hlen)

/-- `t` is `s` with the words `vs` popped into the registers `rs`. -/
structure Popped (s t : State) (rs : List Reg) (vs : List (BitVec 64)) : Prop where
  values : rs.map t.regs = vs
  rsp : t.regs .rsp = s.regs .rsp + BitVec.ofNat 64 (8 * vs.length)
  regs : ∀ r, r ∉ rs → r ≠ .rsp → t.regs r = s.regs r
  mem : t.mem = s.mem
  gs : t.gs = s.gs
  kernelGs : t.kernelGs = s.kernelGs

/-- Popping words into different registers gives each register its word. -/
theorem exec_pops {rs : List Reg} {vs : List (BitVec 64)} (hlen : rs.length = vs.length)
    (hnd : rs.Nodup) (hrs : .rsp ∉ rs) (hw : WordsAt s.mem (s.regs .rsp) vs) :
    Popped s (exec c 0 (rs.map .pop) s) rs vs := by
  induction rs generalizing s vs with
  | nil =>
    obtain rfl : vs = [] := List.length_eq_zero_iff.1 hlen.symm
    exact ⟨rfl, by simp, fun _ _ _ => rfl, rfl, rfl, rfl⟩
  | cons r rs ih =>
    obtain ⟨v, vs, rfl⟩ := List.exists_cons_of_length_eq_add_one hlen.symm
    obtain ⟨hr, hnd⟩ := List.nodup_cons.1 hnd
    rw [List.mem_cons, not_or] at hrs
    obtain ⟨hv, hw⟩ := wordsAt_cons.1 hw
    have hrsp : (s.pop r).regs .rsp = s.regs .rsp + BitVec.ofNat 64 8 := by
      rw [State.pop, State.set_of_ne _ _ hrs.1, State.set_self]
    have h := ih (s := s.pop r) (Nat.succ_injective hlen) hnd hrs.2 (by rw [hrsp]; exact hw)
    rw [List.map_cons, exec_cons rfl, Instr.step]
    refine ⟨?_, ?_, fun r' hr' hne => ?_, h.mem, h.gs, h.kernelGs⟩
    · have hval : (s.pop r).regs r = v := by rw [State.pop, State.set_self, hv]
      rw [List.map_cons, h.values, h.regs r hr (Ne.symm hrs.1), hval]
    · rw [h.rsp, hrsp, List.length_cons, Nat.mul_succ, Nat.add_comm (8 * vs.length),
        add_ofNat_add]
    · rw [List.mem_cons, not_or] at hr'
      rw [h.regs r' hr'.2 hne, State.pop, State.set_of_ne _ _ hr'.1, State.set_of_ne _ _ hne]

/-- Pops leave the memory. -/
theorem exec_pops_mem (rs : List Reg) : (exec c 0 (rs.map .pop) s).mem = s.mem := by
  induction rs generalizing s with
  | nil => rfl
  | cons r rs ih =>
    rw [List.map_cons, exec_cons rfl, ih]
    rfl

/-! ## Calls -/

/-- The registers a C function keeps. -/
def calleeSaved : List Reg := [.rbx, .rbp, .rsp, .r12, .r13, .r14, .r15]

/-- A call from `s` returned in `t` as the calling convention asks for : with the saved
registers, and with the caller's frame of `n` bytes at the stack pointer. -/
structure Returns (s t : State) (n : ℕ) : Prop where
  saved : ∀ r ∈ calleeSaved, t.regs r = s.regs r
  frame : ∀ x, Within x (s.regs .rsp) n → t.mem x = s.mem x

theorem Returns.rsp {n : ℕ} (h : Returns s t n) : t.regs .rsp = s.regs .rsp :=
  h.saved .rsp (by decide)

theorem Returns.words {n : ℕ} {vs : List (BitVec 64)} (h : Returns s t n)
    (hlen : 8 * vs.length ≤ n) (hn : n ≤ 2 ^ 64) (hw : WordsAt s.mem (s.regs .rsp) vs) :
    WordsAt t.mem (t.regs .rsp) vs := by
  rw [h.rsp]
  exact hw.congr (by omega) fun x hx => h.frame x (Nat.lt_of_lt_of_le hx hlen)

/-! ## Returns -/

/-- The state of the program a `sysret` or `iretq` goes back to. -/
structure UserState where
  regs : Reg → BitVec 64
  rip : BitVec 64
  rflags : BitVec 64
  cs : BitVec 64
  ss : BitVec 64

/-- `ret`, with the address it goes to. -/
def ret (s : State) : State × BitVec 64 :=
  (s.set .rsp (s.regs .rsp + BitVec.ofNat 64 8), load64 s.mem (s.regs .rsp))

/-- `o64 sysret` : the address is in `rcx`, the flags are in `r11`, without the resume
and virtual-8086 flags, and the selectors are derived from the `STAR` register. -/
def sysret (star : BitVec 64) (s : State) : UserState where
  regs := s.regs
  rip := s.regs .rcx
  rflags := s.regs .r11 &&& 0x3C7FD7 ||| 2
  cs := star >>> 48 + 16 ||| 3
  ss := star >>> 48 + 8 ||| 3

/-- `iretq` : the address, the flags, the stack pointer and the selectors are on the stack. -/
def iretq (s : State) : UserState where
  regs := Function.update s.regs .rsp (load64 s.mem (s.regs .rsp + BitVec.ofNat 64 24))
  rip := load64 s.mem (s.regs .rsp)
  cs := load64 s.mem (s.regs .rsp + BitVec.ofNat 64 8)
  rflags := load64 s.mem (s.regs .rsp + BitVec.ofNat 64 16)
  ss := load64 s.mem (s.regs .rsp + BitVec.ofNat 64 32)

end Machine
