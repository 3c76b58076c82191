import Jeos.Lib.Machine

/-!
# Code that is interrupted

`Interrupted R p s t` is a run of the instructions `p` that may be left before each of them and
after the last, and goes on in a state that `R` allows. An interruption is harmless when it keeps
the registers and the bytes of the stack in use (`Resumed`). The pops of such a run give the
registers their words (`Interrupted.pops`).
-/

namespace Machine

open ByteMemory

/-- In `t` the registers, and the `n` bytes at the stack pointer, are as in `s`. -/
structure Resumed (n : ℕ) (s t : State) : Prop where
  regs : t.regs = s.regs
  stack : ∀ x, Within x (s.regs .rsp) n → t.mem x = s.mem x

/-- A run of code without jumps and calls, with interruptions. -/
inductive Interrupted (R : State → State → Prop) : List Instr → State → State → Prop
  | done (s : State) : Interrupted R [] s s
  | step {i : Instr} {p : List Instr} {s t : State} (run : Interrupted R p (i.step id s) t) :
      Interrupted R (i :: p) s t
  | preempt {p : List Instr} {s s' t : State} (switch : R s s') (run : Interrupted R p s' t) :
      Interrupted R p s t

/-- Code can run without interruptions. -/
theorem exists_interrupted (R : State → State → Prop) : ∀ (p : List Instr) (s : State),
    ∃ t, Interrupted R p s t
  | [], s => ⟨s, .done s⟩
  | i :: p, s =>
    let ⟨t, ht⟩ := exists_interrupted R p (i.step id s)
    ⟨t, .step ht⟩

variable {R : State → State → Prop} {s t : State} {q : List Instr} {rs : List Reg}
  {vs ws : List (BitVec 64)}

theorem Resumed.words {n : ℕ} (h : Resumed n s t) (hw : WordsAt s.mem (s.regs .rsp) ws)
    (hlen : 8 * ws.length ≤ n) (hn : n ≤ 2 ^ 64) : WordsAt t.mem (t.regs .rsp) ws := by
  rw [h.regs]
  exact hw.congr (by omega) fun x hx => h.stack x (Nat.lt_of_lt_of_le hx hlen)

/-- The bytes in use of the stack of `size` bytes that ends at `top` : none when the stack pointer is
somewhere else. -/
def inUse (top : BitVec 64) (size : ℕ) (s : State) : ℕ :=
  if (top - s.regs .rsp).toNat ≤ size then (top - s.regs .rsp).toNat else 0

/-- Each interruption keeps the registers and the stack in use. -/
def KeepsStack (R : State → State → Prop) (top : BitVec 64) (size : ℕ) : Prop :=
  ∀ s s', R s s' → Resumed (inUse top size s) s s'

theorem pop_regs {r : Reg} {v : BitVec 64} (h : load64 s.mem (s.regs .rsp) = v) :
    (s.pop r).regs =
      Function.update (Function.update s.regs .rsp (s.regs .rsp + BitVec.ofNat 64 8)) r v := by
  rw [← h]
  rfl

/-- A run gets past a pop with the register loaded and the other words on the stack. -/
theorem Interrupted.pop {r : Reg} {v top : BitVec 64} {size : ℕ} (hR : KeepsStack R top size)
    (hw : WordsAt s.mem (s.regs .rsp) (v :: ws)) (hsize : 8 * (ws.length + 1) ≤ size)
    (htop : 8 * (ws.length + 1) = (top - s.regs .rsp).toNat)
    (hrun : Interrupted R (.pop r :: q) s t) : ∃ u, Interrupted R q u t ∧
      u.regs = Function.update (Function.update s.regs .rsp (s.regs .rsp + BitVec.ofNat 64 8)) r v ∧
      WordsAt u.mem (s.regs .rsp + BitVec.ofNat 64 8) ws := by
  generalize hp : Instr.pop r :: q = p at hrun
  induction hrun with
  | done => cases hp
  | step run =>
    obtain ⟨rfl, rfl⟩ := List.cons.inj hp
    obtain ⟨hv, hws⟩ := wordsAt_cons.1 hw
    exact ⟨_, run, pop_regs hv, hws⟩
  | @preempt p s s' t switch run ih =>
    have hs := hR s s' switch
    rw [inUse, if_pos (htop ▸ hsize), ← htop] at hs
    have hw' := hs.words hw (Nat.le_refl _) (htop ▸ (BitVec.isLt _).le)
    rw [← hs.regs] at htop ⊢
    exact ih hw' htop hp

/-- A run gets past pops into different registers. -/
theorem Interrupted.pops {top : BitVec 64} {size : ℕ} (hR : KeepsStack R top size)
    (hlen : rs.length = vs.length) (hnd : rs.Nodup) (hrs : .rsp ∉ rs)
    (hw : WordsAt s.mem (s.regs .rsp) (vs ++ ws)) (hsize : 8 * (vs ++ ws).length ≤ size)
    (htop : 8 * (vs ++ ws).length = (top - s.regs .rsp).toNat)
    (hrun : Interrupted R (rs.map .pop ++ q) s t) : ∃ u, Interrupted R q u t ∧
      rs.map u.regs = vs ∧ (∀ r, r ∉ rs → r ≠ .rsp → u.regs r = s.regs r) ∧
      WordsAt u.mem (u.regs .rsp) ws ∧ 8 * ws.length = (top - u.regs .rsp).toNat := by
  induction rs generalizing s vs with
  | nil =>
    obtain rfl : vs = [] := List.length_eq_zero_iff.1 hlen.symm
    exact ⟨s, hrun, rfl, fun _ _ _ => rfl, hw, htop⟩
  | cons r rs ih =>
    obtain ⟨v, vs, rfl⟩ := List.exists_cons_of_length_eq_add_one hlen.symm
    obtain ⟨hr, hnd⟩ := List.nodup_cons.1 hnd
    rw [List.mem_cons, not_or] at hrs
    rw [List.cons_append, List.length_cons] at htop hsize
    obtain ⟨u, hu, hregs, hwu⟩ := hrun.pop hR hw hsize htop
    have hrsp : u.regs .rsp = s.regs .rsp + BitVec.ofNat 64 8 := by
      rw [hregs, Function.update_of_ne hrs.1, Function.update_self]
    rw [← hrsp] at hwu
    have htop' : 8 * (vs ++ ws).length = (top - u.regs .rsp).toNat := by
      rw [hrsp, BitVec.toNat_sub, BitVec.toNat_add, BitVec.toNat_ofNat]
      rw [BitVec.toNat_sub] at htop
      have := top.isLt
      omega
    obtain ⟨u', hu', hvals, hkeep, hwu', htop''⟩ :=
      ih (Nat.succ_injective hlen) hnd hrs.2 hwu (by omega) htop' hu
    refine ⟨u', hu', ?_, fun r' hr' hne => ?_, hwu', htop''⟩
    · rw [List.map_cons, hvals, hkeep r hr (Ne.symm hrs.1), hregs, Function.update_self]
    · rw [List.mem_cons, not_or] at hr'
      rw [hkeep r' hr'.2 hne, hregs, Function.update_of_ne hr'.1, Function.update_of_ne hne]

/-- After the last pop the registers stay. -/
theorem Interrupted.regs_eq {top : BitVec 64} {size : ℕ} (hR : KeepsStack R top size)
    (hq : ∀ i ∈ q, ∀ s, (i.step id s).regs = s.regs) (hrun : Interrupted R q s t) :
    t.regs = s.regs := by
  induction hrun with
  | done => rfl
  | step run ih =>
    rw [ih fun i hi => hq i (List.mem_cons_of_mem _ hi), hq _ List.mem_cons_self]
  | preempt switch run ih => rw [ih hq, (hR _ _ switch).regs]

end Machine
