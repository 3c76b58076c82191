import Mathlib.Algebra.BigOperators.Group.List.Basic
import Mathlib.Algebra.Order.Ring.Nat
import Mathlib.Tactic.Common

/-!
# Forests of radix trees

A table has `q` entries, and a tree of depth `d` has `q ^ d` leaves, numbered from left to right.
`digits q d k` are the indices on the way to leaf `k`, and `lookup` is the pointer found there, where
nothing is below a null pointer.

A forest is a list of depths. Its leaves are numbered tree by tree, and `locate` finds the tree and
the indices below its root (`locate_lt`, `locate_inj`).
-/

namespace RadixTree

variable {q : ℕ} {P : Type*} [Zero P] [DecidableEq P] {entry : P → ℕ → P}

/-- The indices on the way to leaf `k` of a tree of depth `d`. -/
def digits (q : ℕ) : ℕ → ℕ → List ℕ
  | 0, _ => []
  | d + 1, k => k / q ^ d :: digits q d (k % q ^ d)

@[simp] theorem digits_zero (k : ℕ) : digits q 0 k = [] := rfl

@[simp] theorem digits_succ (d k : ℕ) : digits q (d + 1) k = k / q ^ d :: digits q d (k % q ^ d) := rfl

@[simp] theorem length_digits (d k : ℕ) : (digits q d k).length = d := by
  induction d generalizing k with
  | zero => rfl
  | succ d ih => rw [digits_succ, List.length_cons, ih]

theorem digits_lt (hq : 0 < q) {d k : ℕ} (hk : k < q ^ d) : ∀ i ∈ digits q d k, i < q := by
  induction d generalizing k with
  | zero => exact fun i hi => absurd hi List.not_mem_nil
  | succ d ih =>
    have hd : 0 < q ^ d := Nat.pow_pos hq
    rw [digits_succ, List.forall_mem_cons]
    refine ⟨?_, ih (Nat.mod_lt k hd)⟩
    rwa [Nat.div_lt_iff_lt_mul hd, ← pow_succ']

/-- Different leaves have different indices. -/
theorem digits_inj (hq : 0 < q) {d k k' : ℕ} (hk : k < q ^ d) (hk' : k' < q ^ d)
    (h : digits q d k = digits q d k') : k = k' := by
  induction d generalizing k k' with
  | zero =>
    rw [pow_zero, Nat.lt_one_iff] at hk hk'
    rw [hk, hk']
  | succ d ih =>
    have hd : 0 < q ^ d := Nat.pow_pos hq
    obtain ⟨hdiv, hrest⟩ := List.cons.inj h
    rw [← Nat.div_add_mod k (q ^ d), ← Nat.div_add_mod k' (q ^ d), hdiv,
      ih (Nat.mod_lt k hd) (Nat.mod_lt k' hd) hrest]

/-- The pointer at the end of a path, or 0 if one on the way is 0. -/
def lookup (entry : P → ℕ → P) : P → List ℕ → P
  | ptr, [] => ptr
  | ptr, i :: is => if ptr = 0 then 0 else lookup entry (entry ptr i) is

/-- Where the entries below the null pointer are null, the tests on the way can be left out. -/
theorem lookup_eq_foldl {f : P → ℕ → P} (h0 : ∀ i, f 0 i = 0)
    (hf : ∀ ptr ≠ 0, ∀ i, f ptr i = entry ptr i) (is : List ℕ) (ptr : P) :
    lookup entry ptr is = is.foldl f ptr := by
  induction is generalizing ptr with
  | nil => rfl
  | cons i is ih =>
    rw [lookup, List.foldl_cons, ← ih]
    split_ifs with hp
    · rw [hp, h0]
      cases is with
      | nil => rfl
      | cons j js => rw [lookup, if_pos rfl]
    · rw [hf ptr hp]

/-! ## Forests -/

/-- The number of leaves. -/
def capacity (q : ℕ) (ds : List ℕ) : ℕ := (ds.map (q ^ ·)).sum

/-- The tree that leaf `n` is in, and the indices below its root. -/
def locate (q : ℕ) : List ℕ → ℕ → ℕ × List ℕ
  | [], _ => (0, [])
  | d :: ds, n =>
    if n < q ^ d then (0, digits q d n)
    else ((locate q ds (n - q ^ d)).1 + 1, (locate q ds (n - q ^ d)).2)

theorem locate_of_lt {d n : ℕ} (ds : List ℕ) (h : n < q ^ d) :
    locate q (d :: ds) n = (0, digits q d n) := if_pos h

theorem locate_of_le {d n : ℕ} (ds : List ℕ) (h : q ^ d ≤ n) : locate q (d :: ds) n =
    ((locate q ds (n - q ^ d)).1 + 1, (locate q ds (n - q ^ d)).2) := if_neg (Nat.not_lt.2 h)

@[simp] theorem capacity_cons (d : ℕ) (ds : List ℕ) : capacity q (d :: ds) = q ^ d + capacity q ds :=
  List.sum_cons

theorem locate_lt (hq : 0 < q) {ds : List ℕ} {n : ℕ} (hn : n < capacity q ds) :
    ∀ i ∈ (locate q ds n).2, i < q := by
  induction ds generalizing n with
  | nil => exact fun i hi => absurd hi List.not_mem_nil
  | cons d ds ih =>
    rw [capacity_cons] at hn
    rcases Nat.lt_or_ge n (q ^ d) with h | h
    · rw [locate_of_lt ds h]
      exact digits_lt hq h
    · rw [locate_of_le ds h]
      exact ih (by omega)

/-- Different leaves of a forest are in different places. -/
theorem locate_inj (hq : 0 < q) {ds : List ℕ} {n n' : ℕ} (hn : n < capacity q ds)
    (hn' : n' < capacity q ds) (h : locate q ds n = locate q ds n') : n = n' := by
  induction ds generalizing n n' with
  | nil => exact absurd hn (Nat.not_lt_zero n)
  | cons d ds ih =>
    rw [capacity_cons] at hn hn'
    rcases Nat.lt_or_ge n (q ^ d) with hd | hd <;> rcases Nat.lt_or_ge n' (q ^ d) with hd' | hd'
    · rw [locate_of_lt ds hd, locate_of_lt ds hd'] at h
      exact digits_inj hq hd hd' (Prod.mk.inj h).2
    · rw [locate_of_lt ds hd, locate_of_le ds hd'] at h
      exact absurd (Prod.mk.inj h).1.symm (Nat.succ_ne_zero _)
    · rw [locate_of_le ds hd, locate_of_lt ds hd'] at h
      exact absurd (Prod.mk.inj h).1 (Nat.succ_ne_zero _)
    · rw [locate_of_le ds hd, locate_of_le ds hd'] at h
      obtain ⟨htree, hpath⟩ := Prod.mk.inj h
      have := ih (show n - q ^ d < capacity q ds by omega) (show n' - q ^ d < capacity q ds by omega)
        (Prod.ext (Nat.add_right_cancel htree) hpath)
      omega

/-- Trees that are leaves. -/
theorem locate_replicate_zero (m : ℕ) (ds : List ℕ) (n : ℕ) :
    locate q (List.replicate m 0 ++ ds) n =
      if n < m then (n, []) else ((locate q ds (n - m)).1 + m, (locate q ds (n - m)).2) := by
  induction m generalizing n with
  | zero => rw [if_neg (Nat.not_lt_zero n)]; rfl
  | succ m ih =>
    rw [List.replicate_succ, List.cons_append]
    rcases n with _ | n
    · rw [locate_of_lt _ (Nat.lt_of_lt_of_eq Nat.zero_lt_one (pow_zero q).symm),
        if_pos (Nat.succ_pos m)]
      rfl
    · rw [locate_of_le _ ((pow_zero q).trans_le (Nat.succ_pos n)), pow_zero, Nat.succ_sub_one, ih]
      rcases Nat.lt_or_ge n m with h | h
      · rw [if_pos h, if_pos (Nat.succ_lt_succ h)]
      · rw [if_neg (Nat.not_lt.2 h), if_neg (by omega), Nat.add_sub_add_right, Nat.add_assoc]

theorem capacity_replicate_zero (m : ℕ) (ds : List ℕ) :
    capacity q (List.replicate m 0 ++ ds) = m + capacity q ds := by
  induction m with
  | zero => rw [Nat.zero_add]; rfl
  | succ m ih =>
    rw [List.replicate_succ, List.cons_append, capacity_cons, ih, pow_zero]
    omega

end RadixTree
