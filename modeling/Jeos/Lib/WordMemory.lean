import Jeos.Lib.ByteMemory

/-!
# Lists of words in a byte memory

`WordsAt m a ws` says that the 64-bit words `ws` lie in the memory from `a` on, one
behind the other : a stack frame from the stack pointer, or a structure of words.

Words stay where no byte changes (`WordsAt.congr`). A store behind the last word
(`WordsAt.store_next`) or in front of the first one (`WordsAt.store_prev`) makes the list
longer, and `copy` moves a list (`WordsAt.copy`).
-/

namespace ByteMemory

variable {w : ℕ} {m m' : Memory w} {a b : BitVec w} {ws vs : List (BitVec 64)} {v : BitVec 64}

/-- The words `ws` lie in the memory from `a` on. -/
def WordsAt (m : Memory w) (a : BitVec w) (ws : List (BitVec 64)) : Prop :=
  ∀ i v, ws[i]? = some v → load64 m (a + BitVec.ofNat w (8 * i)) = v

theorem WordsAt.load (h : WordsAt m a ws) (i : ℕ) (hv : ws[i]? = some v) :
    load64 m (a + BitVec.ofNat w (8 * i)) = v :=
  h i v hv

theorem wordsAt_nil : WordsAt m a [] := fun i v h => by simp at h

theorem add_ofNat_add (a : BitVec w) (i j : ℕ) :
    a + BitVec.ofNat w (i + j) = a + BitVec.ofNat w i + BitVec.ofNat w j := by
  rw [BitVec.ofNat_add, BitVec.add_assoc]

theorem add_ofNat_sub (a : BitVec w) {i j : ℕ} (h : j ≤ i) :
    a + BitVec.ofNat w i - BitVec.ofNat w j = a + BitVec.ofNat w (i - j) := by
  have hij : i = i - j + j := by omega
  conv_lhs => rw [hij, add_ofNat_add]
  rw [BitVec.add_sub_cancel]

theorem wordsAt_append : WordsAt m a (vs ++ ws) ↔
    WordsAt m a vs ∧ WordsAt m (a + BitVec.ofNat w (8 * vs.length)) ws := by
  constructor
  · intro h
    refine ⟨fun i v hv => h i v ?_, fun i v hv => ?_⟩
    · obtain ⟨hi, -⟩ := List.getElem?_eq_some_iff.1 hv
      rw [List.getElem?_append_left hi, hv]
    · rw [← add_ofNat_add, ← Nat.mul_add]
      refine h _ v ?_
      rw [List.getElem?_append_right (Nat.le_add_right _ _), Nat.add_sub_cancel_left, hv]
  · rintro ⟨hvs, hws⟩ i v hv
    rcases Nat.lt_or_ge i vs.length with hi | hi
    · exact hvs i v (by rw [← hv, List.getElem?_append_left hi])
    · have e : 8 * i = 8 * vs.length + 8 * (i - vs.length) := by omega
      rw [e, add_ofNat_add]
      exact hws _ v (by rw [← hv, List.getElem?_append_right hi])

theorem wordsAt_cons : WordsAt m a (v :: ws) ↔
    load64 m a = v ∧ WordsAt m (a + BitVec.ofNat w 8) ws := by
  have h1 : WordsAt m a [v] ↔ load64 m a = v := by
    refine ⟨fun h => by simpa using h.load 0 rfl, fun h i u hu => ?_⟩
    obtain ⟨hi, rfl⟩ := List.getElem?_eq_some_iff.1 hu
    obtain rfl : i = 0 := by simpa using hi
    simpa using h
  rw [← List.singleton_append, wordsAt_append, h1]
  rfl

/-- The words depend on their own bytes only. -/
theorem WordsAt.congr (h : WordsAt m a ws) (hlen : 8 * ws.length ≤ 2 ^ w)
    (hm : ∀ x, Within x a (8 * ws.length) → m' x = m x) : WordsAt m' a ws := by
  intro i v hv
  obtain ⟨hi, -⟩ := List.getElem?_eq_some_iff.1 hv
  rw [← h i v hv]
  refine load64_congr fun x hx => hm x ?_
  rw [within_add_iff (by omega) (by omega)] at hx
  unfold Within
  omega

theorem WordsAt.store_of_apart (h : WordsAt m a ws) (hlen : 8 * ws.length ≤ 2 ^ w)
    (hab : Apart a (8 * ws.length) b 8) : WordsAt (store64 m b v) a ws :=
  h.congr hlen fun x hx => store64_of_not_within (hab x hx)

/-- Store the next word. -/
theorem WordsAt.store_next (h : WordsAt m a ws) (hw : 3 ≤ w)
    (hlen : 8 * (ws.length + 1) ≤ 2 ^ w) :
    WordsAt (store64 m (a + BitVec.ofNat w (8 * ws.length)) v) a (ws ++ [v]) := by
  have hap : Apart a (8 * ws.length) (a + BitVec.ofNat w (8 * ws.length)) 8 := by
    intro x hx hx'
    rw [within_add_iff (by omega) (by omega)] at hx'
    unfold Within at hx
    omega
  refine wordsAt_append.2 ⟨h.store_of_apart (by omega) hap, ?_⟩
  exact wordsAt_cons.2 ⟨load64_store64_self hw _ _ _, wordsAt_nil⟩

/-- Store one of the words again. -/
theorem WordsAt.set (h : WordsAt m a ws) (hw : 3 ≤ w) (hlen : 8 * ws.length ≤ 2 ^ w) {k : ℕ}
    (hk : k < ws.length) : WordsAt (store64 m (a + BitVec.ofNat w (8 * k)) v) a (ws.set k v) := by
  intro i u hu
  rw [List.getElem?_set] at hu
  split_ifs at hu with hik
  · obtain rfl : v = u := Option.some.inj hu
    rw [← hik, load64_store64_self hw]
  · obtain ⟨hi, -⟩ := List.getElem?_eq_some_iff.1 hu
    rw [load64_store64_of_apart, h i u hu]
    exact apart_add a (by omega) (by omega) (by omega)

/-- Store a word in front of the others. -/
theorem WordsAt.store_prev (h : WordsAt m a ws) (hw : 3 ≤ w)
    (hlen : 8 * (ws.length + 1) ≤ 2 ^ w) :
    WordsAt (store64 m (a - BitVec.ofNat w 8) v) (a - BitVec.ofNat w 8) (v :: ws) := by
  have ha : a - BitVec.ofNat w 8 + BitVec.ofNat w 8 = a := BitVec.sub_add_cancel _ _
  have hap : Apart (a - BitVec.ofNat w 8 + BitVec.ofNat w 8) (8 * ws.length)
      (a - BitVec.ofNat w 8 + BitVec.ofNat w 0) 8 :=
    apart_add _ (by omega) (by omega) (Or.inr (by omega))
  rw [ha] at hap
  refine wordsAt_cons.2 ⟨load64_store64_self hw _ _ _, ?_⟩
  rw [ha]
  exact h.store_of_apart (by omega) (by simpa using hap)

theorem readLE_congr_add {n : ℕ}
    (h : ∀ i < n, m' (b + BitVec.ofNat w i) = m (a + BitVec.ofNat w i)) :
    readLE m' b n = readLE m a n := by
  induction n generalizing a b with
  | zero => rfl
  | succ n ih =>
    have h0 : m' b = m a := by simpa using h 0 n.succ_pos
    have ht : ∀ i < n, m' (b + 1 + BitVec.ofNat w i) = m (a + 1 + BitVec.ofNat w i) := by
      intro i hi
      have := h (1 + i) (by omega)
      rwa [add_ofNat_add, add_ofNat_add] at this
    rw [readLE, readLE, h0, ih ht]

/-- `copy` between ranges that do not overlap copies the words. -/
theorem WordsAt.copy {dst : BitVec w} {n : ℕ} (h : WordsAt m a ws) (hn : 8 * ws.length ≤ n)
    (hw : n ≤ 2 ^ w) (hap : Apart dst n a n) : WordsAt (copy m dst a n) dst ws := by
  intro i v hv
  obtain ⟨hi, -⟩ := List.getElem?_eq_some_iff.1 hv
  rw [← h i v hv, load64, load64]
  refine congrArg (BitVec.ofNat 64) (readLE_congr_add fun j hj => ?_)
  rw [← add_ofNat_add, ← add_ofNat_add]
  exact copy_add hw hap (by omega)

theorem load64_fill_zero {n i : ℕ} (hi : i + 8 ≤ n) (hn : n ≤ 2 ^ w) :
    load64 (fill m a 0 n) (a + BitVec.ofNat w i) = 0 := by
  have h : ∀ k b, (∀ x, Within x b k → Within x a n) → readLE (fill m a 0 n) b k = 0 := by
    intro k
    induction k with
    | zero => exact fun b _ => rfl
    | succ k ih =>
      intro b hb
      have h0 : fill m a 0 n b = 0 := by
        rw [fill_apply, if_pos (hb b (within_self b k.succ_pos))]
      have ht : readLE (fill m a 0 n) (b + 1) k = 0 := ih (b + 1) fun x hx => by
        by_cases hxb : x = b
        · exact hxb ▸ hb b (within_self b k.succ_pos)
        · exact hb x (within_succ.2 (Or.inr ⟨hx, hxb⟩))
      rw [readLE, h0, ht]
      rfl
  rw [load64, h 8 _ fun x hx => ?_]
  · rfl
  · rw [within_add_iff (by omega) (by omega)] at hx
    unfold Within
    omega

/-- The words of a cleared block. -/
theorem wordsAt_fill_zero {n k : ℕ} (hk : 8 * k ≤ n) (hn : n ≤ 2 ^ w) :
    WordsAt (fill m a 0 n) a (List.replicate k 0) := by
  intro i v hv
  obtain ⟨hi, rfl⟩ := List.getElem?_eq_some_iff.1 hv
  rw [List.length_replicate] at hi
  rw [List.getElem_replicate]
  exact load64_fill_zero (by omega) hn

end ByteMemory
