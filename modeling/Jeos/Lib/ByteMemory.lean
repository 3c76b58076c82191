import Mathlib.Algebra.Order.Ring.Nat
import Mathlib.Logic.Function.Basic
import Mathlib.Tactic.NormNum

/-!
# A byte memory

A memory maps every `w`-bit address to a byte, and addresses wrap at `2 ^ w`. A
byte range is a start `a` and a length `n`; `x` is in it (`Within`) when the
distance `x - a` is less than `n`, so a range may wrap as well.

`readLE` and `writeLE` are the little-endian accesses of `n` bytes, `fill` is `memset` and
`copy` the byte loop of `memcpy`. Each operation has two
lemmas: what it leaves in its own range, and that the bytes outside keep their
value. `Apart` ranges share no byte, and an access to one does not see a write
to the other.
-/

namespace ByteMemory

variable {w : ℕ}

/-- One byte at every `w`-bit address. -/
abbrev Memory (w : ℕ) := BitVec w → BitVec 8

/-! ## Ranges -/

/-- `x` is one of the `n` bytes from `a` on. -/
def Within (x a : BitVec w) (n : ℕ) : Prop := (x - a).toNat < n

instance (x a : BitVec w) (n : ℕ) : Decidable (Within x a n) :=
  inferInstanceAs (Decidable ((x - a).toNat < n))

/-- The `n` bytes from `a` and the `k` bytes from `b` have none in common. -/
def Apart (a : BitVec w) (n : ℕ) (b : BitVec w) (k : ℕ) : Prop :=
  ∀ x, Within x a n → ¬Within x b k

theorem Apart.symm {a b : BitVec w} {n k : ℕ} (h : Apart a n b k) : Apart b k a n :=
  fun x hb ha => h x ha hb

theorem Apart.mono {a b : BitVec w} {n n' k k' : ℕ} (h : Apart a n b k) (hn : n' ≤ n)
    (hk : k' ≤ k) : Apart a n' b k' :=
  fun x ha hb => h x (lt_of_lt_of_le ha hn) (lt_of_lt_of_le hb hk)

theorem Apart.mono_left {a b c : BitVec w} {n k l : ℕ} (h : Apart a n b k)
    (hc : ∀ x, Within x c l → Within x a n) : Apart c l b k :=
  fun x hx => h x (hc x hx)

theorem not_within_zero (x a : BitVec w) : ¬Within x a 0 := Nat.not_lt_zero _

theorem within_self (a : BitVec w) {n : ℕ} (hn : 0 < n) : Within a a n := by
  simpa [Within] using hn

/-- The distance from `a` of the byte `i` places after `a`. -/
theorem toNat_add_sub_self (a : BitVec w) {i : ℕ} (hi : i < 2 ^ w) :
    (a + BitVec.ofNat w i - a).toNat = i := by
  have h : a + BitVec.ofNat w i - a = BitVec.ofNat w i := by
    rw [BitVec.add_comm, BitVec.add_sub_cancel]
  rw [h, BitVec.toNat_ofNat, Nat.mod_eq_of_lt hi]

theorem within_add (a : BitVec w) {i n : ℕ} (hi : i < n) (hn : n ≤ 2 ^ w) :
    Within (a + BitVec.ofNat w i) a n := by
  rw [Within, toNat_add_sub_self a (by omega)]
  exact hi

/-- A range that does not wrap is an interval. -/
theorem within_iff {x a : BitVec w} {n : ℕ} (h : a.toNat + n ≤ 2 ^ w) :
    Within x a n ↔ a.toNat ≤ x.toNat ∧ x.toNat < a.toNat + n := by
  have hx := x.isLt
  have ha := a.isLt
  rw [Within, BitVec.toNat_sub]
  rcases Nat.lt_or_ge x.toNat a.toNat with hlt | hge
  · rw [Nat.mod_eq_of_lt (by omega)]
    omega
  · have e : 2 ^ w - a.toNat + x.toNat = 2 ^ w + (x.toNat - a.toNat) := by omega
    rw [e, Nat.add_mod_left, Nat.mod_eq_of_lt (by omega)]
    omega

/-- Ranges that do not wrap are apart if one ends before the other starts. -/
theorem apart_of_le {a b : BitVec w} {n k : ℕ} (ha : a.toNat + n ≤ 2 ^ w)
    (hb : b.toNat + k ≤ 2 ^ w) (h : a.toNat + n ≤ b.toNat ∨ b.toNat + k ≤ a.toNat) :
    Apart a n b k := fun x hxa hxb => by
  rw [within_iff ha] at hxa
  rw [within_iff hb] at hxb
  omega

/-- The bytes from offset `i` on, by their distance from the base. -/
theorem within_add_iff {x a : BitVec w} {i n : ℕ} (h : i + n ≤ 2 ^ w) (hn : 0 < n) :
    Within x (a + BitVec.ofNat w i) n ↔ i ≤ (x - a).toNat ∧ (x - a).toNat < i + n := by
  have hi : (BitVec.ofNat w i).toNat = i := by
    rw [BitVec.toNat_ofNat, Nat.mod_eq_of_lt (by omega)]
  have he : x - (a + BitVec.ofNat w i) = x - a - BitVec.ofNat w i := by
    rw [BitVec.sub_eq_add_neg, BitVec.neg_add, BitVec.sub_eq_add_neg, BitVec.sub_eq_add_neg,
      BitVec.sub_eq_add_neg, BitVec.add_assoc]
  have := within_iff (x := x - a) (a := BitVec.ofNat w i) (n := n) (by omega)
  rwa [hi, Within, ← he] at this

/-- A byte and a range at offsets of one base. -/
theorem within_add_add (a : BitVec w) {k i n : ℕ} (hk : k < 2 ^ w) (hi : i + n ≤ 2 ^ w) (hn : 0 < n) :
    Within (a + BitVec.ofNat w k) (a + BitVec.ofNat w i) n ↔ i ≤ k ∧ k < i + n := by
  rw [within_add_iff hi hn, toNat_add_sub_self a hk]

/-- A part of a range. -/
theorem Within.of_add {x a : BitVec w} {i k n : ℕ} (h : Within x (a + BitVec.ofNat w i) k)
    (hik : i + k ≤ n) (hn : n ≤ 2 ^ w) : Within x a n := by
  rcases Nat.eq_zero_or_pos k with rfl | hk
  · exact absurd h (not_within_zero _ _)
  rw [within_add_iff (by omega) hk] at h
  unfold Within
  omega

/-- A range behind the first `i` bytes. -/
theorem Within.behind {x a : BitVec w} {i k : ℕ} (h : Within x (a + BitVec.ofNat w i) k)
    (hik : i + k ≤ 2 ^ w) : Within x a (i + k) ∧ ¬Within x a i := by
  refine ⟨h.of_add (Nat.le_refl _) hik, fun hx => ?_⟩
  rcases Nat.eq_zero_or_pos k with rfl | hk
  · exact not_within_zero _ _ h
  · exact absurd hx (Nat.not_lt.2 ((within_add_iff hik hk).1 h).1)

/-- Parts of ranges that do not overlap do not overlap. -/
theorem Apart.add {a b : BitVec w} {n k i n' j k' : ℕ} (h : Apart a n b k) (hi : i + n' ≤ n)
    (hj : j + k' ≤ k) (hn : n ≤ 2 ^ w) (hk : k ≤ 2 ^ w) :
    Apart (a + BitVec.ofNat w i) n' (b + BitVec.ofNat w j) k' :=
  fun x hx hx' => h x (hx.of_add hi hn) (hx'.of_add hj hk)

/-- Ranges at different offsets of one base do not overlap. -/
theorem apart_add (a : BitVec w) {i n j k : ℕ} (hi : i + n ≤ 2 ^ w) (hj : j + k ≤ 2 ^ w)
    (h : i + n ≤ j ∨ j + k ≤ i) : Apart (a + BitVec.ofNat w i) n (a + BitVec.ofNat w j) k := by
  intro x hx hx'
  rcases Nat.eq_zero_or_pos n with rfl | hn
  · exact not_within_zero _ _ hx
  rcases Nat.eq_zero_or_pos k with rfl | hk
  · exact not_within_zero _ _ hx'
  rw [within_add_iff hi hn] at hx
  rw [within_add_iff hj hk] at hx'
  omega

theorem toNat_one (hw : 0 < w) : (1 : BitVec w).toNat = 1 := BitVec.toNat_one hw

/-- The bytes after the first: one byte less far from the next address. -/
theorem sub_succ_toNat {x a : BitVec w} (h : x ≠ a) :
    (x - (a + 1)).toNat + 1 = (x - a).toNat := by
  have hw : 0 < w := by
    rcases Nat.eq_zero_or_pos w with rfl | hw
    · exact absurd (Subsingleton.elim x a) h
    · exact hw
  have h2 : 1 < 2 ^ w := Nat.one_lt_two_pow hw.ne'
  have hne : x.toNat ≠ a.toNat := fun e => h (BitVec.eq_of_toNat_eq e)
  have hx := x.isLt
  have ha := a.isLt
  simp only [BitVec.toNat_sub, BitVec.toNat_add, toNat_one hw]
  rcases Nat.lt_or_ge (a.toNat + 1) (2 ^ w) with hs | hs
  · rw [Nat.mod_eq_of_lt hs]
    rcases Nat.lt_or_gt_of_ne hne with hlt | hgt
    · rw [Nat.mod_eq_of_lt (by omega), Nat.mod_eq_of_lt (by omega)]
      omega
    · have e1 : 2 ^ w - (a.toNat + 1) + x.toNat = 2 ^ w + (x.toNat - a.toNat - 1) := by omega
      have e2 : 2 ^ w - a.toNat + x.toNat = 2 ^ w + (x.toNat - a.toNat) := by omega
      rw [e1, e2, Nat.add_mod_left, Nat.add_mod_left, Nat.mod_eq_of_lt (by omega),
        Nat.mod_eq_of_lt (by omega)]
      omega
  · have e : a.toNat + 1 = 2 ^ w := by omega
    rw [e, Nat.mod_self, Nat.sub_zero, Nat.add_mod_left, Nat.mod_eq_of_lt hx,
      Nat.mod_eq_of_lt (by omega)]
    omega

theorem within_succ {x a : BitVec w} {n : ℕ} :
    Within x a (n + 1) ↔ x = a ∨ Within x (a + 1) n ∧ x ≠ a := by
  by_cases h : x = a
  · simp [h, Within]
  · have := sub_succ_toNat h
    simp only [Within, h, false_or, ne_eq, not_false_eq_true, and_true]
    omega

/-- A range shorter than the memory does not come back to its start. -/
theorem not_within_next (a : BitVec w) {n : ℕ} (hn : n < 2 ^ w) : ¬Within a (a + 1) n := by
  have e : a - (a + 1) = -(1 : BitVec w) := by
    rw [BitVec.sub_eq_add_neg, BitVec.neg_add, BitVec.sub_eq_add_neg, ← BitVec.add_assoc,
      BitVec.add_right_neg, BitVec.zero_add]
  rw [Within, e, BitVec.toNat_neg]
  rcases Nat.eq_zero_or_pos w with rfl | hw
  · omega
  · have : 1 < 2 ^ w := Nat.one_lt_two_pow hw.ne'
    rw [toNat_one hw, Nat.mod_eq_of_lt (by omega)]
    omega

/-! ## Little-endian words -/

/-- The number in the `n` bytes from `a`, least significant byte first. -/
def readLE (m : Memory w) (a : BitVec w) : ℕ → ℕ
  | 0 => 0
  | n + 1 => (m a).toNat + 256 * readLE m (a + 1) n

/-- Write `v` modulo `256 ^ n` into the `n` bytes from `a`. -/
def writeLE (m : Memory w) (a : BitVec w) : ℕ → ℕ → Memory w
  | 0, _ => m
  | n + 1, v => writeLE (Function.update m a (BitVec.ofNat 8 v)) (a + 1) n (v / 256)

theorem readLE_lt (m : Memory w) : ∀ (n : ℕ) (a : BitVec w), readLE m a n < 256 ^ n
  | 0, _ => by simp [readLE]
  | n + 1, a => by
    have h1 := (m a).isLt
    have h2 := readLE_lt m n (a + 1)
    rw [readLE, pow_succ]
    omega

theorem readLE_congr {m m' : Memory w} : ∀ {n : ℕ} {a : BitVec w},
    (∀ x, Within x a n → m x = m' x) → readLE m a n = readLE m' a n
  | 0, _, _ => rfl
  | n + 1, a, h => by
    have h0 : m a = m' a := h a (within_self a n.succ_pos)
    have ht : readLE m (a + 1) n = readLE m' (a + 1) n := readLE_congr fun x hx => by
      by_cases hxa : x = a
      · rw [hxa, h0]
      · exact h x (within_succ.2 (Or.inr ⟨hx, hxa⟩))
    rw [readLE, readLE, h0, ht]

/-- The bytes from `a` are the first `j` and those behind them. -/
theorem readLE_add (m : Memory w) : ∀ (j k : ℕ) (a : BitVec w),
    readLE m a (j + k) = readLE m a j + 256 ^ j * readLE m (a + BitVec.ofNat w j) k
  | 0, k, a => by simp [readLE]
  | j + 1, k, a => by
    have ha : a + 1 + BitVec.ofNat w j = a + BitVec.ofNat w (j + 1) := by
      rw [BitVec.add_assoc, Nat.add_comm j 1, BitVec.ofNat_add]
      rfl
    rw [Nat.add_right_comm, readLE, readLE, readLE_add m j k (a + 1), ha, pow_succ', Nat.mul_add,
      Nat.mul_assoc, Nat.add_assoc]

/-- A write leaves the bytes outside its range. -/
theorem writeLE_of_not_within : ∀ {n : ℕ} {m : Memory w} {a x : BitVec w} {v : ℕ},
    ¬Within x a n → writeLE m a n v x = m x
  | 0, _, _, _, _, _ => rfl
  | n + 1, m, a, x, v, h => by
    rw [within_succ, not_or, not_and_not_right] at h
    rw [writeLE, writeLE_of_not_within fun hx => h.1 (h.2 hx), Function.update_of_ne h.1]

theorem readLE_writeLE_of_apart {m : Memory w} {a b : BitVec w} {n k v : ℕ}
    (h : Apart a n b k) : readLE (writeLE m b k v) a n = readLE m a n :=
  readLE_congr fun x hx => writeLE_of_not_within (h x hx)

/-- Reading back a write gives what fits. -/
theorem readLE_writeLE_self : ∀ {n : ℕ} (m : Memory w) (a : BitVec w) (v : ℕ), n ≤ 2 ^ w →
    readLE (writeLE m a n v) a n = v % 256 ^ n
  | 0, _, _, v, _ => by simp [readLE, Nat.mod_one]
  | n + 1, m, a, v, hn => by
    have hm : v % 256 ^ (n + 1) = v % 256 + 256 * (v / 256 % 256 ^ n) := by
      rw [pow_succ', Nat.mod_mul]
    rw [writeLE, readLE, readLE_writeLE_self _ _ _ (by omega),
      writeLE_of_not_within (not_within_next a hn), Function.update_self, BitVec.toNat_ofNat, hm]

/-- The 64-bit word at `a`. -/
@[irreducible] def load64 (m : Memory w) (a : BitVec w) : BitVec 64 :=
  BitVec.ofNat 64 (readLE m a 8)

/-- Store the 64-bit word `v` at `a`. -/
@[irreducible] def store64 (m : Memory w) (a : BitVec w) (v : BitVec 64) : Memory w :=
  writeLE m a 8 v.toNat

/-- The 32-bit word at `a`. -/
@[irreducible] def load32 (m : Memory w) (a : BitVec w) : BitVec 32 :=
  BitVec.ofNat 32 (readLE m a 4)

/-- The 16-bit word at `a`. -/
@[irreducible] def load16 (m : Memory w) (a : BitVec w) : BitVec 16 :=
  BitVec.ofNat 16 (readLE m a 2)

/-- Store the 16-bit word `v` at `a`. -/
@[irreducible] def store16 (m : Memory w) (a : BitVec w) (v : BitVec 16) : Memory w :=
  writeLE m a 2 v.toNat

/-- Store the 32-bit word `v` at `a`. -/
@[irreducible] def store32 (m : Memory w) (a : BitVec w) (v : BitVec 32) : Memory w :=
  writeLE m a 4 v.toNat

theorem load64_congr {m m' : Memory w} {a : BitVec w} (h : ∀ x, Within x a 8 → m x = m' x) :
    load64 m a = load64 m' a := by
  rw [load64, load64, readLE_congr h]

theorem load32_congr {m m' : Memory w} {a : BitVec w} (h : ∀ x, Within x a 4 → m x = m' x) :
    load32 m a = load32 m' a := by
  rw [load32, load32, readLE_congr h]

/-- A word below 256 has a 0 in its second byte. -/
theorem load16_high {m : Memory w} {a : BitVec w} (h : (load16 m a).toNat < 256) : m (a + 1) = 0 := by
  simp only [load16, readLE, BitVec.toNat_ofNat] at h
  generalize m (a + 1) = c at h ⊢
  bv_omega

theorem load16_congr {m m' : Memory w} {a : BitVec w} (h : ∀ x, Within x a 2 → m x = m' x) :
    load16 m a = load16 m' a := by
  rw [load16, load16, readLE_congr h]

/-- A 64-bit word is its two halves. -/
theorem load64_eq_append (m : Memory w) (a : BitVec w) :
    load64 m a = load32 m (a + BitVec.ofNat w 4) ++ load32 m a := by
  have hlo : readLE m a 4 < 2 ^ 32 := readLE_lt m 4 a
  have hhi : readLE m (a + BitVec.ofNat w 4) 4 < 2 ^ 32 := readLE_lt m 4 _
  refine BitVec.eq_of_toNat_eq ?_
  rw [load64, load32, load32, readLE_add m 4 4, BitVec.toNat_append, BitVec.toNat_ofNat,
    BitVec.toNat_ofNat, BitVec.toNat_ofNat, Nat.mod_eq_of_lt (by omega), Nat.mod_eq_of_lt hlo,
    Nat.mod_eq_of_lt hhi, ← Nat.shiftLeft_add_eq_or_of_lt hlo, Nat.shiftLeft_eq]
  omega

theorem load64_store64_self (hw : 3 ≤ w) (m : Memory w) (a : BitVec w) (v : BitVec 64) :
    load64 (store64 m a v) a = v := by
  have h8 : 8 ≤ 2 ^ w := Nat.pow_le_pow_right (n := 2) (by norm_num) hw
  have hv : v.toNat % 256 ^ 8 = v.toNat := Nat.mod_eq_of_lt (by simpa using v.isLt)
  rw [load64, store64, readLE_writeLE_self _ _ _ h8, hv, BitVec.ofNat_toNat, BitVec.setWidth_eq]

theorem load32_store32_self (hw : 2 ≤ w) (m : Memory w) (a : BitVec w) (v : BitVec 32) :
    load32 (store32 m a v) a = v := by
  have h4 : 4 ≤ 2 ^ w := Nat.pow_le_pow_right (n := 2) (by norm_num) hw
  have hv : v.toNat % 256 ^ 4 = v.toNat := Nat.mod_eq_of_lt (by simpa using v.isLt)
  rw [load32, store32, readLE_writeLE_self _ _ _ h4, hv, BitVec.ofNat_toNat, BitVec.setWidth_eq]

theorem load16_store16_self (hw : 1 ≤ w) (m : Memory w) (a : BitVec w) (v : BitVec 16) :
    load16 (store16 m a v) a = v := by
  have h2 : 2 ≤ 2 ^ w := Nat.pow_le_pow_right (n := 2) (by norm_num) hw
  have hv : v.toNat % 256 ^ 2 = v.toNat := Nat.mod_eq_of_lt (by simpa using v.isLt)
  rw [load16, store16, readLE_writeLE_self _ _ _ h2, hv, BitVec.ofNat_toNat, BitVec.setWidth_eq]

theorem load64_store64_of_apart {m : Memory w} {a b : BitVec w} {v : BitVec 64}
    (h : Apart a 8 b 8) : load64 (store64 m b v) a = load64 m a := by
  rw [load64, store64, readLE_writeLE_of_apart h, load64]

theorem load32_store32_of_apart {m : Memory w} {a b : BitVec w} {v : BitVec 32}
    (h : Apart a 4 b 4) : load32 (store32 m b v) a = load32 m a := by
  rw [load32, store32, readLE_writeLE_of_apart h, load32]

/-- A write that changes a word changes one of its bytes. -/
theorem exists_ne_of_load32_ne {m m' : Memory w} {a : BitVec w} (h : load32 m' a ≠ load32 m a) :
    ∃ x, Within x a 4 ∧ m' x ≠ m x := by
  by_contra hc
  push Not at hc
  exact h (load32_congr hc)

theorem store64_of_not_within {m : Memory w} {a x : BitVec w} {v : BitVec 64}
    (h : ¬Within x a 8) : store64 m a v x = m x := by
  rw [store64, writeLE_of_not_within h]

theorem store32_of_not_within {m : Memory w} {a x : BitVec w} {v : BitVec 32}
    (h : ¬Within x a 4) : store32 m a v x = m x := by
  rw [store32, writeLE_of_not_within h]

theorem store16_of_not_within {m : Memory w} {a x : BitVec w} {v : BitVec 16}
    (h : ¬Within x a 2) : store16 m a v x = m x := by
  rw [store16, writeLE_of_not_within h]

/-! ## Blocks of bytes -/

/-- `memset` : store `c` in the `n` bytes from `a`. -/
def fill (m : Memory w) (a : BitVec w) (c : BitVec 8) (n : ℕ) : Memory w :=
  fun x => if Within x a n then c else m x

theorem fill_apply (m : Memory w) (a : BitVec w) (c : BitVec 8) (x : BitVec w) (n : ℕ) :
    fill m a c n x = if Within x a n then c else m x := rfl

theorem fill_of_not_within {m : Memory w} {a x : BitVec w} {c : BitVec 8} {n : ℕ}
    (h : ¬Within x a n) : fill m a c n x = m x := by
  rw [fill_apply, if_neg h]

/-- `memcpy` : copy the `n` bytes from `src` to `dst`, lowest first. -/
def copy (m : Memory w) (dst src : BitVec w) : ℕ → Memory w
  | 0 => m
  | n + 1 =>
    Function.update (copy m dst src n) (dst + BitVec.ofNat w n)
      (copy m dst src n (src + BitVec.ofNat w n))

theorem copy_of_not_within {m : Memory w} {dst src x : BitVec w} :
    ∀ {n : ℕ}, n ≤ 2 ^ w → ¬Within x dst n → copy m dst src n x = m x
  | 0, _, _ => rfl
  | n + 1, hn, h => by
    have hx : x ≠ dst + BitVec.ofNat w n := fun e => h (e ▸ within_add dst n.lt_succ_self hn)
    rw [copy, Function.update_of_ne hx]
    exact copy_of_not_within (by omega) fun h' => h (lt_of_lt_of_le h' n.le_succ)

/-- `memcpy` of the given bytes to `a`. -/
def writeBytes (m : Memory w) (a : BitVec w) (bs : List (BitVec 8)) : Memory w :=
  fun x => bs[(x - a).toNat]?.getD (m x)

theorem writeBytes_of_not_within {m : Memory w} {a x : BitVec w} {bs : List (BitVec 8)}
    (h : ¬Within x a bs.length) : writeBytes m a bs x = m x := by
  rw [writeBytes, List.getElem?_eq_none (Nat.le_of_not_lt h), Option.getD_none]

theorem writeBytes_add {m : Memory w} {a : BitVec w} {bs : List (BitVec 8)} {i : ℕ}
    {c : BitVec 8} (hi : i < 2 ^ w) (h : bs[i]? = some c) :
    writeBytes m a bs (a + BitVec.ofNat w i) = c := by
  rw [writeBytes, toNat_add_sub_self a hi, h, Option.getD_some]

/-- `memcpy` from another memory : the `n` bytes from `off` of `src` to `dst`. -/
def paste (m : Memory w) (dst : BitVec w) (src : Memory w) (off : BitVec w) (n : ℕ) : Memory w :=
  fun x => if Within x dst n then src (off + (x - dst)) else m x

theorem paste_of_not_within {m src : Memory w} {dst off x : BitVec w} {n : ℕ}
    (h : ¬Within x dst n) : paste m dst src off n x = m x := if_neg h

theorem paste_add {m src : Memory w} {dst off : BitVec w} {i n : ℕ} (hi : i < n) (hn : n ≤ 2 ^ w) :
    paste m dst src off n (dst + BitVec.ofNat w i) = src (off + BitVec.ofNat w i) := by
  rw [paste, if_pos (within_add dst hi hn), BitVec.add_comm dst, BitVec.add_sub_cancel]

/-- Copying between ranges that do not overlap moves byte `i` to byte `i`. -/
theorem copy_add {m : Memory w} {dst src : BitVec w} :
    ∀ {n i : ℕ}, n ≤ 2 ^ w → Apart dst n src n → i < n →
      copy m dst src n (dst + BitVec.ofNat w i) = m (src + BitVec.ofNat w i)
  | n + 1, i, hn, ha, hi => by
    rcases Nat.lt_succ_iff_lt_or_eq.1 hi with hi' | rfl
    · have hne : dst + BitVec.ofNat w i ≠ dst + BitVec.ofNat w n := fun e => by
        have h := congrArg (fun y => (y - dst).toNat) e
        simp only [toNat_add_sub_self dst (show i < 2 ^ w by omega),
          toNat_add_sub_self dst (show n < 2 ^ w by omega)] at h
        omega
      rw [copy, Function.update_of_ne hne]
      exact copy_add (by omega) (ha.mono n.le_succ n.le_succ) hi'
    · rw [copy, Function.update_self]
      refine copy_of_not_within (by omega) fun h => ?_
      exact ha _ (lt_of_lt_of_le h i.le_succ) (within_add src i.lt_succ_self hn)

end ByteMemory
