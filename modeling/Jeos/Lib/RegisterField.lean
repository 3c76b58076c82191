import Mathlib.Tactic.Ring

/-!
# Numbers in register fields

A number stored in a field of `w` bits loses its high bits. Devices read such a field in one of
three ways : as it is, as one less than the number, or with 0 for `2 ^ w` (`zeroIsMax`). For each
way the lemmas say which numbers the device reads back.

`getByte` and `setByte` are one byte of a wider register, by shifts and masks.
-/

namespace RegisterField

variable {v w : ℕ}

/-- The number a field holds if 0 stands for `2 ^ w`. -/
def zeroIsMax (x : BitVec w) : ℕ := if x = 0 then 2 ^ w else x.toNat

/-- The number a field holds if it stores one less. -/
def minusOne (x : BitVec w) : ℕ := x.toNat + 1

theorem zeroIsMax_pos (x : BitVec w) : 0 < zeroIsMax x := by
  unfold zeroIsMax
  split
  next => exact Nat.two_pow_pos w
  next hx => exact Nat.pos_of_ne_zero fun h => hx (BitVec.eq_of_toNat_eq (by simpa using h))

theorem zeroIsMax_le (x : BitVec w) : zeroIsMax x ≤ 2 ^ w := by
  unfold zeroIsMax
  split
  next => exact le_rfl
  next => exact x.isLt.le

/-- A number comes back as it is from a field that it fits in. -/
theorem toNat_setWidth_eq_iff {x : BitVec v} : (x.setWidth w).toNat = x.toNat ↔ x.toNat < 2 ^ w := by
  rw [BitVec.toNat_setWidth]
  exact Nat.mod_eq_iff_lt (Nat.two_pow_pos w).ne'

theorem toNat_setWidth_ofNat (hw : w ≤ v) (n : ℕ) :
    ((BitVec.ofNat v n).setWidth w).toNat = n % 2 ^ w := by
  rw [BitVec.toNat_setWidth, BitVec.toNat_ofNat, Nat.mod_mod_of_dvd n (Nat.pow_dvd_pow 2 hw)]

/-- From a field whose 0 is `2 ^ w` the numbers from 1 to `2 ^ w` come back. -/
theorem zeroIsMax_ofNat_eq_iff (hw : w ≤ v) (n : ℕ) :
    zeroIsMax ((BitVec.ofNat v n).setWidth w) = n ↔ 0 < n ∧ n ≤ 2 ^ w := by
  constructor
  · intro h
    rw [← h]
    exact ⟨zeroIsMax_pos _, zeroIsMax_le _⟩
  · rintro ⟨hpos, hle⟩
    have hval := toNat_setWidth_ofNat hw n
    unfold zeroIsMax
    rcases hle.eq_or_lt with rfl | hlt
    · rw [if_pos (BitVec.eq_of_toNat_eq (by simpa using hval))]
    · rw [Nat.mod_eq_of_lt hlt] at hval
      rw [if_neg, hval]
      intro h0
      rw [h0] at hval
      exact hpos.ne hval

theorem zeroIsMax_setWidth_eq_iff (hw : w ≤ v) (x : BitVec v) :
    zeroIsMax (x.setWidth w) = x.toNat ↔ 0 < x.toNat ∧ x.toNat ≤ 2 ^ w := by
  have h := zeroIsMax_ofNat_eq_iff hw x.toNat
  rwa [BitVec.ofNat_toNat, BitVec.setWidth_eq] at h

/-- From a field that stores one less the numbers from 1 to `2 ^ w` come back. -/
theorem minusOne_ofNat_eq_iff (hw : w ≤ v) (n : ℕ) :
    minusOne ((BitVec.ofNat v n - 1).setWidth w) = n ↔ 0 < n ∧ n ≤ 2 ^ w := by
  constructor
  · intro h
    have hlt := ((BitVec.ofNat v n - 1).setWidth w).isLt
    rw [← h]
    exact ⟨Nat.succ_pos _, hlt⟩
  · rintro ⟨hpos, hle⟩
    obtain ⟨m, rfl⟩ := Nat.exists_eq_add_one.mpr hpos
    have hm : BitVec.ofNat v (m + 1) - 1 = BitVec.ofNat v m := by
      rw [BitVec.ofNat_add]
      exact BitVec.add_sub_cancel _ _
    rw [minusOne, hm, toNat_setWidth_ofNat hw, Nat.mod_eq_of_lt hle]

/-! ## Bytes of a register -/

/-- Byte `k` of a register. -/
def getByte (x : BitVec w) (k : ℕ) : BitVec 8 := (x >>> (8 * k)).setWidth 8

/-- The register with byte `k` replaced. -/
def setByte (x : BitVec w) (k : ℕ) (b : BitVec 8) : BitVec w :=
  (x &&& ~~~((255 : BitVec w) <<< (8 * k))) ||| (b.setWidth w <<< (8 * k))

theorem getLsbD_getByte (x : BitVec w) (k i : ℕ) :
    (getByte x k).getLsbD i = (decide (i < 8) && x.getLsbD (8 * k + i)) := by
  rw [getByte, BitVec.getLsbD_setWidth, BitVec.getLsbD_ushiftRight]

theorem getLsbD_setByte (x : BitVec w) (k : ℕ) (b : BitVec 8) (i : ℕ) :
    (setByte x k b).getLsbD i =
      if 8 * k ≤ i ∧ i < 8 * k + 8 then decide (i < w) && b.getLsbD (i - 8 * k)
      else x.getLsbD i := by
  have h255 : ∀ j, (255 : BitVec w).getLsbD j = (decide (j < w) && decide (j < 8)) := fun j => by
    have h := BitVec.getLsbD_ofNat w (2 ^ 8 - 1) j
    rwa [Nat.testBit_two_pow_sub_one] at h
  simp only [setByte, BitVec.getLsbD_or, BitVec.getLsbD_and, BitVec.getLsbD_not,
    BitVec.getLsbD_shiftLeft, BitVec.getLsbD_setWidth, h255]
  by_cases hw : i < w
  · by_cases hk : 8 * k ≤ i
    · by_cases hb : i < 8 * k + 8
      · simp [hw, hk, hb, show ¬i < 8 * k by omega, show i - 8 * k < w by omega,
          show i - 8 * k < 8 by omega]
      · have hge := BitVec.getLsbD_of_ge b (i - 8 * k) (by omega)
        simp [hw, hb, hge, show ¬i - 8 * k < 8 by omega]
    · simp [hw, hk, show i < 8 * k by omega]
  · simp [hw, BitVec.getLsbD_of_ge x i (by omega)]

theorem getByte_setByte_self (x : BitVec w) {k : ℕ} (hk : 8 * k + 8 ≤ w) (b : BitVec 8) :
    getByte (setByte x k b) k = b := by
  apply BitVec.eq_of_getLsbD_eq
  intro i hi
  rw [getLsbD_getByte, getLsbD_setByte, if_pos ⟨Nat.le_add_right _ _, by omega⟩]
  simp [hi, show 8 * k + i < w by omega]

theorem getByte_setByte_ne (x : BitVec w) {j k : ℕ} (hjk : j ≠ k) (b : BitVec 8) :
    getByte (setByte x k b) j = getByte x j := by
  apply BitVec.eq_of_getLsbD_eq
  intro i hi
  rw [getLsbD_getByte, getLsbD_getByte, getLsbD_setByte, if_neg (by omega)]

end RegisterField
