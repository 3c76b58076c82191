import Mathlib.Data.Nat.Bitwise
import Jeos.Lib.ByteMemory
import Jeos.Lib.StructLayout

/-!
# Integers, memory and pages

The fixed-width integers of `types.h` are bit vectors, so that every addition and
shift wraps as in the C code. The memory is one byte per 64-bit virtual address.
A page number is the address divided by the page size.
-/

namespace Jeos

abbrev U8 := BitVec 8
abbrev U16 := BitVec 16
abbrev U32 := BitVec 32
abbrev U64 := BitVec 64

/-- The memory as the kernel sees it through its page tables. -/
abbrev Mem := ByteMemory.Memory 64

/-- `PAGE_SIZE`. -/
def pageSize : U64 := 4096

/-- `PAGE_FRAME_MASK`, which is also `~(PAGE_SIZE - 1)`. -/
def pageFrameMask : U64 := ~~~(pageSize - 1)

/-- The number of the page an address lies in. -/
def pageOf (a : U64) : ℕ := a.toNat / 4096

/-- The address is the first of a page. -/
def PageAligned (a : U64) : Prop := 4096 ∣ a.toNat

instance (a : U64) : Decidable (PageAligned a) := inferInstanceAs (Decidable (4096 ∣ a.toNat))

/-- The address of field `k` of a structure at `p`. -/
def fieldAddr (fs : List CType) (p : U64) (k : ℕ) : U64 := p + BitVec.ofNat 64 (CType.offset fs k)

@[simp] theorem pageSize_toNat : pageSize.toNat = 4096 := rfl

theorem PageAligned.toNat_eq {a : U64} (h : PageAligned a) : a.toNat = pageOf a * 4096 :=
  (Nat.div_mul_cancel h).symm

theorem eq_of_pageOf_eq {a b : U64} (ha : PageAligned a) (hb : PageAligned b)
    (h : pageOf a = pageOf b) : a = b :=
  BitVec.eq_of_toNat_eq (by rw [ha.toNat_eq, hb.toNat_eq, h])

theorem getElem_pageFrameMask {i : ℕ} (hi : i < 64) :
    pageFrameMask[i] = !decide (i < 12) := by
  have h : pageSize - 1 = BitVec.ofNat 64 (2 ^ 12 - 1) := rfl
  rw [pageFrameMask, BitVec.getElem_not, h, ← BitVec.getLsbD_eq_getElem, BitVec.getLsbD_ofNat,
    Nat.testBit_two_pow_sub_one]
  simp [hi]

/-- Masking an address gives the start of its page. -/
theorem and_pageFrameMask_toNat (a : U64) : (a &&& pageFrameMask).toNat = pageOf a * 4096 := by
  have h : a &&& pageFrameMask = (a >>> 12) <<< 12 := by
    ext i hi
    rw [BitVec.getElem_and, getElem_pageFrameMask hi, BitVec.getElem_shiftLeft]
    by_cases h12 : i < 12
    · simp [h12]
    · simp [h12, BitVec.getLsbD_eq_getElem hi, show 12 + (i - 12) = i by omega]
  have ha := a.isLt
  rw [h, BitVec.toNat_shiftLeft, BitVec.toNat_ushiftRight, Nat.shiftRight_eq_div_pow,
    Nat.shiftLeft_eq, pageOf]
  omega

/-- Clearing the low four bits of an address. -/
theorem and_not_fifteen_toNat (a : U64) : (a &&& ~~~15).toNat = a.toNat / 16 * 16 := by
  have h15 : ∀ i (hi : i < 64), (~~~(15 : U64))[i] = !decide (i < 4) := by decide
  have h : a &&& (~~~15 : U64) = (a >>> 4) <<< 4 := by
    ext i hi
    rw [BitVec.getElem_and, h15 i hi, BitVec.getElem_shiftLeft]
    by_cases h4 : i < 4
    · simp [h4]
    · simp [h4, BitVec.getLsbD_eq_getElem hi, show 4 + (i - 4) = i by omega]
  have ha := a.isLt
  rw [h, BitVec.toNat_shiftLeft, BitVec.toNat_ushiftRight, Nat.shiftRight_eq_div_pow,
    Nat.shiftLeft_eq]
  omega

/-- `pageSize << o` for the orders of the allocator. -/
theorem pageSize_shiftLeft_toNat {o : ℕ} (ho : o ≤ 11) :
    (pageSize <<< o).toNat = 4096 * 2 ^ o := by
  have h : 2 ^ o ≤ 2 ^ 11 := Nat.pow_le_pow_right (by norm_num) ho
  rw [BitVec.toNat_shiftLeft, pageSize_toNat, Nat.shiftLeft_eq, Nat.mod_eq_of_lt (by omega)]

end Jeos
