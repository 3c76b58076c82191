import Mathlib.Tactic.Linarith
import Mathlib.Tactic.Ring

/-!
# Rows and columns of a raster

The word at column `x` of row `y` of a raster with `pitch` words in a row has the index
`y * pitch + x`. Its row and its column are the quotient and the remainder of the index by `pitch`
(`row_index`, `column_index`), and a run of words within a row is a range of columns
(`mem_run_iff`).
-/

namespace Raster

variable {pitch x y i n : ℕ}

/-- The index of the word at column `x` of row `y`. -/
def index (pitch x y : ℕ) : ℕ := y * pitch + x

@[simp] theorem column_index (hx : x < pitch) (y : ℕ) : index pitch x y % pitch = x := by
  rw [index, Nat.add_comm, Nat.add_mul_mod_self_right, Nat.mod_eq_of_lt hx]

@[simp] theorem row_index (hx : x < pitch) (y : ℕ) : index pitch x y / pitch = y := by
  rw [index, Nat.add_comm, Nat.add_mul_div_right _ _ (by omega), Nat.div_eq_of_lt hx, Nat.zero_add]

theorem index_column_row (pitch i : ℕ) : index pitch (i % pitch) (i / pitch) = i := by
  rw [index, Nat.mul_comm]
  exact Nat.div_add_mod i pitch

/-- The words from column `x` of row `y` on that are still in this row. -/
theorem mem_run_iff (hn : x + n ≤ pitch) :
    index pitch x y ≤ i ∧ i < index pitch x y + n ↔
      i / pitch = y ∧ x ≤ i % pitch ∧ i % pitch < x + n := by
  have hi := index_column_row pitch i
  unfold index at *
  constructor
  · rintro ⟨hle, hlt⟩
    have hy : i / pitch = y := Nat.div_eq_of_lt_le (by omega) (by rw [Nat.add_mul]; omega)
    rw [hy] at hi
    exact ⟨hy, by omega, by omega⟩
  · rintro ⟨rfl, h1, h2⟩
    exact ⟨by omega, by omega⟩

/-- The place of a word in such a run. -/
theorem sub_index (hy : i / pitch = y) : i - index pitch x y = i % pitch - x := by
  have hi := index_column_row pitch i
  unfold index at *
  rw [hy] at hi
  omega

/-- Going down some rows keeps the column. -/
theorem column_add_rows (i k pitch : ℕ) : (i + k * pitch) % pitch = i % pitch :=
  Nat.add_mul_mod_self_right i k pitch

theorem row_add_rows (hp : 0 < pitch) (i k : ℕ) : (i + k * pitch) / pitch = i / pitch + k :=
  Nat.add_mul_div_right i k hp

/-- The words of the first rows are the first words. -/
theorem lt_of_row_lt (hp : 0 < pitch) (h : i / pitch < n) : i < n * pitch :=
  (Nat.div_lt_iff_lt_mul hp).mp h

end Raster
