import Mathlib.Data.Fintype.Card

/-!
# Tables of references

A table has finitely many slots, each empty or holding a reference. `refs T a` counts
the slots of `T` that hold `a`, which is what a reference count of `a` must be. Filling
an empty slot and clearing a full one change it by one (`refs_set`, `refs_clear`).
-/

namespace SlotTable

variable {ι α : Type*} [Fintype ι] [DecidableEq α]

/-- The number of slots that hold `a`. -/
def refs (T : ι → Option α) (a : α) : ℕ := (Finset.univ.filter fun i => T i = some a).card

variable {T : ι → Option α} {i : ι} {a b : α}

theorem refs_pos : 0 < refs T a ↔ ∃ i, T i = some a := by
  simp [refs, Finset.card_pos, Finset.filter_nonempty_iff]

theorem refs_le (T : ι → Option α) (a : α) : refs T a ≤ Fintype.card ι := Finset.card_le_univ _

variable [DecidableEq ι]

/-- A reference put in an empty slot counts once more. -/
theorem refs_set (h : T i = none) (a b : α) :
    refs (Function.update T i (some a)) b = refs T b + if b = a then 1 else 0 := by
  have hi : i ∉ Finset.univ.filter fun j => T j = some b := by simp [h]
  split_ifs with hb
  · have he : (Finset.univ.filter fun j => Function.update T i (some a) j = some b) =
        insert i (Finset.univ.filter fun j => T j = some b) := by
      ext j
      by_cases hj : j = i
      · simp [hj, hb]
      · simp [hj]
    rw [refs, he, Finset.card_insert_of_notMem hi, refs]
  · have he : (Finset.univ.filter fun j => Function.update T i (some a) j = some b) =
        Finset.univ.filter fun j => T j = some b := by
      ext j
      by_cases hj : j = i
      · simp [hj, h, Ne.symm hb]
      · simp [hj]
    rw [refs, he, refs, Nat.add_zero]

/-- A cleared slot gives its reference back. -/
theorem refs_clear (h : T i = some a) (b : α) :
    refs (Function.update T i none) b + (if b = a then 1 else 0) = refs T b := by
  have h0 : Function.update T i none i = none := Function.update_self i none T
  rw [← refs_set h0 a b, Function.update_idem, ← h, Function.update_eq_self]

end SlotTable
