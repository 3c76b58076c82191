import Mathlib.Data.List.Induction
import Mathlib.Tactic.Common

/-!
# Overwriting part of an array

`splice D off n f` is the array `D` with `f` in the `n` places from `off` on. A device that is only
written in larger units is overwritten by reading the units around a range, changing the range in
the copy and writing the copy back : that is the splice of the range (`splice_splice`), and what is
left outside the range depends on the copy alone (`splice_keeps_iff`, `splice_gives_iff`).

After a list of patches every place has what the last patch that covers it put there
(`applyAll_eq`).
-/

namespace Splice

variable {β : Type*} {D : ℕ → β} {f g : ℕ → β} {a d n m x i : ℕ}

/-- `x` is one of the `n` places from `off` on. -/
def Inside (off n x : ℕ) : Prop := off ≤ x ∧ x < off + n

instance (off n x : ℕ) : Decidable (Inside off n x) := inferInstanceAs (Decidable (_ ∧ _))

theorem inside_add_iff : Inside a n (a + i) ↔ i < n := by
  unfold Inside
  omega

theorem inside_add_add_iff : Inside (a + d) n (a + i) ↔ Inside d n i := by
  unfold Inside
  omega

theorem not_inside_zero : ¬Inside a 0 x := fun h => by
  unfold Inside at h
  omega

/-- The smaller range is inside the larger one. -/
theorem Inside.widen (h : Inside (a + d) n x) (hle : d + n ≤ m) : Inside a m x := by
  unfold Inside at *
  omega

theorem exists_add_of_inside (h : Inside a n x) : ∃ i < n, x = a + i :=
  ⟨x - a, by unfold Inside at h; omega, by unfold Inside at h; omega⟩

/-- `D` with `f` in the `n` places from `off` on. -/
def splice (D : ℕ → β) (off n : ℕ) (f : ℕ → β) : ℕ → β :=
  fun x => if Inside off n x then f (x - off) else D x

theorem splice_add (hi : i < n) : splice D a n f (a + i) = f i := by
  rw [splice, if_pos (inside_add_iff.2 hi), Nat.add_sub_cancel_left]

theorem splice_zero_of_lt (hi : i < n) : splice D 0 n f i = f i :=
  if_pos ⟨Nat.zero_le _, by omega⟩

theorem splice_of_not_inside (h : ¬Inside a n x) : splice D a n f x = D x := if_neg h

theorem splice_congr (h : ∀ i < n, f i = g i) : splice D a n f = splice D a n g := by
  funext x
  by_cases hx : Inside a n x
  · obtain ⟨i, hi, rfl⟩ := exists_add_of_inside hx
    rw [splice_add hi, splice_add hi, h i hi]
  · rw [splice_of_not_inside hx, splice_of_not_inside hx]

/-- Reading the units around a range, changing the range and writing them back. -/
theorem splice_splice (h : d + n ≤ m) :
    splice D a m (splice (fun i => D (a + i)) d n f) = splice D (a + d) n f := by
  funext x
  by_cases hx : Inside a m x
  · obtain ⟨i, hi, rfl⟩ := exists_add_of_inside hx
    rw [splice_add hi]
    by_cases hin : Inside d n i
    · obtain ⟨j, hj, rfl⟩ := exists_add_of_inside hin
      rw [splice_add hj, ← Nat.add_assoc, splice_add hj]
    · rw [splice_of_not_inside hin, splice_of_not_inside fun h' => hin (inside_add_add_iff.1 h')]
  · rw [splice_of_not_inside hx, splice_of_not_inside fun h' => hx (h'.widen h)]

/-- Writing a changed copy `g` back keeps every place outside the changed range just if the copy was
right there. -/
theorem splice_keeps_iff :
    (∀ x, ¬Inside (a + d) n x → splice D a m (splice g d n f) x = D x) ↔
      ∀ i < m, ¬Inside d n i → g i = D (a + i) := by
  constructor
  · intro h i hi hin
    have := h (a + i) fun h' => hin (inside_add_add_iff.1 h')
    rwa [splice_add hi, splice_of_not_inside hin] at this
  · intro h x hx
    by_cases hxm : Inside a m x
    · obtain ⟨i, hi, rfl⟩ := exists_add_of_inside hxm
      have hin : ¬Inside d n i := fun h' => hx (inside_add_add_iff.2 h')
      rw [splice_add hi, splice_of_not_inside hin, h i hi hin]
    · rw [splice_of_not_inside hxm]

/-- Writing `m` places of a changed copy back gives the range its new content just if the part of
the range behind them had it before. -/
theorem splice_gives_iff :
    (∀ i < n, splice D a m (splice g d n f) (a + (d + i)) = f i) ↔
      ∀ i < n, m ≤ d + i → D (a + (d + i)) = f i := by
  refine forall₂_congr fun i hi => ?_
  by_cases hm : d + i < m
  · rw [splice_add hm, splice_add hi]
    exact ⟨fun _ h' => absurd hm (Nat.not_lt.2 h'), fun _ => rfl⟩
  · rw [splice_of_not_inside fun h' => hm (inside_add_iff.1 h')]
    exact ⟨fun h' _ => h', fun h' => h' (Nat.le_of_not_lt hm)⟩

/-! ## Lists of patches -/

/-- New content for the `size` places from `off` on. -/
structure Patch (β : Type*) where
  off : ℕ
  size : ℕ
  data : ℕ → β

namespace Patch

/-- The patch overwrites the place. -/
def Covers (p : Patch β) (x : ℕ) : Prop := Inside p.off p.size x

instance (p : Patch β) (x : ℕ) : Decidable (p.Covers x) := inferInstanceAs (Decidable (Inside _ _ _))

/-- The array with the patch in it. -/
def apply (D : ℕ → β) (p : Patch β) : ℕ → β := splice D p.off p.size p.data

end Patch

/-- The array after the patches, one after the other. -/
def applyAll (D : ℕ → β) (ps : List (Patch β)) : ℕ → β := ps.foldl Patch.apply D

/-- What the last patch that covers a place has there, or the array if none does. -/
def latest (D : ℕ → β) (ps : List (Patch β)) (x : ℕ) : β :=
  match ps.reverse.find? fun p => p.Covers x with
  | some p => p.data (x - p.off)
  | none => D x

theorem latest_append_single (D : ℕ → β) (ps : List (Patch β)) (p : Patch β) (x : ℕ) :
    latest D (ps ++ [p]) x = if p.Covers x then p.data (x - p.off) else latest D ps x := by
  simp only [latest, List.reverse_append, List.reverse_singleton, List.singleton_append,
    List.find?_cons]
  split_ifs with h
  · rw [decide_eq_true h]
  · rw [decide_eq_false h]

/-- Every place has what the last patch that covers it put there. -/
theorem applyAll_eq (D : ℕ → β) (ps : List (Patch β)) : applyAll D ps = latest D ps := by
  induction ps using List.reverseRecOn with
  | nil => rfl
  | append_singleton ps p ih =>
    funext x
    rw [applyAll, List.foldl_append, List.foldl_cons, List.foldl_nil, latest_append_single, ← ih]
    rfl

end Splice
