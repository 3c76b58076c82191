import Mathlib.Data.List.Basic
import Mathlib.Data.List.DropRight
import Mathlib.Data.Nat.ModEq
import Mathlib.Logic.Function.Basic

/-!
# A queue in a circular buffer

`window buf N r n` reads `n` elements off the buffer `buf` of `N` cells, from the
position `r` on. Positions are free-running : only `r % N` matters
(`window_congr`), so they may wrap at any multiple of `N`.

A queue stored this way grows at the end by writing the cell behind the window
(`window_push`) and shrinks at the front by moving `r` (`window_succ`, `drop_window`). Writing
behind a window of all cells drops its first element (`window_rotate`), so that the newest `N`
elements stay : `rtake_append_rtake` says how these follow from one another.
-/

namespace CircularBuffer

variable {α : Type*} {buf : ℕ → α} {N r r' n : ℕ} {a : α}

/-- The `n` elements from position `r` on. -/
def window (buf : ℕ → α) (N r n : ℕ) : List α := (List.range n).map fun k => buf ((r + k) % N)

@[simp] theorem window_zero (buf : ℕ → α) (N r : ℕ) : window buf N r 0 = [] := rfl

@[simp] theorem length_window : (window buf N r n).length = n := by simp [window]

/-- Positions only count modulo the number of cells. -/
theorem window_congr (h : r % N = r' % N) : window buf N r n = window buf N r' n := by
  refine List.map_congr_left fun k _ => ?_
  rw [Nat.add_mod, h, ← Nat.add_mod]

/-- The first element, and the window that starts after it. -/
theorem window_succ (buf : ℕ → α) (N r n : ℕ) :
    window buf N r (n + 1) = buf (r % N) :: window buf N (r + 1) n := by
  rw [window, List.range_succ_eq_map, List.map_cons, List.map_map, Nat.add_zero]
  congr 1
  refine List.map_congr_left fun k _ => ?_
  rw [Function.comp_apply, Nat.add_right_comm, Nat.add_assoc]

/-- Two positions less than `N` apart are different cells. -/
theorem cell_ne {k : ℕ} (hk : k < n) (hn : n < N) : (r + k) % N ≠ (r + n) % N := fun h => by
  have hd := (Nat.ModEq.add_left_cancel' r h : k ≡ n [MOD N])
  rw [Nat.ModEq, Nat.mod_eq_of_lt (hk.trans hn), Nat.mod_eq_of_lt hn] at hd
  omega

/-- Writing the cell behind a window that is not full adds an element at its end. -/
theorem window_push (hn : n < N) (buf : ℕ → α) (r : ℕ) (a : α) :
    window (Function.update buf ((r + n) % N) a) N r (n + 1) = window buf N r n ++ [a] := by
  rw [window, List.range_succ, List.map_append, List.map_singleton, Function.update_self]
  congr 1
  refine List.map_congr_left fun k hk => ?_
  exact Function.update_of_ne (cell_ne (List.mem_range.1 hk) hn) _ _

/-- Writing the cell behind the window of all cells : the oldest element makes room. -/
theorem window_rotate (hN : 0 < N) (buf : ℕ → α) (r : ℕ) (a : α) :
    window (Function.update buf (r % N) a) N (r + 1) N = (window buf N r N).tail ++ [a] := by
  obtain ⟨m, rfl⟩ := Nat.exists_eq_succ_of_ne_zero hN.ne'
  have hcell : (r + 1 + m) % (m + 1) = r % (m + 1) := by
    rw [Nat.add_assoc, Nat.add_comm 1 m, Nat.add_mod_right]
  have hpush := window_push m.lt_succ_self buf (r + 1) a
  rw [hcell] at hpush
  rw [Nat.succ_eq_add_one, hpush, window_succ, List.tail_cons]

theorem take_window (buf : ℕ → α) (N r : ℕ) {k : ℕ} (hk : k ≤ n) :
    (window buf N r n).take k = window buf N r k := by
  rw [window, ← List.map_take, List.take_range, Nat.min_eq_left hk, window]

theorem drop_window (buf : ℕ → α) (N r n k : ℕ) :
    (window buf N r n).drop k = window buf N (r + k) (n - k) := by
  induction k generalizing r n with
  | zero => rfl
  | succ k ih =>
    rcases n with _ | n
    · simp
    · rw [window_succ, List.drop_succ_cons, ih, Nat.add_right_comm, Nat.add_assoc, Nat.add_sub_add_right]

/-! ## The newest elements -/

theorem rtake_of_length_le {l : List α} (h : l.length ≤ n) : l.rtake n = l := by
  rw [List.rtake, Nat.sub_eq_zero_of_le h, List.drop_zero]

theorem length_rtake (l : List α) (n : ℕ) : (l.rtake n).length = min n l.length := by
  rw [List.rtake, List.length_drop]
  omega

/-- The newest elements behind a longer list are those of the part that is appended. -/
theorem rtake_append_of_le {l m : List α} (h : n ≤ m.length) : (l ++ m).rtake n = m.rtake n := by
  rw [List.rtake, List.rtake, List.length_append, Nat.add_sub_assoc h, List.drop_append,
    List.drop_eq_nil_of_le (Nat.le_add_right _ _), Nat.add_sub_cancel_left, List.nil_append]

/-- What has been dropped before makes no difference. -/
theorem rtake_append_rtake (l m : List α) (n : ℕ) : (l.rtake n ++ m).rtake n = (l ++ m).rtake n := by
  rcases Nat.le_total l.length n with h | h
  · rw [rtake_of_length_le h]
  · have hsplit : l = l.take (l.length - n) ++ l.rtake n := (List.take_append_drop _ l).symm
    conv_rhs => rw [hsplit, List.append_assoc]
    refine (rtake_append_of_le ?_).symm
    rw [List.length_append, length_rtake]
    omega

end CircularBuffer
