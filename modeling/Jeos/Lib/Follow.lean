import Mathlib.Data.Finset.Card
import Mathlib.Data.Nat.Find
import Mathlib.Logic.Function.Iterate
import Mathlib.Tactic.Common

/-!
# Following a pointer

A search that starts at `x` and follows `f` until it is at a place with a property. It returns just if
there is such a place among the iterates of `f`, and then it is at the first one
(`exists_follow_iff`). The places in front of that one are different, so there are less of them than
places `f` can lead to (`First.lt_card`). In a cycle without such a place the search goes on for ever.
-/

namespace Follow

variable {α : Type*} {f : α → α} {p : α → Bool} {x y : α} {n k : ℕ}

/-- The search with at most `k` tests : the number of steps, and the place found. -/
def follow (f : α → α) (p : α → Bool) : ℕ → α → Option (ℕ × α)
  | 0, _ => none
  | k + 1, x => if p x then some (0, x) else (follow f p k (f x)).map fun r => (r.1 + 1, r.2)

/-- The `n`-th place from `x` on is the first with the property. -/
structure First (f : α → α) (p : α → Bool) (x : α) (n : ℕ) : Prop where
  found : p (f^[n] x) = true
  before : ∀ m < n, p (f^[m] x) = false

theorem First.unique {m : ℕ} (h : First f p x n) (h' : First f p x m) : n = m := by
  rcases Nat.lt_trichotomy n m with hlt | heq | hlt
  · exact absurd (h'.before n hlt) (by simp [h.found])
  · exact heq
  · exact absurd (h.before m hlt) (by simp [h'.found])

/-- What comes behind a place without the property. -/
theorem first_succ_iff (hx : p x = false) : First f p x (n + 1) ↔ First f p (f x) n := by
  constructor
  · exact fun h => ⟨h.found, fun m hm => h.before (m + 1) (Nat.succ_lt_succ hm)⟩
  · refine fun h => ⟨h.found, fun m hm => ?_⟩
    cases m with
    | zero => exact hx
    | succ m => exact h.before m (Nat.lt_of_succ_lt_succ hm)

theorem follow_eq_some_iff :
    follow f p k x = some (n, y) ↔ n < k ∧ First f p x n ∧ y = f^[n] x := by
  induction k generalizing x n with
  | zero => exact iff_of_false nofun fun h => Nat.not_lt_zero n h.1
  | succ k ih =>
    rw [follow]
    by_cases hx : p x = true
    · have h0 : First f p x 0 := ⟨hx, fun m hm => absurd hm (Nat.not_lt_zero m)⟩
      rw [if_pos hx]
      constructor
      · intro h
        obtain ⟨rfl, rfl⟩ := Prod.mk.inj (Option.some.inj h)
        exact ⟨k.succ_pos, h0, rfl⟩
      · rintro ⟨-, hn, rfl⟩
        obtain rfl := hn.unique h0
        rfl
    · rw [if_neg hx]
      have hx' := Bool.eq_false_iff.2 hx
      cases n with
      | zero =>
        refine iff_of_false (fun h => ?_) fun h => hx h.2.1.found
        obtain ⟨r, -, hr⟩ := Option.map_eq_some_iff.1 h
        exact absurd (congrArg Prod.fst hr) (Nat.succ_ne_zero _)
      | succ n =>
        rw [first_succ_iff hx', Nat.succ_lt_succ_iff, Function.iterate_succ_apply, ← ih]
        constructor
        · intro h
          obtain ⟨⟨m, z⟩, hr, he⟩ := Option.map_eq_some_iff.1 h
          obtain ⟨hm, rfl⟩ := Prod.mk.inj he
          obtain rfl := Nat.succ.inj hm
          exact hr
        · intro h
          rw [h]
          rfl

/-- With enough tests the search returns just the first place. -/
theorem exists_follow_iff :
    (∃ N, ∀ k ≥ N, follow f p k x = some (n, y)) ↔ First f p x n ∧ y = f^[n] x := by
  constructor
  · rintro ⟨N, hN⟩
    exact (follow_eq_some_iff.1 (hN N le_rfl)).2
  · exact fun h => ⟨n + 1, fun k hk => follow_eq_some_iff.2 ⟨hk, h⟩⟩

theorem exists_first_iff : (∃ n, First f p x n) ↔ ∃ n, p (f^[n] x) = true := by
  constructor
  · exact fun ⟨n, h⟩ => ⟨n, h.found⟩
  · exact fun h => ⟨Nat.find h, Nat.find_spec h, fun m hm => Bool.eq_false_iff.2 (Nat.find_min h hm)⟩

/-- The places up to the first one are different : behind a repetition there is nothing new. -/
theorem First.injOn (h : First f p x n) : Set.InjOn (fun m => f^[m] x) (Set.Iic n) := by
  have hlt : ∀ {i j : ℕ}, i < j → j ≤ n → f^[i] x ≠ f^[j] x := fun {i j} hij hj he => by
    have hback : f^[n - j + i] x = f^[n] x := by
      rw [Function.iterate_add_apply, he, ← Function.iterate_add_apply, Nat.sub_add_cancel hj]
    have := h.before (n - j + i) (by omega)
    rw [hback, h.found] at this
    cases this
  intro i hi j hj he
  rcases Nat.lt_trichotomy i j with hij | heq | hij
  · exact absurd he (hlt hij hj)
  · exact heq
  · exact absurd he.symm (hlt hij hi)

/-- There are at most as many places up to the first one as places to be at. -/
theorem First.lt_card {s : Finset α} (h : First f p x n) (hs : ∀ m ≤ n, f^[m] x ∈ s) :
    n < s.card := by
  have hcard : (Finset.range (n + 1)).card ≤ s.card := by
    refine Finset.card_le_card_of_injOn (fun m => f^[m] x) (fun m hm => ?_) fun i hi j hj => ?_
    · exact hs m (Nat.lt_succ_iff.1 (Finset.mem_range.1 hm))
    · exact fun he => h.injOn (Nat.lt_succ_iff.1 (Finset.mem_range.1 hi))
        (Nat.lt_succ_iff.1 (Finset.mem_range.1 hj)) he
  rwa [Finset.card_range] at hcard

end Follow
