import Jeos.Lib.Run

/-!
# Scanning a table in turn

A scanner goes through `n` entries in their order, skips some and picks others, and begins again. At
which entry it stands is all it remembers : `none` between two passes.

As long as it does not look at the entry `p`, it begins at most one pass and looks at no other entry
twice (`looked_of_notMem`). So no one who waits at `p` is overtaken twice by another one.
-/

namespace RoundRobin

/-- What the scanner does : it begins a pass, goes past an entry, picks one, or ends the pass. -/
inductive Move where
  | start
  | skip
  | pick
  | stop
  deriving DecidableEq

def step (n : ℕ) : Option ℕ → Move → Option (Option ℕ)
  | none, .start => some (some 0)
  | some i, .skip | some i, .pick => if i < n then some (some (i + 1)) else none
  | some i, .stop => if i = n then some none else none
  | _, _ => none

/-- The entries that the scanner looks at. -/
def looked : Option ℕ → List Move → List ℕ
  | none, .start :: ms => looked (some 0) ms
  | some i, .skip :: ms | some i, .pick :: ms => i :: looked (some (i + 1)) ms
  | some _, .stop :: ms => looked none ms
  | _, _ => []

variable {n p i : ℕ} {ms : List Move} {q q' : Option ℕ} {m : Move}

/-- The two ways of going on from an entry. -/
theorem step_some (hs : step n (some i) m = some q) :
    (m = .skip ∨ m = .pick) ∧ q = some (i + 1) ∧ i < n ∨ m = .stop ∧ q = none ∧ i = n := by
  cases m with
  | start => exact absurd hs (by simp [step])
  | stop =>
    obtain ⟨hi, hs⟩ := Option.ite_none_right_eq_some.1 hs
    exact Or.inr ⟨rfl, (Option.some.inj hs).symm, hi⟩
  | skip =>
    obtain ⟨hi, hs⟩ := Option.ite_none_right_eq_some.1 hs
    exact Or.inl ⟨Or.inl rfl, (Option.some.inj hs).symm, hi⟩
  | pick =>
    obtain ⟨hi, hs⟩ := Option.ite_none_right_eq_some.1 hs
    exact Or.inl ⟨Or.inr rfl, (Option.some.inj hs).symm, hi⟩

theorem step_none (hs : step n none m = some q) : m = .start ∧ q = some 0 := by
  cases m with
  | start => exact ⟨rfl, (Option.some.inj hs).symm⟩
  | skip | pick | stop => exact absurd hs (by simp [step])

theorem looked_some (hm : m = .skip ∨ m = .pick) :
    looked (some i) (m :: ms) = i :: looked (some (i + 1)) ms := by
  rcases hm with rfl | rfl <;> rfl

theorem looked_cons (hs : step n q m = some q') : looked q (m :: ms) = looked q' ms ∨
    ∃ i, q = some i ∧ (m = .skip ∨ m = .pick) ∧ looked q (m :: ms) = i :: looked q' ms := by
  cases q with
  | none =>
    obtain ⟨rfl, rfl⟩ := step_none hs
    exact Or.inl rfl
  | some i =>
    rcases step_some hs with ⟨hm, rfl, -⟩ | ⟨rfl, rfl, -⟩
    · exact Or.inr ⟨i, rfl, hm, looked_some hm⟩
    · exact Or.inl rfl

theorem count_start (hm : m = .skip ∨ m = .pick) : (m :: ms).count .start = ms.count .start := by
  rcases hm with rfl | rfl <;> simp

/-- In front of `p` the scanner comes closer. -/
theorem looked_before (hr : Run.run (step n) (some i) ms = some q) (hi : i ≤ p) (hpn : p < n)
    (hp : p ∉ looked (some i) ms) : (looked (some i) ms).Nodup ∧
      (∀ k ∈ looked (some i) ms, i ≤ k ∧ k < p) ∧ ms.count .start = 0 := by
  induction ms generalizing i with
  | nil => exact ⟨List.nodup_nil, fun k hk => absurd hk List.not_mem_nil, rfl⟩
  | cons m ms ih =>
    obtain ⟨q', hs, hr⟩ := Option.bind_eq_some_iff.1 hr
    rcases step_some hs with ⟨hm, rfl, -⟩ | ⟨-, -, rfl⟩
    · rw [looked_some hm, List.mem_cons, not_or] at hp
      obtain ⟨hnodup, hlt, hcount⟩ := ih hr (by omega) hp.2
      rw [looked_some hm, count_start hm]
      refine ⟨List.nodup_cons.2 ⟨fun hk => by have := hlt i hk; omega, hnodup⟩, fun k hk => ?_,
        hcount⟩
      rcases List.mem_cons.1 hk with rfl | hk
      · omega
      · have := hlt k hk
        omega
    · omega

/-- Between two passes. -/
theorem looked_between (hr : Run.run (step n) none ms = some q) (hpn : p < n)
    (hp : p ∉ looked none ms) : (looked none ms).Nodup ∧ (∀ k ∈ looked none ms, k < p) ∧
      ms.count .start ≤ 1 := by
  cases ms with
  | nil => exact ⟨List.nodup_nil, fun k hk => absurd hk List.not_mem_nil, Nat.zero_le 1⟩
  | cons m ms =>
    obtain ⟨q', hs, hr⟩ := Option.bind_eq_some_iff.1 hr
    obtain ⟨rfl, rfl⟩ := step_none hs
    obtain ⟨hnodup, hlt, hcount⟩ := looked_before hr (Nat.zero_le p) hpn hp
    refine ⟨hnodup, fun k hk => (hlt k hk).2, ?_⟩
    exact Nat.le_of_eq (by rw [List.count_cons_self, hcount])

/-- Behind `p` the scanner ends its pass, and comes closer in the next one. -/
theorem looked_behind (hr : Run.run (step n) (some i) ms = some q) (hi : p < i) (hpn : p < n)
    (hp : p ∉ looked (some i) ms) : (looked (some i) ms).Nodup ∧
      (∀ k ∈ looked (some i) ms, i ≤ k ∨ k < p) ∧ ms.count .start ≤ 1 := by
  induction ms generalizing i with
  | nil => exact ⟨List.nodup_nil, fun k hk => absurd hk List.not_mem_nil, Nat.zero_le 1⟩
  | cons m ms ih =>
    obtain ⟨q', hs, hr⟩ := Option.bind_eq_some_iff.1 hr
    rcases step_some hs with ⟨hm, rfl, -⟩ | ⟨rfl, rfl, -⟩
    · rw [looked_some hm, List.mem_cons, not_or] at hp
      obtain ⟨hnodup, hlt, hcount⟩ := ih hr (by omega) hp.2
      rw [looked_some hm, count_start hm]
      refine ⟨List.nodup_cons.2 ⟨fun hk => by have := hlt i hk; omega, hnodup⟩, fun k hk => ?_,
        hcount⟩
      rcases List.mem_cons.1 hk with rfl | hk
      · exact Or.inl (Nat.le_refl k)
      · have := hlt k hk
        omega
    · obtain ⟨hnodup, hlt, hcount⟩ := looked_between hr hpn hp
      exact ⟨hnodup, fun k hk => Or.inr (hlt k hk), by simpa using hcount⟩

/-- As long as the scanner does not look at `p`, it looks at no entry twice. -/
theorem looked_of_notMem (hr : Run.run (step n) q ms = some q') (hpn : p < n)
    (hp : p ∉ looked q ms) : (looked q ms).Nodup ∧ ms.count .start ≤ 1 := by
  cases q with
  | none =>
    obtain ⟨hnodup, -, hcount⟩ := looked_between hr hpn hp
    exact ⟨hnodup, hcount⟩
  | some i =>
    rcases Nat.lt_or_ge p i with hi | hi
    · obtain ⟨hnodup, -, hcount⟩ := looked_behind hr hi hpn hp
      exact ⟨hnodup, hcount⟩
    · obtain ⟨hnodup, -, hcount⟩ := looked_before hr hi hpn hp
      exact ⟨hnodup, hcount ▸ Nat.zero_le 1⟩

end RoundRobin
