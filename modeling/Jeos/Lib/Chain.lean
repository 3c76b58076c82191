import Mathlib.Data.Fintype.Card
import Mathlib.Data.Fintype.Pigeonhole
import Mathlib.Tactic.Common

/-!
# Following a partial function

`next : α → Option α` names what comes after an element, if anything does. `Visits next a b` says
that `b` is met on the way from `a`, and `Ends next n a` that the way from `a` ends after `n` steps.

Where a way visits an element and where it ends does not depend on how it is followed
(`Visits.total`, `Ends.unique`). A way that ends meets no element twice, so it has fewer steps than
there are elements (`Ends.lt`). Over finitely many elements a way that meets none twice ends
(`exists_ends_iff`).

`Traces` is the rule for a loop with fuel whose rounds take the steps of a way : with enough fuel
it returns just when the way ends (`Traces.returns_iff`).
-/

namespace Chain

variable {α : Type} {next next' : α → Option α} {a b c : α} {n k : ℕ}

/-- `b` is met on the way from `a`. -/
inductive Visits (next : α → Option α) (a : α) : α → Prop
  | refl : Visits next a a
  | step {b c : α} : Visits next a b → next b = some c → Visits next a c

/-- The way from `a` ends after `n` steps. -/
inductive Ends (next : α → Option α) : ℕ → α → Prop
  | stop {a : α} : next a = none → Ends next 0 a
  | step {n : ℕ} {a b : α} : next a = some b → Ends next n b → Ends next (n + 1) a

/-- The way from `a` comes back to an element it has met. -/
def Circles (next : α → Option α) (a : α) : Prop :=
  ∃ b c, Visits next a b ∧ next b = some c ∧ Visits next c b

theorem Visits.trans (h : Visits next a b) (h' : Visits next b c) : Visits next a c := by
  induction h' with
  | refl => exact h
  | step _ hn ih => exact ih.step hn

theorem Visits.head (hn : next a = some b) (h : Visits next b c) : Visits next a c :=
  (Visits.refl.step hn).trans h

/-- The first step of a way. -/
theorem Visits.eq_or_head (h : Visits next a c) :
    c = a ∨ ∃ b, next a = some b ∧ Visits next b c := by
  induction h with
  | refl => exact Or.inl rfl
  | step _ hn ih =>
    rcases ih with rfl | ⟨b, hb, h⟩
    · exact Or.inr ⟨_, hn, .refl⟩
    · exact Or.inr ⟨b, hb, h.step hn⟩

/-- Of two elements on the way one comes first. -/
theorem Visits.total (hb : Visits next a b) (hc : Visits next a c) :
    Visits next b c ∨ Visits next c b := by
  induction hb with
  | refl => exact Or.inl hc
  | step _ hn ih =>
    rcases ih with h | h
    · rcases h.eq_or_head with rfl | ⟨d, hd, h⟩
      · exact Or.inr (Visits.refl.step hn)
      · obtain rfl := Option.some.inj (hn.symm.trans hd)
        exact Or.inl h
    · exact Or.inr (h.step hn)

/-- A way has one end. -/
theorem Visits.end_eq (hb : Visits next a b) (hc : Visits next a c) (hnb : next b = none)
    (hnc : next c = none) : b = c := by
  rcases hb.total hc with h | h
  · rcases h.eq_or_head with rfl | ⟨d, hd, -⟩
    · rfl
    · exact nomatch hnb.symm.trans hd
  · rcases h.eq_or_head with rfl | ⟨d, hd, -⟩
    · rfl
    · exact nomatch hnc.symm.trans hd

/-- A way with more stops is a part of the way. -/
theorem Visits.mono (hle : ∀ a b, next' a = some b → next a = some b) (h : Visits next' a b) :
    Visits next a b := by
  induction h with
  | refl => exact .refl
  | step _ hn ih => exact ih.step (hle _ _ hn)

theorem Ends.unique (h : Ends next n a) (h' : Ends next k a) : n = k := by
  induction h generalizing k with
  | stop hn =>
    cases h' with
    | stop _ => rfl
    | step hs _ => exact nomatch hn.symm.trans hs
  | step hs _ ih =>
    cases h' with
    | stop hn => exact nomatch hs.symm.trans hn
    | step hs' h' =>
      obtain rfl := Option.some.inj (hs.symm.trans hs')
      rw [ih h']

theorem Ends.of_visits (h : Visits next a b) (hb : Ends next n b) : ∃ k, Ends next k a := by
  induction h generalizing n with
  | refl => exact ⟨n, hb⟩
  | step _ hn ih => exact ih (hb.step hn)

/-- The rest of a way that ends does. -/
theorem Ends.visits (h : Ends next n a) (hv : Visits next a b) : ∃ k ≤ n, Ends next k b := by
  induction hv with
  | refl => exact ⟨n, le_rfl, h⟩
  | step _ hn ih =>
    obtain ⟨k, hkn, hk⟩ := ih
    cases hk with
    | stop hs => exact nomatch hs.symm.trans hn
    | step hs hk =>
      obtain rfl := Option.some.inj (hs.symm.trans hn)
      exact ⟨_, (Nat.le_succ _).trans hkn, hk⟩

/-- With more stops a way ends as well. -/
theorem Ends.mono (hle : ∀ a b, next' a = some b → next a = some b) (h : Ends next n a) :
    ∃ k ≤ n, Ends next' k a := by
  induction h with
  | stop hs =>
    refine ⟨0, le_rfl, .stop (Option.eq_none_iff_forall_ne_some.2 fun b hb => ?_)⟩
    exact nomatch hs.symm.trans (hle _ _ hb)
  | @step n a b hs _ ih =>
    obtain ⟨k, hk, h⟩ := ih
    rcases hn : next' a with - | c
    · exact ⟨0, Nat.zero_le _, .stop hn⟩
    · obtain rfl := Option.some.inj (hs.symm.trans (hle _ _ hn))
      exact ⟨k + 1, Nat.succ_le_succ hk, .step hn h⟩

/-- Every smaller number of steps is left somewhere on the way. -/
theorem Ends.exists_of_le (h : Ends next n a) (hk : k ≤ n) : ∃ b, Ends next k b := by
  induction h with
  | stop hs =>
    obtain rfl := Nat.le_zero.1 hk
    exact ⟨_, .stop hs⟩
  | step hs h ih =>
    rcases Nat.le_or_eq_of_le_succ hk with hk | rfl
    · exact ih hk
    · exact ⟨_, .step hs h⟩

/-- A way that ends has fewer steps than there are elements. -/
theorem Ends.lt {N : ℕ} {f : α → Fin N} (hf : Function.Injective f) (h : Ends next n a) :
    n < N := by
  have hex : ∀ i : Fin (n + 1), ∃ b, Ends next i b := fun i =>
    h.exists_of_le (Nat.le_of_lt_succ i.isLt)
  choose g hg using hex
  have hinj : Function.Injective (f ∘ g) := hf.comp fun i j hij => by
    have hi := hg i
    rw [hij] at hi
    exact Fin.ext (hi.unique (hg j))
  have hcard := Fintype.card_le_of_injective _ hinj
  rwa [Fintype.card_fin, Fintype.card_fin] at hcard

/-- A way that ends comes back to nothing : the rest after a step is shorter. -/
theorem Ends.not_circles (h : Ends next n a) : ¬Circles next a := by
  rintro ⟨b, c, hab, hbc, hcb⟩
  obtain ⟨k, -, hk⟩ := h.visits hab
  cases hk with
  | stop hn => exact nomatch hn.symm.trans hbc
  | @step k _ c' hs hk' =>
    obtain rfl := Option.some.inj (hbc.symm.trans hs)
    obtain ⟨l, hlk, hl⟩ := hk'.visits hcb
    have heq := hl.unique (hk'.step hbc)
    omega

/-- A way through finitely many elements ends, or it comes back to one. -/
theorem exists_ends_iff [Finite α] : (∃ n, Ends next n a) ↔ ¬Circles next a := by
  refine ⟨fun ⟨_, h⟩ => h.not_circles, fun h => ?_⟩
  by_contra hno
  have hnext : ∀ b : {b // Visits next a b}, ∃ c : {c // Visits next a c}, next b = some c.1 := by
    rintro ⟨b, hb⟩
    rcases hc : next b with _ | c
    · exact absurd (Ends.of_visits hb (.stop hc)) hno
    · exact ⟨⟨c, hb.step hc⟩, rfl⟩
  choose g hg using hnext
  let f : ℕ → {b // Visits next a b} := fun n => g^[n] ⟨a, .refl⟩
  have hsucc : ∀ i, next (f i) = some (f (i + 1)).1 := fun i => by
    rw [show f (i + 1) = g (f i) from Function.iterate_succ_apply' g i _]
    exact hg (f i)
  have hvisits : ∀ i k, Visits next (f i).1 (f (i + k)).1 := fun i k => by
    induction k with
    | zero => exact .refl
    | succ k ih => exact ih.step (hsucc (i + k))
  have hcircle : ∀ i j, i < j → f i ≠ f j := fun i j hij hf => by
    refine h ⟨(f i).1, (f (i + 1)).1, (f i).2, hsucc i, ?_⟩
    have hv := hvisits (i + 1) (j - (i + 1))
    rw [show i + 1 + (j - (i + 1)) = j by omega, ← hf] at hv
    exact hv
  obtain ⟨i, j, hne, hf⟩ := Finite.exists_ne_map_eq_of_infinite f
  rcases Nat.lt_or_gt_of_ne hne with hij | hij
  · exact hcircle i j hij hf
  · exact hcircle j i hij hf.symm

/-- A way on which every step goes up comes back to nothing. -/
theorem not_circles_of_lt {β : Type} [Preorder β] (f : α → β)
    (h : ∀ a b, next a = some b → f a < f b) (a : α) : ¬Circles next a := by
  rintro ⟨b, c, -, hbc, hcb⟩
  have hle : ∀ {d}, Visits next c d → f c ≤ f d := fun hd => by
    induction hd with
    | refl => exact le_rfl
    | step _ hn ih => exact ih.trans (h _ _ hn).le
  exact absurd ((h b c hbc).trans_le (hle hcb)) (lt_irrefl (f b))

/-! ## Loops that follow a way -/

section Traces

variable {σ β : Type} {early : Prop} {I : α → σ → Prop} {F : ℕ → α → σ → Option β} {s : σ}

/-- A round of the loop `F` at `a` returns where the way ends, or `early`, and otherwise leaves the
rest of the fuel to the next element. `I` is what the rounds keep. -/
structure Traces (next : α → Option α) (early : Prop) (I : α → σ → Prop)
    (F : ℕ → α → σ → Option β) : Prop where
  empty : ∀ a s, F 0 a s = none
  round : ∀ n a s, I a s →
    (next a = none ∨ early) ∧ (∃ r, F (n + 1) a s = some r) ∨
      ∃ b t, next a = some b ∧ I b t ∧ F (n + 1) a s = F n b t

/-- With more fuel than the way has steps the loop returns. -/
theorem Traces.returns_of_ends (h : Traces next early I F) (he : Ends next n a) :
    ∀ {fuel s}, n < fuel → I a s → ∃ r, F fuel a s = some r := by
  induction he with
  | @stop a hn =>
    intro fuel s hlt hs
    obtain ⟨k, rfl⟩ := Nat.exists_eq_add_of_lt hlt
    rw [Nat.zero_add]
    rcases h.round k a s hs with ⟨-, hr⟩ | ⟨b, t, hb, -, -⟩
    · exact hr
    · exact nomatch hn.symm.trans hb
  | @step n a b hn _ ih =>
    intro fuel s hlt hs
    obtain ⟨k, rfl⟩ := Nat.exists_eq_add_of_lt hlt
    rcases h.round (n + 1 + k) a s hs with ⟨-, hr⟩ | ⟨c, t, hc, ht, hrun⟩
    · exact hr
    · obtain rfl := Option.some.inj (hn.symm.trans hc)
      rw [hrun]
      exact ih (by omega) ht

/-- A loop that returns, and not early, has got to the end of the way. -/
theorem Traces.ends_of_returns (h : Traces next early I F) (hearly : ¬early) (fuel : ℕ) :
    ∀ {a s r}, I a s → F fuel a s = some r → ∃ n, Ends next n a := by
  induction fuel with
  | zero => exact fun {a s r} _ hr => nomatch (h.empty a s).symm.trans hr
  | succ fuel ih =>
    intro a s r hs hr
    rcases h.round fuel a s hs with ⟨hn, -⟩ | ⟨b, t, hb, ht, hrun⟩
    · exact ⟨0, .stop (hn.resolve_right hearly)⟩
    · obtain ⟨n, hn⟩ := ih ht (hrun.symm.trans hr)
      exact ⟨n + 1, .step hb hn⟩

/-- With fuel for every element the loop returns just when the way ends. -/
theorem Traces.returns_iff (h : Traces next early I F) (hearly : ¬early) {N fuel : ℕ}
    {f : α → Fin N} (hf : Function.Injective f) (hN : N ≤ fuel) (hs : I a s) :
    (∃ r, F fuel a s = some r) ↔ ∃ n, Ends next n a :=
  ⟨fun ⟨_, hr⟩ => h.ends_of_returns hearly fuel hs hr,
    fun ⟨_, hn⟩ => h.returns_of_ends hn ((hn.lt hf).trans_le hN) hs⟩

end Traces

end Chain
