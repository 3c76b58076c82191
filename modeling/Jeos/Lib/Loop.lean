import Mathlib.Data.List.Basic
import Mathlib.Data.List.Induction
import Mathlib.Tactic.Common
import Mathlib.Tactic.Linarith

/-!
# Loops that may be left early

A round of a loop returns the new state and whether to go on : `false` is a `return`
inside the body. `each` is a loop over the elements of a list, and `forUp` the loop
`for (v = a; v < b; v += d)` over fixed-width integers, with as much fuel as it is given.
When `v` cannot pass the largest integer, `forUp` is `each` over the values of `v`
(`forUp_eq_each`).

`each_spec` is the rule for both : an invariant that speaks of the elements done so far,
and what holds when the loop is left early.
-/

namespace Loop

variable {σ α : Type*} {w : ℕ}

/-- `for (x : xs) { ... }`. -/
def each (f : σ → α → Option (σ × Bool)) : List α → σ → Option (σ × Bool)
  | [], s => some (s, true)
  | x :: xs, s => (f s x).bind fun (s', go) => if go then each f xs s' else some (s', false)

/-- `for (v = a; v < b; v += d) { ... }` with at most the given number of tests of `v < b`. -/
def forUp (f : σ → BitVec w → Option (σ × Bool)) (b d : BitVec w) :
    ℕ → BitVec w → σ → Option (σ × Bool)
  | 0, _, _ => none
  | n + 1, v, s =>
    if v < b then
      (f s v).bind fun (s', go) => if go then forUp f b d n (v + d) s' else some (s', false)
    else some (s, true)

/-- The number of rounds. -/
def rounds (a b d : BitVec w) : ℕ := (b.toNat - a.toNat + (d.toNat - 1)) / d.toNat

/-- The values of `v`. -/
def values (a d : BitVec w) (n : ℕ) : List (BitVec w) :=
  (List.range n).map fun i => a + BitVec.ofNat w (i * d.toNat)

variable {f : σ → α → Option (σ × Bool)} {xs ys : List α} {s t : σ} {go : Bool}

theorem each_cons (x : α) : each f (x :: xs) s =
    (f s x).bind fun (s', go) => if go then each f xs s' else some (s', false) := rfl

/-- What a loop does : `I pre s` holds after the rounds for `pre`, and `J s` when a round leaves
the loop. -/
theorem each_spec {I : List α → σ → Prop} {J : σ → Prop}
    (hstep : ∀ pre x post, xs = pre ++ x :: post → ∀ s s', I pre s → f s x = some (s', true) →
      I (pre ++ [x]) s')
    (hexit : ∀ pre x post, xs = pre ++ x :: post → ∀ s s', I pre s → f s x = some (s', false) →
      J s')
    (h : I [] s) (hr : each f xs s = some (t, go)) : if go then I xs t else J t := by
  suffices H : ∀ post pre s, xs = pre ++ post → I pre s → each f post s = some (t, go) →
      if go then I xs t else J t from H xs [] s rfl h hr
  intro post
  induction post with
  | nil =>
    intro pre s hx hI hr
    obtain ⟨rfl, rfl⟩ := Prod.mk.inj (Option.some.inj hr)
    rw [List.append_nil] at hx
    exact hx ▸ hI
  | cons x post ih =>
    intro pre s hx hI hr
    obtain ⟨⟨s', g⟩, hf, hr⟩ := Option.bind_eq_some_iff.1 hr
    rcases g with _ | _
    · obtain ⟨rfl, rfl⟩ := Prod.mk.inj (Option.some.inj hr)
      exact hexit pre x post hx s _ hI hf
    · exact ih (pre ++ [x]) s' (by simpa using hx) (hstep pre x post hx s s' hI hf) hr

/-- A loop without an early exit, each of whose rounds ends : `I pre s` holds after the rounds for
`pre`. -/
theorem foldlM_spec {g : σ → α → Option σ} {I : List α → σ → Prop}
    (hstep : ∀ pre x post, xs = pre ++ x :: post → ∀ s, I pre s →
      ∃ s', g s x = some s' ∧ I (pre ++ [x]) s')
    (h : I [] s) : ∃ t, xs.foldlM g s = some t ∧ I xs t := by
  suffices H : ∀ post pre s, xs = pre ++ post → I pre s →
      ∃ t, post.foldlM g s = some t ∧ I xs t from H xs [] s rfl h
  intro post
  induction post with
  | nil =>
    intro pre s hx hI
    rw [List.append_nil] at hx
    exact ⟨s, rfl, hx ▸ hI⟩
  | cons x post ih =>
    intro pre s hx hI
    obtain ⟨s', hs', hI'⟩ := hstep pre x post hx s hI
    obtain ⟨t, ht, hIt⟩ := ih (pre ++ [x]) s' (by simpa using hx) hI'
    exact ⟨t, by rw [List.foldlM_cons, hs']; exact ht, hIt⟩

/-- A loop over the numbers below `n` : `I k s` holds after the first `k` rounds. -/
theorem foldl_range_spec {g : σ → ℕ → σ} {n : ℕ} {I : ℕ → σ → Prop}
    (hstep : ∀ k < n, ∀ s, I k s → I (k + 1) (g s k)) (h : I 0 s) :
    I n ((List.range n).foldl g s) := by
  suffices H : ∀ k ≤ n, I k ((List.range k).foldl g s) from H n le_rfl
  intro k
  induction k with
  | zero => exact fun _ => h
  | succ k ih =>
    intro hk
    rw [List.range_succ, List.foldl_append]
    exact hstep k hk _ (ih (Nat.le_of_succ_le hk))

/-- A loop over the numbers below `n`, the largest first : `I k s` holds when the rounds from `k`
on are done. -/
theorem foldr_range_spec {g : ℕ → σ → σ} {n : ℕ} {I : ℕ → σ → Prop}
    (hstep : ∀ k < n, ∀ s, I (k + 1) s → I k (g k s)) (h : I n s) :
    I 0 ((List.range n).foldr g s) := by
  induction n generalizing s with
  | zero => exact h
  | succ n ih =>
    rw [List.range_succ, List.foldr_append]
    exact ih (fun k hk => hstep k (hk.trans n.lt_succ_self)) (hstep n n.lt_succ_self s h)

/-- A loop that stores something at each element with a property ends with the last one. -/
theorem foldl_ite_eq_last {β : Type*} (p : α → Bool) (g : α → β) (xs : List α) (b : β) :
    xs.foldl (fun b x => if p x then g x else b) b = ((xs.filter p).getLast?.map g).getD b := by
  induction xs using List.reverseRecOn with
  | nil => rfl
  | append_singleton xs x ih =>
    rw [List.foldl_append, ih, List.filter_append, List.foldl_cons, List.foldl_nil]
    cases hp : p x with
    | false => simp [hp]
    | true => simp [hp]

/-- A loop that is never left early. -/
theorem each_map_true (g : σ → α → Option σ) : ∀ (xs : List α) (s : σ),
    (each (fun s x => (g s x).map (·, true)) xs s).map Prod.fst = xs.foldlM g s
  | [], _ => rfl
  | x :: xs, s => by
    rw [each_cons, List.foldlM_cons]
    cases g s x with
    | none => rfl
    | some s' => exact each_map_true g xs s'

/-- What every round keeps, the loop keeps. -/
theorem each_invariant {I : σ → Prop}
    (hstep : ∀ x ∈ xs, ∀ s s' g, I s → f s x = some (s', g) → I s') (h : I s)
    (hr : each f xs s = some (t, go)) : I t := by
  have hmem : ∀ {pre x post}, xs = pre ++ x :: post → x ∈ xs := fun hx => by simp [hx]
  have := each_spec (I := fun _ s => I s) (J := I)
    (fun pre x post hx s s' => hstep x (hmem hx) s s' true)
    (fun pre x post hx s s' => hstep x (hmem hx) s s' false) h hr
  rcases go with _ | _ <;> exact this

/-- What the rounds add to a log, the loop adds : all of it when it is not left early. -/
theorem each_log {β : Type*} (log : σ → Set β) (R : α → Set β)
    (hgo : ∀ x ∈ xs, ∀ s s', f s x = some (s', true) → log s' = log s ∪ R x)
    (hexit : ∀ x ∈ xs, ∀ s s', f s x = some (s', false) → log s' ⊆ log s ∪ R x)
    (hr : each f xs s = some (t, go)) :
    log t ⊆ log s ∪ {b | ∃ x ∈ xs, b ∈ R x} ∧
      (go = true → log t = log s ∪ {b | ∃ x ∈ xs, b ∈ R x}) := by
  have hnil : log s = log s ∪ {b | ∃ x ∈ ([] : List α), b ∈ R x} := by simp
  have h := each_spec (I := fun pre t => log t = log s ∪ {b | ∃ x ∈ pre, b ∈ R x})
    (J := fun t => log t ⊆ log s ∪ {b | ∃ x ∈ xs, b ∈ R x})
    (fun pre x post hx t t' ht hr => ?_) (fun pre x post hx t t' ht hr => ?_) hnil hr
  · rcases go with _ | _
    · exact ⟨h, fun h => absurd h Bool.false_ne_true⟩
    · exact ⟨h.subset, fun _ => h⟩
  · rw [hgo x (by simp [hx]) t t' hr, ht, Set.union_assoc]
    congr 1
    ext b
    simp only [List.mem_append, List.mem_singleton, Set.mem_union, Set.mem_ofPred_eq]
    constructor
    · rintro (⟨y, hy, hb⟩ | hb)
      · exact ⟨y, Or.inl hy, hb⟩
      · exact ⟨x, Or.inr rfl, hb⟩
    · rintro ⟨y, hy | rfl, hb⟩
      · exact Or.inl ⟨y, hy, hb⟩
      · exact Or.inr hb
  · refine (hexit x (by simp [hx]) t t' hr).trans (Set.union_subset ?_ fun b hb => ?_)
    · rw [ht]
      refine Set.union_subset_union_right _ ?_
      rintro b ⟨y, hy, hb⟩
      exact ⟨y, by simp [hx, hy], hb⟩
    · exact Or.inr ⟨x, by simp [hx], hb⟩

/-- A loop whose rounds return returns. -/
theorem exists_each (hf : ∀ s x, ∃ r, f s x = some r) (xs : List α) (s : σ) :
    ∃ r, each f xs s = some r := by
  induction xs generalizing s with
  | nil => exact ⟨_, rfl⟩
  | cons x xs ih =>
    obtain ⟨⟨s', g⟩, h⟩ := hf s x
    rw [each_cons, h, Option.bind_some]
    rcases g with _ | _
    · exact ⟨_, rfl⟩
    · exact ih s'

/-- Related rounds give related loops. -/
theorem each_sim {τ β : Type*} {g : τ → β → Option (τ × Bool)} {π : σ → τ} {ρ : α → β}
    (hf : ∀ s x, (f s x).map (Prod.map π id) = g (π s) (ρ x)) (xs : List α) (s : σ) :
    (each f xs s).map (Prod.map π id) = each g (xs.map ρ) (π s) := by
  induction xs generalizing s with
  | nil => rfl
  | cons x xs ih =>
    rw [List.map_cons, each_cons, each_cons, ← hf, Option.map_bind, Option.bind_map]
    congr 1
    funext ⟨s', go⟩
    rcases go with _ | _
    · rfl
    · exact ih s'

theorem each_append (xs ys : List α) (s : σ) : each f (xs ++ ys) s =
    (each f xs s).bind fun (s', go) => if go then each f ys s' else some (s', false) := by
  induction xs generalizing s with
  | nil => rfl
  | cons x xs ih =>
    rw [List.cons_append, each_cons, each_cons, Option.bind_assoc]
    congr 1
    funext ⟨s', go⟩
    rcases go with _ | _
    · rfl
    · exact ih s'

/-- A loop of loops. -/
theorem each_flatMap {β : Type*} (l : β → List α) (ys : List β) (s : σ) :
    each f (ys.flatMap l) s = each (fun s y => each f (l y) s) ys s := by
  induction ys generalizing s with
  | nil => rfl
  | cons y ys ih =>
    rw [List.flatMap_cons, each_append, each_cons]
    congr 1
    funext ⟨s', go⟩
    rcases go with _ | _
    · rfl
    · exact ih s'

theorem values_succ (a d : BitVec w) (n : ℕ) : values a d (n + 1) = a :: values (a + d) d n := by
  rw [values, List.range_succ_eq_map, List.map_cons, List.map_map, values]
  congr 1
  · simp
  · refine List.map_congr_left fun i _ => ?_
    rw [Function.comp_apply, BitVec.add_assoc]
    congr 1
    refine BitVec.eq_of_toNat_eq ?_
    rw [BitVec.toNat_add, BitVec.toNat_ofNat, BitVec.toNat_ofNat, Nat.add_mod_mod,
      Nat.succ_eq_add_one, Nat.add_mul, Nat.one_mul, Nat.add_comm]

/-- The values of `v` go up from `a` and stay below `b`. -/
theorem mem_values {a b d v : BitVec w} (hd : 0 < d.toNat) :
    v ∈ values a d (rounds a b d) ↔ ∃ i, v.toNat = a.toNat + i * d.toNat ∧ v < b := by
  have hb := b.isLt
  rw [values, List.mem_map]
  constructor
  · rintro ⟨i, hi, rfl⟩
    rw [List.mem_range, rounds, Nat.lt_div_iff_mul_lt hd] at hi
    have hlt : a.toNat + i * d.toNat < b.toNat := by omega
    have ht : (a + BitVec.ofNat w (i * d.toNat)).toNat = a.toNat + i * d.toNat := by
      rw [BitVec.toNat_add, BitVec.toNat_ofNat, Nat.add_mod_mod, Nat.mod_eq_of_lt (by omega)]
    exact ⟨i, ht, BitVec.lt_def.2 (ht ▸ hlt)⟩
  · rintro ⟨i, hv, hlt⟩
    have hlt := BitVec.lt_def.1 hlt
    refine ⟨i, ?_, BitVec.eq_of_toNat_eq ?_⟩
    · rw [List.mem_range, rounds, Nat.lt_div_iff_mul_lt hd]
      omega
    · rw [BitVec.toNat_add, BitVec.toNat_ofNat, Nat.add_mod_mod, Nat.mod_eq_of_lt (by omega), hv]

/-- The values of `v` are increasing. -/
theorem values_pairwise {a b d : BitVec w} (hd : 0 < d.toNat) :
    (values a d (rounds a b d)).Pairwise (· < ·) := by
  have hb := b.isLt
  have ht : ∀ i ∈ List.range (rounds a b d),
      (a + BitVec.ofNat w (i * d.toNat)).toNat = a.toNat + i * d.toNat := fun i hi => by
    rw [List.mem_range, rounds, Nat.lt_div_iff_mul_lt hd] at hi
    rw [BitVec.toNat_add, BitVec.toNat_ofNat, Nat.add_mod_mod, Nat.mod_eq_of_lt (by omega)]
  rw [values, List.pairwise_map]
  refine List.pairwise_lt_range.imp_of_mem fun {i j} hi hj hij => ?_
  rw [BitVec.lt_def, ht i hi, ht j hj]
  exact Nat.add_lt_add_left (Nat.mul_lt_mul_of_pos_right hij hd) _

/-- With enough fuel the loop goes through the values of `v`. -/
theorem forUp_eq_each {f : σ → BitVec w → Option (σ × Bool)} {b d : BitVec w} (hd : 0 < d.toNat)
    (hb : b.toNat + d.toNat ≤ 2 ^ w) : ∀ {n : ℕ} {a : BitVec w} {s : σ}, rounds a b d < n →
    forUp f b d n a s = each f (values a d (rounds a b d)) s
  | 0, _, _, hn => absurd hn (Nat.not_lt_zero _)
  | n + 1, a, s, hn => by
    rw [forUp]
    by_cases hab : a < b
    · have hlt := BitVec.lt_def.1 hab
      have had : (a + d).toNat = a.toNat + d.toNat := by
        rw [BitVec.toNat_add, Nat.mod_eq_of_lt (by omega)]
      have hr : rounds a b d = rounds (a + d) b d + 1 := by
        rw [rounds, rounds, had]
        rcases Nat.lt_or_ge (b.toNat - a.toNat) d.toNat with h | h
        · rw [show b.toNat - (a.toNat + d.toNat) = 0 by omega, Nat.zero_add,
            Nat.div_eq_of_lt (show d.toNat - 1 < d.toNat by omega)]
          exact Nat.div_eq_of_lt_le (by omega) (by omega)
        · rw [← Nat.add_div_right _ hd]
          congr 1
          omega
      rw [if_pos hab, hr, values_succ, each_cons]
      congr 1
      funext ⟨s', go⟩
      rcases go with _ | _
      · rfl
      · exact forUp_eq_each hd hb (by omega)
    · have hle := BitVec.le_def.1 (BitVec.not_lt.1 hab)
      have hr : rounds a b d = 0 := by
        rw [rounds, Nat.sub_eq_zero_of_le hle, Nat.zero_add]
        exact Nat.div_eq_of_lt (by omega)
      rw [if_neg hab, hr]
      rfl

end Loop
