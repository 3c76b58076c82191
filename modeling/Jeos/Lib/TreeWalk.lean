import Mathlib.Data.List.Induction
import Mathlib.Tactic.Common

/-!
# Walks down a tree

`child n i` is the node below `n` at index `i`, if there is one. A path is the list
of the indices from the root, and `walk child r p` is the node it ends at. The
children may be read from a memory, so nothing says that two paths end at different
nodes.

`walk_rel` compares two child functions node by node, and `walk_congr` is the case
of equal ones. `walk_update` is the rule for a change of one entry : when the
changed table is on one path only, the walks that do not pass the entry stay, and
`walk_update_below` gives the others. `walk_insert` is the case of one more leaf.
-/

namespace TreeWalk

variable {N I : Type*} {child child' : N → I → Option N} {r n₀ : N} {p p₀ : List I} {i₀ : I}

/-- The node at the end of a path. -/
def walk (child : N → I → Option N) (r : N) (p : List I) : Option N := p.foldlM child r

@[simp] theorem walk_nil : walk child r [] = some r := rfl

@[simp] theorem walk_cons (i : I) :
    walk child r (i :: p) = (child r i).bind fun n => walk child n p := rfl

theorem walk_append (p q : List I) :
    walk child r (p ++ q) = (walk child r p).bind fun n => walk child n q :=
  List.foldlM_append

theorem walk_concat (p : List I) (i : I) :
    walk child r (p ++ [i]) = (walk child r p).bind fun n => child n i := by
  rw [walk_append]
  congr 1
  funext n
  cases h : child n i <;> simp [h]

theorem walk_concat_of (h : walk child r p = some n₀) (i : I) :
    walk child r (p ++ [i]) = child n₀ i := by
  rw [walk_concat, h, Option.bind_some]

/-- A walk that ends somewhere has been at every node before. -/
theorem exists_walk_of_concat {i : I} {n : N} (h : walk child r (p ++ [i]) = some n) :
    ∃ n', walk child r p = some n' ∧ child n' i = some n := by
  rw [walk_concat] at h
  exact Option.bind_eq_some_iff.1 h

/-- What the root has and every child has holds at the end of every walk. -/
theorem walk_induction {P : List I → N → Prop} (h0 : P [] r)
    (hs : ∀ p n i n', walk child r p = some n → P p n → child n i = some n' → P (p ++ [i]) n') :
    ∀ {p : List I} {n : N}, walk child r p = some n → P p n := by
  intro p
  induction p using List.reverseRecOn with
  | nil =>
    rintro n ⟨⟩
    exact h0
  | append_singleton p i ih =>
    intro n hn
    obtain ⟨n', hn', hc⟩ := exists_walk_of_concat hn
    exact hs p n' i n hn' (ih hn') hc

/-- Related nodes with related children have related walks. -/
theorem walk_rel {R : N → N → Prop} {r' : N} (h0 : R r r')
    (hs : ∀ p n n', walk child r p = some n → walk child' r' p = some n' → R n n' →
      ∀ i, Option.Rel R (child n i) (child' n' i)) (p : List I) :
    Option.Rel R (walk child r p) (walk child' r' p) := by
  induction p using List.reverseRecOn with
  | nil => exact .some h0
  | append_singleton p i ih =>
    rw [walk_concat, walk_concat]
    cases hn : walk child r p with
    | none =>
      rw [hn] at ih
      cases hn' : walk child' r' p with
      | none => exact .none
      | some n' => rw [hn'] at ih; cases ih
    | some n =>
      rw [hn] at ih
      cases hn' : walk child' r' p with
      | none => rw [hn'] at ih; cases ih
      | some n' =>
        rw [hn'] at ih
        cases ih with
        | some hR => exact hs p n n' hn hn' hR i

/-- Walks depend on the children of the nodes they reach. -/
theorem walk_congr (h : ∀ p n, walk child r p = some n → ∀ i, child' n i = child n i)
    (p : List I) : walk child' r p = walk child r p := by
  induction p using List.reverseRecOn with
  | nil => rfl
  | append_singleton p i ih =>
    rw [walk_concat, walk_concat, ih]
    cases hn : walk child r p with
    | none => rfl
    | some n => exact h p n hn i

/-- A change of the entry `i₀` of the node at `p₀` leaves the walks that do not pass it. -/
theorem walk_update (hu : ∀ p, walk child r p = some n₀ → p = p₀)
    (h : ∀ p n i, walk child r p = some n → ¬(n = n₀ ∧ i = i₀) → child' n i = child n i) :
    ∀ {p : List I}, ¬(p₀ ++ [i₀]) <+: p → walk child' r p = walk child r p := by
  intro p
  induction p using List.reverseRecOn with
  | nil => exact fun _ => rfl
  | append_singleton p i ih =>
    intro hp
    rw [walk_concat, walk_concat, ih fun hq => hp (hq.trans (List.prefix_append p [i]))]
    cases hn : walk child r p with
    | none => rfl
    | some n =>
      refine h p n i hn ?_
      rintro ⟨rfl, rfl⟩
      exact hp (hu p hn ▸ List.prefix_rfl)

/-- The walks that pass a changed entry go on from its new node. -/
theorem walk_update_below (hn : walk child r p₀ = some n₀)
    (hu : ∀ p, walk child r p = some n₀ → p = p₀)
    (h : ∀ p n i, walk child r p = some n → ¬(n = n₀ ∧ i = i₀) → child' n i = child n i)
    (q : List I) :
    walk child' r (p₀ ++ i₀ :: q) = (child' n₀ i₀).bind fun n => walk child' n q := by
  have h₀ : walk child' r p₀ = some n₀ := by
    rw [walk_update hu h fun hp => ?_, hn]
    have := hp.length_le
    simp only [List.length_append, List.length_singleton] at this
    omega
  rw [walk_append, h₀, Option.bind_some, walk_cons]

/-- An entry with nothing below gets a new node with nothing below : this is the only walk that
changes. -/
theorem walk_insert [DecidableEq I] {n₁ : N} (hn : walk child r p₀ = some n₀)
    (hu : ∀ p, walk child r p = some n₀ → p = p₀)
    (h : ∀ p n i, walk child r p = some n → ¬(n = n₀ ∧ i = i₀) → child' n i = child n i)
    (hnew : child' n₀ i₀ = some n₁) (hleaf : ∀ j, child' n₁ j = none)
    (hold : ∀ n, child n₀ i₀ = some n → ∀ j, child n j = none) (p : List I) :
    walk child' r p = if p = p₀ ++ [i₀] then some n₁ else walk child r p := by
  by_cases hp : (p₀ ++ [i₀]) <+: p
  · obtain ⟨q, rfl⟩ := hp
    rw [List.append_assoc, List.singleton_append, walk_update_below hn hu h q, hnew,
      Option.bind_some]
    cases q with
    | nil => rw [if_pos rfl, walk_nil]
    | cons j q =>
      rw [walk_cons, hleaf, Option.bind_none, if_neg (by simp), walk_append, hn, Option.bind_some,
        walk_cons]
      cases hx : child n₀ i₀ with
      | none => rw [Option.bind_none]
      | some n => rw [Option.bind_some, walk_cons, hold n hx, Option.bind_none]
  · rw [if_neg (by rintro rfl; exact hp List.prefix_rfl)]
    exact walk_update hu h hp

end TreeWalk
