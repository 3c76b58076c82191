import Mathlib.Data.List.Basic
import Mathlib.Tactic.Common

/-!
# Computations that change a state and may fail

`Fallible σ ε α` is a computation on states `σ` that returns a value or an error, each with the
state it leaves. `none` is a computation without a defined result.

The rules for `bind` say how a computation runs given how its first part runs, and back.
`Keeps R x` is a relation between the states before and after `x`; it goes through `bind` and
loops if `R` is a preorder. `EndsAlike R` relates the ends of two computations, and goes through `bind`
if the rests end alike wherever the first parts return.
-/

abbrev Fallible (σ ε α : Type) := ExceptT ε (StateT σ Option) α

namespace Fallible

variable {σ ε α β : Type} {x : Fallible σ ε α} {f : α → Fallible σ ε β} {s t u : σ} {a : α} {b : β}
  {e : ε}

@[simp] theorem pure_apply : (pure a : Fallible σ ε α) s = some (.ok a, s) := rfl

@[simp] theorem throw_apply : (throw e : Fallible σ ε α) s = some (.error e, s) := rfl

theorem bind_apply : (x >>= f) s = (x s).bind fun (r, t) =>
    match r with
    | .ok a => f a t
    | .error e => some (.error e, t) := by
  change (x s).bind _ = _
  refine congrArg _ (funext fun p => ?_)
  rcases p with ⟨_ | _, _⟩ <;> rfl

theorem bind_ok (h : x s = some (.ok a, t)) : (x >>= f) s = f a t := by
  rw [bind_apply, h, Option.bind_some]

theorem bind_error (h : x s = some (.error e, t)) : (x >>= f) s = some (.error e, t) := by
  rw [bind_apply, h, Option.bind_some]

theorem bind_none (h : x s = none) : (x >>= f) s = none := by
  rw [bind_apply, h, Option.bind_none]

/-- How a sequence can end : its first part fails, or it returns and then the rest ends. -/
theorem bind_eq_some {r : Except ε β} : (x >>= f) s = some (r, u) ↔
    (∃ e, x s = some (.error e, u) ∧ r = .error e) ∨
      ∃ a t, x s = some (.ok a, t) ∧ f a t = some (r, u) := by
  rw [bind_apply]
  constructor
  · intro h
    obtain ⟨⟨r', t⟩, hx, hr⟩ := Option.bind_eq_some_iff.1 h
    rcases r' with e | a
    · obtain ⟨rfl, rfl⟩ := Prod.mk.inj (Option.some.inj hr)
      exact Or.inl ⟨e, hx, rfl⟩
    · exact Or.inr ⟨a, t, hx, hr⟩
  · rintro (⟨e, hx, rfl⟩ | ⟨a, t, hx, hf⟩)
    · rw [hx, Option.bind_some]
    · rw [hx, Option.bind_some]
      exact hf

/-- How a sequence can return : its first part returned, and then the rest. -/
theorem bind_eq_ok : (x >>= f) s = some (.ok b, u) ↔
    ∃ a t, x s = some (.ok a, t) ∧ f a t = some (.ok b, u) := by
  rw [bind_eq_some]
  refine ⟨fun h => ?_, Or.inr⟩
  rcases h with ⟨e, -, he⟩ | h
  · cases he
  · exact h

/-- Two sequences run alike if their first parts do, and their rests where the first part returned. -/
theorem bind_congr {y : Fallible σ ε α} {g : α → Fallible σ ε β} (hx : y s = x s)
    (hf : ∀ a t, x s = some (.ok a, t) → g a t = f a t) : (y >>= g) s = (x >>= f) s := by
  rw [bind_apply, bind_apply, hx]
  rcases h : x s with _ | ⟨_ | a, t⟩
  · rfl
  · rfl
  · exact hf a t h

/-- `x` changes the state only along `R`. -/
def Keeps (R : σ → σ → Prop) (x : Fallible σ ε α) : Prop :=
  ∀ s r t, x s = some (r, t) → R s t

variable {R : σ → σ → Prop}

theorem Keeps.mono {R' : σ → σ → Prop} (h : ∀ s t, R s t → R' s t) (hx : Keeps R x) : Keeps R' x :=
  fun s r t hs => h s t (hx s r t hs)

theorem Keeps.pure (hR : ∀ s, R s s) (a : α) : Keeps R (pure a : Fallible σ ε α) := by
  rintro s r t ⟨⟩
  exact hR s

theorem Keeps.throw (hR : ∀ s, R s s) (e : ε) : Keeps R (throw e : Fallible σ ε α) := by
  rintro s r t ⟨⟩
  exact hR s

theorem Keeps.bind (hR : ∀ s t u, R s t → R t u → R s u) (hx : Keeps R x)
    (hf : ∀ a, Keeps R (f a)) : Keeps R (x >>= f) := by
  intro s r u h
  rcases bind_eq_some.1 h with ⟨e, hxs, -⟩ | ⟨a, t, hxs, hr⟩
  · exact hx s _ u hxs
  · exact hR s t u (hx s _ t hxs) (hf a t r u hr)

theorem Keeps.foldlM {f : α → β → Fallible σ ε α} (hrefl : ∀ s, R s s)
    (htrans : ∀ s t u, R s t → R t u → R s u) (hf : ∀ a b, Keeps R (f a b)) (a : α)
    (l : List β) : Keeps R (l.foldlM f a) := by
  induction l generalizing a with
  | nil => exact Keeps.pure hrefl a
  | cons b l ih =>
    rw [List.foldlM_cons]
    exact (hf a b).bind htrans ih

/-- Two computations end with the same error, or with values and states that `S` relates. -/
inductive EndsAlike (S : α → σ → β → σ → Prop) :
    Option (Except ε α × σ) → Option (Except ε β × σ) → Prop where
  | error (e : ε) (s t : σ) : EndsAlike S (some (.error e, s)) (some (.error e, t))
  | ok {a : α} {b : β} {s t : σ} (h : S a s b t) : EndsAlike S (some (.ok a, s)) (some (.ok b, t))

theorem EndsAlike.mono {S S' : α → σ → β → σ → Prop} (h : ∀ a s b t, S a s b t → S' a s b t)
    {r : Option (Except ε α × σ)} {r' : Option (Except ε β × σ)} (hr : EndsAlike S r r') :
    EndsAlike S' r r' := by
  cases hr with
  | error e s t => exact .error e s t
  | ok hS => exact .ok (h _ _ _ _ hS)

theorem EndsAlike.bind {γ δ : Type} {S : α → σ → β → σ → Prop} {S' : γ → σ → δ → σ → Prop}
    {y : Fallible σ ε β} {f : α → Fallible σ ε γ} {g : β → Fallible σ ε δ}
    (h : EndsAlike S (x s) (y t))
    (hf : ∀ a u b v, x s = some (.ok a, u) → y t = some (.ok b, v) → S a u b v →
      EndsAlike S' (f a u) (g b v)) : EndsAlike S' ((x >>= f) s) ((y >>= g) t) := by
  rw [bind_apply, bind_apply]
  generalize x s = r at h hf
  generalize y t = r' at h hf
  cases h with
  | error e u v => exact .error e u v
  | ok hS => exact hf _ _ _ _ rfl rfl hS

end Fallible
