import Mathlib.Tactic.Common

/-!
# Computations on a state that may have no result

`StateT σ Option α` is a computation that changes a state and may have no defined result. The
lemmas say how a sequence runs given how its first part does, and back.

Six properties go through sequences and choices. `Keeps I x` : `I` is an invariant of `x`.
`Returns P x` : what `x` returns has the property `P`. `Total x` : `x` has a result. `Leads x s Q` :
from `s` it has one, with the property `Q`. `Follows G R x y` : `y` runs like `x` does, where `x` ends
in `G`. `Erases g R x y` : `y` runs like `x` on a part of the state.
-/

namespace StateRun

variable {σ α β : Type} {x : StateT σ Option α} {f : α → StateT σ Option β} {s t u : σ} {a : α}
  {b : β}

theorem bind_apply : (x >>= f) s = (x s).bind fun r => f r.1 r.2 := rfl

@[simp] theorem pure_apply : (pure a : StateT σ Option α) s = some (a, s) := rfl

@[simp] theorem modify_apply (g : σ → σ) : (modify g : StateT σ Option Unit) s = some ((), g s) := rfl

theorem bind_of (h : x s = some (a, t)) : (x >>= f) s = f a t := by
  rw [bind_apply, h, Option.bind_some]

theorem bind_none (h : x s = none) : (x >>= f) s = none := by
  rw [bind_apply, h, Option.bind_none]

/-- How a sequence can end : its first part returned, and then the rest. -/
theorem bind_eq_some : (x >>= f) s = some (b, u) ↔
    ∃ a t, x s = some (a, t) ∧ f a t = some (b, u) := by
  rw [bind_apply, Option.bind_eq_some_iff]
  exact ⟨fun ⟨r, h, hf⟩ => ⟨r.1, r.2, h, hf⟩, fun ⟨a, t, h, hf⟩ => ⟨(a, t), h, hf⟩⟩

/-- `x` leaves the states of `I` in `I`. -/
def Keeps (I : σ → Prop) (x : StateT σ Option α) : Prop :=
  ∀ s a t, I s → x s = some (a, t) → I t

variable {I : σ → Prop}

theorem Keeps.pure (a : α) : Keeps I (pure a : StateT σ Option α) := by
  rintro s b t hs ⟨⟩
  exact hs

theorem Keeps.bind (hx : Keeps I x) (hf : ∀ a, Keeps I (f a)) : Keeps I (x >>= f) := by
  intro s b u hs h
  obtain ⟨a, t, ha, hb⟩ := bind_eq_some.1 h
  exact hf a t b u (hx s a t hs ha) hb

/-- The rest of a sequence may use what its first part returned. -/
theorem Keeps.bind_of {P : α → Prop} (hx : Keeps I x) (hp : ∀ s a t, x s = some (a, t) → P a)
    (hf : ∀ a, P a → Keeps I (f a)) : Keeps I (x >>= f) := by
  intro s b u hs h
  obtain ⟨a, t, ha, hb⟩ := bind_eq_some.1 h
  exact hf a (hp s a t ha) t b u (hx s a t hs ha) hb

theorem Keeps.ite {c : Prop} [Decidable c] {y z : StateT σ Option α} (hy : c → Keeps I y)
    (hz : ¬c → Keeps I z) : Keeps I (if c then y else z) := by
  split_ifs with h
  · exact hy h
  · exact hz h

/-- What `x` returns has the property `P`. -/
def Returns (P : α → Prop) (x : StateT σ Option α) : Prop :=
  ∀ s a t, x s = some (a, t) → P a

section Returns

variable {P : α → Prop} {Q : β → Prop}

theorem Returns.pure {a : α} (h : P a) : Returns P (pure a : StateT σ Option α) := by
  rintro s b t ⟨⟩
  exact h

theorem Returns.bind (hx : Returns P x) (hf : ∀ a, P a → Returns Q (f a)) :
    Returns Q (x >>= f) := by
  intro s b u h
  obtain ⟨a, t, ha, hb⟩ := bind_eq_some.1 h
  exact hf a (hx s a t ha) t b u hb

theorem Returns.ite {c : Prop} [Decidable c] {y z : StateT σ Option α} (hy : c → Returns P y)
    (hz : ¬c → Returns P z) : Returns P (if c then y else z) := by
  split_ifs with h
  · exact hy h
  · exact hz h

theorem Returns.true (x : StateT σ Option α) : Returns (fun _ => True) x := fun _ _ _ _ =>
  trivial

end Returns

/-- `x` has a result in every state. -/
def Total (x : StateT σ Option α) : Prop := ∀ s, ∃ a t, x s = some (a, t)

theorem Total.pure (a : α) : Total (pure a : StateT σ Option α) := fun s => ⟨a, s, rfl⟩

theorem Total.bind (hx : Total x) (hf : ∀ a, Total (f a)) : Total (x >>= f) := fun s => by
  obtain ⟨a, t, h⟩ := hx s
  rw [bind_of h]
  exact hf a t

theorem Total.ite {c : Prop} [Decidable c] {y z : StateT σ Option α} (hy : c → Total y)
    (hz : ¬c → Total z) : Total (if c then y else z) := by
  split_ifs with h
  · exact hy h
  · exact hz h

/-- Where `x` ends in `G` it started there, the two states are related by `R`, and `y` has the same
result. -/
def Follows (G : σ → Prop) (R : σ → σ → Prop) (x y : StateT σ Option α) : Prop :=
  ∀ s a t, x s = some (a, t) → G t → G s ∧ R s t ∧ y s = some (a, t)

section Follows

variable {G : σ → Prop} {R : σ → σ → Prop} {x' : StateT σ Option α}
  {f' : α → StateT σ Option β}

theorem Follows.pure (hr : ∀ s, R s s) (a : α) :
    Follows G R (pure a : StateT σ Option α) (pure a) := by
  rintro s b t ⟨⟩ hg
  exact ⟨hg, hr s, rfl⟩

theorem Follows.bind (htrans : ∀ s t u, R s t → R t u → R s u) (hx : Follows G R x x')
    (hf : ∀ a, Follows G R (f a) (f' a)) : Follows G R (x >>= f) (x' >>= f') := by
  intro s b u h hg
  obtain ⟨a, t, ha, hb⟩ := bind_eq_some.1 h
  obtain ⟨hg', hr', hb'⟩ := hf a t b u hb hg
  obtain ⟨hg, hr, ha'⟩ := hx s a t ha hg'
  exact ⟨hg, htrans s t u hr hr', by rw [bind_of ha', hb']⟩

theorem Follows.ite {c : Prop} [Decidable c] {y z y' z' : StateT σ Option α}
    (hy : c → Follows G R y y') (hz : ¬c → Follows G R z z') :
    Follows G R (if c then y else z) (if c then y' else z') := by
  split_ifs with h
  · exact hy h
  · exact hz h

end Follows

/-- From `s` the computation has a result, with the property `Q`. -/
def Leads (x : StateT σ Option α) (s : σ) (Q : α → σ → Prop) : Prop :=
  ∃ a t, x s = some (a, t) ∧ Q a t

section Leads

variable {P : α → σ → Prop} {Q : β → σ → Prop}

theorem Leads.pure (h : P a s) : Leads (pure a) s P := ⟨a, s, rfl, h⟩

theorem Leads.bind (hx : Leads x s P) (hf : ∀ a t, P a t → Leads (f a) t Q) :
    Leads (x >>= f) s Q := by
  obtain ⟨a, t, h, hp⟩ := hx
  obtain ⟨b, u, hb, hq⟩ := hf a t hp
  exact ⟨b, u, by rw [bind_of h, hb], hq⟩

theorem Leads.mono {P' : α → σ → Prop} (hx : Leads x s P) (h : ∀ a t, P a t → P' a t) :
    Leads x s P' := by
  obtain ⟨a, t, hrun, hp⟩ := hx
  exact ⟨a, t, hrun, h a t hp⟩

theorem Leads.ite {c : Prop} [Decidable c] {y z : StateT σ Option α} (hy : c → Leads y s P)
    (hz : ¬c → Leads z s P) : Leads (if c then y else z) s P := by
  split_ifs with h
  · exact hy h
  · exact hz h

end Leads

/-- `y` does on the part `g` of the state what `x` does, with a related result. -/
def Erases {τ α' : Type} (g : σ → τ) (R : α → α' → Prop) (x : StateT σ Option α)
    (y : StateT τ Option α') : Prop :=
  ∀ s a t, x s = some (a, t) → ∃ a', R a a' ∧ y (g s) = some (a', g t)

section Erases

variable {τ α' β' : Type} {g : σ → τ} {R : α → α' → Prop} {R' : β → β' → Prop}
  {y : StateT τ Option α'} {f' : α' → StateT τ Option β'}

theorem Erases.pure {a' : α'} (h : R a a') : Erases g R (pure a) (pure a') := by
  rintro s b t ⟨⟩
  exact ⟨a', h, rfl⟩

theorem Erases.bind (hx : Erases g R x y) (hf : ∀ a a', R a a' → Erases g R' (f a) (f' a')) :
    Erases g R' (x >>= f) (y >>= f') := by
  intro s b u h
  obtain ⟨a, t, ha, hb⟩ := bind_eq_some.1 h
  obtain ⟨a', hr, ha'⟩ := hx s a t ha
  rw [bind_of ha']
  exact hf a a' hr t b u hb

/-- What only changes the rest of the state is not seen. -/
theorem Erases.bind_left (hx : ∀ s a t, x s = some (a, t) → g t = g s) {z : StateT τ Option β'}
    (hf : ∀ a, Erases g R' (f a) z) : Erases g R' (x >>= f) z := by
  intro s b u h
  obtain ⟨a, t, ha, hb⟩ := bind_eq_some.1 h
  rw [← hx s a t ha]
  exact hf a t b u hb

theorem Erases.ite {c : Prop} [Decidable c] {x' : StateT σ Option α} {y' : StateT τ Option α'}
    (hx : c → Erases g R x y) (hx' : ¬c → Erases g R x' y') :
    Erases g R (if c then x else x') (if c then y else y') := by
  split_ifs with h
  · exact hx h
  · exact hx' h

end Erases

end StateRun
