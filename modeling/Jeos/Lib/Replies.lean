import Mathlib.Tactic.Common

/-!
# Answering requests

A server performs one request after the other, and each gives a reply. `serve` is a run of a partial one,
which has no result where a request has none, and `answer` a run of a total one, the specification.

A server that does every allowed request as the specification does gives its replies
(`serve_refines`).
-/

namespace Replies

variable {σ τ ε ρ : Type}

/-- The replies to the requests, and the state after them. -/
def serve (step : σ → ε → Option (ρ × σ)) : σ → List ε → Option (List ρ × σ)
  | s, [] => some ([], s)
  | s, e :: es => (step s e).bind fun x => (serve step x.2 es).map fun y => (x.1 :: y.1, y.2)

def answer (spec : τ → ε → ρ × τ) : τ → List ε → List ρ × τ
  | t, [] => ([], t)
  | t, e :: es => ((spec t e).1 :: (answer spec (spec t e).2 es).1, (answer spec (spec t e).2 es).2)

/-- Every request is allowed where it is made. -/
def Allowed (step : σ → ε → Option (ρ × σ)) (C : σ → ε → Prop) : σ → List ε → Prop
  | _, [] => True
  | s, e :: es => C s e ∧ ∀ x, step s e = some x → Allowed step C x.2 es

instance Allowed.decidable {step : σ → ε → Option (ρ × σ)} {C : σ → ε → Prop}
    [∀ s e, Decidable (C s e)] : ∀ (s : σ) (es : List ε), Decidable (Allowed step C s es)
  | _, [] => .isTrue trivial
  | s, e :: es =>
    match h : step s e with
    | none => decidable_of_iff (C s e) (by simp [Allowed, h])
    | some x =>
      have : Decidable (Allowed step C x.2 es) := Allowed.decidable x.2 es
      decidable_of_iff (C s e ∧ Allowed step C x.2 es) (by simp [Allowed, h])

variable {step : σ → ε → Option (ρ × σ)} {spec : τ → ε → ρ × τ} {C : σ → ε → Prop}
  {R : σ → τ → Prop} {s : σ} {t : τ} {es fs : List ε}

theorem serve_refines
    (hstep : ∀ s t e, R s t → C s e → ∃ s', step s e = some ((spec t e).1, s') ∧ R s' (spec t e).2)
    (h : R s t) (hes : Allowed step C s es) :
    ∃ s', serve step s es = some ((answer spec t es).1, s') ∧ R s' (answer spec t es).2 := by
  induction es generalizing s t with
  | nil => exact ⟨s, rfl, h⟩
  | cons e es ih =>
    obtain ⟨s', he, h'⟩ := hstep s t e h hes.1
    obtain ⟨s'', hrun, h''⟩ := ih h' (hes.2 _ he)
    refine ⟨s'', ?_, h''⟩
    rw [serve, he, Option.bind_some, hrun]
    rfl

theorem answer_append (t : τ) (es fs : List ε) : answer spec t (es ++ fs) =
    ((answer spec t es).1 ++ (answer spec (answer spec t es).2 fs).1,
      (answer spec (answer spec t es).2 fs).2) := by
  induction es generalizing t with
  | nil => rfl
  | cons e es ih =>
    rw [List.cons_append, answer, ih]
    rfl

theorem answer_length (t : τ) (es : List ε) : (answer spec t es).1.length = es.length := by
  induction es generalizing t with
  | nil => rfl
  | cons e es ih => exact congrArg (· + 1) (ih _)

end Replies
