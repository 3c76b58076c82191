import Mathlib.Data.List.Basic
import Mathlib.Tactic.Common

/-!
# Runs of a partial step function

`step s e` is the state after the event `e` in `s`, or `none` if `e` cannot
happen there. A run is a list of events folded through `step`.

`run_invariant` is the induction rule : what every step preserves holds at the
end of every run (`run_invariant_of` if only good events preserve it).
`always_of_eachStep` is the rule for a step that is good only under a condition :
if every event of a run meets it, the invariant holds in every state on the way,
and `eachStep_iff_always` is the converse for a condition whose violation shows
in the next state.
-/

namespace Run

variable {σ ε : Type*} (step : σ → ε → Option σ)

/-- The state after the events `es`. -/
def run (s : σ) (es : List ε) : Option σ := es.foldlM step s

@[simp] theorem run_nil (s : σ) : run step s [] = some s := rfl

@[simp] theorem run_cons (s : σ) (e : ε) (es : List ε) :
    run step s (e :: es) = (step s e).bind fun s' => run step s' es := rfl

theorem run_append (s : σ) (es fs : List ε) :
    run step s (es ++ fs) = (run step s es).bind fun s' => run step s' fs :=
  List.foldlM_append

/-- `P` holds now and in every state the run reaches. -/
def Always (P : σ → Prop) : σ → List ε → Prop
  | s, [] => P s
  | s, e :: es => P s ∧ ∀ s', step s e = some s' → Always P s' es

/-- Every event of the run meets `C` in the state it happens in. -/
def EachStep (C : σ → ε → Prop) : σ → List ε → Prop
  | _, [] => True
  | s, e :: es => C s e ∧ ∀ s', step s e = some s' → EachStep C s' es

variable {step} {I P : σ → Prop} {C : σ → ε → Prop} {s t : σ} {es : List ε}

instance EachStep.decidable [∀ s e, Decidable (C s e)] :
    ∀ (s : σ) (es : List ε), Decidable (EachStep step C s es)
  | _, [] => .isTrue trivial
  | s, e :: es =>
    match h : step s e with
    | none => decidable_of_iff (C s e) (by simp [EachStep, h])
    | some s' =>
      have := EachStep.decidable s' es
      decidable_of_iff (C s e ∧ EachStep step C s' es) (by simp [EachStep, h])

theorem Always.head (h : Always step P s es) : P s := by
  cases es with
  | nil => exact h
  | cons e es => exact h.1

theorem Always.mono {Q : σ → Prop} (hPQ : ∀ s, P s → Q s) (h : Always step P s es) :
    Always step Q s es := by
  induction es generalizing s with
  | nil => exact hPQ s h
  | cons e es ih => exact ⟨hPQ s h.1, fun s' hs => ih (h.2 s' hs)⟩

/-- What holds in every state of a run holds at its end. -/
theorem Always.last (h : Always step P s es) (hr : run step s es = some t) : P t := by
  induction es generalizing s with
  | nil => exact Option.some.inj hr ▸ h
  | cons e es ih =>
    obtain ⟨s', hs, hr'⟩ := Option.bind_eq_some_iff.1 hr
    exact ih (h.2 s' hs) hr'

/-- If every good step keeps the invariant, a run of good steps has it throughout. -/
theorem always_of_eachStep (hstep : ∀ s e s', I s → C s e → step s e = some s' → I s')
    (h : I s) (hc : EachStep step C s es) : Always step I s es := by
  induction es generalizing s with
  | nil => exact h
  | cons e es ih => exact ⟨h, fun s' hs => ih (hstep s e s' h hc.1 hs) (hc.2 s' hs)⟩

/-- What an invariant gives for every good step of a run. -/
theorem EachStep.of_invariant {D : σ → ε → Prop}
    (hstep : ∀ s e s', I s → C s e → step s e = some s' → I s') (hD : ∀ s e, I s → C s e → D s e)
    (h : I s) (hc : EachStep step C s es) : EachStep step D s es := by
  induction es generalizing s with
  | nil => trivial
  | cons e es ih =>
    exact ⟨hD s e h hc.1, fun s' hs => ih (hstep s e s' h hc.1 hs) (hc.2 s' hs)⟩

theorem eachStep_of_forall {G : ε → Prop} (hg : ∀ e ∈ es, G e) (s : σ) :
    EachStep step (fun _ e => G e) s es := by
  induction es generalizing s with
  | nil => trivial
  | cons e es ih =>
    exact ⟨hg e List.mem_cons_self,
      fun s' _ => ih (fun e' he' => hg e' (List.mem_cons_of_mem _ he')) s'⟩

/-- What every step with a good event keeps holds at the end of a run of good events. -/
theorem run_invariant_of {G : ε → Prop} (hstep : ∀ s e s', I s → G e → step s e = some s' → I s')
    (h : I s) (hg : ∀ e ∈ es, G e) (hr : run step s es = some t) : I t :=
  (always_of_eachStep hstep h (eachStep_of_forall hg s)).last hr

/-- What every step keeps holds at the end of a run. -/
theorem run_invariant (hstep : ∀ s e s', I s → step s e = some s' → I s') (h : I s)
    (hr : run step s es = some t) : I t :=
  run_invariant_of (G := fun _ => True) (fun s e s' hi _ => hstep s e s' hi) h
    (fun _ _ => trivial) hr

/-- If a step with a good event is good exactly when the next state is, a run of good
events is good exactly when all its steps are. -/
theorem eachStep_iff_always {G : ε → Prop}
    (hstep : ∀ s e s', I s → G e → C s e → step s e = some s' → I s') (hP : ∀ s, I s → P s)
    (hbad : ∀ s e s', I s → G e → ¬C s e → step s e = some s' → ¬P s') (h : I s)
    (hg : ∀ e ∈ es, G e) (hr : run step s es = some t) :
    EachStep step C s es ↔ Always step P s es := by
  induction es generalizing s with
  | nil => exact ⟨fun _ => hP s h, fun _ => trivial⟩
  | cons e es ih =>
    obtain ⟨s₁, hs₁, hr₁⟩ := Option.bind_eq_some_iff.1 hr
    have hge := hg e List.mem_cons_self
    have hnext : ∀ s', step s e = some s' → s' = s₁ := fun s' hs' =>
      Option.some.inj (hs'.symm.trans hs₁)
    have hrest : C s e → (EachStep step C s₁ es ↔ Always step P s₁ es) := fun hC =>
      ih (hstep s e s₁ h hge hC hs₁) (fun e' he' => hg e' (List.mem_cons_of_mem _ he')) hr₁
    constructor
    · rintro ⟨hC, hc⟩
      exact ⟨hP s h, fun s' hs' => hnext s' hs' ▸ (hrest hC).1 (hc s₁ hs₁)⟩
    · rintro ⟨-, ha⟩
      have hC : C s e := by
        by_contra hc
        exact hbad s e s₁ h hge hc hs₁ (ha s₁ hs₁).head
      exact ⟨hC, fun s' hs' => hnext s' hs' ▸ (hrest hC).2 (ha s₁ hs₁)⟩

/-! ## Counted loops -/

/-- A loop over `0, …, n - 1` keeps what every round keeps. -/
theorem foldlM_range {f : σ → ℕ → Option σ} {n : ℕ} {I : ℕ → σ → Prop}
    (hstep : ∀ i < n, ∀ s s', I i s → f s i = some s' → I (i + 1) s') (h : I 0 s)
    (hr : (List.range n).foldlM f s = some t) : I n t := by
  induction n generalizing t with
  | zero => exact Option.some.inj hr ▸ h
  | succ n ih =>
    rw [List.range_succ, List.foldlM_append] at hr
    obtain ⟨u, hu, ht⟩ := Option.bind_eq_some_iff.1 hr
    obtain ⟨t', ht', he⟩ := Option.bind_eq_some_iff.1 ht
    obtain rfl := Option.some.inj he
    exact hstep n n.lt_succ_self u t' (ih (fun i hi => hstep i (by omega)) hu) ht'

/-- A loop whose rounds return when the invariant holds returns. -/
theorem exists_foldlM_range {f : σ → ℕ → Option σ} {n : ℕ} {I : ℕ → σ → Prop}
    (hstep : ∀ i < n, ∀ s, I i s → ∃ s', f s i = some s' ∧ I (i + 1) s') (h : I 0 s) :
    ∃ t, (List.range n).foldlM f s = some t ∧ I n t := by
  induction n with
  | zero => exact ⟨s, rfl, h⟩
  | succ n ih =>
    obtain ⟨u, hu, hI⟩ := ih fun i hi => hstep i (by omega)
    obtain ⟨t, ht, hI'⟩ := hstep n n.lt_succ_self u hI
    refine ⟨t, ?_, hI'⟩
    rw [List.range_succ, List.foldlM_append]
    exact Option.bind_eq_some_iff.2 ⟨u, hu, Option.bind_eq_some_iff.2 ⟨t, ht, rfl⟩⟩

/-- A run of a total step function returns. -/
theorem exists_run (h : ∀ s e, ∃ s', step s e = some s') (s : σ) (es : List ε) :
    ∃ t, run step s es = some t := by
  induction es generalizing s with
  | nil => exact ⟨s, rfl⟩
  | cons e es ih =>
    obtain ⟨s', hs⟩ := h s e
    obtain ⟨t, ht⟩ := ih s'
    exact ⟨t, by rw [run_cons, hs, Option.bind_some, ht]⟩

end Run
