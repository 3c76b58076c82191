import Mathlib.Logic.Equiv.Basic
import Mathlib.Logic.Function.Basic

/-!
# Resources and their holders

`own o` is the resource the holder `o` keeps, if any, and `live` tells which resources
are allocated. `Held own live` : every kept resource is live, and no two holders keep the
same one. So a holder that frees its resource leaves the others live.

The rules compare the holders before and after a step : nothing is gained (`Held.mono`),
a fresh resource is handed out (`Held.insert`), a holder gives its resource back
(`Held.erase`), two holders exchange what they keep (`Held.swap`).

`Marked own mark` says more : `mark` holds of exactly the resources that are kept, each by one
holder. A mark is set when a resource is taken (`Marked.take`) and removed when it is dropped
(`Marked.drop`).
-/

variable {O R : Type*} [DecidableEq O] [DecidableEq R]

/-- Every kept resource is live and kept by one holder. -/
structure Held (own : O → Option R) (live : R → Bool) : Prop where
  live : ∀ o r, own o = some r → live r = true
  inj : ∀ o o' r, own o = some r → own o' = some r → o = o'

namespace Held

variable {own own' : O → Option R} {live : R → Bool} {o₀ o₁ : O} {r₀ : R}

omit [DecidableEq O] [DecidableEq R] in
theorem mono (h : Held own live) (hs : ∀ o r, own' o = some r → own o = some r) :
    Held own' live where
  live := fun o r hr => h.live o r (hs o r hr)
  inj := fun o o' r hr hr' => h.inj o o' r (hs o r hr) (hs o' r hr')

omit [DecidableEq O] in
/-- `o₀` gets the fresh resource `r₀`. -/
theorem insert (h : Held own live) (hfree : live r₀ = false)
    (hs : ∀ o r, own' o = some r → o = o₀ ∧ r = r₀ ∨ own o = some r) :
    Held own' (Function.update live r₀ true) := by
  have hne : ∀ {o r}, own o = some r → r ≠ r₀ := fun {o r} hr e => by
    rw [← e, h.live o r hr] at hfree
    exact Bool.noConfusion hfree
  constructor
  · intro o r hr
    rcases hs o r hr with ⟨-, rfl⟩ | hr'
    · exact Function.update_self _ _ _
    · rw [Function.update_of_ne (hne hr'), h.live o r hr']
  · intro o o' r hr hr'
    rcases hs o r hr with ⟨rfl, rfl⟩ | h1 <;> rcases hs o' r hr' with ⟨rfl, hr₀⟩ | h2
    · rfl
    · exact absurd rfl (hne h2)
    · exact absurd hr₀ (hne h1)
    · exact h.inj o o' r h1 h2

omit [DecidableEq O] in
/-- `o₀` gives `r₀` back. -/
theorem erase (h : Held own live) (h₀ : own o₀ = some r₀)
    (hs : ∀ o r, own' o = some r → o ≠ o₀ ∧ own o = some r) :
    Held own' (Function.update live r₀ false) where
  live := fun o r hr => by
    obtain ⟨ho, hr'⟩ := hs o r hr
    have hne : r ≠ r₀ := fun e => ho (h.inj o o₀ r hr' (e ▸ h₀))
    rw [Function.update_of_ne hne, h.live o r hr']
  inj := fun o o' r hr hr' => h.inj o o' r (hs o r hr).2 (hs o' r hr').2

omit [DecidableEq R] in
/-- `o₀` and `o₁` exchange what they keep. -/
theorem swap (h : Held own live) (o₀ o₁ : O)
    (hs : ∀ o r, own' o = some r → own (Equiv.swap o₀ o₁ o) = some r) : Held own' live where
  live := fun o r hr => h.live _ r (hs o r hr)
  inj := fun o o' r hr hr' =>
    (Equiv.swap o₀ o₁).injective (h.inj _ _ r (hs o r hr) (hs o' r hr'))

end Held

omit [DecidableEq O] [DecidableEq R] in
/-- The resources with the mark are the kept ones, and kept by one holder each. -/
structure Marked (own : O → Option R) (mark : R → Prop) : Prop where
  iff : ∀ r, mark r ↔ ∃ o, own o = some r
  inj : ∀ o o' r, own o = some r → own o' = some r → o = o'

namespace Marked

variable {own own' : O → Option R} {mark mark' : R → Prop} {o₀ : O} {r₀ : R}

omit [DecidableEq O] [DecidableEq R] in
theorem congr (h : Marked own mark) (hown : ∀ o, own' o = own o) (hmark : ∀ r, mark' r ↔ mark r) :
    Marked own' mark' where
  iff r := by
    rw [hmark, h.iff]
    exact exists_congr fun o => by rw [hown]
  inj o o' r hr hr' := h.inj o o' r (hown o ▸ hr) (hown o' ▸ hr')

omit [DecidableEq O] [DecidableEq R] in
theorem existsUnique (h : Marked own mark) (r : R) : mark r ↔ ∃! o, own o = some r :=
  ⟨fun hr => by
    obtain ⟨o, ho⟩ := (h.iff r).1 hr
    exact ⟨o, ho, fun o' ho' => h.inj o' o r ho' ho⟩,
  fun ⟨o, ho, _⟩ => (h.iff r).2 ⟨o, ho⟩⟩

omit [DecidableEq R] in
/-- `o₀` had nothing and takes `r₀`, which nobody had. -/
theorem take (h : Marked own mark) (h₀ : own o₀ = none) (hr₀ : ¬mark r₀)
    (hown : ∀ o, own' o = if o = o₀ then some r₀ else own o)
    (hmark : ∀ r, mark' r ↔ r = r₀ ∨ mark r) : Marked own' mark' := by
  have hne : ∀ o, own o ≠ some r₀ := fun o ho => hr₀ ((h.iff r₀).2 ⟨o, ho⟩)
  constructor
  · intro r
    rw [hmark, h.iff]
    constructor
    · rintro (rfl | ⟨o, ho⟩)
      · exact ⟨o₀, by rw [hown, if_pos rfl]⟩
      · refine ⟨o, ?_⟩
        rw [hown, if_neg, ho]
        rintro rfl
        rw [h₀] at ho
        cases ho
    · rintro ⟨o, ho⟩
      rw [hown] at ho
      split_ifs at ho with he
      · exact Or.inl (Option.some.inj ho).symm
      · exact Or.inr ⟨o, ho⟩
  · intro o o' r hr hr'
    rw [hown] at hr hr'
    split_ifs at hr hr' with he he' he'
    · rw [he, he']
    · exact absurd (hr'.trans hr.symm) (hne o')
    · exact absurd (hr.trans hr'.symm) (hne o)
    · exact h.inj o o' r hr hr'

omit [DecidableEq R] in
/-- `o₀` drops `r₀`. -/
theorem drop (h : Marked own mark) (h₀ : own o₀ = some r₀)
    (hown : ∀ o, own' o = if o = o₀ then none else own o)
    (hmark : ∀ r, mark' r ↔ r ≠ r₀ ∧ mark r) : Marked own' mark' := by
  constructor
  · intro r
    rw [hmark, h.iff]
    constructor
    · rintro ⟨hne, o, ho⟩
      refine ⟨o, ?_⟩
      rw [hown, if_neg, ho]
      rintro rfl
      exact hne (Option.some.inj (ho.symm.trans h₀))
    · rintro ⟨o, ho⟩
      rw [hown] at ho
      split_ifs at ho with he
      exact ⟨fun e => he (h.inj o o₀ r ho (e ▸ h₀)), o, ho⟩
  · intro o o' r hr hr'
    rw [hown] at hr hr'
    split_ifs at hr hr' with he he'
    exact h.inj o o' r hr hr'

omit [DecidableEq R] in
/-- `o₀` keeps what it has, takes `r₀` or drops it, and no other mark changes. -/
theorem move {x : Option R} (h : Marked own mark) (hown : ∀ o, own' o = if o = o₀ then x else own o)
    (hmark : ∀ r, r ≠ r₀ → (mark' r ↔ mark r))
    (hx : x = own o₀ ∧ (mark' r₀ ↔ mark r₀) ∨ own o₀ = none ∧ x = some r₀ ∧ ¬mark r₀ ∧ mark' r₀ ∨
      own o₀ = some r₀ ∧ x = none ∧ ¬mark' r₀) : Marked own' mark' := by
  rcases hx with ⟨hx, hm⟩ | ⟨h₀, rfl, hr₀, hm⟩ | ⟨h₀, rfl, hm⟩
  · refine h.congr (fun o => ?_) fun r => ?_
    · rw [hown]
      split_ifs with ho
      · rw [hx, ho]
      · rfl
    · rcases eq_or_ne r r₀ with rfl | hr
      · exact hm
      · exact hmark r hr
  · refine h.take h₀ hr₀ hown fun r => ?_
    rcases eq_or_ne r r₀ with rfl | hr
    · exact iff_of_true hm (Or.inl rfl)
    · rw [hmark r hr, or_iff_right hr]
  · refine h.drop h₀ hown fun r => ?_
    rcases eq_or_ne r r₀ with rfl | hr
    · exact iff_of_false hm fun h => h.1 rfl
    · rw [hmark r hr, and_iff_right hr]

end Marked
