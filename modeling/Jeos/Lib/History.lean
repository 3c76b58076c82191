import Mathlib.Data.List.Basic
import Mathlib.Tactic.Common

/-!
# Properties of a history

A history is a list of entries, the newest last. `Each P h` says that every entry has the
property `P` with the entries before it : what happened had its cause in the past. It is kept
by adding an entry that has it (`each_concat`).
-/

namespace History

variable {α : Type*}

/-- Every entry satisfies `P` with the entries before it. -/
def Each (P : List α → α → Prop) (h : List α) : Prop :=
  ∀ pre a post, h = pre ++ a :: post → P pre a

variable {P : List α → α → Prop} {h : List α} {a : α}

theorem each_nil : Each P [] := by
  intro pre a post he
  simp at he

theorem each_concat : Each P (h ++ [a]) ↔ Each P h ∧ P h a := by
  constructor
  · intro hE
    refine ⟨fun pre b post he => hE pre b (post ++ [a]) ?_, hE h a [] rfl⟩
    rw [he, List.append_assoc, List.cons_append]
  · rintro ⟨hE, ha⟩ pre b post he
    rcases List.eq_nil_or_concat post with rfl | ⟨post', c, rfl⟩
    · obtain ⟨rfl, hb⟩ := List.append_inj' he rfl
      rwa [← List.singleton_inj.1 hb]
    · have he' : h ++ [a] = (pre ++ b :: post') ++ [c] := by simpa using he
      exact hE pre b post' (List.append_inj' he' rfl).1

end History
