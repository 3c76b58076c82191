import Jeos.Lib.SlotTable
import Mathlib.Data.List.Count

/-!
# Reference-counted cells in recycled memory

The slots of a table hold addresses of cells. A cell counts the references to it, and its memory is
given back with the last one and may become another cell. `Numbered` is the same without memory :
every cell has a number of its own and is kept for ever, and there are no counts.

`Names` relates the two. The references that a call has in its hands, besides those of the table, are
listed in `held`. Making a cell, taking, giving back, storing and clearing a reference keep the
relation, and only what the table says and what a cell holds shows in the numbered form.
-/

namespace SharedCells

open SlotTable

variable {S A β δ : Type}

/-- A table of numbers, and the cells made so far. -/
structure Numbered (S δ : Type) where
  table : S → Option ℕ
  cells : List δ

namespace Numbered

/-- A new cell. -/
def new (N : Numbered S δ) (d : δ) : Numbered S δ := { N with cells := N.cells ++ [d] }

/-- The number of the next cell. -/
def next (N : Numbered S δ) : ℕ := N.cells.length

variable [DecidableEq S]

/-- The slot refers to a cell, or to none. -/
def put (N : Numbered S δ) (i : S) (x : Option ℕ) : Numbered S δ :=
  { N with table := Function.update N.table i x }

@[simp] theorem put_put (N : Numbered S δ) (i : S) (x y : Option ℕ) :
    (N.put i x).put i y = N.put i y := by
  rw [put, put, Function.update_idem, ← put]

/-- A slot keeps what it has. -/
theorem put_self {N : Numbered S δ} {i : S} {x : Option ℕ} (h : N.table i = x) : N.put i x = N := by
  rw [put, ← h, Function.update_eq_self]

omit [DecidableEq S] in
/-- The cell gets another content. -/
def write (N : Numbered S δ) (x : ℕ) (d : δ) : Numbered S δ :=
  { N with cells := N.cells.set x d }

end Numbered

variable [Fintype S] [DecidableEq A]

/-- The cell at an address has the number `name`. A cell in memory has a count and a content. -/
structure Names (count : β → ℕ) (val : β → δ) (name : A → ℕ) (T : S → Option A) (heap : A → Option β)
    (held : List A) (N : Numbered S δ) : Prop where
  table : ∀ i, N.table i = (T i).map name
  counts : ∀ a, (heap a).elim 0 count = refs T a + held.count a
  pos : ∀ a x, heap a = some x → 0 < count x
  cell : ∀ a x, heap a = some x → N.cells[name a]? = some (val x)
  inj : ∀ a b x y, heap a = some x → heap b = some y → name a = name b → a = b

variable {count : β → ℕ} {val : β → δ} {name : A → ℕ} {T : S → Option A} {heap : A → Option β}
  {held : List A} {N : Numbered S δ} {i : S} {a b : A} {x y : β}

namespace Names

/-- A cell that is referred to is there. -/
theorem live_of_slot (h : Names count val name T heap held N) (hi : T i = some a) :
    ∃ x, heap a = some x := by
  have hc := h.counts a
  have hpos := refs_pos.2 ⟨i, hi⟩
  cases hx : heap a with
  | some x => exact ⟨x, rfl⟩
  | none =>
    rw [hx, Option.elim_none] at hc
    omega

theorem live_of_held (h : Names count val name T heap held N) (ha : a ∈ held) :
    ∃ x, heap a = some x := by
  have hc := h.counts a
  have hpos := List.count_pos_iff.2 ha
  cases hx : heap a with
  | some x => exact ⟨x, rfl⟩
  | none =>
    rw [hx, Option.elim_none] at hc
    omega

theorem lt (h : Names count val name T heap held N) (ha : heap a = some x) : name a < N.next :=
  (List.getElem?_eq_some_iff.1 (h.cell a x ha)).1

/-- The count of a cell is at most the number of slots and of references on their way. -/
theorem count_le (h : Names count val name T heap held N) (ha : heap a = some x) :
    count x ≤ Fintype.card S + held.length := by
  have hc := h.counts a
  have hle := refs_le T a
  have hheld := List.count_le_length (a := a) (l := held)
  rw [ha, Option.elim_some] at hc
  omega

/-- Other cells than the one at `a` are as before. -/
theorem counts_update {r : Option β} {held' : List A} (h : Names count val name T heap held N)
    (ha : r.elim 0 count = refs T a + held'.count a)
    (hne : ∀ b, b ≠ a → held'.count b = held.count b) (b : A) :
    (Function.update heap a r b).elim 0 count = refs T b + held'.count b := by
  by_cases hb : b = a
  · subst hb
    rw [Function.update_self, ha]
  · rw [Function.update_of_ne hb, h.counts b, hne b hb]

/-- A new cell at a free address. -/
theorem new (h : Names count val name T heap held N) (ha : heap a = none) (hx : count x = 1) :
    Names count val (Function.update name a N.next) T (Function.update heap a (some x)) (a :: held)
      (N.new (val x)) := by
  have hfree : refs T a + held.count a = 0 := by
    rw [← h.counts a, ha, Option.elim_none]
  have hlive : ∀ b y, heap b = some y → b ≠ a := by
    rintro b y hy rfl
    rw [ha] at hy
    cases hy
  -- the cells are the one at `a` and the old ones
  have hcases : ∀ b y, Function.update heap a (some x) b = some y →
      b = a ∧ y = x ∨ b ≠ a ∧ heap b = some y := by
    intro b y hb
    by_cases hba : b = a
    · subst hba
      rw [Function.update_self] at hb
      exact Or.inl ⟨rfl, (Option.some.inj hb).symm⟩
    · rw [Function.update_of_ne hba] at hb
      exact Or.inr ⟨hba, hb⟩
  have hname : Function.update name a N.next a = N.next := Function.update_self a N.next name
  refine ⟨fun i => ?_, h.counts_update ?_ fun b hb => List.count_cons_of_ne (Ne.symm hb),
    fun b y hb => ?_, fun b y hb => ?_, fun b c y z hb hc hbc => ?_⟩
  · rw [Numbered.new, h.table i]
    cases hi : T i with
    | none => rfl
    | some b =>
      obtain ⟨y, hy⟩ := h.live_of_slot hi
      rw [Option.map_some, Option.map_some, Function.update_of_ne (hlive b y hy)]
  · rw [Option.elim_some, hx, List.count_cons_self]
    omega
  · rcases hcases b y hb with ⟨-, rfl⟩ | ⟨-, hb⟩
    · omega
    · exact h.pos b y hb
  · rcases hcases b y hb with ⟨rfl, rfl⟩ | ⟨hba, hb⟩
    · rw [hname]
      exact List.getElem?_concat_length
    · rw [Function.update_of_ne hba, Numbered.new, List.getElem?_append_left (h.lt hb), h.cell b y hb]
  · rcases hcases b y hb with ⟨hba, -⟩ | ⟨hba, hy⟩ <;> rcases hcases c z hc with ⟨hca, -⟩ | ⟨hca, hz⟩
    · rw [hba, hca]
    · rw [hba, hname, Function.update_of_ne hca] at hbc
      exact absurd hbc (Nat.ne_of_gt (h.lt hz))
    · rw [hca, hname, Function.update_of_ne hba] at hbc
      exact absurd hbc (Nat.ne_of_lt (h.lt hy))
    · rw [Function.update_of_ne hba, Function.update_of_ne hca] at hbc
      exact h.inj b c y z hy hz hbc

/-- A cell that is there is written. -/
theorem update (h : Names count val name T heap held N) {held' : List A} (ha : heap a = some x)
    (hy : count y = refs T a + held'.count a) (hpos : 0 < count y)
    (hne : ∀ b, b ≠ a → held'.count b = held.count b) :
    Names count val name T (Function.update heap a (some y)) held' (N.write (name a) (val y)) := by
  have hlive : ∀ b z, Function.update heap a (some y) b = some z → ∃ z', heap b = some z' := by
    intro b z hb
    by_cases hba : b = a
    · exact hba ▸ ⟨x, ha⟩
    · exact ⟨z, (Function.update_of_ne hba _ _).symm.trans hb⟩
  refine ⟨h.table, h.counts_update hy hne, fun b z hb => ?_, fun b z hb => ?_,
    fun b c z z' hb hc hbc => ?_⟩
  · by_cases hba : b = a
    · subst hba
      rw [Function.update_self] at hb
      exact Option.some.inj hb ▸ hpos
    · rw [Function.update_of_ne hba] at hb
      exact h.pos b z hb
  · by_cases hba : b = a
    · subst hba
      rw [Function.update_self] at hb
      rw [Numbered.write, List.getElem?_set_self (h.lt ha), Option.some.inj hb]
    · rw [Function.update_of_ne hba] at hb
      have hname : name a ≠ name b := fun he => hba (h.inj a b x z ha hb he).symm
      rw [Numbered.write, List.getElem?_set_ne hname, h.cell b z hb]
  · obtain ⟨w, hw⟩ := hlive b z hb
    obtain ⟨w', hw'⟩ := hlive c z' hc
    exact h.inj b c w w' hw hw' hbc

theorem write_eq (h : Names count val name T heap held N) (ha : heap a = some x) :
    N.write (name a) (val x) = N := by
  obtain ⟨hlt, hcell⟩ := List.getElem?_eq_some_iff.1 (h.cell a x ha)
  rw [Numbered.write, ← hcell, List.set_getElem_self]

/-- The content of a cell changes. -/
theorem write (h : Names count val name T heap held N) (ha : heap a = some x)
    (hy : count y = count x) :
    Names count val name T (Function.update heap a (some y)) held (N.write (name a) (val y)) := by
  have hc := h.counts a
  rw [ha, Option.elim_some] at hc
  exact h.update ha (hy.trans hc) (hy ▸ h.pos a x ha) fun _ _ => rfl

/-- One reference more. -/
theorem get (h : Names count val name T heap held N) (ha : heap a = some x)
    (hy : count y = count x + 1) (hval : val y = val x) :
    Names count val name T (Function.update heap a (some y)) (a :: held) N := by
  have hc := h.counts a
  rw [ha, Option.elim_some] at hc
  have hc' : count y = refs T a + (a :: held).count a := by
    rw [List.count_cons_self]
    omega
  have := h.update ha hc' (by omega) fun b hb => List.count_cons_of_ne (Ne.symm hb)
  rwa [hval, h.write_eq ha] at this

/-- One reference less, of several. -/
theorem put (h : Names count val name T heap (a :: held) N) (ha : heap a = some x)
    (hy : count y + 1 = count x) (hpos : 0 < count y) (hval : val y = val x) :
    Names count val name T (Function.update heap a (some y)) held N := by
  have hc := h.counts a
  rw [ha, Option.elim_some, List.count_cons_self] at hc
  have := h.update ha (show count y = refs T a + held.count a by omega) hpos
    fun b hb => (List.count_cons_of_ne (Ne.symm hb)).symm
  rwa [hval, h.write_eq ha] at this

/-- The last reference is given back, and the memory with it. -/
theorem free (h : Names count val name T heap (a :: held) N) (ha : heap a = some x)
    (hx : count x = 1) : Names count val name T (Function.update heap a none) held N := by
  have hc := h.counts a
  rw [ha, Option.elim_some, List.count_cons_self] at hc
  have hlive : ∀ b z, Function.update heap a none b = some z → heap b = some z := by
    intro b z hb
    by_cases hba : b = a
    · subst hba
      rw [Function.update_self] at hb
      cases hb
    · exact (Function.update_of_ne hba _ _).symm.trans hb
  refine ⟨h.table, h.counts_update ?_ fun b hb => (List.count_cons_of_ne (Ne.symm hb)).symm,
    fun b z hb => h.pos b z (hlive b z hb), fun b z hb => h.cell b z (hlive b z hb),
    fun b c z z' hb hc => h.inj b c z z' (hlive b z hb) (hlive c z' hc)⟩
  rw [Option.elim_none]
  omega

variable [DecidableEq S]

theorem table_update (h : Names count val name T heap held N) (i : S) (r : Option A) (j : S) :
    (N.put i (r.map name)).table j = (Function.update T i r j).map name := by
  have hput : (N.put i (r.map name)).table = Function.update N.table i (r.map name) := rfl
  by_cases hj : j = i
  · subst hj
    rw [hput, Function.update_self, Function.update_self]
  · rw [hput, Function.update_of_ne hj, Function.update_of_ne hj, h.table j]

/-- A reference is stored in an empty slot. -/
theorem fill (h : Names count val name T heap (a :: held) N) (hi : T i = none) :
    Names count val name (Function.update T i (some a)) heap held (N.put i (some (name a))) := by
  refine ⟨fun j => ?_, fun b => ?_, h.pos, h.cell, h.inj⟩
  · exact h.table_update i (some a) j
  · rw [h.counts b, refs_set hi a b]
    by_cases hb : b = a
    · subst hb
      rw [if_pos rfl, List.count_cons_self]
      omega
    · rw [if_neg hb, List.count_cons_of_ne (Ne.symm hb)]
      omega

/-- A slot is cleared. -/
theorem clear (h : Names count val name T heap held N) (hi : T i = some a) :
    Names count val name (Function.update T i none) heap (a :: held) (N.put i none) := by
  refine ⟨fun j => ?_, fun b => ?_, h.pos, h.cell, h.inj⟩
  · exact h.table_update i none j
  · have hr := refs_clear hi b
    rw [h.counts b]
    by_cases hb : b = a
    · subst hb
      rw [if_pos rfl] at hr
      rw [List.count_cons_self]
      omega
    · rw [if_neg hb] at hr
      rw [List.count_cons_of_ne (Ne.symm hb)]
      omega

end Names

end SharedCells
