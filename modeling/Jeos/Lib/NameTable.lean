import Mathlib.Data.List.FinRange
import Mathlib.Data.Set.Card

/-!
# A finite map in a table of slots

A table has `n` slots, each empty or holding a key with a value. A loop over the slots takes the
first one with a property (`first`), and a walk that goes on behind the slot it has found meets all of
them in order (`slotsSince_eq_cons`). While the keys are distinct (`Distinct`) the table is the
finite map `toMap` : a slot filled with a new key adds the key, and a slot cleared removes its key
(`toMap_fill`, `toMap_clear`). The map has as many keys as there are slots in use, so it has `n` of them
just when no slot is empty (`ncard_keys_eq_iff`).
-/

namespace NameTable

variable {n : ℕ} {κ ν : Type*}

/-! ## The first slot -/

/-- The first slot with a property. -/
def first (p : Fin n → Bool) : Option (Fin n) := (List.finRange n).find? p

variable {p q : Fin n → Bool} {i j : Fin n}

theorem first_of_some (h : first p = some i) : p i = true := List.find?_some h

theorem first_eq_none_iff : first p = none ↔ ∀ i, p i = false := by
  simp [first, List.find?_eq_none]

theorem first_isSome_of (h : p i = true) : ∃ j, first p = some j := by
  refine Option.ne_none_iff_exists'.1 fun hnone => ?_
  exact Bool.noConfusion ((first_eq_none_iff.1 hnone i).symm.trans h)

/-- The only slot with the property is the first. -/
theorem first_eq_some (h : p i = true) (hunique : ∀ j, p j = true → j = i) : first p = some i := by
  obtain ⟨j, hj⟩ := first_isSome_of h
  rw [hj, hunique j (first_of_some hj)]

theorem first_congr (h : ∀ i, p i = q i) : first p = first q := by
  rw [funext h]

/-- The slots before the first one do not have the property. -/
theorem not_of_lt_first (h : first p = some i) (hj : j < i) : p j = false := by
  obtain ⟨-, k, hk, hmap, hbefore⟩ := List.find?_eq_some_iff_getElem.1 h
  have hki : k = i.val := by
    rw [← hmap, List.getElem_finRange, Fin.val_cast]
  have hjn : j.val < (List.finRange n).length := by
    rw [List.length_finRange]
    exact j.isLt
  have hb := hbefore j.val (by omega)
  rw [List.getElem_finRange] at hb
  simpa using hb

/-! ## Slot after slot -/

/-- The slot has the property and is not before `k`. -/
def sinceSlot (p : Fin n → Bool) (k : ℕ) (i : Fin n) : Bool := decide (k ≤ i.val) && p i

/-- The slots with a property from `k` on. -/
def slotsSince (p : Fin n → Bool) (k : ℕ) : List (Fin n) := (List.finRange n).filter (sinceSlot p k)

theorem sinceSlot_iff {k : ℕ} : sinceSlot p k i = true ↔ k ≤ i.val ∧ p i = true := by
  simp [sinceSlot]

theorem mem_slotsSince {k : ℕ} : i ∈ slotsSince p k ↔ k ≤ i.val ∧ p i = true := by
  simp [slotsSince, sinceSlot_iff]

theorem slotsSince_nodup (p : Fin n → Bool) (k : ℕ) : (slotsSince p k).Nodup :=
  (List.nodup_finRange n).filter _

theorem slotsSince_eq_nil {k : ℕ} (h : first (sinceSlot p k) = none) : slotsSince p k = [] :=
  List.filter_eq_nil_iff.2 fun i _ hi => by
    rw [first_eq_none_iff.1 h i] at hi
    cases hi

/-- The first of them, and those behind it. -/
theorem slotsSince_eq_cons {k : ℕ} (h : first (sinceSlot p k) = some i) :
    slotsSince p k = i :: slotsSince p (i + 1) := by
  obtain ⟨hi, before, behind, hsplit, hbefore⟩ := List.find?_eq_some_iff_append.1 h
  have hki := (sinceSlot_iff.1 hi).1
  have hsorted := List.pairwise_lt_finRange n
  rw [hsplit, List.pairwise_append, List.pairwise_cons] at hsorted
  obtain ⟨-, ⟨hbehind, -⟩, hacross⟩ := hsorted
  have hpre : before.filter (sinceSlot p k) = [] := List.filter_eq_nil_iff.2 fun j hj hin => by
    have hout := hbefore j hj
    rw [hin] at hout
    cases hout
  have hpre' : before.filter (sinceSlot p (i + 1)) = [] :=
    List.filter_eq_nil_iff.2 fun j hj hin => by
      have hji := Fin.lt_def.1 (hacross j hj i List.mem_cons_self)
      have := (sinceSlot_iff.1 hin).1
      omega
  have hhead' : ¬sinceSlot p (i + 1) i = true := fun hin =>
    absurd (sinceSlot_iff.1 hin).1 (Nat.not_succ_le_self _)
  have htail : behind.filter (sinceSlot p k) = behind.filter (sinceSlot p (i + 1)) :=
    List.filter_congr fun j hj => by
      have hij := Fin.lt_def.1 (hbehind j hj)
      rw [Bool.eq_iff_iff, sinceSlot_iff, sinceSlot_iff]
      exact and_congr_left' (by omega)
  rw [slotsSince, slotsSince, hsplit, List.filter_append, List.filter_append, hpre, hpre',
    List.filter_cons_of_pos hi, List.filter_cons_of_neg hhead', htail]
  rfl

/-! ## Tables -/

/-- The slots of a table. -/
abbrev Table (n : ℕ) (κ ν : Type*) := Fin n → Option (κ × ν)

/-- No key is in two slots. -/
def Distinct (T : Table n κ ν) : Prop :=
  ∀ i j k v w, T i = some (k, v) → T j = some (k, w) → i = j

variable {T : Table n κ ν} {k k' : κ} {v w : ν}

theorem distinct_empty : Distinct (fun _ => none : Table n κ ν) := nofun

theorem Distinct.clear (h : Distinct T) (i : Fin n) : Distinct (Function.update T i none) := by
  intro a b c x y ha hb
  have hne : ∀ {a : Fin n} {e}, Function.update T i none a = some e → T a = some e := by
    intro a e ha
    by_cases hai : a = i
    · rw [hai, Function.update_self] at ha
      cases ha
    · rwa [Function.update_of_ne hai] at ha
  exact h a b c x y (hne ha) (hne hb)

variable [DecidableEq κ]

/-- Whether the slot holds the key. -/
def holds (T : Table n κ ν) (k : κ) (i : Fin n) : Bool := (T i).any fun e => e.1 = k

/-- The value of a key. -/
def toMap (T : Table n κ ν) (k : κ) : Option ν :=
  (first (holds T k)).bind fun i => (T i).map Prod.snd

theorem holds_iff : holds T k i = true ↔ ∃ v, T i = some (k, v) := by
  unfold holds
  rcases T i with _ | ⟨k', v⟩
  · simp
  · simp [Prod.ext_iff]

theorem Distinct.first_holds (h : Distinct T) (hi : T i = some (k, v)) :
    first (holds T k) = some i := by
  refine first_eq_some (holds_iff.2 ⟨v, hi⟩) fun j hj => ?_
  obtain ⟨w, hw⟩ := holds_iff.1 hj
  exact h j i k w v hw hi

theorem Distinct.toMap_eq_some_iff (h : Distinct T) : toMap T k = some v ↔ ∃ i, T i = some (k, v) := by
  constructor
  · intro hmap
    obtain ⟨i, hi, hv⟩ := Option.bind_eq_some_iff.1 hmap
    obtain ⟨⟨k', v'⟩, hT, rfl⟩ := Option.map_eq_some_iff.1 hv
    obtain ⟨w, hw⟩ := holds_iff.1 (first_of_some hi)
    obtain ⟨rfl, -⟩ := Prod.mk.inj (Option.some.inj (hT.symm.trans hw))
    exact ⟨i, hT⟩
  · rintro ⟨i, hi⟩
    rw [toMap, h.first_holds hi, Option.bind_some, hi, Option.map_some]

theorem toMap_eq_none_iff : toMap T k = none ↔ ∀ i v, T i ≠ some (k, v) := by
  constructor
  · intro hmap i v hi
    obtain ⟨j, hj⟩ := first_isSome_of (holds_iff.2 ⟨v, hi⟩)
    obtain ⟨w, hw⟩ := holds_iff.1 (first_of_some hj)
    rw [toMap, hj, Option.bind_some, hw, Option.map_some] at hmap
    cases hmap
  · intro h
    have hfirst : first (holds T k) = none := first_eq_none_iff.2 fun i =>
      Bool.eq_false_iff.2 fun hi => (holds_iff.1 hi).elim (h i)
    rw [toMap, hfirst, Option.bind_none]

theorem first_holds_eq_none (h : toMap T k = none) : first (holds T k) = none :=
  first_eq_none_iff.2 fun i => Bool.eq_false_iff.2 fun hi =>
    (holds_iff.1 hi).elim (toMap_eq_none_iff.1 h i)

@[simp] theorem toMap_empty : toMap (fun _ => none : Table n κ ν) k = none :=
  toMap_eq_none_iff.2 nofun

/-- A new key in an empty slot. -/
theorem Distinct.fill (h : Distinct T) (hk : toMap T k = none) (i : Fin n) :
    Distinct (Function.update T i (some (k, v))) := by
  have hnew := toMap_eq_none_iff.1 hk
  intro a b c x y ha hb
  by_cases hai : a = i
  · by_cases hbi : b = i
    · rw [hai, hbi]
    · rw [hai, Function.update_self] at ha
      rw [Function.update_of_ne hbi] at hb
      obtain ⟨rfl, -⟩ := Prod.mk.inj (Option.some.inj ha)
      exact absurd hb (hnew b y)
  · rw [Function.update_of_ne hai] at ha
    by_cases hbi : b = i
    · rw [hbi, Function.update_self] at hb
      obtain ⟨rfl, -⟩ := Prod.mk.inj (Option.some.inj hb)
      exact absurd ha (hnew a x)
    · rw [Function.update_of_ne hbi] at hb
      exact h a b c x y ha hb

/-- Filling an empty slot adds the key. -/
theorem Distinct.toMap_fill (h : Distinct T) (hk : toMap T k = none) (hi : T i = none) :
    toMap (Function.update T i (some (k, v))) = Function.update (toMap T) k (some v) := by
  have hd := h.fill (v := v) hk i
  funext k'
  by_cases hkk : k' = k
  · rw [hkk, Function.update_self]
    exact hd.toMap_eq_some_iff.2 ⟨i, Function.update_self ..⟩
  rw [Function.update_of_ne hkk]
  refine Option.ext fun w => ?_
  rw [hd.toMap_eq_some_iff, h.toMap_eq_some_iff]
  refine exists_congr fun j => ?_
  by_cases hji : j = i
  · rw [hji, Function.update_self, hi]
    exact iff_of_false (fun he => hkk (Prod.mk.inj (Option.some.inj he)).1.symm) (nomatch ·)
  · rw [Function.update_of_ne hji]

/-- Clearing a slot removes its key. -/
theorem Distinct.toMap_clear (h : Distinct T) (hi : T i = some (k, v)) :
    toMap (Function.update T i none) = Function.update (toMap T) k none := by
  have hd := h.clear i
  funext k'
  refine Option.ext fun w => ?_
  rw [hd.toMap_eq_some_iff]
  by_cases hkk : k' = k
  · rw [hkk, Function.update_self]
    refine iff_of_false (fun ⟨j, hj⟩ => ?_) (nomatch ·)
    by_cases hji : j = i
    · rw [hji, Function.update_self] at hj
      cases hj
    · rw [Function.update_of_ne hji] at hj
      exact hji (h j i k w v hj hi)
  · rw [Function.update_of_ne hkk, h.toMap_eq_some_iff]
    refine exists_congr fun j => ?_
    by_cases hji : j = i
    · rw [hji, Function.update_self, hi]
      exact iff_of_false (nomatch ·) fun he => hkk (Prod.mk.inj (Option.some.inj he)).1.symm
    · rw [Function.update_of_ne hji]

/-- The keys of a map. -/
def keys (m : κ → Option ν) : Set κ := {k | m k ≠ none}

/-- There are as many keys as slots in use. -/
theorem Distinct.ncard_keys (h : Distinct T) :
    (keys (toMap T)).ncard = {i | T i ≠ none}.ncard := by
  refine (Set.ncard_congr (fun i hi => ((T i).get (Option.isSome_iff_ne_none.2 hi)).1)
    (fun i hi => ?_) (fun i j hi hj hij => ?_) fun k hk => ?_).symm
  · obtain ⟨⟨k, v⟩, he⟩ := Option.ne_none_iff_exists'.1 hi
    simp only [he, Option.get_some]
    exact Option.ne_none_iff_exists'.2 ⟨v, h.toMap_eq_some_iff.2 ⟨i, he⟩⟩
  · obtain ⟨⟨k, v⟩, he⟩ := Option.ne_none_iff_exists'.1 hi
    obtain ⟨⟨k', w⟩, he'⟩ := Option.ne_none_iff_exists'.1 hj
    simp only [he, he', Option.get_some] at hij
    exact h i j k v w he (hij ▸ he')
  · obtain ⟨v, hv⟩ := Option.ne_none_iff_exists'.1 hk
    obtain ⟨i, hi⟩ := h.toMap_eq_some_iff.1 hv
    have hne : T i ≠ none := hi ▸ Option.some_ne_none _
    exact ⟨i, hne, by simp only [hi, Option.get_some]⟩

/-- The map is full just when no slot is empty. -/
theorem Distinct.ncard_keys_eq_iff (h : Distinct T) :
    (keys (toMap T)).ncard = n ↔ ∀ i, T i ≠ none := by
  rw [h.ncard_keys]
  have hcard := Set.eq_univ_iff_ncard {i | T i ≠ none}
  rw [Nat.card_fin] at hcard
  rw [← hcard, Set.eq_univ_iff_forall]
  rfl

end NameTable
