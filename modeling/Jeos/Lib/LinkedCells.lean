import Mathlib.Data.List.Basic
import Mathlib.Tactic.Common

/-!
# Singly linked lists in a memory

An intrusive list lives in pointer cells : one cell holds the head, and every
element `a` owns the cell `next a` that holds its successor. `Chain S m c l`
reads the list `l` off the memory `m` from the cell `c`.

`push` and `pop` work at the head cell. `unlink` is the walk with a pointer to a
pointer : it moves from cell to cell until the cell holds `x` or `null`, and
overwrites that one cell. It takes fuel, since the walk over a cyclic memory
does not end; on a chain `l` every fuel above `l.length` is enough. `find` and
`toList` are the walks that only read, and `Chain.remove` overwrites the cell
that `find` yields.

The cells of a chain must not overlap (`Apart`), which is what a caller proves
about its own addresses.
-/

/-- Pointer cells `C` in memories `M`, holding pointers `α`. -/
structure LinkStore (M C α : Type*) where
  load : M → C → α
  store : M → C → α → M
  /-- The cell with an element's successor. -/
  next : α → C
  null : α
  /-- The two cells do not overlap. -/
  Apart : C → C → Prop
  apart_symm : ∀ {c d}, Apart c d → Apart d c
  load_store_self : ∀ m c v, load (store m c v) c = v
  load_store_of_apart : ∀ m {c d} v, Apart c d → load (store m c v) d = load m d

namespace LinkStore

variable {M C α : Type*} (S : LinkStore M C α)

/-- The list read from the cell `c`. -/
def Chain (m : M) : C → List α → Prop
  | c, [] => S.load m c = S.null
  | c, a :: l => S.load m c = a ∧ a ≠ S.null ∧ Chain m (S.next a) l

/-- The cells a chain is read from. -/
def cells (c : C) (l : List α) : List C := c :: l.map S.next

/-- Put `a` in front of the list at `c`. -/
def push (m : M) (c : C) (a : α) : M :=
  S.store (S.store m (S.next a) (S.load m c)) c a

/-- Drop the first element `a` of the list at `c`. -/
def pop (m : M) (c : C) (a : α) : M := S.store m c (S.load m (S.next a))

/-- Walk from `c` and take the first element equal to `x` out. The flag tells
whether there was one, and `none` means that the fuel ran out. -/
def unlink [DecidableEq α] : ℕ → M → C → α → Option (M × Bool)
  | 0, _, _, _ => none
  | fuel + 1, m, c, x =>
    if S.load m c = S.null then some (m, false)
    else if S.load m c = x then some (S.store m c (S.load m (S.next (S.load m c))), true)
    else unlink fuel m (S.next (S.load m c)) x

/-- Walk from `c` to the first element with `p`, and yield the cell that holds it. -/
def find [DecidableEq α] (p : α → Bool) : ℕ → M → C → Option (Option C)
  | 0, _, _ => none
  | fuel + 1, m, c =>
    if S.load m c = S.null then some none
    else if p (S.load m c) then some (some c)
    else find p fuel m (S.next (S.load m c))

/-- The elements from the cell `c` on. -/
def toList [DecidableEq α] : ℕ → M → C → Option (List α)
  | 0, _, _ => none
  | fuel + 1, m, c =>
    if S.load m c = S.null then some []
    else (toList fuel m (S.next (S.load m c))).map (S.load m c :: ·)

/-- The cell behind the elements `l` of a list that starts at `c`. -/
def endCell : C → List α → C
  | c, [] => c
  | _, a :: l => endCell (S.next a) l

variable {S} {m : M} {c d : C} {a x : α} {l l' pre post : List α} {p : α → Bool}

theorem Chain.ne_null (h : S.Chain m c l) (hx : x ∈ l) : x ≠ S.null := by
  induction l generalizing c with
  | nil => simp at hx
  | cons a l ih =>
    rcases List.mem_cons.1 hx with rfl | hx
    · exact h.2.1
    · exact ih h.2.2 hx

theorem Chain.eq (h : S.Chain m c l) (h' : S.Chain m c l') : l = l' := by
  induction l generalizing c l' with
  | nil =>
    cases l' with
    | nil => rfl
    | cons b l' => exact absurd (h'.1.symm.trans h) h'.2.1
  | cons a l ih =>
    cases l' with
    | nil => exact absurd (h.1.symm.trans h') h.2.1
    | cons b l' =>
      obtain rfl : a = b := h.1.symm.trans h'.1
      rw [ih h.2.2 h'.2.2]

theorem Chain.load_eq_null_iff (h : S.Chain m c l) : S.load m c = S.null ↔ l = [] := by
  cases l with
  | nil => simp only [iff_true]; exact h
  | cons a l => simpa using fun e => h.2.1 (h.1.symm.trans e)

/-- A chain only depends on its own cells. -/
theorem Chain.congr {m' : M} (h : S.Chain m c l)
    (hm : ∀ d ∈ S.cells c l, S.load m' d = S.load m d) : S.Chain m' c l := by
  induction l generalizing c with
  | nil => exact (hm c (by simp [cells])).trans h
  | cons a l ih =>
    refine ⟨(hm c (by simp [cells])).trans h.1, h.2.1, ih h.2.2 fun d hd => hm d ?_⟩
    simpa [cells] using Or.inr hd

/-- A store away from a chain's cells leaves the chain. -/
theorem Chain.store_of_apart (h : S.Chain m c l) (v : α)
    (hd : ∀ e ∈ S.cells c l, S.Apart d e) : S.Chain (S.store m d v) c l :=
  h.congr fun e he => S.load_store_of_apart m v (hd e he)

theorem Chain.pop (h : S.Chain m c (a :: l)) (hc : ∀ b ∈ l, S.Apart c (S.next b)) :
    S.Chain (S.pop m c a) c l := by
  have h1 := h.2.2
  cases l with
  | nil => exact (S.load_store_self m c _).trans h1
  | cons b l =>
    refine ⟨(S.load_store_self m c _).trans h1.1, h1.2.1, h1.2.2.store_of_apart _ fun e he => ?_⟩
    rcases List.mem_cons.1 he with rfl | he
    · exact hc b (by simp)
    · obtain ⟨b', hb', rfl⟩ := List.mem_map.1 he
      exact hc b' (by simp [hb'])

theorem Chain.push (h : S.Chain m c l) (ha : a ≠ S.null) (hca : S.Apart c (S.next a))
    (hc : ∀ b ∈ l, S.Apart c (S.next b)) (hna : ∀ b ∈ l, S.Apart (S.next a) (S.next b)) :
    S.Chain (S.push m c a) c (a :: l) := by
  have hnext : S.load (S.push m c a) (S.next a) = S.load m c := by
    rw [LinkStore.push, S.load_store_of_apart _ _ hca, S.load_store_self]
  have hrest : ∀ b ∈ l, S.load (S.push m c a) (S.next b) = S.load m (S.next b) := fun b hb => by
    rw [LinkStore.push, S.load_store_of_apart _ _ (hc b hb),
      S.load_store_of_apart _ _ (hna b hb)]
  refine ⟨S.load_store_self _ _ _, ha, ?_⟩
  cases l with
  | nil => exact hnext.trans h
  | cons b l =>
    refine ⟨hnext.trans h.1, h.2.1, h.2.2.congr fun d hd => ?_⟩
    rcases List.mem_cons.1 hd with rfl | hd
    · exact hrest b (by simp)
    · obtain ⟨b', hb', rfl⟩ := List.mem_map.1 hd
      exact hrest b' (by simp [hb'])

/-- The rest of a chain behind one of its elements. -/
theorem Chain.suffix (h : S.Chain m c (pre ++ x :: post)) : S.Chain m (S.next x) post := by
  induction pre generalizing c with
  | nil => exact h.2.2
  | cons a pre ih => exact ih h.2.2

/-- No element comes twice, since a chain ends. -/
theorem Chain.nodup (h : S.Chain m c l) : l.Nodup := by
  induction l generalizing c with
  | nil => exact List.nodup_nil
  | cons a l ih =>
    refine List.nodup_cons.2 ⟨fun ha => ?_, ih h.2.2⟩
    obtain ⟨pre, post, rfl⟩ := List.append_of_mem ha
    have hlen := congrArg List.length (h.2.2.eq h.2.2.suffix)
    rw [List.length_append, List.length_cons] at hlen
    omega

theorem Chain.load_endCell (h : S.Chain m c (pre ++ x :: post)) :
    S.load m (S.endCell c pre) = x := by
  induction pre generalizing c with
  | nil => exact h.1
  | cons a pre ih => exact ih h.2.2

theorem endCell_mem_cells (c : C) (pre post : List α) :
    S.endCell c pre ∈ S.cells c (pre ++ post) := by
  induction pre generalizing c with
  | nil => exact List.mem_cons_self
  | cons a pre ih => exact List.mem_cons_of_mem _ (ih (S.next a))

/-- To overwrite the cell of an element with its successor takes it out of the list. -/
theorem Chain.remove (h : S.Chain m c (pre ++ x :: post))
    (hs : (S.cells c (pre ++ x :: post)).Pairwise S.Apart) :
    S.Chain (S.store m (S.endCell c pre) (S.load m (S.next x))) c (pre ++ post) := by
  induction pre generalizing c with
  | nil =>
    refine Chain.pop h fun b hb => (List.pairwise_cons.1 hs).1 _ ?_
    exact List.mem_cons_of_mem _ (List.mem_map_of_mem hb)
  | cons a pre ih =>
    obtain ⟨hc, hs'⟩ := List.pairwise_cons.1 hs
    have hdc : S.Apart (S.endCell (S.next a) pre) c :=
      S.apart_symm (hc _ (endCell_mem_cells _ pre _))
    exact ⟨(S.load_store_of_apart m _ hdc).trans h.1, h.2.1, ih h.2.2 hs'⟩

variable [DecidableEq α]

/-- The walk for an absent element ends with the memory unchanged. -/
theorem unlink_of_not_mem {fuel : ℕ} (h : S.Chain m c l) (hf : l.length < fuel) (hx : x ∉ l) :
    S.unlink fuel m c x = some (m, false) := by
  induction l generalizing c fuel with
  | nil =>
    obtain ⟨fuel, rfl⟩ := Nat.exists_eq_succ_of_ne_zero (Nat.ne_zero_of_lt hf)
    have h0 : S.load m c = S.null := h
    rw [unlink, if_pos h0]
  | cons a l ih =>
    obtain ⟨fuel, rfl⟩ := Nat.exists_eq_succ_of_ne_zero (Nat.ne_zero_of_lt hf)
    have hax : a ≠ x := fun e => hx (by simp [e])
    rw [unlink, h.1, if_neg h.2.1, if_neg hax]
    exact ih h.2.2 (by simpa using hf) fun hm => hx (by simp [hm])

/-- The walk for an element of the list overwrites one cell of the chain, and
leaves the list without that element. -/
theorem unlink_of_mem {fuel : ℕ} (h : S.Chain m c l) (hf : l.length < fuel)
    (hs : (S.cells c l).Pairwise S.Apart) (hx : x ∈ l) :
    ∃ d ∈ S.cells c l, ∃ v, S.unlink fuel m c x = some (S.store m d v, true) ∧
      S.Chain (S.store m d v) c (l.erase x) := by
  induction l generalizing c fuel with
  | nil => simp at hx
  | cons a l ih =>
    obtain ⟨fuel, rfl⟩ := Nat.exists_eq_succ_of_ne_zero (Nat.ne_zero_of_lt hf)
    obtain ⟨hc, hs'⟩ := List.pairwise_cons.1 hs
    have hstep : S.unlink (fuel + 1) m c x =
        if a = x then some (S.store m c (S.load m (S.next a)), true)
        else S.unlink fuel m (S.next a) x := by
      rw [unlink, h.1, if_neg h.2.1]
    by_cases hax : a = x
    · refine ⟨c, by simp [cells], S.load m (S.next a), by rw [hstep, if_pos hax], ?_⟩
      rw [hax, List.erase_cons_head, ← hax]
      exact h.pop fun b hb => hc _ (List.mem_cons_of_mem _ (List.mem_map_of_mem hb))
    · have hxl : x ∈ l := (List.mem_cons.1 hx).resolve_left (Ne.symm hax)
      obtain ⟨d, hd, v, hu, hch⟩ := @ih (S.next a) fuel h.2.2 (by simpa using hf) hs' hxl
      have hdc : S.Apart d c := S.apart_symm (hc d hd)
      refine ⟨d, List.mem_cons_of_mem _ hd, v, by rw [hstep, if_neg hax, hu], ?_⟩
      rw [List.erase_cons_tail (by simpa using hax)]
      exact ⟨(S.load_store_of_apart m v hdc).trans h.1, h.2.1, hch⟩

/-! ## Walks that only read -/

theorem toList_of_chain {fuel : ℕ} (h : S.Chain m c l) (hf : l.length < fuel) :
    S.toList fuel m c = some l := by
  induction l generalizing c fuel with
  | nil =>
    obtain ⟨fuel, rfl⟩ := Nat.exists_eq_succ_of_ne_zero (Nat.ne_zero_of_lt hf)
    have h0 : S.load m c = S.null := h
    rw [toList, if_pos h0]
  | cons a l ih =>
    obtain ⟨fuel, rfl⟩ := Nat.exists_eq_succ_of_ne_zero (Nat.ne_zero_of_lt hf)
    rw [toList, h.1, if_neg h.2.1, ih h.2.2 (by simpa using hf), Option.map_some]

/-- A list that was read is a chain. -/
theorem chain_of_toList {fuel : ℕ} (h : S.toList fuel m c = some l) : S.Chain m c l := by
  induction fuel generalizing c l with
  | zero => cases h
  | succ fuel ih =>
    unfold toList at h
    split_ifs at h with h0
    · obtain rfl := Option.some.inj h
      exact h0
    · obtain ⟨l', hl', rfl⟩ := Option.map_eq_some_iff.1 h
      exact ⟨rfl, h0, ih hl'⟩

/-- The walk for `p` ends behind the list, or at the first element with `p`. -/
theorem find_cases {fuel : ℕ} {r : Option C} (h : S.Chain m c l)
    (hr : S.find p fuel m c = some r) :
    (r = none ∧ ∀ x ∈ l, p x = false) ∨
      ∃ pre x post, l = pre ++ x :: post ∧ r = some (S.endCell c pre) ∧ p x = true ∧
        ∀ y ∈ pre, p y = false := by
  induction l generalizing c fuel with
  | nil =>
    have h0 : S.load m c = S.null := h
    rcases fuel with _ | fuel
    · cases hr
    rw [find, if_pos h0] at hr
    exact Or.inl ⟨(Option.some.inj hr).symm, fun x hx => absurd hx List.not_mem_nil⟩
  | cons a l ih =>
    rcases fuel with _ | fuel
    · cases hr
    rw [find, h.1, if_neg h.2.1] at hr
    split_ifs at hr with hp
    · exact Or.inr ⟨[], a, l, rfl, (Option.some.inj hr).symm, hp,
        fun y hy => absurd hy List.not_mem_nil⟩
    have hp : p a = false := Bool.eq_false_iff.2 hp
    rcases ih h.2.2 hr with ⟨rfl, hall⟩ | ⟨pre, x, post, rfl, rfl, hx, hpre⟩
    · exact Or.inl ⟨rfl, List.forall_mem_cons.2 ⟨hp, hall⟩⟩
    · exact Or.inr ⟨a :: pre, x, post, rfl, rfl, hx, List.forall_mem_cons.2 ⟨hp, hpre⟩⟩

theorem exists_find {fuel : ℕ} (h : S.Chain m c l) (hf : l.length < fuel) (p : α → Bool) :
    ∃ r, S.find p fuel m c = some r := by
  induction l generalizing c fuel with
  | nil =>
    obtain ⟨fuel, rfl⟩ := Nat.exists_eq_succ_of_ne_zero (Nat.ne_zero_of_lt hf)
    have h0 : S.load m c = S.null := h
    exact ⟨none, by rw [find, if_pos h0]⟩
  | cons a l ih =>
    obtain ⟨fuel, rfl⟩ := Nat.exists_eq_succ_of_ne_zero (Nat.ne_zero_of_lt hf)
    rw [find, h.1, if_neg h.2.1]
    split_ifs
    · exact ⟨some c, rfl⟩
    · exact ih h.2.2 (by simpa using hf)

/-! ## Links by address -/

/-- Lists of structs at addresses `A` : the cell `none` holds the head, and the cell `some a` is the
link of the struct at `a`. -/
def links (A : Type*) [DecidableEq A] : LinkStore (Option A → Option A) (Option A) (Option A) where
  load m c := m c
  store m c v := Function.update m c v
  next := id
  null := none
  Apart c d := c ≠ d
  apart_symm := Ne.symm
  load_store_self m c v := Function.update_self c v m
  load_store_of_apart m _ _ v h := Function.update_of_ne h.symm v m

section Links

variable {A : Type*} [DecidableEq A] {f : Option A → Option A} {as : List A}

/-- The cells of a list are apart. -/
theorem cells_apart (h : (links A).Chain f none (as.map some)) :
    ((links A).cells none (as.map some)).Pairwise (links A).Apart := by
  refine List.pairwise_cons.2 ⟨fun d hd => ?_, ?_⟩
  · obtain ⟨p, hp, rfl⟩ := List.mem_map.1 hd
    obtain ⟨a, -, rfl⟩ := List.mem_map.1 hp
    exact (Option.some_ne_none a).symm
  · rw [List.map_map]
    exact List.pairwise_map.2 ((List.pairwise_map.1 h.nodup).imp fun hab => hab)

/-- A struct that is not in the list is put in front of it. -/
theorem chain_push {a : A} (h : (links A).Chain f none (as.map some)) (ha : a ∉ as) :
    (links A).Chain ((links A).push f none (some a)) none ((a :: as).map some) := by
  refine h.push (Option.some_ne_none a) (Option.some_ne_none a).symm (fun p hp => ?_) fun p hp => ?_
  · obtain ⟨b, -, rfl⟩ := List.mem_map.1 hp
    exact (Option.some_ne_none b).symm
  · obtain ⟨b, hb, rfl⟩ := List.mem_map.1 hp
    exact fun he => ha (Option.some.inj he ▸ hb)

/-- The cell in front of a struct gets its link. -/
theorem chain_remove {a : A} {pre post : List A}
    (h : (links A).Chain f none ((pre ++ a :: post).map some)) :
    (links A).Chain (Function.update f ((links A).endCell none (pre.map some)) (f (some a))) none
      ((pre ++ post).map some) := by
  have hcells := cells_apart h
  rw [List.map_append, List.map_cons] at h hcells
  rw [List.map_append]
  exact h.remove hcells

theorem load_endCell {a : A} {pre post : List A}
    (h : (links A).Chain f none ((pre ++ a :: post).map some)) :
    f ((links A).endCell none (pre.map some)) = some a := by
  rw [List.map_append, List.map_cons] at h
  exact h.load_endCell

end Links

end LinkStore
