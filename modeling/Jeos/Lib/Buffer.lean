import Jeos.Lib.Loop
import Mathlib.Data.List.Basic

/-!
# Buffers that are filled from the front

`put` is a store to a buffer, none when the place is outside. `fill` is the loop that stores an item in each
round, in the next place, and `emitDown` the one that reads them back from the last to the first.
`reverseFirst` reverses the first places by exchanging them in pairs.

When a loop has the items `xs` (`Yields`) and the buffer has room for them, they are in front of the
buffer afterwards and its other places are as before (`fillFrom_eq`). The reversal acts on the first
places as the one of lists (`reverseFirst_eq`).
-/

namespace Buffer

variable {α σ : Type*} {more : σ → Bool} {item : σ → α} {next : σ → σ} {buf xs ys : List α}
  {s : σ} {i j k : ℕ}

/-- `buf[i] = x`. -/
def put (buf : List α) (i : ℕ) (x : α) : Option (List α) :=
  if i < buf.length then some (buf.set i x) else none

/-- `while (more(s)) { buf[i++] = item(s); s = next(s); }` with at most the given number of tests. -/
def fill (more : σ → Bool) (item : σ → α) (next : σ → σ) :
    ℕ → List α → ℕ → σ → Option (List α × ℕ)
  | 0, _, _, _ => none
  | n + 1, buf, i, s =>
    if more s then (put buf i (item s)).bind fun buf => fill more item next n buf (i + 1) (next s)
    else some (buf, i)

/-- The loop from the first place on. It has no more rounds than there are places. -/
def fillFrom (more : σ → Bool) (item : σ → α) (next : σ → σ) (buf : List α) (s : σ) :
    Option (List α × ℕ) := fill more item next (buf.length + 1) buf 0 s

/-- `while (--i >= 0) putc(buf[i]);`. -/
def emitDown (buf : List α) : ℕ → Option (List α)
  | 0 => some []
  | i + 1 => buf[i]?.bind fun x => (emitDown buf i).map (x :: ·)

/-- `t = buf[j]; buf[j] = buf[k]; buf[k] = t;`. -/
def swap (buf : List α) (j k : ℕ) : Option (List α) :=
  buf[j]?.bind fun t => buf[k]?.bind fun u => (put buf j u).bind fun buf => put buf k t

/-- `for (j = 0; j < i / 2; j++)` with the exchange of `buf[j]` and `buf[i - 1 - j]`. -/
def reverseFirst (buf : List α) (i : ℕ) : Option (List α) :=
  (List.range (i / 2)).foldlM (fun buf j => swap buf j (i - 1 - j)) buf

/-! ## Filling -/

/-- The items that the loop has from a state on. -/
inductive Yields (more : σ → Bool) (item : σ → α) (next : σ → σ) : σ → List α → Prop
  | stop {s : σ} (h : more s = false) : Yields more item next s []
  | step {s : σ} {xs : List α} (h : more s = true) (ht : Yields more item next (next s) xs) :
    Yields more item next s (item s :: xs)

theorem fill_eq (h : Yields more item next s xs) : ∀ {n : ℕ} {pre buf : List α},
    xs.length ≤ buf.length → xs.length < n →
    fill more item next n (pre ++ buf) pre.length s =
      some (pre ++ xs ++ buf.drop xs.length, pre.length + xs.length) := by
  induction h with
  | stop h =>
    intro n pre buf _ hn
    obtain ⟨n, rfl⟩ := Nat.exists_eq_add_of_lt hn
    rw [fill, if_neg (by rw [h]; exact Bool.false_ne_true), List.append_nil]
    rfl
  | @step s xs h _ ih =>
    intro n pre buf hb hn
    obtain ⟨n, rfl⟩ := Nat.exists_eq_succ_of_ne_zero (Nat.ne_zero_of_lt hn)
    rcases buf with _ | ⟨y, buf⟩
    · exact absurd hb (by simp)
    · rw [List.length_cons, List.length_cons] at *
      have hput : put (pre ++ y :: buf) pre.length (item s) = some ((pre ++ [item s]) ++ buf) := by
        rw [put, if_pos (by simp), List.set_append_right _ _ le_rfl, Nat.sub_self, List.set_cons_zero,
          List.append_assoc, List.singleton_append]
      have hrest := @ih n (pre ++ [item s]) buf (by omega) (by omega)
      rw [List.length_append, List.length_singleton] at hrest
      rw [fill, if_pos h, hput, Option.bind_some, hrest]
      simp [Nat.add_assoc, Nat.add_comm 1]

/-- The items are in front of the buffer, and what is behind them is kept. -/
theorem fillFrom_eq (h : Yields more item next s xs) (hb : xs.length ≤ buf.length) :
    fillFrom more item next buf s = some (xs ++ buf.drop xs.length, xs.length) := by
  have hfill := @fill_eq _ _ _ _ _ xs s h (buf.length + 1) [] buf hb (Nat.lt_succ_of_le hb)
  rw [List.nil_append, List.nil_append, List.length_nil, Nat.zero_add] at hfill
  exact hfill

theorem emitDown_eq : ∀ {xs : List α} (ys : List α), emitDown (xs ++ ys) xs.length = some xs.reverse := by
  intro xs
  induction xs using List.reverseRecOn with
  | nil => exact fun _ => rfl
  | append_singleton xs x ih =>
    intro ys
    rw [List.length_append, List.length_singleton, emitDown, List.append_assoc, ih,
      List.getElem?_append_right le_rfl, Nat.sub_self, List.reverse_append]
    rfl

/-! ## Reversal -/

/-- The exchange of two places. -/
theorem exists_swap (hj : j < buf.length) (hk : k < buf.length) :
    ∃ b, swap buf j k = some b ∧ b.length = buf.length ∧
      ∀ p, b[p]? = if p = k then buf[j]? else if p = j then buf[k]? else buf[p]? := by
  refine ⟨(buf.set j buf[k]).set k buf[j], ?_, by simp, fun p => ?_⟩
  · rw [swap, List.getElem?_eq_getElem hj, Option.bind_some, List.getElem?_eq_getElem hk,
      Option.bind_some, put, if_pos hj, Option.bind_some, put, if_pos (by simpa using hk)]
  · rw [List.getElem?_eq_getElem hj, List.getElem?_eq_getElem hk, List.getElem?_set, List.getElem?_set,
      List.length_set]
    simp only [eq_comm (a := k), eq_comm (a := j), hj, hk, if_true]

/-- After `k` rounds the places within `k` of an end of the first `i` are exchanged. -/
def Exchanged (buf : List α) (i k : ℕ) (b : List α) : Prop :=
  b.length = buf.length ∧
    ∀ p, b[p]? = if p < k ∨ i ≤ p + k ∧ p < i then buf[i - 1 - p]? else buf[p]?

theorem Exchanged.round {b : List α} (h : Exchanged buf i k b) (hi : i ≤ buf.length) (hk : k < i / 2) :
    ∃ b', swap b k (i - 1 - k) = some b' ∧ Exchanged buf i (k + 1) b' := by
  have hlow : b[k]? = buf[k]? := by rw [h.2, if_neg (by omega)]
  have hhigh : b[i - 1 - k]? = buf[i - 1 - k]? := by rw [h.2, if_neg (by omega)]
  have hin : k < b.length ∧ i - 1 - k < b.length := by
    rw [h.1]
    omega
  obtain ⟨b', hb', hlen, hget⟩ := exists_swap hin.1 hin.2
  refine ⟨b', hb', hlen.trans h.1, fun p => ?_⟩
  rw [hget, hlow, hhigh, h.2 p]
  by_cases hp : p = k ∨ p = i - 1 - k
  · rw [if_pos (by omega : p < k + 1 ∨ i ≤ p + (k + 1) ∧ p < i)]
    rcases hp with rfl | rfl
    · rw [if_neg (by omega), if_pos rfl]
    · rw [if_pos rfl]
      congr 1
      omega
  · rw [not_or] at hp
    rw [if_neg hp.2, if_neg hp.1]
    exact if_congr (by omega) rfl rfl

theorem range_split {n x : ℕ} {pre post : List ℕ} (h : List.range n = pre ++ x :: post) :
    x = pre.length ∧ x < n := by
  have hx : (List.range n)[pre.length]? = some x := by
    rw [h, List.getElem?_append_right le_rfl, Nat.sub_self, List.getElem?_cons_zero]
  obtain ⟨hlt, rfl⟩ := List.getElem?_eq_some_iff.1 hx
  rw [List.length_range] at hlt
  rw [List.getElem_range]
  exact ⟨rfl, hlt⟩

/-- The first places are reversed, and the others are kept. -/
theorem reverseFirst_eq (hi : i ≤ buf.length) :
    reverseFirst buf i = some ((buf.take i).reverse ++ buf.drop i) := by
  have hloop : ∃ b, reverseFirst buf i = some b ∧ Exchanged buf i (List.range (i / 2)).length b := by
    refine Loop.foldlM_spec (I := fun pre b => Exchanged buf i pre.length b)
      (fun pre x post hx b hI => ?_) ⟨rfl, fun p => ?_⟩
    · obtain ⟨rfl, hlt⟩ := range_split hx
      rw [List.length_append, List.length_singleton]
      exact hI.round hi hlt
    · rw [List.length_nil, if_neg (by omega)]
  obtain ⟨b, hb, hlen, hget⟩ := hloop
  rw [hb]
  congr 1
  refine List.ext_getElem? fun p => ?_
  rw [hget, List.length_range, List.getElem?_append, List.length_reverse, List.length_take,
    Nat.min_eq_left hi, List.getElem?_drop]
  by_cases hp : p < i
  · rw [if_pos hp, List.getElem?_reverse (by simpa using ⟨hp, hp.trans_le hi⟩), List.length_take,
      Nat.min_eq_left hi, List.getElem?_take_of_lt (by omega)]
    split_ifs with hcase
    · rfl
    · congr 1
      omega
  · rw [if_neg hp, if_neg (by omega), Nat.add_sub_cancel' (by omega)]

end Buffer
