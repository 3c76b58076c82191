import Mathlib.Data.Nat.Digits.Lemmas
import Mathlib.Tactic.Common

/-!
# Numerals

The numeral of a number in a base up to 16 as a list of ASCII characters, the digit of the highest power
first : `text`. It has no leading 0 except for 0 (`text_head`), at most `k` digits for a number below
`b ^ k` (`text_length_le`), and the number is its value, also behind zeros (`value_text`,
`value_zeros`). `decimal` is the numeral of an integer with its sign.

`digitLoop` is the loop that peels the digits off a number, the lowest first.
-/

namespace Numeral

variable {b n k : ℕ}

/-- `while (n > 0) { ...; n % b; n /= b; }` with at most the given number of rounds : the digits, in the
order in which they come. -/
def digitLoop (b : ℕ) : ℕ → ℕ → List ℕ
  | 0, _ => []
  | fuel + 1, n => if n = 0 then [] else n % b :: digitLoop b fuel (n / b)

theorem digitLoop_eq (hb : 1 < b) : ∀ {fuel n : ℕ}, n < b ^ fuel → digitLoop b fuel n = Nat.digits b n
  | 0, n, h => by
    obtain rfl : n = 0 := by simpa using h
    rw [digitLoop, Nat.digits_zero]
  | fuel + 1, n, h => by
    rw [digitLoop]
    split_ifs with h0
    · rw [h0, Nat.digits_zero]
    · have hdiv : n / b < b ^ fuel := Nat.div_lt_of_lt_mul (by rwa [← Nat.pow_succ'])
      rw [digitLoop_eq hb hdiv, ← Nat.digits_def' hb (Nat.pos_of_ne_zero h0)]

/-- The character of a digit. -/
def digitChar (d : ℕ) : BitVec 8 := if d < 10 then BitVec.ofNat 8 (48 + d) else BitVec.ofNat 8 (87 + d)

/-- The digit of a character. -/
def digitValue (c : BitVec 8) : ℕ := if c.toNat < 58 then c.toNat - 48 else c.toNat - 87

theorem digitChar_toNat {d : ℕ} (hd : d < 16) :
    (digitChar d).toNat = if d < 10 then 48 + d else 87 + d := by
  rw [digitChar]
  split_ifs
  · rw [BitVec.toNat_ofNat]
    omega
  · rw [BitVec.toNat_ofNat]
    omega

theorem digitValue_digitChar {d : ℕ} (hd : d < 16) : digitValue (digitChar d) = d := by
  rw [digitValue, digitChar_toNat hd]
  split_ifs <;> omega

/-- The numeral of `n`. -/
def text (b n : ℕ) : List (BitVec 8) :=
  if n = 0 then [digitChar 0] else (Nat.digits b n).reverse.map digitChar

/-- The value of a list of digits. -/
def value (b : ℕ) (cs : List (BitVec 8)) : ℕ := cs.foldl (fun a c => a * b + digitValue c) 0

theorem value_append (cs : List (BitVec 8)) (c : BitVec 8) :
    value b (cs ++ [c]) = value b cs * b + digitValue c := List.foldl_append

theorem value_digits (hb : b ≤ 16) : ∀ ds : List ℕ, (∀ d ∈ ds, d < b) →
    value b (ds.reverse.map digitChar) = Nat.ofDigits b ds
  | [], _ => rfl
  | d :: ds, h => by
    rw [List.forall_mem_cons] at h
    rw [List.reverse_cons, List.map_append, List.map_singleton, value_append, value_digits hb ds h.2,
      digitValue_digitChar (h.1.trans_le hb), Nat.ofDigits_cons, Nat.mul_comm, Nat.add_comm]

/-- A numeral has the value of its number. -/
theorem value_text (hb : 1 < b) (hb16 : b ≤ 16) (n : ℕ) : value b (text b n) = n := by
  rw [text]
  split_ifs with h0
  · rw [h0, ← List.nil_append [digitChar 0], value_append, digitValue_digitChar (by norm_num)]
    exact Nat.zero_mul b
  · rw [value_digits hb16 _ fun d hd => Nat.digits_lt_base hb hd, Nat.ofDigits_digits]

theorem text_injective (hb : 1 < b) (hb16 : b ≤ 16) {m : ℕ} (h : text b n = text b m) : n = m := by
  rw [← value_text hb hb16 n, h, value_text hb hb16]

/-- Zeros in front do not change the value. -/
theorem value_zeros (cs : List (BitVec 8)) : ∀ k, value b (List.replicate k 48 ++ cs) = value b cs
  | 0 => rfl
  | k + 1 => by
    rw [List.replicate_succ, List.cons_append, value, List.foldl_cons]
    exact (congrArg (fun a => List.foldl (fun a c => a * b + digitValue c) a (List.replicate k 48 ++ cs))
      (Nat.zero_mul b)).trans (value_zeros cs k)

theorem text_ne_nil (b n : ℕ) : text b n ≠ [] := by
  rw [text]
  split_ifs with h0
  · exact List.cons_ne_nil _ _
  · simpa [Nat.digits_eq_nil_iff_eq_zero] using h0

/-- A numeral begins with the digit 0 just if it is that of 0. -/
theorem text_head (hb : 1 < b) (hb16 : b ≤ 16) : (text b n).head? = some (digitChar 0) ↔ n = 0 := by
  rw [text]
  split_ifs with h0
  · exact iff_of_true rfl h0
  · refine iff_of_false (fun h => ?_) h0
    have hne : Nat.digits b n ≠ [] := Nat.digits_ne_nil_iff_ne_zero.2 h0
    rw [List.head?_map, List.head?_reverse, List.getLast?_eq_some_getLast hne, Option.map_some] at h
    have hlt := Nat.digits_lt_base hb (List.getLast_mem hne)
    have hval := congrArg digitValue (Option.some.inj h)
    rw [digitValue_digitChar (hlt.trans_le hb16), digitValue_digitChar (by norm_num)] at hval
    exact Nat.getLast_digit_ne_zero b h0 hval

theorem text_length_le (hb : 1 < b) (hk : 0 < k) (h : n < b ^ k) : (text b n).length ≤ k := by
  rw [text]
  split_ifs
  · exact hk
  · rw [List.length_map, List.length_reverse]
    exact (Nat.digits_length_le_iff hb n).2 h

theorem length_text_pos (b n : ℕ) : 0 < (text b n).length := List.length_pos_iff.2 (text_ne_nil b n)

theorem exists_digit_of_mem_text (hb : 1 < b) {c : BitVec 8} (h : c ∈ text b n) :
    ∃ d < b, c = digitChar d := by
  rw [text] at h
  split_ifs at h
  · exact ⟨0, by omega, List.mem_singleton.1 h⟩
  · obtain ⟨d, hd, rfl⟩ := List.mem_map.1 h
    exact ⟨d, Nat.digits_lt_base hb (List.mem_reverse.1 hd), rfl⟩

/-- The characters of a numeral : digits, and letters from base 11 on. -/
theorem mem_text (hb : 1 < b) (hb16 : b ≤ 16) {c : BitVec 8} (h : c ∈ text b n) :
    48 ≤ c.toNat ∧ c.toNat < 58 ∨ 97 ≤ c.toNat ∧ c.toNat < 103 := by
  obtain ⟨d, hd, rfl⟩ := exists_digit_of_mem_text hb h
  rw [digitChar_toNat (hd.trans_le hb16)]
  split_ifs <;> omega

/-- `cs` is the numeral of `n` : it has only digits, `n` is its value, and it has no 0 in front, except that
of 0. -/
structure Canonical (b n : ℕ) (cs : List (BitVec 8)) : Prop where
  digits : ∀ c ∈ cs, ∃ d < b, c = digitChar d
  value_eq : value b cs = n
  ne_nil : cs ≠ []
  head : cs.head? = some (digitChar 0) ↔ n = 0

theorem canonical_text (hb : 1 < b) (hb16 : b ≤ 16) (n : ℕ) : Canonical b n (text b n) where
  digits _ h := exists_digit_of_mem_text hb h
  value_eq := value_text hb hb16 n
  ne_nil := text_ne_nil b n
  head := text_head hb hb16

/-! ## Integers -/

/-- The numeral of an integer. -/
def decimal (z : ℤ) : List (BitVec 8) := (if z < 0 then [45] else []) ++ text 10 z.natAbs

/-- The value of a list of digits with a sign. -/
def intValue : List (BitVec 8) → ℤ
  | [] => 0
  | c :: cs => if c = 45 then -(value 10 cs : ℤ) else value 10 (c :: cs)

theorem minus_not_mem_text (hb : 1 < b) (hb16 : b ≤ 16) : 45 ∉ text b n := fun h => by
  have := mem_text hb hb16 h
  simp at this

/-- Digits without a sign. -/
theorem intValue_of_head {cs : List (BitVec 8)} (h : cs.head? ≠ some 45) :
    intValue cs = value 10 cs := by
  cases cs with
  | nil => rfl
  | cons c cs => exact if_neg fun hc => h (by rw [List.head?_cons, hc])

theorem head_text_ne_minus (hb : 1 < b) (hb16 : b ≤ 16) : (text b n).head? ≠ some 45 := fun h =>
  minus_not_mem_text hb hb16 (List.mem_of_head? h)

theorem intValue_decimal (z : ℤ) : intValue (decimal z) = z := by
  rw [decimal]
  split_ifs with hz
  · rw [List.singleton_append, intValue, if_pos rfl, value_text (by norm_num) (by norm_num)]
    omega
  · rw [List.nil_append, intValue_of_head (head_text_ne_minus (by norm_num) (by norm_num)),
      value_text (by norm_num) (by norm_num)]
    omega

theorem decimal_injective {z z' : ℤ} (h : decimal z = decimal z') : z = z' := by
  rw [← intValue_decimal z, h, intValue_decimal]

/-- The numeral of an integer has digits and a sign. -/
theorem mem_decimal {z : ℤ} {c : BitVec 8} (h : c ∈ decimal z) : c = 45 ∨ 48 ≤ c.toNat := by
  rw [decimal, List.mem_append] at h
  rcases h with h | h
  · split_ifs at h
    · exact Or.inl (List.mem_singleton.1 h)
    · exact absurd h List.not_mem_nil
  · have := mem_text (by norm_num) (by norm_num) h
    omega

end Numeral
