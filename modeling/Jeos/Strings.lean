import Jeos.Initfs

/-!
# Two comparisons of strings

`kstrcmp` of `string.c` and `strcmp` of the user library `ulib.c` compare two strings. The first stops at
the end of a string and compares bytes without a sign, which is the lexicographic order
(`kstrcmp_order`). The second has no test for the end and compares `char`s, which have a sign.

So `strcmp` is right just for strings that differ, where the first two bytes that do are both below 128
or both not, and have an index below `2 ^ 31` (`strcmp_agrees_iff`). On equal strings it goes on behind
their ends (`strcmp_disagrees`).
-/

set_option linter.unusedSectionVars false

namespace Jeos.Strings

open ByteMemory Initfs

/-- The loop of `strcmp` : the value returned and the last index read. There is no result when the
`int` overflows. -/
def strcmpLoop (m : Mem) (s1 s2 : U64) : ℕ → ℕ → Option (ℤ × ℕ)
  | 0, _ => none
  | fuel + 1, i =>
    if 2 ^ 31 ≤ i then none
    else if (m (s1 + BitVec.ofNat 64 i)).toInt > (m (s2 + BitVec.ofNat 64 i)).toInt then some (1, i)
    else if (m (s1 + BitVec.ofNat 64 i)).toInt < (m (s2 + BitVec.ofNat 64 i)).toInt then some (-1, i)
    else strcmpLoop m s1 s2 fuel (i + 1)

/-- `strcmp` of `ulib.c`. -/
def strcmp (m : Mem) (s1 s2 : U64) (fuel : ℕ) : Option (ℤ × ℕ) := strcmpLoop m s1 s2 fuel 0

/-- The loop of `kstrcmp`. -/
def kstrcmpLoop (m : Mem) : ℕ → U64 → U64 → Option ℤ
  | 0, _, _ => none
  | fuel + 1, a, b =>
    if m a ≠ 0 ∧ m a = m b then kstrcmpLoop m fuel (a + 1) (b + 1)
    else some ((m a).toNat - (m b).toNat)

/-- `kstrcmp` of `string.c`. -/
def kstrcmp (m : Mem) (a b : U64) (fuel : ℕ) : Option ℤ :=
  if a = b then some 0
  else if a = 0 then some (-1)
  else if b = 0 then some 1
  else kstrcmpLoop m fuel a b

/-- A string at a place that is not the null pointer. -/
structure IsString (m : Mem) (a : U64) (l : List U8) : Prop where
  bytes : StringAt m a l
  nul : 0 ∉ l
  place : a ≠ 0

/-- What `strcmp` should do on two strings : return, with no byte read behind an end, 0 just for equal
strings, and else a value with the sign of the other comparison. -/
def Agrees (m m' : Mem) (a b a' b' : U64) (l₁ l₂ : List U8) : Prop :=
  ∃ r i k, (∃ N, ∀ fuel ≥ N, strcmp m a b fuel = some (r, i)) ∧
    (∃ N, ∀ fuel ≥ N, kstrcmp m' a' b' fuel = some k) ∧ i ≤ l₁.length ∧ i ≤ l₂.length ∧
    (r = 0 ↔ l₁ = l₂) ∧ (l₁ ≠ l₂ → r.sign = k.sign)

/-! ## Where two strings differ -/

/-- The strings, with their ends, are the same up to `p` and have different bytes behind it. -/
structure Differ (l₁ l₂ p : List U8) (c₁ c₂ : U8) : Prop where
  left : p ++ [c₁] <+: l₁ ++ [0]
  right : p ++ [c₂] <+: l₂ ++ [0]
  ne : c₁ ≠ c₂

variable {m m' : Mem} {a b a' b' : U64} {l l₁ l₂ p : List U8} {c c₁ c₂ : U8} {i : ℕ}

theorem differ_cons : Differ (c :: l₁) (c :: l₂) (c :: p) c₁ c₂ ↔ Differ l₁ l₂ p c₁ c₂ := by
  constructor
  · exact fun h => ⟨(List.cons_prefix_cons.1 h.left).2, (List.cons_prefix_cons.1 h.right).2, h.ne⟩
  · exact fun h => ⟨List.cons_prefix_cons.2 ⟨rfl, h.left⟩, List.cons_prefix_cons.2 ⟨rfl, h.right⟩, h.ne⟩

/-- Two strings that differ do so at some place. -/
theorem exists_differ : ∀ {l₁ l₂ : List U8}, 0 ∉ l₁ → 0 ∉ l₂ → l₁ ≠ l₂ → ∃ p c₁ c₂, Differ l₁ l₂ p c₁ c₂
  | [], [], _, _, hne => absurd rfl hne
  | [], c :: l, _, h, _ => ⟨[], 0, c, List.prefix_rfl, by simp, fun he => h (he ▸ List.mem_cons_self)⟩
  | c :: l, [], h, _, _ => ⟨[], c, 0, by simp, List.prefix_rfl, fun he => h (he ▸ List.mem_cons_self)⟩
  | c₁ :: l₁, c₂ :: l₂, h₁, h₂, hne => by
    by_cases hc : c₁ = c₂
    · obtain rfl := hc
      have hne' : l₁ ≠ l₂ := fun he => hne (he ▸ rfl)
      obtain ⟨p, d₁, d₂, h⟩ := exists_differ (fun h => h₁ (List.mem_cons_of_mem _ h))
        (fun h => h₂ (List.mem_cons_of_mem _ h)) hne'
      exact ⟨c₁ :: p, d₁, d₂, differ_cons.2 h⟩
    · exact ⟨[], c₁, c₂, by simp, by simp, hc⟩

theorem Differ.ne_strings (h : Differ l₁ l₂ p c₁ c₂) : l₁ ≠ l₂ := by
  rintro rfl
  have hlen : (p ++ [c₁]).length = (p ++ [c₂]).length := by simp
  have he := List.prefix_of_prefix_length_le h.left h.right hlen.le
  exact h.ne (by simpa using he.eq_of_length hlen)

/-- The order of two strings is that of the bytes in which they differ. -/
theorem Differ.lex_iff (h₁ : 0 ∉ l₁) (h₂ : 0 ∉ l₂) (h : Differ l₁ l₂ p c₁ c₂) :
    List.Lex (· < ·) l₁ l₂ ↔ c₁ < c₂ := by
  induction p generalizing l₁ l₂ with
  | nil =>
    obtain ⟨hl, hr, hne⟩ := h
    cases l₁ with
    | nil =>
      obtain rfl : c₁ = 0 := by simpa using hl
      cases l₂ with
      | nil => exact absurd (by simpa using hr) hne.symm
      | cons c l =>
        obtain rfl : c₂ = c := by simpa using hr
        exact iff_of_true .nil (BitVec.lt_of_le_ne (Nat.zero_le _) hne)
    | cons d l =>
      obtain rfl : c₁ = d := by simpa using hl
      cases l₂ with
      | nil =>
        obtain rfl : c₂ = 0 := by simpa using hr
        exact iff_of_false nofun (BitVec.not_lt_zero)
      | cons e l' =>
        obtain rfl : c₂ = e := by simpa using hr
        refine ⟨fun hlex => ?_, .rel⟩
        cases hlex with
        | cons => exact absurd rfl hne
        | rel hlt => exact hlt
  | cons c p ih =>
    cases l₁ with
    | nil => exact absurd h.left (by simp)
    | cons d l₁ =>
      cases l₂ with
      | nil => exact absurd h.right (by simp)
      | cons e l₂ =>
        obtain ⟨rfl, -⟩ := List.cons_prefix_cons.1 h.left
        obtain ⟨rfl, -⟩ := List.cons_prefix_cons.1 h.right
        rw [← ih (fun h => h₁ (List.mem_cons_of_mem _ h)) (fun h => h₂ (List.mem_cons_of_mem _ h))
          (differ_cons.1 h)]
        refine ⟨fun hlex => ?_, .cons⟩
        cases hlex with
        | cons hlex => exact hlex
        | rel hlt => exact absurd hlt (BitVec.lt_irrefl _)

theorem Differ.symm (h : Differ l₁ l₂ p c₁ c₂) : Differ l₂ l₁ p c₂ c₁ := ⟨h.right, h.left, h.ne.symm⟩

theorem Differ.length_le (h : Differ l₁ l₂ p c₁ c₂) : p.length ≤ l₁.length := by
  have := h.left.length_le
  simp only [List.length_append, List.length_singleton] at this
  omega

/-- The bytes of a string in memory, up to the place of a difference. -/
theorem byte_before (hs : StringAt m a l) (h : p ++ [c] <+: l ++ [0]) (hi : i < p.length) :
    m (a + BitVec.ofNat 64 i) = p[i] := by
  refine hs i p[i] ?_
  obtain ⟨t, ht⟩ := h
  rw [← ht, List.append_assoc, List.getElem?_append_left hi, List.getElem?_eq_getElem hi]

theorem byte_differ (hs : StringAt m a l) (h : p ++ [c] <+: l ++ [0]) :
    m (a + BitVec.ofNat 64 p.length) = c := by
  refine hs p.length c ?_
  obtain ⟨t, ht⟩ := h
  rw [← ht, List.append_assoc, List.getElem?_append_right le_rfl, Nat.sub_self]
  rfl

/-! ## The loop of the kernel -/

theorem kstrcmpLoop_eq {fuel : ℕ} (hb : StringAt m b l) (hfuel : l.length < fuel) :
    kstrcmpLoop m fuel a b = some (Initfs.kstrcmp m a l) := by
  induction l generalizing a b fuel with
  | nil =>
    obtain ⟨n, rfl⟩ : ∃ n, fuel = n + 1 := ⟨fuel - 1, by simp at hfuel; omega⟩
    have h0 : m b = 0 := by simpa using hb 0 0 rfl
    have hend : ¬(m a ≠ 0 ∧ m a = m b) := fun h => h.1 (h.2.trans h0)
    rw [kstrcmpLoop, if_neg hend, h0, Initfs.kstrcmp]
    simp
  | cons c l ih =>
    obtain ⟨n, rfl⟩ : ∃ n, fuel = n + 1 := ⟨fuel - 1, by simp at hfuel; omega⟩
    obtain ⟨hc, hl⟩ := stringAt_cons.1 hb
    rw [kstrcmpLoop, Initfs.kstrcmp, hc]
    split_ifs
    · exact ih hl (by simpa using hfuel)
    · rfl

theorem Differ.kstrcmp_eq (h : Differ l₁ l₂ p c₁ c₂) (h0 : 0 ∉ l₁) (ha : StringAt m a l₁) :
    Initfs.kstrcmp m a l₂ = (c₁.toNat : ℤ) - c₂.toNat := by
  induction p generalizing l₁ l₂ a with
  | nil =>
    have hc : m a = c₁ := by simpa using byte_differ ha h.left
    cases l₂ with
    | nil =>
      obtain rfl : c₂ = 0 := by simpa using h.right
      rw [Initfs.kstrcmp, hc]
      simp
    | cons e l =>
      obtain rfl : c₂ = e := by simpa using h.right
      rw [Initfs.kstrcmp, hc, if_neg fun he => h.ne he.2]
  | cons c p ih =>
    obtain ⟨d, l₁, rfl⟩ := List.exists_cons_of_ne_nil (l := l₁) fun he => by
      have := h.left
      simp [he] at this
    obtain ⟨e, l₂, rfl⟩ := List.exists_cons_of_ne_nil (l := l₂) fun he => by
      have := h.right
      simp [he] at this
    obtain ⟨rfl, -⟩ := List.cons_prefix_cons.1 h.left
    obtain ⟨rfl, -⟩ := List.cons_prefix_cons.1 h.right
    obtain ⟨hc, hl⟩ := stringAt_cons.1 ha
    have hne : c ≠ 0 := fun he => h0 (he ▸ List.mem_cons_self)
    rw [Initfs.kstrcmp, hc, if_pos ⟨hne, rfl⟩]
    exact ih (differ_cons.1 h) (fun h => h0 (List.mem_cons_of_mem _ h)) hl

theorem not_lex_self : ∀ l : List U8, ¬List.Lex (· < ·) l l
  | [] => nofun
  | c :: l => fun h => by
    cases h with
    | cons h => exact not_lex_self l h
    | rel h => exact BitVec.lt_irrefl c h

/-- What a comparison of two strings in the lexicographic order returns. -/
structure Ordered (l₁ l₂ : List U8) (k : ℤ) : Prop where
  zero : k = 0 ↔ l₁ = l₂
  neg : k < 0 ↔ List.Lex (· < ·) l₁ l₂

theorem ordered_self (l : List U8) : Ordered l l 0 :=
  ⟨iff_of_true rfl rfl, iff_of_false (lt_irrefl 0) (not_lex_self l)⟩

theorem Differ.ordered (h₁ : 0 ∉ l₁) (h₂ : 0 ∉ l₂) (h : Differ l₁ l₂ p c₁ c₂) :
    Ordered l₁ l₂ ((c₁.toNat : ℤ) - c₂.toNat) := by
  have hne : c₁.toNat ≠ c₂.toNat := fun he => h.ne (BitVec.eq_of_toNat_eq he)
  refine ⟨iff_of_false (by omega) h.ne_strings, ?_⟩
  rw [h.lex_iff h₁ h₂, BitVec.lt_def]
  omega

/-- `kstrcmp` is the lexicographic order of bytes without a sign. -/
theorem kstrcmp_order (ha : IsString m a l₁) (hb : IsString m b l₂) :
    ∃ k : ℤ, (∃ N, ∀ fuel ≥ N, kstrcmp m a b fuel = some k) ∧ Ordered l₁ l₂ k ∧
      ∀ {p c₁ c₂}, Differ l₁ l₂ p c₁ c₂ → k = c₁.toNat - c₂.toNat := by
  by_cases hab : a = b
  · obtain rfl := hab
    obtain rfl := ha.bytes.eq hb.bytes (Nat.le_antisymm (hb.bytes.length_le ha.bytes ha.nul)
      (ha.bytes.length_le hb.bytes hb.nul))
    exact ⟨0, ⟨0, fun fuel _ => if_pos rfl⟩, ordered_self l₁, fun h => absurd rfl h.ne_strings⟩
  have hrun : ∀ fuel ≥ l₂.length + 1, kstrcmp m a b fuel = some (Initfs.kstrcmp m a l₂) :=
    fun fuel hf => by
      rw [kstrcmp, if_neg hab, if_neg ha.place, if_neg hb.place]
      exact kstrcmpLoop_eq hb.bytes hf
  refine ⟨_, ⟨_, hrun⟩, ?_, fun h => h.kstrcmp_eq ha.nul ha.bytes⟩
  by_cases hl : l₁ = l₂
  · obtain rfl := hl
    rw [(kstrcmp_eq_zero_iff ha.nul a).2 ha.bytes]
    exact ordered_self l₁
  · obtain ⟨p, c₁, c₂, h⟩ := exists_differ ha.nul hb.nul hl
    rw [h.kstrcmp_eq ha.nul ha.bytes]
    exact h.ordered ha.nul hb.nul

/-! ## The loop of the user library -/

/-- The loop ends at the first index at which the bytes are different, if it is one of an `int`. -/
theorem strcmpLoop_eq_some_iff {fuel j : ℕ} {r : ℤ} : strcmpLoop m a b fuel i = some (r, j) ↔
    (i ≤ j ∧ j < i + fuel ∧ j < 2 ^ 31) ∧
      (∀ k, i ≤ k → k < j → m (a + BitVec.ofNat 64 k) = m (b + BitVec.ofNat 64 k)) ∧
      m (a + BitVec.ofNat 64 j) ≠ m (b + BitVec.ofNat 64 j) ∧
      r = if (m (a + BitVec.ofNat 64 j)).toInt > (m (b + BitVec.ofNat 64 j)).toInt then 1 else -1 := by
  induction fuel generalizing i with
  | zero => exact iff_of_false nofun fun h => by omega
  | succ fuel ih =>
    rw [strcmpLoop]
    by_cases hi : 2 ^ 31 ≤ i
    · rw [if_pos hi]
      exact iff_of_false nofun fun h => by omega
    rw [if_neg hi]
    by_cases he : m (a + BitVec.ofNat 64 i) = m (b + BitVec.ofNat 64 i)
    · rw [he, if_neg (lt_irrefl _), if_neg (lt_irrefl _), ih]
      constructor
      · rintro ⟨hj, hsame, hrest⟩
        refine ⟨by omega, fun k hk hkj => ?_, hrest⟩
        rcases Nat.eq_or_lt_of_le hk with rfl | hlt
        · exact he
        · exact hsame k hlt hkj
      · rintro ⟨hj, hsame, hne, hr⟩
        have hij : i ≠ j := fun hij => hne (hij ▸ he)
        exact ⟨by omega, fun k hk => hsame k (by omega), hne, hr⟩
    · -- the values are different, so one of the two tests holds
      have hval : (m (a + BitVec.ofNat 64 i)).toInt ≠ (m (b + BitVec.ofNat 64 i)).toInt :=
        fun h => he (BitVec.eq_of_toInt_eq h)
      have hres : (if (m (a + BitVec.ofNat 64 i)).toInt > (m (b + BitVec.ofNat 64 i)).toInt then
            some ((1 : ℤ), i)
          else if (m (a + BitVec.ofNat 64 i)).toInt < (m (b + BitVec.ofNat 64 i)).toInt then some (-1, i)
          else strcmpLoop m a b fuel (i + 1)) =
          some (if (m (a + BitVec.ofNat 64 i)).toInt > (m (b + BitVec.ofNat 64 i)).toInt then 1 else -1,
            i) := by
        split_ifs
        · rfl
        · rfl
        · omega
      rw [hres]
      constructor
      · intro h
        obtain ⟨rfl, rfl⟩ := Prod.mk.inj (Option.some.inj h)
        exact ⟨by omega, fun k hk hki => absurd hki (Nat.not_lt.2 hk), he, rfl⟩
      · rintro ⟨⟨hij, -⟩, hsame, -, rfl⟩
        rcases Nat.eq_or_lt_of_le hij with rfl | hlt
        · rfl
        · exact absurd (hsame i le_rfl hlt) he

theorem Differ.strcmpLoop_iff {fuel j : ℕ} {r : ℤ} (h : Differ l₁ l₂ p c₁ c₂) (ha : StringAt m a l₁)
    (hb : StringAt m b l₂) : strcmp m a b fuel = some (r, j) ↔
      j = p.length ∧ p.length < fuel ∧ p.length < 2 ^ 31 ∧ r = if c₁.toInt > c₂.toInt then 1 else -1 := by
  have hsame : ∀ k < p.length, m (a + BitVec.ofNat 64 k) = m (b + BitVec.ofNat 64 k) := fun k hk =>
    (byte_before ha h.left hk).trans (byte_before hb h.right hk).symm
  have h₁ := byte_differ ha h.left
  have h₂ := byte_differ hb h.right
  rw [strcmp, strcmpLoop_eq_some_iff]
  constructor
  · rintro ⟨hj, hsame', hne, hr⟩
    obtain rfl : j = p.length := by
      rcases Nat.lt_trichotomy j p.length with hlt | he | hlt
      · exact absurd (hsame j hlt) hne
      · exact he
      · exact absurd (h₁.symm.trans ((hsame' _ (Nat.zero_le _) hlt).trans h₂)) h.ne
    rw [h₁, h₂] at hr
    exact ⟨rfl, by omega, by omega, hr⟩
  · rintro ⟨rfl, hfuel, hint, rfl⟩
    rw [h₁, h₂]
    exact ⟨by omega, fun k _ hk => hsame k hk, h.ne, rfl⟩

/-- The two orders of bytes. -/
theorem sign_eq_iff (hne : c₁ ≠ c₂) :
    (if c₁.toInt > c₂.toInt then (1 : ℤ) else -1).sign = ((c₁.toNat : ℤ) - c₂.toNat).sign ↔
      (c₁.toNat < 128 ↔ c₂.toNat < 128) := by
  have hval : c₁.toNat ≠ c₂.toNat := fun he => hne (BitVec.eq_of_toNat_eq he)
  have h₁ := c₁.isLt
  have h₂ := c₂.isLt
  have hsign : ((c₁.toNat : ℤ) - c₂.toNat).sign = if c₁.toNat > c₂.toNat then 1 else -1 := by
    split_ifs with h
    · exact Int.sign_eq_one_of_pos (by omega)
    · exact Int.sign_eq_neg_one_of_neg (by omega)
  rw [hsign, BitVec.toInt_eq_toNat_cond, BitVec.toInt_eq_toNat_cond]
  split_ifs <;> simp <;> omega

/-- Where `strcmp` does what it should, the strings differ as it needs. -/
theorem Agrees.differ (h₁ : IsString m a l₁) (h₂ : IsString m b l₂) (h₁' : IsString m' a' l₁)
    (h₂' : IsString m' b' l₂) (h : Agrees m m' a b a' b' l₁ l₂) :
    ∃ p c₁ c₂, Differ l₁ l₂ p c₁ c₂ ∧ p.length < 2 ^ 31 ∧ (c₁.toNat < 128 ↔ c₂.toNat < 128) := by
  obtain ⟨r, i, k, ⟨N, hN⟩, ⟨N₁, hN₁⟩, hi₁, -, hzero, hsign⟩ := h
  have hrun := hN N le_rfl
  by_cases hl : l₁ = l₂
  · -- the bytes of equal strings are the same up to the end
    obtain rfl := hl
    obtain ⟨-, -, hne, -⟩ := strcmpLoop_eq_some_iff.1 hrun
    obtain ⟨c, hc⟩ : ∃ c, (l₁ ++ [0])[i]? = some c :=
      ⟨_, List.getElem?_eq_getElem (by simpa using Nat.lt_succ_of_le hi₁)⟩
    rw [h₁.bytes i c hc, h₂.bytes i c hc] at hne
    exact absurd rfl hne
  · obtain ⟨p, c₁, c₂, h⟩ := exists_differ h₁.nul h₂.nul hl
    obtain ⟨-, -, hint, rfl⟩ := (h.strcmpLoop_iff h₁.bytes h₂.bytes).1 hrun
    obtain ⟨k', ⟨N₂, hN₂⟩, -, hdiff⟩ := kstrcmp_order h₁' h₂'
    obtain rfl : k = k' := Option.some.inj
      ((hN₁ _ (Nat.le_max_left N₁ N₂)).symm.trans (hN₂ _ (Nat.le_max_right N₁ N₂)))
    refine ⟨p, c₁, c₂, h, hint, (sign_eq_iff h.ne).1 ?_⟩
    rw [hsign hl, hdiff h]

theorem Differ.agrees (h₁ : IsString m a l₁) (h₂ : IsString m b l₂) (h₁' : IsString m' a' l₁)
    (h₂' : IsString m' b' l₂) (h : Differ l₁ l₂ p c₁ c₂) (hint : p.length < 2 ^ 31)
    (hsides : c₁.toNat < 128 ↔ c₂.toNat < 128) : Agrees m m' a b a' b' l₁ l₂ := by
  obtain ⟨k, hk, -, hdiff⟩ := kstrcmp_order h₁' h₂'
  refine ⟨_, p.length, k, ⟨p.length + 1, fun fuel hf =>
    (h.strcmpLoop_iff h₁.bytes h₂.bytes).2 ⟨rfl, hf, hint, rfl⟩⟩, hk, h.length_le, h.symm.length_le,
    iff_of_false ?_ h.ne_strings, fun _ => ?_⟩
  · split_ifs <;> norm_num
  · rw [hdiff h]
    exact (sign_eq_iff h.ne).2 hsides

/-- The comparison of the kernel is the lexicographic order, and `strcmp` does what it should on two
strings just if they differ, where the first bytes that do are on one side of 128 and have an index that
an `int` can hold. -/
theorem strcmp_agrees_iff (h₁ : IsString m a l₁) (h₂ : IsString m b l₂) (h₁' : IsString m' a' l₁)
    (h₂' : IsString m' b' l₂) :
    (∃ k, (∃ N, ∀ fuel ≥ N, kstrcmp m' a' b' fuel = some k) ∧ Ordered l₁ l₂ k) ∧
      (Agrees m m' a b a' b' l₁ l₂ ↔ ∃ p c₁ c₂, Differ l₁ l₂ p c₁ c₂ ∧ p.length < 2 ^ 31 ∧
        (c₁.toNat < 128 ↔ c₂.toNat < 128)) := by
  obtain ⟨k, hk, hord, -⟩ := kstrcmp_order h₁' h₂'
  refine ⟨⟨k, hk, hord⟩, Agrees.differ h₁ h₂ h₁' h₂', ?_⟩
  rintro ⟨p, c₁, c₂, h, hint, hsides⟩
  exact h.agrees h₁ h₂ h₁' h₂' hint hsides

/-- A memory with the string "a" at 16 and at 32, and one of the byte 0x80 at 48. -/
def stringMem : Mem := fun x => if x = 16 ∨ x = 32 then 97 else if x = 48 then 0x80 else 0

theorem isString_nil (h : m a = 0) (ha : a ≠ 0) : IsString m a [] := by
  refine ⟨fun k c hk => ?_, List.not_mem_nil, ha⟩
  obtain ⟨rfl, rfl⟩ : k = 0 ∧ c = 0 := by
    rcases k with _ | k
    · exact ⟨rfl, (Option.some.inj hk).symm⟩
    · cases hk
  simpa using h

theorem isString_singleton (h : m a = c) (hend : m (a + 1) = 0) (ha : a ≠ 0) (ha' : a + 1 ≠ 0)
    (hc : c ≠ 0) : IsString m a [c] :=
  ⟨stringAt_cons.2 ⟨h, (isString_nil hend ha').bytes⟩, by simpa using hc.symm, ha⟩

/-- The string "a" and the empty one. -/
theorem strcmp_agrees_ascii : Agrees stringMem stringMem 16 17 16 17 [97] [] :=
  have ha : IsString stringMem 16 [97] :=
    isString_singleton (by decide) (by decide) (by decide) (by decide) (by decide)
  have hb : IsString stringMem 17 [] := isString_nil (by decide) (by decide)
  (strcmp_agrees_iff ha hb ha hb).2.2
    ⟨[], 97, 0, ⟨by simp, by simp, by decide⟩, by norm_num, by decide⟩

/-- Two copies of "a" : `strcmp` returns 1, after it has read 15 bytes behind both ends. And the byte
0x80 is below "a" for `strcmp`, and above it for `kstrcmp`. -/
theorem strcmp_disagrees :
    (strcmp stringMem 16 32 17 = some (1, 16) ∧
      ¬Agrees stringMem stringMem 16 32 16 32 [97] [97]) ∧
    (strcmp stringMem 48 16 1 = some (-1, 0) ∧ kstrcmp stringMem 48 16 1 = some 31 ∧
      ¬Agrees stringMem stringMem 48 16 48 16 [0x80] [97]) := by
  have h16 : IsString stringMem 16 [97] :=
    isString_singleton (by decide) (by decide) (by decide) (by decide) (by decide)
  have h32 : IsString stringMem 32 [97] :=
    isString_singleton (by decide) (by decide) (by decide) (by decide) (by decide)
  have h48 : IsString stringMem 48 [0x80] :=
    isString_singleton (by decide) (by decide) (by decide) (by decide) (by decide)
  refine ⟨⟨by decide, fun h => ?_⟩, by decide, by decide, fun h => ?_⟩
  · obtain ⟨p, c₁, c₂, hd, -⟩ := h.differ h16 h32 h16 h32
    exact hd.ne_strings rfl
  · obtain ⟨p, c₁, c₂, hd, -, hsides⟩ := h.differ h48 h16 h48 h16
    cases p with
    | nil =>
      obtain rfl : c₁ = 0x80 := by simpa using hd.left
      obtain rfl : c₂ = 97 := by simpa using hd.right
      exact absurd (hsides.2 (by decide)) (by decide)
    | cons c p =>
      obtain ⟨rfl, -⟩ := List.cons_prefix_cons.1 hd.left
      exact absurd (List.cons_prefix_cons.1 hd.right).1 (by decide)

end Jeos.Strings
