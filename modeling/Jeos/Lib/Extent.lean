import Jeos.Lib.ByteMemory

/-!
# Ranges of addresses below a bound

An `Extent` is a range of bytes that a program reads or writes, by its start and its length.
`Extent.Below b` is decided from the two numbers, and holds exactly when every address of the
range is below `b` (`Extent.below_iff`); so a range that wraps is not below any bound.

A string or an array that ends at its first 0 has an extent that depends on the memory
(`stringExtent`, `words`).
-/

open ByteMemory

/-- The `length` bytes from `start` on. -/
structure Extent (w : ℕ) where
  start : BitVec w
  length : ℕ
  deriving DecidableEq

namespace Extent

variable {w : ℕ} {b a : BitVec w} {m n : ℕ}

/-- The range ends at `b` or before, or is empty. -/
def Below (b : BitVec w) (e : Extent w) : Prop :=
  e.length = 0 ∨ e.start.toNat + e.length ≤ b.toNat

instance (b : BitVec w) (e : Extent w) : Decidable (e.Below b) :=
  inferInstanceAs (Decidable (_ ∨ _))

theorem below_iff {e : Extent w} :
    e.Below b ↔ ∀ x, Within x e.start e.length → x < b := by
  have hb := b.isLt
  constructor
  · rintro (h | h) x hx
    · rw [h] at hx
      exact absurd hx (not_within_zero _ _)
    · have := ((within_iff (by omega)).1 hx).2
      exact BitVec.lt_def.2 (by omega)
  · intro h
    by_contra hn
    obtain ⟨h0, hlt⟩ := not_or.1 hn
    have ha := BitVec.lt_def.1 (h e.start (within_self _ (Nat.pos_of_ne_zero h0)))
    -- the bound itself is an address of the range
    have hin : Within b e.start e.length := by
      rw [Within, BitVec.toNat_sub_of_le (BitVec.le_def.2 ha.le)]
      omega
    exact absurd (BitVec.lt_def.1 (h b hin)) (lt_irrefl _)

theorem not_below_iff {e : Extent w} :
    ¬e.Below b ↔ ∃ x, Within x e.start e.length ∧ b ≤ x := by
  simp only [below_iff, not_forall, BitVec.not_lt, exists_prop]

theorem below_zero : (⟨a, 0⟩ : Extent w).Below b := Or.inl rfl

theorem below_of_le (h : a.toNat + n ≤ b.toNat) : (⟨a, n⟩ : Extent w).Below b := Or.inr h

theorem below_iff_of_pos (h : 0 < n) :
    (⟨a, n⟩ : Extent w).Below b ↔ a.toNat + n ≤ b.toNat :=
  or_iff_right h.ne'

/-- A part of a range. -/
theorem Below.part {i : ℕ} (h : (⟨a, n⟩ : Extent w).Below b) (hi : i + m ≤ n) :
    (⟨a + BitVec.ofNat w i, m⟩ : Extent w).Below b := by
  rcases h with h | h
  · dsimp only at h
    exact Or.inl (by dsimp only; omega)
  · have hb := b.isLt
    dsimp only at h
    have hmod : i % 2 ^ w = i := Nat.mod_eq_of_lt (by omega)
    refine below_of_le ?_
    rw [BitVec.toNat_add, BitVec.toNat_ofNat, hmod, Nat.mod_eq_of_lt (by omega)]
    omega

theorem Below.mono (h : (⟨a, n⟩ : Extent w).Below b) (hm : m ≤ n) :
    (⟨a, m⟩ : Extent w).Below b := by
  rcases h with h | h
  · dsimp only at h
    exact Or.inl (by dsimp only; omega)
  · dsimp only at h
    exact below_of_le (by omega)

end Extent

/-! ## Strings and arrays that end with 0 -/

section Terminated

variable {w : ℕ}

/-- The bytes from `a` on up to the first 0, at most `fuel` of them. -/
def cstring (mem : Memory w) : ℕ → BitVec w → List (BitVec 8)
  | 0, _ => []
  | fuel + 1, a => if mem a = 0 then [] else mem a :: cstring mem fuel (a + 1)

/-- The 64-bit words from `a` on up to the first 0, at most `fuel` of them. -/
def words (mem : Memory 64) : ℕ → BitVec 64 → List (BitVec 64)
  | 0, _ => []
  | fuel + 1, a => if load64 mem a = 0 then [] else load64 mem a :: words mem fuel (a + 8)

/-- The string at `a`, in a memory that may hold no 0. -/
def stringAt (mem : Memory w) (a : BitVec w) : List (BitVec 8) := cstring mem (2 ^ w) a

/-- The bytes of the string at `a`, with its 0. -/
def stringExtent (mem : Memory w) (a : BitVec w) : Extent w := ⟨a, (stringAt mem a).length + 1⟩

theorem zero_notMem_cstring (mem : Memory w) :
    ∀ (fuel : ℕ) (a : BitVec w), (0 : BitVec 8) ∉ cstring mem fuel a
  | 0, _ => List.not_mem_nil
  | fuel + 1, a => by
    rw [cstring]
    split_ifs with h
    · exact List.not_mem_nil
    · rw [List.mem_cons, not_or]
      exact ⟨fun h0 => h h0.symm, zero_notMem_cstring mem fuel (a + 1)⟩

theorem zero_notMem_stringAt (mem : Memory w) (a : BitVec w) : (0 : BitVec 8) ∉ stringAt mem a :=
  zero_notMem_cstring mem _ a

/-- A string that ends before the fuel does has its 0 behind it. -/
theorem cstring_end {mem : Memory w} : ∀ {fuel : ℕ} {a : BitVec w},
    (cstring mem fuel a).length < fuel → mem (a + BitVec.ofNat w (cstring mem fuel a).length) = 0
  | 0, _, h => absurd h (Nat.not_lt_zero _)
  | fuel + 1, a, h => by
    rw [cstring] at h ⊢
    split_ifs at h ⊢ with h0
    · simpa using h0
    · rw [List.length_cons] at h ⊢
      have hlt : (cstring mem fuel (a + 1)).length < fuel := by omega
      have := cstring_end hlt
      rwa [Nat.add_comm, BitVec.ofNat_add, ← BitVec.add_assoc]

/-- A copy of a string with its 0 is the same string. -/
theorem cstring_congr {m m' : Memory w} : ∀ {fuel : ℕ} {a b : BitVec w},
    (∀ j ≤ (cstring m fuel a).length, m' (b + BitVec.ofNat w j) = m (a + BitVec.ofNat w j)) →
    cstring m' fuel b = cstring m fuel a
  | 0, _, _, _ => rfl
  | fuel + 1, a, b, h => by
    have h0 : m' b = m a := by simpa using h 0 (Nat.zero_le _)
    rw [cstring] at h
    rw [cstring, cstring, h0]
    split_ifs at h ⊢ with ha
    · rfl
    · refine congrArg (m a :: ·) (cstring_congr fun j hj => ?_)
      have := h (1 + j) (by rw [List.length_cons]; omega)
      rwa [BitVec.ofNat_add, ← BitVec.add_assoc, ← BitVec.add_assoc] at this

/-- A copy of an array with its 0 is the same array. -/
theorem words_congr {m m' : Memory 64} : ∀ {fuel : ℕ} {a b : BitVec 64},
    (∀ j ≤ (words m fuel a).length, load64 m' (b + BitVec.ofNat 64 (8 * j)) =
      load64 m (a + BitVec.ofNat 64 (8 * j))) → words m' fuel b = words m fuel a
  | 0, _, _, _ => rfl
  | fuel + 1, a, b, h => by
    have h0 : load64 m' b = load64 m a := by simpa using h 0 (Nat.zero_le _)
    rw [words] at h
    rw [words, words, h0]
    split_ifs at h ⊢ with ha
    · rfl
    · refine congrArg (load64 m a :: ·) (words_congr fun j hj => ?_)
      have := h (j + 1) (by rw [List.length_cons]; omega)
      rwa [Nat.mul_succ, Nat.add_comm, BitVec.ofNat_add, ← BitVec.add_assoc,
        ← BitVec.add_assoc] at this

/-- A string that is not below the bound has a byte at every address below it. -/
theorem le_length_of_not_below {mem : Memory w} {a b : BitVec w}
    (h : ¬(stringExtent mem a).Below b) : b.toNat - a.toNat ≤ (stringAt mem a).length := by
  rw [stringExtent, Extent.below_iff_of_pos (Nat.succ_pos _)] at h
  omega

end Terminated
