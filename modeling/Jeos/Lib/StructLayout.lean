import Mathlib.Algebra.Order.Ring.Nat
import Mathlib.Data.List.Basic
import Mathlib.Tactic.Common

/-!
# The layout of C structures

A C type has a size and an alignment. The fields of a structure follow each other in
the order of their declaration, each at the next multiple of its alignment, and the
structure is padded to a multiple of the largest alignment.

`offset fs k` is the offset of field `k` of the structure with fields `fs`, and
`packedOffset fs k` the one without padding. Fields do not overlap (`offset_add_size_le`)
and lie inside the structure (`offset_add_size_le_struct`).
-/

/-- Size and alignment of a C type. -/
structure CType where
  size : ℕ
  align : ℕ
  align_pos : 0 < align

namespace CType

def u8 : CType := ⟨1, 1, Nat.one_pos⟩

def u16 : CType := ⟨2, 2, by decide⟩

def u32 : CType := ⟨4, 4, by decide⟩

/-- A 64-bit integer or a pointer. -/
def u64 : CType := ⟨8, 8, by decide⟩

def array (t : CType) (n : ℕ) : CType := ⟨n * t.size, t.align, t.align_pos⟩

/-- The next multiple of `a`. -/
def alignUp (x a : ℕ) : ℕ := (x + a - 1) / a * a

theorem le_alignUp {a : ℕ} (ha : 0 < a) (x : ℕ) : x ≤ alignUp x a := by
  have h1 := Nat.div_add_mod (x + a - 1) a
  have h2 := Nat.mod_lt (x + a - 1) ha
  rw [Nat.mul_comm] at h1
  unfold alignUp
  omega

/-- The offset of field `k` if the first field may start at `x`. -/
def offsetFrom : ℕ → List CType → ℕ → ℕ
  | x, [], _ => x
  | x, t :: _, 0 => alignUp x t.align
  | x, t :: fs, k + 1 => offsetFrom (alignUp x t.align + t.size) fs k

/-- The offset of field `k` of a structure. -/
def offset (fs : List CType) (k : ℕ) : ℕ := offsetFrom 0 fs k

/-- The largest alignment of the fields. -/
def maxAlign (fs : List CType) : ℕ := fs.foldr (fun t a => max t.align a) 1

theorem maxAlign_pos : ∀ fs : List CType, 0 < maxAlign fs
  | [] => Nat.one_pos
  | t :: _ => Nat.lt_of_lt_of_le t.align_pos (Nat.le_max_left _ _)

/-- A structure with the fields `fs`. -/
def struct (fs : List CType) : CType :=
  ⟨alignUp (offset fs fs.length) (maxAlign fs), maxAlign fs, maxAlign_pos fs⟩

/-- The offset of field `k` of a packed structure. -/
def packedOffset (fs : List CType) (k : ℕ) : ℕ := ((fs.take k).map size).sum

variable {fs : List CType} {x j k : ℕ}

theorem le_offsetFrom : ∀ (fs : List CType) (x k : ℕ), x ≤ offsetFrom x fs k
  | [], x, k => by simp [offsetFrom]
  | t :: _, x, 0 => le_alignUp t.align_pos x
  | t :: fs, x, k + 1 => by
    have h1 := le_alignUp t.align_pos x
    have h2 := le_offsetFrom fs (alignUp x t.align + t.size) k
    rw [offsetFrom]
    omega

theorem offsetFrom_add_size_le : ∀ {fs : List CType} {x j k : ℕ} (hjk : j < k)
    (hk : k ≤ fs.length), offsetFrom x fs j + (fs.get ⟨j, by omega⟩).size ≤ offsetFrom x fs k
  | [], _, _, _, hjk, hk => by
    rw [List.length_nil] at hk
    omega
  | t :: fs, x, 0, k + 1, _, _ => le_offsetFrom fs (alignUp x t.align + t.size) k
  | t :: fs, x, j + 1, k + 1, hjk, hk =>
    @offsetFrom_add_size_le fs _ _ _ (Nat.lt_of_succ_lt_succ hjk) (Nat.le_of_succ_le_succ hk)

/-- A field ends before the next one starts. -/
theorem offset_add_size_le (hjk : j < k) (hk : k ≤ fs.length) :
    offset fs j + (fs.get ⟨j, by omega⟩).size ≤ offset fs k :=
  offsetFrom_add_size_le hjk hk

/-- The fields lie inside the structure. -/
theorem offset_add_size_le_struct (hj : j < fs.length) :
    offset fs j + (fs.get ⟨j, hj⟩).size ≤ (struct fs).size :=
  Nat.le_trans (offset_add_size_le hj (Nat.le_refl _)) (le_alignUp (maxAlign_pos fs) _)

end CType
