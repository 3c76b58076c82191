import Mathlib.Data.Nat.Bitwise
import Mathlib.Data.Set.Card
import Mathlib.Data.Set.Pairwise.Basic
import Mathlib.Order.CompletePartialOrder
import Mathlib.Tactic.Ring

/-!
# Dyadic blocks and the buddy system

A block of order `o` and index `i` is the set of pages `[i · 2^o, (i + 1) · 2^o)`.
Two blocks are nested or disjoint (`pages_subset_of_mem`), and a block together
with its buddy, the block whose index differs in the last bit, is its parent.

A set of blocks is `Tidy` up to order `K` if its blocks are pairwise disjoint, of
order at most `K`, and no two of them below `K` are buddies. A tidy set is
determined by the pages it covers : its blocks are the maximal blocks of order
at most `K` inside them (`Tidy.mem_iff_maximal`).

`release` puts a block back, joining it with its buddy as long as that is there,
and `split` cuts a block down to its first part of a smaller order, which keeps a
set tidy (`tidy_split`). Both move exactly the pages of the block.
-/

/-- The block of the `2 ^ order` pages from `index * 2 ^ order` on. -/
@[ext] structure DyadicBlock where
  order : ℕ
  index : ℕ
  deriving DecidableEq

namespace DyadicBlock

/-- The pages of a block. -/
def pages (b : DyadicBlock) : Set ℕ := {x | x / 2 ^ b.order = b.index}

/-- The other half of the parent. -/
def buddy (b : DyadicBlock) : DyadicBlock := ⟨b.order, b.index ^^^ 1⟩

/-- The block twice as large. -/
def parent (b : DyadicBlock) : DyadicBlock := ⟨b.order + 1, b.index / 2⟩

/-- The first part of order `o` of a block. -/
def lowest (b : DyadicBlock) (o : ℕ) : DyadicBlock := ⟨o, b.index * 2 ^ (b.order - o)⟩

/-- The second of the two halves of order `o` of a block of order `o + 1`. -/
def upper (b : DyadicBlock) (o : ℕ) : DyadicBlock := ⟨o, 2 * b.index + 1⟩

variable {b c : DyadicBlock} {x y : ℕ}

theorem mem_pages : x ∈ b.pages ↔ x / 2 ^ b.order = b.index := Iff.rfl

theorem mem_pages_iff_le_lt :
    x ∈ b.pages ↔ b.index * 2 ^ b.order ≤ x ∧ x < (b.index + 1) * 2 ^ b.order := by
  rw [mem_pages, Nat.div_eq_iff (Nat.two_pow_pos b.order), add_mul, one_mul]
  have hp := Nat.two_pow_pos b.order
  omega

theorem first_mem_pages (b : DyadicBlock) : b.index * 2 ^ b.order ∈ b.pages :=
  Nat.mul_div_cancel _ (Nat.two_pow_pos _)

theorem eq_of_mem (h : b.order = c.order) (hb : x ∈ b.pages) (hc : x ∈ c.pages) : b = c := by
  obtain ⟨o, i⟩ := b
  obtain ⟨o', j⟩ := c
  obtain rfl : o = o' := h
  obtain rfl : i = j := hb.symm.trans hc
  rfl

/-- A block that shares a page with one of at least its order lies inside it. -/
theorem pages_subset_of_mem (ho : b.order ≤ c.order) (hb : x ∈ b.pages) (hc : x ∈ c.pages) :
    b.pages ⊆ c.pages := by
  intro y hy
  have hpow : 2 ^ c.order = 2 ^ b.order * 2 ^ (c.order - b.order) := by
    rw [← pow_add, Nat.add_sub_cancel' ho]
  rw [mem_pages, hpow, ← Nat.div_div_eq_div_mul] at hc ⊢
  rw [mem_pages] at hb hy
  rw [hy, ← hb, hc]

theorem order_le_of_pages_subset (h : b.pages ⊆ c.pages) : b.order ≤ c.order := by
  by_contra hlt
  have hpow : 2 ^ b.order = 2 ^ c.order * 2 ^ (b.order - c.order) := by
    rw [← pow_add, Nat.add_sub_cancel' (by omega)]
  have h2 : 2 ^ c.order * 2 ≤ 2 ^ b.order := by
    rw [hpow]
    exact Nat.mul_le_mul_left _ (Nat.le_self_pow (by omega) 2)
  have hlast : b.index * 2 ^ b.order + 2 ^ c.order ∈ b.pages := by
    rw [mem_pages_iff_le_lt, add_mul, one_mul]
    have := Nat.two_pow_pos c.order
    omega
  have h0 := h (first_mem_pages b)
  have h1 := h hlast
  rw [mem_pages] at h0 h1
  rw [Nat.add_div_right _ (Nat.two_pow_pos _), h0] at h1
  omega

/-! ## Buddies and parents -/

@[simp] theorem buddy_order (b : DyadicBlock) : b.buddy.order = b.order := rfl

@[simp] theorem parent_order (b : DyadicBlock) : b.parent.order = b.order + 1 := rfl

theorem xor_one_div_two (i : ℕ) : (i ^^^ 1) / 2 = i / 2 := by
  rw [Nat.xor_div_two]
  simp

theorem xor_one_ne (i : ℕ) : i ^^^ 1 ≠ i := fun h => by
  have := Nat.xor_mod_two_eq (m := i) (n := 1)
  omega

theorem eq_or_eq_xor_one {i j : ℕ} (h : i / 2 = j / 2) : i = j ∨ i = j ^^^ 1 := by
  have h1 := xor_one_div_two j
  have h2 := Nat.xor_mod_two_eq (m := j) (n := 1)
  omega

theorem buddy_ne (b : DyadicBlock) : b.buddy ≠ b := fun h =>
  xor_one_ne b.index (congrArg index h)

@[simp] theorem buddy_buddy (b : DyadicBlock) : b.buddy.buddy = b := by
  ext <;> simp [buddy]

theorem mem_parent_pages : x ∈ b.parent.pages ↔ x / 2 ^ b.order / 2 = b.index / 2 := by
  rw [mem_pages, parent, pow_succ, Nat.div_div_eq_div_mul]

theorem pages_parent (b : DyadicBlock) : b.parent.pages = b.pages ∪ b.buddy.pages := by
  ext x
  rw [mem_parent_pages, Set.mem_union, mem_pages, mem_pages]
  constructor
  · exact eq_or_eq_xor_one
  · rintro (h | h)
    · rw [h]
    · rw [show x / 2 ^ b.order = b.index ^^^ 1 from h]
      exact xor_one_div_two _

theorem pages_subset_parent (b : DyadicBlock) : b.pages ⊆ b.parent.pages := by
  rw [pages_parent]
  exact Set.subset_union_left

theorem disjoint_pages_of_ne (ho : b.order = c.order) (h : b ≠ c) : Disjoint b.pages c.pages :=
  Set.disjoint_left.2 fun _ hb hc => h (eq_of_mem ho hb hc)

theorem disjoint_buddy (b : DyadicBlock) : Disjoint b.pages b.buddy.pages :=
  disjoint_pages_of_ne rfl b.buddy_ne.symm

/-! ## Tidy sets -/

/-- The pages of a set of blocks. -/
def cover (F : Set DyadicBlock) : Set ℕ := ⋃ b ∈ F, b.pages

theorem mem_cover {F : Set DyadicBlock} : x ∈ cover F ↔ ∃ b ∈ F, x ∈ b.pages := by
  simp [cover]

theorem cover_insert (F : Set DyadicBlock) (b : DyadicBlock) :
    cover (insert b F) = b.pages ∪ cover F := Set.biUnion_insert _ _ _

theorem pages_subset_cover {F : Set DyadicBlock} (hb : b ∈ F) : b.pages ⊆ cover F :=
  Set.subset_biUnion_of_mem (u := pages) hb

/-- Disjoint blocks of order at most `K`, with no two buddies below `K`. -/
structure Tidy (K : ℕ) (F : Set DyadicBlock) : Prop where
  order_le : ∀ b ∈ F, b.order ≤ K
  separated : F.PairwiseDisjoint pages
  merged : ∀ b ∈ F, b.order < K → b.buddy ∉ F

/-- A block of order at most `K` inside `U` that no larger one inside `U` contains. -/
def Maximal (K : ℕ) (U : Set ℕ) (b : DyadicBlock) : Prop :=
  b.order ≤ K ∧ b.pages ⊆ U ∧ (b.order < K → ¬b.parent.pages ⊆ U)

variable {K : ℕ} {F G : Set DyadicBlock}

theorem tidy_empty (K : ℕ) : Tidy K ∅ :=
  ⟨by simp, Set.pairwiseDisjoint_empty, by simp⟩

theorem Tidy.eq_of_mem (hF : Tidy K F) (hb : b ∈ F) (hc : c ∈ F) (hxb : x ∈ b.pages)
    (hxc : x ∈ c.pages) : b = c :=
  hF.separated.elim_set hb hc x hxb hxc

/-- Every block inside the pages of a tidy set lies in one of its blocks. -/
theorem Tidy.exists_superset (hF : Tidy K F) : ∀ (o i : ℕ), o ≤ K →
    pages ⟨o, i⟩ ⊆ cover F → ∃ f ∈ F, pages ⟨o, i⟩ ⊆ f.pages
  | 0, i, _, h => by
    obtain ⟨f, hf, hx⟩ := mem_cover.1 (h (first_mem_pages ⟨0, i⟩))
    exact ⟨f, hf, pages_subset_of_mem (Nat.zero_le _) (first_mem_pages ⟨0, i⟩) hx⟩
  | o + 1, i, ho, h => by
    -- Both halves lie in blocks of `F`; if neither block is larger, they are buddies in `F`.
    have hpar : parent ⟨o, 2 * i⟩ = ⟨o + 1, i⟩ := by simp [parent]
    have hsub := pages_parent ⟨o, 2 * i⟩
    rw [hpar] at hsub
    rw [hsub] at h ⊢
    obtain ⟨f, hf, hfs⟩ := hF.exists_superset o (2 * i) (by omega)
      (Set.subset_union_left.trans h)
    obtain ⟨g, hg, hgs⟩ := hF.exists_superset o (2 * i ^^^ 1) (by omega)
      (Set.subset_union_right.trans h)
    have hmem : ∀ {e : DyadicBlock} {j : ℕ}, pages ⟨o, j⟩ ⊆ e.pages → o < e.order →
        pages ⟨o, j⟩ ⊆ pages ⟨o + 1, i⟩ → pages ⟨o + 1, i⟩ ⊆ e.pages := fun hs hlt hp =>
      pages_subset_of_mem (Nat.succ_le_of_lt hlt) (hp (first_mem_pages _)) (hs (first_mem_pages _))
    rcases Nat.lt_or_ge o f.order with hlt | hle
    · refine ⟨f, hf, hsub ▸ hmem hfs hlt ?_⟩
      rw [hsub]
      exact Set.subset_union_left
    rcases Nat.lt_or_ge o g.order with hlt | hle'
    · refine ⟨g, hg, hsub ▸ hmem hgs hlt ?_⟩
      rw [hsub]
      exact Set.subset_union_right
    have hfo : f.order = o := Nat.le_antisymm hle (order_le_of_pages_subset hfs)
    have hgo : g.order = o := Nat.le_antisymm hle' (order_le_of_pages_subset hgs)
    have hfe : f = ⟨o, 2 * i⟩ :=
      DyadicBlock.eq_of_mem hfo (hfs (first_mem_pages _)) (first_mem_pages _)
    have hge : g = buddy ⟨o, 2 * i⟩ :=
      DyadicBlock.eq_of_mem hgo (hgs (first_mem_pages _)) (first_mem_pages _)
    exact absurd (hge ▸ hg) (hF.merged ⟨o, 2 * i⟩ (hfe ▸ hf) ho)

/-- The blocks of a tidy set are the maximal blocks of the pages it covers. -/
theorem Tidy.mem_iff_maximal (hF : Tidy K F) : b ∈ F ↔ Maximal K (cover F) b := by
  constructor
  · intro hb
    refine ⟨hF.order_le b hb, pages_subset_cover hb, fun hlt hp => ?_⟩
    obtain ⟨f, hf, hs⟩ := hF.exists_superset (b.order + 1) (b.index / 2) hlt hp
    have hbf : b = f := hF.eq_of_mem hb hf (first_mem_pages b)
      (hs (pages_subset_parent b (first_mem_pages b)))
    have := order_le_of_pages_subset hs
    rw [hbf] at this
    exact absurd this (by simp)
  · rintro ⟨ho, hs, hmax⟩
    obtain ⟨f, hf, hbf⟩ := hF.exists_superset b.order b.index ho hs
    have hle := order_le_of_pages_subset hbf
    rcases Nat.eq_or_lt_of_le hle with he | hlt
    · have hbf' : b = f := DyadicBlock.eq_of_mem he (first_mem_pages b) (hbf (first_mem_pages b))
      rwa [hbf']
    · have hp : b.parent.pages ⊆ f.pages := pages_subset_of_mem hlt
        (pages_subset_parent b (first_mem_pages b)) (hbf (first_mem_pages b))
      exact absurd (hp.trans (pages_subset_cover hf))
        (hmax (lt_of_lt_of_le hlt (hF.order_le f hf)))

theorem Tidy.subset (hG : Tidy K G) (h : F ⊆ G) : Tidy K F :=
  ⟨fun b hb => hG.order_le b (h hb), hG.separated.subset h,
    fun b hb hlt hbb => hG.merged b (h hb) hlt (h hbb)⟩

theorem Tidy.disjoint_cover_diff (hF : Tidy K F) (hb : b ∈ F) :
    Disjoint b.pages (cover (F \ {b})) := by
  refine Set.disjoint_left.2 fun x hx hx' => ?_
  obtain ⟨c, ⟨hc, hne⟩, hxc⟩ := mem_cover.1 hx'
  exact hne (hF.eq_of_mem hc hb hxc hx)

theorem cover_diff_union (hb : b ∈ F) : cover (F \ {b}) ∪ b.pages = cover F := by
  rw [Set.union_comm, ← cover_insert, Set.insert_sdiff_singleton, Set.insert_eq_of_mem hb]

/-- A block joins a tidy set if its pages are new and its buddy is not there. -/
theorem tidy_insert (hF : Tidy K F) (ho : b.order ≤ K) (hd : Disjoint b.pages (cover F))
    (hb : b.order < K → b.buddy ∉ F) : Tidy K (insert b F) := by
  refine ⟨?_, ?_, ?_⟩
  · rintro c (rfl | hc)
    · exact ho
    · exact hF.order_le c hc
  · refine hF.separated.insert fun c hc _ => hd.mono_right (pages_subset_cover hc)
  · rintro c (rfl | hc) hlt (h | h)
    · exact c.buddy_ne h
    · exact hb hlt h
    · have he : c = b.buddy := by rw [← h, buddy_buddy]
      rw [he] at hc hlt
      exact hb hlt hc
    · exact hF.merged c hc hlt h

/-! ## Releasing a block -/

open Classical in
/-- Put `b` back with at most `n` joins. -/
noncomputable def release : ℕ → Set DyadicBlock → DyadicBlock → Set DyadicBlock
  | 0, F, b => insert b F
  | n + 1, F, b => if b.buddy ∈ F then release n (F \ {b.buddy}) b.parent else insert b F

theorem Tidy.disjoint_parent (hF : Tidy K F) (hd : Disjoint b.pages (cover F))
    (hb : b.buddy ∈ F) : Disjoint b.parent.pages (cover (F \ {b.buddy})) := by
  rw [pages_parent, Set.disjoint_union_left]
  refine ⟨hd.mono_right ?_, hF.disjoint_cover_diff hb⟩
  exact Set.biUnion_subset_biUnion_left Set.sdiff_subset

/-- Releasing a block adds its pages. -/
theorem cover_release (n : ℕ) (F : Set DyadicBlock) (b : DyadicBlock) :
    cover (release n F b) = cover F ∪ b.pages := by
  induction n generalizing F b with
  | zero => rw [release, cover_insert, Set.union_comm]
  | succ n ih =>
    rw [release]
    split_ifs with hb
    · rw [ih, pages_parent, Set.union_comm b.pages, ← Set.union_assoc, cover_diff_union hb]
    · rw [cover_insert, Set.union_comm]

/-! ## Splitting a block -/

/-- Keep the upper halves of the block `b` of order `o + n`, down to order `o`. -/
def split (o : ℕ) : ℕ → Set DyadicBlock → DyadicBlock → Set DyadicBlock
  | 0, F, _ => F
  | n + 1, F, b => split o n (insert (b.upper (o + n)) F) (b.lowest (o + n))

theorem lowest_self (b : DyadicBlock) : b.lowest b.order = b := by
  simp [lowest]

theorem lowest_lowest {n o : ℕ} (hn : b.order = o + n + 1) :
    (b.lowest (o + n)).lowest o = b.lowest o := by
  simp only [lowest, hn, mk.injEq, true_and]
  rw [mul_assoc, ← pow_add]
  congr 2
  omega

/-- The halves of a block are buddies. -/
theorem upper_buddy {o : ℕ} (ho : b.order = o + 1) : (b.upper o).buddy = b.lowest o := by
  have h1 := Nat.xor_mod_two_eq (m := 2 * b.index + 1) (n := 1)
  have h2 := xor_one_div_two (2 * b.index + 1)
  ext
  · rfl
  · simp only [buddy, upper, lowest, ho, Nat.add_sub_cancel_left, pow_one]
    omega

theorem upper_parent {o : ℕ} (ho : b.order = o + 1) : (b.upper o).parent = b := by
  ext
  · exact ho.symm
  · simp only [parent, upper]
    omega

/-- A block is its two halves. -/
theorem pages_halves {o : ℕ} (ho : b.order = o + 1) :
    b.pages = (b.upper o).pages ∪ (b.lowest o).pages := by
  rw [← upper_buddy ho, ← pages_parent, upper_parent ho]

theorem pages_lowest_subset {o : ℕ} (ho : o ≤ b.order) : (b.lowest o).pages ⊆ b.pages := by
  refine pages_subset_of_mem ho (first_mem_pages _) ?_
  have h : (b.lowest o).index * 2 ^ (b.lowest o).order = b.index * 2 ^ b.order := by
    simp only [lowest]
    rw [mul_assoc, ← pow_add, Nat.sub_add_cancel ho]
  rw [h]
  exact first_mem_pages b

/-- Splitting a block takes all its pages but those of its first part. -/
theorem cover_split {o n : ℕ} (hn : b.order = o + n) :
    cover (split o n F b) ∪ (b.lowest o).pages = cover F ∪ b.pages := by
  induction n generalizing F b with
  | zero =>
    obtain rfl : b.order = o := hn
    rw [split, lowest_self]
  | succ n ih =>
    have hn' : b.order = o + n + 1 := hn
    rw [split, ← lowest_lowest hn', ih rfl, cover_insert, pages_halves hn',
      Set.union_comm (upper _ _).pages, Set.union_assoc]

/-- Splitting keeps a set tidy if it has no block of the orders split off, and the
first part stays outside. -/
theorem tidy_split {o n : ℕ} (hF : Tidy K F) (hn : b.order = o + n) (hK : b.order ≤ K)
    (hd : Disjoint b.pages (cover F)) (ho : ∀ c ∈ F, o ≤ c.order → b.order ≤ c.order) :
    Tidy K (split o n F b) ∧ Disjoint (b.lowest o).pages (cover (split o n F b)) := by
  induction n generalizing F b with
  | zero =>
    refine ⟨hF, ?_⟩
    obtain rfl : b.order = o := hn
    rwa [lowest_self]
  | succ n ih =>
    have hn' : b.order = o + n + 1 := hn
    have hsub := pages_halves hn'
    have hlow : b.lowest (o + n) ∉ F := fun h => by
      have := ho _ h (Nat.le_add_right o n)
      simp only [lowest] at this
      omega
    have hup : Disjoint (b.upper (o + n)).pages (cover F) :=
      hd.mono_left (hsub ▸ Set.subset_union_left)
    have hins : Tidy K (insert (b.upper (o + n)) F) :=
      tidy_insert hF (by simp only [upper]; omega) hup fun _ => by rwa [upper_buddy hn']
    have hdis : Disjoint (b.lowest (o + n)).pages (cover (insert (b.upper (o + n)) F)) := by
      rw [cover_insert, Set.disjoint_union_right, ← upper_buddy hn']
      refine ⟨(disjoint_buddy _).symm, hd.mono_left ?_⟩
      rw [upper_buddy hn', hsub]
      exact Set.subset_union_right
    have := ih hins rfl (show o + n ≤ K by omega) hdis fun c hc hoc => by
      rcases hc with rfl | hc
      · exact le_refl _
      · have := ho c hc hoc
        simp only [lowest]
        omega
    rwa [lowest_lowest hn'] at this

end DyadicBlock
