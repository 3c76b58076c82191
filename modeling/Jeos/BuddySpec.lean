import Mathlib.Data.Nat.Log
import Jeos.BuddyLists

/-!
# What `kfree`, `kalloc` and `freerange` do

Each function is described on the set of free blocks. `kfree` releases its block
(`kfree_spec`), `kalloc` splits the first block that is large enough or fails
when there is none (`kalloc_spec`), and `freerange` releases the blocks it cuts a
range into, which are exactly the whole pages of the range (`freerange_spec`).
The three write only to pages that are free, or that they free or allocate.

The two merge loops of the source are one here, and `insertBlock_spec` is its
description by `DyadicBlock.release`.
-/

namespace Jeos

open ByteMemory DyadicBlock

variable {h h' : Heap} {L : ℕ → List U64} {o n : ℕ} {a v : U64} {npages : U64}

/-! ## `order_for` -/

theorem orderForLoop_eq {n size : U64} {fuel : ℕ} (hn : n.toNat ≤ 2 ^ 63) :
    ∀ {o : ℕ}, o ≤ Nat.clog 2 n.toNat → size.toNat = 2 ^ o → Nat.clog 2 n.toNat - o < fuel →
      orderForLoop n fuel size o = some (Nat.clog 2 n.toNat) := by
  have hc : Nat.clog 2 n.toNat ≤ 63 := (Nat.clog_le_iff_le_pow (by norm_num)).2 hn
  induction fuel generalizing size with
  | zero => omega
  | succ fuel ih =>
    intro o ho hs hf
    have hiff := Nat.clog_le_iff_le_pow (b := 2) (x := n.toNat) (y := o) (by norm_num)
    rw [orderForLoop]
    by_cases hlt : size < n
    · have hlt' : size.toNat < n.toNat := hlt
      have hs' : (size <<< 1).toNat = 2 ^ (o + 1) := by
        have : 2 ^ (o + 1) ≤ 2 ^ 63 := Nat.pow_le_pow_right (by norm_num) (by omega)
        rw [BitVec.toNat_shiftLeft, Nat.shiftLeft_eq, hs, ← pow_succ, Nat.mod_eq_of_lt (by omega)]
      rw [if_pos hlt, ih (by omega) hs' (by omega)]
    · have hge : n.toNat ≤ 2 ^ o := hs ▸ Nat.le_of_not_lt hlt
      rw [if_neg hlt, Nat.le_antisymm ho (hiff.2 hge)]

/-- `order_for` is the upper logarithm, up to the sizes for which it returns. -/
theorem orderFor_eq {n : U64} (hn : n.toNat ≤ 2 ^ 63) :
    orderFor n = some (Nat.clog 2 n.toNat) := by
  have hc : Nat.clog 2 n.toNat ≤ 63 := (Nat.clog_le_iff_le_pow (by norm_num)).2 hn
  exact orderForLoop_eq hn (Nat.zero_le _) rfl (by omega)

theorem orderForLoop_eq_none {n : U64} (hn : 2 ^ 63 < n.toNat) :
    ∀ (fuel : ℕ) {size : U64} {o : ℕ}, size.toNat = 2 ^ o ∧ o ≤ 63 ∨ size.toNat = 0 →
      orderForLoop n fuel size o = none
  | 0, _, _, _ => rfl
  | fuel + 1, size, o, h => by
    have hlt : size < n := by
      refine BitVec.lt_def.2 ?_
      rcases h with ⟨h, ho⟩ | h
      · have : 2 ^ o ≤ 2 ^ 63 := Nat.pow_le_pow_right (by norm_num) ho
        omega
      · omega
    rw [orderForLoop, if_pos hlt]
    refine orderForLoop_eq_none hn fuel ?_
    rw [BitVec.toNat_shiftLeft, Nat.shiftLeft_eq]
    rcases h with ⟨h, ho⟩ | h
    · rcases Nat.eq_or_lt_of_le ho with rfl | ho
      · exact Or.inr (by rw [h]; norm_num)
      · have : 2 ^ (o + 1) ≤ 2 ^ 63 := Nat.pow_le_pow_right (by norm_num) ho
        exact Or.inl ⟨by rw [h, ← pow_succ, Nat.mod_eq_of_lt (by omega)], ho⟩
    · exact Or.inr (by rw [h, Nat.zero_mul, Nat.zero_mod])

/-- Beyond these sizes `order_for` does not return. -/
theorem orderFor_eq_none {n : U64} (hn : 2 ^ 63 < n.toNat) : orderFor n = none :=
  orderForLoop_eq_none hn 65 (Or.inl ⟨rfl, by norm_num⟩)

theorem le_of_orderFor {n : U64} {o : ℕ} (h : orderFor n = some o) : n.toNat ≤ 2 ^ o := by
  rcases Nat.lt_or_ge (2 ^ 63) n.toNat with hn | hn
  · rw [orderFor_eq_none hn] at h
    exact absurd h (by simp)
  · rw [orderFor_eq hn, Option.some.injEq] at h
    exact (Nat.clog_le_iff_le_pow (by norm_num)).1 h.le

/-! ## Merging -/

theorem coalesce_spec : ∀ {n o : ℕ} {h : Heap} {L : ℕ → List U64} {a : U64},
    FreeLists h L → o + n = 11 → OrderAligned o a → a ≠ 0 →
    Disjoint (blockAt o a).pages (cover (blocks L)) →
    ∃ h' L' a' o', coalesce n h a o = some (h', a', o') ∧ FreeLists h' L' ∧ o' ≤ 11 ∧
      OrderAligned o' a' ∧ a' ≠ 0 ∧ Disjoint (blockAt o' a').pages (cover (blocks L')) ∧
      (o' < 11 → (blockAt o' a').buddy ∉ blocks L') ∧
      insert (blockAt o' a') (blocks L') = release n (blocks L) (blockAt o a) ∧
      h.AgreeOutside (cover (blocks L)) h'
  | 0, o, h, L, a, hL, hn, ha, h0, hd =>
    ⟨h, L, a, o, rfl, hL, by omega, ha, h0, hd, fun hlt => by omega, rfl, .refl _ _⟩
  | n + 1, o, h, L, a, hL, hn, ha, h0, hd => by
    have ho : o ≤ 11 := by omega
    obtain ⟨hba, hbe⟩ := blockAt_buddyAddr ho ha
    obtain ⟨hma, hme⟩ := blockAt_mergeAddr ho ha
    set b := a ^^^ (pageSize <<< o) with hb
    by_cases hmem : b ∈ L o
    · have hbL : (blockAt o a).buddy ∈ blocks L := hbe ▸ blockAt_mem_blocks ho hmem
      obtain ⟨h₁, hr, hL₁, hag⟩ := buddyRemove_of_mem hL ho hmem
      have hbl := blocks_update_erase hL ho hmem
      rw [hbe] at hbl
      have hm0 : mergeAddr a b ≠ 0 := by
        unfold mergeAddr
        split_ifs
        · exact hL.ne_zero ho hmem
        · exact h0
      have hd' : Disjoint (blockAt (o + 1) (mergeAddr a b)).pages
          (cover (blocks (Function.update L o ((L o).erase b)))) := by
        rw [hme, hbl]
        exact hL.tidy.disjoint_parent hd hbL
      obtain ⟨h', L', a', o', hc, hL', ho', ha', h0', hdis, hbud, hrel, hag'⟩ :=
        coalesce_spec (n := n) hL₁ (by omega) hma hm0 hd'
      refine ⟨h', L', a', o', ?_, hL', ho', ha', h0', hdis, hbud, ?_, ?_⟩
      · rw [coalesce, ← hb, hr]
        exact hc
      · rw [hrel, hme, hbl, release, if_pos hbL]
      · refine hag.trans (hag'.mono ?_)
        rw [hbl]
        exact Set.biUnion_subset_biUnion_left Set.sdiff_subset
    · have hbL : (blockAt o a).buddy ∉ blocks L := fun hin =>
        hmem (hL.mem_of_blockAt_mem hba (hbe ▸ hin))
      refine ⟨h, L, a, o, ?_, hL, ho, ha, h0, hd, fun _ => hbL, ?_, .refl _ _⟩
      · rw [coalesce, ← hb, buddyRemove_of_not_mem hL ho hmem]
      · rw [release, if_neg hbL]

/-- Merging a block and putting it on its list releases it. -/
theorem insertBlock_spec (hL : FreeLists h L) (ho : o ≤ 11) (ha : OrderAligned o a) (h0 : a ≠ 0)
    (hd : Disjoint (blockAt o a).pages (cover (blocks L))) :
    ∃ h' L', insertBlock h a o = some h' ∧ FreeLists h' L' ∧
      blocks L' = release (11 - o) (blocks L) (blockAt o a) ∧
      h.AgreeOutside (cover (blocks L) ∪ (blockAt o a).pages) h' := by
  obtain ⟨h₁, L₁, a₁, o₁, hc, hL₁, ho₁, ha₁, h0₁, hd₁, hb₁, hrel, hag⟩ :=
    coalesce_spec hL (show o + (11 - o) = 11 by omega) ha h0 hd
  obtain ⟨hL', hag'⟩ := hL₁.push ho₁ ha₁ h0₁ hd₁ hb₁
  refine ⟨_, _, ?_, hL', ?_, ?_⟩
  · rw [insertBlock, show maxOrder - 1 - o = 11 - o from rfl, hc]
    rfl
  · rw [blocks_update_cons ho₁, hrel]
  · refine (hag.mono Set.subset_union_left).trans (hag'.mono ?_)
    rw [← cover_release (11 - o), ← hrel, cover_insert]
    exact Set.subset_union_left

/-! ## `kfree` -/

/-- A byte loop inside a block that is not free leaves the free lists. -/
theorem FreeLists.fill (hL : FreeLists h L) (ho : o ≤ 11) (ha : OrderAligned o a) {k : ℕ}
    (hk : k ≤ 4096 * 2 ^ o) (c : U8) (hd : Disjoint (blockAt o a).pages (cover (blocks L))) :
    FreeLists { h with mem := fill h.mem a c k } L ∧
      h.AgreeOutside (blockAt o a).pages { h with mem := ByteMemory.fill h.mem a c k } := by
  have hm : ∀ x, pageOf x ∉ (blockAt o a).pages → ByteMemory.fill h.mem a c k x = h.mem x :=
    fun x hx => fill_of_not_within fun hw => hx (pageOf_mem_of_within ho ha hk hw)
  exact ⟨hL.congr rfl fun x hx => hm x fun hb => Set.disjoint_left.1 hd hb hx, rfl, hm⟩

/-- The number of bytes of a block as `kfree` computes it. -/
theorem blockBytes_toNat (ho : o ≤ 11) : ((1 : U64) <<< o * pageSize).toNat = 4096 * 2 ^ o := by
  have h : 2 ^ o ≤ 2 ^ 11 := Nat.pow_le_pow_right (by norm_num) ho
  have h1 : ((1 : U64) <<< o).toNat = 2 ^ o := by
    rw [BitVec.toNat_shiftLeft, Nat.shiftLeft_eq, show (1 : U64).toNat = 1 from rfl, one_mul,
      Nat.mod_eq_of_lt (by omega)]
  rw [BitVec.toNat_mul, h1, pageSize_toNat, Nat.mul_comm, Nat.mod_eq_of_lt (by omega)]

/-- `kfree` of an allocated block of `npages` pages releases it. -/
theorem kfree_spec (hL : FreeLists h L) (hn : npages ≠ 0) (ho : orderFor npages = some o)
    (ho' : o ≤ 11) (hv : OrderAligned o v) (h0 : v ≠ 0)
    (hd : Disjoint (blockAt o v).pages (cover (blocks L))) :
    ∃ h' L', kfree h v npages = some h' ∧ FreeLists h' L' ∧
      blocks L' = release (11 - o) (blocks L) (blockAt o v) ∧
      h.AgreeOutside (cover (blocks L) ∪ (blockAt o v).pages) h' := by
  have hmod : v % pageSize = 0 := BitVec.eq_of_toNat_eq (by
    rw [BitVec.toNat_umod, pageSize_toNat]
    exact Nat.mod_eq_zero_of_dvd hv.pageAligned)
  obtain ⟨hL₁, hag⟩ := hL.fill ho' hv (blockBytes_toNat ho').le 1 hd
  obtain ⟨h', L', hi, hL', hb, hag'⟩ := insertBlock_spec hL₁ ho' hv h0 hd
  refine ⟨h', L', ?_, hL', hb, (hag.mono Set.subset_union_right).trans hag'⟩
  rw [kfree, if_neg (not_or.2 ⟨not_not.2 hmod, hn⟩), ho, Option.bind_some,
    if_neg (show ¬o ≥ maxOrder by unfold maxOrder; omega)]
  exact hi

/-! ## `kalloc` -/

theorem findOrder_spec (h : Heap) : ∀ (n k : ℕ), k + n = 12 →
    k ≤ findOrder h n k ∧ findOrder h n k ≤ 12 ∧
      (∀ j, k ≤ j → j < findOrder h n k → h.freeLists j = 0) ∧
      (findOrder h n k < 12 → h.freeLists (findOrder h n k) ≠ 0)
  | 0, k, hk => by
    simp only [findOrder]
    exact ⟨le_refl _, by omega, fun j hj hlt => by omega, fun hlt => by omega⟩
  | n + 1, k, hk => by
    rw [findOrder]
    split_ifs with h0
    · obtain ⟨h1, h2, h3, h4⟩ := findOrder_spec h n (k + 1) (by omega)
      refine ⟨by omega, h2, fun j hj hlt => ?_, h4⟩
      rcases Nat.eq_or_lt_of_le hj with rfl | hj
      · exact h0
      · exact h3 j hj hlt
    · exact ⟨le_refl _, by omega, fun j hj hlt => by omega, fun _ => h0⟩

/-- The address of the upper half of a block of order `o + 1`. -/
theorem blockAt_upperAddr (ho : o + 1 ≤ 11) (ha : OrderAligned (o + 1) a) :
    OrderAligned o (a + (pageSize <<< o)) ∧
      blockAt o (a + (pageSize <<< o)) = (blockAt (o + 1) a).upper o ∧
      a + (pageSize <<< o) ≠ 0 := by
  have hle := ha.add_le ho
  have hpos : 0 < 4096 * 2 ^ o := by positivity
  have hdouble : 4096 * 2 ^ (o + 1) = 2 * (4096 * 2 ^ o) := by rw [pow_succ]; ring
  have ht : (a + (pageSize <<< o)).toNat = a.toNat + 4096 * 2 ^ o := by
    rw [BitVec.toNat_add, pageSize_shiftLeft_toNat (by omega), Nat.mod_eq_of_lt (by omega)]
  have ht' : (a + (pageSize <<< o)).toNat =
      (2 * (blockAt (o + 1) a).index + 1) * (4096 * 2 ^ o) := by
    rw [ht, ha.toNat_eq, hdouble, add_mul, one_mul]
    ring
  obtain ⟨h1, h2⟩ := orderAligned_of_toNat ht'
  refine ⟨h1, h2, fun h0 => ?_⟩
  rw [h0] at ht
  have : (0 : U64).toNat = 0 := rfl
  omega

/-- The first part of a block has the block's address. -/
theorem blockAt_lowest (ho : o ≤ n) (ha : OrderAligned n a) :
    OrderAligned o a ∧ blockAt o a = (blockAt n a).lowest o := by
  refine orderAligned_of_toNat ?_
  have hpow : 2 ^ n = 2 ^ (n - o) * 2 ^ o := by rw [← pow_add, Nat.sub_add_cancel ho]
  rw [ha.toNat_eq, blockAt_order, hpow]
  ring

theorem splitDown_spec : ∀ {n o : ℕ} {h : Heap} {L : ℕ → List U64},
    FreeLists h L → o + n ≤ 11 → OrderAligned (o + n) a →
    Disjoint (blockAt (o + n) a).pages (cover (blocks L)) →
    (∀ c ∈ blocks L, o ≤ c.order → o + n ≤ c.order) →
    ∃ L', FreeLists (splitDown a o n h) L' ∧
      blocks L' = split o n (blocks L) (blockAt (o + n) a) ∧
      h.AgreeOutside (blockAt (o + n) a).pages (splitDown a o n h)
  | 0, o, h, L, hL, _, _, _, _ => ⟨L, hL, rfl, .refl _ _⟩
  | n + 1, o, h, L, hL, ho, ha, hd, hlow => by
    obtain ⟨hua, hue, hu0⟩ := blockAt_upperAddr (show o + n + 1 ≤ 11 by omega) ha
    obtain ⟨hla, hle⟩ := blockAt_lowest (Nat.le_succ (o + n)) ha
    have hhalf := pages_halves (b := blockAt (o + (n + 1)) a) (o := o + n) rfl
    have hsubu : (blockAt (o + n) (a + (pageSize <<< (o + n)))).pages ⊆
        (blockAt (o + (n + 1)) a).pages := by
      rw [hhalf, hue]
      exact Set.subset_union_left
    have hsubl : (blockAt (o + n) a).pages ⊆ (blockAt (o + (n + 1)) a).pages := by
      rw [hhalf, hle]
      exact Set.subset_union_right
    have hlb : (blockAt (o + n) a) ∉ blocks L := fun hin => by
      have := hlow _ hin (Nat.le_add_right o n)
      simp only [blockAt_order] at this
      omega
    have hbud : (blockAt (o + n) (a + (pageSize <<< (o + n)))).buddy = blockAt (o + n) a := by
      rw [hue, upper_buddy rfl, hle]
    obtain ⟨hL₁, hag⟩ := hL.push (show o + n ≤ 11 by omega) hua hu0 (hd.mono_left hsubu)
      fun _ => by rwa [hbud]
    have hbl := blocks_update_cons (L := L) (a := a + (pageSize <<< (o + n)))
      (show o + n ≤ 11 by omega)
    have hd₁ : Disjoint (blockAt (o + n) a).pages (cover (blocks (Function.update L (o + n)
        ((a + (pageSize <<< (o + n))) :: L (o + n))))) := by
      rw [hbl, cover_insert, Set.disjoint_union_right, ← hbud]
      refine ⟨(disjoint_buddy _).symm, hd.mono_left ?_⟩
      rwa [hbud]
    obtain ⟨L', hL', hb', hag'⟩ := splitDown_spec hL₁ (by omega) hla hd₁ fun c hc hoc => by
      rw [hbl] at hc
      rcases hc with rfl | hc
      · exact le_refl _
      · exact (Nat.le_succ _).trans (hlow c hc hoc)
    refine ⟨L', hL', ?_, (hag.mono hsubu).trans (hag'.mono hsubl)⟩
    rw [hb', hbl, hue, hle]
    rfl

/-- A list whose head is null is empty. -/
theorem FreeLists.eq_nil_iff (hL : FreeLists h L) (ho : o ≤ 11) :
    h.freeLists o = 0 ↔ L o = [] :=
  (hL.chain o ho).load_eq_null_iff

/-- `kalloc` either finds every list from the requested order on empty and fails, or
returns a block of that order which was free and no longer is. -/
theorem kalloc_spec (hL : FreeLists h L) (hn : npages ≠ 0) (ho : orderFor npages = some o)
    (ho' : o ≤ 11) :
    (kalloc h npages = some (h, 0) ∧ ∀ j, o ≤ j → j ≤ 11 → L j = []) ∨
    ∃ h' L' a, kalloc h npages = some (h', a) ∧ a ≠ 0 ∧ OrderAligned o a ∧ FreeLists h' L' ∧
      Disjoint (blockAt o a).pages (cover (blocks L')) ∧
      cover (blocks L') ∪ (blockAt o a).pages = cover (blocks L) ∧
      h.AgreeOutside (cover (blocks L)) h' := by
  obtain ⟨hk1, hk2, hk3, hk4⟩ := findOrder_spec h (12 - o) o (by omega)
  have hunf : kalloc h npages = some (
      if findOrder h (12 - o) o = 12 then (h, 0)
      else
        let block := h.freeLists (findOrder h (12 - o) o)
        let h₁ := splitDown block o (findOrder h (12 - o) o - o)
          (runList.pop h (.head (findOrder h (12 - o) o)) block)
        ({ h₁ with mem := ByteMemory.fill h₁.mem block 5 (npages * pageSize).toNat }, block)) := by
    rw [kalloc, if_neg hn, ho, Option.map_some,
      if_neg (show ¬o ≥ maxOrder by unfold maxOrder; omega)]
    rfl
  set k := findOrder h (12 - o) o with hk
  rcases Nat.eq_or_lt_of_le hk2 with h12 | hlt
  · refine Or.inl ⟨by rw [hunf, if_pos h12], fun j hj hj' => ?_⟩
    exact (hL.eq_nil_iff hj').1 (hk3 j hj (by omega))
  · obtain ⟨m, hm⟩ : ∃ m, k = o + m := ⟨k - o, by omega⟩
    have hk11 : k ≤ 11 := by omega
    obtain ⟨a, l, hl⟩ := List.exists_cons_of_ne_nil
      (fun e => hk4 hlt ((hL.eq_nil_iff hk11).2 e))
    have hhead : h.freeLists k = a := by
      have := hL.chain k hk11
      rw [hl] at this
      exact this.1
    have hak : a ∈ L k := by simp [hl]
    have hal := hL.aligned k hk11 a hak
    obtain ⟨hL₁, hb₁, hag₁⟩ := hL.pop hk11 hl
    have hin := blockAt_mem_blocks hk11 hak
    have hd₁ : Disjoint (blockAt k a).pages (cover (blocks (Function.update L k l))) := by
      rw [hb₁]
      exact hL.tidy.disjoint_cover_diff hin
    have hlow : ∀ c ∈ blocks (Function.update L k l), o ≤ c.order → k ≤ c.order := by
      intro c hc hoc
      rw [hb₁] at hc
      by_contra hlt'
      obtain ⟨⟨hc11, b, hb, -⟩, -⟩ := hc
      rw [(hL.eq_nil_iff hc11).1 (hk3 c.order hoc (by omega))] at hb
      exact absurd hb List.not_mem_nil
    rw [hm] at hL₁ hb₁ hag₁ hd₁ hlow hal hk11 hin
    obtain ⟨L', hL', hb', hag'⟩ := splitDown_spec hL₁ hk11 hal hd₁ hlow
    obtain ⟨hao, hae⟩ := blockAt_lowest (Nat.le_add_right o m) hal
    have htidy := (tidy_split hL₁.tidy rfl hk11 hd₁ hlow).2
    rw [← hae] at htidy
    have hcov := cover_split (F := blocks (Function.update L (o + m) l)) (o := o) (n := m)
      (b := blockAt (o + m) a) rfl
    rw [← hb'] at hcov htidy
    rw [← hae, hb₁, cover_diff_union hin] at hcov
    have hnp : (npages * pageSize).toNat ≤ 4096 * 2 ^ o := by
      have hle := le_of_orderFor ho
      have : 2 ^ o ≤ 2 ^ 11 := Nat.pow_le_pow_right (by norm_num) ho'
      rw [BitVec.toNat_mul, pageSize_toNat, Nat.mod_eq_of_lt (by omega)]
      omega
    obtain ⟨hL'', hag''⟩ := hL'.fill ho' hao hnp 5 htidy
    refine Or.inr ⟨_, L', a, ?_, hL.ne_zero (by omega) hak, hao, hL'', htidy, hcov, ?_⟩
    · rw [hunf, if_neg (by omega), hhead, hm, Nat.add_sub_cancel_left]
    · have hs : (blockAt (o + m) a).pages ⊆ cover (blocks L) := pages_subset_cover hin
      refine hag₁.trans ((hag'.mono hs).trans (hag''.mono ?_))
      rw [hae]
      exact (pages_lowest_subset (Nat.le_add_right o m)).trans hs

/-! ## `freerange` -/

/-- The whole pages of the physical range `[s, e)`, by their number. -/
def wholePages (s e : ℕ) : Set ℕ := {i | s ≤ 4096 * i ∧ 4096 * (i + 1) ≤ e}

/-- The address of a physical page in the direct map. -/
def directAddr (hhdm : U64) (i : ℕ) : ℕ := (4096 * i + hhdm.toNat) % 2 ^ 64

/-- The page of the direct map that shows a physical page. -/
def directPage (hhdm : U64) (i : ℕ) : ℕ := directAddr hhdm i / 4096

theorem directPage_eq {hhdm : U64} (hh : 2 ^ 23 ∣ hhdm.toNat) (i : ℕ) :
    directPage hhdm i = (i + hhdm.toNat / 4096) % 2 ^ 52 := by
  rw [directPage, directAddr]
  omega

/-- Different physical pages show in different pages of the direct map. -/
theorem directPage_disjoint {hhdm : U64} (hh : 2 ^ 23 ∣ hhdm.toNat) {A B : Set ℕ}
    (hA : ∀ i ∈ A, i < 2 ^ 52) (hB : ∀ i ∈ B, i < 2 ^ 52) (h : Disjoint A B) :
    Disjoint (directPage hhdm '' A) (directPage hhdm '' B) := by
  refine Set.disjoint_left.2 ?_
  rintro _ ⟨i, hi, rfl⟩ ⟨j, hj, hij⟩
  have h1 := hA i hi
  have h2 := hB j hj
  rw [directPage_eq hh, directPage_eq hh] at hij
  have : i = j := by omega
  exact Set.disjoint_left.1 h hi (this ▸ hj)

theorem lt_of_mem_wholePages {s e i : ℕ} (he : e < 2 ^ 64) (hi : i ∈ wholePages s e) :
    i < 2 ^ 52 := by
  simp only [wholePages, Set.mem_ofPred_eq] at hi
  omega

theorem two_pow_ctz_dvd : ∀ n x : ℕ, 2 ^ ctz n x ∣ x
  | 0, _ => by simp [ctz]
  | n + 1, x => by
    rw [ctz]
    split_ifs with h
    · rw [pow_succ, Nat.mul_comm]
      have hx : x = 2 * (x / 2) := by omega
      rw [hx, Nat.mul_div_cancel_left _ (by norm_num)]
      exact Nat.mul_dvd_mul_left 2 (two_pow_ctz_dvd n (x / 2))
    · simp

/-- `alignOrder` is an order to which the page number is aligned. -/
theorem alignOrder_spec (p : U64) : alignOrder p ≤ 11 ∧ 2 ^ alignOrder p ∣ pageOf p := by
  have hidx : (p / pageSize).toNat = pageOf p := by rw [BitVec.toNat_udiv, pageSize_toNat, pageOf]
  have hctz := two_pow_ctz_dvd 64 (pageOf p)
  unfold alignOrder maxOrder
  simp only [hidx]
  by_cases h0 : p / pageSize = 0
  · have : pageOf p = 0 := by rw [← hidx, h0]; rfl
    simp [h0, this]
  · rw [if_neg h0]
    split_ifs with h12
    · exact ⟨le_refl _, (Nat.pow_dvd_pow 2 (by omega)).trans hctz⟩
    · exact ⟨by omega, hctz⟩

/-- `shrinkOrder` stops at an order whose block fits, or at a single page. -/
theorem shrinkOrder_spec {p e : U64} (he : p.toNat + 2 ^ 23 < 2 ^ 64) : ∀ {o : ℕ}, o ≤ 11 →
    shrinkOrder p e o ≤ o ∧
      (shrinkOrder p e o = 0 ∨ p.toNat + 4096 * 2 ^ shrinkOrder p e o ≤ e.toNat)
  | 0, _ => ⟨le_refl _, Or.inl rfl⟩
  | o + 1, ho => by
    rw [shrinkOrder]
    split_ifs with hgt
    · obtain ⟨h1, h2⟩ := shrinkOrder_spec (e := e) he (show o ≤ 11 by omega)
      exact ⟨by omega, h2⟩
    · refine ⟨le_refl _, Or.inr ?_⟩
      have h11 : 2 ^ (o + 1) ≤ 2 ^ 11 := Nat.pow_le_pow_right (by norm_num) ho
      have hle := Nat.le_of_not_lt hgt
      rwa [BitVec.toNat_add, pageSize_shiftLeft_toNat ho, Nat.mod_eq_of_lt (by omega)] at hle

/-- The direct map takes an aligned physical block to an aligned block. -/
theorem direct_block {hhdm p : U64} (hh : 2 ^ 23 ∣ hhdm.toNat) (ho : o ≤ 11)
    (hp : PageAligned p) (hal : 2 ^ o ∣ pageOf p) :
    OrderAligned o (p + hhdm) ∧ (p + hhdm).toNat = directAddr hhdm (pageOf p) ∧
      (blockAt o (p + hhdm)).pages =
        directPage hhdm '' wholePages p.toNat (p.toNat + 4096 * 2 ^ o) := by
  have hv : (p + hhdm).toNat = directAddr hhdm (pageOf p) := by
    rw [BitVec.toNat_add, directAddr, hp.toNat_eq, Nat.mul_comm]
  have hdvd : ∀ k : ℕ, k ≤ 23 → 2 ^ k ∣ 2 ^ 64 := fun k hk => Nat.pow_dvd_pow 2 (by omega)
  have hpow : 4096 * 2 ^ o = 2 ^ (12 + o) := by rw [pow_add]; norm_num
  have hoa : OrderAligned o (p + hhdm) := by
    rw [OrderAligned, hpow, BitVec.toNat_add, Nat.dvd_mod_iff (hdvd _ (by omega)), ← hpow]
    have h23 : 4096 * 2 ^ o ∣ 2 ^ 23 := hpow ▸ Nat.pow_dvd_pow 2 (by omega)
    refine Nat.dvd_add ?_ (h23.trans hh)
    rw [hp.toNat_eq, Nat.mul_comm]
    exact Nat.mul_dvd_mul_right hal 4096
  have hle := hoa.add_le ho
  have hpe := hp.toNat_eq
  have hstep : ∀ i, pageOf p ≤ i → i < pageOf p + 2 ^ o →
      directAddr hhdm i = (p + hhdm).toNat + 4096 * (i - pageOf p) := fun i h1 h2 => by
    have e : 4096 * i + hhdm.toNat =
        4096 * pageOf p + hhdm.toNat + 4096 * (i - pageOf p) := by omega
    rw [hv] at hle ⊢
    rw [directAddr, e, Nat.add_mod, ← directAddr, Nat.mod_eq_of_lt (a := 4096 * _) (by omega),
      Nat.mod_eq_of_lt (by omega)]
  have hhi : directAddr hhdm (pageOf p) = pageOf (p + hhdm) * 4096 := by
    rw [← hv]
    exact hoa.pageAligned.toNat_eq
  have hfirst : pageOf (p + hhdm) = (blockAt o (p + hhdm)).index * 2 ^ o := by
    have := hoa.toNat_eq
    rw [pageOf, this, Nat.mul_left_comm, Nat.mul_div_cancel_left _ (by norm_num)]
  refine ⟨hoa, hv, Set.ext fun x => ?_⟩
  rw [mem_pages_iff_le_lt, blockAt_order, add_mul, one_mul, ← hfirst]
  constructor
  · rintro ⟨h1, h2⟩
    refine ⟨pageOf p + (x - pageOf (p + hhdm)), ⟨by omega, by omega⟩, ?_⟩
    rw [directPage, hstep _ (by omega) (by omega), hv, hhi]
    omega
  · rintro ⟨i, ⟨h1, h2⟩, rfl⟩
    rw [directPage, hstep i (by omega) (by omega), hv, hhi]
    omega

theorem freerangeLoop_spec {e : U64} : ∀ {fuel : ℕ} {h : Heap} {L : ℕ → List U64} {p : U64},
    FreeLists h L → 2 ^ 23 ∣ h.hhdmOffset.toNat → PageAligned p → e.toNat + 2 ^ 23 < 2 ^ 64 →
    p.toNat < e.toNat + 4096 → (e.toNat + 4096 - p.toNat) / 4096 < fuel →
    (∀ i ∈ wholePages p.toNat e.toNat, directAddr h.hhdmOffset i ≠ 0) →
    Disjoint (directPage h.hhdmOffset '' wholePages p.toNat e.toNat) (cover (blocks L)) →
    ∃ h' L', freerangeLoop e fuel h p = some h' ∧ FreeLists h' L' ∧
      cover (blocks L') =
        cover (blocks L) ∪ directPage h.hhdmOffset '' wholePages p.toNat e.toNat ∧
      h.AgreeOutside
        (cover (blocks L) ∪ directPage h.hhdmOffset '' wholePages p.toNat e.toNat) h'
  | 0, _, _, _, _, _, _, _, _, hf, _, _ => by omega
  | fuel + 1, h, L, p, hL, hh, hp, he, hpe, hf, h0, hd => by
    have hple := hp.toNat_eq
    have hadd : (p + pageSize).toNat = p.toNat + 4096 := by
      rw [BitVec.toNat_add, pageSize_toNat, Nat.mod_eq_of_lt (by omega)]
    rw [freerangeLoop]
    by_cases hfit : p + pageSize ≤ e
    · have hfit' : p.toNat + 4096 ≤ e.toNat := hadd ▸ BitVec.le_def.1 hfit
      obtain ⟨hal, hdvd⟩ := alignOrder_spec p
      obtain ⟨hle, hstop⟩ := shrinkOrder_spec (p := p) (e := e) (by omega) hal
      rw [if_pos hfit]
      set o := shrinkOrder p e (alignOrder p) with ho
      have ho11 : o ≤ 11 := by omega
      have hpos := Nat.two_pow_pos o
      have h11 : 2 ^ o ≤ 2 ^ 11 := Nat.pow_le_pow_right (by norm_num) ho11
      have hend : p.toNat + 4096 * 2 ^ o ≤ e.toNat := by
        rcases hstop with hz | hz
        · rw [hz]
          omega
        · exact hz
      obtain ⟨hoa, hva, hpages⟩ := direct_block hh ho11 hp ((Nat.pow_dvd_pow 2 hle).trans hdvd)
      have hnext : (p + (pageSize <<< o)).toNat = p.toNat + 4096 * 2 ^ o := by
        rw [BitVec.toNat_add, pageSize_shiftLeft_toNat ho11, Nat.mod_eq_of_lt (by omega)]
      have hnal : PageAligned (p + (pageSize <<< o)) := by
        rw [PageAligned, hnext]
        exact Nat.dvd_add hp (Nat.dvd_mul_right _ _)
      -- The range is this block's pages and the rest.
      have hsplit : wholePages p.toNat e.toNat =
          wholePages p.toNat (p.toNat + 4096 * 2 ^ o) ∪
            wholePages (p + (pageSize <<< o)).toNat e.toNat := by
        ext i
        simp only [wholePages, Set.mem_union, Set.mem_ofPred_eq, hnext]
        omega
      have hdis : Disjoint (wholePages p.toNat (p.toNat + 4096 * 2 ^ o))
          (wholePages (p + (pageSize <<< o)).toNat e.toNat) := by
        refine Set.disjoint_left.2 fun i h1 h2 => ?_
        simp only [wholePages, Set.mem_ofPred_eq, hnext] at h1 h2
        omega
      rw [hsplit, Set.image_union, ← hpages, Set.disjoint_union_left] at hd
      have hv0 : h.physToVirt p ≠ 0 := fun hz => by
        have := h0 (pageOf p) ⟨by omega, by omega⟩
        rw [← hva] at this
        exact this (congrArg BitVec.toNat hz)
      obtain ⟨h₁, L₁, hi, hL₁, hb₁, hag₁⟩ := insertBlock_spec hL ho11 hoa hv0 hd.1
      have hc₁ : cover (blocks L₁) =
          cover (blocks L) ∪ (blockAt o (p + h.hhdmOffset)).pages := by rw [hb₁, cover_release]
      have hd₁ : Disjoint (directPage h₁.hhdmOffset ''
          wholePages (p + (pageSize <<< o)).toNat e.toNat) (cover (blocks L₁)) := by
        rw [hag₁.hhdm, hc₁, Set.disjoint_union_right]
        refine ⟨hd.2, ?_⟩
        rw [hpages]
        exact directPage_disjoint hh (fun i => lt_of_mem_wholePages e.isLt)
          (fun i => lt_of_mem_wholePages (by omega)) hdis.symm
      obtain ⟨h', L', hr, hL', hc, hag'⟩ := @freerangeLoop_spec _ fuel _ _ _ hL₁
        (hag₁.hhdm ▸ hh) hnal he (by omega) (by omega)
        (fun i hi' => hag₁.hhdm ▸ h0 i (hsplit ▸ Or.inr hi')) hd₁
      refine ⟨h', L', ?_, hL', ?_, ?_⟩
      · simp only [Heap.physToVirt, hi, Option.bind_some, hr]
      · rw [hc, hc₁, hag₁.hhdm, hsplit, Set.image_union, ← hpages, Set.union_assoc]
      · rw [hsplit, Set.image_union, ← hpages, ← Set.union_assoc]
        refine (hag₁.mono Set.subset_union_left).trans ?_
        rwa [hc₁, hag₁.hhdm] at hag'
    · have hempty : wholePages p.toNat e.toNat = ∅ := by
        ext i
        have hlt : ¬p.toNat + 4096 ≤ e.toNat := fun hle =>
          hfit (BitVec.le_def.2 (by rw [hadd]; exact hle))
        simp only [wholePages, Set.mem_ofPred_eq, Set.mem_empty_iff_false, iff_false]
        omega
      refine ⟨h, L, by rw [if_neg hfit], hL, ?_, .refl _ _⟩
      rw [hempty, Set.image_empty, Set.union_empty]

/-- `freerange` adds the whole pages of the range to the free ones. -/
theorem freerange_spec {s e : U64} (hL : FreeLists h L) (hh : 2 ^ 23 ∣ h.hhdmOffset.toNat)
    (hse : s ≤ e) (he : e.toNat + 2 ^ 23 < 2 ^ 64)
    (h0 : ∀ i ∈ wholePages s.toNat e.toNat, directAddr h.hhdmOffset i ≠ 0)
    (hd : Disjoint (directPage h.hhdmOffset '' wholePages s.toNat e.toNat) (cover (blocks L))) :
    ∃ h' L', freerange h s e = some h' ∧ FreeLists h' L' ∧
      cover (blocks L') =
        cover (blocks L) ∪ directPage h.hhdmOffset '' wholePages s.toNat e.toNat ∧
      h.AgreeOutside
        (cover (blocks L) ∪ directPage h.hhdmOffset '' wholePages s.toNat e.toNat) h' := by
  have hse' : s.toNat ≤ e.toNat := hse
  have hsub : (s + pageSize - 1).toNat = s.toNat + 4095 := by
    have h1 : (1 : U64).toNat = 1 := rfl
    rw [BitVec.toNat_sub, BitVec.toNat_add, pageSize_toNat, h1]
    omega
  have hp : ((s + pageSize - 1) &&& pageFrameMask).toNat = (s.toNat + 4095) / 4096 * 4096 := by
    rw [and_pageFrameMask_toNat, pageOf, hsub]
  have hal : PageAligned ((s + pageSize - 1) &&& pageFrameMask) := by
    rw [PageAligned, hp]
    exact Nat.dvd_mul_left _ _
  -- A page that starts at or after `s` starts at or after `s` rounded up.
  have hw : wholePages ((s + pageSize - 1) &&& pageFrameMask).toNat e.toNat =
      wholePages s.toNat e.toNat := by
    ext i
    simp only [wholePages, Set.mem_ofPred_eq, hp]
    omega
  rw [← hw] at h0 hd ⊢
  exact freerangeLoop_spec hL hh hal he (by omega) (by unfold loopFuel; omega) h0 hd

end Jeos
