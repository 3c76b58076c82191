import Mathlib.Data.Fintype.Card
import Mathlib.Data.Finset.Card
import Mathlib.Order.Interval.Finset.Nat
import Jeos.Buddy
import Jeos.Lib.Dyadic

/-!
# The free lists as a set of dyadic blocks

`FreeLists h L` says that the lists of the heap `h` are `L`, that every block on
list `o` is aligned to its `2 ^ o` pages, and that the blocks form a tidy set
(`DyadicBlock.Tidy`). Addresses become blocks by `blockAt` : flipping the bit
`PAGE_SIZE << o` of an address is taking the buddy of its block
(`blockAt_buddyAddr`), and the lower of the two addresses is the parent's
(`blockAt_mergeAddr`).

One lemma for each list operation of `mem.c` says what it does to the set of free
blocks, and that it writes to no page but those of the blocks on the lists
(`Heap.AgreeOutside`).
-/

namespace Jeos

open ByteMemory DyadicBlock

/-! ## Addresses of blocks -/

/-- The block of order `o` with the page of `a`. -/
def blockAt (o : ℕ) (a : U64) : DyadicBlock := ⟨o, pageOf a / 2 ^ o⟩

/-- The address is the first of a block of order `o`. -/
def OrderAligned (o : ℕ) (a : U64) : Prop := 4096 * 2 ^ o ∣ a.toNat

instance (o : ℕ) (a : U64) : Decidable (OrderAligned o a) :=
  inferInstanceAs (Decidable (4096 * 2 ^ o ∣ a.toNat))

@[simp] theorem blockAt_order (o : ℕ) (a : U64) : (blockAt o a).order = o := rfl

theorem OrderAligned.pageAligned {o : ℕ} {a : U64} (h : OrderAligned o a) : PageAligned a :=
  (Nat.dvd_mul_right 4096 (2 ^ o)).trans h

/-- An aligned address is determined by the index of its block. -/
theorem OrderAligned.toNat_eq {o : ℕ} {a : U64} (h : OrderAligned o a) :
    a.toNat = (blockAt o a).index * (4096 * 2 ^ o) := by
  rw [blockAt, pageOf, Nat.div_div_eq_div_mul, Nat.div_mul_cancel h]

theorem orderAligned_of_toNat {o i : ℕ} {a : U64} (h : a.toNat = i * (4096 * 2 ^ o)) :
    OrderAligned o a ∧ blockAt o a = ⟨o, i⟩ := by
  have hpos : 0 < 4096 * 2 ^ o := by positivity
  refine ⟨⟨i, by rw [h, Nat.mul_comm]⟩, ?_⟩
  rw [blockAt, pageOf, Nat.div_div_eq_div_mul, h, Nat.mul_div_cancel _ hpos]

theorem eq_of_blockAt_eq {o : ℕ} {a b : U64} (ha : OrderAligned o a) (hb : OrderAligned o b)
    (h : blockAt o a = blockAt o b) : a = b :=
  BitVec.eq_of_toNat_eq (by rw [ha.toNat_eq, hb.toNat_eq, h])

theorem pageOf_mem_blockAt (o : ℕ) (a : U64) : pageOf a ∈ (blockAt o a).pages := rfl

/-- A block does not reach beyond the last address. -/
theorem OrderAligned.add_le {o : ℕ} {a : U64} (ho : o ≤ 11) (h : OrderAligned o a) :
    a.toNat + 4096 * 2 ^ o ≤ 2 ^ 64 := by
  have h64 : (2 : ℕ) ^ 64 = 2 ^ (52 - o) * (4096 * 2 ^ o) := by
    rw [show (4096 : ℕ) = 2 ^ 12 by norm_num, ← pow_add, ← pow_add]
    congr 1
    omega
  have hlt : (blockAt o a).index * (4096 * 2 ^ o) < 2 ^ (52 - o) * (4096 * 2 ^ o) := by
    rw [← h.toNat_eq, ← h64]
    exact a.isLt
  have hi := Nat.lt_of_mul_lt_mul_right hlt
  calc a.toNat + 4096 * 2 ^ o = ((blockAt o a).index + 1) * (4096 * 2 ^ o) := by
        rw [h.toNat_eq, add_mul, one_mul]
    _ ≤ 2 ^ (52 - o) * (4096 * 2 ^ o) := Nat.mul_le_mul_right _ hi
    _ = 2 ^ 64 := h64.symm

/-- The bytes of a range inside one block lie on the block's pages. -/
theorem pageOf_mem_of_within {o n : ℕ} {a x : U64} (ho : o ≤ 11) (h : OrderAligned o a)
    (hn : n ≤ 4096 * 2 ^ o) (hx : Within x a n) : pageOf x ∈ (blockAt o a).pages := by
  have hle := h.add_le ho
  have hx' := (within_iff (by omega)).1 hx
  have h1 := h.toNat_eq
  rw [mem_pages, pageOf, Nat.div_div_eq_div_mul, blockAt_order]
  refine Nat.div_eq_of_lt_le (by omega) ?_
  rw [add_mul, one_mul]
  omega

/-- The first words of two pages do not overlap. -/
theorem apart_of_pageAligned {a b : U64} (ha : PageAligned a) (hb : PageAligned b)
    (h : pageOf a ≠ pageOf b) : ByteMemory.Apart a 8 b 8 := by
  have h1 := ha.toNat_eq
  have h2 := hb.toNat_eq
  have h3 := a.isLt
  have h4 := b.isLt
  exact apart_of_le (by omega) (by omega) (by omega)

/-- `addr ^ (PAGE_SIZE << o)` is the address of the buddy. -/
theorem blockAt_buddyAddr {o : ℕ} {a : U64} (ho : o ≤ 11) (h : OrderAligned o a) :
    OrderAligned o (a ^^^ (pageSize <<< o)) ∧
      blockAt o (a ^^^ (pageSize <<< o)) = (blockAt o a).buddy := by
  refine orderAligned_of_toNat ?_
  have hp : 4096 * 2 ^ o = 2 ^ (12 + o) := by rw [pow_add]; norm_num
  have hx : ∀ i : ℕ, (i * 2 ^ (12 + o)) ^^^ 2 ^ (12 + o) = (i ^^^ 1) * 2 ^ (12 + o) := fun i => by
    have := Nat.shiftLeft_xor_distrib (i := 12 + o) (a := i) (b := 1)
    simp only [Nat.shiftLeft_eq, one_mul] at this
    exact this.symm
  rw [BitVec.toNat_xor, pageSize_shiftLeft_toNat ho, h.toNat_eq, hp, hx]

/-- The lower of a block's and its buddy's address. -/
def mergeAddr (a b : U64) : U64 := if b < a then b else a

theorem mergeAddr_toNat (a b : U64) : (mergeAddr a b).toNat = min a.toNat b.toNat := by
  unfold mergeAddr
  split_ifs with h
  · have : b.toNat < a.toNat := h
    omega
  · have : ¬b.toNat < a.toNat := h
    omega

theorem blockAt_mergeAddr {o : ℕ} {a : U64} (ho : o ≤ 11) (h : OrderAligned o a) :
    OrderAligned (o + 1) (mergeAddr a (a ^^^ (pageSize <<< o))) ∧
      blockAt (o + 1) (mergeAddr a (a ^^^ (pageSize <<< o))) = (blockAt o a).parent := by
  obtain ⟨hb, hbe⟩ := blockAt_buddyAddr ho h
  refine orderAligned_of_toNat ?_
  set i := (blockAt o a).index with hi
  have hmin : min i (i ^^^ 1) = 2 * (i / 2) := by
    have h1 := xor_one_div_two i
    have h2 := Nat.xor_mod_two_eq (m := i) (n := 1)
    omega
  have hmul : ∀ j : ℕ, 2 * (j / 2) * (4096 * 2 ^ o) = j / 2 * (4096 * 2 ^ (o + 1)) := fun j => by
    rw [pow_succ]
    ring
  rw [mergeAddr_toNat, h.toNat_eq, hb.toNat_eq, hbe, ← hmul, ← hmin]
  exact Nat.mul_min_mul_right _ _ _

/-! ## The free blocks -/

/-- The blocks on the lists `L`. -/
def blocks (L : ℕ → List U64) : Set DyadicBlock :=
  {b | b.order ≤ 11 ∧ ∃ a ∈ L b.order, b = blockAt b.order a}

/-- The lists of `h` are `L`, their blocks are aligned and tidy. -/
structure FreeLists (h : Heap) (L : ℕ → List U64) : Prop where
  chain : ∀ o ≤ 11, runList.Chain h (.head o) (L o)
  aligned : ∀ o ≤ 11, ∀ a ∈ L o, OrderAligned o a
  nodup : ∀ o ≤ 11, (L o).Nodup
  tidy : Tidy 11 (blocks L)

/-- `h'` differs from `h` at most in the bytes of the pages `U` and in the list heads. -/
structure Heap.AgreeOutside (U : Set ℕ) (h h' : Heap) : Prop where
  hhdm : h'.hhdmOffset = h.hhdmOffset
  mem : ∀ x, pageOf x ∉ U → h'.mem x = h.mem x

theorem Heap.AgreeOutside.refl (U : Set ℕ) (h : Heap) : h.AgreeOutside U h :=
  ⟨rfl, fun _ _ => rfl⟩

theorem Heap.AgreeOutside.trans {U : Set ℕ} {h h₁ h₂ : Heap} (a : h.AgreeOutside U h₁)
    (b : h₁.AgreeOutside U h₂) : h.AgreeOutside U h₂ :=
  ⟨b.hhdm.trans a.hhdm, fun x hx => (b.mem x hx).trans (a.mem x hx)⟩

theorem Heap.AgreeOutside.mono {U V : Set ℕ} {h h' : Heap} (a : h.AgreeOutside U h')
    (hUV : U ⊆ V) : h.AgreeOutside V h' :=
  ⟨a.hhdm, fun x hx => a.mem x fun hU => hx (hUV hU)⟩

variable {h h' : Heap} {L : ℕ → List U64} {o o' : ℕ} {a b x : U64}

theorem blockAt_mem_blocks (ho : o ≤ 11) (ha : a ∈ L o) : blockAt o a ∈ blocks L :=
  ⟨ho, a, ha, rfl⟩

theorem FreeLists.mem_of_blockAt_mem (hL : FreeLists h L) (ha : OrderAligned o a)
    (hb : blockAt o a ∈ blocks L) : a ∈ L o := by
  obtain ⟨ho, a', ha', he⟩ := hb
  rwa [eq_of_blockAt_eq ha (hL.aligned o ho a' ha') he]

theorem FreeLists.ne_zero (hL : FreeLists h L) (ho : o ≤ 11) (ha : a ∈ L o) : a ≠ 0 :=
  (hL.chain o ho).ne_null ha

/-- The blocks of two list elements that are not the same have different first pages. -/
theorem FreeLists.pageOf_ne (hL : FreeLists h L) (ho : o ≤ 11) (ho' : o' ≤ 11) (ha : a ∈ L o)
    (hb : b ∈ L o') (hne : o = o' → a ≠ b) : pageOf a ≠ pageOf b := fun hp => by
  have he : blockAt o a = blockAt o' b := hL.tidy.eq_of_mem (blockAt_mem_blocks ho ha)
    (blockAt_mem_blocks ho' hb) (pageOf_mem_blockAt o a) (hp ▸ pageOf_mem_blockAt o' b)
  obtain rfl : o = o' := congrArg order he
  exact hne rfl (eq_of_blockAt_eq (hL.aligned o ho a ha) (hL.aligned o ho b hb) he)

theorem FreeLists.apart (hL : FreeLists h L) (ho : o ≤ 11) (ho' : o' ≤ 11) (ha : a ∈ L o)
    (hb : b ∈ L o') (hne : o = o' → a ≠ b) : ByteMemory.Apart a 8 b 8 :=
  apart_of_pageAligned (hL.aligned o ho a ha).pageAligned (hL.aligned o' ho' b hb).pageAligned
    (hL.pageOf_ne ho ho' ha hb hne)

theorem FreeLists.cells_pairwise (hL : FreeLists h L) (ho : o ≤ 11) :
    (runList.cells (.head o) (L o)).Pairwise runList.Apart := by
  refine List.pairwise_cons.2 ⟨fun d hd => ?_, ?_⟩
  · obtain ⟨a, -, rfl⟩ := List.mem_map.1 hd
    trivial
  · refine List.pairwise_map.2 ((hL.nodup o ho).imp_of_mem fun ha hb hne => ?_)
    exact hL.apart ho ho ha hb fun _ => hne

/-- A list has fewer elements than there are addresses. -/
theorem FreeLists.length_lt (hL : FreeLists h L) (ho : o ≤ 11) : (L o).length < loopFuel := by
  have hn : ((L o).map BitVec.toNat).Nodup :=
    (hL.nodup o ho).map fun _ _ => BitVec.eq_of_toNat_eq
  have hs : ((L o).map BitVec.toNat).toFinset ⊆ Finset.Ico 1 (2 ^ 64) := fun i hi => by
    obtain ⟨a, ha, rfl⟩ := List.mem_map.1 (List.mem_toFinset.1 hi)
    have h0 : a.toNat ≠ 0 := fun h0 => hL.ne_zero ho ha (BitVec.eq_of_toNat_eq h0)
    have := a.isLt
    exact Finset.mem_Ico.2 ⟨by omega, by omega⟩
  have := Finset.card_le_card hs
  rw [List.toFinset_card_of_nodup hn, List.length_map, Nat.card_Ico] at this
  unfold loopFuel
  omega

/-- The lists only depend on the heads and on the free pages. -/
theorem FreeLists.congr (hL : FreeLists h L) (hh : h'.freeLists = h.freeLists)
    (hm : ∀ x, pageOf x ∈ cover (blocks L) → h'.mem x = h.mem x) : FreeLists h' L := by
  refine ⟨fun o ho => (hL.chain o ho).congr fun d hd => ?_, hL.aligned, hL.nodup, hL.tidy⟩
  rcases List.mem_cons.1 hd with rfl | hd
  · exact congrFun hh o
  · obtain ⟨a, ha, rfl⟩ := List.mem_map.1 hd
    refine load64_congr fun x hx => hm x (pages_subset_cover (blockAt_mem_blocks ho ha) ?_)
    have hpos := Nat.two_pow_pos o
    exact pageOf_mem_of_within ho (hL.aligned o ho a ha) (by omega) hx

/-! ## The list operations -/

theorem blocks_update_erase (hL : FreeLists h L) (ho : o ≤ 11) (hx : x ∈ L o) :
    blocks (Function.update L o ((L o).erase x)) = blocks L \ {blockAt o x} := by
  ext b
  constructor
  · rintro ⟨hb, a, ha, he⟩
    by_cases hbo : b.order = o
    · rw [hbo, Function.update_self, (hL.nodup o ho).mem_erase_iff] at ha
      refine ⟨⟨hb, a, hbo ▸ ha.2, he⟩, fun hbx => ha.1 ?_⟩
      rw [hbo] at he
      exact eq_of_blockAt_eq (hL.aligned o ho a ha.2) (hL.aligned o ho x hx) (he ▸ hbx)
    · rw [Function.update_of_ne hbo] at ha
      exact ⟨⟨hb, a, ha, he⟩, fun hbx => hbo (congrArg order hbx)⟩
  · rintro ⟨⟨hb, a, ha, he⟩, hne⟩
    refine ⟨hb, a, ?_, he⟩
    by_cases hbo : b.order = o
    · rw [hbo, Function.update_self, (hL.nodup o ho).mem_erase_iff]
      refine ⟨fun hax => hne ?_, hbo ▸ ha⟩
      rw [he, hbo, hax]
      rfl
    · rwa [Function.update_of_ne hbo]

theorem blocks_update_cons (ho : o ≤ 11) :
    blocks (Function.update L o (a :: L o)) = insert (blockAt o a) (blocks L) := by
  ext b
  constructor
  · rintro ⟨hb, c, hc, he⟩
    by_cases hbo : b.order = o
    · rw [hbo, Function.update_self] at hc
      rcases List.mem_cons.1 hc with rfl | hc
      · exact Or.inl (hbo ▸ he)
      · exact Or.inr ⟨hb, c, hbo ▸ hc, he⟩
    · rw [Function.update_of_ne hbo] at hc
      exact Or.inr ⟨hb, c, hc, he⟩
  · rintro (rfl | ⟨hb, c, hc, he⟩)
    · exact ⟨ho, a, by simp, rfl⟩
    · refine ⟨hb, c, ?_, he⟩
      by_cases hbo : b.order = o
      · rw [hbo, Function.update_self]
        exact List.mem_cons_of_mem _ (hbo ▸ hc)
      · rwa [Function.update_of_ne hbo]

/-- Writing one cell of list `o` leaves the other lists, and the pages that are not free. -/
theorem FreeLists.of_store (hL : FreeLists h L) (ho : o ≤ 11) (hx : x ∈ L o) {d : RunCell}
    {v : U64} (hd : d ∈ runList.cells (.head o) (L o))
    (hch : runList.Chain (runList.store h d v) (.head o) ((L o).erase x)) :
    FreeLists (runList.store h d v) (Function.update L o ((L o).erase x)) ∧
      h.AgreeOutside (cover (blocks L)) (runList.store h d v) := by
  refine ⟨⟨fun o' ho' => ?_, fun o' ho' a ha => ?_, fun o' ho' => ?_, ?_⟩, ?_⟩
  · rcases eq_or_ne o' o with rfl | hne
    · rwa [Function.update_self]
    · rw [Function.update_of_ne hne]
      refine (hL.chain o' ho').store_of_apart v fun e he => ?_
      rcases List.mem_cons.1 hd with rfl | hd <;> rcases List.mem_cons.1 he with rfl | he
      · exact Ne.symm hne
      · obtain ⟨b, -, rfl⟩ := List.mem_map.1 he
        trivial
      · obtain ⟨a, -, rfl⟩ := List.mem_map.1 hd
        trivial
      · obtain ⟨a, ha, rfl⟩ := List.mem_map.1 hd
        obtain ⟨b, hb, rfl⟩ := List.mem_map.1 he
        exact hL.apart ho ho' ha hb fun e => absurd e.symm hne
  · by_cases hne : o' = o
    · subst hne
      rw [Function.update_self] at ha
      exact hL.aligned o' ho' a (List.mem_of_mem_erase ha)
    · rw [Function.update_of_ne hne] at ha
      exact hL.aligned o' ho' a ha
  · by_cases hne : o' = o
    · subst hne
      rw [Function.update_self]
      exact (hL.nodup o' ho').erase x
    · rw [Function.update_of_ne hne]
      exact hL.nodup o' ho'
  · rw [blocks_update_erase hL ho hx]
    exact hL.tidy.subset Set.sdiff_subset
  · rcases List.mem_cons.1 hd with rfl | hd
    · exact ⟨rfl, fun _ _ => rfl⟩
    · obtain ⟨a, ha, rfl⟩ := List.mem_map.1 hd
      refine ⟨rfl, fun y hy => store64_of_not_within fun hw => hy ?_⟩
      have hpos := Nat.two_pow_pos o
      exact pages_subset_cover (blockAt_mem_blocks ho ha)
        (pageOf_mem_of_within ho (hL.aligned o ho a ha) (by omega) hw)

/-- `buddy_remove` of a block that is not on the list. -/
theorem buddyRemove_of_not_mem (hL : FreeLists h L) (ho : o ≤ 11) (hx : x ∉ L o) :
    buddyRemove h x o = some (h, false) :=
  LinkStore.unlink_of_not_mem (hL.chain o ho) (hL.length_lt ho) hx

/-- `buddy_remove` takes a block of the list out. -/
theorem buddyRemove_of_mem (hL : FreeLists h L) (ho : o ≤ 11) (hx : x ∈ L o) :
    ∃ h', buddyRemove h x o = some (h', true) ∧
      FreeLists h' (Function.update L o ((L o).erase x)) ∧
      h.AgreeOutside (cover (blocks L)) h' := by
  obtain ⟨d, hd, v, hu, hch⟩ := LinkStore.unlink_of_mem (hL.chain o ho) (hL.length_lt ho)
    (hL.cells_pairwise ho) hx
  exact ⟨_, hu, hL.of_store ho hx hd hch⟩

/-- Popping the first block of a list. -/
theorem FreeLists.pop (hL : FreeLists h L) (ho : o ≤ 11) {l : List U64} (hl : L o = a :: l) :
    FreeLists (runList.pop h (.head o) a) (Function.update L o l) ∧
      blocks (Function.update L o l) = blocks L \ {blockAt o a} ∧
      h.AgreeOutside (cover (blocks L)) (runList.pop h (.head o) a) := by
  have ha : a ∈ L o := by simp [hl]
  have he : (L o).erase a = l := by rw [hl, List.erase_cons_head]
  have hch : runList.Chain (runList.pop h (.head o) a) (.head o) l := by
    have := hL.chain o ho
    rw [hl] at this
    exact this.pop fun _ _ => trivial
  rw [← he] at hch ⊢
  exact ⟨(hL.of_store ho ha (by simp [LinkStore.cells]) hch).1, blocks_update_erase hL ho ha,
    (hL.of_store ho ha (by simp [LinkStore.cells]) hch).2⟩

/-- Pushing a block that may join the tidy set. -/
theorem FreeLists.push (hL : FreeLists h L) (ho : o ≤ 11) (ha : OrderAligned o a) (h0 : a ≠ 0)
    (hd : Disjoint (blockAt o a).pages (cover (blocks L)))
    (hb : o < 11 → (blockAt o a).buddy ∉ blocks L) :
    FreeLists (pushRun h o a) (Function.update L o (a :: L o)) ∧
      h.AgreeOutside (blockAt o a).pages (pushRun h o a) := by
  have hpage : ∀ {o'}, o' ≤ 11 → ∀ b ∈ L o', pageOf a ≠ pageOf b := fun ho' b hb' hp =>
    Set.disjoint_left.1 hd (pageOf_mem_blockAt o a)
      (hp ▸ pages_subset_cover (blockAt_mem_blocks ho' hb') (pageOf_mem_blockAt _ b))
  have hapart : ∀ {o'}, o' ≤ 11 → ∀ b ∈ L o', ByteMemory.Apart a 8 b 8 := fun ho' b hb' =>
    apart_of_pageAligned ha.pageAligned (hL.aligned _ ho' b hb').pageAligned (hpage ho' b hb')
  refine ⟨⟨fun o' ho' => ?_, fun o' ho' b hb' => ?_, fun o' ho' => ?_, ?_⟩, rfl, fun y hy => ?_⟩
  · rcases eq_or_ne o' o with rfl | hne
    · rw [Function.update_self]
      exact (hL.chain o' ho').push h0 trivial (fun _ _ => trivial) (hapart ho')
    · rw [Function.update_of_ne hne]
      have h1 := (hL.chain o' ho').store_of_apart (d := .next a) (h.freeLists o) fun e he => by
        rcases List.mem_cons.1 he with rfl | he
        · trivial
        · obtain ⟨b, hb', rfl⟩ := List.mem_map.1 he
          exact hapart ho' b hb'
      refine h1.store_of_apart (d := .head o) a fun e he => ?_
      rcases List.mem_cons.1 he with rfl | he
      · exact Ne.symm hne
      · obtain ⟨b, -, rfl⟩ := List.mem_map.1 he
        trivial
  · by_cases hne : o' = o
    · subst hne
      rw [Function.update_self] at hb'
      rcases List.mem_cons.1 hb' with rfl | hb'
      · exact ha
      · exact hL.aligned o' ho' b hb'
    · rw [Function.update_of_ne hne] at hb'
      exact hL.aligned o' ho' b hb'
  · by_cases hne : o' = o
    · subst hne
      rw [Function.update_self]
      exact List.nodup_cons.2 ⟨fun hm => hpage ho' a hm rfl, hL.nodup o' ho'⟩
    · rw [Function.update_of_ne hne]
      exact hL.nodup o' ho'
  · rw [blocks_update_cons ho]
    exact tidy_insert hL.tidy ho hd hb
  · refine store64_of_not_within fun hw => hy ?_
    have hpos := Nat.two_pow_pos o
    exact pageOf_mem_of_within ho ha (by omega) hw

end Jeos
