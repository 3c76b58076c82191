import Jeos.BuddySpec
import Jeos.Lib.Run

/-!
# Ownership of pages over whole runs of the allocator

A run is any sequence of `freerange`, `kalloc` and `kfree` calls in which the ranges
do not overlap and `kfree` only gets what `kalloc` gave and nobody freed since,
mixed with writes of the callers into the blocks they own (`AllocEvent.poke`).

`Owned` is the invariant : the free lists are well formed and tidy, the live blocks
are aligned, apart from each other and from the free ones, and together they make
up the donated pages. `allocator_ownership` reads off it that every page is owned
once, `free_lists_canonical` that the free lists only depend on which pages are
free.

Both need that no block can sit at address 0, which is the end of a list
(`PhysRange.Mapped`). A direct map that shows a donated page there breaks the lists
(`null_page_loses_pages`, `null_page_history`).
-/

namespace Jeos

open ByteMemory DyadicBlock

/-- The physical addresses from `start` up to `stop`. -/
structure PhysRange where
  start : U64
  stop : U64
  le : start ≤ stop
  deriving DecidableEq

namespace PhysRange

/-- The whole pages of the range. -/
def pages (r : PhysRange) : Set ℕ := wholePages r.start.toNat r.stop.toNat

/-- No address is in both ranges. -/
def Apart (r r' : PhysRange) : Prop :=
  min r.stop.toNat r'.stop.toNat ≤ max r.start.toNat r'.start.toNat

instance (r r' : PhysRange) : Decidable (r.Apart r') :=
  inferInstanceAs (Decidable (min r.stop.toNat r'.stop.toNat ≤ max r.start.toNat r'.start.toNat))

/-- The range ends a largest block before the last address, and none of its pages
shows at address 0 of the direct map. -/
structure Mapped (hhdm : U64) (r : PhysRange) : Prop where
  bound : r.stop.toNat + 2 ^ 23 < 2 ^ 64
  not_null : ¬(r.start.toNat ≤ (-hhdm).toNat ∧ (-hhdm).toNat + 4096 ≤ r.stop.toNat)

end PhysRange

/-- The allocator with the blocks in use, as pointer and `npages`, and the ranges
donated so far. -/
structure AllocState where
  heap : Heap
  live : List (U64 × U64)
  ranges : List PhysRange

/-- A call of the allocator, or a write of a caller. -/
inductive AllocEvent where
  | freerange (r : PhysRange)
  | kalloc (npages : U64)
  | kfree (v npages : U64)
  | poke (x : U64) (b : U8)

/-- The block behind a live pointer : `2 ^ order_for(npages)` pages. -/
def liveBlock (q : U64 × U64) : DyadicBlock := blockAt ((orderFor q.2).getD 0) q.1

namespace AllocState

/-- After `kinit`. -/
def init (m : Mem) (hhdm : U64) : AllocState := ⟨kinit m hhdm, [], []⟩

/-- What a caller may do in a state : donate a range apart from the earlier ones,
allocate, free a live block, write into a live block. -/
def Allowed (s : AllocState) : AllocEvent → Prop
  | .freerange r => ∀ r' ∈ s.ranges, r'.Apart r
  | .kalloc _ => True
  | .kfree v n => (v, n) ∈ s.live
  | .poke x _ => ∃ q ∈ s.live, pageOf x / 2 ^ (liveBlock q).order = (liveBlock q).index

instance (s : AllocState) (e : AllocEvent) : Decidable (s.Allowed e) := by
  cases e <;> unfold Allowed <;> infer_instance

/-- One call. It is `none` if the caller may not make it or it does not return. -/
def step (s : AllocState) (e : AllocEvent) : Option AllocState :=
  if s.Allowed e then
    match e with
    | .freerange r =>
      (Jeos.freerange s.heap r.start r.stop).map fun h =>
        { s with heap := h, ranges := r :: s.ranges }
    | .kalloc n =>
      (Jeos.kalloc s.heap n).map fun (h, a) =>
        { s with heap := h, live := if a = 0 then s.live else (a, n) :: s.live }
    | .kfree v n =>
      (Jeos.kfree s.heap v n).map fun h => { s with heap := h, live := s.live.erase (v, n) }
    | .poke x b => some { s with heap := { s.heap with mem := Function.update s.heap.mem x b } }
  else none

/-- The donated pages, as pages of the direct map. -/
def donated (s : AllocState) : Set ℕ :=
  ⋃ r ∈ s.ranges, directPage s.heap.hhdmOffset '' r.pages

/-- The donated pages that are in no live block. -/
def freePages (s : AllocState) : Set ℕ := s.donated \ ⋃ q ∈ s.live, (liveBlock q).pages

end AllocState

/-- The blocks on the twelve lists, one list after the other. -/
def listBlocks (L : ℕ → List U64) : List DyadicBlock :=
  (List.range maxOrder).flatMap fun o => (L o).map (blockAt o)

/-- The free and the live blocks are aligned, pairwise disjoint, and together the
donated pages. -/
def Owns (s : AllocState) : Prop :=
  ∃ L : ℕ → List U64, (∀ o < maxOrder, runList.Chain s.heap (.head o) (L o)) ∧
    (∀ o < maxOrder, ∀ a ∈ L o, OrderAligned o a) ∧
    (listBlocks L ++ s.live.map liveBlock).Pairwise (fun b c => Disjoint b.pages c.pages) ∧
    {x | ∃ b ∈ listBlocks L ++ s.live.map liveBlock, x ∈ b.pages} = s.donated

/-- The block at `a` is on list `o`. -/
def OnFreeList (h : Heap) (o : ℕ) (a : U64) : Prop :=
  ∃ l, runList.Chain h (.head o) l ∧ a ∈ l

/-- The allocator invariant, with the lists it holds for. -/
structure Owned (s : AllocState) (L : ℕ → List U64) : Prop where
  lists : FreeLists s.heap L
  hhdm : 2 ^ 23 ∣ s.heap.hhdmOffset.toNat
  live_ok : ∀ q ∈ s.live, q.1 ≠ 0 ∧ q.2 ≠ 0 ∧
    ∃ o, orderFor q.2 = some o ∧ o ≤ 11 ∧ OrderAligned o q.1
  live_apart : s.live.Pairwise fun p q => Disjoint (liveBlock p).pages (liveBlock q).pages
  live_free : ∀ q ∈ s.live, Disjoint (liveBlock q).pages (cover (blocks L))
  total : cover (blocks L) ∪ ⋃ q ∈ s.live, (liveBlock q).pages = s.donated

variable {s s' t : AllocState} {L : ℕ → List U64} {e : AllocEvent}

theorem blocks_nil : blocks (fun _ => []) = ∅ := by
  ext b
  simp [blocks]

theorem owned_init (m : Mem) {hhdm : U64} (hh : 2 ^ 23 ∣ hhdm.toNat) :
    Owned (AllocState.init m hhdm) fun _ => [] where
  lists := ⟨fun _ _ => rfl, by simp, by simp, by rw [blocks_nil]; exact tidy_empty 11⟩
  hhdm := hh
  live_ok := by simp [AllocState.init]
  live_apart := List.Pairwise.nil
  live_free := by simp [AllocState.init]
  total := by simp [blocks_nil, cover, AllocState.donated, AllocState.init]

/-! ## One call -/

theorem PhysRange.Mapped.directAddr_ne_zero {hhdm : U64} {r : PhysRange} (hr : r.Mapped hhdm) :
    ∀ i ∈ r.pages, directAddr hhdm i ≠ 0 := fun i hi h0 => by
  have hi' : r.start.toNat ≤ 4096 * i ∧ 4096 * (i + 1) ≤ r.stop.toNat := hi
  have hz : 4096 * i = (-hhdm).toNat := by
    have h1 := hhdm.isLt
    have h2 := r.stop.isLt
    rw [directAddr] at h0
    rw [BitVec.toNat_neg]
    omega
  exact hr.not_null ⟨by omega, by omega⟩

theorem PhysRange.Apart.disjoint {r r' : PhysRange} (h : r.Apart r') :
    Disjoint r.pages r'.pages := by
  refine Set.disjoint_left.2 fun i h1 h2 => ?_
  simp only [PhysRange.pages, wholePages, Set.mem_ofPred_eq] at h1 h2
  unfold PhysRange.Apart at h
  omega

theorem PhysRange.lt_of_mem_pages {r : PhysRange} {i : ℕ} (h : i ∈ r.pages) : i < 2 ^ 52 :=
  lt_of_mem_wholePages r.stop.isLt h

theorem Owned.cover_subset (ho : Owned s L) : cover (blocks L) ⊆ s.donated := by
  rw [← ho.total]
  exact Set.subset_union_left

/-- A new range shares no page with what was donated before. -/
theorem AllocState.disjoint_donated {r : PhysRange} (hh : 2 ^ 23 ∣ s.heap.hhdmOffset.toNat)
    (hr : ∀ r' ∈ s.ranges, r'.Apart r) :
    Disjoint (directPage s.heap.hhdmOffset '' r.pages) s.donated := by
  refine Set.disjoint_iUnion₂_right.2 fun r' hr' => ?_
  exact directPage_disjoint hh (fun i => PhysRange.lt_of_mem_pages)
    (fun i => PhysRange.lt_of_mem_pages) (hr r' hr').disjoint.symm

theorem Owned.freerange {r : PhysRange} (ho : Owned s L) (hr : ∀ r' ∈ s.ranges, r'.Apart r)
    (hm : r.Mapped s.heap.hhdmOffset) :
    ∃ h' L', Jeos.freerange s.heap r.start r.stop = some h' ∧
      h'.hhdmOffset = s.heap.hhdmOffset ∧
      Owned { s with heap := h', ranges := r :: s.ranges } L' := by
  have hd := s.disjoint_donated ho.hhdm hr
  obtain ⟨h', L', hf, hL', hc, hag⟩ := freerange_spec ho.lists ho.hhdm r.le hm.bound
    hm.directAddr_ne_zero (hd.mono_right ho.cover_subset)
  have hdon : AllocState.donated { s with heap := h', ranges := r :: s.ranges } =
      directPage s.heap.hhdmOffset '' r.pages ∪ s.donated := by
    simp [AllocState.donated, hag.hhdm]
  refine ⟨h', L', hf, hag.hhdm,
    ⟨hL', hag.hhdm ▸ ho.hhdm, ho.live_ok, ho.live_apart, fun q hq => ?_, ?_⟩⟩
  · rw [hc, Set.disjoint_union_right]
    refine ⟨ho.live_free q hq, (hd.mono_right ?_).symm⟩
    rw [← ho.total]
    exact (Set.subset_biUnion_of_mem (u := fun q => (liveBlock q).pages) hq).trans
      Set.subset_union_right
  · rw [hdon, ← ho.total, hc, Set.union_right_comm, Set.union_comm _ (directPage _ '' _)]
    rfl

theorem liveBlock_eq {v n : U64} {o : ℕ} (h : orderFor n = some o) :
    liveBlock (v, n) = blockAt o v := by
  rw [liveBlock, h, Option.getD_some]

theorem Owned.kalloc {n : U64} (ho : Owned s L) (hn : n.toNat ≤ 2 ^ 63) :
    ∃ h' a L', Jeos.kalloc s.heap n = some (h', a) ∧ h'.hhdmOffset = s.heap.hhdmOffset ∧
      Owned { s with heap := h', live := if a = 0 then s.live else (a, n) :: s.live } L' := by
  have hfail : Owned { s with heap := s.heap, live := if (0 : U64) = 0 then s.live else
      (0, n) :: s.live } L := by
    rw [if_pos rfl]
    exact ho
  rcases eq_or_ne n 0 with rfl | hn0
  · exact ⟨s.heap, 0, L, rfl, rfl, hfail⟩
  · have hord := orderFor_eq hn
    rcases Nat.lt_or_ge 11 (Nat.clog 2 n.toNat) with hbig | hle
    · refine ⟨s.heap, 0, L, ?_, rfl, hfail⟩
      rw [Jeos.kalloc, if_neg hn0, hord, Option.map_some, if_pos (by unfold maxOrder; omega)]
    · rcases kalloc_spec ho.lists hn0 hord hle with
        ⟨hk, -⟩ | ⟨h', L', a, hk, ha0, hal, hL', hd, hc, hag⟩
      · exact ⟨s.heap, 0, L, hk, rfl, hfail⟩
      · have hsub : cover (blocks L') ⊆ cover (blocks L) := hc ▸ Set.subset_union_left
        have hbl : liveBlock (a, n) = blockAt (Nat.clog 2 n.toNat) a := liveBlock_eq hord
        refine ⟨h', a, L', hk, hag.hhdm, ?_⟩
        rw [if_neg ha0]
        refine ⟨hL', hag.hhdm ▸ ho.hhdm, fun q hq => ?_, ?_, fun q hq => ?_, ?_⟩
        · rcases List.mem_cons.1 hq with rfl | hq
          · exact ⟨ha0, hn0, _, hord, hle, hal⟩
          · exact ho.live_ok q hq
        · refine List.pairwise_cons.2 ⟨fun q hq => ?_, ho.live_apart⟩
          rw [hbl]
          exact (ho.live_free q hq).symm.mono_left (hc ▸ Set.subset_union_right)
        · rcases List.mem_cons.1 hq with rfl | hq
          · rwa [hbl]
          · exact (ho.live_free q hq).mono_right hsub
        · have hdon : AllocState.donated { s with heap := h', live := (a, n) :: s.live } =
              s.donated := by
            simp [AllocState.donated, hag.hhdm]
          simp only [List.mem_cons, Set.iUnion_iUnion_eq_or_left, hbl]
          rw [hdon, ← ho.total, ← hc, Set.union_assoc]

theorem Owned.kfree {v n : U64} (ho : Owned s L) (hv : (v, n) ∈ s.live) :
    ∃ h' L', Jeos.kfree s.heap v n = some h' ∧ h'.hhdmOffset = s.heap.hhdmOffset ∧
      Owned { s with heap := h', live := s.live.erase (v, n) } L' := by
  obtain ⟨hv0, hn0, o, hord, ho11, hal⟩ := ho.live_ok _ hv
  have hbl : liveBlock (v, n) = blockAt o v := liveBlock_eq hord
  obtain ⟨h', L', hk, hL', hb, hag⟩ := kfree_spec ho.lists hn0 hord ho11 hal hv0
    (hbl ▸ ho.live_free _ hv)
  have hc : cover (blocks L') = cover (blocks L) ∪ (liveBlock (v, n)).pages := by
    rw [hb, cover_release, hbl]
  have hperm : s.live.Perm ((v, n) :: s.live.erase (v, n)) := List.perm_cons_erase hv
  have hpair := hperm.pairwise ho.live_apart fun h => h.symm
  obtain ⟨hfirst, hrest⟩ := List.pairwise_cons.1 hpair
  have hsub : ∀ q ∈ s.live.erase (v, n), q ∈ s.live := fun q hq => List.mem_of_mem_erase hq
  refine ⟨h', L', hk, hag.hhdm,
    ⟨hL', hag.hhdm ▸ ho.hhdm, fun q hq => ho.live_ok q (hsub q hq), hrest,
    fun q hq => ?_, ?_⟩⟩
  · rw [hc, Set.disjoint_union_right]
    exact ⟨ho.live_free q (hsub q hq), (hfirst q hq).symm⟩
  · have hdon : AllocState.donated { s with heap := h', live := s.live.erase (v, n) } =
        s.donated := by
      simp [AllocState.donated, hag.hhdm]
    have hun : ⋃ q ∈ s.live, (liveBlock q).pages =
        (liveBlock (v, n)).pages ∪ ⋃ q ∈ s.live.erase (v, n), (liveBlock q).pages := by
      simp only [hperm.mem_iff, List.mem_cons, Set.iUnion_iUnion_eq_or_left]
    rw [hdon, ← ho.total, hc, hun, Set.union_assoc]

theorem Owned.poke {x : U64} {b : U8} (ho : Owned s L)
    (hx : ∃ q ∈ s.live, pageOf x / 2 ^ (liveBlock q).order = (liveBlock q).index) :
    Owned { s with heap := { s.heap with mem := Function.update s.heap.mem x b } } L := by
  obtain ⟨q, hq, hxq⟩ := hx
  refine ⟨ho.lists.congr rfl fun y hy => Function.update_of_ne (fun hyx => ?_) _ _, ho.hhdm,
    ho.live_ok, ho.live_apart, ho.live_free, ho.total⟩
  exact Set.disjoint_left.1 (ho.live_free q hq) hxq (hyx ▸ hy)

/-- Every allowed call on mapped ranges returns, but for a `kalloc` of more than
`2 ^ 63` pages, and keeps the invariant. -/
theorem Owned.step (ho : Owned s L) (ha : s.Allowed e)
    (hm : ∀ r, e = .freerange r → r.Mapped s.heap.hhdmOffset)
    (hn : ∀ n, e = .kalloc n → n.toNat ≤ 2 ^ 63) :
    ∃ s' L', s.step e = some s' ∧ s'.heap.hhdmOffset = s.heap.hhdmOffset ∧ Owned s' L' := by
  unfold AllocState.step
  rw [if_pos ha]
  cases e with
  | freerange r =>
    obtain ⟨h', L', hf, hh, ho'⟩ := ho.freerange ha (hm r rfl)
    exact ⟨_, L', by simp only [hf, Option.map_some], hh, ho'⟩
  | kalloc n =>
    obtain ⟨h', a, L', hk, hh, ho'⟩ := ho.kalloc (hn n rfl)
    exact ⟨_, L', by simp only [hk, Option.map_some], hh, ho'⟩
  | kfree v n =>
    obtain ⟨h', L', hk, hh, ho'⟩ := ho.kfree ha
    exact ⟨_, L', by simp only [hk, Option.map_some], hh, ho'⟩
  | poke x b => exact ⟨_, L, rfl, rfl, ho.poke ha⟩

/-- A call that happened was allowed, and was no `kalloc` that does not return. -/
theorem AllocState.allowed_of_step (h : s.step e = some s') :
    s.Allowed e ∧ ∀ n, e = .kalloc n → n.toNat ≤ 2 ^ 63 := by
  unfold AllocState.step at h
  split_ifs at h with ha
  refine ⟨ha, ?_⟩
  rintro n rfl
  by_contra hn
  have h0 : n ≠ 0 := fun h0 => hn (by rw [h0]; exact Nat.zero_le _)
  have hk : Jeos.kalloc s.heap n = none := by
    rw [Jeos.kalloc, if_neg h0, orderFor_eq_none (Nat.lt_of_not_le hn), Option.map_none]
  simp [hk] at h

/-- The invariant holds after every run over mapped ranges. -/
theorem owned_of_run {m : Mem} {hhdm : U64} (hh : 2 ^ 23 ∣ hhdm.toNat) {es : List AllocEvent}
    (hm : ∀ r, .freerange r ∈ es → r.Mapped hhdm)
    (hr : Run.run AllocState.step (AllocState.init m hhdm) es = some s) :
    (∃ L, Owned s L) ∧ s.heap.hhdmOffset = hhdm := by
  refine Run.run_invariant_of (G := fun e => ∀ r, e = .freerange r → r.Mapped hhdm)
    (I := fun t => (∃ L, Owned t L) ∧ t.heap.hhdmOffset = hhdm) (fun t e t' hi hme ht => ?_)
    ⟨⟨_, owned_init m hh⟩, rfl⟩ (fun e he r hre => hm r (by rwa [← hre])) hr
  obtain ⟨⟨L, ho⟩, hhd⟩ := hi
  obtain ⟨ha, hn⟩ := AllocState.allowed_of_step ht
  obtain ⟨t₁, L', ht₁, hhd', ho'⟩ := ho.step ha (fun r hr => hhd ▸ hme r hr) hn
  obtain rfl : t₁ = t' := Option.some.inj (ht₁.symm.trans ht)
  exact ⟨⟨L', ho'⟩, hhd'.trans hhd⟩

/-! ## Every page is owned once -/

theorem mem_listBlocks {b : DyadicBlock} :
    b ∈ listBlocks L ↔ b ∈ blocks L := by
  simp only [listBlocks, List.mem_flatMap, List.mem_range, List.mem_map, maxOrder]
  constructor
  · rintro ⟨o, ho, a, ha, rfl⟩
    exact ⟨Nat.le_of_lt_succ ho, a, ha, rfl⟩
  · rintro ⟨ho, a, ha, he⟩
    exact ⟨b.order, Nat.lt_succ_of_le ho, a, ha, he.symm⟩

theorem FreeLists.listBlocks_pairwise {h : Heap} (hL : FreeLists h L) :
    (listBlocks L).Pairwise fun b c => Disjoint b.pages c.pages := by
  have hdis : ∀ b ∈ blocks L, ∀ c ∈ blocks L, b ≠ c → Disjoint b.pages c.pages :=
    fun b hb c hc hne => hL.tidy.separated hb hc hne
  refine List.pairwise_flatMap.2 ⟨fun o ho => ?_, ?_⟩
  · have ho' : o ≤ 11 := Nat.le_of_lt_succ (List.mem_range.1 ho)
    refine List.pairwise_map.2 ((hL.nodup o ho').imp_of_mem fun {a b} ha hb hne => ?_)
    exact hdis _ (blockAt_mem_blocks ho' ha) _ (blockAt_mem_blocks ho' hb) fun he =>
      hne (eq_of_blockAt_eq (hL.aligned o ho' a ha) (hL.aligned o ho' b hb) he)
  · refine List.pairwise_lt_range.imp_of_mem fun {o o'} ho ho' hlt => ?_
    intro b hb c hc
    obtain ⟨x, hx, rfl⟩ := List.mem_map.1 hb
    obtain ⟨y, hy, rfl⟩ := List.mem_map.1 hc
    refine hdis _ (blockAt_mem_blocks (Nat.le_of_lt_succ (List.mem_range.1 ho)) hx) _
      (blockAt_mem_blocks (Nat.le_of_lt_succ (List.mem_range.1 ho')) hy) fun he => ?_
    exact absurd (congrArg order he) hlt.ne

theorem Owned.owns (ho : Owned s L) : Owns s := by
  refine ⟨L, fun o h => ho.lists.chain o (Nat.le_of_lt_succ h),
    fun o h => ho.lists.aligned o (Nat.le_of_lt_succ h), ?_, ?_⟩
  · refine List.pairwise_append.2 ⟨ho.lists.listBlocks_pairwise,
      List.pairwise_map.2 ho.live_apart, fun b hb c hc => ?_⟩
    obtain ⟨q, hq, rfl⟩ := List.mem_map.1 hc
    exact ((ho.live_free q hq).mono_right (pages_subset_cover (mem_listBlocks.1 hb))).symm
  · rw [← ho.total]
    ext x
    simp only [List.mem_append, mem_listBlocks, List.mem_map, Set.mem_ofPred_eq, Set.mem_union,
      mem_cover, Set.mem_iUnion, exists_prop]
    constructor
    · rintro ⟨b, hb | ⟨q, hq, rfl⟩, hx⟩
      · exact Or.inl ⟨b, hb, hx⟩
      · exact Or.inr ⟨q, hq, hx⟩
    · rintro (⟨b, hb, hx⟩ | ⟨q, hq, hx⟩)
      · exact ⟨b, Or.inl hb, hx⟩
      · exact ⟨_, Or.inr ⟨q, hq, rfl⟩, hx⟩

/-- In every state a run over mapped ranges reaches, each donated page is in exactly
one free or live block, the free blocks are aligned, and the next allowed call
returns unless it asks for more than `2 ^ 63` pages. -/
theorem allocator_ownership (m : Mem) {hhdm : U64} (hh : 2 ^ 23 ∣ hhdm.toNat)
    {es : List AllocEvent} (hm : ∀ r, .freerange r ∈ es → r.Mapped hhdm)
    (hr : Run.run AllocState.step (AllocState.init m hhdm) es = some s) :
    Owns s ∧ ∀ e, s.Allowed e → (∀ r, e = .freerange r → r.Mapped hhdm) →
      (∀ n, e = .kalloc n → n.toNat ≤ 2 ^ 63) → (s.step e).isSome := by
  obtain ⟨⟨L, ho⟩, hhd⟩ := owned_of_run hh hm hr
  refine ⟨ho.owns, fun e ha hme hn => ?_⟩
  obtain ⟨s', L', hs', -⟩ := ho.step ha (fun r hr => hhd ▸ hme r hr) hn
  rw [hs']
  rfl

/-- The higher-half direct map of the boot protocol, and two ranges in it. -/
theorem allocator_ownership_boot :
    ∃ s, Run.run AllocState.step (AllocState.init (fun _ => 0) 0xffff800000000000)
        [.freerange ⟨0x100000, 0x103000, by decide⟩, .kalloc 2, .freerange ⟨0, 0x9f000, by decide⟩] =
        some s ∧ Owns s ∧ (s.step (.kalloc 3)).isSome := by
  have hm : ∀ r, .freerange r ∈ ([.freerange ⟨0x100000, 0x103000, by decide⟩, .kalloc 2,
      .freerange ⟨0, 0x9f000, by decide⟩] : List AllocEvent) → r.Mapped 0xffff800000000000 := by
    intro r hr
    simp only [List.mem_cons, AllocEvent.freerange.injEq, reduceCtorEq, List.not_mem_nil,
      or_false, false_or] at hr
    rcases hr with rfl | rfl <;> exact ⟨by decide, by decide⟩
  have hs : (Run.run AllocState.step (AllocState.init (fun _ => 0) 0xffff800000000000)
      [.freerange ⟨0x100000, 0x103000, by decide⟩, .kalloc 2,
        .freerange ⟨0, 0x9f000, by decide⟩]).isSome := by decide +kernel
  obtain ⟨s, hs⟩ := Option.isSome_iff_exists.1 hs
  obtain ⟨ho, hp⟩ := allocator_ownership (fun _ => 0) (by decide) hm hs
  exact ⟨s, hs, ho, hp _ trivial (by simp) (by rintro n ⟨rfl⟩; decide)⟩

/-- What can be computed of a state : the heads, the `next` word of the page at 0x1000,
and the records of the calls. -/
structure AllocSummary where
  heads : List U64
  next : U64
  hhdmOffset : U64
  live : List (U64 × U64)
  ranges : List PhysRange
  deriving DecidableEq

def AllocState.summary (s : AllocState) : AllocSummary :=
  ⟨(List.range 12).map s.heap.freeLists, load64 s.heap.mem 0x1000, s.heap.hhdmOffset, s.live,
    s.ranges⟩

theorem eq_nil_of_heads {h : Heap} (hh : (List.range 12).map h.freeLists = List.replicate 12 0)
    {o : ℕ} (ho : o < 12) {l : List U64} (hl : runList.Chain h (.head o) l) : l = [] := by
  have hmem : h.freeLists o ∈ (List.range 12).map h.freeLists :=
    List.mem_map_of_mem (List.mem_range.2 ho)
  rw [hh] at hmem
  exact hl.load_eq_null_iff.1 (List.eq_of_mem_replicate hmem)

/-- With `hhdm_offset` 0 the page at address 0 becomes the end of the list it is pushed
on, and the page below it is lost. -/
theorem null_page_loses_pages :
    ∃ s, Run.run AllocState.step (AllocState.init (fun _ => 0) 0)
        [.freerange ⟨0x3000, 0x4000, by decide⟩, .freerange ⟨0, 0x1000, by decide⟩] = some s ∧
      ¬Owns s := by
  have hs : (Run.run AllocState.step (AllocState.init (fun _ => 0) 0)
      [.freerange ⟨0x3000, 0x4000, by decide⟩, .freerange ⟨0, 0x1000, by decide⟩]).map
        AllocState.summary = some ⟨List.replicate 12 0, 0, 0, [],
          [⟨0, 0x1000, by decide⟩, ⟨0x3000, 0x4000, by decide⟩]⟩ := by decide +kernel
  obtain ⟨s, hs, he⟩ := Option.map_eq_some_iff.1 hs
  simp only [AllocState.summary, AllocSummary.mk.injEq] at he
  obtain ⟨hheads, -, hhd, hlive, hranges⟩ := he
  refine ⟨s, hs, ?_⟩
  rintro ⟨L, hL, -, -, hcov⟩
  have hnil : listBlocks L = [] := by
    refine List.flatMap_eq_nil_iff.2 fun o ho => ?_
    have ho' : o < 12 := List.mem_range.1 ho
    rw [eq_nil_of_heads hheads ho' (hL o ho'), List.map_nil]
  have h3 : 3 ∈ s.donated := by
    rw [AllocState.donated, hranges, hhd]
    refine Set.mem_iUnion₂.2 ⟨⟨0x3000, 0x4000, by decide⟩, by simp, 3, ⟨?_, ?_⟩, ?_⟩ <;> decide
  rw [← hcov, hnil, hlive] at h3
  simp at h3

/-! ## The free lists are canonical -/

theorem Owned.cover_eq_freePages (ho : Owned s L) : cover (blocks L) = s.freePages := by
  rw [AllocState.freePages, ← ho.total, Set.union_sdiff_right, eq_comm, sdiff_eq_left]
  exact Set.disjoint_iUnion₂_right.2 fun q hq => (ho.live_free q hq).symm

theorem Owned.onFreeList_iff {o : ℕ} {a : U64} (ho : Owned s L) (h : o ≤ 11) :
    OnFreeList s.heap o a ↔ a ∈ L o := by
  refine ⟨fun ⟨l, hl, ha⟩ => ?_, fun ha => ⟨L o, ho.lists.chain o h, ha⟩⟩
  rwa [(ho.lists.chain o h).eq hl]

/-- The free blocks are the maximal aligned blocks of the free pages. -/
theorem Owned.onFreeList_iff_maximal {o : ℕ} {a : U64} (ho : Owned s L) (h : o ≤ 11) :
    OnFreeList s.heap o a ↔ OrderAligned o a ∧ Maximal 11 s.freePages (blockAt o a) := by
  rw [ho.onFreeList_iff h, ← ho.cover_eq_freePages, ← ho.lists.tidy.mem_iff_maximal]
  exact ⟨fun ha => ⟨ho.lists.aligned o h a ha, blockAt_mem_blocks h ha⟩,
    fun ⟨hal, hb⟩ => ho.lists.mem_of_blockAt_mem hal hb⟩

theorem Owned.not_buddy {o : ℕ} {a : U64} (ho : Owned s L) (h : o < 11)
    (ha : OnFreeList s.heap o a) : ¬OnFreeList s.heap o (a ^^^ (pageSize <<< o)) := by
  rw [ho.onFreeList_iff h.le] at ha ⊢
  intro hb
  have hbb := blockAt_mem_blocks h.le hb
  rw [(blockAt_buddyAddr h.le (ho.lists.aligned o h.le a ha)).2] at hbb
  exact ho.lists.tidy.merged _ (blockAt_mem_blocks h.le ha) h hbb

/-- When `kalloc` returns 0, no aligned block of the requested order is free. -/
theorem Owned.not_free_of_kalloc {n : U64} {h' : Heap} (ho : Owned s L) (hn : n ≠ 0)
    (hn' : n.toNat ≤ 2048) (hk : Jeos.kalloc s.heap n = some (h', 0)) {b : DyadicBlock}
    (hb : orderFor n = some b.order) : ¬b.pages ⊆ s.freePages := by
  have h11 : b.order ≤ 11 := by
    rw [orderFor_eq (by omega), Option.some.injEq] at hb
    rw [← hb]
    exact Nat.clog_le_of_le_pow (by omega)
  rcases kalloc_spec ho.lists hn hb h11 with ⟨-, hnil⟩ | ⟨h₁, L', a, hk', ha, -⟩
  · rw [← ho.cover_eq_freePages]
    intro hs
    obtain ⟨f, ⟨hf, a, ha, -⟩, hbf⟩ := ho.lists.tidy.exists_superset b.order b.index h11 hs
    rw [hnil f.order (order_le_of_pages_subset hbf) hf] at ha
    exact absurd ha List.not_mem_nil
  · rw [hk'] at hk
    exact absurd (congrArg Prod.snd (Option.some.inj hk)) ha

/-- After every run over mapped ranges the free lists hold the maximal aligned blocks of
the free pages, so no two buddies below the top order, and the same blocks after any other
run that leaves these pages free. `kalloc` only fails if no block of its order is free. -/
theorem free_lists_canonical (m : Mem) {hhdm : U64} (hh : 2 ^ 23 ∣ hhdm.toNat)
    {es : List AllocEvent} (hm : ∀ r, .freerange r ∈ es → r.Mapped hhdm)
    (hr : Run.run AllocState.step (AllocState.init m hhdm) es = some s) :
    (∀ o < 11, ∀ a, OnFreeList s.heap o a → ¬OnFreeList s.heap o (a ^^^ (pageSize <<< o))) ∧
    (∀ o ≤ 11, ∀ a, OnFreeList s.heap o a ↔
      OrderAligned o a ∧ Maximal 11 s.freePages (blockAt o a)) ∧
    (∀ m' es' t, (∀ r, .freerange r ∈ es' → r.Mapped hhdm) →
      Run.run AllocState.step (AllocState.init m' hhdm) es' = some t →
      t.freePages = s.freePages →
      ∀ o ≤ 11, ∀ a, OnFreeList t.heap o a ↔ OnFreeList s.heap o a) ∧
    ∀ n h', 1 ≤ n.toNat → n.toNat ≤ 2048 → Jeos.kalloc s.heap n = some (h', 0) →
      ∀ b : DyadicBlock, orderFor n = some b.order → ¬b.pages ⊆ s.freePages := by
  obtain ⟨⟨L, ho⟩, -⟩ := owned_of_run hh hm hr
  refine ⟨fun o h a => ho.not_buddy h, fun o h a => ho.onFreeList_iff_maximal h,
    fun m' es' t hm' hr' hf o h a => ?_, fun n h' hn hn' hk b => ?_⟩
  · obtain ⟨⟨L', ho'⟩, -⟩ := owned_of_run hh hm' hr'
    rw [ho.onFreeList_iff_maximal h, ho'.onFreeList_iff_maximal h, hf]
  · have hn0 : n ≠ 0 := fun e => by simp [e] at hn
    exact ho.not_free_of_kalloc hn0 hn' hk

theorem free_lists_canonical_boot :
    ∃ s, Run.run AllocState.step (AllocState.init (fun _ => 0) 0xffff800000000000)
        [.freerange ⟨0x100000, 0x102000, by decide⟩] = some s ∧
      ∀ o < 11, ∀ a, OnFreeList s.heap o a → ¬OnFreeList s.heap o (a ^^^ (pageSize <<< o)) := by
  have hm : ∀ r, .freerange r ∈ ([.freerange ⟨0x100000, 0x102000, by decide⟩] : List AllocEvent) →
      r.Mapped 0xffff800000000000 := by
    intro r hr
    obtain rfl : r = ⟨0x100000, 0x102000, by decide⟩ := by simpa using hr
    exact ⟨by decide, by decide⟩
  have hs : (Run.run AllocState.step (AllocState.init (fun _ => 0) 0xffff800000000000)
      [.freerange ⟨0x100000, 0x102000, by decide⟩]).isSome := by decide
  obtain ⟨s, hs⟩ := Option.isSome_iff_exists.1 hs
  exact ⟨s, hs, (free_lists_canonical (fun _ => 0) (by decide) hm hs).1⟩

/-- With `hhdm_offset` 0 the same two free pages leave one block or none on the lists. -/
theorem null_page_history :
    ∃ s t, Run.run AllocState.step (AllocState.init (fun _ => 0) 0)
        [.freerange ⟨0x1000, 0x2000, by decide⟩, .freerange ⟨0, 0x1000, by decide⟩] = some s ∧
      Run.run AllocState.step (AllocState.init (fun _ => 0) 0)
        [.freerange ⟨0, 0x1000, by decide⟩, .freerange ⟨0x1000, 0x2000, by decide⟩] = some t ∧
      s.freePages = t.freePages ∧ OnFreeList t.heap 0 0x1000 ∧ ¬OnFreeList s.heap 0 0x1000 := by
  have hs : (Run.run AllocState.step (AllocState.init (fun _ => 0) 0)
      [.freerange ⟨0x1000, 0x2000, by decide⟩, .freerange ⟨0, 0x1000, by decide⟩]).map
        AllocState.summary = some ⟨List.replicate 12 0, 0, 0, [],
          [⟨0, 0x1000, by decide⟩, ⟨0x1000, 0x2000, by decide⟩]⟩ := by decide +kernel
  have ht : (Run.run AllocState.step (AllocState.init (fun _ => 0) 0)
      [.freerange ⟨0, 0x1000, by decide⟩, .freerange ⟨0x1000, 0x2000, by decide⟩]).map
        AllocState.summary = some ⟨0x1000 :: List.replicate 11 0, 0, 0, [],
          [⟨0x1000, 0x2000, by decide⟩, ⟨0, 0x1000, by decide⟩]⟩ := by decide +kernel
  obtain ⟨s, hs, hes⟩ := Option.map_eq_some_iff.1 hs
  obtain ⟨t, ht, het⟩ := Option.map_eq_some_iff.1 ht
  simp only [AllocState.summary, AllocSummary.mk.injEq] at hes het
  obtain ⟨hheads, -, hhd, hlive, hranges⟩ := hes
  obtain ⟨hheads', hnext, hhd', hlive', hranges'⟩ := het
  refine ⟨s, t, hs, ht, ?_, ⟨[0x1000], ?_, by simp⟩, ?_⟩
  · rw [AllocState.freePages, AllocState.freePages, AllocState.donated, AllocState.donated, hlive,
      hlive', hranges, hranges', hhd, hhd']
    simp [Set.union_comm]
  · exact ⟨(List.cons.inj hheads').1, by decide, hnext⟩
  · rintro ⟨l, hl, ha⟩
    rw [eq_nil_of_heads hheads (by decide) hl] at ha
    simp at ha

end Jeos
