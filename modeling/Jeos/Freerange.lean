import Jeos.BuddyOwnership
import Jeos.PagingSpec

/-!
# What `freerange` donates

In any state with intact free lists `freerange` ends and adds to the free pages the pages between the
first address rounded up and the last one rounded down, each once. The lists stay intact, and hold the
maximal aligned blocks of all free pages, so new blocks are merged with the ones donated earlier
(`freerange_exact`).

A page that the direct map shows at address 0 is not added : its pointer ends the list it is put on
(`freerange_null_page`).
-/

namespace Jeos

open ByteMemory DyadicBlock

variable {h : Heap} {L : ℕ → List U64} {s e : U64}

theorem mem_wholePages_iff {s e i : ℕ} :
    i ∈ wholePages s e ↔ (s + 4095) / 4096 ≤ i ∧ i < e / 4096 := by
  rw [wholePages, Set.mem_ofPred_eq]
  omega

/-- Different pages below `2 ^ 64` show in different pages. -/
theorem directPage_injOn {hhdm : U64} (hh : 2 ^ 23 ∣ hhdm.toNat) {e : ℕ} (he : e < 2 ^ 64) :
    Set.InjOn (directPage hhdm) (wholePages s.toNat e) := by
  intro i hi j hj hij
  have h1 := lt_of_mem_wholePages he hi
  have h2 := lt_of_mem_wholePages he hj
  rw [directPage_eq hh, directPage_eq hh] at hij
  omega

/-- The lists hold the maximal aligned blocks of the free pages. -/
theorem FreeLists.onFreeList_iff (hL : FreeLists h L) {o : ℕ} (ho : o ≤ 11) (a : U64) :
    OnFreeList h o a ↔ OrderAligned o a ∧ Maximal 11 h.freePages (blockAt o a) := by
  have hmem : OnFreeList h o a ↔ a ∈ L o :=
    ⟨fun ⟨l, hl, ha⟩ => by rwa [(hL.chain o ho).eq hl], fun ha => ⟨L o, hL.chain o ho, ha⟩⟩
  rw [hmem, hL.freePages_eq, ← hL.tidy.mem_iff_maximal]
  exact ⟨fun ha => ⟨hL.aligned o ho a ha, blockAt_mem_blocks ho ha⟩,
    fun ⟨hal, hb⟩ => hL.mem_of_blockAt_mem hal hb⟩

/-- `freerange` on a range whose pages are not free and do not show at address 0. -/
theorem freerange_exact (hL : FreeLists h L) (hh : 2 ^ 23 ∣ h.hhdmOffset.toNat) (hse : s ≤ e)
    (he : e.toNat + 2 ^ 23 < 2 ^ 64)
    (hnew : ∀ i ∈ wholePages s.toNat e.toNat, directPage h.hhdmOffset i ∉ h.freePages)
    (hnull : ∀ i ∈ wholePages s.toNat e.toNat, directAddr h.hhdmOffset i ≠ 0) :
    ∃ h' L', freerange h s e = some h' ∧ FreeLists h' L' ∧
      h'.freePages = h.freePages ∪ directPage h.hhdmOffset '' wholePages s.toNat e.toNat ∧
      (∀ i, i ∈ wholePages s.toNat e.toNat ↔
        (s.toNat + 4095) / 4096 ≤ i ∧ i < e.toNat / 4096) ∧
      Set.InjOn (directPage h.hhdmOffset) (wholePages s.toNat e.toNat) ∧
      (listBlocks L').Pairwise (fun b c => Disjoint b.pages c.pages) ∧
      (∀ o ≤ 11, ∀ a, OnFreeList h' o a ↔
        OrderAligned o a ∧ Maximal 11 h'.freePages (blockAt o a)) ∧
      h.AgreeOutside h'.freePages h' := by
  rw [hL.freePages_eq] at hnew ⊢
  have hd : Disjoint (directPage h.hhdmOffset '' wholePages s.toNat e.toNat) (cover (blocks L)) := by
    refine Set.disjoint_left.2 ?_
    rintro _ ⟨i, hi, rfl⟩
    exact hnew i hi
  obtain ⟨h', L', hr, hL', hc, hag⟩ := freerange_spec hL hh hse he hnull hd
  rw [← hc, ← hL'.freePages_eq] at hag
  rw [← hc]
  exact ⟨h', L', hr, hL', hL'.freePages_eq, fun i => mem_wholePages_iff,
    directPage_injOn hh e.isLt, hL'.listBlocks_pairwise, fun o ho a => hL'.onFreeList_iff ho a, hag⟩

theorem freeLists_kinit (m : Mem) (hhdm : U64) : FreeLists (kinit m hhdm) fun _ => [] :=
  ⟨fun _ _ => rfl, fun _ _ _ ha => absurd ha List.not_mem_nil, fun _ _ => List.nodup_nil, by
    rw [blocks_nil]
    exact tidy_empty 11⟩

theorem freePages_kinit (m : Mem) (hhdm : U64) : (kinit m hhdm).freePages = ∅ := by
  rw [(freeLists_kinit m hhdm).freePages_eq, blocks_nil, cover, Set.biUnion_empty]

/-- Three pages and a half above the first megabyte, in the direct map of the boot protocol. -/
theorem freerange_exact_boot :
    ∃ h' L', freerange (kinit (fun _ => 0) 0xffff800000000000) 0x100800 0x104000 = some h' ∧
      FreeLists h' L' ∧
      h'.freePages = (kinit (fun _ => 0) 0xffff800000000000).freePages ∪
        directPage 0xffff800000000000 '' wholePages 0x100800 0x104000 := by
  have hnull : ∀ i ∈ wholePages 0x100800 0x104000, directAddr 0xffff800000000000 i ≠ 0 := by
    intro i hi
    rw [mem_wholePages_iff] at hi
    have h1 : (0xffff800000000000 : U64).toNat = 0xffff800000000000 := rfl
    rw [directAddr, h1]
    omega
  obtain ⟨h', L', hr, hL', hfree, -⟩ := freerange_exact (s := 0x100800) (e := 0x104000)
    (freeLists_kinit (fun _ => 0) 0xffff800000000000) (by decide) (by decide) (by decide)
    (fun i _ => by rw [freePages_kinit]; exact Set.notMem_empty _) hnull
  exact ⟨h', L', hr, hL', hfree⟩

/-- With `hhdm_offset` 0, no page is free after page 0 was donated. -/
theorem freerange_null_page : FreeLists (kinit (fun _ => 0) 0) (fun _ => []) ∧
    (kinit (fun _ => 0) 0).freePages = ∅ ∧ ¬∃ h', freerange (kinit (fun _ => 0) 0) 0 0x1000 = some h' ∧
      h'.freePages = directPage 0 '' wholePages 0 0x1000 := by
  refine ⟨freeLists_kinit _ _, freePages_kinit _ _, ?_⟩
  rintro ⟨h', hr, hfree⟩
  have hheads : (freerange (kinit (fun _ => 0) 0) 0 0x1000).map
      (fun h => (List.range 12).map h.freeLists) = some (List.replicate 12 0) := by decide
  rw [hr, Option.map_some, Option.some.injEq] at hheads
  have hzero : 0 ∈ h'.freePages := by
    rw [hfree]
    exact ⟨0, by rw [mem_wholePages_iff]; decide, by decide⟩
  obtain ⟨L, hL, hk⟩ := hzero
  obtain ⟨b, ⟨hb, a, ha, -⟩, -⟩ := mem_cover.1 hk
  rw [eq_nil_of_heads hheads (Nat.lt_succ_of_le hb) (hL.chain _ hb)] at ha
  exact absurd ha List.not_mem_nil

end Jeos
