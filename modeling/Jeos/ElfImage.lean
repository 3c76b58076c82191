import Jeos.LoaderSpec

/-!
# The image of a program

A well-formed ELF64 file has segments in disjoint address ranges below the user stack,
with file ranges inside the file. After `elf_load_segments` the new address space should
show the bytes of each segment from the file, and zeros behind them.

Each segment gets fresh pages for all pages its range touches, and `map_page_pml4`
replaces what was mapped there. So a page that two segments share shows only the later
one, and the image is right exactly when the bytes of the file that are lost this way
are zero (`loaded_iff_noOverlay`).
-/

set_option linter.unusedSectionVars false

namespace Jeos

open ByteMemory TreeWalk

/-! ## User reads of a mapped page -/

theorem offset_toNat (va : U64) : (va &&& ~~~pageFrameMask).toNat = va.toNat % 4096 := by
  rw [show ~~~pageFrameMask = 0xFFF by decide, BitVec.toNat_and]
  exact Nat.and_two_pow_sub_one_eq_mod _ 12

/-- A user access to a page that is shown reads its byte. -/
theorem Shows.userRead {h : Heap} {pml4 va f : U64} {c : ℕ → U8} (hs : Shows h pml4 (vaPath va) f c)
    (hu : UserSpace h pml4) (hf : User f) : userRead h pml4 va = some (c (va.toNat % 4096)) := by
  obtain ⟨n, hn, hl, hfl, hb⟩ := hs
  have hun : User n.pte := by
    rw [user_iff_flags, hfl, User, BitVec.and_comm, BitVec.and_or_distrib_left, BitVec.and_comm]
    exact fun h0 => hf (BitVec.or_eq_zero_iff.1 h0).1
  have hoff : va &&& ~~~pageFrameMask = BitVec.ofNat 64 (va.toNat % 4096) :=
    BitVec.eq_of_toNat_eq (by
      rw [offset_toNat, BitVec.toNat_ofNat]
      omega)
  rw [Jeos.userRead, userAddr, hu.userPte_eq_some.2 ⟨n, hn, hun, rfl⟩, Option.map_some,
    Option.map_some, ← nodeAt_addr hn (vaPath_ne_nil va), hoff,
    hb _ (Nat.mod_lt _ (by norm_num))]

theorem pageDown_toNat (a : U64) : (pageDown a).toNat = a.toNat / 4096 * 4096 :=
  and_pageFrameMask_toNat a

theorem pageUp_toNat {a : U64} (ha : a.toNat + 4096 ≤ 2 ^ 64) :
    (pageUp a).toNat = (a.toNat + 4095) / 4096 * 4096 := by
  have h : (a + pageSize - 1).toNat = a.toNat + 4095 := by
    have h1 : (1 : U64).toNat = 1 := rfl
    rw [BitVec.toNat_sub, BitVec.toNat_add, pageSize_toNat, h1]
    omega
  have := and_pageFrameMask_toNat (a + pageSize - 1)
  rwa [pageOf, h] at this

/-- An address and the start of its page have the same indices. -/
theorem vaPath_pageDown (a : U64) : vaPath (pageDown a) = vaPath a := by
  simp only [vaPath, pml4Index, pdptIndex, pdIndex, ptIndex, index_toNat, pageDown_toNat,
    List.cons.injEq, and_true]
  omega

theorem pagesFrom_pairwise (start stop : U64) : (pagesFrom start stop).Pairwise (· < ·) :=
  Loop.values_pairwise (show 0 < pageSize.toNat by decide)

/-- The last page mapped at a path is the one that is shown. -/
theorem imageOf_of_last {pre post : List PageReq} {p : PageReq}
    (h : ∀ y ∈ post, vaPath y.va ≠ vaPath p.va) :
    imageOf (pre ++ p :: post) (vaPath p.va) = some (p.flags, p.bytes) := by
  induction post using List.reverseRecOn with
  | nil => rw [imageOf_concat, Function.update_self]
  | append_singleton post y ih =>
    rw [← List.cons_append, ← List.append_assoc, imageOf_concat,
      Function.update_of_ne (h y (by simp)).symm]
    exact ih fun z hz => h z (by simp [hz])

/-! ## Well-formed files -/

namespace Elf

open LoadState

/-- `phdr[i]` is a segment to load. -/
def Segment (elf : Mem) (i : ℕ) : Prop := i < (ePhnum elf).toNat ∧ pType elf i = ptLoad

/-- The addresses of a segment. -/
def segRange (elf : Mem) (i : ℕ) : Set ℕ :=
  Set.Ico (pVaddr elf i).toNat ((pVaddr elf i).toNat + (pMemsz elf i).toNat)

/-- An ELF64 x86-64 file of `size` bytes with disjoint segments below the user stack. -/
structure WellFormed (elf : Mem) (size : U64) : Prop where
  isElf : IsElf64 elf
  filesz_le : ∀ i, Segment elf i → (pFilesz elf i).toNat ≤ (pMemsz elf i).toNat
  inFile : ∀ i, Segment elf i → (pOffset elf i).toNat + (pFilesz elf i).toNat ≤ size.toNat
  low : ∀ i, Segment elf i →
    (pVaddr elf i).toNat + (pMemsz elf i).toNat ≤ userStackBase.toNat
  disjoint : ∀ i j, Segment elf i → Segment elf j → i ≠ j →
    Disjoint (segRange elf i) (segRange elf j)

/-- Byte `k` of a segment : from the file, or zero. -/
def imageByte (elf : Mem) (i k : ℕ) : U8 :=
  if k < (pFilesz elf i).toNat then elf (pOffset elf i + BitVec.ofNat 64 k) else 0

/-- The address space shows the bytes of every segment. -/
def Loaded (elf : Mem) (h : Heap) (pml4 : U64) : Prop :=
  ∀ i, Segment elf i → ∀ k < (pMemsz elf i).toNat,
    userRead h pml4 (pVaddr elf i + BitVec.ofNat 64 k) = some (imageByte elf i k)

/-- The bytes of the file in pages that a later segment touches too are zero. -/
def NoOverlay (elf : Mem) : Prop :=
  ∀ i j, Segment elf i → Segment elf j → i < j → ∀ k < (pFilesz elf i).toNat,
    pageDown (pVaddr elf i + BitVec.ofNat 64 k) ∈ segPages elf j →
      elf (pOffset elf i + BitVec.ofNat 64 k) = 0

section Plan

variable {elf : Mem} {size va : U64} {i j k : ℕ}

theorem segPages_of (hs : Segment elf i) : segPages elf i =
    pagesFrom (pageDown (pVaddr elf i)) (pageUp (pVaddr elf i + pMemsz elf i)) := if_pos hs.2

theorem segment_of_mem (hi : i < (ePhnum elf).toNat) (h : va ∈ segPages elf i) :
    Segment elf i := by
  refine ⟨hi, ?_⟩
  by_contra ht
  rw [segPages, if_neg ht] at h
  exact List.not_mem_nil h

theorem aligned_of_mem_segPages (h : va ∈ segPages elf i) : PageAligned va := by
  unfold segPages at h
  split_ifs at h
  · exact aligned_of_mem_pagesFrom (pageAligned_pageDown _) h
  · exact absurd h List.not_mem_nil

/-- No page of a segment is the last page of the address space. -/
theorem lt_of_mem_segPages (h : va ∈ segPages elf i) : va.toNat + 4096 < 2 ^ 64 := by
  have hal := aligned_of_mem_segPages h
  unfold segPages at h
  split_ifs at h
  · obtain ⟨-, -, hlt⟩ := mem_pagesFrom.1 h
    have := BitVec.lt_def.1 hlt
    have := (pageAligned_pageUp (pVaddr elf i + pMemsz elf i)).add_le
    omega
  · exact absurd h List.not_mem_nil

theorem flagBits_segFlags (elf : Mem) (i : ℕ) : FlagBits (segFlags elf i) := by
  unfold segFlags
  split_ifs <;> decide

theorem user_segFlags (elf : Mem) (i : ℕ) : User (segFlags elf i) := by
  unfold segFlags
  split_ifs <;> decide

theorem mem_stackPages : va ∈ stackPages → userStackBase.toNat ≤ va.toNat ∧
    va.toNat < 2 ^ 39 := by
  intro h
  obtain ⟨i, hi, hlt⟩ := mem_pagesFrom.1 h
  have := BitVec.lt_def.1 hlt
  have hb : (userStackTop + pageSize).toNat = 2 ^ 39 := by decide
  omega

theorem zeroReq_ok (hva : pml4Index va < 256) : (zeroReq va).Ok :=
  ⟨hva, show FlagBits (pteUser ||| pteWrite) by decide,
    show User (pteUser ||| pteWrite) by decide,
    ⟨fun _ _ => rfl, fun _ _ => rfl, fun _ _ _ _ _ => rfl, fun _ _ _ hz => hz⟩⟩

/-- Every mapped page is in the user half, and every copy stays in its page. -/
structure Tame (elf : Mem) : Prop where
  user : ∀ i < (ePhnum elf).toNat, ∀ va ∈ segPages elf i, pml4Index va < 256
  copies : ∀ i < (ePhnum elf).toNat, ∀ va ∈ segPages elf i, HasFileBytes elf i va →
    (copyTarget elf i va).Below pageSize

theorem Tame.plan_ok (ht : Tame elf) : ∀ p ∈ elfPlan elf, p.Ok := by
  intro p hp
  rcases List.mem_append.1 hp with hp | hp
  · obtain ⟨i, hi, hp⟩ := List.mem_flatMap.1 hp
    obtain ⟨va, hva, rfl⟩ := List.mem_map.1 hp
    rw [List.mem_range] at hi
    have hf := fills_copyFile (lt_of_mem_segPages hva) (ht.copies i hi va hva)
    refine ⟨ht.user i hi va hva, flagBits_segFlags elf i, user_segFlags elf i, ?_⟩
    dsimp only [segReq]
    exact hf
  · obtain ⟨va, hva, rfl⟩ := List.mem_map.1 hp
    have := mem_stackPages hva
    exact zeroReq_ok (pml4Index_lt (by omega))

/-! ## The page that is shown -/

/-- The pages of a segment that ends below the user stack are below it. -/
theorem lt_base_of_low (hi : Segment elf i)
    (hlow : (pVaddr elf i).toNat + (pMemsz elf i).toNat ≤ userStackBase.toNat)
    (h : va ∈ segPages elf i) : va.toNat < userStackBase.toNat := by
  rw [segPages_of hi] at h
  obtain ⟨-, -, hlt⟩ := mem_pagesFrom.1 h
  have hb : userStackBase.toNat = 549755805696 := rfl
  have hx : (pVaddr elf i + pMemsz elf i).toNat =
      (pVaddr elf i).toNat + (pMemsz elf i).toNat := by
    rw [BitVec.toNat_add, Nat.mod_eq_of_lt (by omega)]
  have hlt := BitVec.lt_def.1 hlt
  rw [pageUp_toNat (by omega), hx] at hlt
  omega

theorem WellFormed.lt_base (wf : WellFormed elf size) (hi : Segment elf i)
    (h : va ∈ segPages elf i) : va.toNat < userStackBase.toNat :=
  lt_base_of_low hi (wf.low i hi) h

theorem WellFormed.segFileEnd_toNat (wf : WellFormed elf size) (hi : Segment elf i) :
    (segFileEnd elf i).toNat = (pVaddr elf i).toNat + (pFilesz elf i).toNat := by
  have hlow := wf.low i hi
  have hle := wf.filesz_le i hi
  have hb : userStackBase.toNat = 549755805696 := rfl
  rw [segFileEnd, BitVec.toNat_add, Nat.mod_eq_of_lt (by omega)]

theorem WellFormed.tame (wf : WellFormed elf size) : Tame elf := by
  have hb : userStackBase.toNat = 549755805696 := rfl
  refine ⟨fun i hi va hva => pml4Index_lt ?_, fun i hi va hva hf => ?_⟩
  · have := wf.lt_base (segment_of_mem hi hva) hva
    omega
  · rw [copyTarget_below_iff (lt_of_mem_segPages hva) hf,
      wf.segFileEnd_toNat (segment_of_mem hi hva)]
    exact Nat.le_add_right _ _

/-- Byte `k` of a segment. -/
theorem WellFormed.addr_toNat (wf : WellFormed elf size) (hi : Segment elf i)
    (hk : k < (pMemsz elf i).toNat) :
    (pVaddr elf i + BitVec.ofNat 64 k).toNat = (pVaddr elf i).toNat + k := by
  have hlow := wf.low i hi
  have hb : userStackBase.toNat = 549755805696 := rfl
  rw [BitVec.toNat_add, BitVec.toNat_ofNat, Nat.add_mod_mod, Nat.mod_eq_of_lt (by omega)]

theorem WellFormed.mem_segPages (wf : WellFormed elf size) (hi : Segment elf i)
    (hk : k < (pMemsz elf i).toNat) :
    pageDown (pVaddr elf i + BitVec.ofNat 64 k) ∈ segPages elf i := by
  have ha := wf.addr_toNat hi hk
  have hlow := wf.low i hi
  have hb : userStackBase.toNat = 549755805696 := rfl
  have hx : (pVaddr elf i + pMemsz elf i).toNat =
      (pVaddr elf i).toNat + (pMemsz elf i).toNat := by
    rw [BitVec.toNat_add, Nat.mod_eq_of_lt (by omega)]
  rw [segPages_of hi, mem_pagesFrom, BitVec.lt_def, pageUp_toNat (by omega), hx, pageDown_toNat,
    pageDown_toNat, ha]
  exact ⟨((pVaddr elf i).toNat + k) / 4096 - (pVaddr elf i).toNat / 4096, by omega, by omega⟩

/-- The last segment that touches a page. -/
theorem exists_last_segment (hi : i < (ePhnum elf).toNat) (h : va ∈ segPages elf i) :
    ∃ j, i ≤ j ∧ j < (ePhnum elf).toNat ∧ va ∈ segPages elf j ∧
      ∀ j', j < j' → j' < (ePhnum elf).toNat → va ∉ segPages elf j' := by
  have hi' : i ≤ (ePhnum elf).toNat - 1 := by omega
  have hle := Nat.findGreatest_le (P := fun j => va ∈ segPages elf j) ((ePhnum elf).toNat - 1)
  refine ⟨Nat.findGreatest (fun j => va ∈ segPages elf j) ((ePhnum elf).toNat - 1),
    Nat.le_findGreatest hi' h, by omega,
    Nat.findGreatest_spec (P := fun j => va ∈ segPages elf j) hi' h, fun j' hj hj' => ?_⟩
  exact Nat.findGreatest_is_greatest hj (by omega)

/-- The plan shows at each page the last segment that touches it. -/
theorem WellFormed.imageOf_plan (wf : WellFormed elf size) (hj : j < (ePhnum elf).toNat)
    (hva : va ∈ segPages elf j)
    (hlast : ∀ j', j < j' → j' < (ePhnum elf).toNat → va ∉ segPages elf j') :
    imageOf (elfPlan elf) (vaPath va) = some (segFlags elf j, segByte elf j va) := by
  have hb : userStackBase.toNat = 549755805696 := rfl
  have hlow := wf.lt_base (segment_of_mem hj hva) hva
  obtain ⟨is, is', his⟩ := List.append_of_mem (List.mem_range.2 hj)
  obtain ⟨us, ws, hus⟩ := List.append_of_mem hva
  -- What comes after the page in the plan is at other pages.
  have hafter : ∀ j' ∈ is', j < j' ∧ j' < (ePhnum elf).toNat := fun j' hj' => by
    have hp := List.pairwise_lt_range (n := (ePhnum elf).toNat)
    have hm : j' ∈ List.range (ePhnum elf).toNat := by simp [his, hj']
    rw [his, List.pairwise_append, List.pairwise_cons] at hp
    exact ⟨hp.2.1.1 j' hj', List.mem_range.1 hm⟩
  have hws : ∀ w ∈ ws, va < w ∧ w ∈ segPages elf j := fun w hw => by
    have hp := pagesFrom_pairwise (pageDown (pVaddr elf j)) (pageUp (pVaddr elf j + pMemsz elf j))
    rw [← segPages_of (segment_of_mem hj hva), hus, List.pairwise_append,
      List.pairwise_cons] at hp
    exact ⟨hp.2.1.1 w hw, by simp [hus, hw]⟩
  have hne : ∀ w, PageAligned w → w.toNat < 2 ^ 48 → w ≠ va → vaPath w ≠ vaPath va :=
    fun w hw hlt hne he => hne (eq_of_pageOf_eq hw (aligned_of_mem_segPages hva)
      (pageOf_eq_of_vaPath_eq hlt (by omega) he))
  rw [elfPlan, his, List.flatMap_append, List.flatMap_cons, hus, List.map_append, List.map_cons,
    List.append_assoc, List.append_assoc, List.append_assoc, ← List.append_assoc, List.cons_append]
  refine imageOf_of_last (p := segReq elf j va) fun y hy => ?_
  rcases List.mem_append.1 hy with hy | hy
  · obtain ⟨w, hw, rfl⟩ := List.mem_map.1 hy
    obtain ⟨hlt, hmem⟩ := hws w hw
    have := wf.lt_base (segment_of_mem hj hmem) hmem
    refine hne w (aligned_of_mem_segPages hmem) (by omega) ?_
    rintro rfl
    exact Nat.lt_irrefl _ (BitVec.lt_def.1 hlt)
  rcases List.mem_append.1 hy with hy | hy
  · obtain ⟨j', hj', hy⟩ := List.mem_flatMap.1 hy
    obtain ⟨w, hw, rfl⟩ := List.mem_map.1 hy
    obtain ⟨hlt, hn⟩ := hafter j' hj'
    have := wf.lt_base (segment_of_mem hn hw) hw
    refine hne w (aligned_of_mem_segPages hw) (by omega) ?_
    rintro rfl
    exact hlast j' hlt hn hw
  · obtain ⟨w, hw, rfl⟩ := List.mem_map.1 hy
    have := mem_stackPages hw
    refine hne w (aligned_of_mem_pagesFrom (by decide) hw) (by omega) ?_
    rintro rfl
    omega

/-- The byte of a segment that its own page shows. -/
theorem WellFormed.segByte_eq (wf : WellFormed elf size) (hi : Segment elf i)
    (hk : k < (pMemsz elf i).toNat) :
    segByte elf i (pageDown (pVaddr elf i + BitVec.ofNat 64 k))
      ((pVaddr elf i + BitVec.ofNat 64 k).toNat % 4096) = imageByte elf i k := by
  have ha := wf.addr_toNat hi hk
  have hend := wf.segFileEnd_toNat hi
  have hlow := wf.low i hi
  have hb : userStackBase.toNat = 549755805696 := rfl
  have hva : pageDown (pVaddr elf i + BitVec.ofNat 64 k) +
      BitVec.ofNat 64 ((pVaddr elf i + BitVec.ofNat 64 k).toNat % 4096) - pVaddr elf i =
        BitVec.ofNat 64 k := by
    refine BitVec.eq_of_toNat_eq ?_
    rw [BitVec.toNat_sub, BitVec.toNat_add, pageDown_toNat, BitVec.toNat_ofNat, ha,
      BitVec.toNat_ofNat]
    omega
  rw [segByte, imageByte, hva, pageDown_toNat, ha, hend]
  by_cases hf : k < (pFilesz elf i).toNat
  · rw [if_pos hf, if_pos ⟨by omega, by omega⟩]
  · rw [if_neg hf, if_neg fun h => hf (by omega)]

/-- A page of another segment shows zero at the address of a byte of a segment. -/
theorem WellFormed.segByte_eq_zero (wf : WellFormed elf size) (hi : Segment elf i)
    (hj : Segment elf j) (hij : i ≠ j) (hk : k < (pMemsz elf i).toNat) :
    segByte elf j (pageDown (pVaddr elf i + BitVec.ofNat 64 k))
      ((pVaddr elf i + BitVec.ofNat 64 k).toNat % 4096) = 0 := by
  have ha := wf.addr_toNat hi hk
  have hend := wf.segFileEnd_toNat hj
  have hle := wf.filesz_le j hj
  rw [segByte, pageDown_toNat, ha, hend, if_neg]
  rintro ⟨h1, h2⟩
  refine Set.disjoint_left.1 (wf.disjoint i j hi hj hij)
    (show (pVaddr elf i).toNat + k ∈ segRange elf i from ⟨by omega, by omega⟩) ⟨?_, ?_⟩ <;> omega

/-- What a user access to a byte of a segment reads : the byte of the last segment that touches
its page. -/
theorem WellFormed.userRead_eq {h₀ h : Heap} {pml4 : U64} (wf : WellFormed elf size)
    (hm : Mapped h₀ h pml4 (imageOf (elfPlan elf))) (hi : Segment elf i)
    (hk : k < (pMemsz elf i).toNat) :
    ∃ j, i ≤ j ∧ Segment elf j ∧
      pageDown (pVaddr elf i + BitVec.ofNat 64 k) ∈ segPages elf j ∧
      (∀ j', j < j' → j' < (ePhnum elf).toNat →
        pageDown (pVaddr elf i + BitVec.ofNat 64 k) ∉ segPages elf j') ∧
      userRead h pml4 (pVaddr elf i + BitVec.ofNat 64 k) =
        some (if j = i then imageByte elf i k else 0) := by
  obtain ⟨j, hij, hj, hmem, hlast⟩ := exists_last_segment hi.1 (wf.mem_segPages hi hk)
  have hsj := segment_of_mem hj hmem
  refine ⟨j, hij, hsj, hmem, hlast, ?_⟩
  have hshow := hm.shows _ _ _ (wf.imageOf_plan hj hmem hlast)
  rw [vaPath_pageDown] at hshow
  rw [hshow.userRead hm.own.space (user_segFlags elf j)]
  split_ifs with he
  · subst he
    rw [wf.segByte_eq hi hk]
  · rw [wf.segByte_eq_zero hi hsj (Ne.symm he) hk]

/-- The image is right exactly when no later segment covers a nonzero byte of the file. -/
theorem WellFormed.loaded_iff {h₀ h : Heap} {pml4 : U64} (wf : WellFormed elf size)
    (hm : Mapped h₀ h pml4 (imageOf (elfPlan elf))) : Loaded elf h pml4 ↔ NoOverlay elf := by
  constructor
  · intro hl i j hi hj hij k hk hmem
    have hk' := hk.trans_le (wf.filesz_le i hi)
    obtain ⟨j', -, -, -, hlast, hread⟩ := wf.userRead_eq hm hi hk'
    have hne : j' ≠ i := by
      rintro rfl
      exact hlast j hij hj.1 hmem
    have h0 := Option.some.inj ((hl i hi k hk').symm.trans hread)
    rwa [if_neg hne, imageByte, if_pos hk] at h0
  · intro hno i hi k hk
    obtain ⟨j, hij, hj, hmem, -, hread⟩ := wf.userRead_eq hm hi hk
    rw [hread]
    split_ifs with he
    · rfl
    · rw [imageByte]
      split_ifs with hf
      · rw [hno i j hi hj (by omega) k hf hmem]
      · rfl

/-- When no `kalloc` fails, the loader returns 0 with the entry point of the file, and every page
of the plan is mapped. -/
theorem Tame.load {s : LoadState} {pml4 : U64} (ht : Tame elf) (he : IsElf64 elf)
    (ho : OwnTree s.map.heap pml4) (n : U64) :
    ∃ s' r, elfLoadSegments s pml4 elf n = some (s', r) ∧
      (s'.map.pagesOk = true → s'.map.tablesOk = true → r = some (eEntry elf) ∧
        Mapped s.map.heap s'.map.heap pml4 (imageOf (elfPlan elf))) := by
  obtain ⟨s', r, hr, hm⟩ := exists_elfLoadSegments he pml4 n s
  refine ⟨s', r, hr, fun hpages htables => ?_⟩
  have hgo := MapState.mapAll_pagesOk hm hpages
  obtain ⟨e, rfl⟩ := Option.isSome_iff_exists.1 hgo
  obtain ⟨pre, -, hpre, hmap⟩ := MapState.mapAll_spec ho ht.plan_ok hm htables
  obtain rfl := hpre rfl
  exact ⟨congrArg some (elfLoadSegments_entry he hr), hmap⟩

/-- With four free pages for each page of the plan no `kalloc` fails. -/
theorem Tame.load_ok {s s' : LoadState} {pml4 n : U64} {r : Option U64} (ht : Tame elf)
    (he : IsElf64 elf) (ho : OwnTree s.map.heap pml4)
    (hc : 4 * (elfPlan elf).length ≤ s.map.heap.freePages.ncard) (hpages : s.map.pagesOk = true)
    (htables : s.map.tablesOk = true) (hr : elfLoadSegments s pml4 elf n = some (s', r)) :
    s'.map.pagesOk = true ∧ s'.map.tablesOk = true := by
  obtain ⟨t, r', hr', hm⟩ := exists_elfLoadSegments he pml4 n s
  obtain ⟨rfl, rfl⟩ := Prod.mk.inj (Option.some.inj (hr.symm.trans hr'))
  exact MapState.mapAll_ok ho ht.plan_ok hc hpages htables hm

/-- When no `kalloc` fails, the loader returns 0, and the image is right exactly when no later
segment covers a nonzero byte of the file. -/
theorem loaded_iff_noOverlay {s : LoadState} {pml4 : U64} (wf : WellFormed elf size)
    (ho : OwnTree s.map.heap pml4) :
    ∃ s' r, elfLoadSegments s pml4 elf size = some (s', r) ∧
      (s'.map.pagesOk = true → s'.map.tablesOk = true →
        r = some (eEntry elf) ∧ (Loaded elf s'.map.heap pml4 ↔ NoOverlay elf)) := by
  obtain ⟨s', r, hr, hload⟩ := wf.tame.load wf.isElf ho size
  refine ⟨s', r, hr, fun hpages htables => ?_⟩
  obtain ⟨hret, hm⟩ := hload hpages htables
  exact ⟨hret, wf.loaded_iff hm⟩

end Plan

/-! ## A page that two segments share -/

/-- `v` in `n` bytes, the lowest first. -/
def leBytes (v n : ℕ) : List U8 := (List.range n).map fun i => BitVec.ofNat 8 (v >>> (8 * i))

/-- The bytes of a packed structure with these values. -/
def packed (fs : List CType) (vs : List ℕ) : List U8 :=
  (fs.zip vs).flatMap fun (t, v) => leBytes v t.size

/-- An ELF64 x86-64 file with these program headers, and `data` behind them. -/
def elfFile (phdrs : List (List ℕ)) (data : List U8) : List U8 :=
  packed ehdr [0x464C457F, 2, 1, 1, 0, 0, 2, 62, 1, 0x400000, 64, 0, 0, 64, 56, phdrs.length,
    0, 0, 0] ++ phdrs.flatMap (packed phdr) ++ data

/-- The memory behind `elf_buf` when the file has the bytes `bs`. -/
def bufOf (bs : List U8) : Mem := fun a => bs.getD a.toNat 0

/-- Two segments of one byte in the page at `0x400000`. -/
def sharedPage : List U8 :=
  elfFile [[1, 7, 176, 0x400000, 0x400000, 1, 1, 4096],
    [1, 7, 177, 0x400800, 0x400800, 1, 1, 4096]] [0xCC, 0x90]

theorem sharedPage_wellFormed : WellFormed (bufOf sharedPage) 178 := by
  have hall : ∀ i < (ePhnum (bufOf sharedPage)).toNat,
      (pFilesz (bufOf sharedPage) i).toNat ≤ (pMemsz (bufOf sharedPage) i).toNat ∧
      (pOffset (bufOf sharedPage) i).toNat + (pFilesz (bufOf sharedPage) i).toNat ≤ 178 ∧
      (pVaddr (bufOf sharedPage) i).toNat = 0x400000 + 0x800 * i ∧
      (pMemsz (bufOf sharedPage) i).toNat = 1 ∧ i < 2 := by decide +kernel
  have hb : userStackBase.toNat = 549755805696 := rfl
  refine ⟨by decide +kernel, fun i hi => (hall i hi.1).1, fun i hi => (hall i hi.1).2.1,
    fun i hi => ?_, fun i j hi hj hij => ?_⟩
  · obtain ⟨-, -, hv, hm, hlt⟩ := hall i hi.1
    omega
  · obtain ⟨-, -, hvi, hmi, -⟩ := hall i hi.1
    obtain ⟨-, -, hvj, hmj, -⟩ := hall j hj.1
    refine Set.disjoint_left.2 fun x hx hx' => hij ?_
    obtain ⟨h1, h2⟩ := hx
    obtain ⟨h3, h4⟩ := hx'
    omega

/-- The byte at `0x400000` is `0xCC` in the file, and zero after the load. -/
theorem sharedPage_not_loaded : ∃ h₀ t pml4 s,
    freerange (kinit (fun _ => 0) 0xffff800000000000) 0x100000 0x111000 = some h₀ ∧
    PagingState.createUserPml4 ⟨h₀, true⟩ 0 = some (t, pml4) ∧
    elfLoadSegments ⟨⟨t.heap, true, true⟩, [], []⟩ pml4 (bufOf sharedPage) 178 =
      some (s, some 0x400000) ∧
    s.map.pagesOk = true ∧ s.map.tablesOk = true ∧
    imageByte (bufOf sharedPage) 0 0 = 0xCC ∧ userRead s.map.heap pml4 0x400000 = some 0 ∧
    ¬Loaded (bufOf sharedPage) s.map.heap pml4 := by
  obtain ⟨h₀, t, pml4, hboot, hnew, -, hn, hcard, -⟩ := exists_new_space (n := 16) (by norm_num)
  have wf := sharedPage_wellFormed
  have ht := wf.tame
  have hseg : Segment (bufOf sharedPage) 0 := by
    unfold Segment
    decide +kernel
  obtain ⟨s, r, hr, hload⟩ := ht.load (s := ⟨⟨t.heap, true, true⟩, [], []⟩) wf.isElf hn.ownTree 178
  obtain ⟨hp, hk⟩ := ht.load_ok (s := ⟨⟨t.heap, true, true⟩, [], []⟩) wf.isElf hn.ownTree
    (hcard.ge.trans' (by decide +kernel)) rfl rfl hr
  obtain ⟨rfl, hm⟩ := hload hp hk
  obtain ⟨j, -, -, -, hlast, hread⟩ := wf.userRead_eq hm hseg (k := 0) (by decide +kernel)
  have hva : pVaddr (bufOf sharedPage) 0 + BitVec.ofNat 64 0 = 0x400000 := by decide +kernel
  have hne : j ≠ 0 := by
    rintro rfl
    exact hlast 1 Nat.one_pos (by decide +kernel) (by decide +kernel)
  rw [hva, if_neg hne] at hread
  have hbyte : imageByte (bufOf sharedPage) 0 0 = 0xCC := by decide +kernel
  refine ⟨h₀, t, pml4, s, hboot, hnew, ?_, hp, hk, hbyte, hread, fun hl => ?_⟩
  · rw [hr]
    congr 2
    decide +kernel
  · have h0 := hl 0 hseg 0 (by decide +kernel)
    rw [hva, hread, hbyte] at h0
    exact absurd h0 (by decide)

/-- The theorem at the file with the shared page. -/
theorem loaded_iff_noOverlay_sharedPage : ∃ t pml4 s r, OwnTree t pml4 ∧
    elfLoadSegments ⟨⟨t, true, true⟩, [], []⟩ pml4 (bufOf sharedPage) 178 = some (s, r) ∧
    s.map.pagesOk = true ∧ s.map.tablesOk = true ∧
    (Loaded (bufOf sharedPage) s.map.heap pml4 ↔ NoOverlay (bufOf sharedPage)) := by
  obtain ⟨h₀, t, pml4, -, -, -, hn, hcard, -⟩ := exists_new_space (n := 16) (by norm_num)
  have wf := sharedPage_wellFormed
  obtain ⟨s, r, hr, hload⟩ := loaded_iff_noOverlay (s := ⟨⟨t.heap, true, true⟩, [], []⟩) wf
    hn.ownTree
  obtain ⟨hp, hk⟩ := wf.tame.load_ok (s := ⟨⟨t.heap, true, true⟩, [], []⟩) wf.isElf hn.ownTree
    (hcard.ge.trans' (by decide +kernel)) rfl rfl hr
  exact ⟨t.heap, pml4, s, r, hn.ownTree, hr, hp, hk, (hload hp hk).2⟩

end Elf

end Jeos
