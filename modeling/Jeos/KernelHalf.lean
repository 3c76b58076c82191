import Jeos.ElfImage
import Jeos.Mapping

/-!
# The kernel half under the loader

All address spaces share the tables of the kernel half by pointer : `create_user_pml4`
copies the entries 256 to 511 of the top table. `elf_load_segments` takes the addresses of
a segment from the file and does not look at them.

`translation` is what the processor finds for an address, large pages included. When all
pages of the file are in the user half, every copy stays in its page and `map_page_pml4`
gets the tables it asks for, no translation in the kernel half changes, in no address
space, whether the loader succeeds or the caller tears the new space down
(`kernelHalf_unchanged`).
-/

set_option linter.unusedSectionVars false

namespace Jeos

open ByteMemory TreeWalk

/-! ## Translation -/

/-- Bit 7 of an entry of level 3 or 2 : the entry maps a large page. -/
def ptePs : U64 := 0x80

/-- The walk ends at the entry `e`, with `below` levels of tables left. -/
def IsLeaf (e : U64) (below : ℕ) : Prop := below = 0 ∨ below < 3 ∧ e &&& ptePs ≠ 0

instance (e : U64) (below : ℕ) : Decidable (IsLeaf e below) :=
  inferInstanceAs (Decidable (_ ∨ _))

/-- The walk from the table `t` for the indices `is` : how many levels are left at the entry that
maps the page, the entry, and the rights all entries of the walk grant. -/
def translateFrom (h : Heap) : List ℕ → U64 → U64 → Option (ℕ × U64 × U64)
  | [], _, _ => none
  | i :: is, t, rights =>
    let e := h.entry t i
    if ¬Present e then none
    else if IsLeaf e is.length then some (is.length, e, rights &&& e)
    else translateFrom h is (h.pteAddr e) (rights &&& e)

/-- Frame and flags of an address in the address space with the top table `root`. -/
def translation (h : Heap) (root va : U64) : Option (ℕ × U64 × U64) :=
  translateFrom h (vaPath va) root (-1)

/-- The tables the walk reads after the first one. -/
def tablesBelow (h : Heap) : List ℕ → U64 → List U64
  | [], _ => []
  | i :: is, t =>
    let e := h.entry t i
    if Present e ∧ ¬IsLeaf e is.length then h.pteAddr e :: tablesBelow h is (h.pteAddr e) else []

/-- The kernel half is the same for the top table `root`. -/
def SameKernelHalf (root : U64) (h h' : Heap) : Prop :=
  ∀ va, KernelIndex (pml4Index va) → translation h' root va = translation h root va

/-- The tables of the kernel half below `root` are in use and do not belong to the user half of
`pml4`, and neither does `root` unless it is `pml4`. -/
structure KernelHalf (h : Heap) (pml4 root : U64) : Prop where
  top : root ≠ pml4 → PageAligned root ∧ pageOf root ∉ h.freePages ∪ spacePages h pml4
  tables : ∀ va, KernelIndex (pml4Index va) → ∀ t ∈ tablesBelow h (vaPath va) root,
    pageOf t ∉ h.freePages ∪ spacePages h pml4

/-- The entries of the kernel half in the top table stay. -/
def KeepsKernel (pml4 : U64) (h h' : Heap) : Prop :=
  ∀ j, KernelIndex j → h'.entry pml4 j = h.entry pml4 j

section Translation

variable {h h' : Heap} {pml4 root t : U64} {is : List ℕ}

theorem index_lt_of_mem_vaPath {va : U64} {i : ℕ} (hi : i ∈ vaPath va) : i < 512 := by
  simp only [vaPath, List.mem_cons, List.not_mem_nil, or_false] at hi
  rcases hi with rfl | rfl | rfl | rfl
  · exact index_lt va 39
  · exact index_lt va 30
  · exact index_lt va 21
  · exact index_lt va 12

/-- The walk depends on the entry it starts with and on the tables below. -/
theorem walk_congr_below (hh : PageAligned h.hhdmOffset) (hd : h'.hhdmOffset = h.hhdmOffset) :
    ∀ (is : List ℕ) (t t' rights : U64), (∀ i ∈ is, i < 512) →
      (∀ i ∈ is.head?, h'.entry t' i = h.entry t i) →
      (∀ u ∈ tablesBelow h is t, ∀ x, pageOf x = pageOf u → h'.mem x = h.mem x) →
      translateFrom h' is t' rights = translateFrom h is t rights ∧
        tablesBelow h' is t' = tablesBelow h is t
  | [], _, _, _, _, _, _ => ⟨rfl, rfl⟩
  | i :: is, t, t', rights, hlt, hhead, hbelow => by
    have he : h'.entry t' i = h.entry t i := hhead i rfl
    simp only [translateFrom, tablesBelow, he, pteAddr_congr hd]
    by_cases hp : Present (h.entry t i)
    · rw [if_neg (not_not.2 hp), if_neg (not_not.2 hp)]
      by_cases hl : IsLeaf (h.entry t i) is.length
      · rw [if_pos hl, if_pos hl, if_neg fun h => h.2 hl, if_neg fun h => h.2 hl]
        exact ⟨rfl, rfl⟩
      · rw [if_neg hl, if_neg hl, if_pos ⟨hp, hl⟩, if_pos ⟨hp, hl⟩]
        have htab : tablesBelow h (i :: is) t = h.pteAddr (h.entry t i) ::
            tablesBelow h is (h.pteAddr (h.entry t i)) := if_pos ⟨hp, hl⟩
        rw [htab] at hbelow
        have hrest : ∀ j ∈ is, j < 512 := fun j hj => hlt j (List.mem_cons_of_mem _ hj)
        obtain ⟨h1, h2⟩ := walk_congr_below hh hd is _ _ (rights &&& h.entry t i) hrest
          (fun j hj => entry_congr (pageAligned_pteAddr hh _) (hrest j (List.mem_of_mem_head? hj))
            (hbelow _ List.mem_cons_self)) fun u hu => hbelow u (List.mem_cons_of_mem _ hu)
        exact ⟨h1, congrArg (_ :: ·) h2⟩
    · rw [if_pos hp, if_pos hp, if_neg fun h => hp h.1, if_neg fun h => hp h.1]
      exact ⟨rfl, rfl⟩

/-- A change of free pages and of the user half of `pml4` leaves the kernel half. -/
theorem KernelHalf.same (hk : KernelHalf h pml4 root) (hh : PageAligned h.hhdmOffset)
    (hag : h.AgreeOutside (h.freePages ∪ spacePages h pml4) h')
    (hroot : root = pml4 → KeepsKernel pml4 h h') : SameKernelHalf root h h' := by
  intro va hva
  refine (walk_congr_below hh hag.hhdm (vaPath va) root root _ (fun i => index_lt_of_mem_vaPath)
    (fun i hi => ?_) fun u hu x hx => hag.mem x (hx ▸ hk.tables va hva u hu)).1
  obtain rfl := Option.some.inj hi
  rcases eq_or_ne root pml4 with rfl | hne
  · exact hroot rfl _ hva
  · obtain ⟨hal, hout⟩ := hk.top hne
    exact entry_congr hal hva.2 fun x hx => hag.mem x (hx ▸ hout)

end Translation

/-! ## `map_page_pml4` and the kernel half -/

section Keeps

variable {h h' : Heap} {pml4 virt phys flags t : U64} {n : Node} {p : List ℕ} {i : ℕ}

theorem KeepsKernel.trans {h'' : Heap} (hk : KeepsKernel pml4 h h') (hk' : KeepsKernel pml4 h' h'') :
    KeepsKernel pml4 h h'' := fun j hj => (hk' j hj).trans (hk j hj)

theorem keepsKernel_of_mem (ha : PageAligned pml4)
    (hm : ∀ x, pageOf x = pageOf pml4 → h'.mem x = h.mem x) : KeepsKernel pml4 h h' :=
  fun _ hj => entry_congr ha hj.2 hm

namespace MapState

variable {m m' : MapState} {go : Bool} {ps : List PageReq}

theorem mapReq_keepsKernel {p : PageReq} (ho : OwnTree m.heap pml4) (hp : p.Ok)
    (hr : m.mapReq pml4 p = some (m', go)) (hok : m'.tablesOk = true) :
    OwnTree m'.heap pml4 ∧ KeepsKernel pml4 m.heap m'.heap := by
  obtain ⟨-, -, hm⟩ :=
    (Mapped.refl ho).mapNewPage hp.user hp.flagBits hp.userFlag hp.fills hr hok
  rw [mapReq, MapState.mapNewPage] at hr
  obtain ⟨⟨h₁, v⟩, hk, hr⟩ := Option.bind_eq_some_iff.1 hr
  rcases kalloc_one ho.space.sound with ⟨hk', -⟩ | ⟨h₁', v', hk', ht⟩
  · obtain ⟨rfl, rfl⟩ := Prod.mk.inj (Option.some.inj (hk.symm.trans hk'))
    obtain ⟨rfl, rfl⟩ := Prod.mk.inj (Option.some.inj hr)
    exact ⟨ho, fun _ _ => rfl⟩
  · obtain ⟨rfl, rfl⟩ := Prod.mk.inj (Option.some.inj (hk.symm.trans hk'))
    simp only [if_neg ht.ne_zero] at hr
    obtain ⟨s, hs, he⟩ := Option.map_eq_some_iff.1 hr
    obtain ⟨rfl, rfl⟩ := Prod.mk.inj he
    have hmem : ∀ x, pageOf x ≠ pageOf v →
        (p.write v (h₁.zeroPage v)).mem x = h₁.mem x := fun x hx =>
      (hp.fills.outside v _ x ht.aligned hx).trans (zeroPage_mem_of_pageOf_ne ht.aligned hx)
    obtain ⟨hsp, -, hag, -⟩ := ho.space.of_take ht (p.write v (h₁.zeroPage v))
      ((hp.fills.freeLists v _).trans rfl) ((hp.fills.hhdm v _).trans rfl) hmem
    have hroot := ho.space.held [] _ nodeAt_nil
    obtain ⟨hgrow, -⟩ := PagingState.mapPagePml4_grows (s := ⟨p.write v (h₁.zeroPage v), true⟩)
      hsp.tables hp.user hp.flagBits hs (Bool.and_eq_true_iff.1 hok).2
    exact ⟨hm.own, .trans (keepsKernel_of_mem ho.space.root_aligned fun x hx =>
      hag.mem x (hx ▸ hroot)) hgrow.kernel⟩

theorem mapAll_keepsKernel (ho : OwnTree m.heap pml4) (hps : ∀ p ∈ ps, p.Ok)
    (hr : m.mapAll pml4 ps = some (m', go)) (hok : m'.tablesOk = true) :
    KeepsKernel pml4 m.heap m'.heap :=
  (Loop.each_invariant
    (I := fun t => t.tablesOk = true → OwnTree t.heap pml4 ∧ KeepsKernel pml4 m.heap t.heap)
    (fun p hp t t' _ ht hr hok => by
      obtain ⟨ho, hk⟩ := ht (mapNewPage_mono hr hok)
      obtain ⟨ho', hk'⟩ := mapReq_keepsKernel ho (hps p hp) hr hok
      exact ⟨ho', hk.trans hk'⟩) (fun _ => ⟨ho, fun _ _ => rfl⟩) hr hok).2

end MapState

end Keeps

/-- `free_user_pml4` and `kfree(pml4, 1)` write to pages of the space and to free pages. -/
theorem teardown_effect {h : Heap} {pml4 : U64} (ho : OwnTree h pml4) :
    ∃ f g, FreeState.freeUserPml4 ⟨h, [], []⟩ pml4 = some f ∧ f.kfreePage pml4 = some g ∧
      h.AgreeOutside (h.freePages ∪ spacePages h pml4) f.heap ∧ KeepsKernel pml4 h f.heap ∧
      h.AgreeOutside (h.freePages ∪ spacePages h pml4) g.heap := by
  obtain ⟨f, hr, hf⟩ := freeUserPml4_spec ho
  have hroot : nodeAt h pml4 [] = some (.root pml4) := nodeAt_nil
  have hmem : pageOf pml4 ∈ spacePages h pml4 := ⟨[], _, hroot, rfl⟩
  obtain ⟨h', hk, -, -, hag⟩ := kfree_one hf.sound ho.space.root_aligned
    (ho.ne_zero [] _ hroot) (hf.not_free ho hroot hf.root)
  have hfree : f.heap.freePages ⊆ h.freePages ∪ spacePages h pml4 := by
    rw [hf.free]
    refine Set.union_subset_union_right _ ?_
    rintro k ⟨p, -, n, hn, hk⟩
    exact ⟨p, n, hn, hk⟩
  have hag' : h.AgreeOutside (h.freePages ∪ spacePages h pml4) f.heap :=
    ⟨hf.hhdm, fun x hx => hf.mem x (fun hx' => hx (hfree hx')) fun he => hx (Or.inr (he ▸ hmem))⟩
  refine ⟨f, { f with heap := h', freed := pml4 :: f.freed }, hr,
    Option.map_eq_some_iff.2 ⟨h', hk, rfl⟩, hag', hf.kernel, hag'.trans (hag.mono ?_)⟩
  exact Set.union_subset hfree (Set.singleton_subset_iff.2 (Or.inr hmem))

/-! ## The loader and its caller -/

namespace Elf

open LoadState

variable {elf : Mem} {s s' : LoadState} {pml4 n : U64} {r : Option U64}

theorem exists_run (elf : Mem) (s : LoadState) (pml4 n : U64) :
    ∃ s' r, elfLoadSegments s pml4 elf n = some (s', r) := by
  by_cases he : IsElf64 elf
  · obtain ⟨s', r, hr, -⟩ := exists_elfLoadSegments he pml4 n s
    exact ⟨s', r, hr⟩
  · obtain ⟨s', hr, -⟩ := elfLoadSegments_reject he pml4 n s
    exact ⟨s', none, hr⟩

/-- The new space after the loader : it owns its pages, and only pages that were free or its own
were written. -/
theorem loader_effect (ho : OwnTree s.map.heap pml4) (ht : IsElf64 elf → Tame elf)
    (hr : elfLoadSegments s pml4 elf n = some (s', r)) (hok : s'.map.tablesOk = true) :
    (∃ M, Mapped s.map.heap s'.map.heap pml4 M) ∧
      KeepsKernel pml4 s.map.heap s'.map.heap := by
  by_cases he : IsElf64 elf
  · obtain ⟨t, r', hr', hm⟩ := exists_elfLoadSegments he pml4 n s
    obtain ⟨rfl, rfl⟩ := Prod.mk.inj (Option.some.inj (hr.symm.trans hr'))
    obtain ⟨pre, -, -, hmap⟩ := MapState.mapAll_spec ho (ht he).plan_ok hm hok
    exact ⟨⟨_, hmap⟩, MapState.mapAll_keepsKernel ho (ht he).plan_ok hm hok⟩
  · obtain ⟨t, hr', hmap⟩ := elfLoadSegments_reject he pml4 n s
    obtain ⟨rfl, rfl⟩ := Prod.mk.inj (Option.some.inj (hr.symm.trans hr'))
    rw [hmap]
    exact ⟨⟨_, .refl ho⟩, fun _ _ => rfl⟩

/-- If the pages of the file are in the user half, its copies stay in their pages and
`map_page_pml4` gets its tables, then the kernel half stays the same in every address space, also
when the loader fails and its caller tears the new space down. -/
theorem kernelHalf_unchanged (ho : OwnTree s.map.heap pml4) (ht : IsElf64 elf → Tame elf) (n : U64) :
    ∃ s' r, elfLoadSegments s pml4 elf n = some (s', r) ∧ (s'.map.tablesOk = true →
      ∀ root, KernelHalf s.map.heap pml4 root → SameKernelHalf root s.map.heap s'.map.heap ∧
        (r = none → ∃ f g, FreeState.freeUserPml4 ⟨s'.map.heap, [], []⟩ pml4 = some f ∧
          f.kfreePage pml4 = some g ∧ SameKernelHalf root s.map.heap f.heap ∧
          (root ≠ pml4 → SameKernelHalf root s.map.heap g.heap))) := by
  obtain ⟨s', r, hr⟩ := exists_run elf s pml4 n
  refine ⟨s', r, hr, fun hok root hk => ?_⟩
  obtain ⟨⟨M, hm⟩, hkeep⟩ := loader_effect ho ht hr hok
  have hh := ho.space.sound.hhdm
  have hload : s.map.heap.AgreeOutside (s.map.heap.freePages ∪ spacePages s.map.heap pml4)
      s'.map.heap := hm.agree.mono (Set.union_subset_union_right _ tablePages_subset)
  have hpages : s'.map.heap.freePages ∪ spacePages s'.map.heap pml4 ⊆
      s.map.heap.freePages ∪ spacePages s.map.heap pml4 :=
    Set.union_subset (hm.free.trans Set.subset_union_left)
      (hm.pages.trans (Set.union_comm _ _).subset)
  refine ⟨hk.same hh hload fun _ => hkeep, fun _ => ?_⟩
  obtain ⟨f, g, hf, hg, haf, hkf, hag⟩ := teardown_effect hm.own
  exact ⟨f, g, hf, hg, hk.same hh (hload.trans (haf.mono hpages)) fun _ => hkeep.trans hkf,
    fun hne => hk.same hh (hload.trans (hag.mono hpages)) fun he => absurd he hne⟩

end Elf

/-! ## The kernel half of a new address space -/

/-- The entries the loop does not copy stay. -/
theorem copyKernelHalf_of_not_mem {v k : U64} {i : ℕ} (hi : i < 512) : ∀ (l : List ℕ) (h : Heap),
    (∀ j ∈ l, KernelIndex j) → i ∉ l →
      (l.foldl (fun h j => h.setEntry v j (h.entry k j)) h).entry v i = h.entry v i
  | [], _, _, _ => rfl
  | j :: l, h, hl, hil => by
    obtain ⟨hij, hil⟩ := not_or.1 (List.mem_cons.not.1 hil)
    refine (copyKernelHalf_of_not_mem hi l _ (fun m hm => hl m (List.mem_cons_of_mem _ hm))
      hil).trans (load64_congr fun x hx => ?_)
    exact setEntry_mem_of_not_within
      (not_within_entry_of_ne hi (hl j List.mem_cons_self).2 hij hx)

/-- The loop copies the entries. -/
theorem copyKernelHalf_of_mem {v k : U64} {i : ℕ} (hv : PageAligned v) (hk : PageAligned k)
    (hvk : pageOf k ≠ pageOf v) : ∀ (l : List ℕ) (h : Heap), (∀ j ∈ l, KernelIndex j) → i ∈ l →
      (l.foldl (fun h j => h.setEntry v j (h.entry k j)) h).entry v i = h.entry k i
  | j :: l, h, hl, hil => by
    have hl' : ∀ m ∈ l, KernelIndex m := fun m hm => hl m (List.mem_cons_of_mem _ hm)
    have hj := hl j List.mem_cons_self
    by_cases hi : i ∈ l
    · refine (copyKernelHalf_of_mem hv hk hvk l _ hl' hi).trans ?_
      exact entry_congr hk (hl' i hi).2 fun x hx =>
        setEntry_mem_of_pageOf_ne hv hj.2 (hx ▸ hvk)
    · obtain rfl := (List.mem_cons.1 hil).resolve_right hi
      exact (copyKernelHalf_of_not_mem hj.2 l _ hl' hi).trans (entry_setEntry_self _ _ _ _)

namespace PagingState

variable {s s' : PagingState} {cr3 pml4 : U64}

/-- A new address space has the entries of the active one in its kernel half. -/
theorem createUserPml4_kernel (hs : s.heap.Sound) (hc : pageOf (s.heap.pteAddr cr3) ∉ s.heap.freePages)
    (hr : s.createUserPml4 cr3 = some (s', pml4)) (hok : s'.ok = true) :
    ∀ j, KernelIndex j → s'.heap.entry pml4 j = s.heap.entry (s.heap.pteAddr cr3) j := by
  intro j hj
  obtain ⟨⟨s₁, v⟩, hk, he⟩ := Option.map_eq_some_iff.1 hr
  have hok₁ : s₁.ok = true := by
    simp only at he
    split at he <;> obtain ⟨rfl, -⟩ := Prod.mk.inj he <;> exact hok
  obtain ⟨-, hv, ht⟩ := kallocPage_spec hs hk hok₁
  simp only [if_neg hv] at he
  obtain ⟨rfl, rfl⟩ := Prod.mk.inj he
  have hadr : s₁.heap.pteAddr cr3 = s.heap.pteAddr cr3 := pteAddr_congr ht.agree.hhdm _
  have hne : pageOf (s.heap.pteAddr cr3) ≠ pageOf v := fun he => hc (he ▸ ht.mem_free)
  have hal := pageAligned_pteAddr hs.hhdm cr3
  dsimp only
  rw [hadr]
  refine (copyKernelHalf_of_mem ht.aligned hal hne (List.range' 256 256) _ (fun i hi => ?_) ?_).trans
    (entry_congr hal hj.2 fun x hx => ?_)
  · rw [List.mem_range'_1] at hi
    exact ⟨hi.1, by omega⟩
  · rw [List.mem_range'_1]
    exact ⟨hj.1, by have := hj.2; omega⟩
  · rw [zeroPage_mem_of_pageOf_ne ht.aligned (hx ▸ hne)]
    exact ht.agree.mem x (hx ▸ hc)

/-- When the kernel's own tables are in use, the loader finds the kernel half of a new address
space as its theorem wants it, for the new top table and for the active one. -/
theorem createUserPml4_kernelHalf (hs : s.heap.Sound)
    (hc : pageOf (s.heap.pteAddr cr3) ∉ s.heap.freePages)
    (ht : ∀ va, KernelIndex (pml4Index va) →
      ∀ t ∈ tablesBelow s.heap (vaPath va) (s.heap.pteAddr cr3), pageOf t ∉ s.heap.freePages)
    (hr : s.createUserPml4 cr3 = some (s', pml4)) (hok : s'.ok = true) :
    KernelHalf s'.heap pml4 pml4 ∧ KernelHalf s'.heap pml4 (s.heap.pteAddr cr3) := by
  have hnew := createUserPml4_spec hs hr hok
  have hkernel := createUserPml4_kernel hs hc hr hok
  have hal := pageAligned_pteAddr hs.hhdm cr3
  -- The pages of the new space were free.
  have hpages : s'.heap.freePages ∪ spacePages s'.heap pml4 ⊆ s.heap.freePages := by
    refine Set.union_subset (hnew.free.trans_subset Set.sdiff_subset) ?_
    rintro k ⟨p, n, hn, rfl⟩
    obtain ⟨-, rfl⟩ := hnew.empty p n hn
    exact hnew.mem_free
  have hwalk : ∀ va, KernelIndex (pml4Index va) → ∀ t, (∀ j, KernelIndex j →
      s'.heap.entry t j = s.heap.entry (s.heap.pteAddr cr3) j) →
      tablesBelow s'.heap (vaPath va) t = tablesBelow s.heap (vaPath va) (s.heap.pteAddr cr3) := by
    intro va hva t hent
    refine (walk_congr_below hs.hhdm hnew.agree.hhdm (vaPath va) _ _ 0
      (fun i => index_lt_of_mem_vaPath) (fun i hi => ?_)
      fun u hu x hx => hnew.agree.mem x (hx ▸ ht va hva u hu)).2
    obtain rfl := Option.some.inj hi
    exact hent _ hva
  have hsame : ∀ j, KernelIndex j → s'.heap.entry (s.heap.pteAddr cr3) j =
      s.heap.entry (s.heap.pteAddr cr3) j := fun j hj =>
    entry_congr hal hj.2 fun x hx => hnew.agree.mem x (hx ▸ hc)
  refine ⟨⟨fun hne => absurd rfl hne, fun va hva t hmem hp => ?_⟩,
    ⟨fun _ => ⟨hal, fun hp => hc (hpages hp)⟩, fun va hva t hmem hp => ?_⟩⟩
  · exact ht va hva t (hwalk va hva pml4 hkernel ▸ hmem) (hpages hp)
  · exact ht va hva t (hwalk va hva _ hsame ▸ hmem) (hpages hp)

end PagingState

/-! ## A segment in the kernel half -/

/-- What `getTable` makes below a missing entry : a zeroed page that was free. -/
structure NewTable (h h' : Heap) (t : U64) (i : ℕ) (v : U64) : Prop where
  sound : h'.Sound
  aligned : PageAligned v
  mem_free : pageOf v ∈ h.freePages
  free : h'.freePages = h.freePages \ {pageOf v}
  hhdm : h'.hhdmOffset = h.hhdmOffset
  present : Present (h'.entry t i)
  small : h'.entry t i &&& ptePs = 0
  addr : h'.pteAddr (h'.entry t i) = v
  zero : ∀ j < 512, h'.entry v j = 0
  frame : ∀ u j, PageAligned u → j < 512 → pageOf u ∉ h.freePages → pageOf u ≠ pageOf t →
    h'.entry u j = h.entry u j

namespace PagingState

variable {s s' : PagingState} {t t' pml4 virt phys flags : U64} {i : ℕ}

theorem getTable_new (hs : s.heap.Sound) (hal : PageAligned t) (hi : i < 512)
    (hf : pageOf t ∉ s.heap.freePages) (he : s.heap.entry t i = 0)
    (hr : s.getTable t i = some (s', t')) (hok : s'.ok = true) :
    NewTable s.heap s'.heap t i t' := by
  have hp : ¬Present (s.heap.entry t i) := by
    rw [he]
    exact fun h => h BitVec.zero_and
  obtain ⟨hp', -, -⟩ | ⟨-, h₁, ht, hs'⟩ := getTable_cases hs hr hok
  · exact absurd hp' hp
  have hphys : PageAligned (s.heap.virtToPhys t') := ht.aligned.sub hs.hhdm
  have hfl := pteFlags_or hphys (show FlagBits (ptePresent ||| pteWrite ||| pteUser) by decide)
  have haddr := pteAddr_or (h := s.heap) hs.hhdm ht.aligned
    (show FlagBits (ptePresent ||| pteWrite ||| pteUser) by decide)
  generalize s.heap.virtToPhys t' ||| (ptePresent ||| pteWrite ||| pteUser) = e at hs' hfl haddr
  have hent : s'.heap.entry t i = e := by rw [hs', entry_setEntry_self]
  have hhd : s'.heap.hhdmOffset = s.heap.hhdmOffset := by rw [hs', ← ht.agree.hhdm]; rfl
  have hne : pageOf t' ≠ pageOf t := fun he => hf (he ▸ ht.mem_free)
  have hmem : ∀ x, pageOf x ≠ pageOf t' → pageOf x ≠ pageOf t → s'.heap.mem x = h₁.mem x :=
    fun x hx hx' => by
      rw [hs', setEntry_mem_of_pageOf_ne hal hi hx', zeroPage_mem_of_pageOf_ne ht.aligned hx]
  obtain ⟨hsound, hfree⟩ := ht.sound.congr s'.heap (by rw [hs']; rfl) (by rw [hs']; rfl)
    fun x hx => by
      rw [ht.free] at hx
      exact hmem x (fun he => hx.2 he) fun he => hf (he ▸ hx.1)
  refine ⟨hsound, ht.aligned, ht.mem_free, hfree.trans ht.free, hhd, ?_, ?_, ?_,
    fun j hj => ?_, fun u j hu hj hfu hut => ?_⟩
  · rw [hent, present_iff_flags, hfl]
    decide
  · rw [hent]
    have : e &&& ptePs = pteFlags e &&& ptePs := by
      rw [pteFlags, BitVec.and_assoc]
      rfl
    rw [this, hfl]
    rfl
  · rw [hent, pteAddr_congr hhd, haddr]
  · rw [hs', entry_congr ht.aligned hj fun x hx => setEntry_mem_of_pageOf_ne hal hi (hx ▸ hne)]
    exact entry_zeroPage h₁ t' hj
  · refine entry_congr hu hj fun x hx => ?_
    rw [hmem x (fun he => hfu (by rw [← hx, he]; exact ht.mem_free)) (hx ▸ hut),
      ht.agree.mem x (hx ▸ hfu)]

theorem translateFrom_cons {h : Heap} {is : List ℕ} {t t' e rights : U64} {i : ℕ}
    (he : h.entry t i = e) (hp : Present e) (hl : ¬IsLeaf e is.length) (ht : h.pteAddr e = t') :
    translateFrom h (i :: is) t rights = translateFrom h is t' (rights &&& e) := by
  rw [translateFrom, he, if_neg (not_not.2 hp), if_neg hl, ht]

/-- `map_page_pml4` below a missing entry of the top table maps the page, whatever the half. -/
theorem mapPagePml4_new (hs : s.heap.Sound) (hal : PageAligned pml4)
    (hf : pageOf pml4 ∉ s.heap.freePages) (he : s.heap.entry pml4 (pml4Index virt) = 0)
    (hr : s.mapPagePml4 pml4 virt phys flags = some s') (hok : s.ok = true)
    (hc : 3 ≤ s.heap.freePages.ncard) :
    s'.ok = true ∧ translation s'.heap pml4 virt ≠ none ∧ s'.heap.Sound ∧
      s'.heap.freePages ⊆ s.heap.freePages ∧
      s'.heap.freePages.ncard = s.heap.freePages.ncard - 3 := by
  obtain ⟨s₁, pdpt, s₂, pd, s₃, pt, h₁, h₂, h₃, rfl⟩ := mapPagePml4_eq_some hr
  have hne : ∀ {h : Heap}, 1 ≤ h.freePages.ncard → h.freePages.Nonempty := fun hc =>
    Set.nonempty_of_ncard_ne_zero (by omega)
  have hok₁ := getTable_ok hs h₁ hok (hne (by omega))
  have t₁ : NewTable s.heap s₁.heap pml4 (pml4Index virt) pdpt :=
    getTable_new hs hal (index_lt virt 39) hf he h₁ hok₁
  have c₁ := Set.ncard_sdiff_singleton_of_mem t₁.mem_free
  rw [← t₁.free] at c₁
  have hok₂ := getTable_ok t₁.sound h₂ hok₁ (hne (by omega))
  have hf₁ : pageOf pdpt ∉ s₁.heap.freePages := by
    rw [t₁.free]
    exact fun h => h.2 rfl
  have t₂ : NewTable s₁.heap s₂.heap pdpt (pdptIndex virt) pd :=
    getTable_new t₁.sound t₁.aligned (index_lt virt 30) hf₁ (t₁.zero _ (index_lt virt 30)) h₂ hok₂
  have c₂ := Set.ncard_sdiff_singleton_of_mem t₂.mem_free
  rw [← t₂.free] at c₂
  have hok₃ := getTable_ok t₂.sound h₃ hok₂ (hne (by omega))
  have hf₂ : pageOf pd ∉ s₂.heap.freePages := by
    rw [t₂.free]
    exact fun h => h.2 rfl
  have t₃ : NewTable s₂.heap s₃.heap pd (pdIndex virt) pt :=
    getTable_new t₂.sound t₂.aligned (index_lt virt 21) hf₂ (t₂.zero _ (index_lt virt 21)) h₃ hok₃
  have c₃ := Set.ncard_sdiff_singleton_of_mem t₃.mem_free
  rw [← t₃.free] at c₃
  have hf₃ : pageOf pt ∉ s₃.heap.freePages := by
    rw [t₃.free]
    exact fun h => h.2 rfl
  obtain ⟨hal₁, hal₂, hal₃⟩ := (⟨t₁.aligned, t₂.aligned, t₃.aligned⟩ :
    PageAligned pdpt ∧ PageAligned pd ∧ PageAligned pt)
  have hd₃ : pageOf pt ∈ s₂.heap.freePages := t₃.mem_free
  have hin₂ : s₂.heap.freePages ⊆ s₁.heap.freePages := t₂.free ▸ Set.sdiff_subset
  have hin₁ : s₁.heap.freePages ⊆ s.heap.freePages := t₁.free ▸ Set.sdiff_subset
  -- The four tables are on different pages, and a later step leaves the earlier ones.
  have hne₀ : pageOf pml4 ≠ pageOf pt := fun he => hf (he ▸ hin₁ (hin₂ hd₃))
  have hne₁ : pageOf pdpt ≠ pageOf pt := fun he => hf₁ (he ▸ hin₂ hd₃)
  have hne₂ : pageOf pd ≠ pageOf pt := fun he => hf₂ (he ▸ hd₃)
  have hlast : ∀ u j, PageAligned u → j < 512 → pageOf u ≠ pageOf pt →
      (s₃.heap.setEntry pt (ptIndex virt) (phys &&& pageFrameMask ||| flags ||| ptePresent)).entry
        u j = s₃.heap.entry u j := fun u j hu hj hne =>
    entry_congr hu hj fun x hx => setEntry_mem_of_pageOf_ne hal₃ (index_lt virt 12) (hx ▸ hne)
  have e₂ : s₃.heap.entry pdpt (pdptIndex virt) = s₂.heap.entry pdpt (pdptIndex virt) :=
    t₃.frame _ _ hal₁ (index_lt virt 30) (fun h => hf₁ (hin₂ h))
      fun he => hf₁ (he ▸ t₂.mem_free)
  have e₁ : s₃.heap.entry pml4 (pml4Index virt) = s₁.heap.entry pml4 (pml4Index virt) :=
    (t₃.frame _ _ hal (index_lt virt 39) (fun h => hf (hin₁ (hin₂ h)))
      fun he => hf (he ▸ hin₁ t₂.mem_free)).trans
    (t₂.frame _ _ hal (index_lt virt 39) (fun h => hf (hin₁ h)) fun he => hf (he ▸ t₁.mem_free))
  obtain ⟨hs', hfree⟩ := t₃.sound.congr (s₃.heap.setEntry pt (ptIndex virt)
    (phys &&& pageFrameMask ||| flags ||| ptePresent)) rfl rfl fun x hx =>
      setEntry_mem_of_pageOf_ne hal₃ (index_lt virt 12) fun he => hf₃ (he ▸ hx)
  refine ⟨hok₃, ?_, hs', hfree.trans_subset ((t₃.free ▸ Set.sdiff_subset).trans (hin₂.trans hin₁)), ?_⟩
  · have w₁ := (hlast pml4 (pml4Index virt) hal (index_lt virt 39) hne₀).trans e₁
    have w₂ := (hlast pdpt (pdptIndex virt) hal₁ (index_lt virt 30) hne₁).trans e₂
    have w₃ := hlast pd (pdIndex virt) hal₂ (index_lt virt 21) hne₂
    dsimp only
    rw [translation, vaPath, translateFrom_cons w₁ t₁.present (by simp [IsLeaf])
        ((pteAddr_congr (t₃.hhdm.trans t₂.hhdm) _).trans t₁.addr),
      translateFrom_cons w₂ t₂.present (by simp [IsLeaf, t₂.small])
        ((pteAddr_congr t₃.hhdm _).trans t₂.addr),
      translateFrom_cons w₃ t₃.present (by simp [IsLeaf, t₃.small]) t₃.addr]
    simp only [translateFrom]
    rw [entry_setEntry_self, if_neg (not_not.2 (present_or _)), if_pos (show IsLeaf _ ([] : List ℕ).length from Or.inl rfl)]
    exact Option.some_ne_none _
  · dsimp only
    rw [hfree]
    omega

end PagingState

/-- A space without entries in the kernel half. -/
theorem kernelHalf_of_empty {h : Heap} {pml4 : U64} (he : ∀ j, KernelIndex j → h.entry pml4 j = 0) :
    KernelHalf h pml4 pml4 := by
  refine ⟨fun hne => absurd rfl hne, fun va hva t ht => ?_⟩
  rw [vaPath, tablesBelow, he _ hva, if_neg fun hp => hp.1 BitVec.zero_and] at ht
  exact absurd ht List.not_mem_nil

/-- After boot the page at physical address 0 is not free, and it is zero. -/
theorem cr3_of_boot {n : ℕ} (hn : n < 256) {h₀ : Heap}
    (hb : freerange (kinit (fun _ => 0) 0xffff800000000000) 0x100000
      (BitVec.ofNat 64 (0x100000 + 4096 * (n + 1))) = some h₀) :
    h₀.Sound ∧ pageOf (h₀.pteAddr 0) ∉ h₀.freePages ∧
      ∀ j < 512, h₀.entry (h₀.pteAddr 0) j = 0 := by
  obtain ⟨h, hb', hs, -, hag, hlow⟩ := exists_boot_heap_of (n := n + 1) hn
  obtain rfl := Option.some.inj (hb.symm.trans hb')
  have haddr : h₀.pteAddr 0 = 0xffff800000000000 := by
    rw [pteAddr_congr hag.hhdm]
    rfl
  have hpage : pageOf (h₀.pteAddr 0) ∉ h₀.freePages := fun hx => by
    have := (hlow _ hx).1
    rw [haddr] at this
    exact absurd this (by decide)
  refine ⟨hs, hpage, fun j hj => ?_⟩
  rw [entry_congr (pageAligned_pteAddr hs.hhdm 0) hj fun x hx => hag.mem x (hx ▸ hpage), haddr,
    Heap.entry, kinit, load64]
  simp [readLE]

/-- After boot no address space has anything in its kernel half. -/
theorem kernel_empty_of_boot {n : ℕ} (hn : n < 256) {h₀ : Heap} {t : PagingState} {pml4 : U64}
    (hb : freerange (kinit (fun _ => 0) 0xffff800000000000) 0x100000
      (BitVec.ofNat 64 (0x100000 + 4096 * (n + 1))) = some h₀)
    (hr : PagingState.createUserPml4 ⟨h₀, true⟩ 0 = some (t, pml4)) (hok : t.ok = true) :
    ∀ j, KernelIndex j → t.heap.entry pml4 j = 0 := by
  intro j hj
  obtain ⟨hs, hpage, hzero⟩ := cr3_of_boot hn hb
  rw [PagingState.createUserPml4_kernel (s := ⟨h₀, true⟩) hs hpage hr hok j hj]
  exact hzero j hj.2

namespace Elf

open LoadState

/-- A segment of one byte in the page at `0xFFFF900000000000`. -/
def kernelPage : List U8 :=
  elfFile [[1, 7, 120, 0xFFFF900000000000, 0xFFFF900000000000, 1, 1, 4096]] [0xCC]

theorem kernelPage_plan : elfPlan (bufOf kernelPage) =
    segReq (bufOf kernelPage) 0 0xFFFF900000000000 :: stackPages.map zeroReq := by
  have hnum : (ePhnum (bufOf kernelPage)).toNat = 1 := by decide +kernel
  have hseg : segPages (bufOf kernelPage) 0 = [0xFFFF900000000000] := by decide +kernel
  rw [elfPlan, hnum]
  simp [List.range_succ, hseg]

/-- The only page of the segment is mapped in the kernel half, and becomes accessible there. The
loader returns -1, since nothing is left for the stack. -/
theorem kernelPage_mapped : ∃ h₀ t pml4 s,
    freerange (kinit (fun _ => 0) 0xffff800000000000) 0x100000 0x105000 = some h₀ ∧
    PagingState.createUserPml4 ⟨h₀, true⟩ 0 = some (t, pml4) ∧
    elfLoadSegments ⟨⟨t.heap, true, true⟩, [], []⟩ pml4 (bufOf kernelPage) 121 = some (s, none) ∧
    s.map.tablesOk = true ∧ KernelHalf t.heap pml4 pml4 ∧
    translation t.heap pml4 0xFFFF900000000000 = none ∧
    translation s.map.heap pml4 0xFFFF900000000000 ≠ none ∧
    ¬SameKernelHalf pml4 t.heap s.map.heap := by
  obtain ⟨h₀, t, pml4, hboot, hnew, hok, hn, hcard, -⟩ := exists_new_space (n := 4) (by norm_num)
  have hzero := kernel_empty_of_boot (n := 4) (by norm_num) hboot hnew hok
  have hidx : KernelIndex (pml4Index 0xFFFF900000000000) := ⟨by decide, by decide⟩
  have hfin : t.heap.freePages.Finite := Set.finite_of_ncard_ne_zero (by omega)
  have hbefore : translation t.heap pml4 0xFFFF900000000000 = none := by
    rw [translation, vaPath, translateFrom, hzero _ hidx, if_pos fun h => h BitVec.zero_and]
  -- The page of the segment.
  rcases kalloc_one hn.space.sound with ⟨-, hno⟩ | ⟨h₁, v, hk, ht⟩
  · rw [hno, Set.ncard_empty] at hcard
    omega
  have hone := Set.ncard_sdiff_singleton_of_mem ht.mem_free
  have hfills : Fills (copyFile (bufOf kernelPage) 0 0xFFFF900000000000)
      (segByte (bufOf kernelPage) 0 0xFFFF900000000000) :=
    fills_copyFile (by decide) fun _ => by
      unfold Extent.Below
      decide +kernel
  set h₂ := copyFile (bufOf kernelPage) 0 0xFFFF900000000000 v (h₁.zeroPage v) with hh₂
  obtain ⟨hsp, hfree, hag, -⟩ := hn.space.of_take ht h₂ ((hfills.freeLists v _).trans rfl)
    ((hfills.hhdm v _).trans rfl) fun x hx => (hfills.outside v _ x ht.aligned hx).trans
      (zeroPage_mem_of_pageOf_ne ht.aligned hx)
  -- Its mapping.
  have hroot := hn.space.held [] _ nodeAt_nil
  have hent : h₂.entry pml4 (pml4Index 0xFFFF900000000000) = 0 :=
    (entry_congr hn.space.root_aligned hidx.2 fun x hx => hag.mem x (hx ▸ hroot)).trans
      (hzero _ hidx)
  obtain ⟨s₃, hr₃⟩ := PagingState.exists_mapPagePml4 ⟨h₂, true⟩ pml4 0xFFFF900000000000
    (h₂.virtToPhys v) (segFlags (bufOf kernelPage) 0)
  obtain ⟨hok₃, htr, hs₃, hsub, hcard₃⟩ := PagingState.mapPagePml4_new (s := ⟨h₂, true⟩) hsp.sound
    hsp.root_aligned (hsp.held [] _ nodeAt_nil) hent hr₃ rfl (by dsimp only; rw [hfree]; omega)
  have hempty : s₃.heap.freePages = ∅ := by
    have hfin₃ : s₃.heap.freePages.Finite :=
      hfin.subset (hsub.trans (hfree.trans_subset Set.sdiff_subset))
    refine (Set.ncard_eq_zero hfin₃).1 (hcard₃.trans ?_)
    dsimp only
    rw [hfree]
    omega
  -- No page is left for the stack.
  have hstack : kalloc s₃.heap 1 = some (s₃.heap, 0) := by
    rcases kalloc_one hs₃ with ⟨hk', -⟩ | ⟨_, _, -, ht'⟩
    · exact hk'
    · exact absurd ht'.mem_free (by rw [hempty]; exact Set.notMem_empty _)
  have hplan : (MapState.mk t.heap true true).mapAll pml4 (elfPlan (bufOf kernelPage)) =
      some (⟨s₃.heap, false, s₃.ok⟩, false) := by
    have h1 : (MapState.mk t.heap true true).mapReq pml4
        (segReq (bufOf kernelPage) 0 0xFFFF900000000000) = some (⟨s₃.heap, true, s₃.ok⟩, true) := by
      rw [MapState.mapReq, MapState.mapNewPage]
      dsimp only [segReq]
      rw [hk, Option.bind_some]
      dsimp only
      rw [if_neg ht.ne_zero, ← hh₂, hr₃]
      rfl
    have h2 : (MapState.mk s₃.heap true s₃.ok).mapReq pml4 (zeroReq 0x7FFFFFE000) =
        some (⟨s₃.heap, false, s₃.ok⟩, false) := by
      rw [MapState.mapReq, MapState.mapNewPage]
      dsimp only
      rw [hstack]
      rfl
    have hst : stackPages = [0x7FFFFFE000, 0x7FFFFFF000] := by decide
    rw [kernelPage_plan, MapState.mapAll, Loop.each_cons, h1, hst, List.map_cons, Option.bind_some]
    dsimp only
    rw [if_pos rfl, Loop.each_cons, h2]
    rfl
  obtain ⟨s, r, hr, hm⟩ := exists_elfLoadSegments
    (show IsElf64 (bufOf kernelPage) by decide +kernel) pml4 121 ⟨⟨t.heap, true, true⟩, [], []⟩
  rw [hplan] at hm
  obtain ⟨hs, hr'⟩ := Prod.mk.inj (Option.some.inj hm)
  obtain rfl : r = none := by
    rcases r with _ | e
    · rfl
    · exact absurd hr' Bool.false_ne_true
  have hafter : translation s.map.heap pml4 0xFFFF900000000000 ≠ none := by
    rw [← hs]
    exact htr
  refine ⟨h₀, t, pml4, s, hboot, hnew, hr, by rw [← hs]; exact hok₃, kernelHalf_of_empty hzero,
    hbefore, hafter, fun hsame => hafter ?_⟩
  rw [hsame _ hidx, hbefore]

/-- The theorem at the file with the shared page, after boot. -/
theorem kernelHalf_unchanged_boot : ∃ h pml4 s r, OwnTree h pml4 ∧
    elfLoadSegments ⟨⟨h, true, true⟩, [], []⟩ pml4 (bufOf sharedPage) 178 = some (s, r) ∧
    s.map.tablesOk = true ∧ SameKernelHalf pml4 h s.map.heap := by
  obtain ⟨h₀, t, pml4, hboot, hnew, hok, hn, hcard, -⟩ := exists_new_space (n := 16) (by norm_num)
  have wf := sharedPage_wellFormed
  obtain ⟨s, r, hr, hsame⟩ := kernelHalf_unchanged (s := ⟨⟨t.heap, true, true⟩, [], []⟩) hn.ownTree
    (fun _ => wf.tame) 178
  obtain ⟨-, hk⟩ := wf.tame.load_ok (s := ⟨⟨t.heap, true, true⟩, [], []⟩) wf.isElf hn.ownTree
    (hcard.ge.trans' (by decide +kernel)) rfl rfl hr
  have hhalf := kernelHalf_of_empty (kernel_empty_of_boot (n := 16) (by norm_num) hboot hnew hok)
  exact ⟨t.heap, pml4, s, r, hn.ownTree, hr, hk, (hsame hk pml4 hhalf).1⟩

end Elf

end Jeos
