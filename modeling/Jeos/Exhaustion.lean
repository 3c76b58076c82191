import Jeos.KernelHalf

/-!
# Page tables when memory runs out

`map_page_pml4` takes up to three tables from the allocator and does not look at what
`kalloc` returns. Its callers test the pointer of the page itself. A `MapCall` is one of
those callers on an existing address space, and `TreeRun` an address space with the pages
taken for it, from `create_user_pml4` or `proc_fork` on, through calls that may run out of
pages but not out of tables.

In every such run the pages of the tree are its own and allocated, the calls write nowhere
else, and a call that reports success has mapped what it was asked for
(`exhaustion_safe`). When a table is missing, the tree gets an entry that leads to the
virtual address 0 (`noTable_brk`).
-/

set_option linter.unusedSectionVars false

namespace Jeos

open ByteMemory TreeWalk Elf PagingState

/-! ## Calls that map pages -/

/-- A page with `kalloc` and `map_page_pml4`, `elf_load_segments`, or `sys_brk`. -/
inductive MapCall
  | map (p : PageReq)
  | load (elf : Mem) (size : U64)
  | brk (old new : U64)

namespace MapCall

/-- The state after the call, and whether it reports success. -/
def run (pml4 : U64) (m : MapState) : MapCall → Option (MapState × Bool)
  | map p => m.mapReq pml4 p
  | load elf size =>
    (LoadState.elfLoadSegments ⟨m, [], []⟩ pml4 elf size).map fun (s, r) => (s.map, r.isSome)
  | brk old new =>
    (sysBrk m (some ⟨pml4, old⟩) new).map fun (m, _, ret) => (m, decide (ret = new))

/-- The heap grows to `new`. -/
def Grows (old new : U64) : Prop :=
  ¬(new < userHeapBase ∨ new > 0x400000000) ∧ new > old

instance (old new : U64) : Decidable (Grows old new) := inferInstanceAs (Decidable (_ ∧ _))

/-- The pages the call has to map. -/
def pages : MapCall → List PageReq
  | map p => [p]
  | load elf _ => if IsElf64 elf then elfPlan elf else []
  | brk old new => if Grows old new then (pagesFrom (pageUp old) (pageUp new)).map zeroReq else []

/-- The pages are in the user half, and the loader's copies stay in their pages. -/
def Meets : MapCall → Prop
  | map p => p.Ok
  | load elf _ => IsElf64 elf → Tame elf
  | brk _ _ => True

section Run

variable {pml4 : U64} {m m' : MapState} {go : Bool} {c : MapCall}

theorem pages_ok (hc : c.Meets) : ∀ p ∈ c.pages, p.Ok := by
  rcases c with p | ⟨elf, size⟩ | ⟨old, new⟩
  · intro q hq
    rw [pages, List.mem_singleton] at hq
    exact hq ▸ hc
  · intro q hq
    rw [pages] at hq
    split_ifs at hq with he
    · exact (hc he).plan_ok q hq
    · exact absurd hq List.not_mem_nil
  · intro q hq
    rw [pages] at hq
    split_ifs at hq with hg
    · obtain ⟨va, hva, rfl⟩ := List.mem_map.1 hq
      obtain ⟨-, -, hlt⟩ := mem_pagesFrom.1 hva
      have hmax : new.toNat ≤ 0x400000000 := by
        have := fun h => hg.1 (Or.inr h)
        exact Nat.le_of_not_lt fun h => this (BitVec.lt_def.2 h)
      have hlt := BitVec.lt_def.1 hlt
      rw [pageUp_toNat (by omega)] at hlt
      exact zeroReq_ok (pml4Index_lt (by omega))
    · exact absurd hq List.not_mem_nil

/-- `sys_brk` maps its pages in order and returns the break, which is the new one after the last
page. -/
theorem sysBrk_pages {old new ret : U64} {p : Option ProcMem}
    (hr : sysBrk m (some ⟨pml4, old⟩) new = some (m', p, ret)) :
    p = some ⟨pml4, ret⟩ ∧ ∃ go, m.mapAll pml4 (brk old new).pages = some (m', go) ∧
      ret = if go ∧ ¬(new < userHeapBase ∨ new > 0x400000000) then new else old := by
  rw [pages]
  rw [sysBrk] at hr
  dsimp only at hr
  by_cases h0 : new = 0
  · rw [if_pos h0] at hr
    obtain ⟨rfl, he⟩ := Prod.mk.inj (Option.some.inj hr)
    obtain ⟨rfl, rfl⟩ := Prod.mk.inj he
    have hng : ¬Grows old new := fun hg => hg.1 (Or.inl (by rw [h0]; decide))
    rw [if_neg hng]
    exact ⟨rfl, true, rfl, (if_neg fun h => h.2 (Or.inl (by rw [h0]; decide))).symm⟩
  rw [if_neg h0] at hr
  by_cases hrange : new < userHeapBase ∨ new > 0x400000000
  · rw [if_pos hrange] at hr
    obtain ⟨rfl, he⟩ := Prod.mk.inj (Option.some.inj hr)
    obtain ⟨rfl, rfl⟩ := Prod.mk.inj he
    rw [if_neg fun hg : Grows old new => hg.1 hrange]
    exact ⟨rfl, true, rfl, (if_neg fun h => h.2 hrange).symm⟩
  rw [if_neg hrange] at hr
  by_cases hgt : new > old
  · rw [if_pos hgt] at hr
    rw [if_pos (show Grows old new from ⟨hrange, hgt⟩)]
    obtain ⟨⟨t', g⟩, hloop, he⟩ := Option.map_eq_some_iff.1 hr
    rw [forPages_eq _ _ (pageAligned_pageUp _)] at hloop
    have hsim := Loop.each_sim (π := id) (ρ := zeroReq) (g := MapState.mapReq pml4)
      (f := fun s va => s.mapNewPage pml4 va (pteUser ||| pteWrite) fun _ h => h)
      (fun s va => by rw [Prod.map_id, Option.map_id]; rfl) (pagesFrom (pageUp old) (pageUp new)) m
    rw [hloop] at hsim
    rcases g with _ | _
    · obtain ⟨ht, he⟩ := Prod.mk.inj (show (t', some ⟨pml4, old⟩, old) = (m', p, ret) from he)
      obtain ⟨rfl, rfl⟩ := Prod.mk.inj he
      rw [← ht]
      exact ⟨rfl, false, hsim.symm, (if_neg fun h => Bool.false_ne_true h.1).symm⟩
    · obtain ⟨ht, he⟩ := Prod.mk.inj (show (t', some ⟨pml4, new⟩, new) = (m', p, ret) from he)
      obtain ⟨rfl, rfl⟩ := Prod.mk.inj he
      rw [← ht]
      exact ⟨rfl, true, hsim.symm, (if_pos ⟨rfl, hrange⟩).symm⟩
  · rw [if_neg hgt] at hr
    obtain ⟨rfl, he⟩ := Prod.mk.inj (Option.some.inj hr)
    obtain ⟨rfl, rfl⟩ := Prod.mk.inj he
    rw [if_neg fun hg : Grows old new => hgt hg.2]
    exact ⟨rfl, true, rfl, (if_pos ⟨rfl, hrange⟩).symm⟩

/-- A call maps its pages in order, and reports success only after the last one. -/
theorem run_pages (hr : c.run pml4 m = some (m', go)) :
    ∃ go', m.mapAll pml4 c.pages = some (m', go') ∧ (go = true → go' = true) := by
  rcases c with p | ⟨elf, size⟩ | ⟨old, new⟩
  · refine ⟨go, ?_, id⟩
    rw [pages, MapState.mapAll, Loop.each_cons, show m.mapReq pml4 p = some (m', go) from hr]
    rcases go with _ | _ <;> rfl
  · obtain ⟨⟨s, r⟩, hload, he⟩ := Option.map_eq_some_iff.1 hr
    obtain ⟨rfl, rfl⟩ := Prod.mk.inj he
    rw [pages]
    by_cases hf : IsElf64 elf
    · obtain ⟨t, r', hr', hm⟩ := LoadState.exists_elfLoadSegments hf pml4 size ⟨m, [], []⟩
      obtain ⟨rfl, rfl⟩ := Prod.mk.inj (Option.some.inj (hload.symm.trans hr'))
      rw [if_pos hf]
      exact ⟨_, hm, id⟩
    · obtain ⟨t, hr', hmap⟩ := LoadState.elfLoadSegments_reject hf pml4 size ⟨m, [], []⟩
      obtain ⟨rfl, rfl⟩ := Prod.mk.inj (Option.some.inj (hload.symm.trans hr'))
      rw [if_neg hf, hmap]
      exact ⟨true, rfl, fun h => absurd h Bool.false_ne_true⟩
  · obtain ⟨⟨t, p, ret⟩, hbrk, he⟩ := Option.map_eq_some_iff.1 hr
    obtain ⟨rfl, rfl⟩ := Prod.mk.inj he
    obtain ⟨-, g, hmap, hret⟩ := sysBrk_pages hbrk
    refine ⟨g, hmap, fun hdec => ?_⟩
    split_ifs at hret with hg
    · exact hg.1
    · -- The break was there already, and no page is mapped.
      have heq : old = new := hret.symm.trans (of_decide_eq_true hdec)
      rw [pages, if_neg fun hg : Grows old new =>
        absurd (BitVec.lt_def.1 hg.2) (heq ▸ Nat.lt_irrefl _)] at hmap
      exact (Prod.mk.inj (Option.some.inj hmap)).2.symm

end Run

end MapCall

/-! ## Address spaces and their pages -/

/-- The heap, and the pages that were taken for an address space. -/
structure Tree where
  heap : Heap
  owned : Set ℕ

/-- What a call takes from the allocator belongs to the address space it works on. -/
def Tree.after (t : Tree) (h : Heap) : Tree := ⟨h, t.owned ∪ (t.heap.freePages \ h.freePages)⟩

/-- Every present entry of the tree points to a page of its own, and these pages are allocated. -/
structure OwnedTree (t : Tree) (pml4 : U64) : Prop where
  own : OwnTree t.heap pml4
  pages : spacePages t.heap pml4 ⊆ t.owned
  allocated : Disjoint t.owned t.heap.freePages

/-- The life of an address space : made by `create_user_pml4`, alone or with `copy_user_pml4`, and
filled by calls. No `kalloc` inside `map_page_pml4` or `copy_user_pml4` fails. -/
inductive TreeRun (pml4 : U64) : Tree → Prop
  | create {s s' : PagingState} {cr3 : U64} (sound : s.heap.Sound)
      (run : s.createUserPml4 cr3 = some (s', pml4)) (ok : s'.ok = true) :
      TreeRun pml4 ⟨s'.heap, {pageOf pml4}⟩
  | fork {h : Heap} {s s' : PagingState} {cr3 oldPml4 : U64} (old : UserSpace h oldPml4)
      (run : createUserPml4 ⟨h, true⟩ cr3 = some (s, pml4))
      (copy : s.copyUserPml4 pml4 oldPml4 = some s') (ok : s'.ok = true) :
      TreeRun pml4 ⟨s'.heap, h.freePages \ s'.heap.freePages⟩
  | call {t : Tree} {c : MapCall} {m : MapState} {go : Bool} (prev : TreeRun pml4 t)
      (meets : c.Meets) (run : c.run pml4 ⟨t.heap, true, true⟩ = some (m, go))
      (tables : m.tablesOk = true) : TreeRun pml4 (t.after m.heap)
  | other {t : Tree} {h' : Heap} (prev : TreeRun pml4 t) (und : Undisturbed pml4 t.heap h')
      (held : Disjoint t.owned h'.freePages) : TreeRun pml4 ⟨h', t.owned⟩

section Tree

variable {t : Tree} {pml4 : U64} {m : MapState} {go : Bool} {c : MapCall}

/-- What a call does to a tree that owns its pages. -/
theorem OwnedTree.call (ho : OwnedTree t pml4) (hc : c.Meets)
    (hr : c.run pml4 ⟨t.heap, true, true⟩ = some (m, go)) (hok : m.tablesOk = true) :
    ∃ pre, pre <+: c.pages ∧ (go = true → pre = c.pages) ∧
      Mapped t.heap m.heap pml4 (imageOf pre) := by
  obtain ⟨go', hmap, hgo⟩ := c.run_pages hr
  obtain ⟨pre, hpre, hall, hm⟩ := MapState.mapAll_spec ho.own (c.pages_ok hc) hmap hok
  exact ⟨pre, hpre, fun h => hall (hgo h), hm⟩

theorem OwnedTree.after {h' : Heap} {M : List ℕ → Option (U64 × (ℕ → U8))} (ho : OwnedTree t pml4)
    (hm : Mapped t.heap h' pml4 M) : OwnedTree (t.after h') pml4 := by
  refine ⟨hm.own, fun k hk => ?_, Set.disjoint_left.2 ?_⟩
  · rcases hm.pages hk with hk' | hk'
    · exact Or.inl (ho.pages hk')
    · exact Or.inr ⟨hk', hm.own.space.not_free hk⟩
  · rintro k (hk | hk) hf
    · exact Set.disjoint_left.1 ho.allocated hk (hm.free hf)
    · exact hk.2 hf

/-- A fork makes a tree that owns the pages it takes. -/
theorem ownedTree_fork {h : Heap} {s s' : PagingState} {cr3 oldPml4 : U64}
    (hold : UserSpace h oldPml4) (hr : createUserPml4 ⟨h, true⟩ cr3 = some (s, pml4))
    (hcopy : s.copyUserPml4 pml4 oldPml4 = some s') (hok : s'.ok = true) :
    OwnedTree ⟨s'.heap, h.freePages \ s'.heap.freePages⟩ pml4 ∧
      h.AgreeOutside h.freePages s'.heap ∧ ForkCopy h s'.heap oldPml4 pml4 := by
  have hok₁ := foldlM_mono (fun _ _ _ => copyPdpt_mono) hcopy hok
  have hn := createUserPml4_spec (s := ⟨h, true⟩) hold.sound hr hok₁
  obtain ⟨hc, ho⟩ := copyUserPml4_induction (copyInvariant_owning h (hn.copySource hold).1)
    (fun _ => ⟨hn.copying, hn.owning⟩) hcopy hok
  have hpages := ho.pages
  rw [Set.union_empty] at hpages
  refine ⟨⟨ho.own, fun k hk => ⟨hpages ▸ Or.inr hk, ho.own.space.not_free hk⟩,
    Set.disjoint_sdiff_left⟩, hn.agree.trans (hc.agree.mono ?_), hc.forkCopy hn hold⟩
  exact Set.union_subset (hn.free.trans_subset Set.sdiff_subset)
    (Set.singleton_subset_iff.2 hn.mem_free)

/-- Every tree of a run owns its pages. -/
theorem TreeRun.ownedTree (hr : TreeRun pml4 t) : OwnedTree t pml4 := by
  induction hr with
  | create sound run ok =>
    have hn := createUserPml4_spec sound run ok
    refine ⟨hn.ownTree, ?_, Set.disjoint_singleton_left.2 ?_⟩
    · rintro k ⟨p, n, hp, rfl⟩
      obtain ⟨-, rfl⟩ := hn.empty p n hp
      rfl
    · rw [hn.free]
      exact fun h => h.2 rfl
  | fork old run copy ok => exact (ownedTree_fork old run copy ok).1
  | call _ meets run tables ih =>
    obtain ⟨pre, -, -, hm⟩ := ih.call meets run tables
    exact ih.after hm
  | other _ und held ih =>
    exact ⟨ih.own.undisturbed und, und.spacePages_eq ▸ ih.pages, held⟩

/-- The last page asked for at each path is in the image. -/
theorem exists_imageOf {ps : List PageReq} {p : PageReq} (hp : p ∈ ps) :
    ∃ f b, imageOf ps (vaPath p.va) = some (f, b) := by
  induction ps using List.reverseRecOn with
  | nil => exact absurd hp List.not_mem_nil
  | append_singleton ps q ih =>
    rw [imageOf_concat]
    by_cases hq : vaPath p.va = vaPath q.va
    · exact ⟨_, _, by rw [hq, Function.update_self]⟩
    · rw [Function.update_of_ne hq]
      refine ih ?_
      rcases List.mem_append.1 hp with hp | hp
      · exact hp
      · exact absurd (by rw [List.mem_singleton.1 hp]) hq

/-- In every run the tree owns its pages, a call writes to them and to free pages only, and what it
reports to be done is done; and so for a fork. -/
theorem exhaustion_safe (hr : TreeRun pml4 t) : OwnedTree t pml4 ∧
    (∀ (c : MapCall) (m : MapState) (go : Bool), c.Meets →
      c.run pml4 ⟨t.heap, true, true⟩ = some (m, go) → m.tablesOk = true →
      t.heap.AgreeOutside (t.heap.freePages ∪ t.owned) m.heap ∧
      (go = true → ∀ p ∈ c.pages, ∃ f b, imageOf c.pages (vaPath p.va) = some (f, b) ∧
        Shows m.heap pml4 (vaPath p.va) f b)) ∧
    ∀ (s s' : PagingState) (cr3 newPml4 : U64),
      createUserPml4 ⟨t.heap, true⟩ cr3 = some (s, newPml4) →
      s.copyUserPml4 newPml4 pml4 = some s' → s'.ok = true →
      t.heap.AgreeOutside t.heap.freePages s'.heap ∧ ForkCopy t.heap s'.heap pml4 newPml4 := by
  have ho := hr.ownedTree
  refine ⟨ho, fun c m go hc hrun hok => ?_, fun s s' cr3 newPml4 hcreate hcopy hok =>
    (ownedTree_fork ho.own.space hcreate hcopy hok).2⟩
  obtain ⟨pre, -, hpre, hm⟩ := ho.call hc hrun hok
  refine ⟨hm.agree.mono (Set.union_subset_union_right _ (tablePages_subset.trans ho.pages)),
    fun hgo p hp => ?_⟩
  obtain rfl := hpre hgo
  obtain ⟨f, b, hi⟩ := exists_imageOf hp
  exact ⟨f, b, hi, hm.shows _ f b hi⟩

end Tree

/-- A run with one call : a page at `0x400000`. -/
theorem exhaustion_safe_boot : ∃ t pml4 m, TreeRun pml4 t ∧
    (MapCall.map (zeroReq 0x400000)).run pml4 ⟨t.heap, true, true⟩ = some (m, true) ∧
    m.tablesOk = true ∧ OwnedTree (t.after m.heap) pml4 := by
  obtain ⟨h₀, s, pml4, -, hr, hok, hn, hcard, hs⟩ := exists_new_space (n := 16) (by norm_num)
  have hrun : TreeRun pml4 ⟨s.heap, {pageOf pml4}⟩ :=
    .create (s := ⟨h₀, true⟩) hs hr hok
  have hp : (zeroReq 0x400000).Ok := zeroReq_ok (by decide)
  obtain ⟨⟨m, go⟩, hm⟩ := (MapState.mk s.heap true true).exists_mapNewPage pml4 0x400000
    (pteUser ||| pteWrite) fun _ h => h
  obtain ⟨rfl, -, hk⟩ := MapState.mapNewPage_ok (m := ⟨s.heap, true, true⟩) hn.space hp hm
    (hcard.ge.trans' (by norm_num))
  have hcall : TreeRun pml4 (Tree.after ⟨s.heap, {pageOf pml4}⟩ m.heap) :=
    .call (c := .map (zeroReq 0x400000)) hrun hp hm hk
  exact ⟨⟨s.heap, {pageOf pml4}⟩, pml4, m, hrun, hm, hk, (exhaustion_safe hcall).1⟩

/-! ## A missing table -/

/-- A change of the memory does not matter to an empty allocator. -/
theorem Heap.Sound.of_empty {h : Heap} (hs : h.Sound) (hno : h.freePages = ∅) (h' : Heap)
    (hl : h'.freeLists = h.freeLists) (hh : h'.hhdmOffset = h.hhdmOffset) :
    h'.Sound ∧ h'.freePages = ∅ := by
  obtain ⟨hs', hf⟩ := hs.congr h' hl hh fun x hx => absurd (hno ▸ hx) (Set.notMem_empty _)
  exact ⟨hs', hf.trans hno⟩

namespace PagingState

variable {s s' : PagingState} {t t' : U64} {i : ℕ}

theorem not_present_of_zero {e : U64} (he : e = 0) : ¬Present e := by
  rw [he]
  exact fun h => h BitVec.zero_and

/-- `getTable` when no page is left : the entry leads to the virtual address 0. -/
theorem getTable_empty (hs : s.heap.Sound) (hno : s.heap.freePages = ∅)
    (hp : ¬Present (s.heap.entry t i)) (hr : s.getTable t i = some (s', t')) :
    t' = 0 ∧ s'.heap = (s.heap.zeroPage 0).setEntry t i
      (s.heap.virtToPhys 0 ||| (ptePresent ||| pteWrite ||| pteUser)) := by
  have hk : s.kallocPage = some (⟨s.heap, s.ok && decide ((0 : U64) ≠ 0)⟩, 0) := by
    rcases kalloc_one hs with ⟨hk, -⟩ | ⟨_, _, -, ht⟩
    · rw [kallocPage, hk]
      rfl
    · exact absurd ht.mem_free (by rw [hno]; exact Set.notMem_empty _)
  rw [getTable, if_neg hp, hk] at hr
  obtain ⟨rfl, rfl⟩ := Prod.mk.inj (Option.some.inj hr)
  have hback : s.heap.physToVirt (s.heap.virtToPhys 0) = 0 := BitVec.sub_add_cancel _ _
  have hor : s.heap.virtToPhys 0 ||| ptePresent ||| pteWrite ||| pteUser =
      s.heap.virtToPhys 0 ||| (ptePresent ||| pteWrite ||| pteUser) := by
    rw [BitVec.or_assoc, BitVec.or_assoc, BitVec.or_assoc]
  rw [hback, hor]
  refine ⟨?_, rfl⟩
  rw [entry_setEntry_self]
  exact (pteAddr_congr (h := s.heap) rfl _).trans (pteAddr_or hs.hhdm (by decide) (by decide))

/-- `map_page_pml4` when no page is left. -/
theorem mapPagePml4_empty {pml4 phys flags : U64} (hs : s.heap.Sound) (hal : PageAligned pml4)
    (h0 : pageOf pml4 ≠ 0) (hno : s.heap.freePages = ∅) (he : ¬Present (s.heap.entry pml4 0))
    (hr : s.mapPagePml4 pml4 0x40000000 phys flags = some s') :
    ∃ e, nodeAt s'.heap pml4 [0] = some ⟨3, e, 0⟩ ∧
      nodeAt s'.heap pml4 (vaPath 0x40000000) = none := by
  obtain ⟨s₁, pdpt, s₂, pd, s₃, pt, h₁, h₂, h₃, rfl⟩ := mapPagePml4_eq_some hr
  have hz : PageAligned (0 : U64) := by decide
  rw [show pml4Index 0x40000000 = 0 by decide] at h₁
  rw [show pdptIndex 0x40000000 = 1 by decide] at h₂
  rw [show pdIndex 0x40000000 = 0 by decide] at h₃
  have hother : ∀ (h : Heap) (i : ℕ) (e x : U64), i < 512 → pageOf x = pageOf pml4 →
      ((h.zeroPage 0).setEntry 0 i e).mem x = h.mem x := fun h i e x hi hx =>
    (setEntry_mem_of_pageOf_ne hz hi (hx ▸ h0)).trans (zeroPage_mem_of_pageOf_ne hz (hx ▸ h0))
  -- The three tables are all at the address 0.
  obtain ⟨rfl, e₁⟩ := getTable_empty hs hno he h₁
  obtain ⟨hs₁, hno₁⟩ := hs.of_empty hno s₁.heap (e₁ ▸ rfl) (e₁ ▸ rfl)
  have he₁ : ¬Present (s₁.heap.entry 0 1) := by
    refine not_present_of_zero ?_
    rw [e₁]
    refine (entry_congr hz (by norm_num) fun x hx => ?_).trans
      (entry_zeroPage s.heap 0 (show 1 < 512 by norm_num))
    exact setEntry_mem_of_pageOf_ne hal (by norm_num) (by rw [hx]; exact h0.symm)
  obtain ⟨rfl, e₂⟩ := getTable_empty hs₁ hno₁ he₁ h₂
  obtain ⟨hs₂, hno₂⟩ := hs₁.of_empty hno₁ s₂.heap (e₂ ▸ rfl) (e₂ ▸ rfl)
  have he₂ : ¬Present (s₂.heap.entry 0 0) := by
    refine not_present_of_zero ?_
    rw [e₂]
    refine (load64_congr fun x hx => ?_).trans
      (entry_zeroPage s₁.heap 0 (show 0 < 512 by norm_num))
    exact setEntry_mem_of_not_within
      (not_within_entry_of_ne (by norm_num) (by norm_num) Nat.zero_ne_one hx)
  obtain ⟨rfl, e₃⟩ := getTable_empty hs₂ hno₂ he₂ h₃
  have hpt : ptIndex 0x40000000 = 0 := by decide
  rw [hpt]
  have hd₁ : s₁.heap.hhdmOffset = s.heap.hhdmOffset := e₁ ▸ rfl
  have hd₂ : s₂.heap.hhdmOffset = s₁.heap.hhdmOffset := e₂ ▸ rfl
  have hd₃ : s₃.heap.hhdmOffset = s₂.heap.hhdmOffset := e₃ ▸ rfl
  set e := s.heap.virtToPhys 0 ||| (ptePresent ||| pteWrite ||| pteUser) with hedef
  set h' := s₃.heap.setEntry 0 0 (phys &&& pageFrameMask ||| flags ||| ptePresent) with hh'
  have hroot : h'.entry pml4 0 = e := by
    refine (entry_congr hal (by norm_num) fun x hx => ?_).trans
      ((congrArg (fun h => Heap.entry h pml4 0) e₁).trans (entry_setEntry_self _ _ _ _))
    rw [hh', setEntry_mem_of_pageOf_ne hz (by norm_num) (hx ▸ h0), e₃,
      hother _ _ _ x (by norm_num) hx, e₂, hother _ _ _ x (by norm_num) hx]
  have haddr : h'.pteAddr e = 0 :=
    (pteAddr_congr ((hd₃.trans hd₂).trans hd₁) e).trans (pteAddr_or hs.hhdm hz (by decide))
  have hphys : PageAligned (s.heap.virtToPhys 0) := hz.sub hs.hhdm
  have hpres : Present e := by
    rw [present_iff_flags, hedef, pteFlags_or hphys (by decide)]
    decide
  have hnode : nodeAt h' pml4 [0] = some ⟨3, e, 0⟩ := by
    refine (walk_concat_of nodeAt_nil 0).trans (child_eq_some.2 ⟨?_, ?_, ?_, ?_⟩)
    · exact Nat.succ_ne_zero 3
    · exact (by norm_num : 0 < 256)
    · exact hroot.symm ▸ hpres
    · change _ = Node.mk 3 (h'.entry pml4 0) (h'.pteAddr (h'.entry pml4 0))
      rw [hroot, haddr]
  refine ⟨e, hnode, ?_⟩
  have hmiss : h'.entry 0 1 = 0 := by
    refine (load64_congr fun x hx => ?_).trans
      (entry_zeroPage s₂.heap 0 (show 1 < 512 by norm_num))
    have hx' : ¬Within x (entryAddr 0 0) 8 :=
      not_within_entry_of_ne (by norm_num) (by norm_num) Nat.one_ne_zero hx
    rw [hh', setEntry_mem_of_not_within hx', e₃,
      setEntry_mem_of_not_within hx']
  have hnone : nodeAt h' pml4 [0, 1] = none := by
    refine (walk_concat_of hnode 1).trans (if_neg fun h => ?_)
    rw [hmiss] at h
    exact h.2.2 BitVec.zero_and
  rw [show vaPath 0x40000000 = [0, 1, 0, 0] by decide]
  exact nodeAt_eq_none_of_cone hnone ⟨[0, 0], rfl⟩

end PagingState

/-- One page is left. `sys_brk` maps it and reports success, but the tree now leads to the virtual
address 0, which it does not own, and the new heap page is not mapped. -/
theorem noTable_brk : ∃ h₀ s pml4 m,
    freerange (kinit (fun _ => 0) 0xffff800000000000) 0x100000 0x102000 = some h₀ ∧
    createUserPml4 ⟨h₀, true⟩ 0 = some (s, pml4) ∧ TreeRun pml4 ⟨s.heap, {pageOf pml4}⟩ ∧
    (MapCall.brk 0x40000000 0x40001000).run pml4 ⟨s.heap, true, true⟩ = some (m, true) ∧
    (∃ e, nodeAt m.heap pml4 [0] = some ⟨3, e, 0⟩) ∧
    nodeAt m.heap pml4 (vaPath 0x40000000) = none ∧
    ¬OwnedTree (Tree.after ⟨s.heap, {pageOf pml4}⟩ m.heap) pml4 := by
  obtain ⟨h₀, s, pml4, hboot, hr, hok, hn, hcard, hs⟩ := exists_new_space (n := 1) (by norm_num)
  have hrun : TreeRun pml4 ⟨s.heap, {pageOf pml4}⟩ := .create (s := ⟨h₀, true⟩) hs hr hok
  have hne : pageOf pml4 ≠ 0 := fun h => hs.zero_not_mem (h ▸ hn.mem_free)
  have hfin : s.heap.freePages.Finite := Set.finite_of_ncard_ne_zero (by omega)
  -- The last page becomes the heap page.
  rcases kalloc_one hn.space.sound with ⟨-, hno⟩ | ⟨h₁, v, hk, ht⟩
  · rw [hno, Set.ncard_empty] at hcard
    omega
  obtain ⟨hsp, hfree, hag, hnodes⟩ := hn.space.of_take ht (h₁.zeroPage v) rfl rfl
    fun x hx => zeroPage_mem_of_pageOf_ne ht.aligned hx
  have hone := Set.ncard_sdiff_singleton_of_mem ht.mem_free
  have hno : (h₁.zeroPage v).freePages = ∅ := by
    rw [hfree]
    exact (Set.ncard_eq_zero (hfin.subset Set.sdiff_subset)).1 (by omega)
  have hent : ¬Present ((h₁.zeroPage v).entry pml4 0) := fun hp => by
    have hc := (walk_concat_of nodeAt_nil 0).trans
      (child_eq_some.2 ⟨Nat.succ_ne_zero 3, (by norm_num : 0 < 256), hp, rfl⟩)
    exact absurd (hn.empty _ _ ((hnodes _).symm.trans hc)).1 (by simp)
  obtain ⟨t, hmap⟩ := exists_mapPagePml4 ⟨h₁.zeroPage v, true⟩ pml4 0x40000000
    ((h₁.zeroPage v).virtToPhys v) (pteUser ||| pteWrite)
  obtain ⟨e, hnode, hnone⟩ := mapPagePml4_empty (s := ⟨h₁.zeroPage v, true⟩) hsp.sound
    hsp.root_aligned hne hno hent hmap
  have hpage : (MapState.mk s.heap true true).mapNewPage pml4 0x40000000 (pteUser ||| pteWrite)
      (fun _ h => h) = some (⟨t.heap, true, t.ok⟩, true) := by
    rw [MapState.mapNewPage, hk, Option.bind_some]
    dsimp only
    rw [if_neg ht.ne_zero, hmap]
    rfl
  have hcall : (MapCall.brk 0x40000000 0x40001000).run pml4 ⟨s.heap, true, true⟩ =
      some (⟨t.heap, true, t.ok⟩, true) := by
    have hpages : pagesFrom (pageUp 0x40000000) (pageUp 0x40001000) = [0x40000000] := by
      decide
    rw [MapCall.run, sysBrk]
    dsimp only
    rw [if_neg (by decide), if_neg (by decide), if_pos (by decide),
      forPages_eq _ _ (pageAligned_pageUp _), hpages, Loop.each_cons, hpage]
    rfl
  refine ⟨h₀, s, pml4, _, hboot, hr, hrun, hcall, ⟨e, hnode⟩, hnone, fun ho => ?_⟩
  have hp0 : pageOf (0 : U64) = 0 := by decide
  rcases ho.pages ⟨[0], _, hnode, hp0⟩ with h | h
  · exact hne h.symm
  · exact hn.space.sound.zero_not_mem h.1

end Jeos
