import Jeos.ForkPages

/-!
# The heap of a process

`sys_brk` maps the pages between the old and the new break and unmaps none when the break
goes down. `BrkState` is the heap with the frames that `sys_brk` got from `kalloc`, and
`BrkRun` the life of a process after `exec`, with any calls of `sys_brk`.

A page that is still mapped is mapped again after the break went down, or after a call
that ran out of memory half-way, and then its old frame is lost
(`MapState.mapReq_again`). When every call meets a page not mapped before, and no table is
missing, the frames are mapped by one page each, the pages below the break are all mapped,
and a call leaves what is mapped as it is (`brk_heap_owned`).
-/

set_option linter.unusedSectionVars false

namespace Jeos

open ByteMemory TreeWalk Elf PagingState

/-! ## Frames -/

/-- The page at `va` leads to the frame `f` in user mode. -/
def MapsTo (h : Heap) (pml4 va f : U64) : Prop :=
  ∃ e, userPte h pml4 va = some e ∧ h.pteAddr e = f

/-- An address at which `sys_brk` can map a page. -/
structure HeapPage (va : U64) : Prop where
  aligned : PageAligned va
  base : userHeapBase ≤ va
  top : va < 0x400000000

/-- `mapReq`, with the frames `kalloc` gave. -/
def MapState.takeReq (pml4 : U64) (s : MapState × List U64) (p : PageReq) :
    Option ((MapState × List U64) × Bool) :=
  (kalloc s.1.heap 1).bind fun (_, page) =>
    (s.1.mapReq pml4 p).map fun (m, go) => ((m, if page = 0 then s.2 else page :: s.2), go)

/-- The allocator and the memory, `p->brk`, and the frames `sys_brk` got from `kalloc`. -/
structure BrkState where
  heap : Heap
  brk : U64
  frames : List U64

namespace BrkState

/-- `sys_brk(newBrk)` : the return value and the process after the call. -/
def call (pml4 : U64) (s : BrkState) (newBrk : U64) : Option (BrkState × U64) :=
  (sysBrk ⟨s.heap, true, true⟩ (some ⟨pml4, s.brk⟩) newBrk).bind fun (m, p, ret) =>
    (Loop.each (MapState.takeReq pml4) (MapCall.brk s.brk newBrk).pages
      (⟨s.heap, true, true⟩, s.frames)).map fun (t, _) =>
        (⟨m.heap, (p.map ProcMem.brk).getD s.brk, t.2⟩, ret)

end BrkState

/-- The nodes on the way to the pages `ps`. -/
def reqPaths (ps : List PageReq) : Set (List ℕ) := {q | ∃ p ∈ ps, q <+: vaPath p.va}

/-- The number of pages it takes to map `ps` : the frames and the missing tables. -/
noncomputable def mapCost (h : Heap) (pml4 : U64) (ps : List PageReq) : ℕ :=
  (reqPaths ps \ nodePaths h pml4).ncard

/-- Every page of the list for which there is memory is not mapped, and there is memory for the
tables on the way to it. -/
def Unmapped (h : Heap) (pml4 : U64) (ps : List PageReq) : Prop :=
  ∀ pre p post, ps = pre ++ p :: post → mapCost h pml4 pre < h.freePages.ncard →
    vaPath p.va ∉ nodePaths h pml4 ∧ mapCost h pml4 (pre ++ [p]) ≤ h.freePages.ncard

section Frames

variable {h h' h₁ : Heap} {pml4 v e f va va' : U64} {m m' : MapState} {go : Bool} {p : PageReq}
  {ps pre post : List PageReq} {q : List ℕ} {n : Node}

theorem mapsTo_iff (ho : OwnTree h pml4) :
    MapsTo h pml4 va f ↔ ∃ n, nodeAt h pml4 (vaPath va) = some n ∧ n.addr = f := by
  constructor
  · rintro ⟨e, he, rfl⟩
    obtain ⟨n, hn, -, rfl⟩ := ho.space.userPte_eq_some.1 he
    exact ⟨n, hn, nodeAt_addr hn (vaPath_ne_nil va)⟩
  · rintro ⟨n, hn, rfl⟩
    refine ⟨n.pte, ho.space.userPte_eq_some.2 ⟨n, hn, ?_, rfl⟩,
      (nodeAt_addr hn (vaPath_ne_nil va)).symm⟩
    exact ho.user _ n hn (nodeAt_vaPath_level hn)

/-- A frame is mapped by one page. -/
theorem MapsTo.unique (ho : OwnTree h pml4) (h1 : MapsTo h pml4 va f) (h2 : MapsTo h pml4 va' f)
    (ha : PageAligned va) (ha' : PageAligned va') (hlt : va.toNat < 2 ^ 48)
    (hlt' : va'.toNat < 2 ^ 48) : va' = va := by
  obtain ⟨n, hn, rfl⟩ := (mapsTo_iff ho).1 h1
  obtain ⟨n', hn', he⟩ := (mapsTo_iff ho).1 h2
  have hpath := ho.apart _ _ n' n hn' hn (by rw [he])
  have hpage := pageOf_eq_of_vaPath_eq hlt' hlt hpath
  exact BitVec.eq_of_toNat_eq (by rw [ha.toNat_eq, ha'.toNat_eq, hpage])

/-- What is mapped in `h` is mapped in `h'`, to the same frames with the same bytes. -/
structure KeepsPages (pml4 : U64) (h h' : Heap) : Prop where
  nodes : ∀ q n, nodeAt h pml4 q = some n → nodeAt h' pml4 q = some n
  bytes : ∀ q n, nodeAt h pml4 q = some n → n.level = 0 → SameBytes h h' n.addr n.addr

theorem KeepsPages.refl (h : Heap) (pml4 : U64) : KeepsPages pml4 h h :=
  ⟨fun _ _ hn => hn, fun _ _ _ _ _ _ => rfl⟩

/-- The page `p` is mapped to the frame `v`, which was free, and no other page changes. -/
structure AddsPage (pml4 : U64) (p : PageReq) (v : U64) (h h' : Heap) : Prop where
  own : OwnTree h' pml4
  free : h'.freePages ⊆ h.freePages
  taken : pageOf v ∈ h.freePages
  keeps : ∀ q n, q ≠ vaPath p.va → nodeAt h pml4 q = some n → nodeAt h' pml4 q = some n
  nodes : ∀ q n, nodeAt h' pml4 q = some n → q ≠ vaPath p.va → nodeAt h pml4 q = some n ∨
    pageOf n.addr ∈ h.freePages
  frame : ∃ n, nodeAt h' pml4 (vaPath p.va) = some n ∧ n.addr = v ∧
    pteFlags n.pte = p.flags ||| ptePresent
  bytes : ∀ q n, nodeAt h pml4 q = some n → n.level = 0 → SameBytes h h' n.addr n.addr

/-- The page `v` was taken from the allocator and filled for `p`. -/
structure FillsPage (pml4 : U64) (p : PageReq) (v : U64) (h g : Heap) : Prop where
  space : UserSpace g pml4
  taken : pageOf v ∈ h.freePages
  free : g.freePages = h.freePages \ {pageOf v}
  nodes : ∀ q, nodeAt g pml4 q = nodeAt h pml4 q
  frame : g.pteAddr (g.virtToPhys v) = v
  notFree : pageOf (g.pteAddr (g.virtToPhys v)) ∉ g.freePages
  notTable : pageOf (g.pteAddr (g.virtToPhys v)) ∉ tablePages g pml4

theorem TakesPage.fillsPage (ht : TakesPage h h₁ v) (hu : UserSpace h pml4) (hp : p.Ok) :
    FillsPage pml4 p v h (p.write v (h₁.zeroPage v)) := by
  have hhd : (p.write v (h₁.zeroPage v)).hhdmOffset = h₁.hhdmOffset :=
    (hp.fills.hhdm v _).trans rfl
  obtain ⟨hsp, hfree, -, hnodes⟩ := hu.of_take ht (p.write v (h₁.zeroPage v))
    ((hp.fills.freeLists v _).trans rfl) hhd fun x hx =>
      (hp.fills.outside v _ x ht.aligned hx).trans (zeroPage_mem_of_pageOf_ne ht.aligned hx)
  have hpa := pteAddr_virtToPhys (hhd ▸ ht.sound.hhdm) ht.aligned
  refine ⟨hsp, ht.mem_free, hfree, hnodes, hpa, ?_, ?_⟩
  · rw [hpa, hfree]
    exact fun hv => hv.2 rfl
  · rw [hpa]
    rintro ⟨q, n, hn, -, hk⟩
    exact hu.held q n ((hnodes q).symm.trans hn) (hk ▸ ht.mem_free)

/-- Mapping a page : the allocator is empty, or a page is taken and filled, and
`map_page_pml4` is called. -/
theorem MapState.mapReq_cases (hu : UserSpace m.heap pml4) (hp : p.Ok)
    (hr : m.mapReq pml4 p = some (m', go)) :
    (kalloc m.heap 1 = some (m.heap, 0) ∧ m.heap.freePages = ∅ ∧ go = false ∧
      m'.heap = m.heap ∧ m'.tablesOk = m.tablesOk) ∨
    ∃ h₁ v g t, kalloc m.heap 1 = some (h₁, v) ∧ v ≠ 0 ∧ FillsPage pml4 p v m.heap g ∧
      PagingState.mapPagePml4 ⟨g, true⟩ pml4 p.va (g.virtToPhys v) p.flags = some t ∧
      go = true ∧ m'.heap = t.heap ∧ m'.tablesOk = (m.tablesOk && t.ok) := by
  rw [mapReq, mapNewPage] at hr
  obtain ⟨⟨h₁, v⟩, hk, hr⟩ := Option.bind_eq_some_iff.1 hr
  rcases kalloc_one hu.sound with ⟨hk', hno⟩ | ⟨h₁', v', hk', ht⟩
  · obtain ⟨rfl, rfl⟩ := Prod.mk.inj (Option.some.inj (hk.symm.trans hk'))
    obtain ⟨rfl, rfl⟩ := Prod.mk.inj (Option.some.inj hr)
    exact Or.inl ⟨hk, hno, rfl, rfl, rfl⟩
  · obtain ⟨rfl, rfl⟩ := Prod.mk.inj (Option.some.inj (hk.symm.trans hk'))
    simp only [if_neg ht.ne_zero] at hr
    obtain ⟨t, hmap, he⟩ := Option.map_eq_some_iff.1 hr
    obtain ⟨rfl, rfl⟩ := Prod.mk.inj he
    exact Or.inr ⟨h₁, v, _, t, hk, ht.ne_zero, ht.fillsPage hu hp, hmap, rfl, rfl, rfl⟩

/-- With the tables there, one page is added. -/
theorem MapState.mapReq_adds {g : Heap} {t : PagingState} (ho : OwnTree m.heap pml4) (hp : p.Ok)
    (hr : m.mapReq pml4 p = some (m', true)) (hok : m'.tablesOk = true)
    (hf : FillsPage pml4 p v m.heap g)
    (hmap : PagingState.mapPagePml4 ⟨g, true⟩ pml4 p.va (g.virtToPhys v) p.flags = some t)
    (hht : m'.heap = t.heap) (htok : t.ok = true) : AddsPage pml4 p v m.heap m'.heap := by
  obtain ⟨-, -, hm⟩ := (Mapped.refl ho).mapNewPage hp.user hp.flagBits hp.userFlag hp.fills hr hok
  rw [if_pos rfl] at hm
  obtain ⟨hx, -, hq⟩ := PagingState.mapPagePml4_spec (s := ⟨g, true⟩) hf.space hp.user hp.flagBits
    hf.notFree hf.notTable hmap htok
  rw [← hht] at hx hq
  refine ⟨hm.own, hm.free, hf.taken, fun q n hne hn => hx.keeps q n hne ((hf.nodes q).trans hn),
    fun q n hn hne => ?_, ⟨_, hq, hf.frame, ?_⟩, fun q n hn hl i hi => ?_⟩
  · rcases hx.nodes q n hn with hn' | ⟨-, hfree⟩ | ⟨-, he⟩
    · exact Or.inl ((hf.nodes q).symm.trans hn')
    · exact Or.inr ((hf.free ▸ hfree : pageOf n.addr ∈ m.heap.freePages \ {pageOf v}).1)
    · exact absurd he hne
  · rw [BitVec.or_assoc, pteFlags_or (pageAligned_and _) (hp.flagBits.or (by decide))]
  · have hpage := pageOf_add (ho.space.aligned hn) hi
    refine hm.agree.mem _ ?_
    rw [hpage]
    rintro (hfr | hta)
    · exact ho.space.held q n hn hfr
    · exact ho.space.frame_not_table hn hl hta

/-- When a page is mapped again, its old frame is nowhere in the tree any more. -/
theorem AddsPage.lost (ha : AddsPage pml4 p v h h') (ho : OwnTree h pml4)
    (hn : nodeAt h pml4 (vaPath p.va) = some n) (va : U64) : ¬MapsTo h' pml4 va n.addr := by
  intro hm
  obtain ⟨n', hn', he⟩ := (mapsTo_iff ha.own).1 hm
  have hheld := ho.space.held _ n hn
  by_cases hq : vaPath va = vaPath p.va
  · obtain ⟨n₂, hn₂, hv, -⟩ := ha.frame
    rw [hq, hn₂] at hn'
    obtain rfl := Option.some.inj hn'
    exact hheld (he ▸ hv ▸ ha.taken)
  · rcases ha.nodes _ n' hn' hq with hold | hfree
    · exact hq (ho.apart _ _ n' n hold hn (by rw [he]))
    · exact hheld (he ▸ hfree)

/-! ## Counting the pages -/

theorem reqPaths_finite (ps : List PageReq) : (reqPaths ps).Finite := by
  refine paths_finite.subset ?_
  rintro q ⟨p, -, hq⟩
  exact ⟨hq.length_le, fun i hi => index_lt_of_mem_vaPath (hq.subset hi)⟩

theorem reqPaths_append (ps ps' : List PageReq) :
    reqPaths (ps ++ ps') = reqPaths ps ∪ reqPaths ps' := by
  ext q
  simp only [reqPaths, List.mem_append, Set.mem_union, Set.mem_ofPred_eq, or_and_right, exists_or]

theorem mem_reqPaths_singleton : q ∈ reqPaths [p] ↔ q <+: vaPath p.va := by
  simp [reqPaths]

/-- The nodes of the tree with those on the way to `ps`. -/
theorem mapCost_add (h : Heap) (pml4 : U64) (ps : List PageReq) :
    mapCost h pml4 ps + (nodePaths h pml4).ncard = (nodePaths h pml4 ∪ reqPaths ps).ncard := by
  rw [mapCost, Set.ncard_sdiff_add_ncard _ _ (reqPaths_finite ps) (nodePaths_finite h pml4),
    Set.union_comm]

/-- Two pages have other paths. -/
theorem not_mem_reqPaths (hne : ∀ p' ∈ pre, vaPath p'.va ≠ vaPath p.va) :
    vaPath p.va ∉ reqPaths pre := by
  rintro ⟨p', hp', hq⟩
  exact hne p' hp' (hq.eq_of_length rfl).symm

/-- A page takes four pages at most. -/
theorem mapCost_singleton_le (h : Heap) (pml4 : U64) (p : PageReq) : mapCost h pml4 [p] ≤ 4 := by
  have hsub : reqPaths [p] \ nodePaths h pml4 ⊆ (({[pml4Index p.va],
      [pml4Index p.va, pdptIndex p.va], [pml4Index p.va, pdptIndex p.va, pdIndex p.va],
      vaPath p.va} : Finset (List ℕ)) : Set (List ℕ)) := by
    rintro q ⟨hq, hno⟩
    rcases prefix_four.1 (mem_reqPaths_singleton.1 hq) with rfl | hq
    · exact absurd ⟨_, nodeAt_nil⟩ hno
    · simpa [vaPath] using hq
  have hle := Set.ncard_le_ncard hsub (Finset.finite_toSet _)
  rw [Set.ncard_coe_finset] at hle
  exact hle.trans Finset.card_le_four

/-- One page that is not mapped, and four free pages. -/
theorem unmapped_singleton (hnew : vaPath p.va ∉ nodePaths h pml4)
    (h4 : 4 ≤ h.freePages.ncard) : Unmapped h pml4 [p] := by
  intro pre p' post hx _
  obtain ⟨rfl, hx⟩ :=
    (List.append_eq_singleton_iff.1 hx.symm).resolve_right fun h => List.cons_ne_nil _ _ h.2
  obtain ⟨rfl, -⟩ := List.cons.inj hx
  exact ⟨hnew, (mapCost_singleton_le h pml4 _).trans h4⟩

/-- A page that is not mapped, when there is memory for its tables. -/
theorem MapState.mapReq_new (ho : OwnTree m.heap pml4) (hp : p.Ok)
    (hroom : m.heap.freePages.Nonempty → vaPath p.va ∉ nodePaths m.heap pml4 ∧
      mapCost m.heap pml4 [p] ≤ m.heap.freePages.ncard)
    (htab : m.tablesOk = true) (hr : m.mapReq pml4 p = some (m', go)) :
    m'.tablesOk = true ∧ ∃ h₁ v, kalloc m.heap 1 = some (h₁, v) ∧
      (v = 0 ∧ go = false ∧ m'.heap = m.heap ∨ v ≠ 0 ∧ go = true ∧
        vaPath p.va ∉ nodePaths m.heap pml4 ∧ AddsPage pml4 p v m.heap m'.heap ∧
        nodePaths m'.heap pml4 = nodePaths m.heap pml4 ∪ reqPaths [p] ∧
        budget m'.heap pml4 = budget m.heap pml4) := by
  rcases MapState.mapReq_cases ho.space hp hr with
    ⟨hk, -, rfl, hh, ht⟩ | ⟨h₁, v, g, t, hk, hv, hf, hmap, rfl, hh, ht⟩
  · exact ⟨ht.trans htab, _, 0, hk, Or.inl ⟨rfl, rfl, hh⟩⟩
  obtain ⟨hnew, hroom⟩ := hroom ⟨_, hf.taken⟩
  have hfin := ho.space.sound.finite
  have hone := Set.ncard_sdiff_singleton_add_one hf.taken hfin
  have hpaths : nodePaths g pml4 = nodePaths m.heap pml4 := by
    ext q
    simp only [nodePaths, hf.nodes]
  have hbudget : budget g pml4 + 1 = budget m.heap pml4 := by
    rw [budget, budget, hpaths, hf.free]
    omega
  have htok : t.ok = true := by
    by_contra hno
    have h0 : (0 : ℕ) ∉ g.freePages ∪ tablePages g pml4 := by
      rintro (h0 | ⟨q, n, hn, -, h0⟩)
      · exact hf.space.sound.zero_not_mem h0
      · refine ho.ne_zero q n ((hf.nodes q).symm.trans hn) (BitVec.eq_of_toNat_eq ?_)
        rw [(hf.space.aligned hn).toNat_eq, h0, Nat.zero_mul]
        rfl
    obtain ⟨r, N, hr, hrne, -, hrN, hN, hb⟩ := mapPagePml4_fails (s := ⟨g, true⟩)
      hf.space subset_rfl h0 hp.user hmap rfl (Bool.eq_false_iff.2 hno)
    change budget g pml4 = N.ncard at hb
    have hqN : vaPath p.va ∉ insert r N := by
      rintro (hq | hq)
      · exact hrne hq.symm
      rcases hN hq with hq | hq
      · exact hnew (hpaths ▸ hq)
      · exact hrne (hr.eq_of_length_le (List.IsPrefix.length_le hq))
    -- The nodes that are there, the missing table and the page itself.
    have hsub : insert (vaPath p.va) (insert r N) ⊆ nodePaths m.heap pml4 ∪ reqPaths [p] := by
      refine Set.insert_subset (Or.inr (mem_reqPaths_singleton.2 List.prefix_rfl))
        (Set.insert_subset (Or.inr (mem_reqPaths_singleton.2 hr)) fun q hq => ?_)
      rcases hN hq with hq | hq
      · exact Or.inl (hpaths ▸ hq)
      · exact Or.inr (mem_reqPaths_singleton.2 (List.IsPrefix.trans hq hr))
    have hall := (nodePaths_finite m.heap pml4).union (reqPaths_finite [p])
    have hle := Set.ncard_le_ncard hsub hall
    have hNfin := hall.subset ((Set.subset_insert _ _).trans ((Set.subset_insert _ _).trans hsub))
    rw [Set.ncard_insert_of_notMem hqN (hNfin.insert r), Set.ncard_insert_of_notMem hrN hNfin,
      ← mapCost_add] at hle
    rw [hb, budget] at hbudget
    omega
  have hok : m'.tablesOk = true := by rw [ht, htab, htok, Bool.and_self]
  obtain ⟨hp', hb'⟩ := mapPagePml4_budget (s := ⟨g, true⟩) hf.space hp.user hp.flagBits
    hf.notFree hf.notTable (hpaths ▸ hnew) hmap htok
  have hreq : reqPaths [p] = {q | q <+: vaPath p.va} := Set.ext fun q => mem_reqPaths_singleton
  have hadd := MapState.mapReq_adds ho hp hr hok hf hmap hh htok
  refine ⟨hok, h₁, v, hk, Or.inr ⟨hv, rfl, hnew, hadd, ?_, ?_⟩⟩
  · rw [hh, hp', hreq]
    exact congrArg (· ∪ _) hpaths
  · rw [hh, hb', ← hbudget]

theorem KeepsPages.add (hk : KeepsPages pml4 h h₁) (ha : AddsPage pml4 p v h₁ h')
    (hnew : vaPath p.va ∉ nodePaths h₁ pml4) : KeepsPages pml4 h h' := by
  refine ⟨fun q n hn => ha.keeps q n ?_ (hk.nodes q n hn), fun q n hn hl i hi => ?_⟩
  · rintro rfl
    exact hnew ⟨n, hk.nodes _ n hn⟩
  · rw [ha.bytes q n (hk.nodes q n hn) hl i hi, hk.bytes q n hn hl i hi]

/-- The pages `pre` were added to the heap `h₀` in the frames that `fs` has more than `fs₀`. -/
structure Grown (pml4 : U64) (h₀ : Heap) (fs₀ : List U64) (pre : List PageReq) (h : Heap)
    (fs : List U64) : Prop where
  own : OwnTree h pml4
  keeps : KeepsPages pml4 h₀ h
  paths : nodePaths h pml4 = nodePaths h₀ pml4 ∪ reqPaths pre
  count : budget h pml4 = budget h₀ pml4
  frames : ∀ f ∈ fs, f ∈ fs₀ ∨ ∃ p ∈ pre, MapsTo h pml4 p.va f
  mapped : ∀ p ∈ pre, ∃ n, nodeAt h pml4 (vaPath p.va) = some n ∧
    pteFlags n.pte = p.flags ||| ptePresent

theorem Grown.refl (ho : OwnTree h pml4) (fs : List U64) : Grown pml4 h fs [] h fs := by
  refine ⟨ho, .refl h pml4, ?_, rfl, fun f hf => Or.inl hf, fun p hp => absurd hp List.not_mem_nil⟩
  rw [show reqPaths [] = ∅ from Set.eq_empty_of_forall_notMem fun q ⟨p, hp, _⟩ =>
    List.not_mem_nil hp, Set.union_empty]

variable {h₀ : Heap} {fs₀ fs : List U64}

/-- The memory that is left. -/
theorem Grown.room (hg : Grown pml4 h₀ fs₀ pre h fs) :
    h.freePages.ncard + mapCost h₀ pml4 pre = h₀.freePages.ncard ∧
      mapCost h pml4 [p] + mapCost h₀ pml4 pre = mapCost h₀ pml4 (pre ++ [p]) := by
  have hcount := hg.count
  have h1 := mapCost_add h₀ pml4 pre
  have h2 := mapCost_add h pml4 [p]
  have h3 := mapCost_add h₀ pml4 (pre ++ [p])
  rw [budget, budget, hg.paths] at hcount
  rw [hg.paths, Set.union_assoc, ← reqPaths_append] at h2
  omega

theorem MapsTo.keep (hm : MapsTo h pml4 va f) (ho : OwnTree h pml4) (ho' : OwnTree h' pml4)
    (hk : ∀ n, nodeAt h pml4 (vaPath va) = some n → nodeAt h' pml4 (vaPath va) = some n) :
    MapsTo h' pml4 va f := by
  obtain ⟨n, hn, he⟩ := (mapsTo_iff ho).1 hm
  exact (mapsTo_iff ho').2 ⟨n, hk n hn, he⟩

/-- One more page. -/
theorem Grown.step (hg : Grown pml4 h₀ fs₀ pre h fs) (ha : AddsPage pml4 p v h h')
    (hnew : vaPath p.va ∉ nodePaths h pml4)
    (hp : nodePaths h' pml4 = nodePaths h pml4 ∪ reqPaths [p])
    (hb : budget h' pml4 = budget h pml4) :
    Grown pml4 h₀ fs₀ (pre ++ [p]) h' (v :: fs) := by
  have hkeep : ∀ q n, nodeAt h pml4 q = some n → nodeAt h' pml4 q = some n := fun q n hn =>
    ha.keeps q n (by rintro rfl; exact hnew ⟨n, hn⟩) hn
  obtain ⟨m, hm, hmv, hmf⟩ := ha.frame
  refine ⟨ha.own, hg.keeps.add ha hnew, ?_, hb.trans hg.count, fun f hf => ?_, fun r hr => ?_⟩
  · rw [hp, hg.paths, Set.union_assoc, ← reqPaths_append]
  · rcases List.mem_cons.1 hf with rfl | hf
    · exact Or.inr ⟨p, by simp, (mapsTo_iff ha.own).2 ⟨m, hm, hmv⟩⟩
    · refine (hg.frames f hf).imp_right fun ⟨r, hr, hmr⟩ => ⟨r, by simp [hr], ?_⟩
      exact hmr.keep hg.own ha.own fun n hn => hkeep _ n hn
  · rcases List.mem_append.1 hr with hr | hr
    · obtain ⟨n, hn, hfl⟩ := hg.mapped r hr
      exact ⟨n, hkeep _ n hn, hfl⟩
    · obtain rfl := List.mem_singleton.1 hr
      exact ⟨m, hm, hmf⟩

theorem MapState.takeReq_eq {s : MapState} (hk : kalloc s.heap 1 = some (h₁, v))
    (hr : s.mapReq pml4 p = some (m', go)) (fs : List U64) :
    MapState.takeReq pml4 (s, fs) p = some ((m', if v = 0 then fs else v :: fs), go) := by
  rw [takeReq, hk, Option.bind_some, hr]
  rfl

theorem MapState.exists_takeReq (pml4 : U64) (s : MapState × List U64) (p : PageReq) :
    ∃ r, MapState.takeReq pml4 s p = some r := by
  obtain ⟨⟨s', v⟩, hk⟩ := PagingState.exists_kallocPage ⟨s.1.heap, true⟩
  obtain ⟨⟨h, w⟩, hk, -⟩ := Option.map_eq_some_iff.1 hk
  obtain ⟨⟨m, go⟩, hm⟩ := s.1.exists_mapNewPage pml4 p.va p.flags p.write
  exact ⟨_, MapState.takeReq_eq (s := s.1) hk hm s.2⟩

theorem MapState.takeReq_map (s : MapState × List U64) (p : PageReq) :
    (MapState.takeReq pml4 s p).map (Prod.map Prod.fst id) = MapState.mapReq pml4 s.1 p := by
  obtain ⟨⟨s', v⟩, hk⟩ := PagingState.exists_kallocPage ⟨s.1.heap, true⟩
  obtain ⟨⟨h, w⟩, hk, -⟩ := Option.map_eq_some_iff.1 hk
  obtain ⟨⟨m, go⟩, hm⟩ := s.1.exists_mapNewPage pml4 p.va p.flags p.write
  rw [show s = (s.1, s.2) from rfl, MapState.takeReq_eq hk hm]
  exact hm.symm

/-- Pages that are not mapped, one after the other : all of them, or those before the allocator
was empty. -/
theorem grown_each (ho : OwnTree m.heap pml4) (hps : ∀ p ∈ ps, p.Ok)
    (hne : ps.Pairwise fun p p' => vaPath p.va ≠ vaPath p'.va) (hun : Unmapped m.heap pml4 ps)
    (htab : m.tablesOk = true)
    (hr : Loop.each (MapState.takeReq pml4) ps (m, fs₀) = some ((m', fs), go)) :
    ∃ pre, pre <+: ps ∧ (go = true → pre = ps) ∧ Grown pml4 m.heap fs₀ pre m'.heap fs := by
  -- The round for one page.
  have hround : ∀ pre p post, ps = pre ++ p :: post → ∀ s s' g, s.1.tablesOk = true →
      Grown pml4 m.heap fs₀ pre s.1.heap s.2 → MapState.takeReq pml4 s p = some (s', g) →
      s'.1.tablesOk = true ∧
        Grown pml4 m.heap fs₀ (if g then pre ++ [p] else pre) s'.1.heap s'.2 := by
    rintro pre p post hx ⟨t, fs⟩ ⟨t', fs'⟩ g ht hg hr
    change Grown pml4 m.heap fs₀ pre t.heap fs at hg
    obtain ⟨⟨h₁, v⟩, hk, hr⟩ := Option.bind_eq_some_iff.1 hr
    obtain ⟨⟨t₁, g₁⟩, hmap, he⟩ := Option.map_eq_some_iff.1 hr
    obtain ⟨hs, rfl⟩ := Prod.mk.inj he
    obtain ⟨rfl, rfl⟩ := Prod.mk.inj hs
    have hroom : t.heap.freePages.Nonempty → vaPath p.va ∉ nodePaths t.heap pml4 ∧
        mapCost t.heap pml4 [p] ≤ t.heap.freePages.ncard := by
      intro hfree
      have hpos := (Set.ncard_pos hg.own.space.sound.finite).2 hfree
      obtain ⟨hleft, hcost⟩ := hg.room (p := p)
      obtain ⟨hnew, hle⟩ := hun pre p post hx (by omega)
      refine ⟨?_, by omega⟩
      rw [hg.paths]
      rintro (hq | hq)
      · exact hnew hq
      · refine not_mem_reqPaths (fun p' hp' => ?_) hq
        rw [hx, List.pairwise_append] at hne
        exact hne.2.2 p' hp' p List.mem_cons_self
    obtain ⟨htok, h₂, v', hk', hcase⟩ :=
      MapState.mapReq_new hg.own (hps p (by simp [hx])) hroom ht hmap
    obtain ⟨rfl, rfl⟩ := Prod.mk.inj (Option.some.inj (hk.symm.trans hk'))
    refine ⟨htok, ?_⟩
    rcases hcase with ⟨rfl, rfl, hh⟩ | ⟨hv, rfl, hnew, ha, hp', hb⟩
    · dsimp only
      rw [if_pos rfl, hh]
      exact hg
    · dsimp only
      rw [if_neg hv]
      exact hg.step ha hnew hp' hb
  have h := Loop.each_spec
    (I := fun pre s => s.1.tablesOk = true ∧ Grown pml4 m.heap fs₀ pre s.1.heap s.2)
    (J := fun s => ∃ pre, pre <+: ps ∧ Grown pml4 m.heap fs₀ pre s.1.heap s.2)
    (fun pre p post hx s s' ⟨ht, hg⟩ hr => hround pre p post hx s s' true ht hg hr)
    (fun pre p post hx s s' ⟨ht, hg⟩ hr =>
      ⟨pre, hx ▸ List.prefix_append _ _, (hround pre p post hx s s' false ht hg hr).2⟩)
    ⟨htab, Grown.refl ho fs₀⟩ hr
  rcases go with _ | _
  · obtain ⟨pre, hpre, hg⟩ := h
    exact ⟨pre, hpre, fun h => absurd h Bool.false_ne_true, hg⟩
  · exact ⟨ps, List.prefix_rfl, fun _ => rfl, h.2⟩

end Frames

/-! ## The pages of a call -/

section Call

variable {pml4 old new ret va f : U64} {h h' : Heap} {s s' : BrkState} {p : PageReq}

theorem heapTop_toNat : (0x400000000 : U64).toNat = 2 ^ 34 := rfl

theorem userHeapBase_toNat : userHeapBase.toNat = 2 ^ 30 := rfl

theorem MapCall.Grows.toNat_le (hg : MapCall.Grows old new) :
    new.toNat ≤ 2 ^ 34 ∧ old.toNat < new.toNat := by
  refine ⟨?_, BitVec.lt_def.1 hg.2⟩
  have := BitVec.not_lt.1 fun h => hg.1 (Or.inr h)
  exact BitVec.le_def.1 this

/-- A page of a call is one of the heap, filled with zeros. -/
theorem heapPage_of_mem (hbase : userHeapBase ≤ old) (hp : p ∈ (MapCall.brk old new).pages) :
    MapCall.Grows old new ∧ ∃ va ∈ pagesFrom (pageUp old) (pageUp new), p = zeroReq va ∧
      HeapPage va := by
  rw [MapCall.pages] at hp
  split_ifs at hp with hg
  · obtain ⟨va, hva, rfl⟩ := List.mem_map.1 hp
    obtain ⟨hnew, hlt⟩ := hg.toNat_le
    obtain ⟨i, hi, hva'⟩ := mem_pagesFrom.1 hva
    have hva' := BitVec.lt_def.1 hva'
    have hbase := BitVec.le_def.1 hbase
    rw [userHeapBase_toNat] at hbase
    rw [pageUp_toNat (by omega)] at hva' hi
    refine ⟨hg, va, hva, rfl, aligned_of_mem_pagesFrom (pageAligned_pageUp _) hva, ?_, ?_⟩
    · rw [BitVec.le_def, userHeapBase_toNat]
      omega
    · rw [BitVec.lt_def, heapTop_toNat]
      omega
  · exact absurd hp List.not_mem_nil

theorem HeapPage.toNat_lt (hp : HeapPage va) : va.toNat < 2 ^ 34 := BitVec.lt_def.1 hp.top

theorem brk_pages_pairwise (hbase : userHeapBase ≤ old) :
    (MapCall.brk old new).pages.Pairwise fun p p' => vaPath p.va ≠ vaPath p'.va := by
  by_cases hg : MapCall.Grows old new
  · have hpages : (MapCall.brk old new).pages = (pagesFrom (pageUp old) (pageUp new)).map zeroReq :=
      if_pos hg
    have hmem : ∀ va ∈ pagesFrom (pageUp old) (pageUp new), HeapPage va := fun va hva => by
      obtain ⟨-, va', -, he, hp⟩ := heapPage_of_mem (p := zeroReq va) hbase
        (hpages ▸ List.mem_map_of_mem hva)
      exact (show va = va' from congrArg PageReq.va he) ▸ hp
    rw [hpages, List.pairwise_map]
    refine (pagesFrom_pairwise _ _).imp_of_mem fun {va va'} hva hva' hlt he => ?_
    have hp := hmem va hva
    have hp' := hmem va' hva'
    have hpage := pageOf_eq_of_vaPath_eq (hp.toNat_lt.trans (by norm_num))
      (hp'.toNat_lt.trans (by norm_num)) he
    have := BitVec.lt_def.1 hlt
    rw [hp.aligned.toNat_eq, hp'.aligned.toNat_eq, hpage] at this
    exact Nat.lt_irrefl _ this
  · rw [show (MapCall.brk old new).pages = [] from if_neg hg]
    exact List.Pairwise.nil

theorem exists_sysBrk (m : MapState) (p : Option ProcMem) (new : U64) :
    ∃ r, sysBrk m p new = some r := by
  rcases p with _ | p
  · exact ⟨_, rfl⟩
  · rw [sysBrk]
    dsimp only
    split_ifs
    · exact ⟨_, rfl⟩
    · exact ⟨_, rfl⟩
    · rw [forPages_eq _ _ (pageAligned_pageUp _)]
      obtain ⟨r, hr⟩ := Loop.exists_each (f := fun (m : MapState) va =>
          m.mapNewPage p.pml4 va (pteUser ||| pteWrite) fun _ h => h)
        (fun m va => m.exists_mapNewPage p.pml4 va (pteUser ||| pteWrite) fun _ h => h)
        (pagesFrom (pageUp p.brk) (pageUp new)) m
      exact ⟨_, congrArg (Option.map _) hr⟩
    · exact ⟨_, rfl⟩

/-- `sys_brk` is the loop over its pages. -/
theorem BrkState.call_eq_some (hr : s.call pml4 new = some (s', ret)) :
    ret = s'.brk ∧ ∃ (m : MapState) (go : Bool), m.heap = s'.heap ∧
      Loop.each (MapState.takeReq pml4) (MapCall.brk s.brk new).pages
        (⟨s.heap, true, true⟩, s.frames) = some ((m, s'.frames), go) ∧
      s'.brk = if go ∧ ¬(new < userHeapBase ∨ new > 0x400000000) then new else s.brk := by
  obtain ⟨⟨m, p, ret'⟩, hbrk, hr⟩ := Option.bind_eq_some_iff.1 hr
  obtain ⟨⟨⟨m', fs⟩, go⟩, hloop, he⟩ := Option.map_eq_some_iff.1 hr
  obtain ⟨rfl, rfl⟩ := Prod.mk.inj he
  obtain ⟨rfl, go', hmap, hret⟩ := MapCall.sysBrk_pages hbrk
  have hsim := Loop.each_sim (f := MapState.takeReq pml4) (g := MapState.mapReq pml4) (π := Prod.fst)
    (ρ := id) MapState.takeReq_map (MapCall.brk s.brk new).pages (⟨s.heap, true, true⟩, s.frames)
  rw [hloop, List.map_id, ← MapState.mapAll, hmap] at hsim
  obtain ⟨rfl, rfl⟩ := Prod.mk.inj (Option.some.inj hsim)
  exact ⟨rfl, m', go, rfl, hloop, hret⟩

theorem BrkState.exists_call (pml4 : U64) (s : BrkState) (new : U64) :
    ∃ s', s.call pml4 new = some (s', s'.brk) := by
  obtain ⟨⟨m, p, ret⟩, hbrk⟩ := exists_sysBrk ⟨s.heap, true, true⟩ (some ⟨pml4, s.brk⟩) new
  obtain ⟨⟨t, go⟩, hloop⟩ := Loop.exists_each (f := MapState.takeReq pml4)
    (fun s p => MapState.exists_takeReq pml4 s p) (MapCall.brk s.brk new).pages
    (⟨s.heap, true, true⟩, s.frames)
  have hcall : s.call pml4 new = some (⟨m.heap, (p.map ProcMem.brk).getD s.brk, t.2⟩, ret) := by
    rw [call, hbrk, Option.bind_some]
    dsimp only
    rw [hloop]
    rfl
  obtain ⟨rfl, -⟩ := BrkState.call_eq_some hcall
  exact ⟨_, hcall⟩

end Call

/-! ## Runs -/

/-- The heap of a process after `exec` : any calls of `sys_brk` that map new pages only and find
memory for the tables, and what everyone else does. -/
inductive BrkRun (pml4 : U64) : BrkState → Prop
  | exec {h : Heap} (own : OwnTree h pml4) : BrkRun pml4 ⟨h, userHeapBase, []⟩
  | call {s s' : BrkState} {new ret : U64} (prev : BrkRun pml4 s)
      (meets : Unmapped s.heap pml4 (MapCall.brk s.brk new).pages)
      (run : s.call pml4 new = some (s', ret)) : BrkRun pml4 s'
  | other {s : BrkState} {h' : Heap} (prev : BrkRun pml4 s) (und : Undisturbed pml4 s.heap h') :
      BrkRun pml4 ⟨h', s.brk, s.frames⟩

/-- Every frame of the heap is mapped by one page, and the pages below the break are mapped. -/
structure HeapOwned (pml4 : U64) (s : BrkState) : Prop where
  once : ∀ f ∈ s.frames, ∃ va, HeapPage va ∧ MapsTo s.heap pml4 va f ∧
    ∀ va', PageAligned va' → va'.toNat < 2 ^ 48 → MapsTo s.heap pml4 va' f → va' = va
  covered : ∀ va, userHeapBase ≤ va → va < s.brk →
    ∃ e, userPte s.heap pml4 va = some e ∧ e &&& pteWrite ≠ 0

/-- What is true after every step of a run, in terms of the tree. -/
structure BrkInv (pml4 : U64) (s : BrkState) : Prop where
  own : OwnTree s.heap pml4
  base : userHeapBase ≤ s.brk
  top : s.brk.toNat ≤ 2 ^ 34
  frames : ∀ f ∈ s.frames, ∃ va, HeapPage va ∧ MapsTo s.heap pml4 va f
  covered : ∀ va, userHeapBase ≤ va → va < pageUp s.brk →
    ∃ n, nodeAt s.heap pml4 (vaPath va) = some n ∧ n.pte &&& pteWrite ≠ 0

section Run

variable {pml4 new ret va : U64} {h h' : Heap} {s s' : BrkState}

theorem BrkInv.heapOwned (hi : BrkInv pml4 s) : HeapOwned pml4 s := by
  refine ⟨fun f hf => ?_, fun va hbase hlt => ?_⟩
  · obtain ⟨va, hp, hm⟩ := hi.frames f hf
    exact ⟨va, hp, hm, fun va' ha' hlt' hm' =>
      hm.unique hi.own hm' hp.aligned ha' (hp.toNat_lt.trans (by norm_num)) hlt'⟩
  · have htop := hi.top
    have hle : va < pageUp s.brk := by
      have := BitVec.lt_def.1 hlt
      rw [BitVec.lt_def, pageUp_toNat (by omega)]
      omega
    obtain ⟨n, hn, hw⟩ := hi.covered va hbase hle
    exact ⟨n.pte, hi.own.space.userPte_eq_some.2
      ⟨n, hn, hi.own.user _ n hn (nodeAt_vaPath_level hn), rfl⟩, hw⟩

theorem BrkInv.exec (ho : OwnTree h pml4) : BrkInv pml4 ⟨h, userHeapBase, []⟩ := by
  have hbase : userHeapBase ≤ userHeapBase := BitVec.le_refl _
  have htop : userHeapBase.toNat ≤ 2 ^ 34 := by decide
  refine ⟨ho, hbase, htop, fun f hf => absurd hf List.not_mem_nil, fun va hbase hlt => ?_⟩
  rw [show pageUp userHeapBase = userHeapBase by decide] at hlt
  exact absurd hlt (BitVec.not_lt.2 hbase)

theorem BrkInv.other (hi : BrkInv pml4 s) (hu : Undisturbed pml4 s.heap h') :
    BrkInv pml4 ⟨h', s.brk, s.frames⟩ := by
  have ho := hi.own.undisturbed hu
  refine ⟨ho, hi.base, hi.top, fun f hf => ?_, fun va hbase hlt => ?_⟩
  · obtain ⟨va, hp, hm⟩ := hi.frames f hf
    obtain ⟨n, hn, rfl⟩ := (mapsTo_iff hi.own).1 hm
    obtain ⟨n', hn', -, ha, -⟩ := hu.exists_new hn
    exact ⟨va, hp, (mapsTo_iff ho).2 ⟨n', hn', ha.symm⟩⟩
  · obtain ⟨n, hn, hw⟩ := hi.covered va hbase hlt
    obtain ⟨n', hn', -, -, he⟩ := hu.exists_new hn
    exact ⟨n', hn', by rwa [he.and_eq (by decide)]⟩

/-- A call that maps new pages only, and finds memory for the tables. -/
theorem BrkInv.call (hi : BrkInv pml4 s)
    (hun : Unmapped s.heap pml4 (MapCall.brk s.brk new).pages)
    (hr : s.call pml4 new = some (s', ret)) :
    BrkInv pml4 s' ∧ KeepsPages pml4 s.heap s'.heap ∧ (s'.brk = new ∨ s'.brk = s.brk) := by
  obtain ⟨-, m, go, hm, hloop, hbrk⟩ := BrkState.call_eq_some hr
  obtain ⟨pre, hpre, hall, hg⟩ := grown_each (m := ⟨s.heap, true, true⟩) hi.own
    (MapCall.pages_ok (c := .brk s.brk new) trivial) (brk_pages_pairwise hi.base) hun rfl hloop
  rw [hm] at hg
  have hold : ∀ va, userHeapBase ≤ va → va < pageUp s.brk →
      ∃ n, nodeAt s'.heap pml4 (vaPath va) = some n ∧ n.pte &&& pteWrite ≠ 0 := fun va hbase hlt => by
    obtain ⟨n, hn, hw⟩ := hi.covered va hbase hlt
    exact ⟨n, hg.keeps.nodes _ n hn, hw⟩
  have hframes : ∀ f ∈ s'.frames, ∃ va, HeapPage va ∧ MapsTo s'.heap pml4 va f := by
    intro f hf
    rcases hg.frames f hf with hf | ⟨p, hp, hmp⟩
    · obtain ⟨va, hp, hm⟩ := hi.frames f hf
      exact ⟨va, hp, hm.keep hi.own hg.own fun n hn => hg.keeps.nodes _ n hn⟩
    · obtain ⟨-, va, -, rfl, hva⟩ := heapPage_of_mem hi.base (hpre.subset hp)
      exact ⟨va, hva, hmp⟩
  by_cases hgr : go ∧ ¬(new < userHeapBase ∨ new > 0x400000000)
  swap
  · rw [if_neg hgr] at hbrk
    exact ⟨⟨hg.own, hbrk ▸ hi.base, hbrk ▸ hi.top, hframes, fun va hbase hlt =>
      hold va hbase (hbrk ▸ hlt)⟩, hg.keeps, Or.inr hbrk⟩
  rw [if_pos hgr] at hbrk
  obtain ⟨hgo, hrange⟩ := hgr
  obtain ⟨hlo, hhi⟩ := not_or.1 hrange
  have hlo := BitVec.not_lt.1 hlo
  have hhi : new.toNat ≤ 2 ^ 34 := BitVec.le_def.1 (BitVec.not_lt.1 hhi)
  refine ⟨?_, hg.keeps, Or.inl hbrk⟩
  refine ⟨hg.own, hbrk ▸ hlo, hbrk ▸ hhi, hframes, fun va hbase hlt => ?_⟩
  rw [hbrk] at hlt
  by_cases hva : va < pageUp s.brk
  · exact hold va hbase hva
  · -- A page of this call.
    obtain rfl := hall hgo
    have htop := hi.top
    have hlt := BitVec.lt_def.1 hlt
    have hge := BitVec.le_def.1 (BitVec.not_lt.1 hva)
    rw [pageUp_toNat (by omega)] at hlt hge
    have hgrow : MapCall.Grows s.brk new := ⟨hrange, BitVec.lt_def.2 (by omega)⟩
    have hmem : zeroReq (pageDown va) ∈ (MapCall.brk s.brk new).pages := by
      rw [MapCall.pages, if_pos hgrow]
      refine List.mem_map_of_mem (mem_pagesFrom.2
        ⟨va.toNat / 4096 - (s.brk.toNat + 4095) / 4096, ?_, ?_⟩)
      · rw [pageDown_toNat, pageUp_toNat (by omega)]
        omega
      · rw [BitVec.lt_def, pageDown_toNat, pageUp_toNat (by omega)]
        omega
    obtain ⟨n, hn, hfl⟩ := hg.mapped _ hmem
    rw [show (zeroReq (pageDown va)).va = pageDown va from rfl, vaPath_pageDown] at hn
    have hw : n.pte &&& pteWrite = pteFlags n.pte &&& pteWrite := by
      rw [pteFlags, BitVec.and_assoc, show ~~~pageFrameMask &&& pteWrite = pteWrite by decide]
    rw [show (zeroReq (pageDown va)).flags = pteUser ||| pteWrite from rfl] at hfl
    exact ⟨n, hn, by rw [hw, hfl]; decide⟩

theorem BrkRun.inv (hr : BrkRun pml4 s) : BrkInv pml4 s := by
  induction hr with
  | exec own => exact .exec own
  | call _ meets run ih => exact (ih.call meets run).1
  | other _ und ih => exact ih.other und

/-- In every run whose calls map new pages only and find memory for the tables, every frame is
mapped by one page, the pages below the break are mapped, and such a call leaves everything that is
mapped as it is, and the break too when it does not reach the new one. -/
theorem brk_heap_owned (hr : BrkRun pml4 s) : HeapOwned pml4 s ∧
    ∀ new, Unmapped s.heap pml4 (MapCall.brk s.brk new).pages →
      ∃ s', s.call pml4 new = some (s', s'.brk) ∧ HeapOwned pml4 s' ∧
        KeepsPages pml4 s.heap s'.heap ∧ (s'.brk = new ∨ s'.brk = s.brk) := by
  refine ⟨hr.inv.heapOwned, fun new hun => ?_⟩
  obtain ⟨s', hs'⟩ := s.exists_call pml4 new
  obtain ⟨hi, hk, hb⟩ := hr.inv.call hun hs'
  exact ⟨s', hs', hi.heapOwned, hk, hb⟩

/-! ## One page -/

/-- A call for one page, with four free pages. -/
theorem BrkState.call_one (ho : OwnTree s.heap pml4) (hg : MapCall.Grows s.brk new)
    (hpages : pagesFrom (pageUp s.brk) (pageUp new) = [va]) (hva : pml4Index va < 256)
    (h4 : 4 ≤ s.heap.freePages.ncard) :
    ∃ h' v, s.call pml4 new = some (⟨h', new, v :: s.frames⟩, new) ∧
      AddsPage pml4 (zeroReq va) v s.heap h' ∧
      s.heap.freePages.ncard ≤ h'.freePages.ncard + 4 := by
  have hp := zeroReq_ok hva
  obtain ⟨⟨m, go⟩, hm⟩ := (MapState.mk s.heap true true).exists_mapNewPage pml4 va
    (pteUser ||| pteWrite) fun _ h => h
  obtain ⟨rfl, -, hok⟩ := MapState.mapNewPage_ok (m := ⟨s.heap, true, true⟩) ho.space hp hm h4
  have hcount := ((Mapped.refl ho).mapNewPage (m := ⟨s.heap, true, true⟩) hp.user hp.flagBits
    hp.userFlag hp.fills hm hok).2.1
  rcases MapState.mapReq_cases (m := ⟨s.heap, true, true⟩) ho.space hp hm with
    ⟨-, -, hgo, -⟩ | ⟨h₁, v, g, t, hk, hv, hf, hmap, -, hh, ht⟩
  · exact absurd hgo.symm Bool.false_ne_true
  have htok : t.ok = true := by
    rw [hok, Bool.true_and] at ht
    exact ht.symm
  have hadd := MapState.mapReq_adds (m := ⟨s.heap, true, true⟩) ho hp hm hok hf hmap hh htok
  refine ⟨m.heap, v, ?_, hadd, hcount⟩
  obtain ⟨⟨h', brk', fs'⟩, hs'⟩ := s.exists_call pml4 new
  obtain ⟨-, m', go, hm', hloop, hbrk⟩ := BrkState.call_eq_some hs'
  have hpg : (MapCall.brk s.brk new).pages = [zeroReq va] := by
    rw [MapCall.pages, if_pos hg, hpages, List.map_singleton]
  have htake : MapState.takeReq pml4 (⟨s.heap, true, true⟩, s.frames) (zeroReq va) =
      some ((m, v :: s.frames), true) := by
    rw [MapState.takeReq_eq (p := zeroReq va) hk hm, if_neg hv]
  rw [hpg, Loop.each_cons, htake] at hloop
  obtain ⟨hp, rfl⟩ := Prod.mk.inj (Option.some.inj hloop)
  obtain ⟨rfl, hfs⟩ := Prod.mk.inj hp
  rw [if_pos ⟨rfl, hg.1⟩] at hbrk
  dsimp only at hm' hfs hbrk
  rw [hs', ← hm', ← hbrk, hfs]

/-- A call that does not grow the heap changes nothing but the break. -/
theorem BrkState.call_shrink (hg : ¬MapCall.Grows s.brk new)
    (hrange : ¬(new < userHeapBase ∨ new > 0x400000000)) :
    s.call pml4 new = some (⟨s.heap, new, s.frames⟩, new) := by
  obtain ⟨⟨h', brk', fs'⟩, hs'⟩ := s.exists_call pml4 new
  obtain ⟨-, m', go, hm', hloop, hbrk⟩ := BrkState.call_eq_some hs'
  rw [MapCall.pages, if_neg hg] at hloop
  obtain ⟨hp, rfl⟩ := Prod.mk.inj (Option.some.inj hloop)
  obtain ⟨rfl, hfs⟩ := Prod.mk.inj hp
  rw [if_pos ⟨rfl, hrange⟩] at hbrk
  dsimp only at hm' hfs hbrk
  rw [hs', ← hm', ← hbrk, hfs]

end Run

/-- The heap grows by a page, shrinks and grows again : the first frame is lost. -/
theorem brk_remaps : ∃ pml4 h s₁ s₂ s₃, OwnTree h pml4 ∧
    BrkState.call pml4 ⟨h, userHeapBase, []⟩ 0x40001000 = some (s₁, 0x40001000) ∧
    s₁.call pml4 0x40000000 = some (s₂, 0x40000000) ∧
    s₂.call pml4 0x40001000 = some (s₃, 0x40001000) ∧
    ∃ f ∈ s₃.frames, ∀ va, ¬MapsTo s₃.heap pml4 va f := by
  obtain ⟨h₀, s, pml4, -, hr, hok, hn, hcard, hs⟩ := exists_new_space (n := 16) (by norm_num)
  have hg : MapCall.Grows 0x40000000 0x40001000 := by decide
  have hp : pagesFrom (pageUp 0x40000000) (pageUp 0x40001000) = [0x40000000] := by decide
  have hva : pml4Index 0x40000000 < 256 := by decide
  obtain ⟨h₁, f, hcall₁, hadd₁, hcard₁⟩ := BrkState.call_one (s := ⟨s.heap, userHeapBase, []⟩)
    hn.ownTree hg hp hva (by change 4 ≤ s.heap.freePages.ncard; omega)
  have hcall₂ : BrkState.call pml4 ⟨h₁, 0x40001000, [f]⟩ 0x40000000 =
      some (⟨h₁, 0x40000000, [f]⟩, 0x40000000) :=
    BrkState.call_shrink (show ¬MapCall.Grows 0x40001000 0x40000000 by decide) (by decide)
  obtain ⟨h₃, v, hcall₃, hadd₃, -⟩ := BrkState.call_one (s := ⟨h₁, 0x40000000, [f]⟩)
    hadd₁.own hg hp hva (by dsimp only at hcard₁ ⊢; omega)
  refine ⟨pml4, s.heap, _, _, _, hn.ownTree, hcall₁, hcall₂, hcall₃, f, by simp, fun va => ?_⟩
  obtain ⟨n, hn', rfl, -⟩ := hadd₁.frame
  exact hadd₃.lost hadd₁.own hn' va

/-- The same heap grown by a page in a run. -/
theorem brk_heap_owned_page : ∃ pml4 s, BrkRun pml4 s ∧ s.brk = 0x40001000 ∧ s.frames ≠ [] ∧
    HeapOwned pml4 s := by
  obtain ⟨h₀, s, pml4, -, hr, hok, hn, hcard, hs⟩ := exists_new_space (n := 16) (by norm_num)
  have hg : MapCall.Grows 0x40000000 0x40001000 := by decide
  have hp : pagesFrom (pageUp 0x40000000) (pageUp 0x40001000) = [0x40000000] := by decide
  obtain ⟨h₁, f, hcall, hadd, -⟩ := BrkState.call_one (s := ⟨s.heap, userHeapBase, []⟩)
    hn.ownTree hg hp (show pml4Index 0x40000000 < 256 by decide)
    (by change 4 ≤ s.heap.freePages.ncard; omega)
  have hrun : BrkRun pml4 ⟨h₁, 0x40001000, [f]⟩ := by
    have hpg : (MapCall.brk userHeapBase 0x40001000).pages = [zeroReq 0x40000000] := by
      rw [MapCall.pages, if_pos (show MapCall.Grows userHeapBase 0x40001000 from hg)]
      exact congrArg (List.map zeroReq) hp
    have hnew : vaPath 0x40000000 ∉ nodePaths s.heap pml4 := by
      rintro ⟨n, hn'⟩
      exact vaPath_ne_nil _ (hn.empty _ n hn').1
    refine .call (.exec hn.ownTree) (hpg ▸ unmapped_singleton hnew ?_) hcall
    dsimp only
    omega
  exact ⟨pml4, _, hrun, rfl, List.cons_ne_nil _ _, (brk_heap_owned hrun).1⟩

end Jeos
