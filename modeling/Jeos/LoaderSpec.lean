import Jeos.Loader
import Jeos.Teardown

/-!
# What the loader maps

The pages `elf_load_segments` maps follow from the file alone : `elfPlan` lists them in
the order of the loops, and on an ELF64 x86-64 file the loader maps the pages of the
list one after the other until a `kalloc` fails (`elfLoadSegments_plan`).

`Mapped` is what such a run of mappings leaves when no table is missing : an address
space that shows at every path the content of the last page mapped there, with nothing
written outside the free pages and the tables (`mapAll_spec`).
-/

set_option linter.unusedSectionVars false

namespace Jeos

open ByteMemory TreeWalk

/-! ## The loop over the pages of a range -/

/-- The addresses from `start` below `stop`, one for each page. -/
def pagesFrom (start stop : U64) : List U64 :=
  Loop.values start pageSize (Loop.rounds start stop pageSize)

theorem PageAligned.add_le {a : U64} (h : PageAligned a) : a.toNat + 4096 ≤ 2 ^ 64 := by
  have := a.isLt
  have := h.toNat_eq
  omega

theorem forPages_eq {σ : Type} (f : σ → U64 → Option (σ × Bool)) {start stop : U64} (s : σ)
    (hs : PageAligned stop) : forPages f start stop s = Loop.each f (pagesFrom start stop) s := by
  refine Loop.forUp_eq_each (by decide) hs.add_le ?_
  have := stop.isLt
  rw [Loop.rounds, pageSize_toNat, loopFuel]
  omega

theorem mem_pagesFrom {start stop va : U64} : va ∈ pagesFrom start stop ↔
    ∃ i, va.toNat = start.toNat + i * 4096 ∧ va < stop :=
  Loop.mem_values (show 0 < pageSize.toNat by decide)

theorem pageAligned_pageDown (a : U64) : PageAligned (pageDown a) := pageAligned_and a

theorem pageAligned_pageUp (a : U64) : PageAligned (pageUp a) := pageAligned_and _

theorem aligned_of_mem_pagesFrom {start stop va : U64} (hs : PageAligned start)
    (h : va ∈ pagesFrom start stop) : PageAligned va := by
  obtain ⟨i, hi, -⟩ := mem_pagesFrom.1 h
  rw [PageAligned, hi]
  exact Nat.dvd_add hs (Nat.dvd_mul_left _ _)

/-! ## The plan of the loader -/

/-- A page to map : the arguments of `mapNewPage`, and the bytes that `write` should give it. -/
structure PageReq where
  va : U64
  flags : U64
  write : U64 → Heap → Heap
  bytes : ℕ → U8

/-- `mapNewPage` with these arguments. -/
def MapState.mapReq (pml4 : U64) (m : MapState) (p : PageReq) : Option (MapState × Bool) :=
  m.mapNewPage pml4 p.va p.flags p.write

/-- `mapNewPage` for one page after the other. -/
def MapState.mapAll (m : MapState) (pml4 : U64) (ps : List PageReq) : Option (MapState × Bool) :=
  Loop.each (MapState.mapReq pml4) ps m

namespace MapState

variable {m m' : MapState} {pml4 va flags : U64} {write : U64 → Heap → Heap} {go : Bool}
  {ps : List PageReq}

theorem exists_mapNewPage (m : MapState) (pml4 va flags : U64) (write : U64 → Heap → Heap) :
    ∃ r, m.mapNewPage pml4 va flags write = some r := by
  obtain ⟨⟨s, v⟩, hk⟩ := PagingState.exists_kallocPage ⟨m.heap, true⟩
  obtain ⟨⟨h, w⟩, hk, -⟩ := Option.map_eq_some_iff.1 hk
  rw [mapNewPage, show kalloc m.heap 1 = some (h, w) from hk, Option.bind_some]
  dsimp only
  split_ifs
  · exact ⟨_, rfl⟩
  · obtain ⟨p, hp⟩ := PagingState.exists_mapPagePml4 ⟨write w (h.zeroPage w), true⟩ pml4 va
      ((write w (h.zeroPage w)).virtToPhys w) flags
    rw [hp]
    exact ⟨_, rfl⟩

theorem mapNewPage_mono (hr : m.mapNewPage pml4 va flags write = some (m', go))
    (hok : m'.tablesOk = true) : m.tablesOk = true := by
  obtain ⟨⟨h, v⟩, -, hr⟩ := Option.bind_eq_some_iff.1 hr
  dsimp only at hr
  split_ifs at hr with h0
  · obtain ⟨rfl, -⟩ := Prod.mk.inj (Option.some.inj hr)
    exact hok
  · obtain ⟨p, -, he⟩ := Option.map_eq_some_iff.1 hr
    obtain ⟨rfl, -⟩ := Prod.mk.inj he
    exact (Bool.and_eq_true_iff.1 hok).1

theorem exists_mapAll (m : MapState) (pml4 : U64) (ps : List PageReq) :
    ∃ r, m.mapAll pml4 ps = some r :=
  Loop.exists_each (fun m p => m.exists_mapNewPage pml4 p.va p.flags p.write) ps m

theorem mapAll_mono (hr : m.mapAll pml4 ps = some (m', go)) (hok : m'.tablesOk = true) :
    m.tablesOk = true :=
  Loop.each_invariant (I := fun t => t.tablesOk = true → m.tablesOk = true)
    (fun _ _ _ _ _ h hr hok => h (mapNewPage_mono hr hok)) id hr hok

/-- The loop is left early only when a page is missing. -/
theorem mapAll_pagesOk (hr : m.mapAll pml4 ps = some (m', go)) (hok : m'.pagesOk = true) :
    go = true := by
  have h := Loop.each_spec (I := fun _ _ => True) (J := fun t => t.pagesOk = false)
    (fun _ _ _ _ _ _ _ _ => trivial) (fun _ p _ _ t t' _ hr => ?_) trivial hr
  · rcases go with _ | _
    · exact absurd hok (by rw [show m'.pagesOk = false from h]; decide)
    · rfl
  · rw [mapReq, mapNewPage] at hr
    obtain ⟨⟨h, v⟩, -, hr⟩ := Option.bind_eq_some_iff.1 hr
    dsimp only at hr
    split_ifs at hr with h0
    · obtain ⟨rfl, -⟩ := Prod.mk.inj (Option.some.inj hr)
      rfl
    · obtain ⟨p, -, he⟩ := Option.map_eq_some_iff.1 hr
      exact absurd (Prod.mk.inj he).2 (by decide)

end MapState

namespace Elf

open LoadState

variable (elf : Mem) (i : ℕ)

/-- The file passes the tests of the ELF header. -/
def IsElf64 : Prop := eMagic elf = magic ∧ eClass elf = class64 ∧ eMachine elf = machineX8664

instance : Decidable (IsElf64 elf) := inferInstanceAs (Decidable (_ ∧ _))

/-- The addresses of the pages of `phdr[i]`. -/
def segPages : List U64 :=
  if pType elf i = ptLoad then
    pagesFrom (pageDown (pVaddr elf i)) (pageUp (pVaddr elf i + pMemsz elf i))
  else []

/-- The flags of the pages of `phdr[i]`. -/
def segFlags : U64 := pteUser ||| if pFlags elf i &&& pfW ≠ 0 then pteWrite else 0

/-- Byte `j` of the page of `phdr[i]` at `va` : from the file, or 0 outside the part of the segment
that is in the file. -/
def segByte (va : U64) (j : ℕ) : U8 :=
  if (pVaddr elf i).toNat ≤ va.toNat + j ∧ va.toNat + j < (segFileEnd elf i).toNat then
    elf (pOffset elf i + (va + BitVec.ofNat 64 j - pVaddr elf i))
  else 0

/-- The page of `phdr[i]` at `va`. -/
def segReq (va : U64) : PageReq := ⟨va, segFlags elf i, copyFile elf i va, segByte elf i va⟩

/-- A page filled with zeros, as the user stack and the heap get them. -/
def zeroReq (va : U64) : PageReq := ⟨va, pteUser ||| pteWrite, fun _ h => h, fun _ => 0⟩

/-- The addresses of the user stack. -/
def stackPages : List U64 := pagesFrom userStackBase (userStackTop + pageSize)

/-- The pages the loader maps, in order. -/
def elfPlan : List PageReq :=
  ((List.range (ePhnum elf).toNat).flatMap fun i => (segPages elf i).map (segReq elf i)) ++
    stackPages.map zeroReq

end Elf

namespace LoadState

open Elf

variable {elf : Mem} {i : ℕ} {va pml4 : U64} {s s' : LoadState} {r : Option U64}

theorem loadPage_map (s : LoadState) (va : U64) :
    (loadPage elf i va pml4 (segFlags elf i) s).map (Prod.map LoadState.map id) =
      s.map.mapReq pml4 (segReq elf i va) := by
  rw [loadPage, MapState.mapReq, segReq]
  rcases s.map.mapNewPage pml4 va (segFlags elf i) (copyFile elf i va) with _ | ⟨m, go⟩
  · rfl
  · rcases go with _ | _
    · rfl
    · dsimp only [Option.map_some]
      by_cases h : HasFileBytes elf i va
      · rw [if_pos rfl, if_pos h]
        rfl
      · rw [if_pos rfl, if_neg h]
        rfl

theorem loadSegment_map (pml4 : U64) (elf : Mem) (s : LoadState) (i : ℕ) :
    (loadSegment pml4 elf s i).map (Prod.map LoadState.map id) =
      s.map.mapAll pml4 ((segPages elf i).map (segReq elf i)) := by
  rw [loadSegment, segPages]
  by_cases ht : pType elf i = ptLoad
  · rw [if_neg (not_not.2 ht), if_pos ht, forPages_eq _ _ (pageAligned_pageUp _)]
    exact Loop.each_sim (π := LoadState.map) (fun s va => loadPage_map s va) _ _
  · rw [if_pos ht, if_neg ht]
    rfl

theorem mapStackPage_map (pml4 : U64) (s : LoadState) (va : U64) :
    (mapStackPage pml4 s va).map (Prod.map LoadState.map id) = s.map.mapReq pml4 (zeroReq va) := by
  rw [mapStackPage, MapState.mapReq, zeroReq, Option.map_map]
  rcases s.map.mapNewPage pml4 va (pteUser ||| pteWrite) (fun _ h => h) with _ | ⟨m, go⟩ <;> rfl

/-- The loop over the program headers. -/
theorem loadSegments_map (pml4 : U64) (elf : Mem) (is : List ℕ) (s : LoadState) :
    (Loop.each (loadSegment pml4 elf) is s).map (Prod.map LoadState.map id) =
      s.map.mapAll pml4 (is.flatMap fun i => (segPages elf i).map (segReq elf i)) := by
  rw [MapState.mapAll, Loop.each_flatMap]
  have h := Loop.each_sim (π := LoadState.map) (ρ := id)
    (g := fun m i => m.mapAll pml4 ((segPages elf i).map (segReq elf i)))
    (fun s i => loadSegment_map pml4 elf s i) is s
  rwa [List.map_id] at h

/-- On an ELF64 x86-64 file the loader maps the pages of the plan. -/
theorem elfLoadSegments_plan (he : IsElf64 elf) (pml4 n : U64) (s : LoadState) :
    (elfLoadSegments s pml4 elf n).map (Prod.map LoadState.map Option.isSome) =
      s.map.mapAll pml4 (elfPlan elf) := by
  obtain ⟨h1, h2, h3⟩ := he
  simp only [elfLoadSegments, h1, h2, h3, ne_eq, not_true_eq_false, if_false]
  rw [elfPlan, MapState.mapAll, Loop.each_append]
  generalize hs : LoadState.mk s.map _ _ = s₁
  have hmap : s₁.map = s.map := by rw [← hs]
  have hseg := loadSegments_map pml4 elf (List.range (ePhnum elf).toNat) s₁
  rw [hmap, MapState.mapAll] at hseg
  rw [← hseg, Option.map_bind, Option.bind_map]
  congr 1
  funext ⟨s₂, go⟩
  rcases go with _ | _
  · rfl
  · simp only [Function.comp_apply, Prod.map_apply, id_eq, not_true_eq_false, if_false, if_true]
    rw [forPages_eq _ _ (show PageAligned (userStackTop + pageSize) by decide)]
    have hst := Loop.each_sim (π := LoadState.map) (ρ := zeroReq)
      (fun s va => mapStackPage_map pml4 s va) stackPages
      { s₂ with reads := field ehdr 0 15 :: s₂.reads }
    refine Eq.trans ?_ hst
    rw [Option.map_map]
    congr 1
    funext ⟨s₃, go⟩
    rcases go with _ | _ <;> rfl

/-- The loader returns, with 0 and the entry point or with -1. -/
theorem exists_elfLoadSegments (he : IsElf64 elf) (pml4 n : U64) (s : LoadState) :
    ∃ s' r, elfLoadSegments s pml4 elf n = some (s', r) ∧
      s.map.mapAll pml4 (elfPlan elf) = some (s'.map, r.isSome) := by
  have hplan := elfLoadSegments_plan he pml4 n s
  obtain ⟨⟨m, go⟩, hm⟩ := s.map.exists_mapAll pml4 (elfPlan elf)
  rw [hm] at hplan
  obtain ⟨⟨s', r⟩, hr, hx⟩ := Option.map_eq_some_iff.1 hplan
  obtain ⟨rfl, rfl⟩ := Prod.mk.inj hx
  exact ⟨s', r, hr, hm⟩

/-- The entry point is the one of the file. -/
theorem elfLoadSegments_entry {e n : U64} (he : IsElf64 elf)
    (hr : elfLoadSegments s pml4 elf n = some (s', some e)) : e = eEntry elf := by
  obtain ⟨h1, h2, h3⟩ := he
  simp only [elfLoadSegments, h1, h2, h3, ne_eq, not_true_eq_false, if_false] at hr
  obtain ⟨⟨s₂, go⟩, -, hr⟩ := Option.bind_eq_some_iff.1 hr
  rcases go with _ | _
  · simp at hr
  · simp only [not_true_eq_false, if_false] at hr
    obtain ⟨⟨s₃, go⟩, -, hr⟩ := Option.map_eq_some_iff.1 hr
    rcases go with _ | _
    · simp at hr
    · exact (Option.some.inj (Prod.mk.inj hr).2).symm

/-- Any other file is refused before anything is mapped. -/
theorem elfLoadSegments_reject (he : ¬IsElf64 elf) (pml4 n : U64) (s : LoadState) :
    ∃ s', elfLoadSegments s pml4 elf n = some (s', none) ∧ s'.map = s.map := by
  unfold elfLoadSegments
  by_cases h1 : eMagic elf = magic
  · by_cases h2 : eClass elf = class64
    · have h3 : eMachine elf ≠ machineX8664 := fun h3 => he ⟨h1, h2, h3⟩
      simp only [h1, h2, h3, ne_eq, not_true_eq_false, if_false, not_false_eq_true, if_true]
      exact ⟨_, rfl, rfl⟩
    · simp only [h1, h2, ne_eq, not_true_eq_false, if_false, not_false_eq_true, if_true]
      exact ⟨_, rfl, rfl⟩
  · simp only [h1, ne_eq, not_false_eq_true, if_true]
    exact ⟨_, rfl, rfl⟩

end LoadState

/-! ## What the mappings leave -/

/-- `write` fills a zeroed page with the bytes `c` and leaves everything else. -/
structure Fills (write : U64 → Heap → Heap) (c : ℕ → U8) : Prop where
  freeLists : ∀ page h, (write page h).freeLists = h.freeLists
  hhdm : ∀ page h, (write page h).hhdmOffset = h.hhdmOffset
  outside : ∀ page h x, PageAligned page → pageOf x ≠ pageOf page →
    (write page h).mem x = h.mem x
  content : ∀ page h, PageAligned page → (∀ i < 4096, h.mem (page + BitVec.ofNat 64 i) = 0) →
    ∀ i < 4096, (write page h).mem (page + BitVec.ofNat 64 i) = c i

/-- At the path `p` is a frame with the flags `f` and the bytes `c`. -/
def Shows (h : Heap) (pml4 : U64) (p : List ℕ) (f : U64) (c : ℕ → U8) : Prop :=
  ∃ n, nodeAt h pml4 p = some n ∧ n.level = 0 ∧ pteFlags n.pte = f ||| ptePresent ∧
    ∀ i < 4096, h.mem (n.addr + BitVec.ofNat 64 i) = c i

/-- Pages from the allocator were mapped since the heap was `h₀`, the last ones at each path with
the flags and bytes that `M` says. -/
structure Mapped (h₀ h : Heap) (pml4 : U64) (M : List ℕ → Option (U64 × (ℕ → U8))) : Prop where
  own : OwnTree h pml4
  free : h.freePages ⊆ h₀.freePages
  tables : tablePages h pml4 ⊆ h₀.freePages ∪ tablePages h₀ pml4
  pages : spacePages h pml4 ⊆ spacePages h₀ pml4 ∪ h₀.freePages
  agree : h₀.AgreeOutside (h₀.freePages ∪ tablePages h₀ pml4) h
  shows : ∀ p f c, M p = some (f, c) → Shows h pml4 p f c

section Mapped

variable {h₀ h h' h₁ : Heap} {pml4 va flags v e : U64} {M : List ℕ → Option (U64 × (ℕ → U8))}
  {write : U64 → Heap → Heap} {c : ℕ → U8} {m m' : MapState} {go : Bool} {q : List ℕ}

theorem Mapped.refl (ho : OwnTree h pml4) : Mapped h h pml4 fun _ => none :=
  ⟨ho, subset_rfl, Set.subset_union_right, Set.subset_union_left, .refl _ _,
    fun _ _ _ hM => absurd hM (by simp)⟩

/-- The page `v` is taken, filled and mapped at `q`. -/
theorem Mapped.add (hm : Mapped h₀ h pml4 M) (ht : TakesPage h h₁ v) (hw : Fills write c)
    (hx : Extends q pml4 (write v (h₁.zeroPage v)) h') (hq : nodeAt h' pml4 q = some ⟨0, e, v⟩)
    (he : pteFlags e = flags ||| ptePresent) (hu : User flags) :
    Mapped h₀ h' pml4 (Function.update M q (some (flags, c))) := by
  have hmem : ∀ x, pageOf x ≠ pageOf v → (write v (h₁.zeroPage v)).mem x = h₁.mem x := fun x hx =>
    (hw.outside v _ x ht.aligned hx).trans (zeroPage_mem_of_pageOf_ne ht.aligned hx)
  obtain ⟨hsp, hfree, hag, hnodes⟩ := hm.own.space.of_take ht (write v (h₁.zeroPage v))
    ((hw.freeLists v _).trans rfl) ((hw.hhdm v _).trans rfl) hmem
  have htab : tablePages (write v (h₁.zeroPage v)) pml4 = tablePages h pml4 := by
    simp only [tablePages, hnodes]
  have hspace : spacePages (write v (h₁.zeroPage v)) pml4 = spacePages h pml4 := by
    simp only [spacePages, hnodes]
  have hfree' : (write v (h₁.zeroPage v)).freePages ⊆ h.freePages := hfree ▸ Set.sdiff_subset
  have hU : (write v (h₁.zeroPage v)).freePages ∪ tablePages (write v (h₁.zeroPage v)) pml4 ⊆
      h₀.freePages ∪ tablePages h₀ pml4 := by
    rw [htab]
    exact Set.union_subset ((hfree'.trans hm.free).trans Set.subset_union_left) hm.tables
  -- The frames keep their bytes, since only free pages and tables are written.
  have hkeep : ∀ p n, nodeAt h pml4 p = some n → n.level = 0 → ∀ i < 4096,
      h'.mem (n.addr + BitVec.ofNat 64 i) = h.mem (n.addr + BitVec.ofNat 64 i) := by
    intro p n hn hl i hi
    have hpage := pageOf_add (hm.own.space.aligned hn) hi
    have hnf := hm.own.space.held p n hn
    rw [hx.agree.mem, hag.mem _ (hpage ▸ hnf)]
    rw [hpage, htab]
    rintro (hf | hf)
    · exact hnf (hfree' hf)
    · exact hm.own.space.frame_not_table hn hl hf
  have hue : User e := by
    rw [user_iff_flags, he, User, BitVec.and_comm, BitVec.and_or_distrib_left, BitVec.and_comm]
    exact fun h0 => hu (BitVec.or_eq_zero_iff.1 h0).1
  refine ⟨?_, (hx.free.trans hfree').trans hm.free, ?_, ?_, ?_, fun p f c' hM => ?_⟩
  · refine (hm.own.take ht (write v (h₁.zeroPage v)) ((hw.freeLists v _).trans rfl)
      ((hw.hhdm v _).trans rfl) hmem).map hx hq hue ht.ne_zero ?_
    rw [hspace]
    exact fun hv => hm.own.space.not_free hv ht.mem_free
  · exact hx.tablePages_subset.trans hU
  · rintro k ⟨p, n, hn, rfl⟩
    rcases hx.nodes p n hn with hn' | ⟨-, hf⟩ | ⟨-, rfl⟩
    · exact hm.pages (hspace ▸ ⟨p, n, hn', rfl⟩)
    · exact Or.inr (hm.free (hfree' hf))
    · obtain rfl := Option.some.inj (hq.symm.trans hn)
      exact Or.inr (hm.free ht.mem_free)
  · exact (hm.agree.trans (hag.mono (hm.free.trans Set.subset_union_left))).trans
      (hx.agree.mono hU)
  · rcases eq_or_ne p q with rfl | hpq
    · rw [Function.update_self] at hM
      obtain ⟨rfl, rfl⟩ := Prod.mk.inj (Option.some.inj hM)
      refine ⟨_, hq, rfl, he, fun i hi => ?_⟩
      have hpage := pageOf_add ht.aligned hi
      rw [hx.agree.mem]
      · refine hw.content v _ ht.aligned (fun j hj => ?_) i hi
        exact if_pos (within_add v hj (by norm_num))
      · rw [hpage, hfree, htab]
        rintro (hf | hf)
        · exact hf.2 rfl
        · exact hm.own.space.not_free (tablePages_subset hf) ht.mem_free
    · rw [Function.update_of_ne hpq] at hM
      obtain ⟨n, hn, hl, hfl, hb⟩ := hm.shows p f c' hM
      refine ⟨n, hx.keeps p n hpq ((hnodes p).trans hn), hl, hfl, fun i hi => ?_⟩
      rw [hkeep p n hn hl i hi, hb i hi]

/-- One page : the allocator is empty and nothing happens, or the page is mapped. -/
theorem Mapped.mapNewPage (hm : Mapped h₀ m.heap pml4 M) (hva : pml4Index va < 256)
    (hf : FlagBits flags) (hu : User flags) (hw : Fills write c)
    (hr : m.mapNewPage pml4 va flags write = some (m', go)) (hok : m'.tablesOk = true) :
    m.tablesOk = true ∧ m.heap.freePages.ncard ≤ m'.heap.freePages.ncard + 4 ∧ if go then
        Mapped h₀ m'.heap pml4 (Function.update M (vaPath va) (some (flags, c)))
      else m'.heap = m.heap := by
  obtain ⟨⟨h₁, v⟩, hk, hr⟩ := Option.bind_eq_some_iff.1 hr
  rcases kalloc_one hm.own.space.sound with ⟨hk', -⟩ | ⟨h₁', v', hk', ht⟩
  · obtain ⟨rfl, rfl⟩ := Prod.mk.inj (Option.some.inj (hk.symm.trans hk'))
    obtain ⟨rfl, rfl⟩ := Prod.mk.inj (Option.some.inj hr)
    exact ⟨hok, Nat.le_add_right _ _, rfl⟩
  · obtain ⟨rfl, rfl⟩ := Prod.mk.inj (Option.some.inj (hk.symm.trans hk'))
    simp only [if_neg ht.ne_zero] at hr
    obtain ⟨p, hp, he⟩ := Option.map_eq_some_iff.1 hr
    obtain ⟨rfl, rfl⟩ := Prod.mk.inj he
    obtain ⟨hok, hok'⟩ := Bool.and_eq_true_iff.1 hok
    refine ⟨hok, ?_⟩
    have hone := Set.ncard_sdiff_singleton_of_mem ht.mem_free
    set h₂ := write v (h₁.zeroPage v) with hh₂
    have hhd : h₂.hhdmOffset = h₁.hhdmOffset := (hw.hhdm v _).trans rfl
    obtain ⟨hsp, hfree, -, hnodes⟩ := hm.own.space.of_take ht h₂ ((hw.freeLists v _).trans rfl) hhd
      fun x hx => (hw.outside v _ x ht.aligned hx).trans (zeroPage_mem_of_pageOf_ne ht.aligned hx)
    have hpa : h₂.pteAddr (h₂.virtToPhys v) = v :=
      pteAddr_virtToPhys (hhd ▸ ht.sound.hhdm) ht.aligned
    have hvf : pageOf v ∉ h₂.freePages := by
      rw [hfree]
      exact fun hv => hv.2 rfl
    have hvt : pageOf v ∉ tablePages h₂ pml4 := by
      rintro ⟨q, n, hn, -, hk⟩
      exact hm.own.space.held q n ((hnodes q).symm.trans hn) (hk ▸ ht.mem_free)
    obtain ⟨hx, hc, hq⟩ := PagingState.mapPagePml4_spec (s := ⟨h₂, true⟩) hsp hva hf
      (by rw [hpa]; exact hvf) (by rw [hpa]; exact hvt) hp hok'
    rw [hpa] at hq
    rw [show (PagingState.mk h₂ true).heap.freePages = _ from hfree] at hc
    refine ⟨by dsimp only; omega, hm.add ht hw hx hq ?_ hu⟩
    rw [BitVec.or_assoc, pteFlags_or (pageAligned_and _) (hf.or (by decide))]

end Mapped

/-- `write` gives the page its bytes, and the request is one for the user half. -/
structure PageReq.Ok (p : PageReq) : Prop where
  user : pml4Index p.va < 256
  flagBits : FlagBits p.flags
  userFlag : User p.flags
  fills : Fills p.write p.bytes

/-- The flags and bytes at each path after the pages `ps` were mapped in order. -/
def imageOf (ps : List PageReq) : List ℕ → Option (U64 × (ℕ → U8)) :=
  ps.foldl (fun M p => Function.update M (vaPath p.va) (some (p.flags, p.bytes))) fun _ => none

theorem imageOf_concat (ps : List PageReq) (p : PageReq) : imageOf (ps ++ [p]) =
    Function.update (imageOf ps) (vaPath p.va) (some (p.flags, p.bytes)) := by
  rw [imageOf, List.foldl_append]
  rfl

namespace MapState

variable {m m' : MapState} {pml4 : U64} {go : Bool} {ps : List PageReq}

/-- Pages mapped one after the other : all of them, or those before the first `kalloc` that
fails. -/
theorem mapAll_spec (ho : OwnTree m.heap pml4) (hps : ∀ p ∈ ps, p.Ok)
    (hr : m.mapAll pml4 ps = some (m', go)) (hok : m'.tablesOk = true) :
    ∃ pre, pre <+: ps ∧ (go = true → pre = ps) ∧ Mapped m.heap m'.heap pml4 (imageOf pre) := by
  have h := Loop.each_spec
    (I := fun pre t => t.tablesOk = true → Mapped m.heap t.heap pml4 (imageOf pre))
    (J := fun t => t.tablesOk = true →
      ∃ pre, pre <+: ps ∧ Mapped m.heap t.heap pml4 (imageOf pre))
    (fun pre p post hx t t' ht hr hok => ?_) (fun pre p post hx t t' ht hr hok => ?_)
    (fun _ => Mapped.refl ho) hr
  · rcases go with _ | _
    · obtain ⟨pre, hpre, hm⟩ := h hok
      exact ⟨pre, hpre, fun h => absurd h (by simp), hm⟩
    · exact ⟨ps, List.prefix_rfl, fun _ => rfl, h hok⟩
  · have hp := hps p (by simp [hx])
    rw [imageOf_concat]
    exact ((ht (mapNewPage_mono hr hok)).mapNewPage hp.user hp.flagBits hp.userFlag hp.fills hr
      hok).2.2
  · have hp := hps p (by simp [hx])
    have hm := ht (mapNewPage_mono hr hok)
    have he := (hm.mapNewPage hp.user hp.flagBits hp.userFlag hp.fills hr hok).2.2
    exact ⟨pre, hx ▸ List.prefix_append _ _, (show t'.heap = t.heap from he) ▸ hm⟩

/-- Four free pages are enough for a page : the page itself and three tables. -/
theorem mapNewPage_ok {p : PageReq} (hu : UserSpace m.heap pml4) (hp : p.Ok)
    (hr : m.mapReq pml4 p = some (m', go)) (h4 : 4 ≤ m.heap.freePages.ncard) :
    go = true ∧ m'.pagesOk = m.pagesOk ∧ m'.tablesOk = m.tablesOk := by
  rw [mapReq, mapNewPage] at hr
  obtain ⟨⟨h₁, v⟩, hk, hr⟩ := Option.bind_eq_some_iff.1 hr
  rcases kalloc_one hu.sound with ⟨-, hno⟩ | ⟨h₁', v', hk', ht⟩
  · rw [hno, Set.ncard_empty] at h4
    omega
  · obtain ⟨rfl, rfl⟩ := Prod.mk.inj (Option.some.inj (hk.symm.trans hk'))
    simp only [if_neg ht.ne_zero] at hr
    obtain ⟨t, hmap, he⟩ := Option.map_eq_some_iff.1 hr
    obtain ⟨rfl, rfl⟩ := Prod.mk.inj he
    have hone := Set.ncard_sdiff_singleton_of_mem ht.mem_free
    obtain ⟨hsp, hfree, -, -⟩ := hu.of_take ht (p.write v (h₁.zeroPage v))
      ((hp.fills.freeLists v _).trans rfl) ((hp.fills.hhdm v _).trans rfl)
      fun x hx => (hp.fills.outside v _ x ht.aligned hx).trans
        (zeroPage_mem_of_pageOf_ne ht.aligned hx)
    have hok := PagingState.mapPagePml4_ok (s := ⟨p.write v (h₁.zeroPage v), true⟩) hsp hp.user
      hmap rfl (by rw [show (PagingState.mk _ true).heap.freePages = _ from hfree]; omega)
    exact ⟨rfl, rfl, by rw [hok, Bool.and_true]⟩

/-- With four free pages for each page of the list no `kalloc` fails. -/
theorem mapAll_ok (ho : OwnTree m.heap pml4) (hps : ∀ p ∈ ps, p.Ok)
    (hc : 4 * ps.length ≤ m.heap.freePages.ncard) (hpages : m.pagesOk = true)
    (htables : m.tablesOk = true) (hr : m.mapAll pml4 ps = some (m', go)) :
    m'.pagesOk = true ∧ m'.tablesOk = true := by
  have h := Loop.each_spec
    (I := fun pre t => t.pagesOk = true ∧ t.tablesOk = true ∧
      Mapped m.heap t.heap pml4 (imageOf pre) ∧
      4 * (ps.length - pre.length) ≤ t.heap.freePages.ncard)
    (J := fun _ => False)
    (fun pre p post hx t t' ht hr => ?_) (fun pre p post hx t t' ht hr => ?_)
    ⟨hpages, htables, Mapped.refl ho, hc⟩ hr
  · rcases go with _ | _
    · exact h.elim
    · exact ⟨h.1, h.2.1⟩
  · obtain ⟨hpk, htk, hm, hcard⟩ := ht
    have hp := hps p (by simp [hx])
    have hlen : ps.length = pre.length + (post.length + 1) := by simp [hx]
    obtain ⟨-, hpk', htk'⟩ := mapNewPage_ok hm.own.space hp hr (by omega)
    obtain ⟨-, hc', hm'⟩ := hm.mapNewPage hp.user hp.flagBits hp.userFlag hp.fills hr
      (htk'.trans htk)
    rw [imageOf_concat, List.length_append, List.length_singleton]
    exact ⟨hpk'.trans hpk, htk'.trans htk, hm', by omega⟩
  · obtain ⟨-, -, hm, hcard⟩ := ht
    have hlen : ps.length = pre.length + (post.length + 1) := by simp [hx]
    exact absurd (mapNewPage_ok hm.own.space (hps p (by simp [hx])) hr (by omega)).1 (by simp)

end MapState

/-! ## The pages of a segment -/

namespace Elf

open LoadState

section Copy

variable {elf : Mem} {i j : ℕ} {va : U64}

theorem copyStart_toNat (elf : Mem) (i : ℕ) (va : U64) :
    (copyStart elf i va).toNat = max va.toNat (pVaddr elf i).toNat := by
  unfold copyStart
  split_ifs with h
  · have : (pVaddr elf i).toNat < va.toNat := h
    omega
  · have : ¬(pVaddr elf i).toNat < va.toNat := h
    omega

theorem pageEnd_toNat (hva : va.toNat + 4096 < 2 ^ 64) : (va + pageSize).toNat = va.toNat + 4096 := by
  rw [BitVec.toNat_add, pageSize_toNat, Nat.mod_eq_of_lt hva]

theorem copyEnd_toNat (elf : Mem) (i : ℕ) (hva : va.toNat + 4096 < 2 ^ 64) :
    (copyEnd elf i va).toNat = min (va.toNat + 4096) (segFileEnd elf i).toNat := by
  unfold copyEnd
  have he := pageEnd_toNat hva
  split_ifs with h
  · have : (va + pageSize).toNat < (segFileEnd elf i).toNat := h
    omega
  · have : ¬(va + pageSize).toNat < (segFileEnd elf i).toNat := h
    omega

theorem hasFileBytes_iff (hva : va.toNat + 4096 < 2 ^ 64) : HasFileBytes elf i va ↔
    (pVaddr elf i).toNat < va.toNat + 4096 ∧ va.toNat < (segFileEnd elf i).toNat := by
  rw [HasFileBytes, gt_iff_lt, BitVec.lt_def, BitVec.lt_def, pageEnd_toNat hva]

/-- The copy stays in the page unless `p_vaddr + p_filesz` wraps and ends in the same page. -/
theorem copyTarget_below_iff (hva : va.toNat + 4096 < 2 ^ 64) (hf : HasFileBytes elf i va) :
    (copyTarget elf i va).Below pageSize ↔ (pVaddr elf i).toNat ≤ (segFileEnd elf i).toNat := by
  obtain ⟨h1, h2⟩ := (hasFileBytes_iff hva).1 hf
  have hs := copyStart_toNat elf i va
  have he := copyEnd_toNat elf i hva
  have hd : (copyStart elf i va - va).toNat = (copyStart elf i va).toNat - va.toNat :=
    BitVec.toNat_sub_of_le (BitVec.le_def.2 (by omega))
  have hl := BitVec.toNat_sub (copyEnd elf i va) (copyStart elf i va)
  have := (copyStart elf i va).isLt
  have := (copyEnd elf i va).isLt
  simp only [copyTarget, Extent.Below, hd, hl, pageSize_toNat]
  omega

/-- The bytes of the page lie in the page. -/
theorem copyTarget_toNat (hva : va.toNat + 4096 < 2 ^ 64) (hf : HasFileBytes elf i va)
    (hle : (pVaddr elf i).toNat ≤ (segFileEnd elf i).toNat) :
    (copyTarget elf i va).start.toNat = max va.toNat (pVaddr elf i).toNat - va.toNat ∧
      (copyTarget elf i va).length =
        min (va.toNat + 4096) (segFileEnd elf i).toNat - max va.toNat (pVaddr elf i).toNat := by
  obtain ⟨h1, h2⟩ := (hasFileBytes_iff hva).1 hf
  have hs := copyStart_toNat elf i va
  have he := copyEnd_toNat elf i hva
  rw [copyTarget]
  dsimp only
  rw [BitVec.toNat_sub_of_le (BitVec.le_def.2 (by omega)),
    BitVec.toNat_sub_of_le (BitVec.le_def.2 (by omega)), hs, he]
  exact ⟨rfl, rfl⟩

theorem copyFile_of_not (hf : ¬HasFileBytes elf i va) (page : U64) (h : Heap) :
    copyFile elf i va page h = h := if_neg hf

theorem copyFile_of (hf : HasFileBytes elf i va) (page : U64) (h : Heap) :
    copyFile elf i va page h =
      { h with mem := paste h.mem (page + (copyTarget elf i va).start) elf
                (copySource elf i va).start (copySource elf i va).length } := if_pos hf

/-- The copy gives the page the bytes of the segment. -/
theorem fills_copyFile (hva : va.toNat + 4096 < 2 ^ 64)
    (hcopy : HasFileBytes elf i va → (copyTarget elf i va).Below pageSize) :
    Fills (copyFile elf i va) (segByte elf i va) := by
  by_cases hf : HasFileBytes elf i va
  · have hle := (copyTarget_below_iff hva hf).1 (hcopy hf)
    obtain ⟨hstart, hlen⟩ := copyTarget_toNat hva hf hle
    obtain ⟨h1, h2⟩ := (hasFileBytes_iff hva).1 hf
    have hn : (copySource elf i va).length = (copyTarget elf i va).length := rfl
    have hmem : ∀ page h x, ¬Within x (page + (copyTarget elf i va).start)
        (copyTarget elf i va).length → (copyFile elf i va page h).mem x = h.mem x :=
      fun page h x hx => by
        rw [copyFile_of hf]
        exact paste_of_not_within hx
    refine ⟨fun page h => by rw [copyFile_of hf], fun page h => by rw [copyFile_of hf],
      fun page h x hp hx => hmem page h x fun hw => hx ((within_page_iff hp).1 ?_),
      fun page h hp hz j hj => ?_⟩
    · have hst : (copyTarget elf i va).start =
          BitVec.ofNat 64 (copyTarget elf i va).start.toNat := by simp
      rw [hst] at hw
      exact hw.of_add (by omega) (by norm_num)
    · by_cases hin : (pVaddr elf i).toNat ≤ va.toNat + j ∧ va.toNat + j < (segFileEnd elf i).toNat
      · rw [segByte, if_pos hin, copyFile_of hf]
        -- byte `k` of the copy
        obtain ⟨k, hk⟩ : ∃ k, j = (copyTarget elf i va).start.toNat + k :=
          ⟨j - (copyTarget elf i va).start.toNat, by omega⟩
        have hj' : BitVec.ofNat 64 j = (copyTarget elf i va).start + BitVec.ofNat 64 k := by
          refine BitVec.eq_of_toNat_eq ?_
          simp only [BitVec.toNat_add, BitVec.toNat_ofNat]
          omega
        have hn64 : (copySource elf i va).length ≤ 2 ^ 64 := by omega
        dsimp only
        rw [hj', ← BitVec.add_assoc, paste_add (by omega) hn64]
        congr 1
        rw [copySource, copyTarget, ← BitVec.add_assoc va, BitVec.add_comm va, BitVec.sub_add_cancel,
          BitVec.add_assoc]
        congr 1
        rw [BitVec.sub_eq_add_neg, BitVec.sub_eq_add_neg, BitVec.add_assoc,
          BitVec.add_comm (-pVaddr elf i), ← BitVec.add_assoc]
      · rw [segByte, if_neg hin, hmem, hz j hj]
        intro hw
        have hpos : 0 < (copyTarget elf i va).length := Nat.zero_lt_of_lt hw
        have hst : (copyTarget elf i va).start =
            BitVec.ofNat 64 (copyTarget elf i va).start.toNat := by simp
        rw [hst, within_add_iff (by omega) hpos, toNat_add_sub_self page (by omega)] at hw
        exact hin (by omega)
  · refine ⟨fun page h => by rw [copyFile_of_not hf], fun page h => by rw [copyFile_of_not hf],
      fun page h x _ _ => by rw [copyFile_of_not hf], fun page h _ hz j hj => ?_⟩
    rw [copyFile_of_not hf, hz j hj, segByte, if_neg]
    rintro ⟨h1, h2⟩
    exact hf ((hasFileBytes_iff hva).2 ⟨by omega, by omega⟩)

end Copy

end Elf

end Jeos
