import Jeos.ExecSuccess

/-!
# A call of `proc_exec` that fails

`Filled.mapAll` : as long as the addresses are in different pages, the tree under the new top table
has exactly the pages that `elf_load_segments` took, wherever the loop was left.
-/

set_option linter.unusedSectionVars false

namespace Jeos

open ByteMemory DyadicBlock TreeWalk Elf LoadState UserStack

/-! ## What is mapped when a page is missing -/

section Mapping

variable {h₀ : Heap} {pml4 : U64} {vas : List U64} {m m' : MapState} {p : PageReq} {go : Bool}
  {ps : List PageReq}

/-- A page of its own is one more page of the address space. -/
theorem Filled.mapReq (hf : Filled h₀ pml4 m.heap vas) (hp : p.Ok) (hlow : p.va.toNat < 2 ^ 47)
    (hnew : ∀ va ∈ vas, pageOf va ≠ pageOf p.va) (hr : m.mapReq pml4 p = some (m', true))
    (hok : m'.tablesOk = true) : Filled h₀ pml4 m'.heap (p.va :: vas) := by
  rw [MapState.mapReq, MapState.mapNewPage] at hr
  obtain ⟨⟨h₁, v⟩, hk, hr⟩ := Option.bind_eq_some_iff.1 hr
  have hsp := hf.owning.1.own.space
  rcases kalloc_one hsp.sound with ⟨hk', -⟩ | ⟨h₁', v', hk', ht⟩
  · obtain ⟨rfl, rfl⟩ := Prod.mk.inj (Option.some.inj (hk.symm.trans hk'))
    exact absurd (Prod.mk.inj (Option.some.inj hr)).2 (by decide)
  obtain ⟨rfl, rfl⟩ := Prod.mk.inj (Option.some.inj (hk.symm.trans hk'))
  simp only [if_neg ht.ne_zero] at hr
  obtain ⟨t, hmap, he⟩ := Option.map_eq_some_iff.1 hr
  obtain ⟨rfl, -⟩ := Prod.mk.inj he
  obtain ⟨-, htok⟩ := Bool.and_eq_true_iff.1 hok
  have halloc : PagingState.kallocPage ⟨m.heap, true⟩ = some (⟨h₁, true⟩, v) :=
    Option.map_eq_some_iff.2 ⟨(h₁, v), hk, by simpa using ht.ne_zero⟩
  have hmem : ∀ x, pageOf x ≠ pageOf v → (p.write v (h₁.zeroPage v)).mem x = h₁.mem x :=
    fun x hx => (hp.fills.outside v _ x ht.aligned hx).trans
      (zeroPage_mem_of_pageOf_ne ht.aligned hx)
  have hlists := (hp.fills.freeLists v (h₁.zeroPage v)).trans rfl
  have hhdm := (hp.fills.hhdm v (h₁.zeroPage v)).trans rfl
  -- the page is not in the tree, so its content does not matter
  obtain ⟨hsp₁, hfree₁, -, hnodes⟩ := hsp.of_take ht h₁ rfl rfl fun _ _ => rfl
  obtain ⟨hsp₂, hfree₂, -, -⟩ := hsp.of_take ht _ hlists hhdm hmem
  have hspace : spacePages h₁ pml4 = spacePages m.heap pml4 := by
    simp only [spacePages, hnodes]
  have hund : Undisturbed pml4 h₁ (p.write v (h₁.zeroPage v)) := by
    refine hsp₁.undisturbed (U := {pageOf v}) hsp₂.sound ⟨hhdm, hmem⟩ ?_ ?_
    · rw [hspace, Set.disjoint_singleton_right]
      exact fun hv => hsp.not_free hv ht.mem_free
    · rw [hfree₂, ← hfree₁]
      exact hsp₁.disjoint_free
  exact .map hf hlow hnew hp.flagBits hp.userFlag halloc hund (hfree₂.trans hfree₁.symm) hmap htok

/-- Pages of their own, wherever the loop is left. -/
theorem Filled.mapAll (hf : Filled h₀ pml4 m.heap []) (hps : ∀ p ∈ ps, p.Ok ∧ p.va.toNat < 2 ^ 47)
    (hd : ps.Pairwise fun p q => pageOf p.va ≠ pageOf q.va)
    (hr : m.mapAll pml4 ps = some (m', go)) (hok : m'.tablesOk = true) :
    ∃ vas, Filled h₀ pml4 m'.heap vas := by
  have h := Loop.each_spec
    (I := fun pre t => t.tablesOk = true →
      Filled h₀ pml4 t.heap (pre.map PageReq.va).reverse)
    (J := fun t => t.tablesOk = true → ∃ vas, Filled h₀ pml4 t.heap vas)
    (fun pre p post hx t t' ht hr hok => ?_) (fun pre p post hx t t' ht hr hok => ?_)
    (fun _ => hf) hr
  · rcases go with _ | _
    · exact h hok
    · exact ⟨_, h hok⟩
  · obtain ⟨hp, hlow⟩ := hps p (by simp [hx])
    rw [List.map_append, List.reverse_append]
    refine (ht (MapState.mapNewPage_mono hr hok)).mapReq hp hlow (fun va hva => ?_) hr hok
    obtain ⟨q, hq, rfl⟩ := List.mem_map.1 (List.mem_reverse.1 hva)
    rw [hx] at hd
    exact (List.pairwise_append.1 hd).2.2 q hq p List.mem_cons_self
  · obtain ⟨hp, -⟩ := hps p (by simp [hx])
    have hf := ht (MapState.mapNewPage_mono hr hok)
    have he := ((Mapped.refl hf.owning.1.own).mapNewPage hp.user hp.flagBits hp.userFlag hp.fills hr
      hok).2.2
    exact ⟨_, (show t'.heap = t.heap from he) ▸ hf⟩

end Mapping

/-! ## Segments with pages of their own -/

namespace Elf

/-- The segments of a file of `size` bytes : their bytes are in the file, and each has pages of its
own, below the user stack. -/
structure SegmentsApart (elf : Mem) (size : U64) : Prop where
  inFile : ∀ i, Segment elf i → (pOffset elf i).toNat + (pFilesz elf i).toNat ≤ size.toNat
  low : ∀ i, Segment elf i →
    (pVaddr elf i).toNat + (pMemsz elf i).toNat ≤ userStackBase.toNat
  disjoint : ∀ i j, Segment elf i → Segment elf j → i ≠ j →
    (segPages elf i).Disjoint (segPages elf j)

section Segments

variable {elf : Mem} {size start stop : U64} {vas : List U64}

/-- Increasing page addresses are in different pages. -/
theorem pairwise_pageOf (h : vas.Pairwise (· < ·)) (hal : ∀ va ∈ vas, PageAligned va) :
    vas.Pairwise fun a b => pageOf a ≠ pageOf b :=
  h.imp_of_mem fun {a b} ha hb hlt he => by
    obtain rfl := eq_of_pageOf_eq (hal a ha) (hal b hb) he
    exact BitVec.lt_irrefl a hlt

theorem segPages_pairwise (elf : Mem) (i : ℕ) :
    (segPages elf i).Pairwise fun a b => pageOf a ≠ pageOf b := by
  refine pairwise_pageOf ?_ fun _ => aligned_of_mem_segPages
  unfold segPages
  split_ifs
  · exact pagesFrom_pairwise _ _
  · exact List.Pairwise.nil

theorem aligned_of_mem_stackPages {va : U64} (h : va ∈ stackPages) : PageAligned va :=
  aligned_of_mem_pagesFrom (by decide) h

theorem SegmentsApart.plan_low (ha : SegmentsApart elf size) : ∀ p ∈ elfPlan elf, p.va.toNat < 2 ^ 47 := by
  have hb : userStackBase.toNat = 549755805696 := rfl
  intro p hp
  rcases List.mem_append.1 hp with hp | hp
  · obtain ⟨i, hi, hp⟩ := List.mem_flatMap.1 hp
    obtain ⟨va, hva, rfl⟩ := List.mem_map.1 hp
    have hseg := segment_of_mem (List.mem_range.1 hi) hva
    have := lt_base_of_low hseg (ha.low i hseg) hva
    change va.toNat < 2 ^ 47
    omega
  · obtain ⟨va, hva, rfl⟩ := List.mem_map.1 hp
    exact (mem_stackPages hva).2.trans (by norm_num)

/-- No two pages of the plan are the same. -/
theorem SegmentsApart.plan_pairwise (ha : SegmentsApart elf size) :
    (elfPlan elf).Pairwise fun p q => pageOf p.va ≠ pageOf q.va := by
  refine List.pairwise_append.2 ⟨List.pairwise_flatMap.2 ⟨fun i _ => ?_, ?_⟩, ?_, ?_⟩
  · exact List.pairwise_map.2 (segPages_pairwise elf i)
  · refine List.pairwise_lt_range.imp_of_mem fun {i j} hi hj hlt p hp q hq he => ?_
    obtain ⟨va, hva, rfl⟩ := List.mem_map.1 hp
    obtain ⟨va', hva', rfl⟩ := List.mem_map.1 hq
    have he' : va = va' := eq_of_pageOf_eq (aligned_of_mem_segPages hva)
      (aligned_of_mem_segPages hva') he
    exact ha.disjoint i j (segment_of_mem (List.mem_range.1 hi) hva)
      (segment_of_mem (List.mem_range.1 hj) hva') hlt.ne hva (he' ▸ hva')
  · exact List.pairwise_map.2 (pairwise_pageOf (pagesFrom_pairwise _ _)
      fun _ => aligned_of_mem_stackPages)
  · intro p hp q hq he
    obtain ⟨i, hi, hp⟩ := List.mem_flatMap.1 hp
    obtain ⟨va, hva, rfl⟩ := List.mem_map.1 hp
    obtain ⟨va', hva', rfl⟩ := List.mem_map.1 hq
    have he' : va = va' := eq_of_pageOf_eq (aligned_of_mem_segPages hva)
      (aligned_of_mem_stackPages hva') he
    have hseg := segment_of_mem (List.mem_range.1 hi) hva
    have hlt := lt_base_of_low hseg (ha.low i hseg) hva
    exact absurd (mem_stackPages hva').1 (Nat.not_le.2 (he' ▸ hlt))

/-- No end of a segment passes `2 ^ 64`. -/
theorem SegmentsApart.tame (ha : SegmentsApart elf size) (hsz : size.toNat + 2 ^ 40 ≤ 2 ^ 64) : Tame elf := by
  have hb : userStackBase.toNat = 549755805696 := rfl
  refine ⟨fun i hi va hva => pml4Index_lt ?_, fun i hi va hva hf => ?_⟩
  · have hseg := segment_of_mem hi hva
    have := lt_base_of_low hseg (ha.low i hseg) hva
    omega
  · have hseg := segment_of_mem hi hva
    have hlow := ha.low i hseg
    have hin := ha.inFile i hseg
    rw [copyTarget_below_iff (lt_of_mem_segPages hva) hf, segFileEnd, BitVec.toNat_add,
      Nat.mod_eq_of_lt (by omega)]
    exact Nat.le_add_right _ _

end Segments

end Elf

/-! ## The new address space is dropped -/

/-- The tree is torn down : what was taken for it is free again, each page freed once, and what was
not free is as it was. -/
theorem Owning.undo {h₀ h : Heap} {pml4 : U64} (ho : Owning h₀ h pml4 ∅)
    (hag : h₀.AgreeOutside h₀.freePages h) :
    ∃ f, FreeState.teardown ⟨h, [], []⟩ pml4 = some f ∧ f.heap.Sound ∧
      f.heap.freePages = h₀.freePages ∧ h₀.AgreeOutside h₀.freePages f.heap ∧
      (f.freed.map pageOf).Nodup ∧ pml4 ∈ f.freed ∧ ∀ p ∈ f.freed, pageOf p ∈ h₀.freePages := by
  have hown := ho.own
  obtain ⟨f, hf, hs, hfree, hag', hnodup, hfreed, -⟩ := hown.teardown
  have hall : h.freePages ∪ spacePages h pml4 = h₀.freePages := by
    rw [← ho.pages, Set.union_empty]
  rw [hall] at hfree hag'
  refine ⟨f, hf, hs, hfree, hag.trans hag', ?_, (hfreed _).2 ⟨[], _, nodeAt_nil, rfl⟩,
    fun p hp => ?_⟩
  · refine List.Nodup.map_on (fun v hv w hw he => ?_) hnodup
    obtain ⟨p, n, hn, rfl⟩ := (hfreed v).1 hv
    obtain ⟨q, n', hn', rfl⟩ := (hfreed w).1 hw
    exact eq_of_pageOf_eq (hown.space.aligned hn) (hown.space.aligned hn') he
  · obtain ⟨q, n, hn, rfl⟩ := (hfreed p).1 hp
    exact hall ▸ Or.inr ⟨q, n, hn, rfl⟩

namespace ExecState

variable {s s' : ExecState} {k : Fin maxProcs} {buf pml4 size : U64} {pages : U32} {o : ℕ}

/-- The pointers passed to `kfree`, the last first. -/
def frees (s : ExecState) : List U64 := s.events.filterMap fun
  | .free p => some p
  | _ => none

theorem frees_append (s : ExecState) (ps : List U64) (es : List ExecEvent)
    (he : s.events = ps.map .free ++ es) : s.frees = ps ++ ({ s with events := es } : ExecState).frees := by
  rw [frees, frees, he, List.filterMap_append, List.filterMap_map]
  congr 1
  exact List.filterMap_some

/-- The pages of the plan are mapped to the new table, wherever the loop is left. -/
theorem filled_of_load {t : PagingState} {l : LoadState} {elf : Mem} {n : U64} {r : Option U64}
    (hs : s.heap.Sound)
    (hcreate : PagingState.createUserPml4 ⟨s.heap, true⟩ s.cr3 = some (t, pml4))
    (htok : t.ok = true) (hfile : IsElf64 elf → Tame elf ∧ SegmentsApart elf size)
    (hload : elfLoadSegments ⟨⟨t.heap, true, s.tablesOk⟩, [], []⟩ pml4 elf n = some (l, r))
    (hok : l.map.tablesOk = true) : (∃ vas, Filled s.heap pml4 l.map.heap vas) ∧
      s.heap.AgreeOutside s.heap.freePages l.map.heap := by
  have hf : Filled s.heap pml4 t.heap [] := .create hs hcreate htok
  have hn := PagingState.createUserPml4_spec (s := ⟨s.heap, true⟩) hs hcreate htok
  by_cases he : IsElf64 elf
  · obtain ⟨htame, ha⟩ := hfile he
    obtain ⟨l', r', hload', hmap⟩ :=
      exists_elfLoadSegments he pml4 n ⟨⟨t.heap, true, s.tablesOk⟩, [], []⟩
    obtain ⟨rfl, rfl⟩ := Prod.mk.inj (Option.some.inj (hload.symm.trans hload'))
    obtain ⟨pre, -, -, hm⟩ := MapState.mapAll_spec hn.ownTree htame.plan_ok hmap hok
    refine ⟨hf.mapAll (fun p hp => ⟨htame.plan_ok p hp, ha.plan_low p hp⟩) ha.plan_pairwise hmap
      hok, hn.agree.trans (hm.agree.mono ?_)⟩
    have hpages := hn.owning.pages
    rw [Set.union_empty] at hpages
    rw [← show _ = s.heap.freePages from hpages]
    exact Set.union_subset_union_right _ tablePages_subset
  · obtain ⟨l', hload', hmap⟩ :=
      elfLoadSegments_reject he pml4 n ⟨⟨t.heap, true, s.tablesOk⟩, [], []⟩
    obtain ⟨rfl, -⟩ := Prod.mk.inj (Option.some.inj (hload.symm.trans hload'))
    rw [hmap]
    exact ⟨⟨[], hf⟩, hn.agree⟩

/-- What is left of a program that is not loaded : the pages `B` of the buffer are free, and so is
everything that was taken since, the top table with it. -/
structure ImageDropped (s : ExecState) (B : Set ℕ) (buf pml4 : U64) (s' : ExecState) : Prop where
  files : s'.files = s.files
  sound : s'.heap.Sound
  free : s'.heap.freePages = s.heap.freePages ∪ B
  agree : s.heap.AgreeOutside (s.heap.freePages ∪ B) s'.heap
  table : ∃ t, PagingState.createUserPml4 ⟨s.heap, true⟩ s.cr3 = some (t, pml4)
  frees : ∃ tree, s'.frees = buf :: (tree ++ s.frees) ∧ (tree.map pageOf).Nodup ∧
    (pml4 ≠ 0 → pml4 ∈ tree) ∧ ∀ p ∈ tree, pageOf p ∈ s.heap.freePages

theorem loadImage_none (hs : s.heap.Sound) (hb : HeldBlock s.heap (pages.setWidth 64) buf o)
    (hfile : ∀ elf, BufferBytes s.heap buf pages elf → IsElf64 elf →
      Tame elf ∧ SegmentsApart elf size)
    (hr : s.loadImage buf pages = some (s', pml4, none)) (hok : s'.tablesOk = true) :
    ImageDropped s (blockAt o buf).pages buf pml4 s' := by
  obtain ⟨⟨t, p4⟩, hcreate, hr⟩ := Option.bind_eq_some_iff.1 hr
  dsimp only at hr
  split_ifs at hr with h0
  · -- no page for the top table
    obtain ⟨s₁, hk, he⟩ := Option.map_eq_some_iff.1 hr
    rw [Prod.mk.injEq, Prod.mk.injEq] at he
    obtain ⟨rfl, rfl, -⟩ := he
    obtain ⟨-, t', hc', ht'⟩ | ⟨t', p', hc', -, h0'⟩ := ForkState.createUserPml4_cases hs s.cr3
    · obtain ⟨rfl, -⟩ := Prod.mk.inj (Option.some.inj (hcreate.symm.trans hc'))
      obtain ⟨g, hk', hgs, hgfree, hgag⟩ := hb.kfree hs
      rw [kfree, ht'] at hk
      obtain ⟨g', hg, rfl⟩ := Option.map_eq_some_iff.1 hk
      obtain rfl := Option.some.inj (hk'.symm.trans hg)
      exact ⟨rfl, hgs, hgfree, hgag, ⟨t, hcreate⟩, [], rfl, List.nodup_nil, fun hne => absurd h0 hne,
        fun p hp => absurd hp List.not_mem_nil⟩
    · obtain ⟨-, rfl⟩ := Prod.mk.inj (Option.some.inj (hcreate.symm.trans hc'))
      exact absurd h0 h0'
  obtain ⟨-, t', hc', -⟩ | ⟨t', p', hc', htok, -⟩ := ForkState.createUserPml4_cases hs s.cr3
  · exact absurd (Prod.mk.inj (Option.some.inj (hcreate.symm.trans hc'))).2 h0
  obtain ⟨rfl, rfl⟩ := Prod.mk.inj (Option.some.inj (hcreate.symm.trans hc'))
  have hn := PagingState.createUserPml4_spec (s := ⟨s.heap, true⟩) hs hcreate htok
  obtain ⟨⟨l, e⟩, hload, hr⟩ := Option.bind_eq_some_iff.1 hr
  cases e with
  | some e =>
    obtain ⟨s₁, -, he⟩ := Option.map_eq_some_iff.1 hr
    exact absurd (Prod.mk.inj (Prod.mk.inj he).2).2 (by simp)
  | none =>
    obtain ⟨s₁, htear, hr⟩ := Option.bind_eq_some_iff.1 hr
    obtain ⟨s₂, hk, he⟩ := Option.map_eq_some_iff.1 hr
    rw [Prod.mk.injEq, Prod.mk.injEq] at he
    obtain ⟨rfl, rfl, -⟩ := he
    obtain ⟨f, hf, rfl⟩ := Option.map_eq_some_iff.1 htear
    obtain ⟨g, hg, rfl⟩ := Option.map_eq_some_iff.1 hk
    have hok : l.map.tablesOk = true := hok
    obtain ⟨⟨vas, hfill⟩, hag⟩ := filled_of_load hs hcreate htok
      (hfile _ (bufferBytes_create hb hn)) hload hok
    obtain ⟨f', hf', hfs, hffree, hfag, hnodup, hmem, htree⟩ := hfill.owning.1.undo hag
    obtain rfl := Option.some.inj (hf'.symm.trans hf)
    obtain ⟨g', hk', hgs, hgfree, hgag⟩ := (hb.mono hffree.subset).kfree hfs
    obtain rfl := Option.some.inj (hk'.symm.trans hg)
    rw [hffree] at hgfree hgag
    refine ⟨rfl, hgs, hgfree, (hfag.mono Set.subset_union_left).trans hgag, ⟨t, hcreate⟩,
      f'.freed, ?_, hnodup, fun _ => hmem, htree⟩
    exact frees_append _ (buf :: f'.freed) s.events rfl

/-! ## The whole call -/

/-- The process, its descriptors and all memory that was in use are as they were. -/
structure Invisible (s s' : ExecState) (k : Fin maxProcs) : Prop where
  entry : s'.entry = s.entry
  cr3 : s'.cr3 = s.cr3
  files : FilesKept s.files s'.files
  frame : ∀ x, pageOf x ∈ Jeos.stackPages (s.entry k).kstack → s'.heap.mem x = s.heap.mem x
  user : ∀ va, va.toNat < 2 ^ 47 →
    s'.heap.view (s.entry k).pml4 va = s.heap.view (s.entry k).pml4 va
  used : s.heap.AgreeOutside s.heap.freePages s'.heap

/-- The pages taken for the program `p` are free again, and each was freed once. The buffer has
several pages, and no other page is freed inside it. -/
structure FreedOnce (s s' : ExecState) (p : ProgramFile) : Prop where
  sound : s'.heap.Sound
  free : s'.heap.freePages = s.heap.freePages
  once : (s'.frees.map pageOf).Nodup
  taken : ∀ v ∈ s'.frees, pageOf v ∈ s.heap.freePages
  buffer : ∀ r v n, p.readElf s.heap s.files = some r → r.buffer = some (v, n) →
    v ∈ s'.frees ∧ ∀ w ∈ s'.frees, w ≠ v → ¬Within w v (n.toNat * 4096)
  table : ∀ r b t pml4, p.readElf s.heap s.files = some r → r.result = some b →
    PagingState.createUserPml4 ⟨r.heap, true⟩ s.cr3 = some (t, pml4) → pml4 ≠ 0 →
      pml4 ∈ s'.frees

end ExecState

namespace ProgramFile

variable {p : ProgramFile} {content : Mem} {size : U64}

/-- The read stays in the pages of the buffer, and it fails, or the segments of what is there then
have pages of their own. -/
structure LoadsApart (p : ProgramFile) (size : U64) : Prop where
  stored : (p.reply size).stored ≤ (elfPages size).toNat * 4096
  apart : (p.reply size).result.slt 0 = false → ∀ elf : Mem,
    (∀ i < (elfPages size).toNat * 4096, elf (BitVec.ofNat 64 i) = p.elfByte size i) →
      IsElf64 elf → SegmentsApart elf size

/-- Where the pages hold the file and the read fails or gives all of it, the segments of the file
decide. -/
theorem loadsApart_of_whole (ha : p.Allowed content) (hsz : size.toNat ≤ (2 ^ 32 - 1) * 4096)
    (hread : (p.reply size).result.slt 0 = true ∨ (p.reply size).stored = size.toNat)
    (hc : ∀ elf : Mem, (∀ i < size.toNat, elf (BitVec.ofNat 64 i) = content (BitVec.ofNat 64 i)) →
      IsElf64 elf → SegmentsApart elf size) : p.LoadsApart size := by
  have hle := (le_elfPages_iff size).2 hsz
  refine ⟨(ha.reply_stored size).trans hle, fun hok elf helf => hc elf fun i hi => ?_⟩
  have hst := hread.resolve_left (by rw [hok]; decide)
  rw [helf i (by omega), elfByte, if_pos (by omega), ha.reply_bytes hok (by omega)]

/-- A file whose page count is cut so far that there is a block for it is much smaller than
`2 ^ 64`. -/
theorem size_le_of_block {h h₁ : Heap} {v : U64} {o : ℕ}
    (ht : TakesBlock h h₁ ((elfPages size).setWidth 64) v o) : size.toNat + 2 ^ 40 ≤ 2 ^ 64 := by
  have hn := elfPages_toNat size
  have hle := (le_of_orderFor ht.order).trans (Nat.pow_le_pow_right (by norm_num) ht.order_le)
  rw [BitVec.toNat_setWidth_of_le (by norm_num)] at hle
  have hpos : (elfPages size).toNat ≠ 0 := fun h0 => ht.pages_ne (BitVec.eq_of_toNat_eq (by
    rw [BitVec.toNat_setWidth_of_le (by norm_num), h0]
    rfl))
  have hsz := size.isLt
  omega

end ProgramFile

namespace ExecState

variable {s s' : ExecState} {k : Fin maxProcs} {fs : List U8 → ProgramFile} {path argv : U64}

theorem procExec_eq_neg (hr : s.procExec (some k) fs path argv = some (s', -1)) :
    s.execLoad fs path = some (s', none) := by
  have hr' := hr
  rw [procExec] at hr
  obtain ⟨⟨s₁, r⟩, hl, hr⟩ := Option.bind_eq_some_iff.1 hr
  cases r with
  | none =>
    obtain ⟨rfl, -⟩ := Prod.mk.inj (Option.some.inj hr)
    exact hl
  | some r => exact absurd hr' (procExec_ne_neg hl)

theorem Invisible.of_agree (hready : ExecReady s.heap s k) (hsame : SameProcs s s')
    (hfiles : FilesKept s.files s'.files) (hag : s.heap.AgreeOutside s.heap.freePages s'.heap) :
    Invisible s s' k :=
  ⟨hsame.1, hsame.2, hfiles, fun x hx => hag.mem x (Set.disjoint_left.1 hready.held hx),
    fun _ => hready.own.space.view_of_agree hag hready.own.space.disjoint_free, hag⟩

theorem execLoad_none (hready : ExecReady s.heap s k) (hf : FileSystemState.FilesOk s.files [])
    (hp : (s.program fs path).Refused s.heap ∨
      ∃ size, (s.program fs path).size = some size ∧ (s.program fs path).LoadsApart size)
    (hr : s.execLoad fs path = some (s', none)) (hok : s'.tablesOk = true) :
    Invisible s s' k ∧ FreedOnce s s' (s.program fs path) := by
  have hsame := execLoad_same hr
  obtain ⟨s₀, hread, hr⟩ := Option.bind_eq_some_iff.1 hr
  obtain ⟨b, helf, hr⟩ := Option.bind_eq_some_iff.1 hr
  obtain rfl := readUser_eq hread
  dsimp only at helf hr
  change (s.program fs path).readElf s.heap s.files = some b at helf
  have hs := hready.own.space.sound
  have hone : ∀ r, (s.program fs path).readElf s.heap s.files = some r → r = b := fun r h =>
    Option.some.inj (h.symm.trans helf)
  obtain ⟨files, hok', -, hkept, ⟨-, hread'⟩ | ⟨hno, size, h₁, v, o, hsz, ht, -, hread'⟩⟩ :=
    ProgramFile.readElf_cases (p := s.program fs path) hs hf
  · -- nothing is taken
    obtain rfl := Option.some.inj (helf.symm.trans hread')
    obtain ⟨rfl, -⟩ := Prod.mk.inj (Option.some.inj hr)
    refine ⟨.of_agree hready hsame hkept (.refl _ _), hs, rfl, List.nodup_nil,
      fun v hv => absurd hv List.not_mem_nil, fun r v n h hb => ?_, fun r b t pml4 h hb => ?_⟩
    · rw [hone r h] at hb
      cases hb
    · rw [hone r h] at hb
      cases hb
  obtain ⟨size', hsz', hst, hapart⟩ := hp.resolve_left hno
  obtain rfl := Option.some.inj (hsz.symm.trans hsz')
  have hn : ((elfPages size).setWidth 64).toNat = (elfPages size).toNat :=
    BitVec.toNat_setWidth_of_le (by norm_num)
  have hpos : 0 < ((elfPages size).setWidth 64).toNat :=
    Nat.pos_of_ne_zero fun h0 => ht.pages_ne (BitVec.eq_of_toNat_eq h0)
  have hv : pageOf v ∈ s.heap.freePages :=
    ht.mem_free (ht.pageOf_mem (within_self _ (by omega)))
  rw [hread', ProgramFile.finish] at helf
  split_ifs at helf with hneg
  · -- the read fails
    obtain ⟨g', hk, rfl⟩ := Option.map_eq_some_iff.1 helf
    obtain ⟨g, hk', hg, hfree, hag⟩ := ht.kfree ((s.program fs path).filled size v h₁) rfl rfl
      fun x hx => ProgramFile.filled_mem ht hst hx
    obtain rfl := Option.some.inj (hk'.symm.trans hk)
    obtain ⟨rfl, -⟩ := Prod.mk.inj (Option.some.inj hr)
    refine ⟨.of_agree hready hsame hkept hag, hg, hfree, List.nodup_singleton _,
      List.forall_mem_singleton.2 hv, fun r w n h hb => ?_, fun r b t pml4 h hb => ?_⟩
    · rw [hone r h] at hb
      obtain ⟨rfl, rfl⟩ := Prod.mk.inj (Option.some.inj hb)
      exact ⟨List.mem_singleton_self _, fun w hw hne => absurd (List.mem_singleton.1 hw) hne⟩
    · rw [hone r h] at hb
      cases hb
  · -- the image is dropped
    obtain rfl := Option.some.inj helf
    obtain ⟨⟨s₂, p4, e⟩, hload, he⟩ := Option.map_eq_some_iff.1 hr
    cases e with
    | some e => exact absurd (Prod.mk.inj he).2 (by simp)
    | none =>
      rw [Option.map_none, Prod.mk.injEq] at he
      obtain ⟨rfl, -⟩ := he
      set g := (s.program fs path).filled size v h₁
      have hagree : s.heap.AgreeOutside s.heap.freePages g := ProgramFile.filled_agree ht hst
      obtain ⟨hgs, hgfree⟩ := ht.sound.congr g rfl rfl fun x hx =>
        ProgramFile.filled_mem ht hst (by rw [ht.free] at hx; exact hx.2)
      have hback : g.freePages ∪ (blockAt o v).pages = s.heap.freePages := by
        rw [hgfree, ht.free, Set.sdiff_union_self, Set.union_eq_left]
        exact ht.mem_free
      have hfile : ∀ elf, BufferBytes g v (elfPages size) elf → IsElf64 elf →
          Tame elf ∧ SegmentsApart elf size := fun elf hbytes hisElf => by
        have ha := hapart (Bool.eq_false_iff.2 hneg) elf (fun i hi =>
          (hbytes i hi).trans (ProgramFile.filled_byte ht hst hi)) hisElf
        exact ⟨ha.tame (ProgramFile.size_le_of_block ht), ha⟩
      obtain ⟨hfiles, hsound, hfree, hag, ⟨t, hcreate⟩, tree, hfrees, hnodup, htable, htree⟩ :=
        loadImage_none hgs (ht.held hgfree) hfile hload hok
      have hfree' : s₂.heap.freePages = s.heap.freePages := hfree.trans hback
      have hag' : g.AgreeOutside s.heap.freePages s₂.heap := hback ▸ hag
      have hfrees' : s₂.frees = v :: tree := hfrees.trans (by simp [frees])
      have hout : ∀ w ∈ tree, pageOf w ∉ (blockAt o v).pages := fun w hw hB =>
        Set.disjoint_left.1 (ht.held hgfree).held hB (htree w hw)
      refine ⟨.of_agree hready hsame (hfiles ▸ hkept) (hagree.trans hag'), hsound, hfree', ?_, ?_,
        fun r w n h hb => ?_, fun r b t' pml4 h hb hc h0 => ?_⟩
      · rw [hfrees', List.map_cons, List.nodup_cons]
        refine ⟨fun hm => ?_, hnodup⟩
        obtain ⟨w, hw, he⟩ := List.mem_map.1 hm
        exact hout w hw (he ▸ ht.pageOf_mem (within_self _ (by omega)))
      · rw [hfrees', List.forall_mem_cons]
        exact ⟨hv, fun w hw => hback ▸ Or.inl (htree w hw)⟩
      · rw [hone r h] at hb
        obtain ⟨rfl, rfl⟩ := Prod.mk.inj (Option.some.inj hb)
        rw [hfrees']
        refine ⟨List.mem_cons_self, fun w hw hne hin => ?_⟩
        exact hout w ((List.mem_cons.1 hw).resolve_left hne) (ht.pageOf_mem (by rwa [hn]))
      · rw [hone r h] at hc
        obtain ⟨-, rfl⟩ := Prod.mk.inj (Option.some.inj (hcreate.symm.trans hc))
        rw [hfrees']
        exact List.mem_cons_of_mem _ (htable h0)

/-- When the file is refused, or the read stays in the buffer and what is there is no program or one
with pages of its own, nobody sees a call that returns -1. -/
theorem failed_exec_invisible (hready : ExecReady s.heap s k)
    (hf : FileSystemState.FilesOk s.files [])
    (hp : (s.program fs path).Refused s.heap ∨
      ∃ size, (s.program fs path).size = some size ∧ (s.program fs path).LoadsApart size)
    (hr : s.procExec (some k) fs path argv = some (s', -1)) (hok : s'.tablesOk = true) :
    Invisible s s' k ∧ FreedOnce s s' (s.program fs path) :=
  execLoad_none hready hf hp (procExec_eq_neg hr) hok

/-- A buffer that is no program is dropped. -/
theorem loadImage_reject {buf : U64} {pages : U32} {o : ℕ} (hs : s.heap.Sound)
    (hb : HeldBlock s.heap (pages.setWidth 64) buf o)
    (hno : ∀ elf, BufferBytes s.heap buf pages elf → ¬IsElf64 elf) :
    ∃ s' pml4, s.loadImage buf pages = some (s', pml4, none) ∧ s'.tablesOk = s.tablesOk := by
  obtain ⟨-, t, hcreate, ht⟩ | ⟨t, p4, hcreate, htok, h0⟩ := ForkState.createUserPml4_cases hs s.cr3
  · obtain ⟨g, hk, -⟩ := hb.kfree hs
    refine ⟨{ s with heap := g, events := .free buf :: s.events }, 0, ?_, rfl⟩
    rw [loadImage, hcreate, Option.bind_some]
    dsimp only
    rw [if_pos rfl, kfree, ht, hk]
    rfl
  · have hn := PagingState.createUserPml4_spec (s := ⟨s.heap, true⟩) hs hcreate htok
    obtain ⟨l, hload, hmap⟩ := elfLoadSegments_reject (hno _ (bufferBytes_create hb hn)) p4
      (pages.setWidth 64 * pageSize) ⟨⟨t.heap, true, s.tablesOk⟩, [], []⟩
    obtain ⟨f, hf, hfs, hfree, -⟩ := hn.owning.undo hn.agree
    obtain ⟨g, hk, -⟩ := (hb.mono hfree.subset).kfree hfs
    refine ⟨{ s with heap := g, events := .free buf :: (f.freed.map .free ++ s.events) }, p4, ?_,
      rfl⟩
    rw [loadImage, hcreate, Option.bind_some]
    dsimp only
    rw [if_neg h0, hload, Option.bind_some, hmap]
    dsimp only [teardown]
    rw [hf]
    dsimp only [Option.map_some, Option.bind_some, kfree]
    rw [hk]
    rfl

theorem procExec_of_none (hl : s.execLoad fs path = some (s', none)) :
    s.procExec (some k) fs path argv = some (s', -1) := by
  rw [procExec, hl]
  rfl

end ExecState

/-! ## A file that is no program -/

/-- A file of 4096 zeros. -/
def blank : ProgramFile := pageFile fun _ => 0

/-- Without the class byte a file is refused. -/
theorem not_isElf64_of_class {elf : Mem} (h : elf (BitVec.ofNat 64 4) = 0) : ¬IsElf64 elf :=
  fun he => by
    have hstart : (field ehdr 0 1).start = BitVec.ofNat 64 4 := by decide
    have hclass := he.2.1
    rw [eClass, hstart, h] at hclass
    exact absurd hclass (by decide)

theorem blank_loadsApart : blank.LoadsApart 4096 where
  stored := by decide
  apart _ elf helf he := absurd he (not_isElf64_of_class ((helf 4 (by decide)).trans rfl))

theorem failed_exec_invisible_blank : ∃ h old s', ExecState.ExecReady h (caller h old) 0 ∧
    (caller h old).procExec (some 0) (fun _ => blank) 0x400000 0 = some (s', -1) ∧
      s'.frees ≠ [] ∧ ExecState.Invisible (caller h old) s' 0 ∧
        ExecState.FreedOnce (caller h old) s' blank := by
  obtain ⟨h, old, hready, hshow, hcard, -⟩ := exists_caller (n := 32) (by norm_num) fun _ => 0
  have hs := hready.own.space.sound
  have hread := caller_canRead hshow (by decide)
  obtain ⟨files, h₁, v, o, -, -, -, ht, hbuf⟩ := ProgramFile.readElf_one (p := blank) hs
    FileSystemState.pipesOk_boot.files (Set.nonempty_of_ncard_ne_zero (by omega))
    (Option.some_ne_none _) (show blank.size = some 4096 from rfl) (by decide)
  have hst := blank_loadsApart.stored
  rw [ProgramFile.finish, if_neg (by decide)] at hbuf
  obtain ⟨hgs, hgfree⟩ := ht.sound.congr (blank.filled 4096 v h₁) rfl rfl fun x hx =>
    ProgramFile.filled_mem ht hst (by rw [ht.free] at hx; exact hx.2)
  obtain ⟨s', pml4, hload, htab⟩ := ExecState.loadImage_reject
    (s := (caller h old).bufferRead 0x400000 ⟨blank.filled 4096 v h₁, files,
      [⟨v, (blank.reply 4096).stored⟩], [], some (v, elfPages 4096), some (v, elfPages 4096)⟩)
    hgs (ht.held hgfree) fun elf hb => by
      refine not_isElf64_of_class (((hb 4 (by decide)).trans ?_).trans (b := blank.elfByte 4096 4) rfl)
      exact ProgramFile.filled_byte ht hst (by decide)
  have hl : (caller h old).execLoad (fun _ => blank) 0x400000 = some (s', none) := by
    have hbuf' : ((caller h old).program (fun _ => blank) 0x400000).readElf (caller h old).heap
        (caller h old).files = some _ := hbuf
    rw [ExecState.execLoad_eq hread hbuf' rfl, hload]
    rfl
  have hr : (caller h old).procExec (some 0) (fun _ => blank) 0x400000 0 = some (s', -1) :=
    ExecState.procExec_of_none hl
  have hp : ∃ size, ((caller h old).program (fun _ => blank) 0x400000).size = some size ∧
      ((caller h old).program (fun _ => blank) 0x400000).LoadsApart size :=
    ⟨4096, rfl, blank_loadsApart⟩
  obtain ⟨hinv, honce⟩ := ExecState.failed_exec_invisible hready
    FileSystemState.pipesOk_boot.files (Or.inr hp) hr (htab.trans rfl)
  exact ⟨h, old, s', hready, hr, List.ne_nil_of_mem (honce.buffer _ _ _ hbuf rfl).1, hinv, honce⟩

/-! ## A read that passes the end of its buffer -/

/-- A file of `2 ^ 44 + 1` bytes. A read stores the bytes up to the address `x`, when the buffer is
at `v`, and then fails. But for the last they are what `m` has there. -/
def overrun (m : Mem) (v x : U64) : ProgramFile where
  opened := some (⟨0, none, none⟩, true, false)
  size := some 0x100000000001
  read count := ⟨fun a => if v + a = x then m x + 1 else m (v + a),
    min ((x - v).toNat + 1) count.toNat, -5⟩

theorem overrun_allowed (m : Mem) (v x : U64) : (overrun m v x).Allowed fun _ => 0 :=
  fun _ => ⟨Nat.min_le_right _ _,
    fun hpos => absurd (show (-5 : U64).slt 0 = false from hpos) (by decide)⟩

theorem overrun_reply (m : Mem) {v x count : U64} (hx : (x - v).toNat < count.toNat) :
    (overrun m v x).reply count =
      ⟨fun a => if v + a = x then m x + 1 else m (v + a), (x - v).toNat + 1, -5⟩ := by
  have hmin : min ((x - v).toNat + 1) count.toNat = (x - v).toNat + 1 := Nat.min_eq_left hx
  have hreply : (overrun m v x).reply count = ⟨fun a => if v + a = x then m x + 1 else m (v + a),
      min ((x - v).toNat + 1) count.toNat, -5⟩ := rfl
  rw [hreply, hmin]

/-- What the read leaves. -/
theorem overrun_filled (h : Heap) {v x count : U64} (hx : (x - v).toNat < count.toNat) (y : U64) :
    ((overrun h.mem v x).filled count v h).mem y =
      if y = x then h.mem x + 1 else h.mem y := by
  have hback : v + (0 + (y - v)) = y := by
    rw [show (0 : U64) + (y - v) = y - v from BitVec.zero_add _, BitVec.add_comm,
      BitVec.sub_add_cancel]
  rw [ProgramFile.filled_eq, overrun_reply h.mem hx, paste]
  dsimp only
  rw [hback]
  by_cases hy : y = x
  · rw [if_pos (show Within y v _ from hy ▸ Nat.lt_succ_self _)]
  · rw [if_neg hy, ite_self]

/-- The top of the saved frame is changed by a call that returns -1. -/
theorem failed_exec_visible : ∃ (h : Heap) (old : U64) (p : ProgramFile) (s' : ExecState),
    ExecState.ExecReady h (caller h old) 0 ∧ p.Allowed (fun _ => 0) ∧ ¬IsElf64 (fun _ => 0) ∧
      (caller h old).procExec (some 0) (fun _ => p) 0x400000 0 = some (s', -1) ∧
        s'.tablesOk = true ∧
          s'.heap.mem (((caller h old).entry 0).kstack + kstackSize - 16) ≠
            h.mem (((caller h old).entry 0).kstack + kstackSize - 16) ∧
            ¬ExecState.Invisible (caller h old) s' 0 := by
  obtain ⟨h, old, hready, hshow, hcard, hlow⟩ := exists_caller (n := 32) (by norm_num) fun _ => 0
  have hs := hready.own.space.sound
  have hread := caller_canRead hshow (by decide)
  obtain ⟨-, hempty⟩ | ⟨h₁, v, hk, ht⟩ := kalloc_one hs
  · rw [hempty, Set.ncard_empty] at hcard
    omega
  have hxe : ((caller h old).entry 0).kstack + kstackSize - 16 = 0xffff800000401ff0 := by
    change (0xffff800000400000 : U64) + kstackSize - 16 = _
    decide
  set x : U64 := 0xffff800000401ff0 with hx
  -- the frame is above the page of the buffer
  have hxp : pageOf x = 0xffff800000401 := by decide
  have hxfree : pageOf x ∉ h.freePages := fun hf => by
    have := hlow _ (Or.inl hf)
    omega
  have hdist : (x - v).toNat < (0x100000000001 : U64).toNat := by
    have hc : (0x100000000001 : U64).toNat = 0x100000000001 := rfl
    have hv := hlow _ (Or.inl ht.mem_free)
    have hxn : x.toNat = 0xffff800000401ff0 := rfl
    unfold pageOf at hv
    rw [BitVec.toNat_sub_of_le (BitVec.le_def.2 (by omega))]
    omega
  obtain ⟨files, h₁', v', o, -, -, hk', htb, hbuf⟩ := ProgramFile.readElf_one
    (p := overrun h₁.mem v x) hs FileSystemState.pipesOk_boot.files ⟨_, ht.mem_free⟩
    (Option.some_ne_none _) (show (overrun h₁.mem v x).size = some _ from rfl) (by decide)
  obtain ⟨rfl, rfl⟩ := Prod.mk.inj (Option.some.inj (hk.symm.trans hk'))
  have hmem := overrun_filled h₁ hdist
  have hkeeps : ∀ (p : ProgramFile) c, (p.filled c v h₁).freeLists = h₁.freeLists ∧
      (p.filled c v h₁).hhdmOffset = h₁.hhdmOffset := fun _ _ => ⟨rfl, rfl⟩
  obtain ⟨hlists, hhdm⟩ := hkeeps (overrun h₁.mem v x) 0x100000000001
  obtain ⟨g, hfree, -, -, hag⟩ := htb.release _ hlists hhdm fun y hy => by
    rw [hmem, if_neg]
    rintro rfl
    rw [ht.free] at hy
    exact hxfree hy.1
  have hneg : ((overrun h₁.mem v x).reply 0x100000000001).result.slt 0 = true := by
    rw [overrun_reply h₁.mem hdist]
    change (-5 : U64).slt 0 = true
    decide
  rw [ProgramFile.finish, if_pos hneg, hfree, Option.map_some] at hbuf
  have hbuf' : ((caller h old).program (fun _ => overrun h₁.mem v x) 0x400000).readElf
      (caller h old).heap (caller h old).files = some _ := hbuf
  have hl := ExecState.execLoad_eq_none hread hbuf' rfl
  have hne : g.mem x ≠ h.mem x := by
    rw [hag.mem x hxfree, hmem, if_pos rfl, ht.agree.mem x hxfree]
    generalize h.mem x = b
    bv_omega
  refine ⟨h, old, overrun h₁.mem v x, _, hready, overrun_allowed _ _ _,
    not_isElf64_of_class rfl, ExecState.procExec_of_none hl, rfl, by rw [hxe]; exact hne,
    fun hinv => hne ?_⟩
  exact hinv.used.mem x hxfree

end Jeos
