import Jeos.KernelTree

/-!
# What `map_mmio` maps

`map_mmio` does what it is for on a range in the direct map of which no page is in a large one
(`mmio_mapped`). Below an entry of a large page `map_page` takes the memory of the page for a table
(`mmio_not_mapped`).
-/

set_option linter.unusedSectionVars false

namespace Jeos

open ByteMemory TreeWalk

namespace PagingState

variable {s s' : PagingState} {root cr3 : U64}

/-! ## The loop -/

/-- The paths of the pages from `p` to `stop` in the direct map. -/
def directPaths (h : Heap) (p stop : U64) : Set (List ℕ) :=
  {is | ∃ q, PageAligned q ∧ p ≤ q ∧ q < stop ∧ is = vaPath (h.physToVirt q)}

section Loop

variable {stop p : U64} {fuel : ℕ}

/-- The next page, where the last one is in front of `stop`. -/
theorem next_page (hp : PageAligned p) (hstop : PageAligned stop) (hlt : p < stop) :
    PageAligned (p + pageSize) ∧ (p + pageSize).toNat = p.toNat + 4096 := by
  have hadd : (p + pageSize).toNat = p.toNat + 4096 := by
    have h1 := hp.toNat_eq
    have h2 := hstop.toNat_eq
    have h3 : p.toNat < stop.toNat := hlt
    have h4 := stop.isLt
    rw [BitVec.toNat_add, show pageSize.toNat = 4096 from rfl]
    omega
  exact ⟨hp.add (by decide), hadd⟩

theorem exists_mapMmioLoop (cr3 : U64) (fuel : ℕ) (hp : PageAligned p) (hstop : PageAligned stop)
    (hfuel : stop.toNat ≤ p.toNat + 4096 * fuel) :
    ∃ s', mapMmioLoop cr3 stop (fuel + 1) s p = some s' := by
  induction fuel generalizing s p with
  | zero =>
    have hle : ¬p < stop := by
      rw [BitVec.lt_def]
      omega
    exact ⟨s, by rw [mapMmioLoop, if_neg hle]⟩
  | succ fuel ih =>
    rw [mapMmioLoop]
    split
    case isTrue hlt =>
      obtain ⟨hp', hadd⟩ := next_page hp hstop hlt
      obtain ⟨s₁, h₁⟩ := s.exists_mapPage cr3 (s.heap.physToVirt p) p mmioFlags
      rw [h₁, Option.bind_some]
      exact ih hp' (by omega)
    case isFalse => exact ⟨s, rfl⟩

theorem mapMmioLoop_mono (hr : mapMmioLoop cr3 stop fuel s p = some s') (hok : s'.ok = true) :
    s.ok = true := by
  induction fuel generalizing s p with
  | zero => exact absurd hr.symm (Option.some_ne_none s')
  | succ fuel ih =>
    rw [mapMmioLoop] at hr
    split at hr
    · obtain ⟨s₁, h₁, hr⟩ := Option.bind_eq_some_iff.1 hr
      exact mapPage_mono h₁ (ih hr)
    · rw [Option.some.inj hr]
      exact hok

/-- The loop maps the pages from `p` to `stop`, where none of them is in a large page. -/
theorem mapMmioLoop_spec (hroot : s.heap.pteAddr cr3 = root) (hk : KernelTree s.heap root)
    (hp : PageAligned p) (hstop : PageAligned stop)
    (hsmall : ∀ q, PageAligned q → p ≤ q → q < stop →
      Canonical (s.heap.physToVirt q) ∧ SmallAt s.heap root (s.heap.physToVirt q))
    (hr : mapMmioLoop cr3 stop fuel s p = some s') (hok : s'.ok = true) :
    MapsOnly (directPaths s.heap p stop) root s.heap s'.heap ∧
      ∀ q, PageAligned q → p ≤ q → q < stop →
        ∃ rights, walkFrom s'.heap (vaPath (s.heap.physToVirt q)) root (-1) =
            some (0, q &&& pageFrameMask ||| mmioFlags ||| ptePresent, rights) ∧
          rights &&& 3 = (q &&& pageFrameMask ||| mmioFlags ||| ptePresent) &&& 3 := by
  induction fuel generalizing s p with
  | zero => exact absurd hr.symm (Option.some_ne_none s')
  | succ fuel ih =>
    rw [mapMmioLoop] at hr
    split at hr
    case isFalse hge =>
      obtain rfl := Option.some.inj hr
      exact ⟨.refl hk, fun q _ hpq hlt => absurd (Nat.lt_of_le_of_lt hpq hlt) hge⟩
    case isTrue hlt =>
      obtain ⟨s₁, h₁, hr⟩ := Option.bind_eq_some_iff.1 hr
      obtain ⟨hp', hadd⟩ := next_page hp hstop hlt
      obtain ⟨hcan, hsm⟩ := hsmall p hp (BitVec.le_refl p) hlt
      obtain ⟨m₁, rights, hw, hrights⟩ := mapPage_spec hroot hk hsm h₁ (mapMmioLoop_mono hr hok)
      have hhd : ∀ q, s₁.heap.physToVirt q = s.heap.physToVirt q := fun q => by
        rw [Heap.physToVirt, Heap.physToVirt, m₁.agree.hhdm]
      have hstart : ∀ {q}, p + pageSize ≤ q → p ≤ q := fun hle => by
        rw [BitVec.le_def] at hle ⊢
        omega
      -- The pages that follow are not on the path of this one.
      have hne : ∀ q, PageAligned q → p + pageSize ≤ q → q < stop →
          vaPath (s.heap.physToVirt q) ≠ vaPath (s.heap.physToVirt p) := fun q hq hle hlt' => by
        have hpq : p.toNat + 4096 ≤ q.toNat := hadd ▸ hle
        refine vaPath_ne hcan (hsmall q hq (hstart hle) hlt').1 fun he => ?_
        have := eq_of_pageOf_eq (hq.add hk.sound.hhdm) (hp.add hk.sound.hhdm) he
        rw [BitVec.add_left_inj] at this
        rw [this] at hpq
        omega
      obtain ⟨m, hmapped⟩ := ih ((pteAddr_congr m₁.agree.hhdm cr3).trans hroot) m₁.tree hp'
        (fun q hq hle hlt' => by
          obtain ⟨hc, hs⟩ := hsmall q hq (hstart hle) hlt'
          rw [hhd]
          refine ⟨hc, fun below e rights hw' => hs below e rights ?_⟩
          rw [← m₁.walks _ rfl (fun i => index_lt_of_mem_vaPath) (hne q hq hle hlt'), hw']) hr
      refine ⟨?_, fun q hq hle hlt' => ?_⟩
      · refine (m₁.mono ?_).trans (m.mono ?_)
        · rintro is rfl
          exact ⟨p, hp, BitVec.le_refl p, hlt, rfl⟩
        · rintro is ⟨q, hq, hle, hlt', rfl⟩
          exact ⟨q, hq, hstart hle, hlt', by rw [hhd]⟩
      · by_cases hqp : q = p
        · obtain rfl := hqp
          refine ⟨rights, ?_, hrights⟩
          rw [m.walks _ rfl (fun i => index_lt_of_mem_vaPath), hw]
          rintro ⟨q', hq', hle', hlt'', he⟩
          rw [hhd] at he
          exact hne q' hq' hle' hlt'' he.symm
        · have hle' : p + pageSize ≤ q := by
            have h1 := hp.toNat_eq
            have h2 := hq.toNat_eq
            have h3 := BitVec.le_def.1 hle
            have h4 : q.toNat ≠ p.toNat := fun e => hqp (BitVec.eq_of_toNat_eq e)
            rw [BitVec.le_def]
            omega
          obtain ⟨r, hw', hr'⟩ := hmapped q hq hle' hlt'
          rw [hhd] at hw'
          exact ⟨r, hw', hr'⟩

end Loop

end PagingState

/-! ## The range -/

section Range

variable {h h' : Heap} {root cr3 phys size va va' b f rights : U64}

theorem vaPath_congr (hp : pageOf va' = pageOf va) : vaPath va' = vaPath va := by
  unfold pageOf at hp
  simp only [vaPath, pml4Index, pdptIndex, pdIndex, ptIndex, index_toNat]
  rw [show va'.toNat / 2 ^ 39 = va.toNat / 2 ^ 39 by omega,
    show va'.toNat / 2 ^ 30 = va.toNat / 2 ^ 30 by omega,
    show va'.toNat / 2 ^ 21 = va.toNat / 2 ^ 21 by omega,
    show va'.toNat / 2 ^ 12 = va.toNat / 2 ^ 12 by omega]

theorem canonical_congr (hp : pageOf va' = pageOf va) (hc : Canonical va) : Canonical va' := by
  unfold pageOf at hp
  rcases hc with hc | hc
  · exact Or.inl (by omega)
  · exact Or.inr (by omega)

/-- The rights of a walk through entries that grant reads and writes. -/
theorem rights_of_three (hr : rights &&& 3 = 3) : Present rights ∧ rights &&& pteWrite ≠ 0 := by
  have h : ∀ m : U64, 3 &&& m = m → rights &&& m = m := fun m hm => by
    rw [← hm, ← BitVec.and_assoc, hr]
  exact ⟨by rw [Present, h _ (by decide)]; decide, by rw [h _ (by decide)]; decide⟩

/-- A page and the offset in it. -/
theorem page_or_offset (b : U64) : b &&& pageFrameMask ||| b &&& offsetBits 0 = b := by
  rw [← BitVec.and_or_distrib_left, show pageFrameMask ||| offsetBits 0 = BitVec.allOnes 64 by decide,
    BitVec.and_allOnes]

/-- A byte of a page that the direct map maps to itself. -/
theorem translate_direct (hh : PageAligned h.hhdmOffset) (hb : b.toNat < 2 ^ 52) (hf : FlagBits f)
    (hc : Canonical (h.physToVirt (b &&& pageFrameMask)))
    (hw : walkFrom h' (vaPath (h.physToVirt (b &&& pageFrameMask))) root (-1) =
      some (0, b &&& pageFrameMask ||| f, rights)) :
    translate h' root (h.physToVirt b) = some (b, rights, b &&& pageFrameMask ||| f) := by
  have hhd : h.hhdmOffset.toNat % 4096 = 0 := Nat.mod_eq_zero_of_dvd hh
  have hpage : pageOf (h.physToVirt b) = pageOf (h.physToVirt (b &&& pageFrameMask)) := by
    unfold pageOf
    rw [Heap.physToVirt, Heap.physToVirt, BitVec.toNat_add, BitVec.toNat_add,
      and_pageFrameMask_toNat, pageOf]
    omega
  have hoffset : h.physToVirt b &&& offsetBits 0 = b &&& offsetBits 0 := by
    refine BitVec.eq_of_toNat_eq ?_
    rw [BitVec.toNat_and, BitVec.toNat_and, show (offsetBits 0).toNat = 2 ^ 12 - 1 by decide,
      Nat.and_two_pow_sub_one_eq_mod, Nat.and_two_pow_sub_one_eq_mod, Heap.physToVirt,
      BitVec.toNat_add]
    omega
  have hframe : (b &&& pageFrameMask ||| f) &&& frameBits &&& ~~~offsetBits 0 = b &&& pageFrameMask := by
    have hbits : frameBits = pageFrameMask &&& frameBits := by decide
    have hlow : (b &&& pageFrameMask) &&& frameBits = b &&& pageFrameMask := by
      refine BitVec.eq_of_toNat_eq ?_
      rw [and_frameBits_toNat, pageOf, and_pageFrameMask_toNat, pageOf]
      omega
    rw [hbits, ← BitVec.and_assoc, or_and_pageFrameMask (pageAligned_and b) hf, hlow,
      show ~~~offsetBits 0 = pageFrameMask by decide, and_pageFrameMask_of_aligned (pageAligned_and b)]
  have hb' : (b &&& pageFrameMask ||| f) &&& frameBits &&& ~~~offsetBits 0 |||
      h.physToVirt b &&& offsetBits 0 = b := by rw [hframe, hoffset, page_or_offset]
  rw [translate, if_pos (canonical_congr hpage hc), vaPath_congr hpage, hw, Option.map_some]
  exact congrArg (fun a => some (a, rights, b &&& pageFrameMask ||| f)) hb'

/-- The pages of the bytes of the range are touched. -/
theorem touched_of_mem (hsize : phys.toNat + size.toNat ≤ 2 ^ 52) (hle : phys.toNat ≤ b.toNat)
    (hlt : b.toNat < phys.toNat + size.toNat) : Touched phys size (b &&& pageFrameMask) := by
  have hstop : (phys + size + pageSize - 1).toNat = phys.toNat + size.toNat + 4095 := by
    rw [BitVec.toNat_sub, BitVec.toNat_add, BitVec.toNat_add, show pageSize.toNat = 4096 from rfl,
      show (1 : U64).toNat = 1 from rfl]
    omega
  refine ⟨pageAligned_and b, ?_, ?_⟩
  · rw [BitVec.le_def, and_pageFrameMask_toNat, and_pageFrameMask_toNat]
    exact Nat.mul_le_mul_right _ (Nat.div_le_div_right hle)
  · rw [BitVec.lt_def, and_pageFrameMask_toNat, and_pageFrameMask_toNat, pageOf, pageOf, hstop]
    omega

/-- `map_mmio` on a range where no page of the direct map is in a large page. -/
theorem mmio_mapped (hk : KernelTree h (h.pteAddr cr3))
    (hsize : size = 0 ∨ phys.toNat + size.toNat ≤ 2 ^ 52)
    (hpages : ∀ p, Touched phys size p →
      Canonical (h.physToVirt p) ∧ SmallAt h (h.pteAddr cr3) (h.physToVirt p)) :
    ∃ s', PagingState.mapMmio ⟨h, true⟩ cr3 phys size = some s' ∧
      (s'.ok = true → MmioMapped h s'.heap (h.pteAddr cr3) phys size) := by
  have hstart := pageAligned_and phys
  have hstop := pageAligned_and (phys + size + pageSize - 1)
  have hfuel := ((phys + size + pageSize - 1) &&& pageFrameMask).isLt
  obtain ⟨s', hr⟩ := PagingState.exists_mapMmioLoop (s := ⟨h, true⟩) cr3 (2 ^ 64 - 1) hstart hstop
    (by omega)
  refine ⟨s', hr, fun hok => ?_⟩
  obtain ⟨m, hmapped⟩ := PagingState.mapMmioLoop_spec (s := ⟨h, true⟩) rfl hk hstart hstop
    (fun q hq hle hlt => hpages q ⟨hq, hle, hlt⟩) hr hok
  refine ⟨fun b hle hlt => ?_, fun va hva => ?_, m.agree⟩
  · have hsum : phys.toNat + size.toNat ≤ 2 ^ 52 := by
      rcases hsize with rfl | hs
      · exact absurd (Nat.lt_of_le_of_lt hle hlt) (Nat.lt_irrefl _)
      · exact hs
    have ht := touched_of_mem hsum hle hlt
    have hflags : FlagBits (mmioFlags ||| ptePresent) := by decide
    obtain ⟨rights, hw, hrights⟩ := hmapped _ ht.1 ht.2.1 ht.2.2
    rw [and_pageFrameMask_of_aligned ht.1, BitVec.or_assoc] at hw hrights
    rw [or_and_of_flags ht.1 (by decide)] at hrights
    obtain ⟨hp, hwr⟩ := rights_of_three hrights
    have htr := translate_direct hk.sound.hhdm (by omega) hflags (hpages _ ht).1 hw
    exact ⟨rights, _, htr, hp, hwr, and_bit_ne_zero_of_or (by decide)⟩
  · unfold translate
    by_cases hc : Canonical va
    · rw [if_pos hc, if_pos hc, m.walks _ rfl fun i => index_lt_of_mem_vaPath]
      rintro ⟨q, hq, hle, hlt, he⟩
      have ht : Touched phys size q := ⟨hq, hle, hlt⟩
      exact vaPath_ne (hpages q ht).1 hc (hva q ht) he
    · rw [if_neg hc, if_neg hc]

end Range

/-! ## A large page -/

/-- The top table of the example. -/
def largePml4 : U64 := 0xffff800000001000

/-- The table below it. -/
def largePdpt : U64 := 0xffff800000002000

/-- A tree with one large page : the direct map of the first GiB. -/
structure LargeTree (h : Heap) : Prop where
  hhdm : h.hhdmOffset = 0xffff800000000000
  sound : h.Sound
  low : ∀ k ∈ h.freePages, 0xffff800000100 ≤ k
  card : h.freePages.ncard = 16
  pml4 : ∀ i < 512, h.entry largePml4 i = if i = 256 then 0x2003 else 0
  pdpt : ∀ i < 512, h.entry largePdpt i = if i = 0 then 0x83 else 0
  zero : ∀ i < 512, h.entry 0xffff800000000000 i = 0

theorem exists_largeTree : ∃ h, LargeTree h := by
  obtain ⟨h, -, hs, hc, hag, hbounds⟩ := exists_boot_heap_of (n := 16) (by norm_num)
  have hlow : ∀ k ∈ h.freePages, 0xffff800000100 ≤ k := fun k hk => (hbounds k hk).1
  have hout : ∀ {t : U64}, pageOf t < 0xffff800000100 → pageOf t ∉ h.freePages := fun hlt hmem =>
    absurd (hlow _ hmem) (Nat.not_le.2 hlt)
  have hzero : ∀ {t : U64}, PageAligned t → pageOf t < 0xffff800000100 → ∀ i < 512,
      h.entry t i = 0 := fun ht hlt i hi => by
    rw [entry_congr ht hi fun x hx => hag.mem x (hx ▸ hout hlt), Heap.entry, kinit, load64]
    simp [readLE]
  have a4 : PageAligned largePml4 := by decide
  have a3 : PageAligned largePdpt := by decide
  have hne : ∀ {h : Heap} {t u e : U64} {i j : ℕ}, PageAligned t → PageAligned u → i < 512 → j < 512 →
      pageOf u ≠ pageOf t → (h.setEntry t i e).entry u j = h.entry u j := fun ht hu hi hj hpage =>
    entry_congr hu hj fun x hx => setEntry_mem_of_pageOf_ne ht hi (hx ▸ hpage)
  have hset : ∀ {h : Heap} {t e : U64} {i : ℕ}, i < 512 → (∀ j < 512, h.entry t j = 0) → ∀ j < 512,
      (h.setEntry t i e).entry t j = if j = i then e else 0 := fun hi h0 j hj => by
    split
    case isTrue he => rw [he, entry_setEntry_self]
    case isFalse he =>
      rw [← h0 j hj]
      exact load64_congr fun x hx => setEntry_mem_of_not_within (not_within_entry_of_ne hj hi he hx)
  obtain ⟨hs₁, hf₁⟩ := hs.setEntry a4 (hout (by decide)) (by norm_num : 256 < 512) 0x2003
  obtain ⟨hs₂, hf₂⟩ := hs₁.setEntry a3 (hf₁ ▸ hout (by decide)) (by norm_num : 0 < 512) 0x83
  refine ⟨(h.setEntry largePml4 256 0x2003).setEntry largePdpt 0 0x83, hag.hhdm, hs₂,
    by rwa [hf₂, hf₁], by rw [hf₂, hf₁, hc], fun i hi => ?_, ?_, fun i hi => ?_⟩
  · rw [hne a3 a4 (by norm_num) hi (by decide)]
    exact hset (by norm_num) (hzero a4 (by decide)) i hi
  · refine hset (by norm_num) fun j hj => ?_
    rw [hne a4 a3 (by norm_num) hj (by decide), hzero a3 (by decide) j hj]
  · have a0 : PageAligned 0xffff800000000000 := by decide
    rw [hne a3 a0 (by norm_num) hi (by decide), hne a4 a0 (by norm_num) hi (by decide),
      hzero a0 (by decide) i hi]

section Large

variable {h : Heap} {p : List ℕ} {n n' : Table}

theorem LargeTree.pteAddr (hl : LargeTree h) : h.pteAddr 0x1000 = largePml4 := by
  rw [Heap.pteAddr, Heap.physToVirt, hl.hhdm]
  rfl

theorem LargeTree.not_free (hl : LargeTree h) {t : U64} (ht : pageOf t < 0xffff800000100) :
    pageOf t ∉ h.freePages := fun hmem => absurd (hl.low _ hmem) (Nat.not_le.2 ht)

/-- The two tables of the tree. -/
theorem LargeTree.tables (hl : LargeTree h) (hn : tableAt h largePml4 p = some n) :
    p = [] ∧ n = ⟨4, largePml4⟩ ∨ p = [256] ∧ n = ⟨3, largePdpt⟩ := by
  refine walk_induction (P := fun p n => p = [] ∧ n = ⟨4, largePml4⟩ ∨ p = [256] ∧ n = ⟨3, largePdpt⟩)
    (Or.inl ⟨rfl, rfl⟩) (fun p n i n' _ ih hc => ?_) hn
  obtain ⟨-, hi, hp, hleaf, rfl⟩ := nextOf_eq_some.1 hc
  rcases ih with ⟨rfl, rfl⟩ | ⟨rfl, rfl⟩
  · simp only [hl.pml4 i hi] at hp ⊢
    split at hp
    case isTrue hi' =>
      refine Or.inr ⟨by rw [hi', List.nil_append], ?_⟩
      rw [if_pos hi', Heap.tableBelow, Heap.physToVirt, hl.hhdm]
      rfl
    case isFalse => exact absurd BitVec.zero_and hp
  · simp only [hl.pdpt i hi] at hp hleaf
    split at hp
    case isTrue hi' =>
      rw [if_pos hi'] at hleaf
      exact absurd (by decide) hleaf
    case isFalse => exact absurd BitVec.zero_and hp

theorem LargeTree.kernelTree (hl : LargeTree h) : KernelTree h largePml4 := by
  refine ⟨hl.sound, by rw [hl.hhdm]; decide, fun k hk => ?_, by decide, fun p n hn => ?_,
    fun p q n n' hn hn' ha => ?_, fun p n i n' hn hc => ?_⟩
  · have := hl.low k hk
    rw [hl.hhdm]
    change 0xffff800000000000 ≤ 4096 * k
    omega
  · rcases hl.tables hn with ⟨-, rfl⟩ | ⟨-, rfl⟩
    · exact hl.not_free (by decide)
    · exact hl.not_free (by decide)
  · rcases hl.tables hn with ⟨rfl, rfl⟩ | ⟨rfl, rfl⟩ <;>
      rcases hl.tables hn' with ⟨rfl, rfl⟩ | ⟨rfl, rfl⟩
    · rfl
    · exact absurd ha (by decide)
    · exact absurd ha (by decide)
    · rfl
  · have hnext := (tableAt_concat hn i).trans hc
    rcases hl.tables hnext with ⟨hp, -⟩ | ⟨hp, rfl⟩
    · exact absurd hp (by simp)
    · obtain ⟨rfl, hi⟩ := List.append_inj' (hp.trans (List.nil_append [256]).symm) rfl
      obtain rfl : i = 256 := (List.cons.inj hi).1
      obtain rfl := Option.some.inj hn
      have he : h.entry largePml4 256 = 0x2003 := by rw [hl.pml4 256 (by norm_num), if_pos rfl]
      rw [show (Table.mk 4 largePml4).addr = largePml4 from rfl, he]
      refine ⟨by decide, ?_⟩
      rw [Heap.pteAddr, Heap.physToVirt, hl.hhdm]
      rfl

end Large

/-- `map_mmio` of one page. -/
theorem mapMmio_page {p : U64} (s : PagingState) (cr3 : U64) (hp : PageAligned p)
    (hlt : p.toNat + 8192 ≤ 2 ^ 64) :
    s.mapMmio cr3 p 0x1000 = s.mapPage cr3 (s.heap.physToVirt p) p mmioFlags := by
  have hnext : (p + pageSize).toNat = p.toNat + 4096 := by
    rw [BitVec.toNat_add, show pageSize.toNat = 4096 from rfl]
    omega
  have hstop : (p + 0x1000 + pageSize - 1) &&& pageFrameMask = p + pageSize := by
    refine BitVec.eq_of_toNat_eq ?_
    have := hp.toNat_eq
    rw [and_pageFrameMask_toNat, hnext, pageOf, BitVec.toNat_sub, BitVec.toNat_add,
      show p + 0x1000 = p + pageSize from rfl, hnext, show pageSize.toNat = 4096 from rfl,
      show (1 : U64).toNat = 1 from rfl]
    unfold pageOf at this
    omega
  have hmore : p < p + pageSize := by
    rw [BitVec.lt_def, hnext]
    omega
  obtain ⟨fuel, hfuel⟩ : ∃ fuel, loopFuel = fuel + 1 + 1 := ⟨2 ^ 64 - 2, by norm_num [loopFuel]⟩
  obtain ⟨s', hr⟩ := s.exists_mapPage cr3 (s.heap.physToVirt p) p mmioFlags
  rw [PagingState.mapMmio, and_pageFrameMask_of_aligned hp, hstop, hfuel, PagingState.mapMmioLoop,
    if_pos hmore, hr, Option.bind_some, PagingState.mapMmioLoop, if_neg (BitVec.lt_irrefl _)]

theorem nextTable_of_present {s : PagingState} {t : U64} {i : ℕ}
    (hp : Present (s.heap.entry t i)) :
    s.nextTable t i = some (s, s.heap.pteAddr (s.heap.entry t i)) := if_pos hp

theorem LargeTree.nextTable_pml4 {h : Heap} (hl : LargeTree h) :
    PagingState.nextTable ⟨h, true⟩ largePml4 256 = some (⟨h, true⟩, largePdpt) := by
  have e₄ : h.entry largePml4 256 = 0x2003 := by rw [hl.pml4 256 (by norm_num), if_pos rfl]
  refine (nextTable_of_present (s := ⟨h, true⟩) (by rw [e₄]; decide)).trans ?_
  rw [e₄, Heap.pteAddr, Heap.physToVirt, hl.hhdm]
  rfl

theorem nextTable_keeps {s s' : PagingState} {t t' : U64} {i : ℕ} (hs : s.heap.Sound)
    (ht : PageAligned t) (hf : pageOf t ∉ s.heap.freePages) (hi : i < 512)
    (hr : s.nextTable t i = some (s', t')) (hok : s'.ok = true) :
    s'.heap.Sound ∧ s.heap.freePages.ncard ≤ s'.heap.freePages.ncard + 1 := by
  rcases PagingState.nextTable_cases hs hr hok with ⟨-, rfl, -⟩ | ⟨-, h₁, hta, hs'⟩
  · exact ⟨hs, Nat.le_succ _⟩
  · obtain ⟨hsound, hfree, -⟩ := hta.link ht hf hi hs'
    refine ⟨hsound, PagingState.ncard_le_of_taken (hfree ▸ Set.sdiff_subset) ?_ (k := pageOf t')⟩
    rw [hfree, Set.sdiff_union_self]
    exact Set.subset_union_left

/-- The registers of the local APIC are in no large page of the tree. -/
theorem mmio_mapped_apic : ∃ h s', KernelTree h (h.pteAddr 0x1000) ∧
    PagingState.mapMmio ⟨h, true⟩ 0x1000 0xFEE00000 0x1000 = some s' ∧ s'.ok = true ∧
      MmioMapped h s'.heap (h.pteAddr 0x1000) 0xFEE00000 0x1000 := by
  obtain ⟨h, hl⟩ := exists_largeTree
  have hvirt : h.physToVirt 0xFEE00000 = 0xffff8000fee00000 := by
    rw [Heap.physToVirt, hl.hhdm]
    rfl
  have e₄ : h.entry largePml4 256 = 0x2003 := by rw [hl.pml4 256 (by norm_num), if_pos rfl]
  have e₃ : h.entry largePdpt 3 = 0 := by rw [hl.pdpt 3 (by norm_num), if_neg (by norm_num)]
  have hbelow : h.tableBelow 0x2003 = largePdpt := by
    rw [Heap.tableBelow, Heap.physToVirt, hl.hhdm]
    rfl
  have hsmall : SmallAt h largePml4 0xffff8000fee00000 := fun below e rights hw => by
    rw [show vaPath 0xffff8000fee00000 = [256, 3, 503, 0] by decide,
      walkFrom_cons (by rw [e₄]; decide) (by rw [e₄]; decide), e₄, hbelow, walkFrom, e₃,
      if_pos (by decide)] at hw
    exact absurd hw.symm (Option.some_ne_none _)
  have hk : KernelTree h (h.pteAddr 0x1000) := hl.pteAddr ▸ hl.kernelTree
  have hpages : ∀ p, Touched 0xFEE00000 0x1000 p →
      Canonical (h.physToVirt p) ∧ SmallAt h (h.pteAddr 0x1000) (h.physToVirt p) := by
    rintro p ⟨hp, hle, hlt⟩
    have h1 : 0xFEE00000 ≤ p.toNat := BitVec.le_def.1 hle
    have h2 : p.toNat < 0xFEE01000 := BitVec.lt_def.1 hlt
    have h3 : 4096 ∣ p.toNat := hp
    obtain rfl : p = 0xFEE00000 := BitVec.eq_of_toNat_eq (by change p.toNat = 0xFEE00000; omega)
    rw [hvirt, hl.pteAddr]
    exact ⟨by decide, hsmall⟩
  obtain ⟨s', hr, hmapped⟩ := mmio_mapped hk (Or.inr (by decide)) hpages
  have hok : s'.ok = true := by
    have hne : ∀ {h : Heap}, 1 ≤ h.freePages.ncard → h.freePages.Nonempty := fun hc =>
      Set.nonempty_of_ncard_ne_zero (by omega)
    have hr' := (mapMmio_page ⟨h, true⟩ 0x1000 (by decide) (by decide)).symm.trans hr
    rw [show (PagingState.mk h true).heap.physToVirt 0xFEE00000 = 0xffff8000fee00000 from hvirt] at hr'
    obtain ⟨s₁, pdpt, s₂, pd, s₃, pt, h₁, h₂, h₃, rfl⟩ := PagingState.mapPage_eq_some hr'
    rw [show (PagingState.mk h true).heap.pteAddr 0x1000 = largePml4 from hl.pteAddr] at h₁
    obtain ⟨rfl, rfl⟩ := Prod.mk.inj (Option.some.inj (hl.nextTable_pml4.symm.trans h₁))
    have hok₂ := PagingState.nextTable_ok hl.sound h₂ rfl (hne (hl.card.ge.trans' (by norm_num)))
    obtain ⟨hs₂, hcard⟩ := nextTable_keeps hl.sound (by decide) (hl.not_free (by decide))
      (index_lt _ 30) h₂ hok₂
    rw [show (PagingState.mk h true).heap.freePages.ncard = 16 from hl.card] at hcard
    have hok₃ := PagingState.nextTable_ok hs₂ h₃ hok₂ (hne (by omega))
    exact hok₃
  exact ⟨h, s', hk, hr, hok, hmapped hok⟩

/-- A byte in the large page stays cached : `map_page` writes an entry to the first page of the
memory, as if it were a table. -/
theorem mmio_not_mapped : ∃ h cr3 s', KernelTree h (h.pteAddr cr3) ∧
    PagingState.mapMmio ⟨h, true⟩ cr3 0xA0000 0x1000 = some s' ∧ s'.ok = true ∧
      ¬MmioMapped h s'.heap (h.pteAddr cr3) 0xA0000 0x1000 := by
  obtain ⟨h, hl⟩ := exists_largeTree
  have hvirt : h.physToVirt 0xA0000 = 0xffff8000000a0000 := by
    rw [Heap.physToVirt, hl.hhdm]
    rfl
  have e₄ : h.entry largePml4 256 = 0x2003 := by rw [hl.pml4 256 (by norm_num), if_pos rfl]
  have e₃ : h.entry largePdpt 0 = 0x83 := by rw [hl.pdpt 0 (by norm_num), if_pos rfl]
  obtain ⟨s', hr⟩ := PagingState.exists_mapPage ⟨h, true⟩ 0x1000 0xffff8000000a0000 0xA0000 mmioFlags
  obtain ⟨s₁, pdpt, s₂, pd, s₃, pt, h₁, h₂, h₃, rfl⟩ := PagingState.mapPage_eq_some hr
  -- The entries of the first two tables are there, and the second one maps the large page.
  have h₂' : PagingState.nextTable ⟨h, true⟩ largePdpt 0 =
      some (⟨h, true⟩, 0xffff800000000000) := by
    refine (nextTable_of_present (s := ⟨h, true⟩) (by rw [e₃]; decide)).trans ?_
    rw [e₃, Heap.pteAddr, Heap.physToVirt, hl.hhdm]
    rfl
  rw [show (PagingState.mk h true).heap.pteAddr 0x1000 = largePml4 from hl.pteAddr] at h₁
  obtain ⟨rfl, rfl⟩ := Prod.mk.inj (Option.some.inj (hl.nextTable_pml4.symm.trans h₁))
  obtain ⟨rfl, rfl⟩ := Prod.mk.inj (Option.some.inj (h₂'.symm.trans h₂))
  have hok := PagingState.nextTable_ok (s := ⟨h, true⟩) hl.sound h₃ rfl
    (Set.nonempty_of_ncard_ne_zero (by rw [hl.card]; norm_num))
  have habs : ¬Present (h.entry 0xffff800000000000 0) := by
    rw [hl.zero 0 (by norm_num)]
    decide
  rcases PagingState.nextTable_cases (s := ⟨h, true⟩) hl.sound h₃ hok with ⟨hp, -⟩ | ⟨-, h₀, ht, hs⟩
  · exact absurd hp habs
  obtain ⟨-, -, hhd, hmem, -⟩ := ht.link (i := 0) (by decide) (hl.not_free (by decide)) (by norm_num) hs
  -- The two tables are as before.
  have hent : ∀ t : U64, PageAligned t → pageOf t < 0xffff800000100 →
      pageOf t ≠ pageOf 0xffff800000000000 → ∀ i < 512,
        (s₃.heap.setEntry pt (ptIndex 0xffff8000000a0000)
          (0xA0000 &&& pageFrameMask ||| mmioFlags ||| ptePresent)).entry t i = h.entry t i :=
    fun t hta hlt hne i hi => entry_congr hta hi fun x hx => by
      have hfree : pageOf x ∉ h.freePages := hx ▸ hl.not_free hlt
      refine (setEntry_mem_of_pageOf_ne ht.aligned (index_lt 0xffff8000000a0000 12)
        fun he => hfree (he ▸ ht.mem_free)).trans (hmem x hfree fun hw => hne ?_)
      rw [← hx, pageOf_of_within_entry (by decide) (by norm_num) hw]
  refine ⟨h, 0x1000, _, hl.pteAddr ▸ hl.kernelTree,
    (mapMmio_page ⟨h, true⟩ 0x1000 (by decide) (by decide)).trans ((congrArg (fun v =>
      PagingState.mapPage ⟨h, true⟩ 0x1000 v 0xA0000 mmioFlags) hvirt).trans hr), hok, fun hm => ?_⟩
  obtain ⟨rights, e, htr, -, -, hpcd⟩ := hm.range 0xA0000 le_rfl (by decide)
  rw [hvirt, hl.pteAddr] at htr
  have hhd' : (s₃.heap.setEntry pt (ptIndex 0xffff8000000a0000)
    (0xA0000 &&& pageFrameMask ||| mmioFlags ||| ptePresent)).hhdmOffset = _ := hhd.trans hl.hhdm
  generalize s₃.heap.setEntry pt _ _ = h' at htr hent hhd'
  have w₄ := (hent largePml4 (by decide) (by decide) (by decide) 256 (by norm_num)).trans e₄
  have w₃ := (hent largePdpt (by decide) (by decide) (by decide) 0 (by norm_num)).trans e₃
  have hbelow : h'.tableBelow 0x2003 = largePdpt := by
    rw [Heap.tableBelow, Heap.physToVirt, hhd']
    rfl
  have hw : walkFrom h' (vaPath 0xffff8000000a0000) largePml4 (-1) = some (2, 0x83, 3) := by
    rw [show vaPath 0xffff8000000a0000 = [256, 0, 0, 160] by decide,
      walkFrom_cons (by rw [w₄]; decide) (by rw [w₄]; decide), w₄, hbelow, walkFrom, w₃]
    rfl
  rw [translate, if_pos (by decide), hw, Option.map_some] at htr
  simp only [Option.some.injEq, Prod.mk.injEq] at htr
  obtain ⟨-, -, rfl⟩ := htr
  exact hpcd (by decide)

end Jeos
