import Jeos.Madt
import Jeos.MmioSpec

/-!
# The page of the local APIC

`lapic_init` of `apic.c` takes the address of the local APIC from the table, or from the last entry that
overrides it, and maps a page with `map_mmio`. `lapic_read` and `lapic_write` access the page at
`lapic_base`.

The page mapped is that of the address in the head of the table, whatever the entries say. So on tables
whose entries are whole the page in use is mapped just if the last override, where there is one, has an
address in the same page (`lapic_page_mapped_iff`). With an override that has another address the
registers of the local APIC are written where nothing was mapped (`lapic_page_not_mapped`).
-/

set_option linter.unusedSectionVars false

namespace Jeos

/-- The pages `map_mmio` maps. -/
def mmioPages (phys size : U64) : List U64 :=
  pagesFrom (phys &&& pageFrameMask) ((phys + size + pageSize - 1) &&& pageFrameMask)

/-- A round of the loop of `map_mmio`. -/
def mapMmioRound (cr3 : U64) (s : PagingState) (p : U64) : Option PagingState :=
  s.mapPage cr3 (s.heap.physToVirt p) p mmioFlags

theorem mapMmioLoop_eq_forUp (cr3 stop : U64) : ∀ (fuel : ℕ) (s : PagingState) (p : U64),
    PagingState.mapMmioLoop cr3 stop fuel s p =
      (Loop.forUp (fun s p => (mapMmioRound cr3 s p).map (·, true)) stop pageSize fuel p s).map
        Prod.fst
  | 0, _, _ => rfl
  | fuel + 1, s, p => by
    rw [PagingState.mapMmioLoop, Loop.forUp]
    split_ifs with h
    · rw [← mapMmioRound]
      cases mapMmioRound cr3 s p with
      | none => rfl
      | some s' => exact mapMmioLoop_eq_forUp cr3 stop fuel s' (p + pageSize)
    · rfl

theorem PagingState.exists_mapMmio (s : PagingState) (cr3 phys size : U64) :
    ∃ s', s.mapMmio cr3 phys size = some s' := by
  have hfuel := ((phys + size + pageSize - 1) &&& pageFrameMask).isLt
  exact exists_mapMmioLoop cr3 (2 ^ 64 - 1) (pageAligned_and phys) (pageAligned_and _) (by omega)

theorem mapMmio_eq (s : PagingState) (cr3 phys size : U64) :
    s.mapMmio cr3 phys size = (mmioPages phys size).foldlM (mapMmioRound cr3) s := by
  have hstop := pageAligned_and (phys + size + pageSize - 1)
  rw [PagingState.mapMmio, mapMmioLoop_eq_forUp, mmioPages]
  refine (congrArg _ (forPages_eq _ s hstop)).trans ?_
  exact Loop.each_map_true _ _ s

namespace Madt

/-- `LAPIC_SVR`. -/
def lapicSvr : U32 := 0x0F0

/-- `LAPIC_TPR`. -/
def lapicTpr : U32 := 0x080

/-- `LAPIC_SVR_ENABLE`. -/
def lapicSvrEnable : U32 := 0x100

/-- `LAPIC_SPURIOUS_VECTOR`. -/
def lapicSpuriousVector : U32 := 0xFF

/-- `(u64)madt->local_apic_addr`. -/
def localApicAddr (b : Bytes) : U64 := (read32 b 36).setWidth 64

/-- The page tables, `lapic_base`, and the writes through it so far. -/
structure LapicState where
  paging : PagingState
  lapicBase : U64
  writes : List (U64 × U32)

/-- `&lapic_base[reg / 4]`. -/
def lapicReg (lapicBase : U64) (reg : U32) : U64 := lapicBase + 4 * (reg / 4).setWidth 64

/-- `lapic_write`. -/
def lapicWrite (s : LapicState) (reg val : U32) : LapicState :=
  { s with writes := s.writes ++ [(lapicReg s.lapicBase reg, val)] }

/-- `lapic_init_ap`, and the end of `lapic_init`. -/
def lapicInitAp (s : LapicState) : LapicState :=
  lapicWrite (lapicWrite s lapicSvr (lapicSvrEnable ||| lapicSpuriousVector)) lapicTpr 0

/-- `lapic_init`, where `madt` is `acpi_tables.madt`. -/
def lapicInit (madt : Option Bytes) (cr3 : U64) (fuel : ℕ) (s : LapicState) : Option LapicState :=
  match madt with
  | none => some s
  | some b =>
    (lapicWalk b s.paging.heap.hhdmOffset fuel).bind fun t =>
      (s.paging.mapMmio cr3 (localApicAddr b) pageSize).map fun paging =>
        lapicInitAp ⟨paging, t.state, s.writes⟩

/-! ## The address of the local APIC -/

/-- A table whose entries are whole. -/
structure Complete (b : Bytes) : Prop where
  head : entriesOffset ≤ tableLength b
  header : ∀ p, EntryAt b p → 2 ≤ (b (p + 1)).toNat
  inside : ∀ p, EntryAt b p → p + (b (p + 1)).toNat ≤ tableLength b
  override : ∀ p, EntryAt b p → b p = madtLapicOverride → 12 ≤ (b (p + 1)).toNat

/-- The last entry that overrides the address is at `p`. -/
def LastOverride (b : Bytes) (p : ℕ) : Prop :=
  EntryAt b p ∧ b p = madtLapicOverride ∧ ∀ q, EntryAt b q → b q = madtLapicOverride → q ≤ p

/-- The address of the local APIC is `a`. -/
def Effective (b : Bytes) (a : U64) : Prop :=
  (∃ p, LastOverride b p ∧ a = read64 b (p + 4)) ∨
    (∀ p, EntryAt b p → b p ≠ madtLapicOverride) ∧ a = localApicAddr b

/-- The page in use is one that was mapped, at its address. -/
def PageMapped (h : Heap) (b : Bytes) (lapicBase : U64) : Prop :=
  ∃ a, Effective b a ∧ lapicBase = h.physToVirt a ∧
    ∃ p ∈ mmioPages (localApicAddr b) pageSize, pageOf p = pageOf a ∧
      pageOf (h.physToVirt p) = pageOf lapicBase

/-- `map_mmio` maps the page of `a` for the address `phys` : the page of `phys`, or the one behind it
when `phys` is not at the start of a page. -/
def InMapped (phys a : U64) : Prop :=
  pageOf a = pageOf phys ∨ ¬PageAligned phys ∧ pageOf a = pageOf phys + 1

variable {b : Bytes} {h : Heap} {a phys hhdmOffset : U64} {p : ℕ}

theorem Complete.length_ne_zero (hb : Complete b) (hp : EntryAt b p) : b (p + 1) ≠ 0 := fun h0 => by
  have := hb.header p hp
  rw [h0] at this
  exact absurd this (by decide)

theorem LastOverride.unique {q : ℕ} (hp : LastOverride b p) (hq : LastOverride b q) : p = q :=
  Nat.le_antisymm (hq.2.2 p hp.1 hp.2.1) (hp.2.2 q hq.1 hq.2.1)

theorem Effective.unique {a' : U64} (ha : Effective b a) (ha' : Effective b a') : a = a' := by
  rcases ha with ⟨p, hp, rfl⟩ | ⟨hno, rfl⟩ <;> rcases ha' with ⟨q, hq, rfl⟩ | ⟨hno', rfl⟩
  · rw [hp.unique hq]
  · exact absurd hp.2.1 (hno' p hp.1)
  · exact absurd hq.2.1 (hno q hq.1)
  · rfl

/-- On a complete table the walk returns, with the address of the local APIC. -/
theorem lapicWalk_returns (hb : Complete b) (hhdmOffset : U64) : ∃ t a, Effective b a ∧
    Finishes (lapicWalk b hhdmOffset) t ∧ t.state = Acpi.physToVirt hhdmOffset a := by
  have hsafe : RecordWalk.Safe (entries b) (lapicVisit b hhdmOffset)
      (Acpi.physToVirt hhdmOffset (localApicAddr b)) := by
    rw [lapic_safe_iff]
    refine fun p hp => ⟨?_, fun h5 _ => ?_⟩
    · have := hb.header p hp
      have := hb.inside p hp
      omega
    · have := hb.override p hp h5
      have := hb.inside p hp
      omega
  obtain ⟨t, ht, -⟩ := hsafe
  have hmem : ∀ p, p ∈ t.visited ↔ EntryAt b p := fun p => ht.mem_visited.trans lapic_meets_iff
  -- Every entry that is met has a length, so the state is that of the last override met.
  have hstate : t.state = ((t.visited.filter fun p => b p = madtLapicOverride).getLast?.map fun p =>
      Acpi.physToVirt hhdmOffset (read64 b (p + 4))).getD
        (Acpi.physToVirt hhdmOffset (localApicAddr b)) := by
    rw [ht.state_eq, ← Loop.foldl_ite_eq_last]
    refine List.foldl_ext _ _ _ fun base p hp => ?_
    refine (if_neg (hb.length_ne_zero ((hmem p).1 hp))).trans ?_
    simp only [decide_eq_true_eq]
  cases hlast : (t.visited.filter fun p => b p = madtLapicOverride).getLast? with
  | none =>
    refine ⟨t, localApicAddr b, Or.inr ⟨fun p hp h5 => ?_, rfl⟩, ht, by rw [hstate, hlast]; rfl⟩
    rw [List.getLast?_eq_none_iff, List.filter_eq_nil_iff] at hlast
    exact hlast p ((hmem p).2 hp) (by simpa using h5)
  | some p =>
    refine ⟨t, read64 b (p + 4), Or.inl ⟨p, ?_, rfl⟩, ht, by rw [hstate, hlast]; rfl⟩
    have hp := List.mem_filter.1 (List.mem_of_getLast? hlast)
    refine ⟨(hmem p).1 hp.1, by simpa using hp.2, fun q hq h5 => ?_⟩
    have hq' : q ∈ t.visited.filter fun p => b p = madtLapicOverride :=
      List.mem_filter.2 ⟨(hmem q).2 hq, by simpa using h5⟩
    obtain ⟨pre, hpre⟩ := List.getLast?_eq_some_iff.1 hlast
    have hsorted := ht.visited_pairwise.filter fun p => b p = madtLapicOverride
    rw [hpre] at hq' hsorted
    rcases List.mem_append.1 hq' with hq' | hq'
    · exact (List.pairwise_append.1 hsorted).2.2 q hq' p (List.mem_singleton_self p)
    · rw [List.mem_singleton.1 hq']

/-! ## The page mapped -/

theorem mem_mmioPages_page {p : U64} (hphys : phys.toNat < 2 ^ 32) :
    p ∈ mmioPages phys pageSize ↔ PageAligned p ∧ (pageOf p = pageOf phys ∨
      ¬PageAligned phys ∧ pageOf p = pageOf phys + 1) := by
  have hstart : (phys &&& pageFrameMask).toNat = phys.toNat / 4096 * 4096 := by
    rw [and_pageFrameMask_toNat, pageOf]
  have hsum : (phys + pageSize + pageSize - 1).toNat = phys.toNat + 8191 := by
    rw [BitVec.toNat_sub, BitVec.toNat_add, BitVec.toNat_add, show pageSize.toNat = 4096 from rfl,
      show (1 : U64).toNat = 1 from rfl]
    omega
  have hstop : ((phys + pageSize + pageSize - 1) &&& pageFrameMask).toNat =
      (phys.toNat + 8191) / 4096 * 4096 := by
    rw [and_pageFrameMask_toNat, pageOf, hsum]
  rw [mmioPages, mem_pagesFrom, BitVec.lt_def, hstart, hstop]
  unfold PageAligned pageOf
  constructor
  · rintro ⟨i, hi, hlt⟩
    omega
  · rintro ⟨hp, hpage⟩
    exact ⟨p.toNat / 4096 - phys.toNat / 4096, by omega, by omega⟩

/-- Addresses in one page are in one page of the direct map. -/
theorem pageOf_physToVirt_congr {p : U64} (hh : PageAligned h.hhdmOffset) (he : pageOf p = pageOf a) :
    pageOf (h.physToVirt p) = pageOf (h.physToVirt a) := by
  have := hh.toNat_eq
  unfold pageOf at he this ⊢
  rw [Heap.physToVirt, Heap.physToVirt, BitVec.toNat_add, BitVec.toNat_add]
  omega

theorem localApicAddr_lt (b : Bytes) : (localApicAddr b).toNat < 2 ^ 32 := by
  rw [localApicAddr, BitVec.toNat_setWidth]
  have := (read32 b 36).isLt
  omega

theorem pageMapped_iff (hh : PageAligned h.hhdmOffset) (ha : Effective b a) :
    PageMapped h b (h.physToVirt a) ↔ InMapped (localApicAddr b) a := by
  have hmem := fun p => mem_mmioPages_page (p := p) (localApicAddr_lt b)
  constructor
  · rintro ⟨a', ha', -, p, hp, hpa, -⟩
    obtain rfl := ha.unique ha'
    rw [hmem] at hp
    rw [InMapped, ← hpa]
    exact hp.2
  · intro hin
    have hpage : pageOf (a &&& pageFrameMask) = pageOf a := by
      unfold pageOf
      rw [and_pageFrameMask_toNat, pageOf]
      omega
    refine ⟨a, ha, rfl, a &&& pageFrameMask, ?_, hpage, pageOf_physToVirt_congr hh hpage⟩
    rw [hmem, hpage]
    exact ⟨pageAligned_and a, hin⟩

/-- What `lapic_init` leaves for a table whose local APIC is at `a`. -/
structure Initialised (b : Bytes) (cr3 : U64) (s s' : LapicState) (a : U64) : Prop where
  base : s'.lapicBase = s.paging.heap.physToVirt a
  paging : (mmioPages (localApicAddr b) pageSize).foldlM (mapMmioRound cr3) s.paging = some s'.paging
  writes : s'.writes = s.writes ++ [(lapicReg s'.lapicBase lapicSvr, 0x1FF),
    (lapicReg s'.lapicBase lapicTpr, 0)]

theorem lapicInit_returns (hb : Complete b) (cr3 : U64) (s : LapicState) : ∃ s' a, Effective b a ∧
    (∃ N, ∀ fuel ≥ N, lapicInit (some b) cr3 fuel s = some s') ∧ Initialised b cr3 s s' a := by
  obtain ⟨t, a, ha, ⟨N, ht⟩, hstate⟩ := lapicWalk_returns hb s.paging.heap.hhdmOffset
  obtain ⟨paging, hmap⟩ := s.paging.exists_mapMmio cr3 (localApicAddr b) pageSize
  refine ⟨lapicInitAp ⟨paging, t.state, s.writes⟩, a, ha, ⟨N, fun fuel hf => ?_⟩, ?_⟩
  · rw [lapicInit, ht fuel hf, Option.bind_some, hmap, Option.map_some]
  · exact ⟨hstate, (mapMmio_eq _ _ _ _).symm.trans hmap, List.append_assoc _ _ _⟩

/-- The page in use after `lapic_init` is the one mapped just if the last entry that overrides the
address gives one in the page of the address in the head of the table. -/
theorem lapic_page_mapped_iff (hb : Complete b) (cr3 : U64) (s : LapicState)
    (hh : PageAligned s.paging.heap.hhdmOffset) :
    ∃ s' a, Effective b a ∧ (∃ N, ∀ fuel ≥ N, lapicInit (some b) cr3 fuel s = some s') ∧
      Initialised b cr3 s s' a ∧ (PageMapped s.paging.heap b s'.lapicBase ↔
        ∀ p, LastOverride b p → InMapped (localApicAddr b) (read64 b (p + 4))) := by
  obtain ⟨s', a, ha, hrun, hinit⟩ := lapicInit_returns hb cr3 s
  refine ⟨s', a, ha, hrun, hinit, ?_⟩
  rw [hinit.base, pageMapped_iff hh ha]
  rcases ha with ⟨p, hp, rfl⟩ | ⟨hno, rfl⟩
  · exact ⟨fun hin q hq => hp.unique hq ▸ hin, fun hall => hall p hp⟩
  · exact ⟨fun _ p hp => absurd hp.2.1 (hno p hp.1), fun _ => Or.inl rfl⟩

/-- A table that has the local APIC at 0xFEE00000 and one override, by that address with `byte` on
top. -/
def overrideTable (byte : U8) : Bytes
  | 4 => 56
  | 38 => 0xE0
  | 39 => 0xFE
  | 44 => 5
  | 45 => 12
  | 50 => 0xE0
  | 51 => 0xFE
  | 52 => byte
  | _ => 0

theorem tableLength_overrideTable (byte : U8) : tableLength (overrideTable byte) = 56 := by
  simp [tableLength, read32, overrideTable]

theorem overrideTable_entry {byte : U8} : EntryAt (overrideTable byte) p ↔ p = 44 := by
  have hstop : (entries (overrideTable byte)).stop = 56 := tableLength_overrideTable byte
  constructor
  · intro hp
    induction hp with
    | first => rfl
    | next _ hlt ih =>
      rw [ih, hstop] at hlt
      exact absurd hlt (lt_irrefl 56)
  · rintro rfl
    refine .first ?_
    rw [hstop]
    exact show 44 < 56 by norm_num

theorem overrideTable_complete (byte : U8) : Complete (overrideTable byte) := by
  have hlen := tableLength_overrideTable byte
  refine ⟨by rw [hlen, entriesOffset]; norm_num, fun p hp => ?_, fun p hp => ?_, fun p hp _ => ?_⟩ <;>
    obtain rfl := overrideTable_entry.1 hp
  · exact show 2 ≤ 12 by norm_num
  · rw [hlen]
    exact show 44 + 12 ≤ 56 by norm_num
  · exact show 12 ≤ 12 by norm_num

theorem overrideTable_last (byte : U8) : LastOverride (overrideTable byte) 44 :=
  ⟨overrideTable_entry.2 rfl, rfl, fun _ hq _ => (overrideTable_entry.1 hq).le⟩

/-- An override by the same address. -/
theorem lapic_page_mapped_same : ∃ s s' : LapicState,
    (∃ N, ∀ fuel ≥ N, lapicInit (some (overrideTable 0)) 0x1000 fuel s = some s') ∧
      PageMapped s.paging.heap (overrideTable 0) s'.lapicBase := by
  obtain ⟨h, hl⟩ := exists_largeTree
  have hh : PageAligned h.hhdmOffset := by
    rw [hl.hhdm]
    decide
  obtain ⟨s', a, -, hrun, -, hiff⟩ :=
    lapic_page_mapped_iff (overrideTable_complete 0) 0x1000 ⟨⟨h, true⟩, 0, []⟩ hh
  refine ⟨_, s', hrun, hiff.2 fun p hp => ?_⟩
  obtain rfl := hp.unique (overrideTable_last 0)
  exact Or.inl (by decide)

/-- An override by another address : `lapic_init` maps 0xFEE00000 and writes at 0x1FEE00000. -/
theorem lapic_page_not_mapped : Complete (overrideTable 1) ∧ ∃ s s' : LapicState,
    PageAligned s.paging.heap.hhdmOffset ∧ Effective (overrideTable 1) 0x1FEE00000 ∧
      (∃ N, ∀ fuel ≥ N, lapicInit (some (overrideTable 1)) 0x1000 fuel s = some s') ∧
      s'.lapicBase = s.paging.heap.physToVirt 0x1FEE00000 ∧
      mmioPages (localApicAddr (overrideTable 1)) pageSize = [0xFEE00000] ∧
      ¬PageMapped s.paging.heap (overrideTable 1) s'.lapicBase := by
  obtain ⟨h, hl⟩ := exists_largeTree
  have hh : PageAligned h.hhdmOffset := by
    rw [hl.hhdm]
    decide
  have heff : Effective (overrideTable 1) 0x1FEE00000 := Or.inl ⟨44, overrideTable_last 1, by decide⟩
  obtain ⟨s', a, ha, hrun, hinit⟩ :=
    lapicInit_returns (overrideTable_complete 1) 0x1000 ⟨⟨h, true⟩, 0, []⟩
  obtain rfl := ha.unique heff
  refine ⟨overrideTable_complete 1, _, s', hh, heff, hrun, hinit.base, by decide, ?_⟩
  rw [hinit.base, pageMapped_iff hh heff]
  rintro (hin | ⟨hno, -⟩)
  · exact absurd hin (by decide)
  · exact hno (by decide)

end Madt

end Jeos
