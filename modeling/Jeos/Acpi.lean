import Jeos.Lib.Loop
import Jeos.Types

/-!
# The ACPI tables

`init_acpi` of `acpi.c`, with the offsets that the declarations in `acpi.h` give. The pointer to the
RSDT is declared as a 64-bit one, where the RSDP has 32 bits, so that the XSDT address is read from
byte 28 and not from byte 24, and the 64-bit entries of the XSDT are aligned, so that they are read
from byte 40 and not from byte 36 (`field_offsets`).

`Layout` is what the ACPI specification prescribes. `init_acpi` finds the last table with the
signature APIC through the RSDT if the four bytes after its address are 0. Through the XSDT it finds
none if the bytes it takes for the address are 0, and then it is right if and only if no table has
the signature (`madt_found_iff`, `madt_not_found`).
-/

set_option linter.unusedSectionVars false

namespace Jeos.Acpi

open ByteMemory CType

/-- `struct ACPISDTHeader`. -/
def headerFields : List CType := [array u8 4, u32, u8, u8, array u8 6, array u8 8, u32, u32, u32]

/-- `struct RSDP`, which is packed. -/
def rsdpFields : List CType := [array u8 8, u8, array u8 6, u8, u64]

/-- `struct XSDP`, which is packed. -/
def xsdpFields : List CType :=
  [array u8 8, u8, array u8 6, u8, u64, u32, u64, u8, array u8 3]

/-- `struct RSDT`. -/
def rsdtFields : List CType := [struct headerFields, array u32 0]

/-- `struct XSDT`. -/
def xsdtFields : List CType := [struct headerFields, array u64 0]

/-- `struct acpi_tables`. -/
structure AcpiTables where
  rsdp : U64
  xsdp : U64
  rsdt : U64
  xsdt : U64
  madt : U64

/-- `PHYS_TO_VIRT`. -/
def physToVirt (hhdmOffset a : U64) : U64 := a + hhdmOffset

/-- The address of a field of a packed structure at `p`. -/
def packedAddr (fs : List CType) (p : U64) (k : ℕ) : U64 :=
  p + BitVec.ofNat 64 (packedOffset fs k)

/-- `sig_eq`. -/
def sigEq (m : Mem) (sig : U64) (expect : U8 × U8 × U8 × U8) : Bool :=
  m sig = expect.1 && m (sig + 1) = expect.2.1 && m (sig + 2) = expect.2.2.1 &&
    m (sig + 3) = expect.2.2.2

/-- The signature "APIC". -/
def apic : U8 × U8 × U8 × U8 := (0x41, 0x50, 0x49, 0x43)

/-- `h.length` of a table. -/
def tableLength (m : Mem) (table : U64) : U32 := load32 m (fieldAddr headerFields table 1)

/-- The loops of `init_acpi` over the entries of a table, for `acpi_tables.madt`. -/
def scanEntries (m : Mem) (hhdmOffset : U64) (ptr : ℕ → U64) (num : ℕ) (madt : U64) : U64 :=
  (List.range num).foldl (fun madt i =>
    let entry := physToVirt hhdmOffset (ptr i)
    if sigEq m (fieldAddr headerFields entry 0) apic then entry else madt) madt

/-- `init_acpi`. -/
def initAcpi (m : Mem) (hhdmOffset rsdp : U64) (t : AcpiTables) : AcpiTables :=
  let t := { t with rsdp := rsdp }
  if 2 ≤ (m (packedAddr rsdpFields rsdp 3)).toNat then
    let xsdtPhys := load64 m (packedAddr xsdpFields rsdp 6)
    let xsdt := physToVirt hhdmOffset xsdtPhys
    let t := { t with xsdp := rsdp, xsdt := xsdt }
    if xsdtPhys ≠ 0 then
      let num := ((tableLength m xsdt).setWidth 64 - BitVec.ofNat 64 (struct headerFields).size) / 8
      let ptr := fun i => load64 m (fieldAddr xsdtFields xsdt 1 + BitVec.ofNat 64 (i * 8))
      { t with madt := scanEntries m hhdmOffset ptr num.toNat t.madt }
    else t
  else
    let rsdt := physToVirt hhdmOffset (load64 m (packedAddr rsdpFields rsdp 4))
    let t := { t with rsdt := rsdt }
    let num : U32 := (((tableLength m rsdt).setWidth 64 -
      BitVec.ofNat 64 (struct headerFields).size) / 4).setWidth 32
    let ptr := fun i =>
      (load32 m (fieldAddr rsdtFields rsdt 1 + BitVec.ofNat 64 (i * 4))).setWidth 64
    { t with madt := scanEntries m hhdmOffset ptr num.toNat t.madt }

/-- The offsets that the code reads at. -/
theorem field_offsets : packedOffset rsdpFields 3 = 15 ∧ packedOffset rsdpFields 4 = 16 ∧
    packedOffset xsdpFields 6 = 28 ∧ offset headerFields 0 = 0 ∧ offset headerFields 1 = 4 ∧
    (struct headerFields).size = 36 ∧ offset rsdtFields 1 = 36 ∧ offset xsdtFields 1 = 40 := by
  decide

/-! ## The tables as they are laid out -/

/-- `revision` of the RSDP at `p`. -/
def revision (m : Mem) (p : U64) : ℕ := (m (p + 15)).toNat

/-- The address of the RSDT, in bytes 16 to 19 of the RSDP. -/
def rsdtAddr (m : Mem) (p : U64) : U64 := (load32 m (p + 16)).setWidth 64

/-- The address of the XSDT, in bytes 24 to 31 of the RSDP. -/
def xsdtAddr (m : Mem) (p : U64) : U64 := load64 m (p + 24)

/-- The table at a physical address has the signature APIC. -/
def IsApic (m : Mem) (hhdmOffset a : U64) : Bool := sigEq m (physToVirt hhdmOffset a) apic

/-- The RSDP at `p` is laid out as prescribed : the RSDT lists `tables`, and so does the XSDT from
revision 2 on. A header has 36 bytes, with the length of the table in bytes 4 to 7, and the entries
follow it. -/
structure Layout (m : Mem) (hhdmOffset p : U64) (tables : List U64) : Prop where
  rsdt_length : (load32 m (physToVirt hhdmOffset (rsdtAddr m p) + 4)).toNat =
    36 + 4 * tables.length
  rsdt_entry : ∀ i, (hi : i < tables.length) →
    (load32 m (physToVirt hhdmOffset (rsdtAddr m p) + 36 + BitVec.ofNat 64 (i * 4))).setWidth 64 =
      tables[i]
  xsdt_length : 2 ≤ revision m p →
    (load32 m (physToVirt hhdmOffset (xsdtAddr m p) + 4)).toNat = 36 + 8 * tables.length
  xsdt_entry : 2 ≤ revision m p → ∀ i, (hi : i < tables.length) →
    load64 m (physToVirt hhdmOffset (xsdtAddr m p) + 36 + BitVec.ofNat 64 (i * 8)) = tables[i]
  ne_null : ∀ a ∈ tables, physToVirt hhdmOffset a ≠ 0

/-- The last table listed with the signature APIC, or the null pointer. -/
def lastApic (m : Mem) (hhdmOffset : U64) (tables : List U64) : U64 :=
  ((tables.filter (IsApic m hhdmOffset)).getLast?.map (physToVirt hhdmOffset)).getD 0

/-- `init_acpi` sets `madt` to that table. -/
def FindsMadt (m : Mem) (hhdmOffset p : U64) (tables : List U64) : Prop :=
  (initAcpi m hhdmOffset p ⟨0, 0, 0, 0, 0⟩).madt = lastApic m hhdmOffset tables

/-- The bytes that the code takes for a part of an address and that are none of it are 0 : bytes 20
to 23 of the RSDP below revision 2, and bytes 28 to 35 with the upper half of the XSDT address, the
checksum and the reserved bytes from revision 2 on. -/
def NoStrayBytes (m : Mem) (p : U64) : Prop :=
  if 2 ≤ revision m p then load64 m (p + 28) = 0 else load32 m (p + 20) = 0

variable {m : Mem} {hhdmOffset p : U64} {tables : List U64}

/-! ## What the loops find -/

/-- The loop over entries that list `tables`. -/
theorem scanEntries_eq {ptr : ℕ → U64} (h : ∀ i, (hi : i < tables.length) → ptr i = tables[i])
    (madt : U64) : scanEntries m hhdmOffset ptr tables.length madt =
      ((tables.filter (IsApic m hhdmOffset)).getLast?.map (physToVirt hhdmOffset)).getD madt := by
  have hmap : (List.range tables.length).map ptr = tables :=
    List.ext_getElem (by simp) fun i hi _ => by
      rw [List.getElem_map, List.getElem_range]
      exact h i (by simpa using hi)
  have hsig : ∀ entry : U64, fieldAddr headerFields entry 0 = entry := fun entry =>
    BitVec.add_zero entry
  have hfold : scanEntries m hhdmOffset ptr tables.length madt =
      tables.foldl (fun b a => if IsApic m hhdmOffset a then physToVirt hhdmOffset a else b)
        madt := by
    conv_rhs => rw [← hmap, List.foldl_map]
    simp only [scanEntries, hsig, IsApic]
    rfl
  rw [hfold, Loop.foldl_ite_eq_last]

/-- The number of entries of an RSDT. -/
theorem rsdt_num {len : U32} {n : ℕ} (h : len.toNat = 36 + 4 * n) :
    ((((len.setWidth 64 : U64) - BitVec.ofNat 64 (struct headerFields).size) / 4).setWidth 32 :
      U32).toNat = n := by
  have hlen := len.isLt
  have hsize : (BitVec.ofNat 64 (struct headerFields).size).toNat = 36 := rfl
  have hwide : (len.setWidth 64).toNat = len.toNat :=
    BitVec.toNat_setWidth_of_le (by decide)
  have hsub : (len.setWidth 64 - BitVec.ofNat 64 (struct headerFields).size).toNat = 4 * n := by
    rw [BitVec.toNat_sub_of_le (BitVec.le_def.mpr (by omega)), hsize, hwide]
    omega
  rw [BitVec.toNat_setWidth, BitVec.toNat_udiv, hsub]
  change 4 * n / 4 % 2 ^ 32 = n
  omega

/-- The pointer to the RSDT is its address if the four bytes after it are 0. -/
theorem load64_rsdt (hstray : load32 m (p + 20) = 0) : load64 m (p + 16) = rsdtAddr m p := by
  have hnext : p + 16 + BitVec.ofNat 64 4 = p + 20 := BitVec.add_assoc p 16 4
  rw [load64_eq_append, hnext, hstray, rsdtAddr]
  exact (BitVec.setWidth_eq_append (by decide)).symm

/-- Below revision 2 the table is found if the four bytes after the RSDT address are 0. -/
theorem initAcpi_rsdt (h : Layout m hhdmOffset p tables) (hrev : revision m p < 2)
    (hstray : load32 m (p + 20) = 0) : FindsMadt m hhdmOffset p tables := by
  have hptr : load64 m (packedAddr rsdpFields p 4) = rsdtAddr m p := load64_rsdt hstray
  unfold FindsMadt initAcpi
  rw [if_neg (show ¬2 ≤ (m (packedAddr rsdpFields p 3)).toNat from Nat.not_le.mpr hrev)]
  dsimp only
  rw [hptr]
  exact (congrArg (fun n => scanEntries m hhdmOffset _ n 0) (rsdt_num h.rsdt_length)).trans
    (scanEntries_eq h.rsdt_entry 0)

/-- From revision 2 on nothing is looked at if the bytes taken for the XSDT address are 0. -/
theorem initAcpi_xsdt (hrev : 2 ≤ revision m p) (hstray : load64 m (p + 28) = 0) (t : AcpiTables) :
    (initAcpi m hhdmOffset p t).madt = t.madt := by
  have hptr : load64 m (packedAddr xsdpFields p 6) = 0 := hstray
  unfold initAcpi
  rw [if_pos (show 2 ≤ (m (packedAddr rsdpFields p 3)).toNat from hrev)]
  dsimp only
  rw [hptr, if_neg (fun h => h rfl)]

theorem lastApic_eq_zero_iff (h : Layout m hhdmOffset p tables) :
    lastApic m hhdmOffset tables = 0 ↔ ∀ a ∈ tables, IsApic m hhdmOffset a = false := by
  unfold lastApic
  constructor
  · intro h0 a ha
    by_contra hapic
    have hmem : a ∈ tables.filter (IsApic m hhdmOffset) :=
      List.mem_filter.mpr ⟨ha, by simpa using hapic⟩
    obtain ⟨last, hlast⟩ := Option.isSome_iff_exists.mp
      (List.getLast?_isSome.mpr (List.ne_nil_of_mem hmem))
    rw [hlast] at h0
    exact h.ne_null last (List.mem_filter.mp (List.mem_of_getLast? hlast)).1 h0
  · intro hnone
    rw [List.filter_eq_nil_iff.mpr fun a ha => by simp [hnone a ha]]
    rfl

/-- Where no stray bytes come into the addresses, `init_acpi` finds the last table with the
signature APIC if and only if the revision is below 2 or there is no such table. -/
theorem madt_found_iff (h : Layout m hhdmOffset p tables) (hstray : NoStrayBytes m p) :
    FindsMadt m hhdmOffset p tables ↔
      revision m p < 2 ∨ ∀ a ∈ tables, IsApic m hhdmOffset a = false := by
  unfold NoStrayBytes at hstray
  by_cases hrev : 2 ≤ revision m p
  · rw [if_pos hrev] at hstray
    rw [← lastApic_eq_zero_iff h, FindsMadt, initAcpi_xsdt hrev hstray, eq_comm]
    exact (or_iff_right (Nat.not_lt.mpr hrev)).symm
  · rw [if_neg hrev] at hstray
    have hlt := Nat.lt_of_not_le hrev
    exact iff_of_true (initAcpi_rsdt h hlt hstray) (Or.inl hlt)

/-- `hhdm_offset` of the examples. -/
def hhdm : U64 := 0xffff800000000000

/-- A machine with an RSDT and an XSDT that list one table, with the signature APIC. The RSDP is
at the physical address 0x1000, and its bytes add up to 0 as they should. -/
def acpiMemory (rev : U8) : Mem := fun a =>
  let phys := (a - hhdm).toNat
  let blocks : List (ℕ × List U8) :=
    [(0x1000, [0x52, 0x53, 0x44, 0x20, 0x50, 0x54, 0x52, 0x20, 0x15 - rev, 0, 0, 0, 0, 0, 0, rev,
        0x00, 0x10, 0xBC, 0x00] ++
        if rev < 2 then [] else
          [0x24, 0, 0, 0, 0x00, 0x20, 0xBC, 0x00, 0, 0, 0, 0, 0, 0, 0, 0]),
      (0xBC1000, [0x52, 0x53, 0x44, 0x54, 0x28]), (0xBC1000 + 36, [0x00, 0x30, 0xBC]),
      (0xBC2000, [0x58, 0x53, 0x44, 0x54, 0x2C]), (0xBC2000 + 36, [0x00, 0x30, 0xBC]),
      (0xBC3000, [0x41, 0x50, 0x49, 0x43, 0x2C])]
  (blocks.findSome? fun (start, bytes) =>
    if start ≤ phys then bytes[phys - start]? else none).getD 0

/-- The RSDT of that machine, and its XSDT. -/
theorem acpiMemory_tables {rev : U8} (h : rev = 0 ∨ rev = 2) :
    revision (acpiMemory rev) (hhdm + 0x1000) = rev.toNat ∧
    (load32 (acpiMemory rev) (physToVirt hhdm (rsdtAddr (acpiMemory rev) (hhdm + 0x1000)) +
      4)).toNat = 40 ∧
    (load32 (acpiMemory rev) (physToVirt hhdm (rsdtAddr (acpiMemory rev) (hhdm + 0x1000)) + 36 +
      0)).setWidth 64 = (0xBC3000 : U64) ∧
    (rev = 2 → (load32 (acpiMemory rev) (physToVirt hhdm (xsdtAddr (acpiMemory rev)
      (hhdm + 0x1000)) + 4)).toNat = 44 ∧
      load64 (acpiMemory rev) (physToVirt hhdm (xsdtAddr (acpiMemory rev) (hhdm + 0x1000)) + 36 +
        0) = 0xBC3000) := by
  rcases h with rfl | rfl <;> decide +kernel

theorem acpiMemory_layout {rev : U8} (h : rev = 0 ∨ rev = 2) :
    Layout (acpiMemory rev) hhdm (hhdm + 0x1000) [0xBC3000] := by
  obtain ⟨hrev, hlen, hentry, hx⟩ := acpiMemory_tables h
  have h2 : 2 ≤ revision (acpiMemory rev) (hhdm + 0x1000) → rev = 2 := fun hle => by
    rcases h with rfl | rfl
    · rw [hrev] at hle
      exact absurd hle (by decide)
    · rfl
  have hone : ∀ {i}, i < [(0xBC3000 : U64)].length → i = 0 := fun hi => by simpa using hi
  refine ⟨hlen, fun i hi => ?_, fun hle => (hx (h2 hle)).1, fun hle i hi => ?_, ?_⟩
  · obtain rfl := hone hi
    exact hentry
  · obtain rfl := hone hi
    exact (hx (h2 hle)).2
  · simp [physToVirt, hhdm]

/-- On that machine the table is found below revision 2. -/
theorem madt_found_sample : FindsMadt (acpiMemory 0) hhdm (hhdm + 0x1000) [0xBC3000] :=
  (madt_found_iff (acpiMemory_layout (Or.inl rfl))
    (show load32 (acpiMemory 0) (hhdm + 0x1000 + 20) = 0 by decide +kernel)).mpr
    (Or.inl (by decide))

/-- With revision 2, and all else in its place, the table is not found. -/
theorem madt_not_found :
    Layout (acpiMemory 0) hhdm (hhdm + 0x1000) [0xBC3000] ∧
    Layout (acpiMemory 2) hhdm (hhdm + 0x1000) [0xBC3000] ∧
    (initAcpi (acpiMemory 0) hhdm (hhdm + 0x1000) ⟨0, 0, 0, 0, 0⟩).madt = hhdm + 0xBC3000 ∧
    (initAcpi (acpiMemory 2) hhdm (hhdm + 0x1000) ⟨0, 0, 0, 0, 0⟩).madt = 0 ∧
    ¬FindsMadt (acpiMemory 2) hhdm (hhdm + 0x1000) [0xBC3000] := by
  have hnull : (initAcpi (acpiMemory 2) hhdm (hhdm + 0x1000) ⟨0, 0, 0, 0, 0⟩).madt = 0 :=
    initAcpi_xsdt (by decide) (by decide +kernel) _
  refine ⟨acpiMemory_layout (Or.inl rfl), acpiMemory_layout (Or.inr rfl), by decide +kernel, hnull,
    fun h => ?_⟩
  have hapic := (lastApic_eq_zero_iff (acpiMemory_layout (Or.inr rfl))).mp (h.symm.trans hnull)
  exact absurd (hapic 0xBC3000 (by decide)) (by decide)

end Jeos.Acpi
