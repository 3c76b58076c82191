import Mathlib.Data.List.FinRange
import Mathlib.Logic.Function.Basic
import Jeos.Lib.RegisterField
import Jeos.Types

/-!
# The transfers the disk drivers program

`ahci_submit` of `ahci.c` and `ata_submit` of `ata.c`, with the part of `blkdev_read` and
`blkdev_write` of `devfs.c` that makes the request. `Transfer` is what the hardware does with what
they have programmed : a command table of the AHCI port has a 22-bit byte count that stores one
less, and the ATA channel a 16-bit one whose 0 is 64 KiB. Both commands have a 16-bit sector count
whose 0 is 65536, and 48 bits of address, which an ATA drive takes in two writes to each register.

Neither driver looks at the size of a request. The port makes the transfer that was asked for, or
the call fails, if and only if no slot is free or the request has between 1 and 65536 sectors, at
most 4 MiB and an address below `2 ^ 48`, and the channel if and only if it has between 1 and 65536
sectors, between 1 byte and 64 KiB, an address below `2 ^ 48` and a buffer below 4 GiB
(`transfer_encoded_iff`). A read of 8 MiB and one of 0 bytes have not (`transfer_not_encoded`).
-/

set_option linter.unusedSectionVars false

namespace Jeos.Disk

open RegisterField

/-- The fields of `struct blk_request` that a driver reads. -/
structure BlkRequest where
  lba : U64
  count : U32
  buf : U64
  write : U8

/-- A transfer of a disk : `bytes` bytes at the physical address `buffer`, and `sectors` sectors
from `lba` on. -/
@[ext]
structure Transfer where
  lba : ℕ
  sectors : ℕ
  buffer : ℕ
  bytes : ℕ
  deriving DecidableEq

/-- `VIRT_TO_PHYS`. -/
def virtToPhys (hhdmOffset v : U64) : U64 := v - hhdmOffset

/-- What a request asks for. -/
def BlkRequest.transfer (req : BlkRequest) (hhdmOffset : U64) (sectorSize : U32) : Transfer where
  lba := req.lba.toNat
  sectors := req.count.toNat
  buffer := (virtToPhys hhdmOffset req.buf).toNat
  bytes := req.count.toNat * sectorSize.toNat

/-- `ATA_CMD_READ_DMA_EXT` and `ATA_CMD_WRITE_DMA_EXT`. -/
def dmaExtCommand (write : U8) : U8 := if write ≠ 0 then 0x35 else 0x25

/-- The requests of `blkdev_read` and `blkdev_write` : the first sector and the number of sectors.
A sector size of 0 faults. -/
def blkdevSectors (off count : U64) (sectorSize : U32) : Option (U64 × U32) :=
  let ss := sectorSize.setWidth 64
  if ss = 0 then none
  else
    let startSec := off / ss
    let endSec := (off + count + ss - 1) / ss
    let nsecs := endSec - startSec
    some (startSec, nsecs.setWidth 32)

/-! ## AHCI -/

/-- The fields of `struct fis_reg_h2d` that the driver fills. -/
structure FisRegH2d where
  fisType : U8
  flags : U8
  command : U8
  lba0 : U8
  lba1 : U8
  lba2 : U8
  device : U8
  lba3 : U8
  lba4 : U8
  lba5 : U8
  count : U16

/-- `struct hba_prdt_entry`. -/
structure HbaPrdtEntry where
  dba : U32
  dbau : U32
  dbc : BitVec 22
  i : BitVec 1

/-- A command table with its first entry. -/
structure HbaCmdTable where
  cfis : FisRegH2d
  prdt0 : HbaPrdtEntry

/-- The fields of `struct hba_cmd_header` that the driver fills. -/
structure HbaCmdHeader where
  cfl : BitVec 5
  w : BitVec 1
  prdtl : U16

/-- The registers of a port, and its command headers and tables. -/
structure AhciPort where
  is : U32
  sact : U32
  ci : U32
  header : Fin 32 → HbaCmdHeader
  table : Fin 32 → HbaCmdTable

/-- `fis_set_lba48`. -/
def FisRegH2d.setLba48 (fis : FisRegH2d) (lba : U64) : FisRegH2d :=
  { fis with
    lba0 := lba.setWidth 8
    lba1 := (lba >>> 8).setWidth 8
    lba2 := (lba >>> 16).setWidth 8
    lba3 := (lba >>> 24).setWidth 8
    lba4 := (lba >>> 32).setWidth 8
    lba5 := (lba >>> 40).setWidth 8 }

/-- The transfer that a command table describes. -/
def HbaCmdTable.transfer (t : HbaCmdTable) : Transfer where
  lba := (t.cfis.lba5 ++ t.cfis.lba4 ++ t.cfis.lba3 ++ t.cfis.lba2 ++ t.cfis.lba1 ++
    t.cfis.lba0).toNat
  sectors := zeroIsMax t.cfis.count
  buffer := (t.prdt0.dbau ++ t.prdt0.dba).toNat
  bytes := minusOne t.prdt0.dbc

/-- The sector size `ahci_submit` works with : that of the port, or `ATA_SECTOR_SIZE_DEFAULT`. -/
def ahciSectorSize (sectorSize : U32) : U32 := if sectorSize = 0 then 512 else sectorSize

namespace AhciPort

variable (p : AhciPort) (hhdmOffset : U64) (sectorSize : U32) (req : BlkRequest)

/-- `ahci_find_slot`. -/
def findSlot : Option (Fin 32) :=
  let slots := p.sact ||| p.ci
  (List.finRange 32).find? fun i => !slots.getLsbD i

/-- The command header that `ahci_submit` writes. -/
def submitHeader : HbaCmdHeader where
  cfl := 20 / 4
  w := req.write.setWidth 1
  prdtl := 1

/-- The command table that `ahci_submit` writes over `t`. -/
def submitTable (t : HbaCmdTable) : HbaCmdTable :=
  let bufPhys := virtToPhys hhdmOffset req.buf
  { prdt0 :=
      { dba := bufPhys.setWidth 32
        dbau := (bufPhys >>> 32).setWidth 32
        dbc := (req.count * ahciSectorSize sectorSize - 1).setWidth 22
        i := 1 }
    cfis :=
      { t.cfis.setLba48 req.lba with
        fisType := 0x27
        flags := 1 <<< 7
        command := dmaExtCommand req.write
        device := 1 <<< 6
        count := req.count.setWidth 16 } }

/-- `ahci_submit` on a port with this sector size, up to the end of the loop in `ahci_submit_dma`
and the write of `ci`, which sets the bits of the value written. -/
def submit : AhciPort × ℤ :=
  let cleared := { p with is := 0 }
  match p.findSlot with
  | none => (cleared, -1)
  | some slot =>
    ({ cleared with
        header := Function.update p.header slot (submitHeader req)
        table := Function.update p.table slot
          (submitTable hhdmOffset sectorSize req (p.table slot))
        ci := p.ci ||| (1#32 <<< slot.val) }, 0)

/-- No slot is free. -/
def Full : Prop := ∀ slot : Fin 32, (p.sact ||| p.ci).getLsbD slot = true

/-- Between two states of the port the command of this slot was issued, and no other. -/
def Issues (p p' : AhciPort) (slot : Fin 32) : Prop :=
  p.ci.getLsbD slot = false ∧ p'.ci = p.ci ||| (1#32 <<< slot.val)

/-- `ahci_submit` fails and issues no command, or it issues one for the transfer asked for. -/
def Encodes : Prop :=
  let (p', rc) := p.submit hhdmOffset sectorSize req
  rc ≠ 0 ∧ p'.ci = p.ci ∨
    ∃ slot, Issues p p' slot ∧
      (p'.table slot).transfer = req.transfer hhdmOffset (ahciSectorSize sectorSize)

end AhciPort

/-- The request has a number of sectors and of bytes that the fields of a command table can
express. -/
structure BlkRequest.FitsAhci (req : BlkRequest) (sectorSize : U32) : Prop where
  count_pos : 0 < req.count.toNat
  count_le : req.count.toNat ≤ 65536
  bytes_le : req.count.toNat * (ahciSectorSize sectorSize).toNat ≤ 2 ^ 22
  lba_lt : req.lba.toNat < 2 ^ 48

/-! ## ATA -/

/-- `struct ata_prd`. -/
structure AtaPrd where
  base : U32
  count : U16
  eot : U16

/-- A write of the driver to a port : at `base` or at `bm_base` of the channel. -/
inductive PortWrite where
  | base (reg : ℕ) (value : U8)
  | bm (reg : ℕ) (value : U8)
  | bmLong (reg : ℕ) (value : U32)

namespace Reg

def secCount0 : ℕ := 2
def lba0 : ℕ := 3
def lba1 : ℕ := 4
def lba2 : ℕ := 5
def hdDevSel : ℕ := 6
def command : ℕ := 7
def secCount1 : ℕ := 2
def lba3 : ℕ := 3
def lba4 : ℕ := 4
def lba5 : ℕ := 5
def bmCmd : ℕ := 0
def bmStatus : ℕ := 2
def bmPrdt : ℕ := 4

end Reg

/-- The entry of the PRD table, the writes to the ports in order, and the status that
`blk_complete` gets. -/
structure AtaSubmit where
  prd : AtaPrd
  writes : List PortWrite
  status : ℤ
  result : ℤ

/-- `ata_submit` on a channel with the PRD table at `prdPhys`, where `status` is read from the bus
master before the command and `done` when it has ended. -/
def ataSubmit (hhdmOffset prdPhys : U64) (sectorSize : U32) (status done : U8)
    (req : BlkRequest) : AtaSubmit :=
  let bufPa := virtToPhys hhdmOffset req.buf
  let bytes := req.count * sectorSize
  let bmCmd : U8 := if req.write ≠ 0 then 0 else 1 <<< 3
  { prd :=
      { base := bufPa.setWidth 32
        count := (if bytes = 65536 then 0 else bytes).setWidth 16
        eot := 1 <<< 15 }
    writes :=
      [.bm Reg.bmCmd 0,
       .bm Reg.bmStatus (status ||| 2 ||| 4),
       .bmLong Reg.bmPrdt (prdPhys.setWidth 32),
       .bm Reg.bmCmd bmCmd,
       .base Reg.hdDevSel 0xE0,
       .base Reg.secCount1 ((req.count >>> 8).setWidth 8),
       .base Reg.lba3 ((req.lba >>> 24).setWidth 8),
       .base Reg.lba4 ((req.lba >>> 32).setWidth 8),
       .base Reg.lba5 ((req.lba >>> 40).setWidth 8),
       .base Reg.secCount0 (req.count.setWidth 8),
       .base Reg.lba0 (req.lba.setWidth 8),
       .base Reg.lba1 ((req.lba >>> 8).setWidth 8),
       .base Reg.lba2 ((req.lba >>> 16).setWidth 8),
       .base Reg.command (dmaExtCommand req.write),
       .bm Reg.bmCmd (bmCmd ||| 1),
       .bm Reg.bmCmd 0,
       .bm Reg.bmStatus done]
    status := if done &&& 2 ≠ 0 then -1 else 0
    result := 0 }

/-- A register of the drive that takes two bytes : the last one written and the one before. -/
structure HighOrderReg where
  current : U8
  previous : U8

def HighOrderReg.write (r : HighOrderReg) (value : U8) : HighOrderReg := ⟨value, r.current⟩

/-- The registers of the drive that an LBA48 command reads. -/
structure TaskFile where
  secCount : HighOrderReg
  lbaLow : HighOrderReg
  lbaMid : HighOrderReg
  lbaHigh : HighOrderReg

def TaskFile.write (t : TaskFile) (reg : ℕ) (value : U8) : TaskFile :=
  if reg = Reg.secCount0 then { t with secCount := t.secCount.write value }
  else if reg = Reg.lba0 then { t with lbaLow := t.lbaLow.write value }
  else if reg = Reg.lba1 then { t with lbaMid := t.lbaMid.write value }
  else if reg = Reg.lba2 then { t with lbaHigh := t.lbaHigh.write value }
  else t

/-- The task file at the first command written. -/
def TaskFile.atCommand : TaskFile → List PortWrite → Option TaskFile
  | _, [] => none
  | t, .base reg value :: ws =>
    if reg = Reg.command then some t else (t.write reg value).atCommand ws
  | t, _ :: ws => t.atCommand ws

/-- The transfer of a command that the drive gets with this task file, through this entry of the
PRD table. -/
def TaskFile.transfer (t : TaskFile) (prd : AtaPrd) : Transfer where
  lba := (t.lbaHigh.previous ++ t.lbaMid.previous ++ t.lbaLow.previous ++ t.lbaHigh.current ++
    t.lbaMid.current ++ t.lbaLow.current).toNat
  sectors := zeroIsMax (t.secCount.previous ++ t.secCount.current)
  buffer := prd.base.toNat
  bytes := zeroIsMax prd.count

/-- `ata_submit` issues no command and fails, or it issues one for the transfer asked for. -/
def TaskFile.Encodes (t : TaskFile) (hhdmOffset prdPhys : U64) (sectorSize : U32)
    (status done : U8) (req : BlkRequest) : Prop :=
  let s := ataSubmit hhdmOffset prdPhys sectorSize status done req
  match t.atCommand s.writes with
  | none => s.result ≠ 0
  | some t' => t'.transfer s.prd = req.transfer hhdmOffset sectorSize

/-- The request has a number of sectors and of bytes and a buffer that the registers of the channel
can express. -/
structure BlkRequest.FitsAta (req : BlkRequest) (hhdmOffset : U64) (sectorSize : U32) : Prop where
  count_pos : 0 < req.count.toNat
  count_le : req.count.toNat ≤ 65536
  bytes_pos : 0 < sectorSize.toNat
  bytes_le : req.count.toNat * sectorSize.toNat ≤ 65536
  lba_lt : req.lba.toNat < 2 ^ 48
  buffer_lt : (virtToPhys hhdmOffset req.buf).toNat < 2 ^ 32

/-! ## The fields as numbers -/

theorem bytes_eq_ofNat (count sectorSize : U32) :
    count * sectorSize = BitVec.ofNat 32 (count.toNat * sectorSize.toNat) :=
  BitVec.eq_of_toNat_eq (by rw [BitVec.toNat_mul, BitVec.toNat_ofNat])

/-- The six address bytes of an LBA48 command are the low 48 bits of the address. -/
theorem lba48_append (lba : U64) :
    (lba >>> 40).setWidth 8 ++ (lba >>> 32).setWidth 8 ++ (lba >>> 24).setWidth 8 ++
      (lba >>> 16).setWidth 8 ++ (lba >>> 8).setWidth 8 ++ lba.setWidth 8 = lba.setWidth 48 := by
  ext i hi
  simp only [BitVec.getElem_append, BitVec.getElem_setWidth, BitVec.getLsbD_ushiftRight]
  split_ifs <;> congr 1 <;> omega

theorem low_high_append (x : U64) : (x >>> 32).setWidth 32 ++ x.setWidth 32 = x := by
  ext i hi
  simp only [BitVec.getElem_append, BitVec.getElem_setWidth, BitVec.getLsbD_ushiftRight]
  split_ifs
  · exact BitVec.getLsbD_eq_getElem hi
  · rw [← BitVec.getLsbD_eq_getElem hi]
    congr 1
    omega

theorem count_append (count : U32) :
    (count >>> 8).setWidth 8 ++ count.setWidth 8 = count.setWidth 16 := by
  ext i hi
  simp only [BitVec.getElem_append, BitVec.getElem_setWidth, BitVec.getLsbD_ushiftRight]
  split_ifs
  · rfl
  · congr 1
    omega

theorem ahciSectorSize_pos (sectorSize : U32) : 0 < (ahciSectorSize sectorSize).toNat := by
  unfold ahciSectorSize
  split
  next => decide
  next h => exact Nat.pos_of_ne_zero fun h0 => h (BitVec.eq_of_toNat_eq h0)

/-! ## The AHCI port -/

namespace AhciPort

variable (p : AhciPort) (hhdmOffset : U64) (sectorSize : U32) (req : BlkRequest)

theorem findSlot_eq_none_iff : p.findSlot = none ↔ p.Full := by
  simp only [findSlot, Full, List.find?_eq_none, List.mem_finRange, true_implies, Bool.not_eq_true',
    Bool.not_eq_false]

theorem free_of_findSlot {slot : Fin 32} (h : p.findSlot = some slot) :
    (p.sact ||| p.ci).getLsbD slot = false := by
  simpa using List.find?_some h

theorem getLsbD_one_shiftLeft (i j : Fin 32) :
    (1#32 <<< i.val).getLsbD j = decide (i = j) := by
  rw [← BitVec.twoPow_eq, BitVec.getLsbD_twoPow, decide_eq_true i.isLt, Bool.true_and]
  exact decide_eq_decide.mpr Fin.ext_iff.symm

theorem Issues.unique {p p' : AhciPort} {i j : Fin 32} (hi : Issues p p' i) (hj : Issues p p' j) :
    i = j := by
  have h : (p.ci ||| (1#32 <<< i.val)).getLsbD j = (p.ci ||| (1#32 <<< j.val)).getLsbD j :=
    congrArg (fun x => x.getLsbD j.val) (hi.2.symm.trans hj.2)
  rw [BitVec.getLsbD_or, BitVec.getLsbD_or, hj.1, getLsbD_one_shiftLeft,
    getLsbD_one_shiftLeft] at h
  simpa using h

theorem submitTable_transfer_iff (t : HbaCmdTable) :
    (submitTable hhdmOffset sectorSize req t).transfer =
        req.transfer hhdmOffset (ahciSectorSize sectorSize) ↔ req.FitsAhci sectorSize := by
  have hlba : (submitTable hhdmOffset sectorSize req t).transfer.lba = req.lba.toNat ↔
      req.lba.toNat < 2 ^ 48 := by
    rw [← toNat_setWidth_eq_iff, ← lba48_append]
    rfl
  have hcount : (submitTable hhdmOffset sectorSize req t).transfer.sectors = req.count.toNat ↔
      0 < req.count.toNat ∧ req.count.toNat ≤ 2 ^ 16 :=
    zeroIsMax_setWidth_eq_iff (w := 16) (by decide) req.count
  have hbuf : (submitTable hhdmOffset sectorSize req t).transfer.buffer =
      (virtToPhys hhdmOffset req.buf).toNat := congrArg BitVec.toNat (low_high_append _)
  have hbytes : (submitTable hhdmOffset sectorSize req t).transfer.bytes =
        req.count.toNat * (ahciSectorSize sectorSize).toNat ↔
      0 < req.count.toNat * (ahciSectorSize sectorSize).toNat ∧
        req.count.toNat * (ahciSectorSize sectorSize).toNat ≤ 2 ^ 22 := by
    rw [← minusOne_ofNat_eq_iff (v := 32) (by decide), ← bytes_eq_ofNat]
    rfl
  have hpos := ahciSectorSize_pos sectorSize
  rw [Transfer.ext_iff]
  constructor
  · rintro ⟨h1, h2, -, h4⟩
    exact ⟨(hcount.mp h2).1, (hcount.mp h2).2, (hbytes.mp h4).2, hlba.mp h1⟩
  · intro h
    exact ⟨hlba.mpr h.lba_lt, hcount.mpr ⟨h.count_pos, h.count_le⟩, hbuf,
      hbytes.mpr ⟨Nat.mul_pos h.count_pos hpos, h.bytes_le⟩⟩

/-- The port makes the transfer asked for, or the call fails, if and only if there is no slot free
or the request fits. -/
theorem encodes_iff : p.Encodes hhdmOffset sectorSize req ↔ p.Full ∨ req.FitsAhci sectorSize := by
  unfold Encodes submit
  cases hs : p.findSlot with
  | none => simp [(findSlot_eq_none_iff p).mp hs]
  | some slot =>
    have hfree := free_of_findSlot p hs
    rw [BitVec.getLsbD_or, Bool.or_eq_false_iff] at hfree
    have hnot : ¬p.Full := by
      rw [← findSlot_eq_none_iff, hs]
      exact Option.some_ne_none slot
    simp only [ne_eq, not_true_eq_false, false_and, false_or, hnot]
    constructor
    · rintro ⟨slot', hissues, htransfer⟩
      have : slot' = slot := hissues.unique ⟨hfree.2, rfl⟩
      rw [this, Function.update_self, submitTable_transfer_iff] at htransfer
      exact htransfer
    · intro h
      refine ⟨slot, ⟨hfree.2, rfl⟩, ?_⟩
      rw [Function.update_self, submitTable_transfer_iff]
      exact h

end AhciPort

/-! ## The ATA channel -/

section Channel

variable (t : TaskFile) (hhdmOffset prdPhys : U64) (sectorSize : U32) (status done : U8)
  (req : BlkRequest)

/-- `ata_submit` always issues its command, with every register written twice. -/
theorem atCommand_ataSubmit : t.atCommand
      (ataSubmit hhdmOffset prdPhys sectorSize status done req).writes = some
    { secCount := ⟨req.count.setWidth 8, (req.count >>> 8).setWidth 8⟩
      lbaLow := ⟨req.lba.setWidth 8, (req.lba >>> 24).setWidth 8⟩
      lbaMid := ⟨(req.lba >>> 8).setWidth 8, (req.lba >>> 32).setWidth 8⟩
      lbaHigh := ⟨(req.lba >>> 16).setWidth 8, (req.lba >>> 40).setWidth 8⟩ } := rfl

/-- The value 65536, which the driver treats apart, would be cut off to the same 0. -/
theorem prd_count_eq (bytes : U32) :
    (if bytes = 65536 then 0 else bytes).setWidth 16 = bytes.setWidth 16 := by
  split
  next h => rw [h]; rfl
  next => rfl

/-- The channel makes the transfer asked for if and only if the request fits. -/
theorem ata_encodes_iff : t.Encodes hhdmOffset prdPhys sectorSize status done req ↔
    req.FitsAta hhdmOffset sectorSize := by
  have hlba : ((req.lba >>> 40).setWidth 8 ++ (req.lba >>> 32).setWidth 8 ++
        (req.lba >>> 24).setWidth 8 ++ (req.lba >>> 16).setWidth 8 ++ (req.lba >>> 8).setWidth 8 ++
        req.lba.setWidth 8).toNat = req.lba.toNat ↔ req.lba.toNat < 2 ^ 48 := by
    rw [lba48_append, toNat_setWidth_eq_iff]
  have hcount : zeroIsMax ((req.count >>> 8).setWidth 8 ++ req.count.setWidth 8) =
      req.count.toNat ↔ 0 < req.count.toNat ∧ req.count.toNat ≤ 2 ^ 16 := by
    rw [count_append]
    exact zeroIsMax_setWidth_eq_iff (w := 16) (by decide) req.count
  have hbytes : zeroIsMax ((if req.count * sectorSize = 65536 then 0
        else req.count * sectorSize).setWidth 16) = req.count.toNat * sectorSize.toNat ↔
      0 < req.count.toNat * sectorSize.toNat ∧ req.count.toNat * sectorSize.toNat ≤ 2 ^ 16 := by
    rw [prd_count_eq, bytes_eq_ofNat]
    exact zeroIsMax_ofNat_eq_iff (by decide) _
  unfold TaskFile.Encodes
  simp only [atCommand_ataSubmit]
  rw [Transfer.ext_iff]
  constructor
  · rintro ⟨h1, h2, h3, h4⟩
    exact ⟨(hcount.mp h2).1, (hcount.mp h2).2, Nat.pos_of_mul_pos_left (hbytes.mp h4).1,
      (hbytes.mp h4).2, hlba.mp h1, toNat_setWidth_eq_iff.mp h3⟩
  · intro h
    exact ⟨hlba.mpr h.lba_lt, hcount.mpr ⟨h.count_pos, h.count_le⟩,
      toNat_setWidth_eq_iff.mpr h.buffer_lt,
      hbytes.mpr ⟨Nat.mul_pos h.count_pos h.bytes_pos, h.bytes_le⟩⟩

end Channel

/-- For every state of the port, every task file and every request, `ahci_submit` and `ata_submit`
fail without a transfer or program the one asked for if and only if no slot is free or the request
fits the fields. -/
theorem transfer_encoded_iff (p : AhciPort) (t : TaskFile) (hhdmOffset prdPhys : U64)
    (sectorSize : U32) (status done : U8) (req : BlkRequest) :
    (p.Encodes hhdmOffset sectorSize req ↔ p.Full ∨ req.FitsAhci sectorSize) ∧
      (t.Encodes hhdmOffset prdPhys sectorSize status done req ↔
        req.FitsAta hhdmOffset sectorSize) :=
  ⟨p.encodes_iff hhdmOffset sectorSize req,
    ata_encodes_iff t hhdmOffset prdPhys sectorSize status done req⟩

/-! ## Requests that do not fit -/

/-- A port with all its slots free. -/
def idlePort : AhciPort where
  is := 0
  sact := 0
  ci := 0
  header := fun _ => ⟨0, 0, 0⟩
  table := fun _ => ⟨⟨0, 0, 0, 0, 0, 0, 0, 0, 0, 0, 0⟩, ⟨0, 0, 0, 0⟩⟩

/-- The task file after a reset. -/
def idleTaskFile : TaskFile := ⟨⟨0, 0⟩, ⟨0, 0⟩, ⟨0, 0⟩, ⟨0, 0⟩⟩

/-- A read through `blkdev_read` at the start of a disk of 512-byte sectors, into the pages at
16 MiB. -/
def startOfDisk (sectors : U32) : BlkRequest := ⟨0, sectors, 0xffff800001000000, 0⟩

/-- A read of 8 MiB from the start of the disk asks for 16384 sectors, and a read of no bytes for
none. Neither the port nor the channel gets the transfer asked for. -/
theorem transfer_not_encoded :
    blkdevSectors 0 0x800000 512 = some (0, 16384) ∧ blkdevSectors 0 0 512 = some (0, 0) ∧
    ¬idlePort.Encodes 0xffff800000000000 512 (startOfDisk 16384) ∧
    ¬idlePort.Encodes 0xffff800000000000 512 (startOfDisk 0) ∧
    ¬idleTaskFile.Encodes 0xffff800000000000 0x2000 512 0 4 (startOfDisk 16384) ∧
    ¬idleTaskFile.Encodes 0xffff800000000000 0x2000 512 0 4 (startOfDisk 0) := by
  have hfree : ¬idlePort.Full := fun h => absurd (h 0) (by decide)
  refine ⟨by decide, by decide, ?_, ?_, ?_, ?_⟩
  · rw [AhciPort.encodes_iff]
    rintro (h | h)
    · exact hfree h
    · exact absurd h.bytes_le (by decide)
  · rw [AhciPort.encodes_iff]
    rintro (h | h)
    · exact hfree h
    · exact absurd h.count_pos (by decide)
  · rw [ata_encodes_iff]
    exact fun h => absurd h.bytes_le (by decide)
  · rw [ata_encodes_iff]
    exact fun h => absurd h.count_pos (by decide)

-- The port gets 16384 sectors for 4 MiB of memory, and 65536 sectors for a read of none.
example : [16384, 0].map (fun n => (AhciPort.submitTable 0xffff800000000000 512 (startOfDisk n)
    (idlePort.table 0)).transfer) = [⟨0, 16384, 0x1000000, 0x400000⟩,
      ⟨0, 65536, 0x1000000, 0x400000⟩] := by decide

end Jeos.Disk
