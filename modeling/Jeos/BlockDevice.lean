import Jeos.DiskTransfers
import Jeos.FileOps
import Jeos.Lib.Splice
import Jeos.ReadElf

/-!
# Reading and writing a block device by bytes

`blkdev_read` and `blkdev_write` of `devfs.c` over `blk_submit_sync` of `blk.c`. A device is an
array of bytes that is transferred in whole sectors, through a temporary buffer of `kalloc`. A
transfer that fails moves nothing. Only the value of the first transfer of a write is not looked
at.

If the transfers succeed, a write is a splice of the device and a read shows it, so that after any
writes a read returns the last byte written to each place (`blkdev_is_byte_array`).

If the read of a write fails, the bytes of its sectors around the range become the pattern that
`kalloc` fills its pages with. A write damages nothing exactly if there is no memory for the
buffer, or the range is inside the buffer and nothing is written, or it is written and the read has
succeeded or could not have made a difference (`blkdev_write_safe_iff`).
-/

set_option linter.unusedSectionVars false

namespace Jeos

open ByteMemory DyadicBlock Splice

/-- What `submit` of a driver returns for a request, and the status of its completion. -/
structure Submission where
  submit : U32
  status : U32

/-- The value of `blk_submit_sync`. -/
def Submission.blkSubmitSync (r : Submission) : U32 := if r.submit ≠ 0 then -1 else r.status

/-- A block device with its bytes. -/
structure BlockDevice where
  sectorSize : U32
  bytes : ℕ → U8

/-- The memory, the device and the file position when a call returns, and its value. -/
structure BlkReturn where
  heap : Heap
  device : BlockDevice
  pos : U64
  result : U64

namespace BlockDevice

variable (d : BlockDevice) {off count : U64}

/-- `ss`. -/
def ss : U64 := d.sectorSize.setWidth 64

/-- `start_sec`. -/
def startSec (off : U64) : U64 := off / d.ss

/-- `end_sec`. -/
def endSec (off count : U64) : U64 := (off + count + d.ss - 1) / d.ss

/-- `nsecs`. -/
def nsecs (off count : U64) : U64 := d.endSec off count - d.startSec off

/-- `buf_pages`. -/
def bufPages (off count : U64) : U64 :=
  let pages := (d.nsecs off count * d.ss + pageSize - 1) / pageSize
  if pages = 0 then 1 else pages

/-- `delta`. -/
def delta (off : U64) : U64 := off - d.startSec off * d.ss

/-- The first byte of the sector `lba`. -/
def sectorByte (lba : U64) : ℕ := lba.toNat * d.sectorSize.toNat

/-- The number of bytes of `n` sectors. -/
def sectorBytes (n : U32) : ℕ := n.toNat * d.sectorSize.toNat

/-- The bytes of the temporary buffer. -/
def room (off count : U64) : ℕ := (d.bufPages off count).toNat * 4096

/-- `blk_read` into a buffer with `room` bytes. A transfer past them is `none`. -/
def blkRead (r : Submission) (lba : U64) (n : U32) (room : ℕ) (buf : U64) (m : Mem) :
    Option (Mem × U32) :=
  if r.blkSubmitSync ≠ 0 then some (m, r.blkSubmitSync)
  else if d.sectorBytes n ≤ room then
    let bytes : Mem := fun i => d.bytes (d.sectorByte lba + i.toNat)
    some (paste m buf bytes 0 (d.sectorBytes n), 0)
  else none

/-- `blk_write` from a buffer with `room` bytes. A transfer past them is `none`. -/
def blkWrite (r : Submission) (lba : U64) (n : U32) (room : ℕ) (buf : U64) (m : Mem) :
    Option (BlockDevice × U32) :=
  if r.blkSubmitSync ≠ 0 then some (d, r.blkSubmitSync)
  else if d.sectorBytes n ≤ room then
    let data := fun i => m (buf + BitVec.ofNat 64 i)
    some ({ d with bytes := splice d.bytes (d.sectorByte lba) (d.sectorBytes n) data }, 0)
  else none

/-- `blkdev_read`. It is `none` if the sector size is 0 or something is read past the temporary
buffer. -/
def blkdevRead (rd : Submission) (h : Heap) (buf count off : U64) : Option BlkReturn :=
  if d.ss = 0 then none
  else (kalloc h (d.bufPages off count)).bind fun (h, tmp) =>
    if tmp = 0 then some ⟨h, d, off, vfsENOMEM⟩
    else (d.blkRead rd (d.startSec off) ((d.nsecs off count).setWidth 32) (d.room off count) tmp
        h.mem).bind fun (m, rc) =>
      if rc ≠ 0 then (kfree { h with mem := m } tmp (d.bufPages off count)).map fun h =>
        ⟨h, d, off, -1⟩
      else
        let avail := d.nsecs off count * d.ss - d.delta off
        let avail := if avail > count then count else avail
        if (d.delta off).toNat + avail.toNat ≤ d.room off count then
          let m := copy m buf (tmp + d.delta off) avail.toNat
          (kfree { h with mem := m } tmp (d.bufPages off count)).map fun h =>
            ⟨h, d, off + avail, avail⟩
        else none

/-- `blkdev_write`. It is `none` if the sector size is 0 or something is stored or read past the
temporary buffer. -/
def blkdevWrite (rd wr : Submission) (h : Heap) (buf count off : U64) : Option BlkReturn :=
  if d.ss = 0 then none
  else (kalloc h (d.bufPages off count)).bind fun (h, tmp) =>
    if tmp = 0 then some ⟨h, d, off, vfsENOMEM⟩
    else (d.blkRead rd (d.startSec off) ((d.nsecs off count).setWidth 32) (d.room off count) tmp
        h.mem).bind fun (m, _) =>
      if (d.delta off).toNat + count.toNat ≤ d.room off count then
        let m := copy m (tmp + d.delta off) buf count.toNat
        (d.blkWrite wr (d.startSec off) ((d.nsecs off count).setWidth 32) (d.room off count) tmp
            m).bind fun (d', rc) =>
          (kfree { h with mem := m } tmp (d.bufPages off count)).map fun h =>
            if rc ≠ 0 then ⟨h, d', off, -1⟩ else ⟨h, d', off + count, count⟩
      else none

/-- The requests are those of `blkdevSectors`. -/
theorem blkdevSectors_eq (hss : d.ss ≠ 0) : Disk.blkdevSectors off count d.sectorSize =
    some (d.startSec off, (d.nsecs off count).setWidth 32) := if_neg hss

/-! ## The arithmetic of a request -/

theorem ss_toNat : d.ss.toNat = d.sectorSize.toNat := BitVec.toNat_setWidth_of_le (by norm_num)

theorem ss_eq_zero_iff : d.ss = 0 ↔ d.sectorSize.toNat = 0 := by
  rw [← d.ss_toNat]
  exact ⟨fun h => by rw [h]; rfl, fun h => BitVec.eq_of_toNat_eq h⟩

theorem startSec_toNat : (d.startSec off).toNat = off.toNat / d.sectorSize.toNat := by
  rw [startSec, BitVec.toNat_udiv, ss_toNat]

theorem sectorByte_startSec :
    d.sectorByte (d.startSec off) = off.toNat / d.sectorSize.toNat * d.sectorSize.toNat := by
  rw [sectorByte, startSec_toNat]

theorem delta_toNat : (d.delta off).toNat = off.toNat % d.sectorSize.toNat := by
  have hle := Nat.div_mul_le_self off.toNat d.sectorSize.toNat
  have hmod := @Nat.mod_eq_sub_div_mul off.toNat d.sectorSize.toNat
  have hlt := off.isLt
  have hmul : (d.startSec off * d.ss).toNat =
      off.toNat / d.sectorSize.toNat * d.sectorSize.toNat := by
    rw [BitVec.toNat_mul, startSec_toNat, ss_toNat, Nat.mod_eq_of_lt (by omega)]
  rw [delta, BitVec.toNat_sub_of_le (BitVec.le_def.2 (hmul ▸ hle)), hmul, hmod]

/-- The range starts `delta` bytes into the first sector. -/
theorem sectorByte_add_delta (off : U64) :
    d.sectorByte (d.startSec off) + (d.delta off).toNat = off.toNat := by
  rw [sectorByte_startSec, delta_toNat, Nat.mul_comm]
  exact Nat.div_add_mod _ _

/-- The sectors of a range that starts in the first one. -/
theorem sectors_eq {o c s : ℕ} (hs : 0 < s) : (o + c + s - 1) / s - o / s = (o % s + c + s - 1) / s := by
  have hdiv := Nat.div_add_mod o s
  have h : o + c + s - 1 = (o % s + c + s - 1) + o / s * s := by
    rw [Nat.mul_comm (o / s)]
    omega
  rw [h, Nat.add_mul_div_right _ _ hs, Nat.add_sub_cancel]

theorem le_sectors_mul {k s : ℕ} (hs : 0 < s) : k ≤ (k + s - 1) / s * s := by
  have := Nat.lt_div_mul_add hs (a := k + s - 1)
  omega

/-! ## The temporary buffer -/

/-- The range of a request is no free memory. -/
def Holds (h : Heap) (buf count : U64) : Prop :=
  ∀ x, Within x buf count.toNat → pageOf x ∉ h.freePages

/-- The temporary buffer after `blk_read`, which `kalloc` has filled with its pattern. -/
def filled (rd : Submission) (lba : U64) (n : U32) : ℕ → U8 :=
  if rd.blkSubmitSync = 0 then
    splice (fun _ => 5) 0 (d.sectorBytes n) fun i => d.bytes (d.sectorByte lba + i)
  else fun _ => 5

section Buffer

variable {d} {rd wr : Submission} {h h₁ : Heap} {buf npages v l x : U64} {n : U32} {o k r : ℕ}
  {m : Mem}

theorem filled_of_ok (h0 : rd.blkSubmitSync = 0) {i : ℕ} (hi : i < d.sectorBytes n) :
    d.filled rd l n i = d.bytes (d.sectorByte l + i) := by
  rw [filled, if_pos h0]
  exact splice_zero_of_lt hi

theorem filled_of_failed (h0 : rd.blkSubmitSync ≠ 0) (i : ℕ) : d.filled rd l n i = 5 := by
  rw [filled, if_neg h0]

theorem bufPages_toNat_pos : 0 < (d.bufPages off count).toNat := by
  rw [bufPages]
  split_ifs with h0
  · decide
  · exact Nat.pos_of_ne_zero fun h => h0 (BitVec.eq_of_toNat_eq h)

theorem bufPages_le : (d.bufPages off count).toNat ≤ 2 ^ 63 := by
  rw [bufPages]
  split_ifs
  · decide
  · have := (d.nsecs off count * d.ss + pageSize - 1).isLt
    rw [BitVec.toNat_udiv, pageSize_toNat]
    omega

theorem blkRead_ok (hr : rd.blkSubmitSync = 0 → d.sectorBytes n ≤ r) (hr' : r ≤ 2 ^ 64)
    (hpat : ∀ i < r, m (v + BitVec.ofNat 64 i) = 5) :
    ∃ m', d.blkRead rd l n r v m = some (m', rd.blkSubmitSync) ∧
      (∀ i < r, m' (v + BitVec.ofNat 64 i) = d.filled rd l n i) ∧
      ∀ x, ¬Within x v r → m' x = m x := by
  by_cases h0 : rd.blkSubmitSync = 0
  · have hle := hr h0
    refine ⟨_, by rw [blkRead, if_neg (not_not.2 h0), if_pos hle, h0], fun i hi => ?_, fun x hx =>
      paste_of_not_within fun h => hx (lt_of_lt_of_le h hle)⟩
    by_cases hin : i < d.sectorBytes n
    · have hlt : i < 2 ^ 64 := by omega
      have hi0 : ((0 : U64) + BitVec.ofNat 64 i).toNat = i := by simpa using hlt
      rw [paste_add hin (hle.trans hr'), filled_of_ok h0 hin, hi0]
    · rw [paste_of_not_within, hpat i hi, filled, if_pos h0,
        splice_of_not_inside fun h => hin (by simpa using h.2)]
      rw [Within, toNat_add_sub_self v (by omega)]
      exact hin
  · exact ⟨m, by rw [blkRead, if_pos h0], fun i hi => by rw [hpat i hi, filled_of_failed h0],
      fun _ _ => rfl⟩

theorem blkRead_none (h0 : rd.blkSubmitSync = 0) (hr : r < d.sectorBytes n) :
    d.blkRead rd l n r v m = none := by
  rw [blkRead, if_neg (not_not.2 h0), if_neg (Nat.not_le.2 hr)]

/-- The buffer after `memcpy` into a part of it. -/
theorem copy_into {f data : ℕ → U8} {k c : ℕ} (hkc : k + c ≤ r) (hr' : r ≤ 2 ^ 64)
    (hap : Apart v r buf c) (hm : ∀ i < r, m (v + BitVec.ofNat 64 i) = f i)
    (hdata : ∀ i < c, m (buf + BitVec.ofNat 64 i) = data i) :
    ∀ i < r, copy m (v + BitVec.ofNat 64 k) buf c (v + BitVec.ofNat 64 i) = splice f k c data i := by
  intro i hi
  have hap' : Apart (v + BitVec.ofNat 64 k) c buf c := fun x hx => hap x (hx.of_add hkc hr')
  by_cases hin : Inside k c i
  · obtain ⟨j, hj, rfl⟩ := exists_add_of_inside hin
    rw [splice_add hj, ← hdata j hj, ← copy_add (m := m) (by omega) hap' hj, BitVec.ofNat_add,
      BitVec.add_assoc]
  · rw [splice_of_not_inside hin, ← hm i hi]
    refine copy_of_not_within (by omega) fun hx => hin ?_
    have hc : 0 < c := Nat.pos_of_ne_zero fun h => not_within_zero _ _ (h ▸ hx)
    exact (within_add_add v (by omega) (by omega) hc).1 hx

/-- The pages of the buffer are no pages of the caller's. -/
theorem apart_of_takes (ht : TakesBlock h h₁ (d.bufPages off count) v o)
    (hb : Holds h buf count) : Apart v (d.room off count) buf count.toNat :=
  fun x hx hx' => hb x hx' (ht.mem_free (ht.pageOf_mem hx))

theorem room_le (ht : TakesBlock h h₁ (d.bufPages off count) v o) : d.room off count ≤ 2 ^ 23 := by
  have hle := (le_of_orderFor ht.order).trans (Nat.pow_le_pow_right (by norm_num) ht.order_le)
  rw [room]
  omega

/-- The requests stay in the temporary buffer. -/
structure InRoom (d : BlockDevice) (rd wr : Submission) (off count : U64) : Prop where
  range : (d.delta off).toNat + count.toNat ≤ d.room off count
  reads : rd.blkSubmitSync = 0 →
    d.sectorBytes ((d.nsecs off count).setWidth 32) ≤ d.room off count
  writes : wr.blkSubmitSync = 0 →
    d.sectorBytes ((d.nsecs off count).setWidth 32) ≤ d.room off count

/-- The bytes of the caller's buffer. -/
def bufferBytes (h : Heap) (buf : U64) (i : ℕ) : U8 := h.mem (buf + BitVec.ofNat 64 i)

/-- The device after `blk_write` of the changed buffer. -/
def written (d : BlockDevice) (rd : Submission) (h : Heap) (buf count off : U64) : BlockDevice :=
  let n := (d.nsecs off count).setWidth 32
  let data := splice (d.filled rd (d.startSec off) n) (d.delta off).toNat count.toNat
    (bufferBytes h buf)
  { d with bytes := splice d.bytes (d.sectorByte (d.startSec off)) (d.sectorBytes n) data }

/-- A write whose buffer is there. -/
theorem blkdevWrite_eq (hd : d.ss ≠ 0) (hk : kalloc h (d.bufPages off count) = some (h₁, v))
    (ht : TakesBlock h h₁ (d.bufPages off count) v o) (hb : Holds h buf count)
    (hin : InRoom d rd wr off count) :
    ∃ g, d.blkdevWrite rd wr h buf count off = some (if wr.blkSubmitSync = 0 then
      ⟨g, d.written rd h buf count off, off + count, count⟩ else ⟨g, d, off, -1⟩) := by
  have hroom := room_le ht
  obtain ⟨m, hread, hm, hout⟩ := blkRead_ok (m := h₁.mem) (l := d.startSec off) hin.reads
    (by omega) ht.pattern
  have hdelta : BitVec.ofNat 64 (d.delta off).toNat = d.delta off := by simp
  have hap := apart_of_takes ht hb
  have hrange := hin.range
  have hdata : ∀ i < count.toNat, m (buf + BitVec.ofNat 64 i) = bufferBytes h buf i := by
    intro i hi
    have hw := within_add buf hi count.isLt.le
    rw [hout _ fun hx => hap _ hx hw, ht.agree.mem _ (hb _ hw), bufferBytes]
  have hcopy := copy_into hrange (by omega) hap hm hdata
  rw [hdelta] at hcopy
  have hkeep : ∀ x, pageOf x ∉ (blockAt o v).pages →
      copy m (v + d.delta off) buf count.toNat x = h₁.mem x := by
    intro x hx
    have hx' : ¬Within x v (d.room off count) := fun h => hx (ht.pageOf_mem h)
    rw [copy_of_not_within count.isLt.le, hout x hx']
    intro h
    rw [← hdelta] at h
    exact hx' (h.of_add hrange (by omega))
  obtain ⟨g, hfree, -⟩ := ht.kfree { h₁ with mem := copy m (v + d.delta off) buf count.toNat }
    rfl rfl hkeep
  refine ⟨g, ?_⟩
  rw [blkdevWrite, if_neg hd, hk, Option.bind_some]
  dsimp only
  rw [if_neg ht.ne_zero, hread, Option.bind_some]
  dsimp only
  rw [if_pos hrange, blkWrite]
  by_cases hw : wr.blkSubmitSync = 0
  · rw [if_neg (not_not.2 hw), if_pos (hin.writes hw), if_pos hw, Option.bind_some, hfree,
      Option.map_some]
    have hbytes := splice_congr (D := d.bytes) (a := d.sectorByte (d.startSec off)) fun i hi =>
      hcopy i (lt_of_lt_of_le hi (hin.writes hw))
    rw [written, ← hbytes]
    rfl
  · rw [if_pos hw, if_neg hw, Option.bind_some, hfree, Option.map_some]
    dsimp only
    rw [if_pos hw]

/-- A read whose transfer succeeds and has the whole range. -/
theorem blkdevRead_eq (hd : d.ss ≠ 0) (hk : kalloc h (d.bufPages off count) = some (h₁, v))
    (ht : TakesBlock h h₁ (d.bufPages off count) v o) (hb : Holds h buf count)
    (hrd : rd.blkSubmitSync = 0)
    (hroom : d.sectorBytes ((d.nsecs off count).setWidth 32) ≤ d.room off count)
    (havail : count ≤ d.nsecs off count * d.ss - d.delta off)
    (hrange : (d.delta off).toNat + count.toNat ≤ d.sectorBytes ((d.nsecs off count).setWidth 32)) :
    ∃ g, d.blkdevRead rd h buf count off = some ⟨g, d, off + count, count⟩ ∧
      ∀ i < count.toNat, g.mem (buf + BitVec.ofNat 64 i) = d.bytes (off.toNat + i) := by
  have hsmall := room_le ht
  obtain ⟨m, hread, hm, hout⟩ := blkRead_ok (m := h₁.mem) (l := d.startSec off)
    (fun _ => hroom) (by omega) ht.pattern
  have hdelta : BitVec.ofNat 64 (d.delta off).toNat = d.delta off := by simp
  have hap := apart_of_takes ht hb
  have hap' : Apart buf count.toNat (v + d.delta off) count.toNat := fun x hx hx' => by
    rw [← hdelta] at hx'
    exact hap x (hx'.of_add (hrange.trans hroom) (by omega)) hx
  have hkeep : ∀ x, pageOf x ∈ h₁.freePages →
      copy m buf (v + d.delta off) count.toNat x = h₁.mem x := by
    intro x hx
    rw [ht.free] at hx
    rw [copy_of_not_within count.isLt.le fun h => hb x h hx.1,
      hout x fun h => hx.2 (ht.pageOf_mem h)]
  obtain ⟨g, hfree, -, -, hag⟩ :=
    ht.release { h₁ with mem := copy m buf (v + d.delta off) count.toNat } rfl rfl hkeep
  have hif : (if d.nsecs off count * d.ss - d.delta off > count then count
      else d.nsecs off count * d.ss - d.delta off) = count := by
    split_ifs with h
    · rfl
    · exact BitVec.le_antisymm (BitVec.not_lt.1 h) havail
  refine ⟨g, ?_, fun i hi => ?_⟩
  · rw [blkdevRead, if_neg hd, hk, Option.bind_some]
    dsimp only
    rw [if_neg ht.ne_zero, hread, Option.bind_some]
    dsimp only
    rw [if_neg (not_not.2 hrd), hif, if_pos (hrange.trans hroom), hfree, Option.map_some]
  · have hin : (d.delta off).toNat + i < d.sectorBytes ((d.nsecs off count).setWidth 32) := by omega
    rw [hag.mem _ (hb _ (within_add buf hi count.isLt.le))]
    dsimp only
    rw [copy_add count.isLt.le hap' hi, ← hdelta, BitVec.add_assoc, ← BitVec.ofNat_add,
      hm _ (hin.trans_le hroom), filled_of_ok hrd hin, ← Nat.add_assoc, d.sectorByte_add_delta]

end Buffer

/-! ## Requests whose transfers succeed -/

/-- A call of `blkdev_read` or `blkdev_write` : the memory, the transfers and the arguments. -/
structure Io where
  rd : Submission
  wr : Submission
  heap : Heap
  buf : U64
  count : U64
  off : U64

/-- The number of sectors that a range of the device touches. -/
def sectorsTouched (off count : U64) : ℕ :=
  (off.toNat + count.toNat + d.sectorSize.toNat - 1) / d.sectorSize.toNat -
    off.toNat / d.sectorSize.toNat

/-- The transfers succeed, there is memory for the temporary buffer, and the caller's own buffer is
no free memory. -/
structure Io.Ready (c : Io) (d : BlockDevice) : Prop where
  sector_pos : 0 < d.sectorSize.toNat
  bound : c.off.toNat + c.count.toNat + d.sectorSize.toNat < 2 ^ 64
  sectors : d.sectorsTouched c.off c.count < 2 ^ 32
  sound : c.heap.Sound
  holds : Holds c.heap c.buf c.count
  memory : ¬c.heap.Lacks (d.bufPages c.off c.count)
  reads : c.rd.blkSubmitSync = 0
  writes : c.wr.blkSubmitSync = 0

/-- `blkdev_read` with these arguments. -/
def Io.read (c : Io) (d : BlockDevice) : Option BlkReturn :=
  d.blkdevRead c.rd c.heap c.buf c.count c.off

/-- `blkdev_write` with these arguments. -/
def Io.write (c : Io) (d : BlockDevice) : Option BlkReturn :=
  d.blkdevWrite c.rd c.wr c.heap c.buf c.count c.off

/-- The bytes of the caller's buffer, for the range. -/
def Io.patch (c : Io) : Patch U8 := ⟨c.off.toNat, c.count.toNat, bufferBytes c.heap c.buf⟩

/-- The device after several writes. -/
def writeAll (d : BlockDevice) (cs : List Io) : Option BlockDevice :=
  cs.foldlM (fun d c => (c.write d).map BlkReturn.device) d

section Ready

variable {d} {c : Io} {cs : List Io}

theorem sectors_lt (hs : 0 < d.sectorSize.toNat) (hn : d.sectorsTouched off count < 2 ^ 32) :
    d.sectorsTouched off count * d.sectorSize.toNat + 4096 < 2 ^ 64 := by
  have hle : d.sectorsTouched off count ≤ 2 ^ 32 - 1 := by omega
  have hlt : d.sectorSize.toNat ≤ 2 ^ 32 - 1 := by
    have := d.sectorSize.isLt
    omega
  have := Nat.mul_le_mul hle hlt
  omega

theorem Io.Ready.nsecs_toNat (h : c.Ready d) :
    (d.nsecs c.off c.count).toNat = d.sectorsTouched c.off c.count := by
  obtain ⟨hs, hb, -⟩ := h
  have hsum : (c.off + c.count + d.ss - 1).toNat =
      c.off.toNat + c.count.toNat + d.sectorSize.toNat - 1 := by
    have h1 : (c.off + c.count + d.ss).toNat =
        c.off.toNat + c.count.toNat + d.sectorSize.toNat := by
      rw [BitVec.toNat_add, BitVec.toNat_add, d.ss_toNat, Nat.mod_eq_of_lt (by omega),
        Nat.mod_eq_of_lt (by omega)]
    rw [BitVec.toNat_sub_of_le (by rw [BitVec.le_def, h1]; change 1 ≤ _; omega), h1]
    rfl
  have hle : d.startSec c.off ≤ d.endSec c.off c.count := by
    rw [BitVec.le_def, d.startSec_toNat, endSec, BitVec.toNat_udiv, hsum, d.ss_toNat]
    exact Nat.div_le_div_right (by omega)
  rw [nsecs, BitVec.toNat_sub_of_le hle, endSec, BitVec.toNat_udiv, hsum, d.ss_toNat,
    d.startSec_toNat, sectorsTouched]

theorem Io.Ready.sectorBytes (h : c.Ready d) :
    d.sectorBytes ((d.nsecs c.off c.count).setWidth 32) =
      d.sectorsTouched c.off c.count * d.sectorSize.toNat := by
  rw [BlockDevice.sectorBytes, BitVec.toNat_setWidth, h.nsecs_toNat, Nat.mod_eq_of_lt h.sectors]

theorem Io.Ready.bytes_toNat (h : c.Ready d) : (d.nsecs c.off c.count * d.ss).toNat =
    d.sectorsTouched c.off c.count * d.sectorSize.toNat := by
  have := sectors_lt h.sector_pos h.sectors
  rw [BitVec.toNat_mul, h.nsecs_toNat, d.ss_toNat, Nat.mod_eq_of_lt (by omega)]

/-- The sectors are in the temporary buffer. -/
theorem Io.Ready.le_room (h : c.Ready d) :
    d.sectorBytes ((d.nsecs c.off c.count).setWidth 32) ≤ d.room c.off c.count := by
  have hlt := sectors_lt h.sector_pos h.sectors
  have hsum : (d.nsecs c.off c.count * d.ss + pageSize - 1).toNat =
      d.sectorsTouched c.off c.count * d.sectorSize.toNat + 4095 := by
    have h1 : (d.nsecs c.off c.count * d.ss + pageSize).toNat =
        d.sectorsTouched c.off c.count * d.sectorSize.toNat + 4096 := by
      rw [BitVec.toNat_add, h.bytes_toNat, pageSize_toNat, Nat.mod_eq_of_lt hlt]
    rw [BitVec.toNat_sub_of_le (by rw [BitVec.le_def, h1]; change 1 ≤ _; omega), h1]
    rfl
  have hpages : (d.nsecs c.off c.count * d.ss + pageSize - 1) / pageSize ≤
      d.bufPages c.off c.count := by
    rw [bufPages]
    split_ifs with h0
    · rw [h0]
      exact BitVec.le_def.2 (Nat.zero_le _)
    · exact BitVec.le_refl _
  rw [BitVec.le_def, BitVec.toNat_udiv, hsum, pageSize_toNat] at hpages
  rw [h.sectorBytes, room]
  omega

/-- The range is in its sectors. -/
theorem Io.Ready.range_le (h : c.Ready d) : (d.delta c.off).toNat + c.count.toNat ≤
    d.sectorBytes ((d.nsecs c.off c.count).setWidth 32) := by
  rw [h.sectorBytes, sectorsTouched, sectors_eq h.sector_pos, d.delta_toNat]
  exact le_sectors_mul h.sector_pos

theorem Io.Ready.inRoom (h : c.Ready d) : InRoom d c.rd c.wr c.off c.count :=
  ⟨h.range_le.trans h.le_room, fun _ => h.le_room, fun _ => h.le_room⟩

theorem Io.Ready.ss_ne (h : c.Ready d) : d.ss ≠ 0 := fun h0 =>
  absurd (d.ss_eq_zero_iff.1 h0) (Nat.pos_iff_ne_zero.1 h.sector_pos)

theorem bufPages_ne_zero : d.bufPages off count ≠ 0 := fun h => by
  have := @bufPages_toNat_pos d off count
  rw [h] at this
  exact lt_irrefl _ this

theorem Io.Ready.exists_block (h : c.Ready d) : ∃ h₁ v o,
    kalloc c.heap (d.bufPages c.off c.count) = some (h₁, v) ∧
      TakesBlock c.heap h₁ (d.bufPages c.off c.count) v o := by
  have hn : (d.bufPages c.off c.count).toNat ≤ 2 ^ 63 := bufPages_le
  rcases kalloc_block h.sound hn with ⟨-, h0 | hl⟩ | hk
  · exact absurd h0 bufPages_ne_zero
  · exact absurd hl h.memory
  · exact hk

/-- Only the size of the sectors matters. -/
theorem Io.Ready.congr {d' : BlockDevice} (h : c.Ready d) (he : d'.sectorSize = d.sectorSize) :
    c.Ready d' := by
  obtain ⟨ss, bytes⟩ := d
  obtain ⟨ss', bytes'⟩ := d'
  subst he
  exact ⟨h.sector_pos, h.bound, h.sectors, h.sound, h.holds, h.memory, h.reads, h.writes⟩

theorem Io.Ready.result (h : c.Ready d) : c.count.toInt = c.count.toNat ∧
    (c.off + c.count).toNat = c.off.toNat + c.count.toNat := by
  obtain ⟨h₁, v, o, -, ht⟩ := h.exists_block
  have hroom := room_le ht
  have hrange := h.range_le.trans h.le_room
  have hb := h.bound
  refine ⟨BitVec.toInt_eq_toNat_of_lt (by omega), ?_⟩
  rw [BitVec.toNat_add, Nat.mod_eq_of_lt (by omega)]

/-- The sectors of the range are read, changed and written back. -/
theorem Io.Ready.written (h : c.Ready d) : d.written c.rd c.heap c.buf c.count c.off =
    { d with bytes := c.patch.apply d.bytes } := by
  refine congrArg (BlockDevice.mk d.sectorSize) ?_
  rw [Patch.apply, Io.patch, ← d.sectorByte_add_delta c.off, ← splice_splice h.range_le]
  refine splice_congr fun i hi => ?_
  by_cases hin : Inside (d.delta c.off).toNat c.count.toNat i
  · obtain ⟨j, hj, rfl⟩ := exists_add_of_inside hin
    rw [splice_add hj, splice_add hj]
  · rw [splice_of_not_inside hin, splice_of_not_inside hin, filled_of_ok h.reads hi]

theorem Io.Ready.write (h : c.Ready d) : ∃ g, c.write d =
    some ⟨g, { d with bytes := c.patch.apply d.bytes }, c.off + c.count, c.count⟩ := by
  obtain ⟨h₁, v, o, hk, ht⟩ := h.exists_block
  obtain ⟨g, hg⟩ := blkdevWrite_eq h.ss_ne hk ht h.holds h.inRoom
  exact ⟨g, by rw [Io.write, hg, if_pos h.writes, h.written]⟩

theorem Io.Ready.read (h : c.Ready d) : ∃ g, c.read d = some ⟨g, d, c.off + c.count, c.count⟩ ∧
    ∀ i < c.count.toNat, g.mem (c.buf + BitVec.ofNat 64 i) = d.bytes (c.off.toNat + i) := by
  obtain ⟨h₁, v, o, hk, ht⟩ := h.exists_block
  refine blkdevRead_eq h.ss_ne hk ht h.holds h.reads h.le_room ?_ h.range_le
  have hrange := h.range_le
  rw [h.sectorBytes, ← h.bytes_toNat] at hrange
  rw [BitVec.le_def, BitVec.toNat_sub_of_le (BitVec.le_def.2 (by omega))]
  omega

/-- Writes are patches of the device, one after the other. -/
theorem writeAll_eq : ∀ {cs : List Io} {d : BlockDevice}, (∀ c ∈ cs, c.Ready d) →
    writeAll d cs = some { d with bytes := applyAll d.bytes (cs.map Io.patch) }
  | [], _, _ => rfl
  | c :: cs, d, h => by
    obtain ⟨g, hw⟩ := (h c List.mem_cons_self).write
    have htail : ∀ w ∈ cs, w.Ready { d with bytes := c.patch.apply d.bytes } := fun w hw =>
      (h w (List.mem_cons_of_mem _ hw)).congr rfl
    rw [writeAll, List.foldlM_cons, hw]
    exact writeAll_eq htail

end Ready

/-- A device whose transfers succeed is an array of bytes. A write changes the bytes of its range to
those of the buffer, a read fetches the bytes of its range, and both return the length and move the
position by it. So a read after any writes gets the last byte written to each place. Each call may
find the memory as it likes. -/
theorem blkdev_is_byte_array (d : BlockDevice) :
    (∀ c : Io, c.Ready d → ∃ r, c.write d = some r ∧ r.result.toInt = c.count.toNat ∧
      r.pos.toNat = c.off.toNat + c.count.toNat ∧ r.device = { d with
        bytes := splice d.bytes c.off.toNat c.count.toNat (bufferBytes c.heap c.buf) }) ∧
    (∀ c : Io, c.Ready d → ∃ r, c.read d = some r ∧ r.result.toInt = c.count.toNat ∧
      r.pos.toNat = c.off.toNat + c.count.toNat ∧ r.device = d ∧
      ∀ i < c.count.toNat, bufferBytes r.heap c.buf i = d.bytes (c.off.toNat + i)) ∧
    ∀ (cs : List Io) (c : Io), (∀ w ∈ cs, w.Ready d) → c.Ready d → ∃ d' r,
      writeAll d cs = some d' ∧ c.read d' = some r ∧ ∀ i < c.count.toNat,
        bufferBytes r.heap c.buf i = latest d.bytes (cs.map Io.patch) (c.off.toNat + i) := by
  refine ⟨fun c h => ?_, fun c h => ?_, fun cs c hcs h => ?_⟩
  · obtain ⟨g, hw⟩ := h.write
    exact ⟨_, hw, h.result.1, h.result.2, rfl⟩
  · obtain ⟨g, hr, hbytes⟩ := h.read
    exact ⟨_, hr, h.result.1, h.result.2, rfl, hbytes⟩
  · have h' : c.Ready { d with bytes := applyAll d.bytes (cs.map Io.patch) } := h.congr rfl
    obtain ⟨g, hr, hbytes⟩ := h'.read
    refine ⟨_, _, writeAll_eq hcs, hr, fun i hi => ?_⟩
    rw [← applyAll_eq]
    exact hbytes i hi

/-- A heap after boot, with memory for one page and a buffer of zeros at `0x1000`. -/
theorem exists_idle_heap : ∃ h : Heap, h.Sound ∧ ¬h.Lacks 1 ∧
    (∀ count : U64, count.toNat ≤ 4096 → Holds h 0x1000 count) ∧
    ∀ i < 4096, bufferBytes h 0x1000 i = 0 := by
  obtain ⟨h, -, hs, hcard, hag, hbounds⟩ := exists_boot_heap_of (n := 16) (by norm_num)
  have hlow : ∀ {x : U64} {n : ℕ}, n ≤ 4096 → Within x 0x1000 n → pageOf x ∉ h.freePages := by
    intro x n hn hx hfree
    have hw := ((within_iff (by change 4096 + n ≤ _; omega)).1 hx).2
    have hb := (hbounds _ hfree).1
    change x.toNat < 4096 + n at hw
    unfold pageOf at hb
    omega
  refine ⟨h, hs, fun hl => ?_, fun count hc x hx => hlow hc hx, fun i hi => ?_⟩
  · rcases kalloc_one hs with ⟨-, hnone⟩ | ⟨h', v, hk, ht⟩
    · rw [hnone, Set.ncard_empty] at hcard
      cases hcard
    · have hzero := hk.symm.trans (kalloc_of_lacks (by decide) hl)
      exact ht.ne_zero (Prod.mk.inj (Option.some.inj hzero)).2
  · exact hag.mem _ (hlow le_rfl (within_add _ hi (by norm_num)))

/-- A disk of sectors of 512 bytes whose bytes are the last digits of their places. -/
def sampleDisk : BlockDevice := ⟨512, fun i => BitVec.ofNat 8 i⟩

/-- A write of the bytes 1000 to 1099, then a read of the bytes 1050 to 1149. -/
theorem blkdev_is_byte_array_sample : ∃ (w c : Io) (d' : BlockDevice) (r : BlkReturn),
    w.off = 1000 ∧ w.count = 100 ∧ c.off = 1050 ∧ c.count = 100 ∧
      writeAll sampleDisk [w] = some d' ∧ c.read d' = some r ∧
      bufferBytes r.heap c.buf 0 = 0 ∧ bufferBytes r.heap c.buf 50 = 76 := by
  obtain ⟨h, hs, hmem, hheld, hzero⟩ := exists_idle_heap
  have hready : ∀ off : U64, off.toNat + 100 + 512 < 2 ^ 64 →
      sampleDisk.sectorsTouched off 100 < 2 ^ 32 → sampleDisk.bufPages off 100 = 1 →
      Io.Ready ⟨⟨0, 0⟩, ⟨0, 0⟩, h, 0x1000, 100, off⟩ sampleDisk := fun off hbound hsec hpages =>
    ⟨by decide, hbound, hsec, hs, hheld 100 (by decide), hpages ▸ hmem, rfl, rfl⟩
  have hw := hready 1000 (by decide) (by decide) (by decide)
  have hc := hready 1050 (by decide) (by decide) (by decide)
  obtain ⟨d', r, hd', hr, hbytes⟩ := (blkdev_is_byte_array sampleDisk).2.2 [_] _
    (List.forall_mem_singleton.2 hw) hc
  have hlatest := fun x => latest_append_single sampleDisk.bytes []
    (Io.patch ⟨⟨0, 0⟩, ⟨0, 0⟩, h, 0x1000, 100, 1000⟩) x
  refine ⟨_, _, d', r, rfl, rfl, rfl, rfl, hd', hr, ?_, ?_⟩
  · refine (hbytes 0 (show 0 < 100 by norm_num)).trans ((hlatest 1050).trans ?_)
    exact (if_pos (show 1000 ≤ 1050 ∧ 1050 < 1000 + 100 by norm_num)).trans (hzero 50 (by norm_num))
  · refine (hbytes 50 (show 50 < 100 by norm_num)).trans ((hlatest 1100).trans ?_)
    exact if_neg (show ¬(1000 ≤ 1100 ∧ 1100 < 1000 + 100) by norm_num)

/-! ## Transfers that fail -/

section Failures

variable {d} {rd wr : Submission} {h h₁ : Heap} {buf v : U64} {o : ℕ}

theorem blkdevWrite_of_lacks (hd : d.ss ≠ 0) (hl : h.Lacks (d.bufPages off count)) :
    d.blkdevWrite rd wr h buf count off = some ⟨h, d, off, vfsENOMEM⟩ := by
  rw [blkdevWrite, if_neg hd, kalloc_of_lacks bufPages_le hl, Option.bind_some]
  exact if_pos rfl

/-- A request that does not stay in the temporary buffer. -/
theorem blkdevWrite_none (hk : kalloc h (d.bufPages off count) = some (h₁, v)) (hv : v ≠ 0)
    (hin : ¬InRoom d rd wr off count) : d.blkdevWrite rd wr h buf count off = none := by
  by_cases hd : d.ss = 0
  · exact if_pos hd
  rw [blkdevWrite, if_neg hd, hk, Option.bind_some]
  dsimp only
  rw [if_neg hv]
  by_cases hread : rd.blkSubmitSync = 0 →
      d.sectorBytes ((d.nsecs off count).setWidth 32) ≤ d.room off count
  · refine Option.bind_eq_none_iff.2 fun ⟨m, rc⟩ _ => ?_
    dsimp only
    by_cases hrange : (d.delta off).toNat + count.toNat ≤ d.room off count
    · have hwrite : ¬(wr.blkSubmitSync = 0 →
          d.sectorBytes ((d.nsecs off count).setWidth 32) ≤ d.room off count) := fun hw =>
        hin ⟨hrange, hread, hw⟩
      obtain ⟨h0, hlt⟩ := Classical.not_imp.1 hwrite
      rw [if_pos hrange, blkWrite, if_neg (not_not.2 h0), if_neg hlt]
      rfl
    · exact if_neg hrange
  · obtain ⟨h0, hlt⟩ := Classical.not_imp.1 hread
    rw [blkRead_none h0 (Nat.lt_of_not_le hlt)]
    rfl

/-- The sectors of a request. -/
def InSectors (d : BlockDevice) (off count : U64) (x : ℕ) : Prop :=
  Inside (d.sectorByte (d.startSec off)) (d.sectorBytes ((d.nsecs off count).setWidth 32)) x

/-- The write-back keeps the bytes around the range just if they were read, or are the pattern of
`kalloc`. -/
theorem written_keeps_iff : (∀ x, ¬Inside off.toNat count.toNat x →
      (d.written rd h buf count off).bytes x = d.bytes x) ↔
    (rd.blkSubmitSync = 0 ∨
      ∀ x, d.InSectors off count x → ¬Inside off.toNat count.toNat x → d.bytes x = 5) := by
  rw [← d.sectorByte_add_delta off]
  refine splice_keeps_iff.trans ?_
  by_cases h0 : rd.blkSubmitSync = 0
  · exact ⟨fun _ => Or.inl h0, fun _ i hi _ => filled_of_ok h0 hi⟩
  · constructor
    · intro hkeep
      refine Or.inr fun x hx hout => ?_
      obtain ⟨i, hi, rfl⟩ := exists_add_of_inside hx
      rw [← hkeep i hi fun h => hout (inside_add_add_iff.2 h), filled_of_failed h0]
    · rintro (h | hpat) i hi hout
      · exact absurd h h0
      · rw [filled_of_failed h0, hpat _ (inside_add_iff.2 hi) fun h => hout (inside_add_add_iff.1 h)]

/-- The write-back writes the range just if the part of it behind the sectors was so before. -/
theorem written_gives_iff : (∀ i < count.toNat,
      (d.written rd h buf count off).bytes (off.toNat + i) = bufferBytes h buf i) ↔
    ∀ i < count.toNat, ¬d.InSectors off count (off.toNat + i) →
      d.bytes (off.toNat + i) = bufferBytes h buf i := by
  rw [← d.sectorByte_add_delta off]
  simp only [Nat.add_assoc, InSectors, inside_add_iff, Nat.not_lt]
  exact splice_gives_iff

/-- The call returns, keeps every byte outside the range, and if it returns the length the range has
the bytes of the buffer. -/
def WriteSafe (d : BlockDevice) (rd wr : Submission) (h : Heap) (buf count off : U64) : Prop :=
  ∃ r, d.blkdevWrite rd wr h buf count off = some r ∧
    (∀ x, ¬Inside off.toNat count.toNat x → r.device.bytes x = d.bytes x) ∧
    (r.result.toInt = count.toNat → ∀ i < count.toNat,
      r.device.bytes (off.toNat + i) = bufferBytes h buf i)

theorem writeSafe_of_lacks (hd : d.ss ≠ 0) (hl : h.Lacks (d.bufPages off count)) :
    WriteSafe d rd wr h buf count off := by
  refine ⟨_, blkdevWrite_of_lacks hd hl, fun _ _ => rfl, fun hres => ?_⟩
  have : (-12 : ℤ) = count.toNat := hres
  omega

/-- With a temporary buffer the range has to be in it, and the write-back must not matter outside
the range. -/
theorem writeSafe_of_takes (hd : d.ss ≠ 0) (hk : kalloc h (d.bufPages off count) = some (h₁, v))
    (ht : TakesBlock h h₁ (d.bufPages off count) v o) (hb : Holds h buf count) :
    WriteSafe d rd wr h buf count off ↔ InRoom d rd wr off count ∧ (wr.blkSubmitSync = 0 →
      (rd.blkSubmitSync = 0 ∨
        ∀ x, d.InSectors off count x → ¬Inside off.toNat count.toNat x → d.bytes x = 5) ∧
      ∀ i < count.toNat, ¬d.InSectors off count (off.toNat + i) →
        d.bytes (off.toNat + i) = bufferBytes h buf i) := by
  by_cases hin : InRoom d rd wr off count
  · obtain ⟨g, hg⟩ := blkdevWrite_eq hd hk ht hb hin
    have hroom := room_le ht
    have hrange := hin.range
    have hcount : count.toInt = count.toNat := BitVec.toInt_eq_toNat_of_lt (by omega)
    rw [WriteSafe, hg]
    constructor
    · rintro ⟨r, he, hkeep, hgive⟩
      obtain rfl := Option.some.inj he
      refine ⟨hin, fun hw => ?_⟩
      rw [if_pos hw] at hkeep hgive
      exact ⟨written_keeps_iff.1 hkeep, written_gives_iff.1 (hgive hcount)⟩
    · rintro ⟨-, hcond⟩
      refine ⟨_, rfl, ?_⟩
      by_cases hw : wr.blkSubmitSync = 0
      · rw [if_pos hw]
        exact ⟨written_keeps_iff.2 (hcond hw).1, fun _ => written_gives_iff.2 (hcond hw).2⟩
      · rw [if_neg hw]
        refine ⟨fun _ _ => rfl, fun hres => ?_⟩
        have : (-1 : ℤ) = count.toNat := hres
        omega
  · refine ⟨fun ⟨r, he, _⟩ => ?_, fun h => absurd h.1 hin⟩
    rw [blkdevWrite_none hk ht.ne_zero hin] at he
    cases he

/-- A block that was taken was there. -/
theorem not_lacks_of_takes (hk : kalloc h (d.bufPages off count) = some (h₁, v)) (hv : v ≠ 0) :
    ¬h.Lacks (d.bufPages off count) := fun hl =>
  hv (Prod.mk.inj (Option.some.inj (hk.symm.trans (kalloc_of_lacks bufPages_le hl)))).2

end Failures

/-- Whatever the transfers do, a write damages nothing and writes what it says just if the sector
size is not 0, and there is no memory for the temporary buffer or the request stays in it and a
write-back that succeeds is harmless : the sectors were read, or their bytes around the range are
the pattern of `kalloc`, and no byte of the range that is behind the sectors had to change. -/
theorem blkdev_write_safe_iff {d : BlockDevice} {rd wr : Submission} {h : Heap} {buf count off : U64}
    (hs : h.Sound) (hb : Holds h buf count) :
    WriteSafe d rd wr h buf count off ↔ d.sectorSize.toNat ≠ 0 ∧
      (h.Lacks (d.bufPages off count) ∨ InRoom d rd wr off count ∧ (wr.blkSubmitSync = 0 →
        (rd.blkSubmitSync = 0 ∨
          ∀ x, d.InSectors off count x → ¬Inside off.toNat count.toNat x → d.bytes x = 5) ∧
        ∀ i < count.toNat, ¬d.InSectors off count (off.toNat + i) →
          d.bytes (off.toNat + i) = bufferBytes h buf i)) := by
  rw [ne_eq, ← d.ss_eq_zero_iff]
  by_cases hd : d.ss = 0
  · refine ⟨fun ⟨r, he, _⟩ => ?_, fun h => absurd hd h.1⟩
    rw [blkdevWrite, if_pos hd] at he
    cases he
  have hn : (d.bufPages off count).toNat ≤ 2 ^ 63 := bufPages_le
  rcases kalloc_block hs hn with ⟨-, h0 | hl⟩ | ⟨h₁, v, o, hk, ht⟩
  · exact absurd h0 bufPages_ne_zero
  · exact ⟨fun _ => ⟨hd, Or.inl hl⟩, fun _ => writeSafe_of_lacks hd hl⟩
  · have hl := not_lacks_of_takes hk ht.ne_zero
    rw [writeSafe_of_takes hd hk ht hb, and_iff_right hd, or_iff_right hl]

theorem blkdev_write_safe_sample : ∃ h : Heap, h.Sound ∧
    WriteSafe sampleDisk ⟨0, 0⟩ ⟨0, 0⟩ h 0x1000 100 1000 := by
  obtain ⟨h, hs, -, hheld, -⟩ := exists_idle_heap
  refine ⟨h, hs, (blkdev_write_safe_iff hs (hheld _ (by decide))).2 ⟨by decide, Or.inr ⟨?_, ?_⟩⟩⟩
  · exact ⟨by decide, fun _ => by decide, fun _ => by decide⟩
  · refine fun _ => ⟨Or.inl rfl, fun i hi hout => absurd ?_ hout⟩
    have hi' : i < 100 := hi
    refine ⟨?_, ?_⟩
    · change 512 ≤ 1000 + i
      omega
    · change 1000 + i < 512 + 1024
      omega

/-- One byte is written to a disk of ones. The read fails, the write does not, and the byte next to
it is the pattern of `kalloc`. -/
theorem neighbours_are_overwritten : ∃ h : Heap, h.Sound ∧ Holds h 0x1000 1 ∧
    (∃ r, blkdevWrite ⟨512, fun _ => 1⟩ ⟨-1, 0⟩ ⟨0, 0⟩ h 0x1000 1 0 = some r ∧ r.result = 1 ∧
      r.device.bytes 1 = 5) ∧
    ¬WriteSafe ⟨512, fun _ => 1⟩ ⟨-1, 0⟩ ⟨0, 0⟩ h 0x1000 1 0 := by
  obtain ⟨h, hs, hmem, hheld, -⟩ := exists_idle_heap
  have hb := hheld 1 (by decide)
  have hn : ((⟨512, fun _ => 1⟩ : BlockDevice).bufPages 0 1).toNat ≤ 2 ^ 63 := bufPages_le
  rcases kalloc_block hs hn with ⟨-, h0 | hl⟩ | ⟨h₁, v, o, hk, ht⟩
  · exact absurd h0 bufPages_ne_zero
  · exact absurd hl hmem
  have hroom : InRoom ⟨512, fun _ => 1⟩ ⟨-1, 0⟩ ⟨0, 0⟩ 0 1 :=
    ⟨by decide, fun _ => by decide, fun _ => by decide⟩
  obtain ⟨g, hg⟩ := blkdevWrite_eq (by decide) hk ht hb hroom
  have hbyte : (written ⟨512, fun _ => 1⟩ ⟨-1, 0⟩ h 0x1000 1 0).bytes 1 = 5 := rfl
  refine ⟨h, hs, hb, ⟨_, hg, rfl, hbyte⟩, fun ⟨r, he, hkeep, _⟩ => ?_⟩
  obtain rfl := Option.some.inj (hg.symm.trans he)
  exact absurd (hbyte.symm.trans (hkeep 1 (by decide))) (by decide)

end BlockDevice

end Jeos
