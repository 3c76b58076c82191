import Jeos.Lib.Extent
import Jeos.Types

/-!
# Transfers of the drivers

What the `read` and `write` operations of `devfs.c`, `ps2.c`, `ext2.c` and `pipe.c` do to the
caller's buffer : they access its first bytes, as many as the driver's state allows, and never
one beyond `count`. A `FileOp` carries this bound, so it holds for whatever a descriptor is
open on.

The state of a driver (positions, sizes, whether a `kalloc` or a block transfer succeeds, how
many bytes a pipe takes) is an argument. The `getattr` operations are given by the fields of
`struct vfs_stat` they fill.
-/

namespace Jeos

/-- A `read` or `write` operation : for each `count`, how many bytes of the buffer it accesses
and the value it returns, if it returns. -/
structure FileOp where
  run : U64 → ℕ × Option U64
  bounded : ∀ count, (run count).1 ≤ count.toNat

namespace FileOp

/-- The operation accesses the bytes it returns the number of. -/
def moves (n : U64 → U64) (h : ∀ count, n count ≤ count) : FileOp where
  run count := ((n count).toNat, some (n count))
  bounded count := BitVec.le_def.1 (h count)

/-- The operation returns without looking at the buffer. -/
def skips (v : U64 → U64) : FileOp where
  run count := (0, some (v count))
  bounded _ := Nat.zero_le _

end FileOp

/-- `if (x > bound) x = bound`. -/
def atMost {w : ℕ} (x bound : BitVec w) : BitVec w := if bound < x then bound else x

theorem atMost_le {w : ℕ} (x bound : BitVec w) : atMost x bound ≤ x := by
  unfold atMost
  split_ifs with h
  · exact BitVec.le_of_lt h
  · exact BitVec.le_refl x

theorem atMost_le_bound {w : ℕ} (x bound : BitVec w) : atMost x bound ≤ bound := by
  unfold atMost
  split_ifs with h
  · exact BitVec.le_refl bound
  · exact BitVec.not_lt.1 h

/-! ## `devfs.c` -/

/-- `null_read`. -/
def nullRead : FileOp := .skips fun _ => 0

/-- `null_write`, which is also the `write` of `/dev/zero`. -/
def nullWrite : FileOp := .skips id

/-- `zero_read`. -/
def zeroRead : FileOp := .moves id fun count => BitVec.le_refl count

/-- `VFS_ENOMEM`. -/
def vfsENOMEM : U64 := -12

/-- The sectors of `ss` bytes a transfer at `off` takes part in. -/
def blkdevSectors (ss : U32) (off count : U64) : U64 :=
  let ss := ss.setWidth 64
  (off + count + ss - 1) / ss - off / ss

/-- `blkdev_read`. -/
def blkdevRead (ss : U32) (off : U64) (tmpOk readOk : Bool) : FileOp :=
  if tmpOk then
    if readOk then
      .moves (fun count =>
        let delta := off - off / ss.setWidth 64 * ss.setWidth 64
        let avail := blkdevSectors ss off count * ss.setWidth 64 - delta
        atMost avail count) fun _ => atMost_le_bound _ _
    else .skips fun _ => -1
  else .skips fun _ => vfsENOMEM

/-- `blkdev_write`. The buffer is copied before the disk is written. -/
def blkdevWrite (tmpOk writeOk : Bool) : FileOp :=
  if tmpOk then
    { run := fun count => (count.toNat, some (if writeOk then count else -1))
      bounded := fun _ => le_refl _ }
  else .skips fun _ => vfsENOMEM

/-- `ring_read` of a ring with `len` bytes. -/
def ringRead (len outCap : U32) : U32 := atMost len outCap

/-- `cons_read` and `kbd_read`, with `KBD_BUF_LEN`. -/
def consRead (len : U32) : FileOp :=
  .moves (fun count => (ringRead len (atMost (count.setWidth 32) 1024)).setWidth 64) fun count => by
    have h := BitVec.le_def.1 (atMost_le_bound len (atMost (count.setWidth 32) 1024))
    have h' := BitVec.le_def.1 (atMost_le (count.setWidth 32) 1024)
    rw [BitVec.le_def, BitVec.toNat_setWidth]
    rw [BitVec.toNat_setWidth] at h'
    exact (Nat.mod_le _ _).trans (h.trans (h'.trans (Nat.mod_le _ _)))

/-- `cons_write`. -/
def consWrite : FileOp := .moves id fun count => BitVec.le_refl count

/-- `if (off + count > size) count = size - off`, for an `off` below `size`. -/
def clip (size off count : U64) : U64 := if size < off + count then size - off else count

theorem clip_le {size off count : U64} (h : off < size) : clip size off count ≤ count := by
  unfold clip
  split_ifs with hc
  · bv_omega
  · exact BitVec.le_refl count

/-- The transfers of a file with `size` bytes, at `off`. -/
def clipped (size off : U64) : FileOp :=
  if h : off < size then .moves (clip size off) fun _ => clip_le h else .skips fun _ => 0

/-- `fb_dev_read` and `fb_dev_write`. -/
def fbDevTransfer (base : Bool) (size off : U64) : FileOp :=
  if base then clipped size off else .skips fun _ => 0

/-- `fbctl_read` of a text of `len` bytes. -/
def fbctlRead (len off : U64) : FileOp :=
  if off < len then .moves (atMost (len - off)) fun _ => atMost_le_bound _ _ else .skips fun _ => 0

/-! ## `ps2.c` -/

/-- `mouse_read`, with `MOUSE_BUF_LEN`. -/
def mouseRead (len : U32) : FileOp :=
  .moves (fun count =>
    (ringRead len (if count < 256 then count.setWidth 32 else 256)).setWidth 64) fun count => by
    have h := BitVec.le_def.1
      (atMost_le_bound len (if count < 256 then count.setWidth 32 else 256))
    rw [BitVec.le_def, BitVec.toNat_setWidth]
    refine (Nat.mod_le _ _).trans (h.trans ?_)
    split_ifs with hc
    · rw [BitVec.toNat_setWidth]
      exact Nat.mod_le _ _
    · exact BitVec.le_def.1 (BitVec.not_lt.1 hc)

/-- `mousectl_read` of a text of `len` bytes. -/
def mousectlRead (len : U32) : FileOp :=
  .moves (atMost (len.setWidth 64)) fun _ => atMost_le_bound _ _

/-- How many bytes the comparisons of `mousectl_write` look at. -/
def mousectlLooks (cmd : ℕ → U8) : ℕ :=
  if cmd 0 = 101 then (if cmd 1 = 110 then 3 else 2)
  else if cmd 0 = 100 then (if cmd 1 = 105 then 3 else 2)
  else 1

theorem mousectlLooks_le (cmd : ℕ → U8) : mousectlLooks cmd ≤ 3 := by
  unfold mousectlLooks
  split_ifs <;> omega

/-- `mousectl_write` of a buffer that starts with `cmd`. -/
def mousectlWrite (cmd : ℕ → U8) : FileOp where
  run count := (if 3 ≤ count.toNat then mousectlLooks cmd else 0, some count)
  bounded count := by
    split_ifs with h
    · exact (mousectlLooks_le cmd).trans h
    · exact Nat.zero_le _

/-! ## `ext2.c` -/

/-- The loop of `ext2_read` : the number of bytes copied. A round copies a byte or more, as the
block size is not 0. -/
def ext2Loop (blockSize : U32) (readable : U32 → Bool) (off count : U64) :
    ℕ → U32 → U64 → U64
  | 0, _, done => done
  | fuel + 1, curBlk, done =>
    if done < count then
      let lbn : U32 := ((off + done) / blockSize.setWidth 64).setWidth 32
      let blkOff : U32 := ((off + done) % blockSize.setWidth 64).setWidth 32
      let chunk := atMost ((blockSize - blkOff).setWidth 64) (count - done)
      if lbn ≠ curBlk ∧ readable lbn = false then done
      else ext2Loop blockSize readable off count fuel lbn (done + chunk)
    else done

theorem ext2Loop_le {blockSize : U32} {readable : U32 → Bool} {off count : U64} :
    ∀ {fuel : ℕ} {curBlk : U32} {done : U64}, done ≤ count →
      ext2Loop blockSize readable off count fuel curBlk done ≤ count
  | 0, _, _, h => h
  | fuel + 1, curBlk, done, h => by
    rw [ext2Loop]
    dsimp only
    split_ifs with hlt hblk
    · exact h
    · refine ext2Loop_le ?_
      have := atMost_le_bound ((blockSize -
        ((off + done) % blockSize.setWidth 64).setWidth 32).setWidth 64) (count - done)
      bv_omega
    · exact h

/-- `ext2_read` of a file with `size` bytes. -/
def ext2Read (size off : U64) (bufOk : Bool) (blockSize : U32) (readable : U32 → Bool) : FileOp :=
  if h : off < size then
    if bufOk then
      .moves (fun count =>
        let count := clip size off count
        ext2Loop blockSize readable off count count.toNat (-1) 0) fun _ =>
          BitVec.le_trans (ext2Loop_le (BitVec.le_def.2 (Nat.zero_le _))) (clip_le h)
    else .skips fun _ => vfsENOMEM
  else .skips fun _ => 0

/-! ## `pipe.c` -/

/-- `pipe_read`, when `n` bytes arrive and then the writers close the pipe, or stay. -/
def pipeReadOp (n : ℕ) (closed : Bool) : FileOp where
  run count :=
    (min n count.toNat,
      if count.toNat ≤ n then some count else if closed then some (BitVec.ofNat 64 n) else none)
  bounded _ := Nat.min_le_right _ _

/-- `pipe_write`, when there is room for `n` bytes and then the readers close the pipe, or
stay. -/
def pipeWriteOp (n : ℕ) (closed : Bool) : FileOp where
  run count :=
    (min n count.toNat, if count.toNat ≤ n then some count else if closed then some (-1) else none)
  bounded _ := Nat.min_le_right _ _

/-! ## `getattr` -/

/-- The fields of `struct vfs_stat`. -/
abbrev vfsStatFields : List CType :=
  [.u64, .u32, .u32, .u32, .u32, .u64, .u64, .u64, .u64, .u64]

/-- `initfs_getattr` and both `getattr` operations of `devfs.c` : `ino`, `mode`, `nlink` and
`size`. -/
def devfsGetattr : List (Fin 10) := [0, 1, 2, 5]

/-- `ext2_getattr`. -/
def ext2Getattr : List (Fin 10) := List.finRange _

end Jeos
