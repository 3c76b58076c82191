import Jeos.Buddy
import Jeos.Lib.Extent

/-!
# The ext2 driver

`ext2.c`, from the blocks of the device up to `ext2_lookup`, `ext2_read`, `ext2_readdir` and
`ext2_mount_fs`, with the sector size that `ahci_parse_identify` finds.

A buffer is a memory of its own, addressed by the offset from its start, with whatever lies
behind its end. `Machine` is what the driver finds : the bytes of the device, what the n-th
`blk_read` returns, and whether the n-th `kalloc` gives a block. A `blk_read` that fails leaves
its buffer as it was, and one that returns 0 fills `count` sectors of it. `kfree` is left out,
since any later `kalloc` may fail.

`none` is a division by zero, a shift by 32 or more, or a loop that does not end.

`Io` counts the reads and the allocations. `accesses` and `tablesOk` record which entries of
the tables and which bytes of a block buffer are used, and whether every read of an indirect
block returned 0. No function reads them.
-/

namespace Jeos

abbrev I32 := BitVec 32
abbrev I64 := BitVec 64

/-- The address of field `k` of a packed structure at `p`. -/
def packedAddr (fs : List CType) (p : U64) (k : ℕ) : U64 :=
  p + BitVec.ofNat 64 (CType.packedOffset fs k)

/-- `info->sector_size` after `ahci_parse_identify(id, info)`. -/
def ahciSectorSize (id : Mem) : U32 :=
  let w106 := ByteMemory.load16 id (106 * 2)
  if w106 &&& 1 <<< 14 ≠ 0 ∧ w106 &&& 1 <<< 15 = 0 then
    if w106 &&& 1 <<< 12 ≠ 0 then ByteMemory.load32 id (117 * 2) * 2 else 512
  else 512

namespace Ext2

open ByteMemory CType

/-! ## `ext2.h` -/

/-- `EXT2_SIGNATURE`. -/
def signature : U16 := 0xEF53

/-- `EXT2_ROOT_INO`. -/
def rootIno : U32 := 2

/-- `VFS_ENOENT`. -/
def enoent : I32 := -2

/-- `VFS_ENOMEM`. -/
def enomem : I32 := -12

/-- `struct ext2_superblock`. -/
def superblock : List CType :=
  [u32, u32, u32, u32, u32, u32, u32, u32, u32, u32, u32, u32, u32, u16, u16, u16, u16, u16, u16,
    u32, u32, u32, u32, u16, u16]

/-- `struct ext2_superblock_ext`. -/
def superblockExt : List CType :=
  [u32, u16, u16, u32, u32, u32, array u8 16, array u8 16, array u8 64, u32]

/-- `struct ext2_bgd`. -/
def bgd : List CType := [u32, u32, u32, u16, u16, u16, u16, array u32 3]

/-- `struct ext2_inode`. -/
def inode : List CType :=
  [u16, u16, u32, u32, u32, u32, u32, u16, u16, u32, u32, u32, array u32 15, u32, u32, u32, u32,
    array u8 12]

/-- `struct ext2_dirent`. -/
def dirent : List CType := [u32, u16, u8, u8, array u8 255]

/-- `struct vfs_dirent`. -/
def vfsDirent : List CType := [u64, u16, u8, array u8 256]

/-- The size of a packed structure. -/
def packedSize (fs : List CType) : ℕ := packedOffset fs fs.length

/-- The fields of a `struct ext2_inode` that are used. -/
structure Ext2Inode where
  mode : U16
  sizeLow : U32
  block : ℕ → U32
  sizeHigh : U32

/-- The inode in the bytes from `p` on. -/
def loadInode (buf : Mem) (p : U64) : Ext2Inode where
  mode := load16 buf (packedAddr inode p 0)
  sizeLow := load32 buf (packedAddr inode p 2)
  block i := load32 buf (packedAddr inode p 12 + BitVec.ofNat 64 (4 * i))
  sizeHigh := load32 buf (packedAddr inode p 15)

/-- The fields of a `struct ext2_dirent` before the name. -/
structure Dirent where
  inode : U32
  recLen : U16
  nameLen : U8
  fileType : U8

/-- The directory entry at `p`. -/
def loadDirent (buf : Mem) (p : U64) : Dirent where
  inode := load32 buf (packedAddr dirent p 0)
  recLen := load16 buf (packedAddr dirent p 1)
  nameLen := buf (packedAddr dirent p 2)
  fileType := buf (packedAddr dirent p 3)

/-! ## The machine -/

/-- The device and the allocator. `behind n` is what follows the block of the n-th `kalloc`. -/
structure Machine where
  sectorSize : U32
  image : ℕ → U8
  status : ℕ → I32
  alloc : ℕ → U64 → Bool
  behind : ℕ → Mem

/-- An entry of a table, or bytes of a block buffer. -/
inductive Access
  | bgdt (i : U32)
  | indirect (i : U32)
  | block (e : Extent 64)

structure Io where
  reads : ℕ
  allocs : ℕ
  accesses : List Access
  tablesOk : Bool

abbrev Ext2M := StateT Io Option

/-- Record an access. -/
def access (a : Access) : Ext2M Unit := fun s =>
  some ((), { s with accesses := a :: s.accesses })

/-- `a / b`. -/
def div {w : ℕ} (a b : BitVec w) : Ext2M (BitVec w) := fun s =>
  if b = 0 then none else some (a / b, s)

/-- `a % b`. -/
def mod {w : ℕ} (a b : BitVec w) : Ext2M (BitVec w) := fun s =>
  if b = 0 then none else some (a % b, s)

/-- `a << b`. -/
def shiftLeft (a b : U32) : Ext2M U32 := fun s =>
  if b < 32 then some (a <<< b, s) else none

section Driver

variable (m : Machine)

/-- `kalloc(npages)` : a block filled with `MEM_ALLOC_PATTERN`. -/
def kalloc (npages : U64) : Ext2M (Option Mem) := fun s =>
  some (if m.alloc s.allocs npages then
      some (fill (m.behind s.allocs) 0 5 (npages * pageSize).toNat)
    else none, { s with allocs := s.allocs + 1 })

/-- The buffer after `count` sectors were read to it. -/
def sectors (lba : U64) (count : U32) (buf : Mem) : Mem := fun x =>
  if x.toNat < count.toNat * m.sectorSize.toNat then
    m.image (lba.toNat * m.sectorSize.toNat + x.toNat)
  else buf x

/-- `blk_read(dev, lba, count, buf)`. -/
def blkRead (lba : U64) (count : U32) (buf : Mem) : Ext2M (I32 × Mem) := fun s =>
  some ((m.status s.reads, if m.status s.reads = 0 then sectors m lba count buf else buf),
    { s with reads := s.reads + 1 })

/-! ## Blocks and inodes -/

/-- `struct ext2_priv`, without the device. -/
structure Ext2Priv where
  blockSize : U32
  blocksPerGroup : U32
  inodesPerGroup : U32
  inodeSize : U32
  numGroups : U32
  firstInode : U32
  bgdt : Mem
  bgdtPages : U32

variable (p : Ext2Priv)

/-- `ext2_read_block`. -/
def ext2ReadBlock (blkno : U32) (buf : Mem) : Ext2M (I32 × Mem) := do
  let spb ← div p.blockSize m.sectorSize
  blkRead m (blkno.setWidth 64 * spb.setWidth 64) spb buf

/-- `p->bgdt[grp].inode_table`. -/
def inodeTable (grp : U32) : U32 :=
  load32 p.bgdt (packedAddr bgd (BitVec.ofNat 64 (grp.toNat * packedSize bgd)) 2)

/-- `ext2_read_inode` : the inode, or a return value that is not 0. -/
def ext2ReadInode (ino : U32) : Ext2M (Except I32 Ext2Inode) := do
  if ino = 0 then pure (.error (-1))
  else
    let grp ← div (ino - 1) p.inodesPerGroup
    let idx ← mod (ino - 1) p.inodesPerGroup
    access (.bgdt grp)
    let itbl := inodeTable p grp
    let byteOff := idx * p.inodeSize
    let blkOff ← div byteOff p.blockSize
    let offInBlk ← mod byteOff p.blockSize
    match ← kalloc m 1 with
    | none => pure (.error (-1))
    | some buf =>
      let (rc, buf) ← ext2ReadBlock m p (itbl + blkOff) buf
      if rc = 0 then
        access (.block ⟨offInBlk.setWidth 64, packedSize inode⟩)
        pure (.ok (loadInode buf (offInBlk.setWidth 64)))
      else pure (.error rc)

/-- `if (!tbl) return 0; buf = kalloc(1); if (!buf) return 0; ext2_read_block(p, tbl, buf);`
`... = buf[i];` where `i` is computed last. -/
def tableEntry (tbl : U32) (i : Ext2M U32) : Ext2M U32 := do
  if tbl = 0 then pure 0
  else
    match ← kalloc m 1 with
    | none => pure 0
    | some buf =>
      let (rc, buf) ← ext2ReadBlock m p tbl buf
      modify fun s => { s with tablesOk := s.tablesOk && rc = 0 }
      let i ← i
      access (.indirect i)
      pure (load32 buf (BitVec.ofNat 64 (4 * i.toNat)))

/-- `ext2_block_map`. -/
def ext2BlockMap (ei : Ext2Inode) (lbn : U32) : Ext2M U32 := do
  let ptrs := p.blockSize / 4
  if lbn < 12 then pure (ei.block lbn.toNat)
  else
    let lbn := lbn - 12
    if lbn < ptrs then tableEntry m p (ei.block 12) (pure lbn)
    else
      let lbn := lbn - ptrs
      if lbn < ptrs * ptrs then
        let l1 ← tableEntry m p (ei.block 13) (div lbn ptrs)
        tableEntry m p l1 (mod lbn ptrs)
      else
        let lbn := lbn - ptrs * ptrs
        let l1 ← tableEntry m p (ei.block 14) (div lbn (ptrs * ptrs))
        let l2 ← tableEntry m p l1 do mod (← div lbn ptrs) ptrs
        tableEntry m p l2 (mod lbn ptrs)

/-- `if (lbn != cur_blk) { phys = ext2_block_map(...); if (!phys) break;`
`if (ext2_read_block(priv, phys, buf) != 0) break; cur_blk = lbn; }` where `none` is the `break`. -/
def cacheBlock (ei : Ext2Inode) (lbn curBlk : U32) (buf : Mem) : Ext2M (Option Mem) := do
  if lbn = curBlk then pure (some buf)
  else
    let phys ← ext2BlockMap m p ei lbn
    if phys = 0 then pure none
    else
      let (rc, buf) ← ext2ReadBlock m p phys buf
      if rc = 0 then pure (some buf) else pure none

/-! ## Files and directories -/

/-- `ext2_vfs_mode`, where the types have the same bits in `vfs.h`. -/
def ext2VfsMode (mode : U16) : U32 :=
  let type := mode &&& 0xF000
  let type := if type ∈ ([0x8000, 0x4000, 0xA000, 0x2000, 0x6000, 0x1000, 0xC000] : List U16) then
      type else 0
  (type ||| mode &&& 0x0FFF).setWidth 32

/-- The fields of the `struct vfs_inode` that `ext2_make_vfs_inode` sets and that differ between
inodes. -/
structure VfsInode where
  ino : U64
  mode : U32
  priv : Ext2Inode

/-- `ext2_make_vfs_inode`. -/
def ext2MakeVfsInode (inoNum : U32) (ei : Ext2Inode) : Ext2M (Option VfsInode) := do
  match ← kalloc m 1 with
  | none => pure none
  | some _ =>
    match ← kalloc m 1 with
    | none => pure none
    | some _ => pure (some ⟨inoNum.setWidth 64, ext2VfsMode ei.mode, ei⟩)

/-- `for (u8 i = 0; i < de->name_len; i++)` with at most the given number of rounds. -/
def matchName (buf : Mem) (start : U64) (nameLen : U8) (name : List U8) : ℕ → U8 → Ext2M Bool
  | 0, _ => fun _ => none
  | n + 1, i => do
    if i < nameLen then
      access (.block ⟨start + i.setWidth 64, 1⟩)
      if buf (start + i.setWidth 64) ≠ name.getD i.toNat 0 then pure false
      else matchName buf start nameLen name n (i + 1)
    else pure true

/-- The loop of `ext2_lookup` : the result, and `child->inode` if it is set. -/
def lookupLoop (dei : Ext2Inode) (name : List U8) :
    ℕ → U32 → U32 → Mem → Ext2M (I32 × Option VfsInode)
  | 0, _, _, _ => fun _ => none
  | n + 1, curBlk, offset, buf => do
    if offset < dei.sizeLow then
      let lbn ← div offset p.blockSize
      let offBlk := (← mod offset p.blockSize).setWidth 64
      match ← cacheBlock m p dei lbn curBlk buf with
      | none => pure (enoent, none)
      | some buf =>
        access (.block ⟨offBlk, 8⟩)
        let de := loadDirent buf offBlk
        if de.recLen < 8 then pure (enoent, none)
        else
          let found ← if de.inode ≠ 0 ∧ de.nameLen.toNat = name.length then
              matchName buf (offBlk + 8) de.nameLen name 256 0
            else pure false
          if found then
            match ← ext2ReadInode m p de.inode with
            | .error _ => pure (-1, none)
            | .ok ei =>
              match ← ext2MakeVfsInode m de.inode ei with
              | none => pure (enomem, none)
              | some vino => pure (0, some vino)
          else lookupLoop dei name n lbn (offset + de.recLen.setWidth 32) buf
    else pure (enoent, none)

/-- `ext2_lookup` for the child with this name. -/
def ext2Lookup (dei : Ext2Inode) (name : List U8) : Ext2M (I32 × Option VfsInode) := do
  match ← kalloc m 1 with
  | none => pure (enomem, none)
  | some buf => lookupLoop m p dei name loopFuel (-1) 0 buf

/-- `(u64)ei->size_low | ((u64)ei->size_high << 32)`. -/
def Ext2Inode.size (ei : Ext2Inode) : U64 :=
  ei.sizeLow.setWidth 64 ||| ei.sizeHigh.setWidth 64 <<< 32

/-- The loop of `ext2_read`, with `out` addressed from `buf` on. -/
def readLoop (ei : Ext2Inode) (off count : U64) :
    ℕ → U64 → U32 → Mem → Mem → Ext2M (U64 × Mem)
  | 0, _, _, _, _ => fun _ => none
  | n + 1, done, curBlk, blkBuf, out => do
    if done < count then
      let lbn := (← div (off + done) (p.blockSize.setWidth 64)).setWidth 32
      let blkOff : U32 := (← mod (off + done) (p.blockSize.setWidth 64)).setWidth 32
      let chunk : U64 := (p.blockSize - blkOff).setWidth 64
      let chunk := if chunk > count - done then count - done else chunk
      match ← cacheBlock m p ei lbn curBlk blkBuf with
      | none => pure (done, out)
      | some blkBuf =>
        access (.block ⟨blkOff.setWidth 64, chunk.toNat⟩)
        readLoop ei off count n (done + chunk) lbn blkBuf
          (paste out done blkBuf (blkOff.setWidth 64) chunk.toNat)
    else pure (done, out)

/-- `ext2_read` : the return value, the buffer and `*off`. -/
def ext2Read (ei : Ext2Inode) (out : Mem) (count off : U64) : Ext2M (I64 × Mem × U64) := do
  if off ≥ ei.size then pure (0, out, off)
  else
    let count := if off + count > ei.size then ei.size - off else count
    match ← kalloc m 1 with
    | none => pure (enomem.signExtend 64, out, off)
    | some blkBuf =>
      let (done, out) ← readLoop m p ei off count loopFuel 0 (-1) blkBuf out
      pure (done, out, off + done)

/-- A `struct vfs_dirent`, with the bytes of the name that are set. -/
structure VfsDirent where
  ino : U64
  reclen : U16
  type : U8
  name : List U8

/-- The `n` bytes from `a` on. -/
def bytesAt (buf : Mem) (a : U64) (n : ℕ) : List U8 :=
  (List.range n).map fun i => buf (a + BitVec.ofNat 64 i)

/-- The loop of `ext2_readdir` : `*out` and `file->pos`, or `none` if it ends without an entry. -/
def readdirLoop (ei : Ext2Inode) : ℕ → U32 → U32 → Mem → Ext2M (Option (VfsDirent × U32))
  | 0, _, _, _ => fun _ => none
  | n + 1, curBlk, offset, buf => do
    if offset < ei.sizeLow then
      let lbn ← div offset p.blockSize
      let blkOff := (← mod offset p.blockSize).setWidth 64
      match ← cacheBlock m p ei lbn curBlk buf with
      | none => pure none
      | some buf =>
        access (.block ⟨blkOff, 8⟩)
        let de := loadDirent buf blkOff
        if de.recLen < 8 then pure none
        else
          let offset := offset + de.recLen.setWidth 32
          if de.inode = 0 then readdirLoop ei n lbn offset buf
          else
            let nlen := if de.nameLen < 255 then de.nameLen else 255
            access (.block ⟨blkOff + 8, nlen.toNat⟩)
            pure (some (⟨de.inode.setWidth 64, BitVec.ofNat 16 (struct vfsDirent).size,
              de.fileType, bytesAt buf (blkOff + 8) nlen.toNat ++ [0]⟩, offset))
    else pure none

/-- `ext2_readdir` : the return value, `file->pos` and `*out` if it is set. -/
def ext2Readdir (ei : Ext2Inode) (pos : U64) : Ext2M (I32 × U64 × Option VfsDirent) := do
  if pos.setWidth 32 ≥ ei.sizeLow then pure (enoent, pos, none)
  else
    match ← kalloc m 1 with
    | none => pure (enomem, pos, none)
    | some buf =>
      match ← readdirLoop m p ei loopFuel (-1) (pos.setWidth 32) buf with
      | none => pure (enoent, pos, none)
      | some (out, offset) => pure (0, offset.setWidth 64, some out)

end Driver

/-! ## Mounting -/

section Mount

variable (m : Machine)

/-- The loop that reads the group descriptors, with the number of rounds that are left. -/
def bgdtLoop (p : Ext2Priv) (bgdtBlock bgdtBytes : U32) : ℕ → U32 → Mem → Ext2M (Option Mem)
  | 0, _, bgdt => pure (some bgdt)
  | n + 1, i, bgdt => do
    match ← kalloc m 1 with
    | none => pure none
    | some tmp =>
      let (_, tmp) ← ext2ReadBlock m p (bgdtBlock + i) tmp
      let written : U64 := i.setWidth 64 * p.blockSize.setWidth 64
      let copy : U64 := p.blockSize.setWidth 64
      let copy := if written + copy > bgdtBytes.setWidth 64 then bgdtBytes.setWidth 64 - written
        else copy
      bgdtLoop p bgdtBlock bgdtBytes n (i + 1) (paste bgdt written tmp 0 copy.toNat)

/-- The part of `ext2_mount_fs` after the group descriptors. -/
def mountRoot (p : Ext2Priv) : Ext2M (I32 × Option (Ext2Priv × VfsInode)) := do
  match ← ext2ReadInode m p rootIno with
  | .error _ => pure (-1, none)
  | .ok rootEi =>
    match ← ext2MakeVfsInode m rootIno rootEi with
    | none => pure (enomem, none)
    | some rootVino =>
      match ← kalloc m 1 with
      | none => pure (enomem, none)
      | some _ => pure (0, some (p, rootVino))

/-- The part of `ext2_mount_fs` after the superblock was read to `raw`. -/
def mountSuper (raw : Mem) : Ext2M (I32 × Option (Ext2Priv × VfsInode)) := do
  let field k := packedAddr superblock 0 k
  if load16 raw (field 15) ≠ signature then pure (-1, none)
  else
    match ← kalloc m 1 with
    | none => pure (enomem, none)
    | some _ =>
      let blockSize ← shiftLeft 1024 (load32 raw (field 6))
      let blocksPerGroup := load32 raw (field 8)
      let ext k := packedAddr superblockExt (BitVec.ofNat 64 (packedSize superblock)) k
      let dynamic := load32 raw (field 22) ≥ 1
      let numGroups ← div (load32 raw (field 1) + blocksPerGroup - 1) blocksPerGroup
      let bgdtBlock := if blockSize = 1024 then 2 else 1
      let bgdtBytes := numGroups * BitVec.ofNat 32 (packedSize bgd)
      let bgdtPages := (bgdtBytes + 4096 - 1) / 4096
      let bgdtPages := if bgdtPages = 0 then 1 else bgdtPages
      match ← kalloc m (bgdtPages.setWidth 64) with
      | none => pure (enomem, none)
      | some bgdt =>
        let p : Ext2Priv := {
          blockSize, blocksPerGroup, numGroups, bgdtPages
          inodesPerGroup := load32 raw (field 10)
          inodeSize := if dynamic then (load16 raw (ext 1)).setWidth 32 else 128
          firstInode := if dynamic then load32 raw (ext 0) else 11
          bgdt := fill bgdt 0 0 (bgdtPages.setWidth 64 * pageSize).toNat }
        let bgdtBlks ← div (bgdtBytes + blockSize - 1) blockSize
        match ← bgdtLoop m p bgdtBlock bgdtBytes bgdtBlks.toNat 0 p.bgdt with
        | none => pure (enomem, none)
        | some bgdt => mountRoot m { p with bgdt }

/-- `ext2_mount_fs` : the return value, with `sb->priv` and the inode of `sb->root`. -/
def ext2MountFs : Ext2M (I32 × Option (Ext2Priv × VfsInode)) := do
  let sbLba ← div 1024 m.sectorSize
  let sbSects ← div 1024 m.sectorSize
  let sbSects := if sbSects = 0 then 1 else sbSects
  match ← kalloc m 1 with
  | none => pure (enomem, none)
  | some raw =>
    let (rc, raw) ← blkRead m (sbLba.setWidth 64) sbSects raw
    if rc ≠ 0 then pure (-1, none) else mountSuper m raw

end Mount

end Ext2

end Jeos
