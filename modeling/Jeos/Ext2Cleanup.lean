import Jeos.Ext2Mount

/-!
# What a mount of ext2 frees

The functions of `ext2.c` that a mount calls, with their calls of `kfree`. A block is known by the
number of its `kalloc`, and `live` lists the blocks that were allocated and are not freed, each with
its number of pages. A `kfree` of any other block, or with another number of pages, has no result.

`ext2MountFs_erases` says that these are the functions of the driver. `ext2MountFs_leads` says
what is left allocated : nothing when the mount fails, and the five blocks of the file system when it
succeeds.
-/

set_option linter.unusedSectionVars false

namespace Jeos.Ext2.Cleanup

open ByteMemory StateRun

/-- The state of the driver, with the blocks in use. -/
structure Books where
  io : Io
  live : List (ℕ × U64)

abbrev BooksM := StateT Books Option

/-- A step without `kalloc` or `kfree`. -/
def step {α : Type} (x : Ext2M α) : BooksM α := fun b =>
  (x b.io).map fun r => (r.1, { b with io := r.2 })

section Driver

variable (m : Machine)

def kalloc (npages : U64) : BooksM (Option (ℕ × Mem)) := fun b =>
  (Ext2.kalloc m npages b.io).map fun r =>
    match r.1 with
    | none => (none, { b with io := r.2 })
    | some buf => (some (b.io.allocs, buf), ⟨r.2, (b.io.allocs, npages) :: b.live⟩)

def kfree (block : ℕ) (npages : U64) : BooksM Unit := fun b =>
  if (block, npages) ∈ b.live then some ((), { b with live := b.live.erase (block, npages) })
  else none

variable (p : Ext2Priv)

/-- `ext2_read_inode`. -/
def ext2ReadInode (ino : U32) : BooksM (Except I32 Ext2Inode) := do
  if ino = 0 then pure (.error (-1))
  else
    let grp ← step (div (ino - 1) p.inodesPerGroup)
    let idx ← step (mod (ino - 1) p.inodesPerGroup)
    step (access (.bgdt grp))
    let itbl := inodeTable p grp
    let byteOff := idx * p.inodeSize
    let blkOff ← step (div byteOff p.blockSize)
    let offInBlk ← step (mod byteOff p.blockSize)
    match ← kalloc m 1 with
    | none => pure (.error (-1))
    | some (block, buf) =>
      let (rc, buf) ← step (ext2ReadBlock m p (itbl + blkOff) buf)
      if rc = 0 then do
        step (access (.block ⟨offInBlk.setWidth 64, packedSize inode⟩))
        kfree block 1
        pure (.ok (loadInode buf (offInBlk.setWidth 64)))
      else do
        kfree block 1
        pure (.error rc)

/-- A `struct vfs_inode` with its page and the page of `priv`. -/
structure InodePtr where
  page : ℕ
  copy : ℕ
  inode : VfsInode

/-- `ext2_make_vfs_inode`. -/
def ext2MakeVfsInode (inoNum : U32) (ei : Ext2Inode) : BooksM (Option InodePtr) := do
  match ← kalloc m 1 with
  | none => pure none
  | some (copy, _) =>
    match ← kalloc m 1 with
    | none => do
      kfree copy 1
      pure none
    | some (vino, _) => pure (some ⟨vino, copy, inoNum.setWidth 64, ext2VfsMode ei.mode, ei⟩)

/-- The loop that reads the group descriptors. -/
def bgdtLoop (bgdtBlock bgdtBytes : U32) : ℕ → U32 → Mem → BooksM (Option Mem)
  | 0, _, bgdt => pure (some bgdt)
  | n + 1, i, bgdt => do
    match ← kalloc m 1 with
    | none => pure none
    | some (block, tmp) =>
      let (_, tmp) ← step (ext2ReadBlock m p (bgdtBlock + i) tmp)
      let written : U64 := i.setWidth 64 * p.blockSize.setWidth 64
      let copy : U64 := p.blockSize.setWidth 64
      let copy := if written + copy > bgdtBytes.setWidth 64 then bgdtBytes.setWidth 64 - written
        else copy
      kfree block 1
      bgdtLoop bgdtBlock bgdtBytes n (i + 1) (paste bgdt written tmp 0 copy.toNat)

/-- `sb->priv` : its page, the block of `bgdt` and its fields. -/
structure PrivPtr where
  page : ℕ
  bgdt : ℕ
  priv : Ext2Priv

/-- `sb->root` : its page and its inode. -/
structure RootPtr where
  page : ℕ
  inode : InodePtr

/-- The fields of the superblock that a mount sets. -/
structure Super where
  priv : Option PrivPtr
  root : Option RootPtr

/-- The part of `ext2_mount_fs` after the group descriptors. -/
def mountRoot (q : PrivPtr) : BooksM (I32 × Super) := do
  match ← ext2ReadInode m q.priv rootIno with
  | .error _ => do
    kfree q.bgdt (q.priv.bgdtPages.setWidth 64)
    kfree q.page 1
    pure (-1, ⟨some q, none⟩)
  | .ok rootEi =>
    match ← ext2MakeVfsInode m rootIno rootEi with
    | none => do
      kfree q.bgdt (q.priv.bgdtPages.setWidth 64)
      kfree q.page 1
      pure (enomem, ⟨some q, none⟩)
    | some rootVino =>
      match ← kalloc m 1 with
      | none => do
        kfree rootVino.copy 1
        kfree rootVino.page 1
        kfree q.bgdt (q.priv.bgdtPages.setWidth 64)
        kfree q.page 1
        pure (enomem, ⟨some q, none⟩)
      | some (root, _) => pure (0, ⟨some q, some ⟨root, rootVino⟩⟩)

/-- The part of `ext2_mount_fs` after the superblock was read to `raw`, in block `rawBlock`. -/
def mountSuper (rawBlock : ℕ) (raw : Mem) : BooksM (I32 × Super) := do
  let field k := packedAddr superblock 0 k
  if load16 raw (field 15) ≠ signature then do
    kfree rawBlock 1
    pure (-1, ⟨none, none⟩)
  else
    match ← kalloc m 1 with
    | none => do
      kfree rawBlock 1
      pure (enomem, ⟨none, none⟩)
    | some (page, _) =>
      let blockSize ← step (shiftLeft 1024 (load32 raw (field 6)))
      let blocksPerGroup := load32 raw (field 8)
      let ext k := packedAddr superblockExt (BitVec.ofNat 64 (packedSize superblock)) k
      let dynamic := load32 raw (field 22) ≥ 1
      let numGroups ← step (div (load32 raw (field 1) + blocksPerGroup - 1) blocksPerGroup)
      let bgdtBlock := if blockSize = 1024 then 2 else 1
      let bgdtBytes := numGroups * BitVec.ofNat 32 (packedSize bgd)
      let bgdtPages := (bgdtBytes + 4096 - 1) / 4096
      let bgdtPages := if bgdtPages = 0 then 1 else bgdtPages
      match ← kalloc m (bgdtPages.setWidth 64) with
      | none => do
        kfree rawBlock 1
        kfree page 1
        pure (enomem, ⟨none, none⟩)
      | some (bgdtPtr, bgdt) =>
        let p : Ext2Priv := {
          blockSize, blocksPerGroup, numGroups, bgdtPages
          inodesPerGroup := load32 raw (field 10)
          inodeSize := if dynamic then (load16 raw (ext 1)).setWidth 32 else 128
          firstInode := if dynamic then load32 raw (ext 0) else 11
          bgdt := fill bgdt 0 0 (bgdtPages.setWidth 64 * pageSize).toNat }
        let bgdtBlks ← step (div (bgdtBytes + blockSize - 1) blockSize)
        match ← bgdtLoop m p bgdtBlock bgdtBytes bgdtBlks.toNat 0 p.bgdt with
        | none => do
          kfree bgdtPtr (bgdtPages.setWidth 64)
          kfree rawBlock 1
          kfree page 1
          pure (enomem, ⟨none, none⟩)
        | some bgdt => do
          kfree rawBlock 1
          mountRoot m ⟨page, bgdtPtr, { p with bgdt }⟩

/-- `ext2_mount_fs` : the return value, and what it leaves in `sb`. -/
def ext2MountFs : BooksM (I32 × Super) := do
  let sbLba ← step (div 1024 m.sectorSize)
  let sbSects ← step (div 1024 m.sectorSize)
  let sbSects := if sbSects = 0 then 1 else sbSects
  match ← kalloc m 1 with
  | none => pure (enomem, ⟨none, none⟩)
  | some (rawBlock, raw) =>
    let (rc, raw) ← step (blkRead m (sbLba.setWidth 64) sbSects raw)
    if rc ≠ 0 then do
      kfree rawBlock 1
      pure (-1, ⟨none, none⟩)
    else mountSuper m rawBlock raw

/-- `ext2_unmount`. -/
def ext2Unmount (sb : Super) : BooksM Unit :=
  match sb.priv with
  | none => pure ()
  | some q => do
    kfree q.bgdt (q.priv.bgdtPages.setWidth 64)
    kfree q.page 1

end Driver

/-! ## The functions of the driver -/

section Erasure

variable {m : Machine} {p : Ext2Priv}

/-- A block, as the driver without `kfree` sees it. -/
def SameBlock (x : Option (ℕ × Mem)) (y : Option Mem) : Prop := y = x.map Prod.snd

/-- What a mount returns, as the driver without `kfree` sees it. -/
def SameMount (x : I32 × Super) (y : I32 × Option (Ext2Priv × VfsInode)) : Prop :=
  y = (x.1, x.2.root.bind fun r => x.2.priv.map fun q => (q.priv, r.inode.inode))

theorem step_erases {α : Type} (x : Ext2M α) : Erases Books.io Eq (step x) x := by
  intro b a t h
  obtain ⟨⟨a', s⟩, hx, heq⟩ := Option.map_eq_some_iff.1 h
  obtain ⟨rfl, rfl⟩ := Prod.mk.inj heq
  exact ⟨a', rfl, hx⟩

theorem kalloc_erases (n : U64) :
    Erases Books.io SameBlock (kalloc m n) (Ext2.kalloc m n) := by
  intro b a t h
  rw [kalloc, kalloc_apply, Option.map_some] at h
  rw [kalloc_apply]
  split_ifs at h ⊢
  · obtain ⟨rfl, rfl⟩ := Prod.mk.inj (Option.some.inj h)
    exact ⟨_, rfl, rfl⟩
  · obtain ⟨rfl, rfl⟩ := Prod.mk.inj (Option.some.inj h)
    exact ⟨_, rfl, rfl⟩

theorem kfree_io (block : ℕ) (n : U64) (b : Books) (a : Unit) (t : Books)
    (h : kfree block n b = some (a, t)) : t.io = b.io := by
  rw [kfree] at h
  split_ifs at h
  obtain ⟨-, rfl⟩ := Prod.mk.inj (Option.some.inj h)
  rfl

theorem ext2ReadInode_erases (ino : U32) :
    Erases Books.io Eq (ext2ReadInode m p ino) (Ext2.ext2ReadInode m p ino) := by
  rw [ext2ReadInode, Ext2.ext2ReadInode]
  refine .ite (fun _ => .pure rfl) fun _ => .bind (step_erases _) ?_
  rintro grp _ rfl
  refine .bind (step_erases _) ?_
  rintro idx _ rfl
  refine .bind (step_erases _) ?_
  rintro - _ -
  refine .bind (step_erases _) ?_
  rintro blkOff _ rfl
  refine .bind (step_erases _) ?_
  rintro offInBlk _ rfl
  refine .bind (kalloc_erases 1) ?_
  rintro x _ rfl
  rcases x with _ | ⟨block, buf⟩
  · exact .pure rfl
  refine .bind (step_erases _) ?_
  rintro ⟨rc, buf⟩ _ rfl
  refine .ite (fun _ => .bind (step_erases _) fun _ _ _ => ?_) fun _ => ?_
  · exact .bind_left (kfree_io block 1) fun _ => .pure rfl
  · exact .bind_left (kfree_io block 1) fun _ => .pure rfl

theorem ext2MakeVfsInode_erases (ino : U32) (ei : Ext2Inode) :
    Erases Books.io (fun x y => y = x.map InodePtr.inode) (ext2MakeVfsInode m ino ei)
      (Ext2.ext2MakeVfsInode m ino ei) := by
  rw [ext2MakeVfsInode, Ext2.ext2MakeVfsInode]
  refine .bind (kalloc_erases 1) ?_
  rintro x _ rfl
  rcases x with _ | ⟨copy, buf⟩
  · exact .pure rfl
  refine .bind (kalloc_erases 1) ?_
  rintro x _ rfl
  rcases x with _ | ⟨vino, buf⟩
  · exact .bind_left (kfree_io copy 1) fun _ => .pure rfl
  · exact .pure rfl

theorem bgdtLoop_erases (blk bytes : U32) (n : ℕ) : ∀ i bgdt,
    Erases Books.io Eq (bgdtLoop m p blk bytes n i bgdt) (Ext2.bgdtLoop m p blk bytes n i bgdt) := by
  induction n with
  | zero => exact fun _ _ => .pure rfl
  | succ n ih =>
    intro i bgdt
    rw [bgdtLoop, Ext2.bgdtLoop]
    refine .bind (kalloc_erases 1) ?_
    rintro x _ rfl
    rcases x with _ | ⟨block, tmp⟩
    · exact .pure rfl
    refine .bind (step_erases _) ?_
    rintro ⟨rc, tmp⟩ _ rfl
    exact .bind_left (kfree_io block 1) fun _ => ih _ _

theorem mountRoot_erases (q : PrivPtr) :
    Erases Books.io SameMount (mountRoot m q) (Ext2.mountRoot m q.priv) := by
  have hfree : ∀ {x : BooksM (I32 × Super)} {y : Ext2M (I32 × Option (Ext2Priv × VfsInode))} {k n},
      Erases Books.io SameMount x y → Erases Books.io SameMount (kfree k n >>= fun _ => x) y :=
    fun h => .bind_left (kfree_io _ _) fun _ => h
  rw [mountRoot, Ext2.mountRoot]
  refine .bind (ext2ReadInode_erases _) ?_
  rintro r _ rfl
  rcases r with e | ei
  · exact hfree (hfree (.pure rfl))
  refine .bind (ext2MakeVfsInode_erases _ _) ?_
  rintro v _ rfl
  rcases v with _ | v
  · exact hfree (hfree (.pure rfl))
  refine .bind (kalloc_erases 1) ?_
  rintro x _ rfl
  rcases x with _ | ⟨root, buf⟩
  · exact hfree (hfree (hfree (hfree (.pure rfl))))
  · exact .pure rfl

theorem mountSuper_erases (rawBlock : ℕ) (raw : Mem) :
    Erases Books.io SameMount (mountSuper m rawBlock raw) (Ext2.mountSuper m raw) := by
  have hfree : ∀ {x : BooksM (I32 × Super)} {y : Ext2M (I32 × Option (Ext2Priv × VfsInode))} {k n},
      Erases Books.io SameMount x y → Erases Books.io SameMount (kfree k n >>= fun _ => x) y :=
    fun h => .bind_left (kfree_io _ _) fun _ => h
  rw [mountSuper, Ext2.mountSuper]
  refine .ite (fun _ => hfree (.pure rfl)) fun _ => .bind (kalloc_erases 1) ?_
  rintro x _ rfl
  rcases x with _ | ⟨page, buf⟩
  · exact hfree (.pure rfl)
  refine .bind (step_erases _) ?_
  rintro bs _ rfl
  refine .bind (step_erases _) ?_
  rintro groups _ rfl
  refine .bind (kalloc_erases _) ?_
  rintro x _ rfl
  rcases x with _ | ⟨bgdtPtr, bgdt⟩
  · exact hfree (hfree (.pure rfl))
  refine .bind (step_erases _) ?_
  rintro blks _ rfl
  refine .bind (bgdtLoop_erases _ _ _ _ _) ?_
  rintro x _ rfl
  rcases x with _ | bgdt
  · exact hfree (hfree (hfree (.pure rfl)))
  · exact hfree (mountRoot_erases _)

/-- Without the blocks in use it is the mount of the driver. -/
theorem ext2MountFs_erases : Erases Books.io SameMount (ext2MountFs m) (Ext2.ext2MountFs m) := by
  rw [ext2MountFs, Ext2.ext2MountFs]
  refine .bind (step_erases _) ?_
  rintro lba _ rfl
  refine .bind (step_erases _) ?_
  rintro sects _ rfl
  refine .bind (kalloc_erases 1) ?_
  rintro x _ rfl
  rcases x with _ | ⟨rawBlock, raw⟩
  · exact .pure rfl
  refine .bind (step_erases _) ?_
  rintro ⟨rc, raw⟩ _ rfl
  refine .ite (fun _ => ?_) fun _ => mountSuper_erases _ _
  exact .bind_left (kfree_io rawBlock 1) fun _ => .pure rfl

end Erasure

/-! ## When a mount succeeds -/

section Conditions

variable (m : Machine) (raw : Mem)

/-- The size of the group descriptors of the superblock. -/
def bgdtBytes : U32 :=
  (load32 raw (superField 1) + load32 raw (superField 8) - 1) / load32 raw (superField 8) *
    BitVec.ofNat 32 (packedSize bgd)

/-- The number of pages for them. -/
def bgdtPages : U32 :=
  if (bgdtBytes raw + 4096 - 1) / 4096 = 0 then 1 else (bgdtBytes raw + 4096 - 1) / 4096

/-- The number of blocks that are read for them. -/
def bgdtBlocks : ℕ :=
  ((bgdtBytes raw + (1024 : U32) <<< load32 raw (superField 6) - 1) /
    (1024 : U32) <<< load32 raw (superField 6)).toNat

/-- The root inode is read and gets its pages, after `k` calls of `kalloc` and `r` reads. -/
structure RootMounts (k r : ℕ) : Prop where
  buf : m.alloc k 1 = true
  read : m.status r = 0
  copy : m.alloc (k + 1) 1 = true
  vino : m.alloc (k + 2) 1 = true
  dentry : m.alloc (k + 3) 1 = true

/-- The file system of the superblock is mounted. -/
structure SuperMounts (k r : ℕ) : Prop where
  signature : load16 raw (superField 15) = signature
  priv : m.alloc k 1 = true
  table : m.alloc (k + 1) ((bgdtPages raw).setWidth 64) = true
  tmp : ∀ i < bgdtBlocks raw, m.alloc (k + 2 + i) 1 = true
  root : RootMounts m (k + 2 + bgdtBlocks raw) (r + bgdtBlocks raw)

/-- `ext2_mount_fs` succeeds. -/
structure Mounts (k r : ℕ) : Prop where
  raw : m.alloc k 1 = true
  read : m.status r = 0
  super : SuperMounts m (superBytes m.sectorSize m.image) (k + 1) (r + 1)

/-- The number of calls of `kalloc` of a mount that succeeds. -/
def mountAllocs : ℕ := 7 + bgdtBlocks (superBytes m.sectorSize m.image)

end Conditions

/-! ## What a mount leaves allocated -/

section Runs

variable {m : Machine} {p : Ext2Priv} {b : Books} {k r n : ℕ} {L : List (ℕ × U64)} {raw : Mem}

/-- There were `k` calls of `kalloc` and `r` reads, and the blocks `L` are in use. -/
structure At (b : Books) (k r : ℕ) (L : List (ℕ × U64)) : Prop where
  allocs : b.io.allocs = k
  reads : b.io.reads = r
  live : b.live = L

theorem kalloc_leads (h : At b k r L) (n : U64) : Leads (kalloc m n) b fun v b' =>
    m.alloc k n = true ∧ (∃ buf, v = some (k, buf)) ∧ At b' (k + 1) r ((k, n) :: L) ∨
      m.alloc k n ≠ true ∧ v = none ∧ At b' (k + 1) r L := by
  obtain ⟨rfl, rfl, rfl⟩ := h
  by_cases hk : m.alloc b.io.allocs n = true
  · refine ⟨some (b.io.allocs, fill (m.behind b.io.allocs) 0 5 (n * pageSize).toNat),
      ⟨{ b.io with allocs := b.io.allocs + 1 }, (b.io.allocs, n) :: b.live⟩, ?_,
      Or.inl ⟨hk, ⟨_, rfl⟩, rfl, rfl, rfl⟩⟩
    rw [kalloc, kalloc_apply, if_pos hk]
    rfl
  · refine ⟨_, ⟨{ b.io with allocs := b.io.allocs + 1 }, b.live⟩, ?_,
      Or.inr ⟨hk, rfl, rfl, rfl, rfl⟩⟩
    rw [kalloc, kalloc_apply, if_neg hk]
    rfl

theorem kfree_leads {block : ℕ} {n : U64} (h : At b k r L) (hmem : (block, n) ∈ L) :
    Leads (kfree block n) b fun _ b' => At b' k r (L.erase (block, n)) := by
  obtain ⟨rfl, rfl, rfl⟩ := h
  exact ⟨(), _, if_pos hmem, rfl, rfl, rfl⟩

/-- Blocks with other numbers stay in use. -/
theorem erase_of_ne {i j : ℕ} {v w : U64} (h : i ≠ j) :
    ((i, v) :: L).erase (j, w) = (i, v) :: L.erase (j, w) :=
  List.erase_cons_tail (by simpa using fun he => absurd he h)

/-- A step that has a result and leaves the two counters. -/
theorem step_leads {α : Type} {x : Ext2M α} {P : α → Prop} (h : At b k r L)
    (hx : ∀ s, ∃ a t, x s = some (a, t) ∧ t.allocs = s.allocs ∧ t.reads = s.reads ∧ P a) :
    Leads (step x) b fun a b' => P a ∧ At b' k r L := by
  obtain ⟨rfl, rfl, rfl⟩ := h
  obtain ⟨a, t, hrun, ha, hr, hp⟩ := hx b.io
  refine ⟨a, ⟨t, b.live⟩, ?_, hp, ha, hr, rfl⟩
  rw [step, hrun]
  rfl

theorem div_leads {w : ℕ} {a c : BitVec w} (h : At b k r L) (hc : c ≠ 0) :
    Leads (step (div a c)) b fun v b' => v = a / c ∧ At b' k r L :=
  step_leads h fun s => ⟨_, s, if_neg hc, rfl, rfl, rfl⟩

theorem mod_leads {w : ℕ} {a c : BitVec w} (h : At b k r L) (hc : c ≠ 0) :
    Leads (step (mod a c)) b fun v b' => v = a % c ∧ At b' k r L :=
  step_leads h fun s => ⟨_, s, if_neg hc, rfl, rfl, rfl⟩

theorem access_leads (h : At b k r L) (a : Access) :
    Leads (step (access a)) b fun _ b' => At b' k r L :=
  (step_leads (P := fun _ => True) h fun s =>
    ⟨(), { s with accesses := a :: s.accesses }, rfl, rfl, rfl, trivial⟩).mono fun _ _ h => h.2

theorem blkRead_leads (h : At b k r L) (lba : U64) (count : U32) (buf : Mem) :
    Leads (step (blkRead m lba count buf)) b fun v b' => v = (m.status r,
      if m.status r = 0 then sectors m lba count buf else buf) ∧ At b' k (r + 1) L := by
  obtain ⟨rfl, rfl, rfl⟩ := h
  exact ⟨_, _, rfl, rfl, rfl, rfl, rfl⟩

theorem readBlock_leads (hsec : m.sectorSize ≠ 0) (h : At b k r L) (blk : U32) (buf : Mem) :
    Leads (step (ext2ReadBlock m p blk buf)) b fun v b' =>
      v.1 = m.status r ∧ At b' k (r + 1) L := by
  rw [ext2ReadBlock, div_of_ne hsec, pure_bind]
  exact (blkRead_leads h _ _ buf).mono fun v _ hv => ⟨by rw [hv.1], hv.2⟩

/-- The buffer of an inode is freed. -/
theorem readInode_leads (hsec : m.sectorSize ≠ 0) (hi : p.inodesPerGroup ≠ 0)
    (hb : p.blockSize ≠ 0) {ino : U32} (hino : ino ≠ 0) (h : At b k r L) :
    Leads (ext2ReadInode m p ino) b fun v b' =>
      (m.alloc k 1 = true ∧ m.status r = 0) ∧ (∃ ei, v = .ok ei) ∧ At b' (k + 1) (r + 1) L ∨
        ¬(m.alloc k 1 = true ∧ m.status r = 0) ∧ (∃ e, v = .error e) ∧ b'.live = L := by
  rw [ext2ReadInode, if_neg hino]
  refine (div_leads h hi).bind fun grp b h => (mod_leads h.2 hi).bind fun idx b h => ?_
  refine (access_leads h.2 _).bind fun _ b h => ?_
  refine (div_leads h hb).bind fun blkOff b h => (mod_leads h.2 hb).bind fun off b h => ?_
  refine (kalloc_leads h.2 1).bind fun v b hv => ?_
  rcases hv with ⟨hk, ⟨buf, rfl⟩, h⟩ | ⟨hk, rfl, h⟩
  swap
  · exact .pure (Or.inr ⟨fun hc => hk hc.1, ⟨_, rfl⟩, h.live⟩)
  refine (readBlock_leads hsec h _ _).bind fun v b ⟨hv, h⟩ => ?_
  obtain ⟨rc, buf⟩ := v
  dsimp only at hv ⊢
  refine .ite (fun hrc => ?_) fun hrc => ?_
  · refine (access_leads h _).bind fun _ b h => (kfree_leads h List.mem_cons_self).bind fun _ b h => ?_
    rw [List.erase_cons_head] at h
    exact .pure (Or.inl ⟨⟨hk, hv ▸ hrc⟩, ⟨_, rfl⟩, h⟩)
  · refine (kfree_leads h List.mem_cons_self).bind fun _ b h => ?_
    rw [List.erase_cons_head] at h
    exact .pure (Or.inr ⟨fun hc => hrc (hv.trans hc.2), ⟨_, rfl⟩, h.live⟩)

theorem makeVfsInode_leads (ino : U32) (ei : Ext2Inode) (h : At b k r L) :
    Leads (ext2MakeVfsInode m ino ei) b fun v b' =>
      (m.alloc k 1 = true ∧ m.alloc (k + 1) 1 = true) ∧ (∃ i, v = some ⟨k + 1, k, i⟩) ∧
          At b' (k + 2) r ((k + 1, 1) :: (k, 1) :: L) ∨
        ¬(m.alloc k 1 = true ∧ m.alloc (k + 1) 1 = true) ∧ v = none ∧ b'.live = L := by
  rw [ext2MakeVfsInode]
  refine (kalloc_leads h 1).bind fun v b hv => ?_
  rcases hv with ⟨hk, ⟨buf, rfl⟩, h⟩ | ⟨hk, rfl, h⟩
  swap
  · exact .pure (Or.inr ⟨fun hc => hk hc.1, rfl, h.live⟩)
  refine (kalloc_leads h 1).bind fun v b hv => ?_
  rcases hv with ⟨hk', ⟨buf, rfl⟩, h⟩ | ⟨hk', rfl, h⟩
  · exact .pure (Or.inl ⟨⟨hk, hk'⟩, ⟨_, rfl⟩, h⟩)
  · refine (kfree_leads h List.mem_cons_self).bind fun _ b h => ?_
    rw [List.erase_cons_head] at h
    exact .pure (Or.inr ⟨fun hc => hk' hc.2, rfl, h.live⟩)

/-- Each buffer for the descriptors is freed in its round. -/
theorem bgdtLoop_leads (hsec : m.sectorSize ≠ 0) (blk bytes : U32) (n : ℕ) :
    ∀ {b k r} (i : U32) (bgdt : Mem), At b k r L → Leads (bgdtLoop m p blk bytes n i bgdt) b
      fun v b' => (∀ j < n, m.alloc (k + j) 1 = true) ∧ (∃ bgdt, v = some bgdt) ∧
          At b' (k + n) (r + n) L ∨
        (¬∀ j < n, m.alloc (k + j) 1 = true) ∧ v = none ∧ b'.live = L := by
  induction n with
  | zero => exact fun _ bgdt h => .pure (Or.inl ⟨fun _ hj => absurd hj (Nat.not_lt_zero _),
      ⟨bgdt, rfl⟩, h⟩)
  | succ n ih =>
    intro b k r i bgdt h
    rw [bgdtLoop]
    refine (kalloc_leads h 1).bind fun v b hv => ?_
    rcases hv with ⟨hk, ⟨buf, rfl⟩, h⟩ | ⟨hk, rfl, h⟩
    swap
    · exact .pure (Or.inr ⟨fun hc => hk (hc 0 (Nat.succ_pos n)), rfl, h.live⟩)
    refine (readBlock_leads hsec h _ _).bind fun v b ⟨_, h⟩ => ?_
    obtain ⟨rc, tmp⟩ := v
    refine (kfree_leads h List.mem_cons_self).bind fun _ b h => ?_
    rw [List.erase_cons_head] at h
    -- The rounds that are left start one `kalloc` and one read later.
    have hall : (∀ j < n + 1, m.alloc (k + j) 1 = true) ↔ ∀ j < n, m.alloc (k + 1 + j) 1 = true := by
      refine ⟨fun hc j hj => ?_, fun hc j hj => ?_⟩
      · rw [Nat.add_assoc, Nat.add_comm 1 j]
        exact hc (j + 1) (Nat.succ_lt_succ hj)
      · rcases j with _ | j
        · exact hk
        · rw [← Nat.add_assoc, Nat.add_right_comm]
          exact hc j (Nat.lt_of_succ_lt_succ hj)
    refine (ih (i + 1) _ h).mono fun v b' hv => ?_
    rw [hall, show k + (n + 1) = k + 1 + n by omega, show r + (n + 1) = r + 1 + n by omega]
    exact hv

/-- The blocks of `sb->priv`. -/
def PrivPtr.blocks (q : PrivPtr) : List (ℕ × U64) :=
  [(q.bgdt, q.priv.bgdtPages.setWidth 64), (q.page, 1)]

/-- The blocks of `sb->root`. -/
def RootPtr.blocks (d : RootPtr) : List (ℕ × U64) :=
  [(d.page, 1), (d.inode.page, 1), (d.inode.copy, 1)]

/-- The blocks were allocated one after the other, from number `n` on. -/
structure Ordered (n : ℕ) (q : PrivPtr) (d : RootPtr) : Prop where
  page : n ≤ q.page
  bgdt : q.page < q.bgdt
  copy : q.bgdt < d.inode.copy
  vino : d.inode.copy < d.inode.page
  dentry : d.inode.page < d.page

/-- The mount succeeded, and its blocks are in use. -/
def Done (n k r : ℕ) (L : List (ℕ × U64)) (v : I32 × Super) (b : Books) : Prop :=
  ∃ q d, v = (0, ⟨some q, some d⟩) ∧ Ordered n q d ∧ At b k r (d.blocks ++ (q.blocks ++ L))

/-- The mount failed, and none of its blocks is in use. -/
def Failed (L : List (ℕ × U64)) (v : I32 × Super) (b : Books) : Prop :=
  v.1.slt 0 = true ∧ b.live = L

theorem free_priv {q : PrivPtr} (v : I32 × Super) (hv : v.1.slt 0 = true)
    (h : b.live = q.blocks ++ L) : Leads (do
      kfree q.bgdt (q.priv.bgdtPages.setWidth 64)
      kfree q.page 1
      pure v) b (Failed L) := by
  have h₀ : At b b.io.allocs b.io.reads (q.blocks ++ L) := ⟨rfl, rfl, h⟩
  refine (kfree_leads h₀ List.mem_cons_self).bind fun _ b h => ?_
  rw [PrivPtr.blocks, List.cons_append, List.erase_cons_head] at h
  refine (kfree_leads h List.mem_cons_self).bind fun _ b h => ?_
  rw [List.cons_append, List.erase_cons_head] at h
  exact .pure ⟨hv, h.live⟩

theorem mountRoot_leads {q : PrivPtr} (hsec : m.sectorSize ≠ 0) (hi : q.priv.inodesPerGroup ≠ 0)
    (hb : q.priv.blockSize ≠ 0) (hlt : n ≤ q.page ∧ q.page < q.bgdt ∧ q.bgdt < k)
    (h : At b k r (q.blocks ++ L)) : Leads (mountRoot m q) b fun v b' =>
      RootMounts m k r ∧ Done n (k + 4) (r + 1) L v b' ∨ ¬RootMounts m k r ∧ Failed L v b' := by
  rw [mountRoot]
  refine (readInode_leads hsec hi hb (by decide) h).bind fun v b hv => ?_
  rcases hv with ⟨⟨hbuf, hread⟩, ⟨ei, rfl⟩, h⟩ | ⟨hno, ⟨e, rfl⟩, h⟩
  swap
  · exact (free_priv _ rfl h).mono fun v b' hf => Or.inr ⟨fun hc => hno ⟨hc.buf, hc.read⟩, hf⟩
  refine (makeVfsInode_leads _ _ h).bind fun v b hv => ?_
  rcases hv with ⟨⟨hcopy, hvino⟩, ⟨i, rfl⟩, h⟩ | ⟨hno, rfl, h⟩
  swap
  · exact (free_priv _ rfl h).mono fun v b' hf => Or.inr ⟨fun hc => hno ⟨hc.copy, hc.vino⟩, hf⟩
  refine (kalloc_leads h 1).bind fun v b hv => ?_
  rcases hv with ⟨hdent, ⟨buf, rfl⟩, h⟩ | ⟨hno, rfl, h⟩
  · exact .pure (Or.inl ⟨⟨hbuf, hread, hcopy, hvino, hdent⟩, q, _, rfl, ⟨hlt.1, hlt.2.1,
      Nat.lt_succ_of_lt hlt.2.2, Nat.lt_succ_self _, Nat.lt_succ_self _⟩, h⟩)
  · refine (kfree_leads h (by simp)).bind fun _ b h => ?_
    rw [erase_of_ne (Nat.succ_ne_self (k + 1)), List.erase_cons_head] at h
    refine (kfree_leads h List.mem_cons_self).bind fun _ b h => ?_
    rw [List.erase_cons_head] at h
    exact (free_priv _ rfl h.live).mono fun v b' hf => Or.inr ⟨fun hc => hno hc.dentry, hf⟩

theorem mountSuper_leads {rawBlock : ℕ} (hg : GoodSuper m.sectorSize raw) (hlt : rawBlock < k)
    (h : At b k r ((rawBlock, 1) :: L)) : Leads (mountSuper m rawBlock raw) b fun v b' =>
      SuperMounts m raw k r ∧
          Done k (k + 2 + bgdtBlocks raw + 4) (r + bgdtBlocks raw + 1) L v b' ∨
        ¬SuperMounts m raw k r ∧ Failed L v b' := by
  obtain ⟨h32, hb, -⟩ := shift_cases hg.log_le
  rw [mountSuper]
  refine .ite (fun hsig => ?_) fun hsig => ?_
  · refine (kfree_leads h List.mem_cons_self).bind fun _ b h => ?_
    rw [List.erase_cons_head] at h
    exact .pure (Or.inr ⟨fun hc => hsig hc.signature, rfl, h.live⟩)
  refine (kalloc_leads h 1).bind fun v b hv => ?_
  rcases hv with ⟨hpriv, ⟨buf, rfl⟩, h⟩ | ⟨hno, rfl, h⟩
  swap
  · refine (kfree_leads h List.mem_cons_self).bind fun _ b h => ?_
    rw [List.erase_cons_head] at h
    exact .pure (Or.inr ⟨fun hc => hno hc.priv, rfl, h.live⟩)
  refine (step_leads (P := fun v => v = (1024 : U32) <<< load32 raw (superField 6)) h fun s =>
    ⟨_, s, if_pos h32, rfl, rfl, rfl⟩).bind ?_
  rintro _ b ⟨rfl, h⟩
  refine (div_leads h hg.groups_ne).bind ?_
  rintro _ b ⟨rfl, h⟩
  refine (kalloc_leads h ((bgdtPages raw).setWidth 64)).bind fun v b hv => ?_
  rcases hv with ⟨htable, ⟨buf, rfl⟩, h⟩ | ⟨hno, rfl, h⟩
  swap
  · refine (kfree_leads h (by simp)).bind fun _ b h => ?_
    rw [erase_of_ne (by omega), List.erase_cons_head] at h
    refine (kfree_leads h List.mem_cons_self).bind fun _ b h => ?_
    rw [List.erase_cons_head] at h
    exact .pure (Or.inr ⟨fun hc => hno hc.table, rfl, h.live⟩)
  refine (div_leads h hb).bind ?_
  rintro _ b ⟨rfl, h⟩
  refine (bgdtLoop_leads hg.sector_ne _ _ (bgdtBlocks raw) _ _ h).bind fun v b hv => ?_
  rcases hv with ⟨htmp, ⟨bgdt, rfl⟩, h⟩ | ⟨hno, rfl, h⟩
  · refine (kfree_leads h (by simp)).bind fun _ b h => ?_
    rw [erase_of_ne (by omega), erase_of_ne (by omega),
      List.erase_cons_head] at h
    refine (mountRoot_leads (n := k) hg.sector_ne hg.inodes_ne hb ?_ h).mono fun v b' hv => ?_
    · exact ⟨le_rfl, Nat.lt_succ_self k, show k + 1 < k + 2 + bgdtBlocks raw by omega⟩
    · refine hv.imp (fun ⟨hr, hd⟩ => ⟨⟨not_not.1 hsig, hpriv, htable, htmp, hr⟩, hd⟩)
        fun ⟨hr, hf⟩ => ⟨fun hc => hr hc.root, hf⟩
  · have hfail : ¬SuperMounts m raw k r := fun hc => hno hc.tmp
    have h₀ : At b b.io.allocs b.io.reads _ := ⟨rfl, rfl, h⟩
    refine (kfree_leads h₀ List.mem_cons_self).bind fun _ b h => ?_
    rw [List.erase_cons_head] at h
    refine (kfree_leads h (by simp)).bind fun _ b h => ?_
    rw [erase_of_ne (by omega), List.erase_cons_head] at h
    refine (kfree_leads h List.mem_cons_self).bind fun _ b h => ?_
    rw [List.erase_cons_head] at h
    exact .pure (Or.inr ⟨hfail, rfl, h.live⟩)

/-- `ext2_mount_fs` succeeds just when all its steps do, and when it fails nothing stays
allocated. -/
theorem ext2MountFs_leads (hg : GoodSuper m.sectorSize (superBytes m.sectorSize m.image))
    (h : At b k r L) : Leads (ext2MountFs m) b fun v b' =>
      Mounts m k r ∧ (∃ r', Done (k + 1) (k + mountAllocs m) r' L v b') ∨
        ¬Mounts m k r ∧ Failed L v b' := by
  rw [ext2MountFs]
  refine (div_leads h hg.sector_ne).bind ?_
  rintro _ b ⟨rfl, h⟩
  refine (div_leads h hg.sector_ne).bind ?_
  rintro _ b ⟨rfl, h⟩
  refine (kalloc_leads h 1).bind fun v b hv => ?_
  rcases hv with ⟨hraw, ⟨buf, rfl⟩, h⟩ | ⟨hno, rfl, h⟩
  swap
  · exact .pure (Or.inr ⟨fun hc => hno hc.raw, rfl, h.live⟩)
  refine (blkRead_leads h _ _ buf).bind ?_
  rintro _ b ⟨rfl, h⟩
  dsimp only
  refine .ite (fun hread => ?_) fun hread => ?_
  · refine (kfree_leads h List.mem_cons_self).bind fun _ b h => ?_
    rw [List.erase_cons_head] at h
    exact .pure (Or.inr ⟨fun hc => hread hc.read, rfl, h.live⟩)
  rw [if_pos (not_not.1 hread)]
  -- The superblock in the buffer has the fields of the one on the device.
  change Leads (mountSuper m k (superRead m buf)) b _
  have hload : ∀ i ≤ 24, load32 (superRead m buf) (superField i) =
      load32 (superBytes m.sectorSize m.image) (superField i) := fun i hi =>
    load32_super hg.sector_ne buf hi
  have hbytes : bgdtBytes (superRead m buf) = bgdtBytes (superBytes m.sectorSize m.image) := by
    rw [bgdtBytes, bgdtBytes, hload 1 (by decide), hload 8 (by decide)]
  have hblocks : bgdtBlocks (superRead m buf) = bgdtBlocks (superBytes m.sectorSize m.image) := by
    rw [bgdtBlocks, bgdtBlocks, hbytes, hload 6 (by decide)]
  have hpages : bgdtPages (superRead m buf) = bgdtPages (superBytes m.sectorSize m.image) := by
    rw [bgdtPages, bgdtPages, hbytes]
  have hsig : load16 (superRead m buf) (superField 15) =
      load16 (superBytes m.sectorSize m.image) (superField 15) :=
    load16_super hg.sector_ne buf (by decide)
  have hiff : SuperMounts m (superRead m buf) (k + 1) (r + 1) ↔ Mounts m k r := by
    refine ⟨fun hc => ⟨hraw, not_not.1 hread, hsig ▸ hc.signature, hc.priv, hpages ▸ hc.table,
      hblocks ▸ hc.tmp, hblocks ▸ hc.root⟩, fun hc => ⟨hsig.trans hc.super.signature, hc.super.priv,
      hpages.symm ▸ hc.super.table, hblocks.symm ▸ hc.super.tmp, hblocks.symm ▸ hc.super.root⟩⟩
  refine (mountSuper_leads ((goodSuper_read hg.sector_ne buf).2 hg) (Nat.lt_succ_self k) h).mono
    fun v b' hv => ?_
  rw [hiff, hblocks] at hv
  have hallocs : k + 1 + 2 + bgdtBlocks (superBytes m.sectorSize m.image) + 4 = k + mountAllocs m := by
    rw [mountAllocs]
    omega
  rw [hallocs] at hv
  exact hv.imp_left fun ⟨hc, hd⟩ => ⟨hc, _, hd⟩

end Runs

end Jeos.Ext2.Cleanup
