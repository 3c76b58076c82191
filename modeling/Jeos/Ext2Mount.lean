import Jeos.Ext2Errors

/-!
# What a mount checks

`ext2_mount_fs` looks at the signature of the superblock and at no other field of it. The sector
size of the device, `s_log_block_size`, `block_per_group` and `inodes_per_group` go into shifts and
divisions of the mount itself and of the functions that read blocks and inodes later, and a block
has to fit in the one page that `kalloc(1)` gives.

`MountChecks` says that the mount has a result, and that a mount that succeeds leaves no zero
divisor behind and blocks of at most a page. It holds if and only if the device and the superblock
already have these properties (`mount_checks_iff`) : a superblock that violates them is not
rejected.
-/

set_option linter.unusedSectionVars false

namespace Jeos.Ext2

open ByteMemory StateRun

/-- Nothing divides by zero later, and a block fits in a page. -/
structure GoodPriv (m : Machine) (p : Ext2Priv) : Prop where
  sector_ne : m.sectorSize ≠ 0
  groups_ne : p.blocksPerGroup ≠ 0
  inodes_ne : p.inodesPerGroup ≠ 0
  block_ne : p.blockSize ≠ 0
  block_le : p.blockSize ≤ 4096

/-- The mount has a result, and if it succeeds the file system is a good one. -/
structure MountChecks (m : Machine) (s : Io) : Prop where
  defined : ∃ r t, ext2MountFs m s = some (r, t)
  good : ∀ p root t, ext2MountFs m s = some ((0, some (p, root)), t) → GoodPriv m p

/-- The bytes from the sector on that `ext2_mount_fs` reads the superblock from. -/
def superBytes (sectorSize : U32) (image : ℕ → U8) : Mem := fun x =>
  image (1024 / sectorSize.toNat * sectorSize.toNat + x.toNat)

/-- Field `k` of the superblock. -/
def superField (k : ℕ) : U64 := packedAddr superblock 0 k

/-- The sector size and the fields of the superblock that are divided or shifted by. -/
structure GoodSuper (sectorSize : U32) (raw : Mem) : Prop where
  sector_ne : sectorSize ≠ 0
  log_le : load32 raw (superField 6) ≤ 2
  groups_ne : load32 raw (superField 8) ≠ 0
  inodes_ne : load32 raw (superField 10) ≠ 0

section Mount

variable {m : Machine} {p : Ext2Priv} {s t : Io} {raw : Mem} {w : ℕ}

theorem div_returns (a c : BitVec w) : Returns (fun r => c ≠ 0 ∧ r = a / c) (div a c) := by
  intro s r t h
  rw [div] at h
  split_ifs at h with hc
  obtain ⟨⟩ := h
  exact ⟨hc, rfl⟩

theorem shiftLeft_returns (a b : U32) :
    Returns (fun r => b < 32 ∧ r = a <<< b) (shiftLeft a b) := by
  intro s r t h
  rw [shiftLeft] at h
  split_ifs at h with hb
  obtain ⟨⟩ := h
  exact ⟨hb, rfl⟩

/-- The fields of the superblock lie in the first half of its 1024 bytes. -/
theorem superField_le : ∀ k ≤ 24, (superField k).toNat + 4 ≤ 512 := by decide

/-- What is read of the superblock. -/
theorem sectors_super (hsec : m.sectorSize ≠ 0) (buf : Mem) {x : U64} (hx : x.toNat < 512) :
    sectors m ((1024 / m.sectorSize).setWidth 64)
      (if 1024 / m.sectorSize = 0 then 1 else 1024 / m.sectorSize) buf x =
      superBytes m.sectorSize m.image x := by
  have hq : (1024 / m.sectorSize).toNat = 1024 / m.sectorSize.toNat := BitVec.toNat_udiv
  have hs : 0 < m.sectorSize.toNat := Nat.pos_of_ne_zero fun h => hsec (BitVec.eq_of_toNat_eq h)
  have hlba : ((1024 / m.sectorSize).setWidth 64 : U64).toNat = 1024 / m.sectorSize.toNat := by
    have := Nat.div_le_self 1024 m.sectorSize.toNat
    rw [BitVec.toNat_setWidth, hq, Nat.mod_eq_of_lt (by omega)]
  have hcount : 512 < (if 1024 / m.sectorSize = 0 then 1 else 1024 / m.sectorSize).toNat *
      m.sectorSize.toNat := by
    have hdm := Nat.div_add_mod 1024 m.sectorSize.toNat
    have hmod := Nat.mod_lt 1024 hs
    split_ifs with h0
    · have h0 : 1024 / m.sectorSize.toNat = 0 := by rw [← hq, h0]; rfl
      rw [h0, Nat.mul_zero] at hdm
      rw [show (1 : U32).toNat = 1 from rfl, Nat.one_mul]
      omega
    · have h1 : 1 ≤ 1024 / m.sectorSize.toNat := Nat.pos_of_ne_zero fun h =>
        h0 (BitVec.eq_of_toNat_eq (hq.trans h))
      have hle := Nat.le_mul_of_pos_right m.sectorSize.toNat h1
      rw [hq, Nat.mul_comm]
      omega
  rw [sectors, if_pos (by omega), hlba, superBytes]

theorem load32_super (hsec : m.sectorSize ≠ 0) (buf : Mem) {k : ℕ} (hk : k ≤ 24) :
    load32 (sectors m ((1024 / m.sectorSize).setWidth 64)
      (if 1024 / m.sectorSize = 0 then 1 else 1024 / m.sectorSize) buf) (superField k) =
      load32 (superBytes m.sectorSize m.image) (superField k) :=
  load32_congr fun x hx => sectors_super hsec buf (by
    have := superField_le k hk
    have := (within_iff (by omega)).1 hx
    omega)

theorem load16_super (hsec : m.sectorSize ≠ 0) (buf : Mem) {k : ℕ} (hk : k ≤ 24) :
    load16 (sectors m ((1024 / m.sectorSize).setWidth 64)
      (if 1024 / m.sectorSize = 0 then 1 else 1024 / m.sectorSize) buf) (superField k) =
      load16 (superBytes m.sectorSize m.image) (superField k) :=
  load16_congr fun x hx => sectors_super hsec buf (by
    have := superField_le k hk
    have := (within_iff (by omega)).1 hx
    omega)

/-! ### The mount has a result -/

theorem readInode_total (hsec : m.sectorSize ≠ 0) (hi : p.inodesPerGroup ≠ 0)
    (hb : p.blockSize ≠ 0) (ino : U32) : Total (ext2ReadInode m p ino) := by
  rw [ext2ReadInode]
  refine .ite (fun _ => .pure _) fun _ => .bind (div_total hi) fun _ => .bind (mod_total hi)
    fun _ => .bind (fun _ => ⟨_, _, rfl⟩) fun _ => .bind (div_total hb) fun _ =>
      .bind (mod_total hb) fun _ => .bind (kalloc_total 1) fun r => ?_
  cases r with
  | none => exact .pure _
  | some buf =>
    exact .bind (readBlock_total hsec _ _) fun _ =>
      .ite (fun _ => .bind (fun _ => ⟨_, _, rfl⟩) fun _ => .pure _) fun _ => .pure _

theorem makeVfsInode_total (ino : U32) (ei : Ext2Inode) : Total (ext2MakeVfsInode m ino ei) := by
  rw [ext2MakeVfsInode]
  refine .bind (kalloc_total 1) fun r => ?_
  cases r with
  | none => exact .pure _
  | some _ =>
    refine .bind (kalloc_total 1) fun r => ?_
    cases r with
    | none => exact .pure _
    | some _ => exact .pure _

theorem mountRoot_total (hsec : m.sectorSize ≠ 0) (hi : p.inodesPerGroup ≠ 0)
    (hb : p.blockSize ≠ 0) : Total (mountRoot m p) := by
  rw [mountRoot]
  refine .bind (readInode_total hsec hi hb _) fun r => ?_
  cases r with
  | error _ => exact .pure _
  | ok ei =>
    refine .bind (makeVfsInode_total _ _) fun r => ?_
    cases r with
    | none => exact .pure _
    | some _ =>
      refine .bind (kalloc_total 1) fun r => ?_
      cases r with
      | none => exact .pure _
      | some _ => exact .pure _

theorem bgdtLoop_total (hsec : m.sectorSize ≠ 0) (blk bytes : U32) (n : ℕ) :
    ∀ i bgdt, Total (bgdtLoop m p blk bytes n i bgdt) := by
  induction n with
  | zero => exact fun _ _ => .pure _
  | succ n ih =>
    intro i bgdt
    rw [bgdtLoop]
    refine .bind (kalloc_total 1) fun r => ?_
    cases r with
    | none => exact .pure _
    | some tmp => exact .bind (readBlock_total hsec _ _) fun _ => ih _ _

/-- With block sizes up to a page the shift is one of these. -/
theorem shift_cases {l : U32} (hl : l ≤ 2) : l < 32 ∧ (1024 : U32) <<< l ≠ 0 ∧ (1024 : U32) <<< l ≤ 4096 := by
  have hn : l.toNat ≤ 2 := BitVec.le_def.1 hl
  have h : ∀ n ≤ 2, BitVec.ofNat 32 n < 32 ∧ (1024 : U32) <<< BitVec.ofNat 32 n ≠ 0 ∧
      (1024 : U32) <<< BitVec.ofNat 32 n ≤ 4096 := by decide
  have := h l.toNat hn
  rwa [BitVec.ofNat_toNat, BitVec.setWidth_eq] at this

theorem shift_le {l : U32} (hl : l < 32) (h0 : (1024 : U32) <<< l ≠ 0) (h4 : (1024 : U32) <<< l ≤ 4096) :
    l ≤ 2 := by
  have hn : l.toNat < 32 := BitVec.lt_def.1 hl
  have h : ∀ n < 32, (1024 : U32) <<< BitVec.ofNat 32 n ≠ 0 → (1024 : U32) <<< BitVec.ofNat 32 n ≤ 4096 →
      BitVec.ofNat 32 n ≤ 2 := by decide
  have := h l.toNat hn
  rw [BitVec.ofNat_toNat, BitVec.setWidth_eq] at this
  exact this h0 h4

theorem mountSuper_total (hg : GoodSuper m.sectorSize raw) : Total (mountSuper m raw) := by
  obtain ⟨h32, hb, -⟩ := shift_cases hg.log_le
  rw [mountSuper]
  refine .ite (fun _ => .pure _) fun _ => .bind (kalloc_total 1) fun r => ?_
  cases r with
  | none => exact .pure _
  | some _ =>
    have hshift : shiftLeft 1024 (load32 raw (packedAddr superblock 0 6)) =
        pure ((1024 : U32) <<< load32 raw (packedAddr superblock 0 6)) := by
      funext s
      exact if_pos h32
    dsimp only
    rw [hshift, pure_bind]
    refine .bind (div_total hg.groups_ne) fun _ => .bind (kalloc_total _) fun r => ?_
    cases r with
    | none => exact .pure _
    | some bgdt =>
      refine .bind (div_total hb) fun _ => .bind (bgdtLoop_total hg.sector_ne _ _ _ _ _)
        fun r => ?_
      cases r with
      | none => exact .pure _
      | some bgdt => exact mountRoot_total hg.sector_ne hg.inodes_ne hb

/-! ### What it returns -/

/-- A mount that succeeds takes its sizes from the superblock. -/
structure FromSuper (raw : Mem) (q : Ext2Priv) : Prop where
  log_lt : load32 raw (superField 6) < 32
  block : q.blockSize = (1024 : U32) <<< load32 raw (superField 6)
  groups : q.blocksPerGroup = load32 raw (superField 8)
  inodes : q.inodesPerGroup = load32 raw (superField 10)
  groups_ne : load32 raw (superField 8) ≠ 0

theorem mountRoot_returns :
    Returns (fun r => ∀ c q root, r = (c, some (q, root)) → q = p) (mountRoot m p) := by
  have hnone : ∀ c : I32, Returns (fun r => ∀ c q root, r = (c, some (q, root)) → q = p)
      (pure (c, none) : Ext2M (I32 × Option (Ext2Priv × VfsInode))) := fun _ => .pure fun _ _ _ h =>
    nomatch h
  rw [mountRoot]
  refine .bind (.true _) fun r _ => ?_
  cases r with
  | error _ => exact hnone _
  | ok ei =>
    refine .bind (.true _) fun r _ => ?_
    cases r with
    | none => exact hnone _
    | some _ =>
      refine .bind (.true _) fun r _ => ?_
      cases r with
      | none => exact hnone _
      | some _ =>
        refine .pure fun c q root h => ?_
        obtain ⟨⟩ := h
        rfl

theorem mountSuper_returns : Returns
    (fun r => ∀ c q root, r = (c, some (q, root)) → FromSuper raw q) (mountSuper m raw) := by
  have hnone : ∀ c : I32, Returns (fun r => ∀ c q root, r = (c, some (q, root)) → FromSuper raw q)
      (pure (c, none) : Ext2M (I32 × Option (Ext2Priv × VfsInode))) := fun _ => .pure fun _ _ _ h =>
    nomatch h
  rw [mountSuper]
  refine .ite (fun _ => hnone _) fun _ => .bind (.true _) fun r _ => ?_
  cases r with
  | none => exact hnone _
  | some _ =>
    refine .bind (shiftLeft_returns _ _) fun bs hbs => .bind (div_returns _ _) fun _ hgr =>
      .bind (.true _) fun r _ => ?_
    cases r with
    | none => exact hnone _
    | some bgdt =>
      refine .bind (.true _) fun _ _ => .bind (.true _) fun r _ => ?_
      cases r with
      | none => exact hnone _
      | some bgdt =>
        intro s r t h c q root hr
        obtain rfl := mountRoot_returns s r t h c q root hr
        exact ⟨hbs.1, hbs.2, rfl, rfl, hgr.1⟩

/-! ### When nothing fails -/

theorem kalloc_returns (halloc : ∀ k n, m.alloc k n = true) (n : U64) :
    Returns (fun r => ∃ buf, r = some buf) (kalloc m n) := by
  intro s r t h
  rw [kalloc_apply, if_pos (halloc _ _)] at h
  obtain ⟨⟩ := h
  exact ⟨_, rfl⟩

theorem readBlock_returns (hok : ∀ k, m.status k = 0) (b : U32) (buf : Mem) :
    Returns (fun r => r.1 = 0) (ext2ReadBlock m p b buf) := by
  rintro s ⟨rc, buf'⟩ t h
  obtain ⟨rfl, -⟩ := readBlock_follows h
  exact hok _

theorem readInode_returns (hok : ∀ k, m.status k = 0) (halloc : ∀ k n, m.alloc k n = true)
    {ino : U32} (hino : ino ≠ 0) :
    Returns (fun r => ∃ ei, r = .ok ei) (ext2ReadInode m p ino) := by
  rw [ext2ReadInode, if_neg hino]
  refine .bind (.true _) fun _ _ => .bind (.true _) fun _ _ => .bind (.true _) fun _ _ =>
    .bind (.true _) fun _ _ => .bind (.true _) fun _ _ => .bind (kalloc_returns halloc 1)
      fun r hr => ?_
  obtain ⟨buf, rfl⟩ := hr
  refine .bind (readBlock_returns hok _ _) fun ⟨rc, buf⟩ hrc => ?_
  dsimp only at hrc ⊢
  rw [if_pos hrc]
  exact .bind (.true _) fun _ _ => .pure ⟨_, rfl⟩

theorem makeVfsInode_returns (halloc : ∀ k n, m.alloc k n = true) (ino : U32) (ei : Ext2Inode) :
    Returns (fun r => ∃ vino, r = some vino ∧ vino.ino = ino.setWidth 64)
      (ext2MakeVfsInode m ino ei) := by
  rw [ext2MakeVfsInode]
  refine .bind (kalloc_returns halloc 1) fun r hr => ?_
  obtain ⟨buf, rfl⟩ := hr
  refine .bind (kalloc_returns halloc 1) fun r hr => ?_
  obtain ⟨buf, rfl⟩ := hr
  exact .pure ⟨_, rfl, rfl⟩

theorem bgdtLoop_returns (halloc : ∀ k n, m.alloc k n = true) (blk bytes : U32) (n : ℕ) :
    ∀ i bgdt, Returns (fun r => ∃ bgdt, r = some bgdt) (bgdtLoop m p blk bytes n i bgdt) := by
  induction n with
  | zero => exact fun _ _ => .pure ⟨_, rfl⟩
  | succ n ih =>
    intro i bgdt
    rw [bgdtLoop]
    refine .bind (kalloc_returns halloc 1) fun r hr => ?_
    obtain ⟨tmp, rfl⟩ := hr
    exact .bind (.true _) fun _ _ => ih _ _

theorem mountRoot_succeeds (hok : ∀ k, m.status k = 0) (halloc : ∀ k n, m.alloc k n = true) :
    Returns (fun r => ∃ q, r = (0, some q)) (mountRoot m p) := by
  rw [mountRoot]
  refine .bind (readInode_returns hok halloc (by decide)) fun r hr => ?_
  obtain ⟨ei, rfl⟩ := hr
  refine .bind (makeVfsInode_returns halloc _ _) fun r hr => ?_
  obtain ⟨vino, rfl, -⟩ := hr
  refine .bind (kalloc_returns halloc 1) fun r hr => ?_
  obtain ⟨buf, rfl⟩ := hr
  exact .pure ⟨_, rfl⟩

theorem mountSuper_succeeds (hok : ∀ k, m.status k = 0) (halloc : ∀ k n, m.alloc k n = true)
    (hsig : load16 raw (superField 15) = signature) :
    Returns (fun r => ∃ q, r = (0, some q)) (mountSuper m raw) := by
  rw [mountSuper]
  refine .ite (fun h => absurd hsig h) fun _ => .bind (kalloc_returns halloc 1) fun r hr => ?_
  obtain ⟨buf, rfl⟩ := hr
  refine .bind (.true _) fun _ _ => .bind (.true _) fun _ _ => .bind (kalloc_returns halloc _)
    fun r hr => ?_
  obtain ⟨bgdt, rfl⟩ := hr
  refine .bind (.true _) fun _ _ => .bind (bgdtLoop_returns halloc _ _ _ _ _) fun r hr => ?_
  obtain ⟨bgdt, rfl⟩ := hr
  exact mountRoot_succeeds hok halloc

/-! ### The whole mount -/

/-- The superblock as it is read to `buf`. -/
def superRead (m : Machine) (buf : Mem) : Mem :=
  sectors m ((1024 / m.sectorSize).setWidth 64)
    (if 1024 / m.sectorSize = 0 then 1 else 1024 / m.sectorSize) buf

/-- A good superblock is good as it is read, and back. -/
theorem goodSuper_read (hsec : m.sectorSize ≠ 0) (buf : Mem) :
    GoodSuper m.sectorSize (superRead m buf) ↔
      GoodSuper m.sectorSize (superBytes m.sectorSize m.image) := by
  have hl : ∀ k ≤ 24, load32 (superRead m buf) (superField k) =
      load32 (superBytes m.sectorSize m.image) (superField k) := fun k hk => load32_super hsec buf hk
  exact ⟨fun h => ⟨hsec, hl 6 (by decide) ▸ h.log_le, hl 8 (by decide) ▸ h.groups_ne,
    hl 10 (by decide) ▸ h.inodes_ne⟩, fun h => ⟨hsec, (hl 6 (by decide)).symm ▸ h.log_le,
    (hl 8 (by decide)).symm ▸ h.groups_ne, (hl 10 (by decide)).symm ▸ h.inodes_ne⟩⟩

/-- Mounting reads the superblock and goes on with it, unless a buffer or the read fails. -/
theorem mountFs_cases (hsec : m.sectorSize ≠ 0) (s : Io) :
    (∃ c t, ext2MountFs m s = some ((c, none), t) ∧
      ((∃ k, m.alloc k 1 = false) ∨ ∃ k, m.status k ≠ 0)) ∨
    ∃ buf t, ext2MountFs m s = mountSuper m (superRead m buf) t := by
  rw [ext2MountFs, div_of_ne hsec]
  simp only [pure_bind]
  rcases Bool.eq_false_or_eq_true (m.alloc s.allocs 1) with hk | hk
  · have hk' := kalloc_apply m 1 s
    rw [if_pos hk] at hk'
    rw [bind_of hk']
    dsimp only
    rw [bind_of (rfl : blkRead m _ _ _ _ = _)]
    dsimp only
    by_cases h0 : m.status s.reads = 0
    · rw [h0, if_neg (absurd rfl), if_pos rfl]
      exact Or.inr ⟨_, _, rfl⟩
    · rw [if_pos h0]
      exact Or.inl ⟨_, _, rfl, Or.inr ⟨_, h0⟩⟩
  · have hk' := kalloc_apply m 1 s
    rw [if_neg (by rw [hk]; exact Bool.false_ne_true)] at hk'
    rw [bind_of hk']
    exact Or.inl ⟨_, _, rfl, Or.inl ⟨_, hk⟩⟩

/-- A good superblock makes the mount a good one. -/
theorem GoodSuper.mountChecks (hg : GoodSuper m.sectorSize (superBytes m.sectorSize m.image))
    (s : Io) : MountChecks m s := by
  rcases mountFs_cases hg.sector_ne s with ⟨c, t, h, -⟩ | ⟨buf, t, h⟩
  · refine ⟨⟨_, _, h⟩, fun p root u hu => ?_⟩
    obtain ⟨⟩ := h.symm.trans hu
  · have hr := (goodSuper_read hg.sector_ne buf).2 hg
    constructor
    · rw [h]
      exact mountSuper_total hr t
    · intro p root u hu
      rw [h] at hu
      have hf := mountSuper_returns t _ u hu 0 p root rfl
      obtain ⟨-, hb, h4⟩ := shift_cases hr.log_le
      refine ⟨hg.sector_ne, ?_, ?_, ?_, ?_⟩
      · rw [hf.groups]
        exact hr.groups_ne
      · rw [hf.inodes]
        exact hr.inodes_ne
      · rw [hf.block]
        exact hb
      · rw [hf.block]
        exact h4

/-- When nothing fails and the signature is right, a good mount has a good superblock. -/
theorem MountChecks.goodSuper (hok : ∀ k, m.status k = 0) (halloc : ∀ k n, m.alloc k n = true)
    (hsig : m.sectorSize ≠ 0 →
      load16 (superBytes m.sectorSize m.image) (superField 15) = signature)
    (h : MountChecks m s) : GoodSuper m.sectorSize (superBytes m.sectorSize m.image) := by
  obtain ⟨⟨r, t, hrun⟩, hgood⟩ := h
  have hsec : m.sectorSize ≠ 0 := by
    obtain ⟨_, _, hdiv, _⟩ := bind_eq_some.1 hrun
    exact (div_returns _ _ _ _ _ hdiv).1
  rcases mountFs_cases hsec s with ⟨c, u, -, hwhy⟩ | ⟨buf, u, hu⟩
  · rcases hwhy with ⟨k, hk⟩ | ⟨k, hk⟩
    · exact absurd (halloc k 1) (by rw [hk]; exact Bool.false_ne_true)
    · exact absurd (hok k) hk
  rw [hu] at hrun
  have hsig' : load16 (superRead m buf) (superField 15) = signature :=
    (load16_super hsec buf (by decide)).trans (hsig hsec)
  obtain ⟨⟨p, root⟩, rfl⟩ := mountSuper_succeeds hok halloc hsig' _ _ _ hrun
  have hp := hgood p root t (hu.trans hrun)
  have hf := mountSuper_returns _ _ _ hrun 0 p root rfl
  refine (goodSuper_read hsec buf).1 ⟨hsec, shift_le hf.log_lt ?_ ?_, hf.groups_ne, ?_⟩
  · rw [← hf.block]
    exact hp.block_ne
  · rw [← hf.block]
    exact hp.block_le
  · rw [← hf.inodes]
    exact hp.inodes_ne

end Mount

/-- For every IDENTIFY block and every content of the device with the signature, mounts are checked
under all failures if and only if the sector size and the superblock are good to start with. -/
theorem mount_checks_iff (id : Mem) (image : ℕ → U8)
    (hsig : ahciSectorSize id ≠ 0 →
      load16 (superBytes (ahciSectorSize id) image) (superField 15) = signature) :
    (∀ status alloc behind s, MountChecks ⟨ahciSectorSize id, image, status, alloc, behind⟩ s) ↔
      GoodSuper (ahciSectorSize id) (superBytes (ahciSectorSize id) image) :=
  ⟨fun h => (h (fun _ => 0) (fun _ _ => true) (fun _ => id) Io.start).goodSuper (fun _ => rfl)
    (fun _ _ => rfl) hsig, fun h _ _ _ s => GoodSuper.mountChecks h s⟩

/-- A superblock with the given fields from `total_blocs` on, and zeros otherwise. -/
def superImage (log : U8) : ℕ → U8
  | 1028 => 1
  | 1048 => log
  | 1056 => 1
  | 1064 => 8
  | 1080 => 0x53
  | 1081 => 0xEF
  | _ => 0

/-- Blocks of 8192 bytes are mounted, though a block buffer is one page. -/
theorem mount_large_blocks :
    ¬MountChecks ⟨ahciSectorSize fun _ => 0, superImage 3, fun _ => 0, fun _ _ => true,
      fun _ _ => 0⟩ Io.start := by
  intro h
  have hg := h.goodSuper (fun _ => rfl) (fun _ _ => rfl) fun _ => by decide +kernel
  exact absurd hg.log_le (by decide +kernel)

theorem mount_checks_iff_sample :
    MountChecks ⟨ahciSectorSize fun _ => 0, superImage 0, fun _ => 0, fun _ _ => true,
      fun _ _ => 0⟩ Io.start :=
  (mount_checks_iff (fun _ => 0) (superImage 0) fun _ => by decide +kernel).2
    ⟨by decide +kernel, by decide +kernel, by decide +kernel, by decide +kernel⟩ _ _ _ _

end Jeos.Ext2
