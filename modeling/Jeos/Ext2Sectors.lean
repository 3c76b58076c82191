import Jeos.Ext2Mount

/-!
# Sector sizes

`ext2_mount_fs` and `ext2_read_block` turn byte offsets into sectors by division. The quotients are
exact for sectors of 512 and 1024 bytes. For larger ones `1024 / sector_size` is 0, and so is
`block_size / sector_size` when a block is smaller than a sector : the mount takes sector 0 for the
superblock, and a block is not read at all (`sector_independent_iff`).
-/

set_option linter.unusedSectionVars false

namespace Jeos.Ext2

open ByteMemory StateRun

/-- The mount goes on with the bytes from 1024 on. -/
def ReadsSuper (m : Machine) : Prop := ∀ s, ∃ raw t, ext2MountFs m s = mountSuper m raw t ∧
  ∀ x : U64, x.toNat < 1024 → raw x = m.image (1024 + x.toNat)

/-- Block `b` is read, and nothing else. -/
def ReadsBlock (m : Machine) (p : Ext2Priv) (b : U32) : Prop := ∀ buf s, ∃ buf' t,
  ext2ReadBlock m p b buf s = some ((0, buf'), t) ∧
    (∀ x : U64, x.toNat < p.blockSize.toNat →
      buf' x = m.image (b.toNat * p.blockSize.toNat + x.toNat)) ∧
    ∀ x : U64, p.blockSize.toNat ≤ x.toNat → buf' x = buf x

/-- For every content of a device with these sectors the superblock and all blocks are read. -/
def SectorIndependent (sectorSize : U32) : Prop := ∀ image,
  ReadsSuper (goodDisk sectorSize image) ∧
    ∀ p : Ext2Priv, p.blockSize = 1024 ∨ p.blockSize = 2048 ∨ p.blockSize = 4096 →
      ∀ b, ReadsBlock (goodDisk sectorSize image) p b

section Sectors

variable {m : Machine} {p : Ext2Priv} {sectorSize : U32} {image : ℕ → U8}

/-- The mount reads the superblock and goes on with it. -/
theorem mountFs_super (image : ℕ → U8) (hsec : sectorSize ≠ 0) (s : Io) : ∃ buf t,
    ext2MountFs (goodDisk sectorSize image) s =
      mountSuper (goodDisk sectorSize image) (superRead (goodDisk sectorSize image) buf) t := by
  rcases mountFs_cases (m := goodDisk sectorSize image) hsec s with ⟨-, -, -, ⟨k, hk⟩ | ⟨k, hk⟩⟩ | h
  · exact nomatch (show true = false from hk)
  · exact absurd rfl hk
  · exact h

theorem readsSuper_of_le (h : sectorSize = 512 ∨ sectorSize = 1024) :
    ReadsSuper (goodDisk sectorSize image) := by
  intro s
  have hsec : sectorSize ≠ 0 := by rcases h with rfl | rfl <;> decide
  obtain ⟨buf, t, hrun⟩ := mountFs_super image hsec s
  refine ⟨_, t, hrun, fun x hx => ?_⟩
  have hlba : ((1024 / sectorSize).setWidth 64 : U64).toNat * sectorSize.toNat = 1024 := by
    rcases h with rfl | rfl <;> decide
  have hcount : (if 1024 / sectorSize = 0 then 1 else 1024 / sectorSize).toNat *
      sectorSize.toNat = 1024 := by
    rcases h with rfl | rfl <;> decide
  change sectors (goodDisk sectorSize image) _ (if 1024 / sectorSize = 0 then 1
    else 1024 / sectorSize) buf x = image _
  rw [sectors, show (goodDisk sectorSize image).sectorSize = sectorSize from rfl, hcount,
    if_pos hx, hlba]
  rfl

theorem readsBlock_of_le (hs : sectorSize = 512 ∨ sectorSize = 1024)
    (hbs : p.blockSize = 1024 ∨ p.blockSize = 2048 ∨ p.blockSize = 4096) (b : U32) :
    ReadsBlock (goodDisk sectorSize image) p b := by
  have hg : Geometry (goodDisk sectorSize image) p := by
    refine ⟨hbs, ?_, ?_⟩
    · rcases hs with rfl | rfl
      · exact show (512 : U32) ≠ 0 by decide
      · exact show (1024 : U32) ≠ 0 by decide
    · have h1024 : (goodDisk sectorSize image).sectorSize.toNat ∣ 1024 := by
        rcases hs with rfl | rfl
        · exact show 512 ∣ 1024 by decide
        · exact show 1024 ∣ 1024 by decide
      refine h1024.trans ?_
      rcases hbs with h | h | h <;> rw [h] <;> decide
  exact fun buf s => ⟨_, _, readBlock_run hg b buf s, fun x hx => if_pos hx,
    fun x hx => if_neg (Nat.not_lt.2 hx)⟩

/-- With larger sectors the mount looks for the superblock in sector 0. -/
theorem not_readsSuper (hs : sectorSize = 2048 ∨ sectorSize = 4096) :
    ¬ReadsSuper (goodDisk sectorSize (superImage 0)) := by
  intro h
  have hsec : sectorSize ≠ 0 := by rcases hs with rfl | rfl <;> decide
  obtain ⟨raw, t, hrun, hraw⟩ := h Io.start
  obtain ⟨buf, u, hu⟩ := mountFs_super (superImage 0) hsec Io.start
  have hsig : load16 raw (superField 15) = signature := by
    have hcongr : load16 raw (superField 15) =
        load16 (fun x => superImage 0 (1024 + x.toNat)) (superField 15) :=
      load16_congr fun x hx => hraw x (by
        have := superField_le 15 (by decide)
        have := (within_iff (by omega)).1 hx
        omega)
    rw [hcongr]
    decide +kernel
  have hbad : load16 (superRead (goodDisk sectorSize (superImage 0)) buf) (superField 15) ≠
      signature := by
    rw [superRead, load16_super hsec buf (by decide)]
    rcases hs with rfl | rfl <;> decide +kernel
  have hfail : ext2MountFs (goodDisk sectorSize (superImage 0)) Io.start = some ((-1, none), u) := by
    rw [hu, mountSuper]
    exact congrFun (if_pos hbad) u
  obtain ⟨q, hq⟩ := mountSuper_succeeds (m := goodDisk sectorSize (superImage 0)) (fun _ => rfl)
    (fun _ _ => rfl) hsig t (-1, none) u (hrun.symm.trans hfail)
  cases hq

end Sectors

/-- The superblock and all blocks are read just when a sector has at most 1024 bytes. -/
theorem sector_independent_iff {sectorSize : U32} (h : sectorSize = 512 ∨ sectorSize = 1024 ∨
    sectorSize = 2048 ∨ sectorSize = 4096) : SectorIndependent sectorSize ↔ sectorSize ≤ 1024 := by
  constructor
  · intro hind
    rcases h with rfl | rfl | rfl | rfl
    · decide
    · decide
    · exact absurd (hind (superImage 0)).1 (not_readsSuper (Or.inl rfl))
    · exact absurd (hind (superImage 0)).1 (not_readsSuper (Or.inr rfl))
  · intro hle image
    have hs : sectorSize = 512 ∨ sectorSize = 1024 := by
      rcases h with rfl | rfl | rfl | rfl
      · exact Or.inl rfl
      · exact Or.inr rfl
      · exact absurd hle (by decide)
      · exact absurd hle (by decide)
    exact ⟨readsSuper_of_le hs, fun p hbs b => readsBlock_of_le hs hbs b⟩

/-- On a device with sectors of 4096 bytes the file system is not found, and its blocks of 1024
bytes are not read. -/
theorem not_sector_independent : ¬SectorIndependent 4096 ∧
    ¬ReadsBlock (goodDisk 4096 fun _ => 7) smallPriv 0 := by
  refine ⟨fun h => absurd (h (superImage 0)).1 (not_readsSuper (Or.inr rfl)), fun h => ?_⟩
  obtain ⟨buf, t, hrun, hbytes, -⟩ := h (fun _ => 0) Io.start
  have h7 : buf 0 = 7 := hbytes 0 (by decide)
  have hzero : (ext2ReadBlock (goodDisk 4096 fun _ => 7) smallPriv 0 (fun _ => 0) Io.start).map
      (fun r => r.1.2 0) = some 0 := by decide
  rw [hrun] at hzero
  exact absurd (h7.symm.trans (Option.some.inj hzero)) (by decide)

theorem sector_independent_iff_512 : SectorIndependent 512 :=
  (sector_independent_iff (Or.inl rfl)).2 (by decide)

end Jeos.Ext2
