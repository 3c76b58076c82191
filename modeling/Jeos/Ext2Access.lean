import Jeos.Ext2Mount

/-!
# The accesses of a read

`InBlocks` says that an index into a table is below the number of its entries, and that bytes of a
block buffer lie in the block. `ext2_block_map` has four cases and takes every number it is not
done with for one of the last : with a triply indirect block the first index of a block number
from `maxBlocks` on is beyond the table.

So the accesses of all reads of a file are in bounds if and only if there is no triply indirect
block or the file has at most `maxBlocks` blocks (`readSafe_iff`).
-/

set_option linter.unusedSectionVars false

namespace Jeos.Ext2

open ByteMemory StateRun

/-- The index is one of the table, the bytes are bytes of the block. -/
def InBlocks (p : Ext2Priv) : Access → Prop
  | .bgdt i => i.toNat < p.numGroups.toNat
  | .indirect i => i.toNat < numPtrs p
  | .block e => e.start.toNat + e.length ≤ p.blockSize.toNat

/-- All accesses so far are in bounds. -/
def AllIn (p : Ext2Priv) (s : Io) : Prop := ∀ a ∈ s.accesses, InBlocks p a

/-- `x` returns, and its accesses are in bounds. -/
def Safe {α : Type} (p : Ext2Priv) (x : Ext2M α) : Prop :=
  ∀ s, AllIn p s → ∃ r t, x s = some (r, t) ∧ AllIn p t

section Grows

variable {m : Machine} {p : Ext2Priv} {ei : Ext2Inode} {s t : Io} {w : ℕ} {a : Access}

theorem Safe.of_total {α : Type} {x : Ext2M α} (hx : Total x) (hk : Keeps (AllIn p) x) :
    Safe p x := fun s hs => by
  obtain ⟨r, t, h⟩ := hx s
  exact ⟨r, t, h, hk s r t hs h⟩

/-! ### Accesses that are recorded stay recorded -/

/-- A computation that leaves the accesses alone. -/
theorem keeps_of_accesses {α : Type} {x : Ext2M α} {P : List Access → Prop}
    (h : ∀ s r t, x s = some (r, t) → t.accesses = s.accesses) :
    Keeps (fun s => P s.accesses) x := fun s r t hs hx => by
  have hs' : P s.accesses := hs
  rwa [← h s r t hx] at hs'

variable {P : List Access → Prop}

theorem div_keeps (b c : BitVec w) : Keeps (fun s => P s.accesses) (div b c) :=
  keeps_of_accesses fun _ _ _ h => by rw [div_eq_some h]

theorem mod_keeps (b c : BitVec w) : Keeps (fun s => P s.accesses) (mod b c) :=
  keeps_of_accesses fun _ _ _ h => by rw [mod_eq_some h]

theorem kalloc_keeps (n : U64) : Keeps (fun s => P s.accesses) (kalloc m n) :=
  keeps_of_accesses fun s r t h => by
    obtain ⟨⟩ := h
    rfl

theorem readBlock_keeps (b : U32) (buf : Mem) :
    Keeps (fun s => P s.accesses) (ext2ReadBlock m p b buf) :=
  keeps_of_accesses fun s r t h => by
    obtain ⟨-, rfl, -⟩ := readBlock_follows h
    rfl

theorem access_keeps (hP : ∀ l, P l → P (a :: l)) : Keeps (fun s => P s.accesses) (access a) := by
  rintro s r t hs ⟨⟩
  exact hP _ hs

theorem modify_tablesOk_keeps (g : Io → Bool) :
    Keeps (fun s => P s.accesses)
      (modify fun s : Io => { s with tablesOk := g s } : Ext2M PUnit) := by
  rintro s r t hs ⟨⟩
  exact hs

/-- An entry of a table, with the index that is computed. -/
theorem tableEntry_keeps {Q : U32 → Prop} {i : Ext2M U32} (tbl : U32)
    (hi : Keeps (fun s => P s.accesses) i) (hq : Returns Q i)
    (hP : ∀ k, Q k → ∀ l, P l → P (.indirect k :: l)) :
    Keeps (fun s => P s.accesses) (tableEntry m p tbl i) := by
  rw [tableEntry]
  refine .ite (fun _ => .pure 0) fun _ => .bind (kalloc_keeps 1) fun r => ?_
  cases r with
  | none => exact .pure 0
  | some buf =>
    exact .bind (readBlock_keeps _ _) fun _ => .bind (modify_tablesOk_keeps _) fun _ =>
      .bind_of hi hq fun k hk => .bind (access_keeps (hP k hk)) fun _ => .pure _

/-- The indices of `ext2_block_map` are below the size of a table, but for the first one of a block
number that is too large. -/
theorem blockMap_keeps (hbs : p.blockSize = 1024 ∨ p.blockSize = 2048 ∨ p.blockSize = 4096)
    (ei : Ext2Inode) {lbn : U32}
    (hP : ∀ k : U32, k.toNat < numPtrs p ∨ maxBlocks p ≤ lbn.toNat ∧ ei.block 14 ≠ 0 →
      ∀ l, P l → P (.indirect k :: l)) :
    Keeps (fun s => P s.accesses) (ext2BlockMap m p ei lbn) := by
  obtain ⟨hp0, hpp0⟩ := ptrs_ne hbs
  have hq : 0 < numPtrs p := by
    rw [← ptrs_toNat]
    exact Nat.pos_of_ne_zero fun h => hp0 (BitVec.eq_of_toNat_eq h)
  have hpp : (p.blockSize / 4 * (p.blockSize / 4)).toNat = numPtrs p * numPtrs p := by
    have hb := blockSize_bounds hbs
    have hn : numPtrs p ≤ 1024 := by omega
    have hsq := Nat.mul_le_mul hn hn
    rw [BitVec.toNat_mul, ptrs_toNat, Nat.mod_eq_of_lt (by omega)]
  have hmod : ∀ a : U32, Returns (fun k : U32 => k.toNat < numPtrs p) (mod a (p.blockSize / 4)) :=
    fun a s r t h => by
      rw [mod_of_ne hp0] at h
      obtain ⟨⟩ := h
      rw [BitVec.toNat_umod, ptrs_toNat]
      exact Nat.mod_lt _ hq
  have hP' : ∀ k : U32, k.toNat < numPtrs p → ∀ l, P l → P (.indirect k :: l) := fun k hk =>
    hP k (Or.inl hk)
  rw [ext2BlockMap]
  refine .ite (fun _ => .pure _) fun h12 => .ite (fun h1 => ?_) fun h1 => .ite (fun h2 => ?_)
    fun h2 => ?_
  · refine tableEntry_keeps _ (.pure _) (.pure ?_) hP'
    exact ptrs_toNat p ▸ BitVec.lt_def.1 h1
  · refine .bind (tableEntry_keeps _ (div_keeps _ _) (fun s r t h => ?_) hP') fun _ =>
      tableEntry_keeps _ (mod_keeps _ _) (hmod _) hP'
    rw [div_of_ne hp0] at h
    obtain ⟨⟩ := h
    have h2 := BitVec.lt_def.1 h2
    rw [BitVec.toNat_udiv, ptrs_toNat]
    exact (Nat.div_lt_iff_lt_mul hq).2 (hpp ▸ h2)
  · -- The first index below the triply indirect block.
    refine .bind ?_ fun _ => .bind (tableEntry_keeps _ (.bind (div_keeps _ _) fun _ =>
      mod_keeps _ _) (.bind (.true _) fun a _ => hmod a) hP') fun _ =>
        tableEntry_keeps _ (mod_keeps _ _) (hmod _) hP'
    by_cases h14 : ei.block 14 = 0
    · rw [tableEntry, if_pos h14]
      exact .pure _
    refine tableEntry_keeps _ (div_keeps _ _) (div_returns _ _) fun k hk => hP k ?_
    refine (Nat.lt_or_ge lbn.toNat (maxBlocks p)).imp (fun hlt => ?_) fun h => ⟨h, h14⟩
    obtain ⟨-, rfl⟩ := hk
    have e1 := toNat_sub_of_not_lt h12
    have e2 := toNat_sub_of_not_lt h1
    have e3 := toNat_sub_of_not_lt h2
    rw [show (12 : U32).toNat = 12 from rfl] at e1
    rw [ptrs_toNat] at e2
    rw [hpp] at e3
    rw [BitVec.toNat_udiv, hpp, Nat.div_lt_iff_lt_mul (Nat.mul_pos hq hq), e3, e2, e1]
    have h2 : numPtrs p ^ 2 = numPtrs p * numPtrs p := pow_two _
    have h3 : numPtrs p ^ 3 = numPtrs p * (numPtrs p * numPtrs p) := by rw [pow_succ', h2]
    rw [maxBlocks] at hlt
    have hpos := Nat.mul_pos hq (Nat.mul_pos hq hq)
    omega

theorem cacheBlock_keeps (hbs : p.blockSize = 1024 ∨ p.blockSize = 2048 ∨ p.blockSize = 4096)
    (ei : Ext2Inode) {lbn : U32} (curBlk : U32) (buf : Mem)
    (hP : ∀ k : U32, k.toNat < numPtrs p ∨ maxBlocks p ≤ lbn.toNat ∧ ei.block 14 ≠ 0 →
      ∀ l, P l → P (.indirect k :: l)) :
    Keeps (fun s => P s.accesses) (cacheBlock m p ei lbn curBlk buf) := by
  rw [cacheBlock]
  exact .ite (fun _ => .pure _) fun _ => .bind (blockMap_keeps hbs ei hP) fun _ =>
    .ite (fun _ => .pure _) fun _ => .bind (readBlock_keeps _ _) fun _ =>
      .ite (fun _ => .pure _) fun _ => .pure _

/-- A table or block access that is recorded is not lost. -/
theorem cacheBlock_grows (hbs : p.blockSize = 1024 ∨ p.blockSize = 2048 ∨ p.blockSize = 4096)
    (ei : Ext2Inode) (lbn curBlk : U32) (buf : Mem) (a : Access) :
    Keeps (fun s => a ∈ s.accesses) (cacheBlock m p ei lbn curBlk buf) :=
  cacheBlock_keeps (P := fun l => a ∈ l) hbs ei curBlk buf fun _ _ _ h => List.mem_cons_of_mem _ h

theorem access_grows (a b : Access) : Keeps (fun s => a ∈ s.accesses) (access b) :=
  access_keeps (P := fun l => a ∈ l) fun _ h => List.mem_cons_of_mem _ h

end Grows

/-! ## Reading a file -/

section Read

variable {m : Machine} {p : Ext2Priv} {ei : Ext2Inode} {s t : Io} {off count : U64} {a : Access}

/-- The accesses of the loop, with what the rounds have in common. -/
theorem readLoop_keeps {P : List Access → Prop}
    (hbs : p.blockSize = 1024 ∨ p.blockSize = 2048 ∨ p.blockSize = 4096)
    (hblk : ∀ e : Extent 64, e.start.toNat + e.length ≤ p.blockSize.toNat →
      ∀ l, P l → P (.block e :: l))
    (htbl : ∀ done, done < count → ∀ k : U32, k.toNat < numPtrs p ∨
      maxBlocks p ≤ (roundBlk p off done).toNat ∧ ei.block 14 ≠ 0 →
        ∀ l, P l → P (.indirect k :: l)) (fuel : ℕ) : ∀ done curBlk buf out,
    Keeps (fun s => P s.accesses) (readLoop m p ei off count fuel done curBlk buf out) := by
  have hne := blockSize_ne hbs
  induction fuel with
  | zero => exact fun _ _ _ _ _ _ _ _ h => nomatch h
  | succ fuel ih =>
    intro done curBlk buf out
    by_cases hlt : done < count
    swap
    · rw [readLoop, if_neg hlt]
      exact .pure _
    rw [readLoop_round hne hlt]
    refine .bind (cacheBlock_keeps hbs ei curBlk buf (htbl done hlt)) fun r => ?_
    cases r with
    | none => exact .pure _
    | some buf =>
      exact .bind (access_keeps (hblk _ (roundLen_bounds off hne hlt).2.2)) fun _ => ih _ _ _ _

theorem ext2Read_keeps {P : List Access → Prop}
    (hbs : p.blockSize = 1024 ∨ p.blockSize = 2048 ∨ p.blockSize = 4096) (out : Mem)
    (hblk : ∀ e : Extent 64, e.start.toNat + e.length ≤ p.blockSize.toNat →
      ∀ l, P l → P (.block e :: l))
    (htbl : off < ei.size → ∀ done,
      done < (if off + count > ei.size then ei.size - off else count) →
        ∀ k : U32, k.toNat < numPtrs p ∨ maxBlocks p ≤ (roundBlk p off done).toNat ∧
          ei.block 14 ≠ 0 → ∀ l, P l → P (.indirect k :: l)) :
    Keeps (fun s => P s.accesses) (ext2Read m p ei out count off) := by
  rw [ext2Read]
  refine .ite (fun _ => .pure _) fun hlt => .bind (kalloc_keeps 1) fun r => ?_
  cases r with
  | none => exact .pure _
  | some buf =>
    exact .bind (readLoop_keeps hbs hblk (htbl (BitVec.not_le.1 hlt)) _ _ _ _ _) fun _ => .pure _

/-- The position of a round, when the read does not go beyond the end of the file. -/
theorem roundBlk_lt (hbs : p.blockSize = 1024 ∨ p.blockSize = 2048 ∨ p.blockSize = 4096)
    (hsize : ei.size.toNat ≤ maxBlocks p * p.blockSize.toNat) (hc : count.toNat < 2 ^ 63)
    (hoff : off < ei.size) {done : U64}
    (hlt : done < (if off + count > ei.size then ei.size - off else count)) :
    (roundBlk p off done).toNat < maxBlocks p := by
  have hb := blockSize_bounds hbs
  have hmax := maxBlocks_lt hbs
  have hbytes := maxBytes_lt hbs
  have hoff' := BitVec.lt_def.1 hoff
  have hpos : off.toNat + done.toNat < ei.size.toNat := by
    have hadd : (off + count).toNat = off.toNat + count.toNat := by
      rw [BitVec.toNat_add, Nat.mod_eq_of_lt (by omega)]
    split_ifs at hlt with h
    · have hlt := BitVec.lt_def.1 hlt
      rw [BitVec.toNat_sub_of_le (BitVec.le_of_lt hoff)] at hlt
      omega
    · have h := BitVec.le_def.1 (BitVec.not_lt.1 h)
      have hlt := BitVec.lt_def.1 hlt
      omega
  have hbs64 : (p.blockSize.setWidth 64 : U64).toNat = p.blockSize.toNat := by
    rw [BitVec.toNat_setWidth, Nat.mod_eq_of_lt (by omega)]
  have hdiv : (off.toNat + done.toNat) / p.blockSize.toNat < maxBlocks p :=
    (Nat.div_lt_iff_lt_mul (by omega)).2 (by omega)
  rw [roundBlk, BitVec.toNat_setWidth, BitVec.toNat_udiv, BitVec.toNat_add, hbs64,
    Nat.mod_eq_of_lt (show off.toNat + done.toNat < 2 ^ 64 by omega), Nat.mod_eq_of_lt (by omega)]
  exact hdiv

/-- Reading an entry of a table records its index. -/
theorem tableEntry_access {tbl v : U32} {Q : U32 → Prop} {i : Ext2M U32}
    (halloc : ∀ k n, m.alloc k n = true) (ht : tbl ≠ 0) (hq : Returns Q i)
    (h : tableEntry m p tbl i s = some (v, t)) : ∃ k, Q k ∧ Access.indirect k ∈ t.accesses := by
  rw [tableEntry, if_neg ht] at h
  obtain ⟨r, u, hk, h⟩ := bind_eq_some.1 h
  obtain ⟨buf, rfl⟩ := kalloc_returns halloc 1 _ _ _ hk
  obtain ⟨⟨rc, buf'⟩, u', -, h⟩ := bind_eq_some.1 h
  obtain ⟨-, -, ⟨⟩, h⟩ := bind_eq_some.1 h
  obtain ⟨k, u', hi, h⟩ := bind_eq_some.1 h
  obtain ⟨-, -, ⟨⟩, h⟩ := bind_eq_some.1 h
  obtain ⟨⟩ := h
  exact ⟨k, hq _ _ _ hi, List.mem_cons_self⟩

/-- A block number that is too large for the tree gives an index that is too large. -/
theorem blockMap_beyond (hbs : p.blockSize = 1024 ∨ p.blockSize = 2048 ∨ p.blockSize = 4096)
    (halloc : ∀ k n, m.alloc k n = true) (h14 : ei.block 14 ≠ 0) {lbn v : U32}
    (hlbn : maxBlocks p ≤ lbn.toNat) (h : ext2BlockMap m p ei lbn s = some (v, t)) :
    ∃ k : U32, numPtrs p ≤ k.toNat ∧ Access.indirect k ∈ t.accesses := by
  have hb := blockSize_bounds hbs
  have hq : 0 < numPtrs p := by omega
  have hsq : numPtrs p * numPtrs p ≤ 1024 * 1024 := Nat.mul_le_mul (by omega) (by omega)
  have hpp : (p.blockSize / 4 * (p.blockSize / 4)).toNat = numPtrs p * numPtrs p := by
    rw [BitVec.toNat_mul, ptrs_toNat, Nat.mod_eq_of_lt (by omega)]
  have e2 : numPtrs p ^ 2 = numPtrs p * numPtrs p := pow_two _
  have e3 : numPtrs p ^ 3 = numPtrs p * (numPtrs p * numPtrs p) := by rw [pow_succ', e2]
  rw [maxBlocks] at hlbn
  have h1 : ¬lbn < 12 := BitVec.not_lt.2 (BitVec.le_def.2 (show 12 ≤ lbn.toNat by omega))
  have d1 : (lbn - 12).toNat = lbn.toNat - 12 := toNat_sub_of_not_lt h1
  have h2 : ¬lbn - 12 < p.blockSize / 4 :=
    BitVec.not_lt.2 (BitVec.le_def.2 (by rw [d1, ptrs_toNat]; omega))
  have d2 := toNat_sub_of_not_lt h2
  rw [d1, ptrs_toNat] at d2
  have h3 : ¬lbn - 12 - p.blockSize / 4 < p.blockSize / 4 * (p.blockSize / 4) :=
    BitVec.not_lt.2 (BitVec.le_def.2 (by rw [d2, hpp]; omega))
  have d3 := toNat_sub_of_not_lt h3
  rw [d2, hpp] at d3
  rw [ext2BlockMap] at h
  dsimp only at h
  rw [if_neg h1, if_neg h2, if_neg h3] at h
  obtain ⟨l, u, hl, h⟩ := bind_eq_some.1 h
  obtain ⟨k, ⟨-, hkq⟩, hk⟩ := tableEntry_access halloc h14 (div_returns _ _) hl
  have hgrow : ∀ (l : List Access) (b : Access), Access.indirect k ∈ l →
      Access.indirect k ∈ b :: l := fun _ _ h => List.mem_cons_of_mem _ h
  refine ⟨k, ?_, Keeps.bind (I := fun s : Io => Access.indirect k ∈ s.accesses)
    (tableEntry_keeps (P := fun l => Access.indirect k ∈ l) _ (.bind (div_keeps _ _) fun _ =>
      mod_keeps _ _) (.true _) fun _ _ l hl => hgrow l _ hl) (fun _ =>
        tableEntry_keeps (P := fun l => Access.indirect k ∈ l) _ (mod_keeps _ _) (.true _)
          fun _ _ l hl => hgrow l _ hl) _ _ _ hk h⟩
  rw [hkq, BitVec.toNat_udiv, d3, hpp, Nat.le_div_iff_mul_le (Nat.mul_pos hq hq)]
  omega

end Read

/-- A device with the given content. -/
def diskOf (sectorSize : U32) (image : ℕ → U8) (status : ℕ → I32) (alloc : ℕ → U64 → Bool)
    (behind : ℕ → Mem) : Machine := ⟨sectorSize, image, status, alloc, behind⟩

/-- All reads of the file have their accesses in bounds. The callers' counts are below 2^63. -/
def ReadSafe (sectorSize : U32) (image : ℕ → U8) (p : Ext2Priv) (ei : Ext2Inode) : Prop :=
  ∀ status alloc behind out off (count : U64), count.toNat < 2 ^ 63 →
    Safe p (ext2Read (diskOf sectorSize image status alloc behind) p ei out count off)


section ReadSafe

variable {p : Ext2Priv} {ei : Ext2Inode} {sectorSize : U32} {image : ℕ → U8}

theorem readSafe_of (hbs : p.blockSize = 1024 ∨ p.blockSize = 2048 ∨ p.blockSize = 4096)
    (hsec : sectorSize ≠ 0)
    (h : ei.block 14 = 0 ∨ ei.size.toNat ≤ maxBlocks p * p.blockSize.toNat) :
    ReadSafe sectorSize image p ei := by
  refine fun status alloc behind out off count hc => .of_total
    (ext2Read_total hbs hsec ei out count off) (ext2Read_keeps
      (P := fun l => ∀ a ∈ l, InBlocks p a) hbs out (fun e he l hl => ?_)
      fun hoff done hlt k hk l hl => ?_)
  · exact List.forall_mem_cons.2 ⟨he, hl⟩
  · refine List.forall_mem_cons.2 ⟨?_, hl⟩
    refine hk.resolve_right fun ⟨hge, h14⟩ => ?_
    exact absurd hge (Nat.not_le.2 (roundBlk_lt hbs (h.resolve_left h14) hc hoff hlt))

/-- Reading the first byte beyond the tree of a file. -/
theorem readSafe_cond (hbs : p.blockSize = 1024 ∨ p.blockSize = 2048 ∨ p.blockSize = 4096)
    (h : ReadSafe sectorSize image p ei) :
    ei.block 14 = 0 ∨ ei.size.toNat ≤ maxBlocks p * p.blockSize.toNat := by
  by_contra hcon
  obtain ⟨h14, hsize⟩ := not_or.1 hcon
  have hsize := Nat.lt_of_not_le hsize
  have hb := blockSize_bounds hbs
  have hmax := maxBlocks_lt hbs
  have hbytes := maxBytes_lt hbs
  have hne := blockSize_ne hbs
  obtain ⟨r, t, hrun, hin⟩ := h (fun _ => 0) (fun _ _ => true) (fun _ _ => 0) (fun _ => 0)
    (BitVec.ofNat 64 (maxBlocks p * p.blockSize.toNat)) 1 (by decide) Io.start fun a ha =>
      absurd ha List.not_mem_nil
  have hoff : (BitVec.ofNat 64 (maxBlocks p * p.blockSize.toNat)).toNat =
      maxBlocks p * p.blockSize.toNat := by
    rw [BitVec.toNat_ofNat, Nat.mod_eq_of_lt (by omega)]
  generalize BitVec.ofNat 64 (maxBlocks p * p.blockSize.toNat) = off at hrun hoff
  have hlt : off < ei.size := BitVec.lt_def.2 (by omega)
  have hcount : ¬off + 1 > ei.size := by
    refine BitVec.not_lt.2 (BitVec.le_def.2 ?_)
    rw [BitVec.toNat_add, hoff, show (1 : U64).toNat = 1 from rfl, Nat.mod_eq_of_lt (by omega)]
    omega
  have hblk : (roundBlk p off 0).toNat = maxBlocks p := by
    have hbs64 : (p.blockSize.setWidth 64 : U64).toNat = p.blockSize.toNat := by
      rw [BitVec.toNat_setWidth, Nat.mod_eq_of_lt (by omega)]
    rw [roundBlk, show off + 0 = off from BitVec.add_zero _, BitVec.toNat_setWidth,
      BitVec.toNat_udiv, hoff, hbs64, Nat.mul_div_cancel _ (by omega), Nat.mod_eq_of_lt (by omega)]
  rw [ext2Read, if_neg (BitVec.not_le.2 hlt), if_neg hcount] at hrun
  obtain ⟨b, u, hk, hrun⟩ := bind_eq_some.1 hrun
  obtain ⟨buf, rfl⟩ := kalloc_returns (fun _ _ => rfl) 1 _ _ _ hk
  obtain ⟨d, v, hloop, hrun⟩ := bind_eq_some.1 hrun
  obtain ⟨⟩ := hrun
  obtain ⟨n, hn⟩ : ∃ n, loopFuel = n + 1 := ⟨2 ^ 64 - 1, rfl⟩
  rw [hn, readLoop_round hne (by decide)] at hloop
  obtain ⟨c, w, hc, hloop⟩ := bind_eq_some.1 hloop
  have hcur : roundBlk p off 0 ≠ -1 := ne_of_toNat_ne (by
    rw [hblk, show (-1 : U32).toNat = 2 ^ 32 - 1 from rfl]
    omega)
  rw [cacheBlock, if_neg hcur] at hc
  obtain ⟨x, y, hx, hc⟩ := bind_eq_some.1 hc
  obtain ⟨k, hk, hmem⟩ := blockMap_beyond hbs (fun _ _ => rfl) h14 hblk.ge hx
  -- The access is still there at the end.
  have hgrow : ∀ (l : List Access) (b : Access), Access.indirect k ∈ l →
      Access.indirect k ∈ b :: l := fun _ _ h => List.mem_cons_of_mem _ h
  have hw : Access.indirect k ∈ w.accesses := Keeps.ite
    (fun _ => .pure (I := fun s : Io => Access.indirect k ∈ s.accesses) _)
    (fun _ => .bind (readBlock_keeps (P := fun l => Access.indirect k ∈ l) _ _) fun _ =>
      .ite (fun _ => .pure _) fun _ => .pure _) _ _ _ hmem hc
  have ht : Access.indirect k ∈ t.accesses := by
    cases c with
    | none =>
      obtain ⟨⟩ := hloop
      exact hw
    | some buf =>
      exact Keeps.bind (I := fun s : Io => Access.indirect k ∈ s.accesses)
        (access_keeps (P := fun l => Access.indirect k ∈ l) fun l hl => hgrow l _ hl)
        (fun _ => readLoop_keeps (P := fun l => Access.indirect k ∈ l) hbs
          (fun _ _ l hl => hgrow l _ hl) (fun _ _ _ _ l hl => hgrow l _ hl) _ _ _ _ _)
        _ _ _ hw hloop
  exact absurd (hin _ ht) (Nat.not_lt.2 hk)

/-- The reads of a file are in bounds just when its blocks are blocks of the tree. -/
theorem readSafe_iff (hbs : p.blockSize = 1024 ∨ p.blockSize = 2048 ∨ p.blockSize = 4096)
    (hsec : sectorSize ≠ 0) : ReadSafe sectorSize image p ei ↔
      ei.block 14 = 0 ∨ ei.size.toNat ≤ maxBlocks p * p.blockSize.toNat :=
  ⟨readSafe_cond hbs, readSafe_of hbs hsec⟩

end ReadSafe

end Jeos.Ext2
