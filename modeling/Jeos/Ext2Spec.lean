import Jeos.Ext2
import Jeos.Lib.StateRun

/-!
# The blocks of a file

A file is a tree : `blockPath` is the slot of the inode and the indices in the tables below it
for a block of the file, and `mapBlock` the pointer at the end of that path. `ext2_block_map`
reads the tables along the path (`ext2BlockMap_eq`), and what it returns is `mapBlock` when no
read of a table fails (`readPath_spec`).

`fileByte` is the content of the file, with zeros where no block is allocated.
-/

set_option linter.unusedSectionVars false

namespace Jeos.Ext2

open ByteMemory StateRun

/-! ## Blocks of the device -/

section Device

variable (m : Machine) (p : Ext2Priv)

/-- Byte `x` of block `b`. -/
def blockMem (b : ℕ) : Mem := fun x => m.image (b * p.blockSize.toNat + x.toNat)

/-- The block sizes of the format, and blocks of whole sectors. -/
structure Geometry : Prop where
  size : p.blockSize = 1024 ∨ p.blockSize = 2048 ∨ p.blockSize = 4096
  sector_ne : m.sectorSize ≠ 0
  sector_dvd : m.sectorSize.toNat ∣ p.blockSize.toNat

/-- The buffer holds block `b`. -/
def Holds (b : ℕ) (buf : Mem) : Prop :=
  ∀ x : U64, x.toNat < p.blockSize.toNat → buf x = blockMem m p b x

/-- Entry `i` of the table in block `tbl`. -/
def tablePtr (tbl : U32) (i : ℕ) : U32 :=
  if tbl = 0 then 0 else load32 (blockMem m p tbl.toNat) (BitVec.ofNat 64 (4 * i))

/-- The slot of the inode and the indices in the tables below it for block `n` of a file, with
`q` entries in a table. -/
def blockPath (q n : ℕ) : ℕ × List ℕ :=
  if n < 12 then (n, [])
  else if n - 12 < q then (12, [n - 12])
  else if n - 12 - q < q * q then (13, [(n - 12 - q) / q, (n - 12 - q) % q])
  else
    let k := n - 12 - q - q * q
    (14, [k / (q * q), k / q % q, k % q])

/-- The number of entries of a table. -/
def numPtrs : ℕ := p.blockSize.toNat / 4

/-- The number of blocks the tree of a file has places for. -/
def maxBlocks : ℕ := 12 + numPtrs p + numPtrs p ^ 2 + numPtrs p ^ 3

/-- The block of the device for block `n` of the file, or 0. -/
def mapBlock (ei : Ext2Inode) (n : ℕ) : U32 :=
  (blockPath (numPtrs p) n).2.foldl (tablePtr m p) (ei.block (blockPath (numPtrs p) n).1)

/-- Byte `k` of the file. -/
def fileByte (ei : Ext2Inode) (k : ℕ) : U8 :=
  if mapBlock m p ei (k / p.blockSize.toNat) = 0 then 0
  else m.image ((mapBlock m p ei (k / p.blockSize.toNat)).toNat * p.blockSize.toNat +
    k % p.blockSize.toNat)

/-- The buffer holds block `n` of the file, which is allocated. -/
structure Cached (ei : Ext2Inode) (n : ℕ) (buf : Mem) : Prop where
  mapped : mapBlock m p ei n ≠ 0
  holds : Holds m p (mapBlock m p ei n).toNat buf

/-- The reads of `ext2_block_map` below the table `tbl`. -/
def readPath (tbl : U32) (digits : List ℕ) : Ext2M U32 :=
  digits.foldlM (fun t i => tableEntry m p t (pure (BitVec.ofNat 32 i))) tbl

end Device

section Blocks

variable {m : Machine} {p : Ext2Priv} {ei : Ext2Inode} {s t : Io} {b : U32} {buf buf' : Mem}
  {tbl v : U32} {i n : ℕ} {rc : I32} {ds : List ℕ} {w : ℕ}

theorem ptrs_toNat (p : Ext2Priv) : (p.blockSize / 4).toNat = numPtrs p := by
  rw [BitVec.toNat_udiv]
  rfl

/-- What the block sizes have in common. -/
theorem blockSize_bounds (hbs : p.blockSize = 1024 ∨ p.blockSize = 2048 ∨ p.blockSize = 4096) :
    1024 ≤ p.blockSize.toNat ∧ p.blockSize.toNat ≤ 4096 ∧ p.blockSize.toNat = 4 * numPtrs p := by
  rw [numPtrs]
  rcases hbs with h | h | h <;> rw [h] <;> decide

theorem Geometry.bounds (hg : Geometry m p) : 1024 ≤ p.blockSize.toNat ∧
    p.blockSize.toNat ≤ 4096 ∧ p.blockSize.toNat = 4 * numPtrs p := blockSize_bounds hg.size

theorem div_of_ne {a c : BitVec w} (hc : c ≠ 0) : div a c = pure (a / c) := by
  funext s
  exact if_neg hc

theorem mod_of_ne {a c : BitVec w} (hc : c ≠ 0) : mod a c = pure (a % c) := by
  funext s
  exact if_neg hc

theorem kalloc_apply (m : Machine) (k : U64) (s : Io) : kalloc m k s =
    some (if m.alloc s.allocs k then some (fill (m.behind s.allocs) 0 5 (k * pageSize).toNat)
      else none, { s with allocs := s.allocs + 1 }) := rfl

/-- `ext2_read_block` reads the whole block and no more, or leaves the buffer. -/
theorem readBlock_run (hg : Geometry m p) (b : U32) (buf : Mem) (s : Io) :
    ext2ReadBlock m p b buf s = some ((m.status s.reads, if m.status s.reads = 0 then
      fun x => if x.toNat < p.blockSize.toNat then blockMem m p b.toNat x else buf x
      else buf), { s with reads := s.reads + 1 }) := by
  have hspb : (p.blockSize / m.sectorSize).toNat * m.sectorSize.toNat = p.blockSize.toNat := by
    rw [BitVec.toNat_udiv]
    exact Nat.div_mul_cancel hg.sector_dvd
  have hlba : (b.setWidth 64 * (p.blockSize / m.sectorSize).setWidth 64 : U64).toNat =
      b.toNat * (p.blockSize / m.sectorSize).toNat := by
    have hb := b.isLt
    have hs := (p.blockSize / m.sectorSize).isLt
    rw [BitVec.toNat_mul, BitVec.toNat_setWidth, BitVec.toNat_setWidth,
      Nat.mod_eq_of_lt (hb.trans (by norm_num)), Nat.mod_eq_of_lt (hs.trans (by norm_num)),
      Nat.mod_eq_of_lt (lt_of_lt_of_le (Nat.mul_lt_mul'' hb hs) (by norm_num))]
  have hread : sectors m (b.setWidth 64 * (p.blockSize / m.sectorSize).setWidth 64)
      (p.blockSize / m.sectorSize) buf =
      fun x => if x.toNat < p.blockSize.toNat then blockMem m p b.toNat x else buf x := by
    funext x
    rw [sectors, hspb, hlba, blockMem, Nat.mul_assoc, hspb]
  rw [ext2ReadBlock, div_of_ne hg.sector_ne, pure_bind, ← hread]
  rfl

theorem readBlock_eq (hg : Geometry m p) (b : U32) (buf : Mem) (s : Io) : ∃ buf',
    ext2ReadBlock m p b buf s = some ((m.status s.reads, buf'), { s with reads := s.reads + 1 }) ∧
      (m.status s.reads = 0 → Holds m p b.toNat buf') := by
  refine ⟨_, readBlock_run hg b buf s, fun h0 x hx => ?_⟩
  rw [if_pos h0, if_pos hx]

/-- An entry of a table that was read. -/
theorem Holds.load32_eq (hg : Geometry m p) (hh : Holds m p b.toNat buf) (hi : i < numPtrs p) :
    load32 buf (BitVec.ofNat 64 (4 * i)) =
      load32 (blockMem m p b.toNat) (BitVec.ofNat 64 (4 * i)) := by
  refine load32_congr fun x hx => hh x ?_
  have h4 := hg.bounds
  have ha : (BitVec.ofNat 64 (4 * i)).toNat = 4 * i := by
    rw [BitVec.toNat_ofNat, Nat.mod_eq_of_lt (by omega)]
  have := (within_iff (by rw [ha]; omega)).1 hx
  omega

/-- The state after a table was read. -/
def Io.afterTable (m : Machine) (s : Io) (i : ℕ) : Io :=
  ⟨s.reads + 1, s.allocs + 1, .indirect (BitVec.ofNat 32 i) :: s.accesses,
    s.tablesOk && m.status s.reads = 0⟩

/-- Reading an entry of a table : there is no table, there is no buffer, or the table is read. -/
theorem tableEntry_cases (hg : Geometry m p) (tbl : U32) (i : ℕ) (s : Io) :
    ∃ v t, tableEntry m p tbl (pure (BitVec.ofNat 32 i)) s = some (v, t) ∧
      (tbl = 0 ∧ v = 0 ∧ t = s ∨
      tbl ≠ 0 ∧ m.alloc s.allocs 1 = false ∧ v = 0 ∧ t = { s with allocs := s.allocs + 1 } ∨
      tbl ≠ 0 ∧ m.alloc s.allocs 1 = true ∧ t = s.afterTable m i ∧
        (m.status s.reads = 0 → i < numPtrs p → v = tablePtr m p tbl i)) := by
  rw [tableEntry]
  by_cases ht : tbl = 0
  · rw [if_pos ht]
    exact ⟨0, s, rfl, Or.inl ⟨ht, rfl, rfl⟩⟩
  rw [if_neg ht]
  rcases Bool.eq_false_or_eq_true (m.alloc s.allocs 1) with hk | hk
  · have hk' := kalloc_apply m 1 s
    rw [if_pos hk] at hk'
    obtain ⟨buf, hread, hbuf⟩ := readBlock_eq hg tbl (fill (m.behind s.allocs) 0 5 (1 * pageSize).toNat)
      { s with allocs := s.allocs + 1 }
    rw [bind_of hk']
    dsimp only
    rw [bind_of hread]
    refine ⟨_, _, rfl, Or.inr (Or.inr ⟨ht, hk, rfl, fun h0 hi => ?_⟩)⟩
    have hi' : (BitVec.ofNat 32 i).toNat = i := by
      have := hg.bounds
      rw [BitVec.toNat_ofNat, Nat.mod_eq_of_lt (by omega)]
    rw [hi', tablePtr, if_neg ht]
    exact (hbuf h0).load32_eq hg hi
  · have hk' := kalloc_apply m 1 s
    rw [if_neg (by rw [hk]; exact Bool.false_ne_true)] at hk'
    rw [bind_of hk']
    exact ⟨0, _, rfl, Or.inr (Or.inl ⟨ht, hk, rfl, rfl⟩)⟩

theorem readPath_nil (tbl : U32) : readPath m p tbl [] = pure tbl := rfl

theorem readPath_cons (tbl : U32) (i : ℕ) (ds : List ℕ) : readPath m p tbl (i :: ds) =
    tableEntry m p tbl (pure (BitVec.ofNat 32 i)) >>= fun t => readPath m p t ds := rfl

/-- Subtraction that does not wrap. -/
theorem toNat_sub_of_not_lt {a c : BitVec w} (h : ¬a < c) : (a - c).toNat = a.toNat - c.toNat :=
  BitVec.toNat_sub_of_le (BitVec.not_lt.1 h)

/-- `ext2_block_map` reads the tables on the path of the block. -/
theorem ext2BlockMap_eq (hg : Geometry m p) (ei : Ext2Inode) (lbn : U32) :
    ext2BlockMap m p ei lbn = readPath m p (ei.block (blockPath (numPtrs p) lbn.toNat).1)
      (blockPath (numPtrs p) lbn.toNat).2 := by
  have hq := hg.bounds
  have hsq : numPtrs p * numPtrs p ≤ 1024 * 1024 := Nat.mul_le_mul (by omega) (by omega)
  have hof : ∀ {a : U32} {k : ℕ}, a.toNat = k → BitVec.ofNat 32 k = a := fun h => by
    rw [← h, BitVec.ofNat_toNat, BitVec.setWidth_eq]
  have hne : ∀ {a : U32}, 0 < a.toNat → a ≠ 0 := fun h h0 => by
    rw [h0] at h
    exact absurd h (Nat.lt_irrefl _)
  rw [ext2BlockMap, blockPath]
  dsimp only
  -- The table size and its square as numbers.
  have hp : (p.blockSize / 4).toNat = numPtrs p := ptrs_toNat p
  generalize p.blockSize / 4 = ptrs at hp ⊢
  have hpp : (ptrs * ptrs).toNat = numPtrs p * numPtrs p := by
    rw [BitVec.toNat_mul, hp, Nat.mod_eq_of_lt (by omega)]
  generalize ptrs * ptrs = sq at hpp ⊢
  have hp0 : ptrs ≠ 0 := hne (by omega)
  have hsq0 : sq ≠ 0 := hne (hpp ▸ Nat.mul_pos (by omega) (by omega))
  by_cases h1 : lbn < 12
  · rw [if_pos h1, if_pos (show lbn.toNat < 12 from BitVec.lt_def.1 h1)]
    rfl
  have e1 : (lbn - 12).toNat = lbn.toNat - 12 := toNat_sub_of_not_lt h1
  rw [if_neg h1, if_neg (show ¬lbn.toNat < 12 from fun h => h1 (BitVec.lt_def.2 h)), ← e1]
  generalize lbn - 12 = a
  by_cases h2 : a < ptrs
  · rw [if_pos h2, if_pos (hp ▸ BitVec.lt_def.1 h2), readPath_cons, hof rfl]
    simp only [readPath_nil, bind_pure]
  have e2 : (a - ptrs).toNat = a.toNat - numPtrs p := hp ▸ toNat_sub_of_not_lt h2
  rw [if_neg h2, if_neg fun h => h2 (BitVec.lt_def.2 (hp.symm ▸ h)), ← e2]
  generalize a - ptrs = b
  by_cases h3 : b < sq
  · rw [if_pos h3, if_pos (hpp ▸ BitVec.lt_def.1 h3), div_of_ne hp0, mod_of_ne hp0]
    simp only [readPath_cons, readPath_nil, bind_pure]
    rw [hof (a := b / ptrs) (by rw [BitVec.toNat_udiv, hp]),
      hof (a := b % ptrs) (by rw [BitVec.toNat_umod, hp])]
  have e3 : (b - sq).toNat = b.toNat - numPtrs p * numPtrs p := hpp ▸ toNat_sub_of_not_lt h3
  rw [if_neg h3, if_neg fun h => h3 (BitVec.lt_def.2 (hpp.symm ▸ h)), ← e3]
  generalize b - sq = c
  rw [div_of_ne hsq0, div_of_ne hp0, mod_of_ne hp0, pure_bind, mod_of_ne hp0]
  simp only [readPath_cons, readPath_nil, bind_pure]
  rw [hof (a := c / sq) (by rw [BitVec.toNat_udiv, hpp]),
    hof (a := c / ptrs % ptrs) (by rw [BitVec.toNat_umod, BitVec.toNat_udiv, hp]),
    hof (a := c % ptrs) (by rw [BitVec.toNat_umod, hp])]

theorem blockPath_lt {q : ℕ} (hq : 0 < q) (hn : n < 12 + q + q ^ 2 + q ^ 3) :
    ∀ i ∈ (blockPath q n).2, i < q := by
  have h2 : q ^ 2 = q * q := pow_two q
  have h3 : q ^ 3 = q * (q * q) := by rw [pow_succ', h2]
  rw [blockPath]
  split_ifs with h1 h4 h5
  · exact fun i hi => absurd hi List.not_mem_nil
  · simpa using h4
  · simp only [List.mem_cons, List.not_mem_nil, or_false]
    rintro i (rfl | rfl)
    · exact (Nat.div_lt_iff_lt_mul hq).2 h5
    · exact Nat.mod_lt _ hq
  · simp only [List.mem_cons, List.not_mem_nil, or_false]
    rintro i (rfl | rfl | rfl)
    · exact (Nat.div_lt_iff_lt_mul (Nat.mul_pos hq hq)).2 (by omega)
    · exact Nat.mod_lt _ hq
    · exact Nat.mod_lt _ hq

theorem foldl_tablePtr_zero (ds : List ℕ) : ds.foldl (tablePtr m p) 0 = 0 := by
  induction ds with
  | nil => rfl
  | cons i ds ih => rw [List.foldl_cons, show tablePtr m p 0 i = 0 from if_pos rfl, ih]

theorem readPath_zero (ds : List ℕ) : readPath m p 0 ds = pure 0 := by
  induction ds with
  | nil => rfl
  | cons i ds ih =>
    rw [readPath_cons, show tableEntry m p 0 (pure (BitVec.ofNat 32 i)) = pure 0 from if_pos rfl,
      pure_bind, ih]

/-- Reading the tables of a path when the reads return 0 : a buffer is missing, or what is found is
the pointer at the end of the path. -/
theorem readPath_spec (hg : Geometry m p) (hok : ∀ k, m.status k = 0)
    (hds : ∀ i ∈ ds, i < numPtrs p) (tbl : U32) (s : Io) :
    ∃ v t, readPath m p tbl ds s = some (v, t) ∧
      (v = 0 ∧ (∃ k, m.alloc k 1 = false) ∨ v = ds.foldl (tablePtr m p) tbl) := by
  induction ds generalizing tbl s with
  | nil => exact ⟨tbl, s, rfl, Or.inr rfl⟩
  | cons i ds ih =>
    obtain ⟨v, t, hv, hcase⟩ := tableEntry_cases hg tbl i s
    rw [readPath_cons, bind_of hv]
    rcases hcase with ⟨rfl, rfl, rfl⟩ | ⟨-, hk, rfl, rfl⟩ | ⟨-, -, rfl, hptr⟩
    · rw [readPath_zero, foldl_tablePtr_zero]
      exact ⟨0, t, rfl, Or.inr rfl⟩
    · rw [readPath_zero]
      exact ⟨0, _, rfl, Or.inl ⟨rfl, _, hk⟩⟩
    · obtain rfl := hptr (hok _) (hds i List.mem_cons_self)
      exact ih (fun j hj => hds j (List.mem_cons_of_mem i hj)) _ _

/-- A byte of the file in a buffer that holds its block. -/
theorem Cached.byte (hc : Cached m p ei n buf) {x : U64} (hx : x.toNat < p.blockSize.toNat) :
    buf x = fileByte m p ei (n * p.blockSize.toNat + x.toNat) := by
  have hdiv : (n * p.blockSize.toNat + x.toNat) / p.blockSize.toNat = n := by
    rw [Nat.mul_comm, Nat.mul_add_div (by omega), Nat.div_eq_of_lt hx, Nat.add_zero]
  have hmod : (n * p.blockSize.toNat + x.toNat) % p.blockSize.toNat = x.toNat := by
    rw [Nat.mul_comm, Nat.mul_add_mod, Nat.mod_eq_of_lt hx]
  rw [hc.holds x hx, fileByte, hdiv, hmod, if_neg hc.mapped, blockMem]

/-- The buffer after the block was looked up and read : there is none when the block is not
allocated, or when a buffer is missing. -/
theorem cacheBlock_spec {lbn curBlk : U32} (hg : Geometry m p) (hok : ∀ k, m.status k = 0)
    (ei : Ext2Inode) (buf : Mem) (hn : lbn.toNat < maxBlocks p)
    (hcur : lbn = curBlk → Cached m p ei lbn.toNat buf) (s : Io) :
    ∃ r t, cacheBlock m p ei lbn curBlk buf s = some (r, t) ∧
      (r = none ∧ (mapBlock m p ei lbn.toNat = 0 ∨ ∃ k, m.alloc k 1 = false) ∨
        ∃ buf', r = some buf' ∧ Cached m p ei lbn.toNat buf') := by
  have hq : 0 < numPtrs p := by
    have := hg.bounds
    omega
  rw [cacheBlock]
  by_cases he : lbn = curBlk
  · rw [if_pos he]
    exact ⟨_, s, rfl, Or.inr ⟨buf, rfl, hcur he⟩⟩
  obtain ⟨v, t, hv, hcase⟩ := readPath_spec hg hok (blockPath_lt hq hn)
    (ei.block (blockPath (numPtrs p) lbn.toNat).1) s
  rw [if_neg he, bind_of (by rw [ext2BlockMap_eq hg]; exact hv)]
  by_cases hv0 : v = 0
  · rw [if_pos hv0]
    refine ⟨none, t, rfl, Or.inl ⟨rfl, ?_⟩⟩
    rcases hcase with ⟨-, hk⟩ | hm
    · exact Or.inr hk
    · exact Or.inl (hm.symm.trans hv0)
  obtain rfl := hcase.resolve_left fun h => hv0 h.1
  obtain ⟨buf', hread, hbuf⟩ := readBlock_eq hg _ buf t
  rw [if_neg hv0, bind_of hread]
  dsimp only
  rw [if_pos (hok _)]
  exact ⟨_, _, rfl, Or.inr ⟨buf', rfl, hv0, hbuf (hok _)⟩⟩

end Blocks

end Jeos.Ext2
