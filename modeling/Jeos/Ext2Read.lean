import Jeos.Ext2Spec

/-!
# Reading a file

`ext2_read` goes through the file block by block and stops at the first block that is not
allocated. `readable` is the number of bytes before that block.

When no read and no `kalloc` fails, `ext2_read` stores these bytes of the file and returns
their number (`ext2Read_eq`), so reading in chunks gives what one read gives
(`readChunks_eq`).
-/

set_option linter.unusedSectionVars false

namespace Jeos.Ext2

open ByteMemory StateRun

section Spec

variable (m : Machine) (p : Ext2Priv) (ei : Ext2Inode)

/-- The number of bytes from `off` on, at most `n`, before the first block that is not allocated. -/
def readable (off n : ℕ) : ℕ :=
  ((List.range n).takeWhile fun i => mapBlock m p ei ((off + i) / p.blockSize.toNat) ≠ 0).length

/-- The number of bytes that a read of `n` bytes from `off` on returns. -/
def readLen (off n : ℕ) : ℕ := readable m p ei off (min n (ei.size.toNat - off))

/-- The `done` bytes of the file from `off` on are stored, and nothing behind them. -/
structure Stored (off done : ℕ) (out out' : Mem) : Prop where
  bytes : ∀ i < done, out' (BitVec.ofNat 64 i) = fileByte m p ei (off + i)
  mapped : ∀ i < done, mapBlock m p ei ((off + i) / p.blockSize.toNat) ≠ 0
  rest : ∀ x : U64, done ≤ x.toNat → out' x = out x

/-- The `n` bytes of the file from `off` on. -/
def fileBytes (off n : ℕ) : List U8 := (List.range n).map fun i => fileByte m p ei (off + i)

/-- Reading in chunks of the given sizes : the bytes, and the position after the last chunk. -/
def readChunks : List U64 → U64 → Ext2M (List U8 × U64)
  | [], off => pure ([], off)
  | count :: counts, off => do
    let (ret, out, off) ← ext2Read m p ei (fun _ => 0) count off
    let (bytes, off) ← readChunks counts off
    pure (bytesAt out 0 ret.toNat ++ bytes, off)

end Spec

section Read

variable {m : Machine} {p : Ext2Priv} {ei : Ext2Inode} {s t : Io} {out out' blkBuf : Mem}
  {off count done : U64} {curBlk : U32} {d n k : ℕ}

theorem Stored.refl (off : ℕ) (out : Mem) : Stored m p ei off 0 out out :=
  ⟨fun _ h => absurd h (Nat.not_lt_zero _), fun _ h => absurd h (Nat.not_lt_zero _),
    fun _ _ => rfl⟩

theorem readable_eq {off : ℕ} (hd : d ≤ n)
    (hm : ∀ i < d, mapBlock m p ei ((off + i) / p.blockSize.toNat) ≠ 0)
    (hend : d = n ∨ mapBlock m p ei ((off + d) / p.blockSize.toNat) = 0) :
    readable m p ei off n = d := by
  obtain ⟨k, rfl⟩ := Nat.exists_eq_add_of_le hd
  rw [readable, List.range_add, List.takeWhile_append_of_pos fun i hi =>
    decide_eq_true (hm i (List.mem_range.1 hi)), List.length_append, List.length_range]
  rcases hend with h | h
  · obtain rfl : k = 0 := by omega
    rfl
  · cases k with
    | zero => rfl
    | succ k =>
      rw [List.range_succ_eq_map, List.map_cons, Nat.add_zero,
        List.takeWhile_cons_of_neg (by simpa using h)]
      rfl

/-- Storing a chunk of a block after `d` bytes were stored. -/
theorem Stored.paste {b c : ℕ} (hs : Stored m p ei off.toNat d out out') (hg : Geometry m p)
    (hc : Cached m p ei b blkBuf) (hpos : off.toNat + d = b * p.blockSize.toNat + n)
    (hn : n + c ≤ p.blockSize.toNat) (hd : d + c < 2 ^ 64) :
    Stored m p ei off.toNat (d + c) out
      (paste out' (BitVec.ofNat 64 d) blkBuf (BitVec.ofNat 64 n) c) := by
  have hb := hg.bounds
  have hdt : (BitVec.ofNat 64 d).toNat = d := by
    rw [BitVec.toNat_ofNat, Nat.mod_eq_of_lt (by omega)]
  have hin : ∀ x : U64, Within x (BitVec.ofNat 64 d) c ↔ d ≤ x.toNat ∧ x.toNat < d + c := fun x => by
    rw [within_iff (by omega), hdt]
  refine ⟨fun i hi => ?_, fun i hi => ?_, fun x hx => ?_⟩
  · have hit : (BitVec.ofNat 64 i).toNat = i := by
      rw [BitVec.toNat_ofNat, Nat.mod_eq_of_lt (by omega)]
    by_cases hid : i < d
    · rw [paste_of_not_within fun h => by rw [hin, hit] at h; omega]
      exact hs.bytes i hid
    · obtain ⟨j, rfl⟩ := Nat.exists_eq_add_of_le (Nat.le_of_not_lt hid)
      have hj : BitVec.ofNat 64 n + BitVec.ofNat 64 j = BitVec.ofNat 64 (n + j) :=
        (BitVec.ofNat_add _ _).symm
      have hnj : (BitVec.ofNat 64 (n + j)).toNat = n + j := by
        rw [BitVec.toNat_ofNat, Nat.mod_eq_of_lt (by omega)]
      rw [BitVec.ofNat_add, paste_add (by omega) (by omega), hj, hc.byte (by omega), hnj]
      congr 1
      omega
  · by_cases hid : i < d
    · exact hs.mapped i hid
    · have he : (off.toNat + i) / p.blockSize.toNat = b := by
        obtain ⟨j, rfl⟩ := Nat.exists_eq_add_of_le (Nat.le_of_not_lt hid)
        rw [← Nat.add_assoc, hpos, Nat.add_assoc, Nat.mul_comm, Nat.mul_add_div (by omega),
          Nat.div_eq_of_lt (by omega), Nat.add_zero]
      rw [he]
      exact hc.mapped
  · rw [paste_of_not_within fun h => by rw [hin] at h; omega]
    exact hs.rest x (by omega)

/-- The bytes of one round. -/
def chunkLen (p : Ext2Priv) (pos left : ℕ) : ℕ :=
  min (p.blockSize.toNat - pos % p.blockSize.toNat) left

theorem maxBlocks_lt (hbs : p.blockSize = 1024 ∨ p.blockSize = 2048 ∨ p.blockSize = 4096) :
    maxBlocks p < 2 ^ 32 - 1 := by
  have hb := blockSize_bounds hbs
  have h2 : numPtrs p ^ 2 ≤ 1024 ^ 2 := Nat.pow_le_pow_left (by omega) 2
  have h3 : numPtrs p ^ 3 ≤ 1024 ^ 3 := Nat.pow_le_pow_left (by omega) 3
  rw [maxBlocks]
  omega

/-- One round, with the numbers it computes. -/
theorem readLoop_succ (hg : Geometry m p) (h64 : off.toNat + count.toNat < 2 ^ 64)
    (hlt : done < count) (fuel : ℕ) (curBlk : U32) (blkBuf out : Mem) :
    readLoop m p ei off count (fuel + 1) done curBlk blkBuf out =
      cacheBlock m p ei (BitVec.ofNat 32 ((off.toNat + done.toNat) / p.blockSize.toNat)) curBlk
        blkBuf >>= fun r =>
      match r with
      | none => pure (done, out)
      | some blkBuf =>
        access (.block ⟨BitVec.ofNat 64 ((off.toNat + done.toNat) % p.blockSize.toNat),
          chunkLen p (off.toNat + done.toNat) (count.toNat - done.toNat)⟩) >>= fun _ =>
        readLoop m p ei off count fuel
          (BitVec.ofNat 64 (done.toNat +
            chunkLen p (off.toNat + done.toNat) (count.toNat - done.toNat)))
          (BitVec.ofNat 32 ((off.toNat + done.toNat) / p.blockSize.toNat)) blkBuf
          (paste out (BitVec.ofNat 64 done.toNat) blkBuf
            (BitVec.ofNat 64 ((off.toNat + done.toNat) % p.blockSize.toNat))
            (chunkLen p (off.toNat + done.toNat) (count.toNat - done.toNat))) := by
  have hb := hg.bounds
  have hlt' := BitVec.lt_def.1 hlt
  have hdm := Nat.div_add_mod (off.toNat + done.toNat) p.blockSize.toNat
  have hmod := Nat.mod_lt (off.toNat + done.toNat) (show 0 < p.blockSize.toNat by omega)
  have hpos : (off + done).toNat = off.toNat + done.toNat := by
    rw [BitVec.toNat_add, Nat.mod_eq_of_lt (by omega)]
  have hbs : (p.blockSize.setWidth 64 : U64).toNat = p.blockSize.toNat := by
    rw [BitVec.toNat_setWidth, Nat.mod_eq_of_lt (by omega)]
  have hne : (p.blockSize.setWidth 64 : U64) ≠ 0 := fun h => by
    rw [h] at hbs
    change 0 = p.blockSize.toNat at hbs
    omega
  have hlbn : ((off + done) / p.blockSize.setWidth 64).setWidth 32 =
      BitVec.ofNat 32 ((off.toNat + done.toNat) / p.blockSize.toNat) := by
    refine BitVec.eq_of_toNat_eq ?_
    rw [BitVec.toNat_setWidth, BitVec.toNat_udiv, hpos, hbs, BitVec.toNat_ofNat]
  have hoff : (((off + done) % p.blockSize.setWidth 64).setWidth 32 : U32).toNat =
      (off.toNat + done.toNat) % p.blockSize.toNat := by
    rw [BitVec.toNat_setWidth, BitVec.toNat_umod, hpos, hbs, Nat.mod_eq_of_lt (by omega)]
  rw [readLoop, if_pos hlt, div_of_ne hne, mod_of_ne hne]
  simp only [pure_bind, hlbn]
  generalize (((off + done) % p.blockSize.setWidth 64).setWidth 32 : U32) = blkOff at hoff ⊢
  have hoff64 : (blkOff.setWidth 64 : U64) =
      BitVec.ofNat 64 ((off.toNat + done.toNat) % p.blockSize.toNat) := by
    rw [← hoff, BitVec.ofNat_toNat]
  have hroom : ((p.blockSize - blkOff).setWidth 64 : U64).toNat =
      p.blockSize.toNat - (off.toNat + done.toNat) % p.blockSize.toNat := by
    rw [BitVec.toNat_setWidth, BitVec.toNat_sub_of_le (BitVec.le_def.2 (by rw [hoff]; omega)), hoff,
      Nat.mod_eq_of_lt (by omega)]
  generalize ((p.blockSize - blkOff).setWidth 64 : U64) = room at hroom ⊢
  have hleft : (count - done).toNat = count.toNat - done.toNat :=
    BitVec.toNat_sub_of_le (BitVec.le_def.2 hlt'.le)
  have hchunk : (if room > count - done then count - done else room).toNat =
      chunkLen p (off.toNat + done.toNat) (count.toNat - done.toNat) := by
    rw [chunkLen]
    split_ifs with h
    · have h := BitVec.lt_def.1 h
      omega
    · have h := BitVec.le_def.1 (BitVec.not_lt.1 h)
      omega
  have hnext : done + (if room > count - done then count - done else room) = BitVec.ofNat 64
      (done.toNat + chunkLen p (off.toNat + done.toNat) (count.toNat - done.toNat)) := by
    rw [BitVec.ofNat_add, ← hchunk, BitVec.ofNat_toNat, BitVec.ofNat_toNat, BitVec.setWidth_eq,
      BitVec.setWidth_eq]
  simp only [hoff64, hchunk, hnext, BitVec.ofNat_toNat, BitVec.setWidth_eq]
  all_goals rfl

/-- Why the loop ends after `d` of `n` bytes. -/
def StopsAt (m : Machine) (p : Ext2Priv) (ei : Ext2Inode) (off n d : ℕ) : Prop :=
  d = n ∨ mapBlock m p ei ((off + d) / p.blockSize.toNat) = 0 ∨ ∃ k, m.alloc k 1 = false

/-- The next block after a round that does not end the loop. -/
theorem div_add_chunkLen (pos left : ℕ) (hb : 0 < p.blockSize.toNat)
    (h : chunkLen p pos left < left) :
    (pos + chunkLen p pos left) / p.blockSize.toNat = pos / p.blockSize.toNat + 1 := by
  have hdm := Nat.div_add_mod pos p.blockSize.toNat
  have hmod := Nat.mod_lt pos hb
  have hc : chunkLen p pos left = p.blockSize.toNat - pos % p.blockSize.toNat := by
    rw [chunkLen] at *
    omega
  have he : pos + chunkLen p pos left =
      p.blockSize.toNat * (pos / p.blockSize.toNat) + p.blockSize.toNat := by omega
  rw [he, Nat.mul_add_div hb, Nat.div_self hb]

theorem ne_of_toNat_ne {a b : U32} (h : a.toNat ≠ b.toNat) : a ≠ b := fun he => h (by rw [he])

/-- The loop stores the bytes it counts. -/
theorem readLoop_spec (hg : Geometry m p) (hok : ∀ k, m.status k = 0)
    (h64 : off.toNat + count.toNat < 2 ^ 64)
    (hsize : off.toNat + count.toNat ≤ maxBlocks p * p.blockSize.toNat) (fuel : ℕ) :
    ∀ (done : U64) (curBlk : U32) (blkBuf out' : Mem) (s : Io),
      count.toNat - done.toNat < fuel → done.toNat ≤ count.toNat →
      Stored m p ei off.toNat done.toNat out out' →
      (done < count → curBlk.toNat ≠ (off.toNat + done.toNat) / p.blockSize.toNat) →
      ∃ done' out'' t, readLoop m p ei off count fuel done curBlk blkBuf out' s =
          some ((done', out''), t) ∧ done'.toNat ≤ count.toNat ∧
        Stored m p ei off.toNat done'.toNat out out'' ∧
        StopsAt m p ei off.toNat count.toNat done'.toNat := by
  have hb := hg.bounds
  have hmax := maxBlocks_lt hg.size
  induction fuel with
  | zero => exact fun done _ _ _ _ h => absurd h (Nat.not_lt_zero _)
  | succ fuel ih =>
    intro done curBlk blkBuf out' s hfuel hle hst hcur
    by_cases hlt : done < count
    swap
    · -- The loop is through.
      have hge := BitVec.le_def.1 (BitVec.not_lt.1 hlt)
      refine ⟨done, out', s, by rw [readLoop, if_neg hlt]; rfl, hle, hst, Or.inl ?_⟩
      omega
    have hlt' := BitVec.lt_def.1 hlt
    have hpos : (off.toNat + done.toNat) / p.blockSize.toNat < maxBlocks p :=
      (Nat.div_lt_iff_lt_mul (by omega)).2 (by omega)
    have hlbn : (BitVec.ofNat 32 ((off.toNat + done.toNat) / p.blockSize.toNat)).toNat =
        (off.toNat + done.toNat) / p.blockSize.toNat := by
      rw [BitVec.toNat_ofNat, Nat.mod_eq_of_lt (by omega)]
    have hne := ne_of_toNat_ne (hlbn.symm ▸ (hcur hlt).symm)
    obtain ⟨r, t, hrun, hcase⟩ := cacheBlock_spec hg hok ei blkBuf
      (by rw [hlbn]; exact hpos) (absurd · hne) s
    rw [hlbn] at hcase
    rw [readLoop_succ hg h64 hlt, bind_of hrun]
    rcases hcase with ⟨rfl, hwhy⟩ | ⟨buf, rfl, hc⟩
    · exact ⟨done, out', t, rfl, hle, hst, Or.inr hwhy⟩
    -- A chunk of the block is stored.
    have hdm := Nat.div_add_mod (off.toNat + done.toNat) p.blockSize.toNat
    have hmod := Nat.mod_lt (off.toNat + done.toNat) (show 0 < p.blockSize.toNat by omega)
    have hchunk : chunkLen p (off.toNat + done.toNat) (count.toNat - done.toNat) ≤
        count.toNat - done.toNat := min_le_right _ _
    have hchunk' : (off.toNat + done.toNat) % p.blockSize.toNat +
        chunkLen p (off.toNat + done.toNat) (count.toNat - done.toNat) ≤ p.blockSize.toNat := by
      rw [chunkLen]
      omega
    have hpos' : 0 < chunkLen p (off.toNat + done.toNat) (count.toNat - done.toNat) := by
      rw [chunkLen]
      omega
    have hd : (BitVec.ofNat 64 (done.toNat + chunkLen p (off.toNat + done.toNat)
        (count.toNat - done.toNat))).toNat =
        done.toNat + chunkLen p (off.toNat + done.toNat) (count.toNat - done.toNat) := by
      rw [BitVec.toNat_ofNat, Nat.mod_eq_of_lt (by omega)]
    refine ih _ _ _ _ _ (by rw [hd]; omega) (by rw [hd]; omega) ?_ fun hlt₂ => ?_
    · rw [hd]
      exact hst.paste hg hc (by rw [Nat.mul_comm]; exact hdm.symm) hchunk' (by omega)
    · have hlt₂ := BitVec.lt_def.1 hlt₂
      rw [hd] at hlt₂
      have hstep := div_add_chunkLen (p := p) (off.toNat + done.toNat) (count.toNat - done.toNat)
        (by omega) (by omega)
      rw [hd, ← Nat.add_assoc, hstep, hlbn]
      omega

theorem maxBytes_lt (hbs : p.blockSize = 1024 ∨ p.blockSize = 2048 ∨ p.blockSize = 4096) :
    maxBlocks p * p.blockSize.toNat < 2 ^ 45 := by
  have hb := blockSize_bounds hbs
  have hmax := maxBlocks_lt hbs
  exact lt_of_le_of_lt (Nat.mul_le_mul hmax.le hb.2.1) (by norm_num)

/-- `ext2_read` when the reads return 0 : it has no buffer, or stores the bytes it counts. -/
theorem ext2Read_spec (hg : Geometry m p) (hok : ∀ k, m.status k = 0)
    (hsize : ei.size.toNat ≤ maxBlocks p * p.blockSize.toNat)
    (hov : off.toNat + count.toNat < 2 ^ 64) (out : Mem) (s : Io) :
    ∃ ret out' off' t, ext2Read m p ei out count off s = some ((ret, out', off'), t) ∧
      (ret = enomem.signExtend 64 ∧ out' = out ∧ off' = off ∧ (∃ k, m.alloc k 1 = false) ∨
        ∃ d ≤ min count.toNat (ei.size.toNat - off.toNat), ret = BitVec.ofNat 64 d ∧
          off' = off + BitVec.ofNat 64 d ∧ Stored m p ei off.toNat d out out' ∧
          StopsAt m p ei off.toNat (min count.toNat (ei.size.toNat - off.toNat)) d) := by
  rw [ext2Read]
  by_cases hend : off ≥ ei.size
  · rw [if_pos hend]
    have hle := BitVec.le_def.1 hend
    refine ⟨0, out, off, s, rfl, Or.inr ⟨0, Nat.zero_le _, rfl, ?_, .refl _ _, Or.inl ?_⟩⟩
    · exact (BitVec.add_zero off).symm
    · rw [Nat.sub_eq_zero_of_le hle, Nat.min_zero]
  rw [if_neg hend]
  have hlt := BitVec.lt_def.1 (BitVec.not_le.1 hend)
  -- The count that is left of the file.
  have hcount : (if off + count > ei.size then ei.size - off else count).toNat =
      min count.toNat (ei.size.toNat - off.toNat) := by
    have hadd : (off + count).toNat = off.toNat + count.toNat := by
      rw [BitVec.toNat_add, Nat.mod_eq_of_lt hov]
    split_ifs with h
    · have h := BitVec.lt_def.1 h
      rw [BitVec.toNat_sub_of_le (BitVec.le_def.2 hlt.le)]
      omega
    · have h := BitVec.le_def.1 (BitVec.not_lt.1 h)
      omega
  generalize (if off + count > ei.size then ei.size - off else count) = c at hcount ⊢
  rcases Bool.eq_false_or_eq_true (m.alloc s.allocs 1) with hk | hk
  swap
  · have hk' := kalloc_apply m 1 s
    rw [if_neg (by rw [hk]; exact Bool.false_ne_true)] at hk'
    rw [bind_of hk']
    exact ⟨_, out, off, _, rfl, Or.inl ⟨rfl, rfl, rfl, _, hk⟩⟩
  have hk' := kalloc_apply m 1 s
  rw [if_pos hk] at hk'
  rw [bind_of hk']
  have hmax := maxBlocks_lt hg.size
  have hmaxb := maxBytes_lt hg.size
  -- The first block is not the one `cur_blk` starts with.
  have hcur : (-1 : U32).toNat ≠ (off.toNat + (0 : U64).toNat) / p.blockSize.toNat := by
    have hpos : (off.toNat + (0 : U64).toNat) / p.blockSize.toNat < maxBlocks p := by
      refine (Nat.div_lt_iff_lt_mul (by have := hg.bounds; omega)).2 ?_
      rw [show (0 : U64).toNat = 0 from rfl]
      omega
    rw [show (-1 : U32).toNat = 2 ^ 32 - 1 from rfl]
    omega
  have hfuel : c.toNat - (0 : U64).toNat < loopFuel := by
    have := c.isLt
    rw [loopFuel]
    omega
  obtain ⟨done, out', t, hrun, hle, hst, hends⟩ := readLoop_spec hg hok (by omega)
    (by omega) loopFuel 0 (-1) (fill (m.behind s.allocs) 0 5 (1 * pageSize).toNat) out
    { s with allocs := s.allocs + 1 } hfuel (Nat.zero_le _) (.refl off.toNat out) fun _ => hcur
  dsimp only
  rw [bind_of hrun]
  rw [hcount] at hle hends
  refine ⟨done, out', _, t, rfl, Or.inr ⟨done.toNat, hle, ?_, ?_, hst, hends⟩⟩
  · rw [BitVec.ofNat_toNat, BitVec.setWidth_eq]
  · rw [BitVec.ofNat_toNat, BitVec.setWidth_eq]

variable (m p ei) in
/-- `readable` is the number of bytes up to `n` or to the first hole. -/
theorem readable_spec (off n : ℕ) : readable m p ei off n ≤ n ∧
    (∀ i < readable m p ei off n, mapBlock m p ei ((off + i) / p.blockSize.toNat) ≠ 0) ∧
    (readable m p ei off n = n ∨
      mapBlock m p ei ((off + readable m p ei off n) / p.blockSize.toNat) = 0) := by
  obtain ⟨d, hd, hm, he⟩ : ∃ d ≤ n,
      (∀ i < d, mapBlock m p ei ((off + i) / p.blockSize.toNat) ≠ 0) ∧
        (d = n ∨ mapBlock m p ei ((off + d) / p.blockSize.toNat) = 0) := by
    induction n with
    | zero => exact ⟨0, le_rfl, fun i hi => absurd hi (Nat.not_lt_zero i), Or.inl rfl⟩
    | succ n ih =>
      obtain ⟨d, hd, hm, he⟩ := ih
      by_cases h0 : mapBlock m p ei ((off + d) / p.blockSize.toNat) = 0
      · exact ⟨d, hd.trans n.le_succ, hm, Or.inr h0⟩
      · obtain rfl := he.resolve_right h0
        refine ⟨d + 1, le_rfl, fun i hi => ?_, Or.inl rfl⟩
        rcases Nat.lt_succ_iff_lt_or_eq.1 hi with hi | rfl
        · exact hm i hi
        · exact h0
  rw [readable_eq hd hm he]
  exact ⟨hd, hm, he⟩

/-- Reading on where a read ended. -/
theorem readable_add {off k : ℕ} (hk : k ≤ n) :
    readable m p ei off n = if readable m p ei off k = k then
      k + readable m p ei (off + k) (n - k) else readable m p ei off k := by
  obtain ⟨h1, h2, h3⟩ := readable_spec m p ei off k
  split_ifs with he
  · obtain ⟨g1, g2, g3⟩ := readable_spec m p ei (off + k) (n - k)
    refine readable_eq (by omega) (fun i hi => ?_) (g3.imp (fun h => by omega) fun h => ?_)
    · by_cases hik : i < k
      · exact h2 i (he.symm ▸ hik)
      · have := g2 (i - k) (by omega)
        rwa [show off + k + (i - k) = off + i by omega] at this
    · rwa [Nat.add_assoc] at h
  · exact readable_eq (h1.trans hk) h2 (Or.inr (h3.resolve_left he))

/-- At a hole nothing is read. -/
theorem readable_hole {off : ℕ} (h : mapBlock m p ei (off / p.blockSize.toNat) = 0) (n : ℕ) :
    readable m p ei off n = 0 :=
  readable_eq (Nat.zero_le n) (fun i hi => absurd hi (Nat.not_lt_zero i)) (Or.inr h)

/-- Reading on where a read of fewer bytes stopped gives nothing. -/
theorem readLen_stop {off k : ℕ} (hk : readLen m p ei off k ≠ k) (n : ℕ) :
    readLen m p ei (off + readLen m p ei off k) n = 0 := by
  obtain ⟨-, -, h⟩ := readable_spec m p ei off (min k (ei.size.toNat - off))
  rcases h with h | h
  · have hmin : readLen m p ei off k = min k (ei.size.toNat - off) := h
    have hend : min n (ei.size.toNat - (off + readLen m p ei off k)) = 0 := by omega
    rw [readLen, hend]
    rfl
  · exact readable_hole h _

/-- A read of `n` bytes is a read of `k` bytes and of the others from there on. -/
theorem readLen_add {off k : ℕ} (hk : k ≤ n) : readLen m p ei off n =
    readLen m p ei off k + readLen m p ei (off + readLen m p ei off k) (n - k) := by
  by_cases he : readLen m p ei off k = k
  · rw [he]
    have hle : readLen m p ei off k ≤ min k (ei.size.toNat - off) := (readable_spec m p ei _ _).1
    have hk' : min k (ei.size.toNat - off) = k := by omega
    have hr : readable m p ei off k = k := by rwa [readLen, hk'] at he
    have hn : min n (ei.size.toNat - off) - k = min (n - k) (ei.size.toNat - (off + k)) := by omega
    rw [readLen, readable_add (show k ≤ min n (ei.size.toNat - off) by omega), if_pos hr, hn,
      readLen]
  · rw [readLen_stop he, Nat.add_zero, readLen, readLen,
      readable_add (show min k (ei.size.toNat - off) ≤ min n (ei.size.toNat - off) by omega)]
    split_ifs with hr
    · have hend : min n (ei.size.toNat - off) - min k (ei.size.toNat - off) = 0 := by
        have : readLen m p ei off k = min k (ei.size.toNat - off) := hr
        omega
      rw [hend, hr]
      rfl
    · rfl

/-- `ext2_read` when no read and no `kalloc` fails. -/
theorem ext2Read_eq (hg : Geometry m p) (hok : ∀ k, m.status k = 0)
    (halloc : ∀ k, m.alloc k 1 = true) (hsize : ei.size.toNat ≤ maxBlocks p * p.blockSize.toNat)
    (hov : off.toNat + count.toNat < 2 ^ 64) (out : Mem) (s : Io) :
    ∃ out' t, ext2Read m p ei out count off s =
        some ((BitVec.ofNat 64 (readLen m p ei off.toNat count.toNat), out',
          off + BitVec.ofNat 64 (readLen m p ei off.toNat count.toNat)), t) ∧
      Stored m p ei off.toNat (readLen m p ei off.toNat count.toNat) out out' := by
  obtain ⟨ret, out', off', t, hrun, hcase⟩ := ext2Read_spec hg hok hsize hov out s
  rcases hcase with ⟨-, -, -, k, hk⟩ | ⟨d, hd, rfl, rfl, hst, hends⟩
  · exact absurd (halloc k) (by rw [hk]; exact Bool.false_ne_true)
  have hr : readLen m p ei off.toNat count.toNat = d :=
    readable_eq hd hst.mapped (hends.imp_right fun h => h.resolve_right fun ⟨k, hk⟩ =>
      absurd (halloc k) (by rw [hk]; exact Bool.false_ne_true))
  rw [hr]
  exact ⟨out', t, hrun, hst⟩

theorem fileBytes_add (off a b : ℕ) : fileBytes m p ei off (a + b) =
    fileBytes m p ei off a ++ fileBytes m p ei (off + a) b := by
  rw [fileBytes, List.range_add, List.map_append, List.map_map]
  refine congrArg _ (List.map_congr_left fun i _ => ?_)
  rw [Function.comp_apply, Nat.add_assoc]

theorem Stored.bytesAt_eq {off : ℕ} (hs : Stored m p ei off d out out') :
    bytesAt out' 0 d = fileBytes m p ei off d := by
  refine List.map_congr_left fun i hi => ?_
  rw [show (0 : U64) + BitVec.ofNat 64 i = BitVec.ofNat 64 i from BitVec.zero_add _]
  exact hs.bytes i (List.mem_range.1 hi)

/-- Reading in chunks gives what one read of all of them gives. -/
theorem readChunks_eq (hg : Geometry m p) (hok : ∀ k, m.status k = 0)
    (halloc : ∀ k, m.alloc k 1 = true) (hsize : ei.size.toNat ≤ maxBlocks p * p.blockSize.toNat)
    (counts : List U64) : ∀ (off : U64) (s : Io),
      off.toNat + (counts.map BitVec.toNat).sum < 2 ^ 64 →
      ∃ t, readChunks m p ei counts off s = some
        ((fileBytes m p ei off.toNat (readLen m p ei off.toNat (counts.map BitVec.toNat).sum),
          off + BitVec.ofNat 64 (readLen m p ei off.toNat (counts.map BitVec.toNat).sum)), t) := by
  induction counts with
  | nil =>
    intro off s _
    have h0 : readLen m p ei off.toNat 0 = 0 :=
      Nat.le_zero.1 ((readable_spec m p ei _ _).1.trans (min_le_left _ _))
    rw [List.map_nil, List.sum_nil, h0]
    exact ⟨s, congrArg (fun o => some (([], o), s)) (BitVec.add_zero off).symm⟩
  | cons count counts ih =>
    intro off s hov
    rw [List.map_cons, List.sum_cons] at hov ⊢
    obtain ⟨out, t, hrun, hst⟩ := ext2Read_eq hg hok halloc hsize
      (show off.toNat + count.toNat < 2 ^ 64 by omega) (fun _ => 0) s
    have hd : readLen m p ei off.toNat count.toNat ≤ count.toNat :=
      (readable_spec m p ei _ _).1.trans (min_le_left _ _)
    rw [readLen_add (Nat.le_add_right count.toNat _), Nat.add_sub_cancel_left]
    generalize readLen m p ei off.toNat count.toNat = d at hrun hst hd ⊢
    have hdt : (BitVec.ofNat 64 d).toNat = d := by
      rw [BitVec.toNat_ofNat, Nat.mod_eq_of_lt (by omega)]
    have hoff : (off + BitVec.ofNat 64 d).toNat = off.toNat + d := by
      rw [BitVec.toNat_add, hdt, Nat.mod_eq_of_lt (by omega)]
    obtain ⟨t', hrest⟩ := ih (off + BitVec.ofNat 64 d) t (by omega)
    refine ⟨t', ?_⟩
    rw [readChunks, bind_of hrun]
    dsimp only
    rw [bind_of hrest, hdt, hst.bytesAt_eq, hoff, fileBytes_add, BitVec.ofNat_add, BitVec.add_assoc]
    rfl

/-- A read of a file returns its bytes up to the first block that is not allocated, and reading
them in chunks gives the same bytes. -/
theorem ext2_read_contents (hg : Geometry m p) (hok : ∀ k, m.status k = 0)
    (halloc : ∀ k, m.alloc k 1 = true) (hsize : ei.size.toNat ≤ maxBlocks p * p.blockSize.toNat)
    (hov : off.toNat + count.toNat < 2 ^ 64) :
    (∀ out s, ∃ out' t, ext2Read m p ei out count off s =
        some ((BitVec.ofNat 64 (readLen m p ei off.toNat count.toNat), out',
          off + BitVec.ofNat 64 (readLen m p ei off.toNat count.toNat)), t) ∧
      Stored m p ei off.toNat (readLen m p ei off.toNat count.toNat) out out') ∧
    ∀ counts s, (counts.map BitVec.toNat).sum = count.toNat →
      ∃ t, readChunks m p ei counts off s = some
        ((fileBytes m p ei off.toNat (readLen m p ei off.toNat count.toNat),
          off + BitVec.ofNat 64 (readLen m p ei off.toNat count.toNat)), t) := by
  refine ⟨ext2Read_eq hg hok halloc hsize hov, fun counts s hsum => ?_⟩
  rw [← hsum] at hov ⊢
  exact readChunks_eq hg hok halloc hsize counts off s hov

end Read

/-! ## A sample device -/

/-- A device whose reads return 0, where every `kalloc` gives a block. -/
def goodDisk (sectorSize : U32) (image : ℕ → U8) : Machine :=
  ⟨sectorSize, image, fun _ => 0, fun _ _ => true, fun _ _ => 0⟩

/-- The state before the first read. -/
def Io.start : Io := ⟨0, 0, [], true⟩

/-- One group with blocks of 1024 bytes. -/
def smallPriv : Ext2Priv := ⟨1024, 8192, 8, 128, 1, 11, fun _ => 0, 1⟩

/-- A regular file with the given size and slots. -/
def regularFile (size : U32) (block : ℕ → U32) : Ext2Inode := ⟨0x81A4, size, block, 0⟩

theorem goodDisk_geometry (image : ℕ → U8) : Geometry (goodDisk 512 image) smallPriv :=
  ⟨Or.inl rfl, show (512 : U32) ≠ 0 by decide, show 512 ∣ 1024 by decide⟩

/-- The read returns everything up to the end of the file, with zeros for blocks that are not
allocated. -/
def ReadsAll (m : Machine) (p : Ext2Priv) (ei : Ext2Inode) (off count : U64) : Prop :=
  ∀ out s, ∃ out' t, ext2Read m p ei out count off s =
      some ((BitVec.ofNat 64 (min count.toNat (ei.size.toNat - off.toNat)), out',
        off + BitVec.ofNat 64 (min count.toNat (ei.size.toNat - off.toNat))), t) ∧
    ∀ i < min count.toNat (ei.size.toNat - off.toNat),
      out' (BitVec.ofNat 64 i) = fileByte m p ei (off.toNat + i)

/-- The return value and the first byte of a read that is not empty. -/
theorem ReadsAll.first (h : ReadsAll m p ei off count)
    (hn : 0 < min count.toNat (ei.size.toNat - off.toNat)) (s : Io) :
    (ext2Read m p ei (fun _ => 0) count off s).map (fun r => (r.1.1, r.1.2.1 0)) =
      some (BitVec.ofNat 64 (min count.toNat (ei.size.toNat - off.toNat)),
        fileByte m p ei off.toNat) := by
  obtain ⟨out, t, hrun, hbytes⟩ := h (fun _ => 0) s
  rw [hrun, ← Nat.add_zero off.toNat, ← hbytes 0 hn]
  rfl

/-- A file of one byte whose block is not allocated gives no byte, and on a device with sectors of
4096 bytes the byte is not the one of the file. -/
theorem ext2_read_not_all : ¬ReadsAll (goodDisk 512 fun _ => 7) smallPriv
      (regularFile 1 fun _ => 0) 0 1 ∧
    ¬ReadsAll (goodDisk 4096 fun _ => 7) smallPriv (regularFile 1 fun _ => 1) 0 1 :=
  ⟨fun h => absurd (h.first (by decide) Io.start) (by decide),
    fun h => absurd (h.first (by decide) Io.start) (by decide)⟩

theorem ext2_read_contents_sample : ∃ out t,
    ext2Read (goodDisk 512 fun _ => 7) smallPriv (regularFile 1 fun _ => 1) (fun _ => 0) 1 0
      Io.start = some ((BitVec.ofNat 64 1, out, 0 + BitVec.ofNat 64 1), t) ∧
    Stored (goodDisk 512 fun _ => 7) smallPriv (regularFile 1 fun _ => 1) 0 1 (fun _ => 0) out :=
  (ext2_read_contents (goodDisk_geometry _) (fun _ => rfl) (fun _ => rfl)
    (by decide) (by decide)).1 _ _

end Jeos.Ext2
