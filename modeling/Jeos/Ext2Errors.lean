import Jeos.Ext2Read

/-!
# Reads that fail

`ext2_read_block` returns what `blk_read` returns. `ext2_read` and the two directory functions
look at it and stop, but `ext2_block_map` does not look at it : when the read of an indirect block
fails, the entry is taken from the buffer as `kalloc` gave it.

`ext2_read` on a device is compared with `ext2_read` on the same device when no read fails
(`Machine.reliable`). As long as no read of an indirect block fails the two run alike up to the
first read that fails (`cacheBlock_follows`), so the bytes that are counted as read are a prefix,
and a proper one when a read failed (`ext2_read_prefix`).
-/

set_option linter.unusedSectionVars false

namespace Jeos.Ext2

open ByteMemory StateRun

/-- The machine when no read fails. -/
def Machine.reliable (m : Machine) : Machine := { m with status := fun _ => 0 }

/-- The reads from `s` to `t` all returned 0. -/
structure ReadsOk (m : Machine) (s t : Io) : Prop where
  le : s.reads ≤ t.reads
  ok : ∀ k, s.reads ≤ k → k < t.reads → m.status k = 0

/-- No read of an indirect block failed. -/
def TablesOk (s : Io) : Prop := s.tablesOk = true

section Primitives

variable {m : Machine} {p : Ext2Priv} {ei : Ext2Inode} {s t u : Io} {w : ℕ} {i : Ext2M U32}

theorem ReadsOk.refl (m : Machine) (s : Io) : ReadsOk m s s :=
  ⟨le_rfl, fun _ h h' => absurd h (Nat.not_le.2 h')⟩

theorem ReadsOk.trans (h : ReadsOk m s t) (h' : ReadsOk m t u) : ReadsOk m s u :=
  ⟨h.le.trans h'.le, fun k hs hu => (Nat.lt_or_ge k t.reads).elim (h.ok k hs) fun ht =>
    h'.ok k ht hu⟩

/-- A computation that returns and leaves the reads alone follows itself. -/
theorem follows_of_reads {α : Type} {x : Ext2M α}
    (h : ∀ s a t, x s = some (a, t) → t.reads = s.reads ∧ t.tablesOk = s.tablesOk) :
    Follows TablesOk (ReadsOk m) x x := by
  intro s a t hx hg
  obtain ⟨hr, ht⟩ := h s a t hx
  refine ⟨ht.symm.trans hg, ⟨hr.ge, fun k hs hk => ?_⟩, hx⟩
  rw [hr] at hk
  exact absurd hs (Nat.not_le.2 hk)

theorem access_follows (a : Access) : Follows TablesOk (ReadsOk m) (access a) (access a) :=
  follows_of_reads fun s _ t h => by
    obtain ⟨⟩ := h
    exact ⟨rfl, rfl⟩

theorem div_eq_some {a c r : BitVec w} (h : div a c s = some (r, t)) : t = s := by
  rw [div] at h
  split_ifs at h
  obtain ⟨⟩ := h
  rfl

theorem mod_eq_some {a c r : BitVec w} (h : mod a c s = some (r, t)) : t = s := by
  rw [mod] at h
  split_ifs at h
  obtain ⟨⟩ := h
  rfl

theorem div_follows (a c : BitVec w) : Follows TablesOk (ReadsOk m) (div a c) (div a c) :=
  follows_of_reads fun _ _ _ h => div_eq_some h ▸ ⟨rfl, rfl⟩

theorem mod_follows (a c : BitVec w) : Follows TablesOk (ReadsOk m) (mod a c) (mod a c) :=
  follows_of_reads fun _ _ _ h => mod_eq_some h ▸ ⟨rfl, rfl⟩

theorem kalloc_follows (n : U64) :
    Follows TablesOk (ReadsOk m) (kalloc m n) (kalloc m.reliable n) :=
  follows_of_reads fun s _ t h => by
    obtain ⟨⟩ := h
    exact ⟨rfl, rfl⟩

theorem div_total {a c : BitVec w} (hc : c ≠ 0) : Total (div a c) := fun s =>
  ⟨_, s, if_neg hc⟩

theorem mod_total {a c : BitVec w} (hc : c ≠ 0) : Total (mod a c) := fun s =>
  ⟨_, s, if_neg hc⟩

theorem kalloc_total (n : U64) : Total (kalloc m n) := fun _ => ⟨_, _, rfl⟩

theorem readBlock_total (hsec : m.sectorSize ≠ 0) (b : U32) (buf : Mem) :
    Total (ext2ReadBlock m p b buf) :=
  .bind (div_total hsec) fun _ _ => ⟨_, _, rfl⟩

/-- `ext2_read_block` returns what the read returns, and gives the same buffer as when no read fails
if that is 0. -/
theorem readBlock_follows {b : U32} {buf buf' : Mem} {rc : I32}
    (h : ext2ReadBlock m p b buf s = some ((rc, buf'), t)) :
    rc = m.status s.reads ∧ t = { s with reads := s.reads + 1 } ∧
      ∃ buf₀, ext2ReadBlock m.reliable p b buf s = some ((0, buf₀), t) ∧
        (rc = 0 → buf₀ = buf') := by
  obtain ⟨spb, s', hdiv, hread⟩ := bind_eq_some.1 h
  obtain rfl := div_eq_some hdiv
  obtain ⟨⟩ := hread
  have hdiv' : div p.blockSize m.reliable.sectorSize s' = some (spb, s') := hdiv
  refine ⟨rfl, rfl, sectors m (b.setWidth 64 * spb.setWidth 64) spb buf, ?_, fun h0 => ?_⟩
  · rw [ext2ReadBlock, bind_of hdiv']
    rfl
  · rw [if_pos h0]

/-- After one read that returned 0. -/
theorem ReadsOk.succ (h : m.status s.reads = 0) :
    ReadsOk m s { s with reads := s.reads + 1 } :=
  ⟨Nat.le_succ _, fun k hs hk => by
    obtain rfl : k = s.reads := Nat.le_antisymm (Nat.le_of_lt_succ hk) hs
    exact h⟩

end Primitives

section Lookup

variable {m : Machine} {p : Ext2Priv} {ei : Ext2Inode} {s t u : Io} {i i' : Ext2M U32}

/-- The entry of a table is the same as when no read fails, if its read did not fail. -/
theorem tableEntry_follows (tbl : U32) (hi : Follows TablesOk (ReadsOk m) i i') :
    Follows TablesOk (ReadsOk m) (tableEntry m p tbl i) (tableEntry m.reliable p tbl i') := by
  rw [tableEntry, tableEntry]
  refine .ite (fun _ => .pure (ReadsOk.refl m) 0) fun _ =>
    .bind (fun _ _ _ => ReadsOk.trans) (kalloc_follows 1) fun r => ?_
  cases r with
  | none => exact .pure (ReadsOk.refl m) 0
  | some buf =>
    intro s v u h hu
    obtain ⟨⟨rc, buf'⟩, t, hread, h⟩ := bind_eq_some.1 h
    obtain ⟨hrc, rfl, buf₀, hread', hbuf⟩ := readBlock_follows hread
    obtain ⟨-, -, ⟨⟩, h⟩ := bind_eq_some.1 h
    obtain ⟨k, t, hk, h⟩ := bind_eq_some.1 h
    obtain ⟨-, -, ⟨⟩, h⟩ := bind_eq_some.1 h
    obtain ⟨⟩ := h
    -- The read returned 0, since `tablesOk` holds at the end.
    obtain ⟨hg, hr, hk'⟩ := hi _ _ _ hk hu
    obtain ⟨hs, h0⟩ := Bool.and_eq_true_iff.1 hg
    obtain rfl : rc = 0 := of_decide_eq_true h0
    refine ⟨hs, (ReadsOk.succ hrc.symm).trans ⟨hr.le, hr.ok⟩, ?_⟩
    dsimp only
    rw [bind_of hread', hbuf rfl]
    dsimp only
    rw [bind_of (modify_apply _), bind_of hk', bind_of (rfl : access _ _ = _)]
    rfl

theorem tableEntry_total (hsec : m.sectorSize ≠ 0) (tbl : U32) (hi : Total i) :
    Total (tableEntry m p tbl i) := by
  rw [tableEntry]
  refine .ite (fun _ => .pure 0) fun _ => .bind (kalloc_total 1) fun r => ?_
  cases r with
  | none => exact .pure 0
  | some buf =>
    exact .bind (readBlock_total hsec _ _) fun r => .bind (fun _ => ⟨_, _, rfl⟩) fun _ =>
      .bind hi fun k => .bind (fun _ => ⟨_, _, rfl⟩) fun _ => .pure _

theorem blockMap_follows (ei : Ext2Inode) (lbn : U32) :
    Follows TablesOk (ReadsOk m) (ext2BlockMap m p ei lbn) (ext2BlockMap m.reliable p ei lbn) := by
  have hpure : ∀ a : U32, Follows TablesOk (ReadsOk m) (pure a) (pure a) :=
    .pure (ReadsOk.refl m)
  have htrans : ∀ s t u : Io, ReadsOk m s t → ReadsOk m t u → ReadsOk m s u := fun _ _ _ =>
    ReadsOk.trans
  rw [ext2BlockMap, ext2BlockMap]
  refine .ite (fun _ => hpure _) fun _ => .ite (fun _ => tableEntry_follows _ (hpure _)) fun _ =>
    .ite (fun _ => ?_) fun _ => ?_
  · exact .bind htrans (tableEntry_follows _ (div_follows _ _)) fun _ =>
      tableEntry_follows _ (mod_follows _ _)
  · exact .bind htrans (tableEntry_follows _ (div_follows _ _)) fun _ =>
      .bind htrans (tableEntry_follows _ (.bind htrans (div_follows _ _) fun _ =>
        mod_follows _ _)) fun _ => tableEntry_follows _ (mod_follows _ _)

/-- The divisors of `ext2_block_map`. -/
theorem ptrs_ne (hbs : p.blockSize = 1024 ∨ p.blockSize = 2048 ∨ p.blockSize = 4096) :
    p.blockSize / 4 ≠ 0 ∧ p.blockSize / 4 * (p.blockSize / 4) ≠ 0 := by
  rcases hbs with h | h | h <;> rw [h] <;> decide

theorem blockMap_total (hbs : p.blockSize = 1024 ∨ p.blockSize = 2048 ∨ p.blockSize = 4096)
    (hsec : m.sectorSize ≠ 0) (ei : Ext2Inode) (lbn : U32) : Total (ext2BlockMap m p ei lbn) := by
  obtain ⟨hp, hpp⟩ := ptrs_ne hbs
  rw [ext2BlockMap]
  refine .ite (fun _ => .pure _) fun _ => .ite (fun _ => tableEntry_total hsec _ (.pure _))
    fun _ => .ite (fun _ => ?_) fun _ => ?_
  · exact .bind (tableEntry_total hsec _ (div_total hp)) fun _ =>
      tableEntry_total hsec _ (mod_total hp)
  · exact .bind (tableEntry_total hsec _ (div_total hpp)) fun _ =>
      .bind (tableEntry_total hsec _ (.bind (div_total hp) fun _ => mod_total hp)) fun _ =>
        tableEntry_total hsec _ (mod_total hp)

theorem cacheBlock_total (hbs : p.blockSize = 1024 ∨ p.blockSize = 2048 ∨ p.blockSize = 4096)
    (hsec : m.sectorSize ≠ 0) (ei : Ext2Inode) (lbn curBlk : U32) (buf : Mem) :
    Total (cacheBlock m p ei lbn curBlk buf) := by
  rw [cacheBlock]
  exact .ite (fun _ => .pure _) fun _ => .bind (blockMap_total hbs hsec ei lbn) fun _ =>
    .ite (fun _ => .pure _) fun _ => .bind (readBlock_total hsec _ _) fun _ =>
      .ite (fun _ => .pure _) fun _ => .pure _

/-- Fetching a block runs alike, or it is the one that fails : then there is none, and there would
be one. -/
theorem cacheBlock_follows {lbn curBlk : U32} {buf : Mem} {r : Option Mem}
    (h : cacheBlock m p ei lbn curBlk buf s = some (r, t)) (ht : TablesOk t) :
    TablesOk s ∧ (ReadsOk m s t ∧ cacheBlock m.reliable p ei lbn curBlk buf s = some (r, t) ∨
      r = none ∧ ∃ buf' t', cacheBlock m.reliable p ei lbn curBlk buf s =
        some (some buf', t')) := by
  rw [cacheBlock] at h ⊢
  by_cases he : lbn = curBlk
  · rw [if_pos he] at h ⊢
    obtain ⟨⟩ := h
    exact ⟨ht, Or.inl ⟨.refl m s, rfl⟩⟩
  rw [if_neg he] at h ⊢
  obtain ⟨v, u, hv, h⟩ := bind_eq_some.1 h
  by_cases hv0 : v = 0
  · rw [if_pos hv0] at h
    obtain ⟨⟩ := h
    obtain ⟨hs, hr, hv'⟩ := blockMap_follows ei lbn s v t hv ht
    refine ⟨hs, Or.inl ⟨hr, ?_⟩⟩
    rw [bind_of hv', if_pos hv0]
    rfl
  rw [if_neg hv0] at h
  obtain ⟨⟨rc, buf'⟩, u', hread, h⟩ := bind_eq_some.1 h
  obtain ⟨hrc, rfl, buf₀, hread', hbuf⟩ := readBlock_follows hread
  have hu : TablesOk u := by
    dsimp only at h
    split_ifs at h <;> obtain ⟨⟩ := h <;> exact ht
  obtain ⟨hs, hr, hv'⟩ := blockMap_follows ei lbn s v u hv hu
  refine ⟨hs, ?_⟩
  rw [bind_of hv', if_neg hv0, bind_of hread']
  dsimp only at h
  by_cases h0 : rc = 0
  · rw [if_pos h0] at h
    obtain ⟨⟩ := h
    exact Or.inl ⟨hr.trans (.succ (hrc.symm.trans h0)), by rw [hbuf h0]; rfl⟩
  · rw [if_neg h0] at h
    obtain ⟨⟩ := h
    exact Or.inr ⟨rfl, _, _, rfl⟩

end Lookup

section Read

variable {m : Machine} {p : Ext2Priv} {ei : Ext2Inode} {s t : Io} {off count : U64}

/-- The number of the block of a round. -/
def roundBlk (p : Ext2Priv) (off done : U64) : U32 :=
  ((off + done) / p.blockSize.setWidth 64).setWidth 32

/-- The first byte of the block that a round copies. -/
def roundOff (p : Ext2Priv) (off done : U64) : U32 :=
  ((off + done) % p.blockSize.setWidth 64).setWidth 32

/-- The number of bytes that a round copies. -/
def roundLen (p : Ext2Priv) (off count done : U64) : U64 :=
  if (p.blockSize - roundOff p off done).setWidth 64 > count - done then count - done
  else (p.blockSize - roundOff p off done).setWidth 64

theorem blockSize_ne {p : Ext2Priv}
    (hbs : p.blockSize = 1024 ∨ p.blockSize = 2048 ∨ p.blockSize = 4096) :
    (p.blockSize.setWidth 64 : U64) ≠ 0 := by
  rcases hbs with h | h | h <;> rw [h] <;> decide

/-- One round of the loop. -/
theorem readLoop_round {done : U64} (hne : (p.blockSize.setWidth 64 : U64) ≠ 0)
    (hlt : done < count) (fuel : ℕ) (curBlk : U32) (buf out : Mem) :
    readLoop m p ei off count (fuel + 1) done curBlk buf out =
      cacheBlock m p ei (roundBlk p off done) curBlk buf >>= fun r =>
      match r with
      | none => pure (done, out)
      | some buf =>
        access (.block ⟨(roundOff p off done).setWidth 64, (roundLen p off count done).toNat⟩) >>=
        fun _ => readLoop m p ei off count fuel (done + roundLen p off count done)
          (roundBlk p off done) buf
          (paste out done buf ((roundOff p off done).setWidth 64)
            (roundLen p off count done).toNat) := by
  rw [readLoop, if_pos hlt, div_of_ne hne, mod_of_ne hne, pure_bind, pure_bind]
  rfl

variable (off) in
/-- A round copies something, and not more than is left of the read and of the block. -/
theorem roundLen_bounds {done : U64} (hne : (p.blockSize.setWidth 64 : U64) ≠ 0)
    (hlt : done < count) : 0 < (roundLen p off count done).toNat ∧
      done.toNat + (roundLen p off count done).toNat ≤ count.toNat ∧
      ((roundOff p off done).setWidth 64 : U64).toNat + (roundLen p off count done).toNat ≤
        p.blockSize.toNat := by
  have hlt' := BitVec.lt_def.1 hlt
  have hleft : (count - done).toNat = count.toNat - done.toNat :=
    BitVec.toNat_sub_of_le (BitVec.le_def.2 hlt'.le)
  have hbs : (p.blockSize.setWidth 64 : U64).toNat = p.blockSize.toNat := by
    rw [BitVec.toNat_setWidth, Nat.mod_eq_of_lt (p.blockSize.isLt.trans (by norm_num))]
  have hpos : 0 < p.blockSize.toNat := by
    refine Nat.pos_of_ne_zero fun h => hne (BitVec.eq_of_toNat_eq ?_)
    rw [hbs, h]
    rfl
  have hmod : (roundOff p off done).toNat < p.blockSize.toNat := by
    have hlt := Nat.mod_lt (off + done).toNat hpos
    have hb := p.blockSize.isLt
    rw [roundOff, BitVec.toNat_setWidth, BitVec.toNat_umod, hbs, Nat.mod_eq_of_lt (by omega)]
    exact hlt
  have hroom : ((p.blockSize - roundOff p off done).setWidth 64 : U64).toNat =
      p.blockSize.toNat - (roundOff p off done).toNat := by
    have hb := p.blockSize.isLt
    rw [BitVec.toNat_setWidth, BitVec.toNat_sub_of_le (BitVec.le_def.2 hmod.le),
      Nat.mod_eq_of_lt (by omega)]
  have hoff : ((roundOff p off done).setWidth 64 : U64).toNat = (roundOff p off done).toNat := by
    have hb := p.blockSize.isLt
    rw [BitVec.toNat_setWidth, Nat.mod_eq_of_lt (by omega)]
  rw [roundLen]
  split_ifs with h
  · have h := BitVec.lt_def.1 h
    omega
  · have h := BitVec.le_def.1 (BitVec.not_lt.1 h)
    omega

variable (off) in
theorem toNat_add_roundLen {done : U64} (hne : (p.blockSize.setWidth 64 : U64) ≠ 0)
    (hlt : done < count) : (done + roundLen p off count done).toNat =
      done.toNat + (roundLen p off count done).toNat := by
  have hb := (roundLen_bounds off hne hlt).2.1
  have hc := count.isLt
  rw [BitVec.toNat_add, Nat.mod_eq_of_lt (by omega)]

/-- The loop counts on, and leaves the bytes it has counted. -/
theorem readLoop_mono (hne : (p.blockSize.setWidth 64 : U64) ≠ 0) (fuel : ℕ) :
    ∀ {done curBlk buf out s d out' t}, done ≤ count →
      readLoop m p ei off count fuel done curBlk buf out s = some ((d, out'), t) →
      done ≤ d ∧ ∀ x : U64, x < done → out' x = out x := by
  induction fuel with
  | zero => exact fun _ h => nomatch h
  | succ fuel ih =>
    intro done curBlk buf out s d out' t hle h
    by_cases hlt : done < count
    swap
    · rw [readLoop, if_neg hlt] at h
      obtain ⟨⟩ := h
      exact ⟨BitVec.le_refl _, fun _ _ => rfl⟩
    rw [readLoop_round hne hlt] at h
    obtain ⟨r, u, -, h⟩ := bind_eq_some.1 h
    cases r with
    | none =>
      obtain ⟨⟩ := h
      exact ⟨BitVec.le_refl _, fun _ _ => rfl⟩
    | some buf' =>
      obtain ⟨-, -, ⟨⟩, h⟩ := bind_eq_some.1 h
      obtain ⟨-, hb, -⟩ := roundLen_bounds off hne hlt
      have hc := count.isLt
      have hadd := toNat_add_roundLen off hne hlt
      obtain ⟨hd, hx⟩ := ih (BitVec.le_def.2 (by omega)) h
      refine ⟨BitVec.le_def.2 (by have := BitVec.le_def.1 hd; omega), fun x hxd => ?_⟩
      have hxd' := BitVec.lt_def.1 hxd
      rw [hx x (BitVec.lt_def.2 (by omega)), paste_of_not_within]
      rw [within_iff (by omega)]
      omega

/-- The loop ends. -/
theorem readLoop_total (hbs : p.blockSize = 1024 ∨ p.blockSize = 2048 ∨ p.blockSize = 4096)
    (hsec : m.sectorSize ≠ 0) (fuel : ℕ) : ∀ done curBlk buf out,
      count.toNat - done.toNat < fuel →
      Total (readLoop m p ei off count fuel done curBlk buf out) := by
  have hne := blockSize_ne hbs
  induction fuel with
  | zero => exact fun _ _ _ _ h => absurd h (Nat.not_lt_zero _)
  | succ fuel ih =>
    intro done curBlk buf out hfuel
    by_cases hlt : done < count
    swap
    · rw [readLoop, if_neg hlt]
      exact .pure _
    rw [readLoop_round hne hlt]
    refine .bind (cacheBlock_total hbs hsec ei _ _ _) fun r => ?_
    cases r with
    | none => exact .pure _
    | some buf' =>
      refine .bind (fun _ => ⟨_, _, rfl⟩) fun _ => ih _ _ _ _ ?_
      have hb := roundLen_bounds off hne hlt
      rw [toNat_add_roundLen off hne hlt]
      omega

theorem readLoop_tablesOk (hne : (p.blockSize.setWidth 64 : U64) ≠ 0) (fuel : ℕ) :
    ∀ {done curBlk buf out s r t},
      readLoop m p ei off count fuel done curBlk buf out s = some (r, t) → TablesOk t →
      TablesOk s := by
  induction fuel with
  | zero => exact fun h => nomatch h
  | succ fuel ih =>
    intro done curBlk buf out s r t h ht
    by_cases hlt : done < count
    swap
    · rw [readLoop, if_neg hlt] at h
      obtain ⟨⟩ := h
      exact ht
    rw [readLoop_round hne hlt] at h
    obtain ⟨r, u, hc, h⟩ := bind_eq_some.1 h
    refine (cacheBlock_follows hc ?_).1
    cases r with
    | none =>
      obtain ⟨⟩ := h
      exact ht
    | some buf' =>
      obtain ⟨-, -, ⟨⟩, h⟩ := bind_eq_some.1 h
      have hu := ih h ht
      exact hu

/-- The loop stores a prefix of what it stores when no read fails, and a proper one when a read
failed. -/
theorem readLoop_prefix (hne : (p.blockSize.setWidth 64 : U64) ≠ 0) (fuel : ℕ) :
    ∀ {done curBlk buf out s d out' t d₀ out₀ t₀}, done ≤ count →
      readLoop m p ei off count fuel done curBlk buf out s = some ((d, out'), t) →
      readLoop m.reliable p ei off count fuel done curBlk buf out s = some ((d₀, out₀), t₀) →
      TablesOk t →
      d ≤ d₀ ∧ (∀ x : U64, x < d → out' x = out₀ x) ∧ (ReadsOk m s t ∨ d < d₀) := by
  induction fuel with
  | zero => exact fun _ h => nomatch h
  | succ fuel ih =>
    intro done curBlk buf out s d out' t d₀ out₀ t₀ hle h h₀ ht
    by_cases hlt : done < count
    swap
    · rw [readLoop, if_neg hlt] at h h₀
      obtain ⟨⟩ := h
      obtain ⟨⟩ := h₀
      exact ⟨BitVec.le_refl _, fun _ _ => rfl, Or.inl (.refl m s)⟩
    rw [readLoop_round hne hlt] at h h₀
    obtain ⟨r, u, hc, h⟩ := bind_eq_some.1 h
    obtain ⟨r₀, u₀, hc₀, h₀⟩ := bind_eq_some.1 h₀
    have hb := roundLen_bounds off hne hlt
    have hadd := toNat_add_roundLen off hne hlt
    have hle' : done + roundLen p off count done ≤ count := BitVec.le_def.2 (by omega)
    have hu : TablesOk u := by
      cases r with
      | none =>
        obtain ⟨⟩ := h
        exact ht
      | some buf' =>
        obtain ⟨-, -, ⟨⟩, h⟩ := bind_eq_some.1 h
        have hu := readLoop_tablesOk hne fuel h ht
        exact hu
    obtain ⟨-, hcase⟩ := cacheBlock_follows hc hu
    rcases hcase with ⟨hok, hc'⟩ | ⟨rfl, buf', u', hc'⟩
    · obtain ⟨⟩ := hc₀.symm.trans hc'
      cases r with
      | none =>
        obtain ⟨⟩ := h
        obtain ⟨⟩ := h₀
        exact ⟨BitVec.le_refl _, fun _ _ => rfl, Or.inl hok⟩
      | some buf' =>
        obtain ⟨-, -, ⟨⟩, h⟩ := bind_eq_some.1 h
        obtain ⟨-, -, ⟨⟩, h₀⟩ := bind_eq_some.1 h₀
        obtain ⟨hd, hx, hor⟩ := ih hle' h h₀ ht
        exact ⟨hd, hx, hor.imp_left fun hr => hok.trans ⟨hr.le, hr.ok⟩⟩
    · -- The read that fails : the other loop goes on.
      obtain ⟨⟩ := h
      obtain ⟨⟩ := hc₀.symm.trans hc'
      obtain ⟨-, -, ⟨⟩, h₀⟩ := bind_eq_some.1 h₀
      obtain ⟨hd, hx⟩ := readLoop_mono hne fuel hle' h₀
      have hlt₀ : done < d₀ := BitVec.lt_def.2 (by have := BitVec.le_def.1 hd; omega)
      refine ⟨BitVec.le_of_lt hlt₀, fun x hxd => ?_, Or.inr hlt₀⟩
      have hxd' := BitVec.lt_def.1 hxd
      have hc := count.isLt
      rw [hx x (BitVec.lt_def.2 (by omega)), paste_of_not_within]
      rw [within_iff (by omega)]
      omega

/-- The number of bytes that are counted as read : the position advances by it. -/
def counted (off : U64) (r : I64 × Mem × U64) : ℕ := (r.2.2 - off).toNat

/-- The bytes that `r` counts as read are a prefix of those of `r₀`. -/
structure PrefixOf (off : U64) (r r₀ : I64 × Mem × U64) : Prop where
  le : counted off r ≤ counted off r₀
  bytes : ∀ i < counted off r, r.2.1 (BitVec.ofNat 64 i) = r₀.2.1 (BitVec.ofNat 64 i)

theorem PrefixOf.refl (off : U64) (r : I64 × Mem × U64) : PrefixOf off r r :=
  ⟨le_rfl, fun _ _ => rfl⟩

theorem counted_add (off done : U64) (ret : I64) (out : Mem) :
    counted off (ret, out, off + done) = done.toNat := by
  rw [counted, BitVec.add_comm, BitVec.add_sub_cancel]

theorem fuel_lt (n : U64) : n.toNat - (0 : U64).toNat < loopFuel := by
  have := n.isLt
  rw [loopFuel]
  omega

theorem ext2Read_total (hbs : p.blockSize = 1024 ∨ p.blockSize = 2048 ∨ p.blockSize = 4096)
    (hsec : m.sectorSize ≠ 0) (ei : Ext2Inode) (out : Mem) (count off : U64) :
    Total (ext2Read m p ei out count off) := by
  rw [ext2Read]
  refine .ite (fun _ => .pure _) fun _ => .bind (kalloc_total 1) fun r => ?_
  cases r with
  | none => exact .pure _
  | some buf => exact .bind (readLoop_total hbs hsec _ _ _ _ _ (fuel_lt _)) fun _ => .pure _

/-- Unless a read of an indirect block fails, what `ext2_read` counts as read is a prefix of what
it reads when no read fails, and a proper one when a read failed. -/
theorem ext2_read_prefix (hbs : p.blockSize = 1024 ∨ p.blockSize = 2048 ∨ p.blockSize = 4096)
    (hsec : m.sectorSize ≠ 0) (ei : Ext2Inode) (out : Mem) (count off : U64) (s : Io) :
    ∃ r t r₀ t₀, ext2Read m p ei out count off s = some (r, t) ∧
      ext2Read m.reliable p ei out count off s = some (r₀, t₀) ∧
      (TablesOk t → PrefixOf off r r₀ ∧ (ReadsOk m s t ∨ counted off r < counted off r₀)) := by
  obtain ⟨r, t, h⟩ := ext2Read_total (m := m) hbs hsec ei out count off s
  obtain ⟨r₀, t₀, h₀⟩ :=
    ext2Read_total (m := m.reliable) hbs hsec ei out count off s
  refine ⟨r, t, r₀, t₀, h, h₀, fun ht => ?_⟩
  rw [ext2Read] at h h₀
  by_cases hend : off ≥ ei.size
  · rw [if_pos hend] at h h₀
    obtain ⟨⟩ := h
    obtain ⟨⟩ := h₀
    exact ⟨.refl _ _, Or.inl (.refl m s)⟩
  rw [if_neg hend] at h h₀
  dsimp only at h h₀
  generalize (if off + count > ei.size then ei.size - off else count) = c at h h₀
  obtain ⟨b, u, hb, h⟩ := bind_eq_some.1 h
  obtain ⟨b₀, u₀, hb₀, h₀⟩ := bind_eq_some.1 h₀
  obtain ⟨⟩ := hb.symm.trans hb₀
  have hu : ReadsOk m s u := by
    obtain ⟨⟩ := hb
    exact ⟨le_rfl, fun k hk hk' => absurd hk (Nat.not_le.2 hk')⟩
  cases b with
  | none =>
    obtain ⟨⟩ := h
    obtain ⟨⟩ := h₀
    exact ⟨.refl _ _, Or.inl hu⟩
  | some buf =>
    obtain ⟨⟨d, out'⟩, v, h, hr⟩ := bind_eq_some.1 h
    obtain ⟨⟨d₀, out₀⟩, v₀, h₀, hr₀⟩ := bind_eq_some.1 h₀
    obtain ⟨⟩ := hr
    obtain ⟨⟩ := hr₀
    obtain ⟨hd, hx, hor⟩ := readLoop_prefix (blockSize_ne hbs) loopFuel
      (BitVec.le_def.2 (Nat.zero_le _)) h h₀ ht
    rw [counted_add, counted_add]
    refine ⟨⟨?_, fun i hi => hx _ ?_⟩, hor.imp (fun h => hu.trans h) fun h => BitVec.lt_def.1 h⟩
    · rw [counted_add, counted_add]
      exact BitVec.le_def.1 hd
    · rw [counted_add] at hi
      have := d.isLt
      rw [BitVec.lt_def, BitVec.toNat_ofNat, Nat.mod_eq_of_lt (by omega)]
      exact hi

end Read

/-- A device whose first read fails, with a table in block 20 that names block 21, and the byte 1
in block 21. -/
def failingDisk : Machine :=
  { goodDisk 512 (fun k => if k = 20 * 1024 then 21 else if k = 21 * 1024 then 1 else 0) with
    status := fun n => if n = 0 then -1 else 0 }

/-- When the read of the table fails, the byte is read from block `0x05050505`. -/
theorem ext2_read_not_prefix : ∃ r t r₀ t₀,
    ext2Read failingDisk smallPriv (regularFile 12289 fun _ => 20) (fun _ => 0) 1 12288 Io.start =
      some (r, t) ∧
    ext2Read failingDisk.reliable smallPriv (regularFile 12289 fun _ => 20) (fun _ => 0) 1 12288
      Io.start = some (r₀, t₀) ∧ ¬PrefixOf 12288 r r₀ := by
  obtain ⟨r, t, h⟩ := ext2Read_total (m := failingDisk) (p := smallPriv) (Or.inl rfl)
    (show (512 : U32) ≠ 0 by decide) (regularFile 12289 fun _ => 20) (fun _ => 0) 1 12288 Io.start
  obtain ⟨r₀, t₀, h₀⟩ := ext2Read_total (m := failingDisk.reliable) (p := smallPriv) (Or.inl rfl)
    (show (512 : U32) ≠ 0 by decide) (regularFile 12289 fun _ => 20) (fun _ => 0) 1 12288 Io.start
  have hr : some (counted 12288 r, r.2.1 0) = some (1, 0) := by
    rw [← Option.map_some (f := fun r : (I64 × Mem × U64) × Io => (counted 12288 r.1, r.1.2.1 0))
      (a := (r, t)), ← h]
    decide +kernel
  have hr₀ : some (r₀.2.1 0) = some 1 := by
    rw [← Option.map_some (f := fun r : (I64 × Mem × U64) × Io => r.1.2.1 0) (a := (r₀, t₀)), ← h₀]
    decide +kernel
  refine ⟨r, t, r₀, t₀, h, h₀, fun hp => ?_⟩
  obtain ⟨hc, hb⟩ := Prod.mk.inj (Option.some.inj hr)
  have hbyte := hp.bytes 0 (by rw [hc]; exact Nat.one_pos)
  rw [show (BitVec.ofNat 64 0 : U64) = 0 from rfl, hb, Option.some.inj hr₀] at hbyte
  exact absurd hbyte (by decide)

theorem ext2_read_prefix_sample : ∃ r t r₀ t₀,
    ext2Read failingDisk smallPriv (regularFile 1 fun _ => 20) (fun _ => 0) 1 0 Io.start =
      some (r, t) ∧
    ext2Read failingDisk.reliable smallPriv (regularFile 1 fun _ => 20) (fun _ => 0) 1 0 Io.start =
      some (r₀, t₀) ∧ (TablesOk t → PrefixOf 0 r r₀ ∧
        (ReadsOk failingDisk Io.start t ∨ counted 0 r < counted 0 r₀)) :=
  ext2_read_prefix (Or.inl rfl) (show (512 : U32) ≠ 0 by decide) _ _ _ _ _

end Jeos.Ext2
