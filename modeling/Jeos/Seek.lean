import Jeos.Files

/-!
# Seeking

`vfs_seek` of `vfs.c` with the two `llseek` operations of `devfs.c`, under `sys_seek`. Positions are
unsigned 64-bit numbers, and an error is a negative number in the same type.

`SeekFile.base` is what an offset counts from, unless the seek is refused. A seek that is not
refused moves the file to the sum, and `fb_dev_llseek` no further than its size (`vfsSeek_eq`). Only
that limit keeps a position from being negative as a signed number. So the value of `sys_seek`
tells what it did exactly if the seek is refused, or the new position is below `2 ^ 63` or the old
one (`seek_value_tells_iff`). A seek to -1 is done and looks like an error (`seek_before_start`).
-/

set_option linter.unusedSectionVars false

namespace Jeos

/-- The `llseek` operations. -/
inductive Llseek where
  | blkdev
  | fb
  deriving DecidableEq

/-- An open file as far as it is sought : its position, the `llseek` operation, and the value and
`st.size` of `getattr`, if the inode has it. -/
structure SeekFile where
  pos : U64
  llseek : Option Llseek
  getattr : Option (U32 × U64)

/-- The descriptors, the open files, and the size of the framebuffer. -/
structure SeekState where
  files : FileSystemState
  file : ℕ → SeekFile
  fbHeight : U32
  fbPitchU32 : U32

/-- `VFS_SEEK_SET`. -/
def vfsSeekSet : U32 := 0

/-- `VFS_SEEK_CUR`. -/
def vfsSeekCur : U32 := 1

/-- `VFS_SEEK_END`. -/
def vfsSeekEnd : U32 := 2

/-- `kconsole_get_size`. -/
def kconsoleGetSize (fbHeight fbPitchU32 : U32) : U64 :=
  fbHeight.setWidth 64 * fbPitchU32.setWidth 64 * 4

namespace SeekFile

variable (f : SeekFile) (size : U64)

/-- `blkdev_llseek`. -/
def blkdevLlseek (off : U64) (whence : U32) : SeekFile × U64 :=
  if whence = vfsSeekSet then ({ f with pos := off }, off)
  else if whence = vfsSeekCur then ({ f with pos := f.pos + off }, f.pos + off)
  else (f, vfsEINVAL)

/-- `fb_dev_llseek`, with the value of `kconsole_get_size`. -/
def fbDevLlseek (off : U64) (whence : U32) : SeekFile × U64 :=
  let seekTo (newpos : U64) : SeekFile × U64 :=
    let newpos := if newpos > size then size else newpos
    ({ f with pos := newpos }, newpos)
  if whence = vfsSeekSet then seekTo off
  else if whence = vfsSeekCur then seekTo (f.pos + off)
  else if whence = vfsSeekEnd then seekTo (size + off)
  else (f, vfsEINVAL)

/-- `vfs_seek`. -/
def vfsSeek (off : U64) (whence : U32) : SeekFile × U64 :=
  match f.llseek with
  | some .blkdev => f.blkdevLlseek off whence
  | some .fb => f.fbDevLlseek size off whence
  | none =>
    match f.getattr with
    | none => (f, vfsENOSYS)
    | some (rc, stSize) =>
      if rc.toInt < 0 then (f, vfsEINVAL)
      else if whence = vfsSeekSet then ({ f with pos := off }, off)
      else if whence = vfsSeekCur then ({ f with pos := f.pos + off }, f.pos + off)
      else if whence = vfsSeekEnd then ({ f with pos := stSize + off }, stSize + off)
      else (f, vfsEINVAL)

end SeekFile

namespace SeekState

variable (s : SeekState)

/-- The size of the framebuffer. -/
def fbSize : U64 := kconsoleGetSize s.fbHeight s.fbPitchU32

/-- The open file of a descriptor of the current process. -/
def fileOf (current : Option (Fin maxProcs)) (fd : U64) : Option ℕ :=
  current.bind fun k => s.files.fdGet k (fd.setWidth 32)

/-- `sys_seek`. -/
def sysSeek (current : Option (Fin maxProcs)) (fd off whence : U64) : SeekState × U64 :=
  match current with
  | none => (s, -1)
  | some k =>
    match s.files.fdGet k (fd.setWidth 32) with
    | none => (s, -1)
    | some i =>
      let (f, v) := (s.file i).vfsSeek s.fbSize off (whence.setWidth 32)
      ({ s with file := Function.update s.file i f }, v)

end SeekState

/-! ## Where a seek leads -/

namespace SeekFile

variable {f : SeekFile} {size b off : U64} {whence : U32}

/-- What an offset counts from : the start, the position, or the end if it is known. -/
def whenceBase (pos : U64) (stSize : Option U64) (whence : U32) : Option U64 :=
  if whence = vfsSeekSet then some 0
  else if whence = vfsSeekCur then some pos
  else if whence = vfsSeekEnd then stSize
  else none

/-- What the offset counts from, unless the seek is refused. -/
def base (f : SeekFile) (size : U64) (whence : U32) : Option U64 :=
  match f.llseek with
  | some .blkdev => whenceBase f.pos none whence
  | some .fb => whenceBase f.pos (some size) whence
  | none =>
    match f.getattr with
    | none => none
    | some (rc, stSize) => if rc.toInt < 0 then none else whenceBase f.pos (some stSize) whence

/-- The framebuffer is not left. -/
def limit (f : SeekFile) (size newpos : U64) : U64 :=
  if f.llseek = some .fb ∧ newpos > size then size else newpos

/-- The seek is refused : the file is as it was, and the value is an error. -/
def Refused (f : SeekFile) (size off : U64) (whence : U32) : Prop :=
  f.base size whence = none ∧ ∃ e : U64, e.toInt < 0 ∧ f.vfsSeek size off whence = (f, e)

/-- The seek moves the file by the offset from its base and returns where. -/
def Moved (f : SeekFile) (size off : U64) (whence : U32) : Prop :=
  ∃ b, f.base size whence = some b ∧ f.vfsSeek size off whence =
    ({ f with pos := f.limit size (b + off) }, f.limit size (b + off))

theorem limit_of_ne (hl : f.llseek ≠ some .fb) (n : U64) : f.limit size n = n :=
  if_neg fun h => hl h.1

theorem blkdev_moves (hl : f.llseek = some .blkdev) :
    f.Refused size off whence ∨ f.Moved size off whence := by
  have hlimit := @limit_of_ne f size (by rw [hl]; decide)
  simp only [Refused, Moved, hlimit, vfsSeek, base, hl, blkdevLlseek, whenceBase]
  split_ifs
  · exact Or.inr ⟨0, rfl, by simp⟩
  · exact Or.inr ⟨_, rfl, rfl⟩
  · exact Or.inl ⟨rfl, vfsEINVAL, by decide, rfl⟩
  · exact Or.inl ⟨rfl, vfsEINVAL, by decide, rfl⟩

theorem fb_moves (hl : f.llseek = some .fb) :
    f.Refused size off whence ∨ f.Moved size off whence := by
  have hlimit : ∀ n, f.limit size n = if n > size then size else n := fun n => by
    simp only [limit, hl, true_and]
  simp only [Refused, Moved, hlimit, vfsSeek, base, hl, fbDevLlseek, whenceBase]
  by_cases hset : whence = vfsSeekSet
  · simp only [if_pos hset]
    exact Or.inr ⟨0, rfl, by simp⟩
  by_cases hcur : whence = vfsSeekCur
  · simp only [if_neg hset, if_pos hcur]
    exact Or.inr ⟨_, rfl, rfl⟩
  by_cases hend : whence = vfsSeekEnd
  · simp only [if_neg hset, if_neg hcur, if_pos hend]
    exact Or.inr ⟨_, rfl, rfl⟩
  · simp only [if_neg hset, if_neg hcur, if_neg hend]
    exact Or.inl ⟨trivial, vfsEINVAL, by decide, rfl⟩

theorem generic_moves (hl : f.llseek = none) :
    f.Refused size off whence ∨ f.Moved size off whence := by
  have hlimit := @limit_of_ne f size (by rw [hl]; decide)
  cases hg : f.getattr with
  | none =>
    simp only [Refused, Moved, vfsSeek, base, hl, hg]
    exact Or.inl ⟨trivial, vfsENOSYS, by decide, rfl⟩
  | some a =>
    simp only [Refused, Moved, hlimit, vfsSeek, base, hl, hg, whenceBase]
    split_ifs
    · exact Or.inl ⟨rfl, vfsEINVAL, by decide, rfl⟩
    · exact Or.inr ⟨0, rfl, by simp⟩
    · exact Or.inr ⟨_, rfl, rfl⟩
    · exact Or.inr ⟨_, rfl, rfl⟩
    · exact Or.inl ⟨rfl, vfsEINVAL, by decide, rfl⟩

/-- A seek is refused, or it moves the file. -/
theorem refused_or_moved (f : SeekFile) (size off : U64) (whence : U32) :
    f.Refused size off whence ∨ f.Moved size off whence := by
  cases hl : f.llseek with
  | none => exact generic_moves hl
  | some op =>
    cases op with
    | blkdev => exact blkdev_moves hl
    | fb => exact fb_moves hl

/-! ## What the value tells -/

/-- Base and offset add up to a position below `2 ^ 63`, perhaps after a wrap. -/
def NotNegative (b off : U64) : Prop :=
  0 ≤ b.toNat + off.toInt ∧ b.toNat + off.toInt < 2 ^ 63 ∨ 2 ^ 64 ≤ b.toNat + off.toInt

/-- Base and offset add up to a position behind `size`, perhaps after a wrap. -/
def Past (size b off : U64) : Prop :=
  size.toNat < b.toNat + off.toInt ∧ b.toNat + off.toInt < 2 ^ 64 ∨
    b.toNat + off.toInt < 0 ∧ size.toNat < b.toNat + off.toInt + 2 ^ 64

/-- The position that a seek leads to is not negative, or it is the old one. For the framebuffer
this is so whatever the offset, unless its size is negative too. -/
def Tells (f : SeekFile) (size b off : U64) : Prop :=
  match f.llseek with
  | some .fb => size.toNat < 2 ^ 63 ∨ NotNegative b off ∨ (off = f.pos - b ∧ f.pos ≤ size) ∨
      (f.pos = size ∧ Past size b off)
  | _ => NotNegative b off ∨ off = f.pos - b

theorem toInt_nonneg_iff {x : U64} : 0 ≤ x.toInt ↔ x.toNat < 2 ^ 63 := by
  have := x.isLt
  rw [BitVec.toInt_eq_toNat_cond]
  split_ifs <;> omega

theorem notNegative_iff : NotNegative b off ↔ 0 ≤ (b + off).toInt := by
  have := b.isLt
  have := off.isLt
  rw [toInt_nonneg_iff, NotNegative, BitVec.toInt_eq_toNat_cond, BitVec.toNat_add]
  split_ifs <;> omega

theorem past_iff (hs : 2 ^ 63 ≤ size.toNat) : Past size b off ↔ size < b + off := by
  have := b.isLt
  have := off.isLt
  rw [BitVec.lt_def, Past, BitVec.toInt_eq_toNat_cond, BitVec.toNat_add]
  split_ifs <;> omega

theorem eq_sub_iff {p : U64} : off = p - b ↔ b + off = p := by
  rw [BitVec.eq_sub_iff_add_eq, BitVec.add_comm]

/-- The framebuffer is sought inside its size. -/
theorem fb_tells_iff {p : U64} :
    (size.toNat < 2 ^ 63 ∨ NotNegative b off ∨ (off = p - b ∧ p ≤ size) ∨
        (p = size ∧ Past size b off)) ↔
      0 ≤ (if b + off > size then size else b + off).toInt ∨
        (if b + off > size then size else b + off) = p := by
  rw [notNegative_iff, eq_sub_iff, toInt_nonneg_iff, toInt_nonneg_iff]
  by_cases hs : size.toNat < 2 ^ 63
  · refine iff_of_true (Or.inl hs) (Or.inl ?_)
    split_ifs with hgt
    · exact hs
    · exact lt_of_le_of_lt (BitVec.le_def.1 (BitVec.not_lt.1 hgt)) hs
  rw [past_iff (Nat.le_of_not_lt hs), or_iff_right hs]
  by_cases hgt : size < b + off
  · have hlarge : ¬(b + off).toNat < 2 ^ 63 := by
      have := BitVec.lt_def.1 hgt
      omega
    have hout : ¬(b + off = p ∧ p ≤ size) := fun h =>
      BitVec.not_lt.2 h.2 (h.1 ▸ hgt)
    rw [if_pos hgt, or_iff_right hlarge, or_iff_right hout, or_iff_right hs, and_iff_left hgt,
      eq_comm]
  · have hout : ¬(p = size ∧ size < b + off) := fun h => hgt h.2
    have hin : b + off = p → p ≤ size := fun h => h ▸ BitVec.not_lt.1 hgt
    rw [if_neg hgt, or_iff_left hout, and_iff_left_of_imp hin]

theorem tells_iff (f : SeekFile) (size b off : U64) : f.Tells size b off ↔
    0 ≤ (f.limit size (b + off)).toInt ∨ f.limit size (b + off) = f.pos := by
  by_cases hl : f.llseek = some .fb
  · simp only [Tells, limit, hl, true_and]
    exact fb_tells_iff
  · have hother : f.Tells size b off ↔ NotNegative b off ∨ off = f.pos - b := by
      unfold Tells
      split
      case h_1 h => exact absurd h hl
      case h_2 => exact Iff.rfl
    rw [hother, limit_of_ne hl, notNegative_iff, eq_sub_iff]

end SeekFile

namespace SeekState

variable {s s' : SeekState} {i : ℕ} {v : U64}

/-- What the value of a seek of the file `i` should tell : an error leaves everything as it was, and
any other value is the new position of the file. -/
def ValueTells (s s' : SeekState) (i : Option ℕ) (v : U64) : Prop :=
  (v.toInt < 0 → s' = s) ∧ (0 ≤ v.toInt → ∃ j, i = some j ∧ (s'.file j).pos = v)

theorem sysSeek_of_none {current : Option (Fin maxProcs)} {fd : U64} (off whence : U64)
    (h : s.fileOf current fd = none) : s.sysSeek current fd off whence = (s, -1) := by
  cases current with
  | none => rfl
  | some k =>
    have hfd : s.files.fdGet k (fd.setWidth 32) = none := h
    simp only [sysSeek, hfd]

theorem sysSeek_of_some {current : Option (Fin maxProcs)} {fd : U64} (off whence : U64)
    (h : s.fileOf current fd = some i) : s.sysSeek current fd off whence =
      let r := (s.file i).vfsSeek s.fbSize off (whence.setWidth 32)
      ({ s with file := Function.update s.file i r.1 }, r.2) := by
  cases current with
  | none => cases h
  | some k =>
    have hfd : s.files.fdGet k (fd.setWidth 32) = some i := h
    simp only [sysSeek, hfd]

/-- The value of `sys_seek` tells what the call did, just if the seek is refused or leads to a
position that is not negative or the old one. -/
theorem seek_value_tells_iff (s : SeekState) (current : Option (Fin maxProcs))
    (fd off whence : U64) :
    ValueTells s (s.sysSeek current fd off whence).1 (s.fileOf current fd)
        (s.sysSeek current fd off whence).2 ↔
      ∀ i b, s.fileOf current fd = some i →
        (s.file i).base s.fbSize (whence.setWidth 32) = some b →
          (s.file i).Tells s.fbSize b off := by
  cases hf : s.fileOf current fd with
  | none =>
    rw [sysSeek_of_none off whence hf]
    refine iff_of_true ⟨fun _ => rfl, fun h => ?_⟩ fun _ _ h => by cases h
    exact absurd (show (0 : ℤ) ≤ -1 from h) (by decide)
  | some i =>
    rw [sysSeek_of_some off whence hf]
    dsimp only
    rcases (s.file i).refused_or_moved s.fbSize off (whence.setWidth 32) with
      ⟨hbase, e, he, hseek⟩ | ⟨b, hbase, hseek⟩
    · rw [hseek, Function.update_eq_self]
      refine iff_of_true ⟨fun _ => rfl, fun h => absurd h (not_le.2 he)⟩ fun j b hj hb => ?_
      obtain rfl := Option.some.inj hj
      rw [hbase] at hb
      cases hb
    · rw [hseek]
      constructor
      · rintro ⟨herr, -⟩ j b' hj hb
        obtain rfl := Option.some.inj hj
        obtain rfl := Option.some.inj (hbase.symm.trans hb)
        refine (SeekFile.tells_iff _ _ _ _).2 ((le_or_gt 0 _).imp_right fun hneg => ?_)
        have hfile := congrFun (congrArg SeekState.file (herr hneg)) i
        exact congrArg SeekFile.pos ((Function.update_self i _ s.file).symm.trans hfile)
      · intro hall
        have htells := (SeekFile.tells_iff _ _ _ _).1 (hall i b rfl hbase)
        refine ⟨fun hneg => ?_, fun _ => ⟨i, rfl, ?_⟩⟩
        swap
        · exact congrArg SeekFile.pos (Function.update_self i _ s.file)
        have hsame := htells.resolve_left (not_le.2 hneg)
        rw [hsame, Function.update_eq_self]

/-- One file of ten bytes at its fifth, open at descriptor 3 of process 0. -/
def sample : SeekState where
  files := { FileSystemState.init with fds := fun sl => if sl = (0, 3) then some 0 else none }
  file := fun _ => ⟨5, none, some (0, 10)⟩
  fbHeight := 0
  fbPitchU32 := 0

/-- A seek to -1 from the start moves the file and returns an error. -/
theorem seek_before_start : (sample.sysSeek (some 0) 3 (-1) 0).2 = -1 ∧
    ((sample.sysSeek (some 0) 3 (-1) 0).1.file 0).pos = 0xffffffffffffffff ∧
    ¬ValueTells sample (sample.sysSeek (some 0) 3 (-1) 0).1 (sample.fileOf (some 0) 3)
      (sample.sysSeek (some 0) 3 (-1) 0).2 := by
  have hpos : ((sample.sysSeek (some 0) 3 (-1) 0).1.file 0).pos = 0xffffffffffffffff := rfl
  refine ⟨rfl, hpos, fun h => ?_⟩
  have hsame := h.1 (by decide)
  rw [hsame] at hpos
  exact absurd hpos (by decide)

end SeekState

end Jeos
