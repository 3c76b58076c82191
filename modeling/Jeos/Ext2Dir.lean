import Jeos.Ext2Access
import Jeos.Lib.Chain

/-!
# Going through a directory

`ext2_lookup` and `ext2_readdir` go through the same chain : from an entry at offset `o` of the
directory to the one at `o + rec_len`, while the offset is below the size, the block is allocated
and `rec_len` is at least 8. `nextEntry` is this chain with the entries where the reader stops :
`isEntry` for a lookup of a name, `isLive` for the next entry that is not deleted.

`lookupLoop_spec` and `readdirLoop_spec` say where on the chain a reader ends, what it returns
there and which accesses it makes.
-/

set_option linter.unusedSectionVars false

namespace Jeos.Ext2

open ByteMemory StateRun Chain

section Entries

variable (m : Machine) (p : Ext2Priv) (ei : Ext2Inode)

/-- The block of the directory with offset `o`. -/
def dirBlock (o : U32) : U32 := mapBlock m p ei (o.toNat / p.blockSize.toNat)

/-- The place of offset `o` in its block. -/
def inBlock (o : U32) : ℕ := o.toNat % p.blockSize.toNat

/-- The entry at offset `o`. -/
def dirEntry (o : U32) : Dirent :=
  loadDirent (blockMem m p (dirBlock m p ei o).toNat) (BitVec.ofNat 64 (inBlock p o))

/-- The name of the entry at offset `o`. -/
def dirName (o : U32) : List U8 :=
  bytesAt (blockMem m p (dirBlock m p ei o).toNat) (BitVec.ofNat 64 (inBlock p o) + 8)
    (dirEntry m p ei o).nameLen.toNat

/-- A reader that gets to `o` finds a header there. -/
def Here (o : U32) : Prop := o < ei.sizeLow ∧ dirBlock m p ei o ≠ 0

instance (o : U32) : Decidable (Here m p ei o) := inferInstanceAs (Decidable (_ ∧ _))

/-- A reader that gets to `o` finds an entry there. -/
def Entry (o : U32) : Prop := Here m p ei o ∧ 8 ≤ (dirEntry m p ei o).recLen

instance (o : U32) : Decidable (Entry m p ei o) := inferInstanceAs (Decidable (_ ∧ _))

/-- The offset after the entry at `o`. -/
def afterEntry (o : U32) : U32 := o + (dirEntry m p ei o).recLen.setWidth 32

/-- The next entry, unless the reader stops at `o`. -/
def nextEntry (stop : U32 → Bool) (o : U32) : Option U32 :=
  if Entry m p ei o ∧ stop o = false then some (afterEntry m p ei o) else none

/-- The entry is not deleted. -/
def isLive (o : U32) : Bool := (dirEntry m p ei o).inode ≠ 0

/-- The entry has the name. -/
def isEntry (name : List U8) (o : U32) : Bool :=
  isLive m p ei o && dirName m p ei o = name

/-- What `ext2_readdir` returns for the entry at `o`. -/
def direntOf (o : U32) : VfsDirent :=
  ⟨(dirEntry m p ei o).inode.setWidth 64, BitVec.ofNat 16 (CType.struct vfsDirent).size,
    (dirEntry m p ei o).fileType, dirName m p ei o ++ [0]⟩

/-- The header at `o` is in its block. -/
def HeadIn (o : U32) : Prop := inBlock p o + 8 ≤ p.blockSize.toNat

/-- The name of the entry at `o` is in its block. -/
def NameIn (o : U32) : Prop :=
  inBlock p o + 8 + (dirEntry m p ei o).nameLen.toNat ≤ p.blockSize.toNat

/-- The index into the table of group descriptors for an inode. -/
def inodeGroup (ino : U32) : U32 := (ino - 1) / p.inodesPerGroup

/-- The place of an inode in its block. -/
def inodeOff (ino : U32) : U32 := (ino - 1) % p.inodesPerGroup * p.inodeSize % p.blockSize

/-- The group descriptor of an inode is in the table and the inode in its block. -/
def InodeIn (ino : U32) : Prop :=
  (inodeGroup p ino).toNat < p.numGroups.toNat ∧
    (inodeOff p ino).toNat + packedSize inode ≤ p.blockSize.toNat

end Entries

section Rounds

variable {m : Machine} {p : Ext2Priv} {ei : Ext2Inode} {s t : Io} {o o' : U32} {buf : Mem}
  {stop : U32 → Bool} {name : List U8}

theorem nextEntry_eq_some (h : nextEntry m p ei stop o = some o') :
    Entry m p ei o ∧ stop o = false ∧ o' = afterEntry m p ei o := by
  rw [nextEntry] at h
  split_ifs at h with hc
  exact ⟨hc.1, hc.2, (Option.some.inj h).symm⟩

theorem nextEntry_of (h : Entry m p ei o) (hs : stop o = false) :
    nextEntry m p ei stop o = some (afterEntry m p ei o) := if_pos ⟨h, hs⟩

theorem nextEntry_eq_none : nextEntry m p ei stop o = none ↔ (Entry m p ei o → stop o = true) := by
  refine ⟨fun hn he => ?_, fun h => if_neg fun ⟨he, hs⟩ => ?_⟩
  · by_contra hs
    rw [nextEntry_of he (Bool.eq_false_iff.2 hs)] at hn
    exact nomatch hn
  · exact absurd (h he) (by rw [hs]; exact Bool.false_ne_true)

/-- A reader that stops more often goes the same way. -/
theorem nextEntry_mono {stop' : U32 → Bool} (h : ∀ o, stop' o = false → stop o = false) (a b : U32)
    (hab : nextEntry m p ei stop' a = some b) : nextEntry m p ei stop a = some b := by
  obtain ⟨he, hs, rfl⟩ := nextEntry_eq_some hab
  exact nextEntry_of he (h a hs)

/-- A way through a directory that ends has fewer steps than a loop has rounds. -/
theorem lt_loopFuel {n : ℕ} (h : Ends (nextEntry m p ei stop) n o) : n < loopFuel := by
  have hlt := h.lt (f := fun a : U32 => a.toFin) fun _ _ hab => BitVec.eq_of_toFin_eq hab
  exact hlt.trans (by rw [loopFuel]; norm_num)

/-! ### One entry -/

/-- The buffer holds the block that it is said to hold. -/
def CurOk (m : Machine) (p : Ext2Priv) (ei : Ext2Inode) (curBlk : U32) (buf : Mem) : Prop :=
  curBlk.toNat < maxBlocks p → Cached m p ei curBlk.toNat buf

/-- The buffer is empty before the first block is read. -/
theorem CurOk.start (hg : Geometry m p) (buf : Mem) : CurOk m p ei (-1) buf := fun h => by
  have hmax := maxBlocks_lt hg.size
  rw [show (-1 : U32).toNat = 2 ^ 32 - 1 from rfl] at h
  omega

/-- Every offset of a directory is in a block of the tree. -/
theorem offset_lt (hg : Geometry m p) (o : U32) : o.toNat / p.blockSize.toNat < maxBlocks p := by
  have hb := hg.bounds
  have hq : 256 ^ 3 ≤ numPtrs p ^ 3 := Nat.pow_le_pow_left (by omega) 3
  have ho := o.isLt
  refine lt_of_le_of_lt (Nat.div_le_div_left hb.1 (by norm_num)) ?_
  rw [maxBlocks]
  omega

theorem blockSize_ne_zero (hg : Geometry m p) : p.blockSize ≠ 0 := by
  rcases hg.size with h | h | h <;> rw [h] <;> decide

theorem toNat_offset_div (o : U32) :
    (o / p.blockSize).toNat = o.toNat / p.blockSize.toNat := BitVec.toNat_udiv

theorem toNat_offset_mod (o : U32) : ((o % p.blockSize).setWidth 64 : U64) =
    BitVec.ofNat 64 (inBlock p o) := by
  have h : (o % p.blockSize).toNat = inBlock p o := BitVec.toNat_umod
  rw [← h, BitVec.ofNat_toNat]

theorem inBlock_lt (hg : Geometry m p) (o : U32) : inBlock p o < p.blockSize.toNat :=
  Nat.mod_lt _ (by have := hg.bounds; omega)

theorem toNat_inBlock (hg : Geometry m p) (o : U32) :
    (BitVec.ofNat 64 (inBlock p o)).toNat = inBlock p o := by
  have hlt := inBlock_lt hg o
  have hb := hg.bounds
  rw [BitVec.toNat_ofNat, Nat.mod_eq_of_lt (by omega)]

/-- Getting the block of offset `o`. -/
theorem fetch_spec (hg : Geometry m p) (hok : ∀ k, m.status k = 0) {curBlk : U32}
    (hcur : CurOk m p ei curBlk buf) (o : U32) (s : Io) :
    ∃ r t, cacheBlock m p ei (o / p.blockSize) curBlk buf s = some (r, t) ∧
      (AllIn p s → AllIn p t) ∧
      (r = none ∧ (dirBlock m p ei o = 0 ∨ ∃ k, m.alloc k 1 = false) ∨
        ∃ buf', r = some buf' ∧ dirBlock m p ei o ≠ 0 ∧
          Holds m p (dirBlock m p ei o).toNat buf' ∧ CurOk m p ei (o / p.blockSize) buf') := by
  have hlt : (o / p.blockSize).toNat < maxBlocks p := toNat_offset_div o ▸ offset_lt hg o
  obtain ⟨r, t, hrun, hcase⟩ := cacheBlock_spec hg hok ei buf hlt (fun h => h ▸ hcur (h ▸ hlt)) s
  refine ⟨r, t, hrun, fun hs => ?_, ?_⟩
  · refine cacheBlock_keeps (P := fun l => ∀ a ∈ l, InBlocks p a) hg.size ei curBlk buf
      (fun k hk l hl => List.forall_mem_cons.2 ⟨?_, hl⟩) s r t hs hrun
    exact hk.resolve_right fun h => absurd h.1 (Nat.not_le.2 hlt)
  · rw [toNat_offset_div] at hcase
    rcases hcase with h | ⟨buf', rfl, hc⟩
    · exact Or.inl h
    · exact Or.inr ⟨buf', rfl, hc.mapped, hc.holds, fun _ => toNat_offset_div o ▸ hc⟩

/-- Two memories that agree on the header have the same entry there. -/
theorem loadDirent_congr {buf' : Mem} {a : U64} (h : ∀ x, Within x a 8 → buf x = buf' x) :
    loadDirent buf a = loadDirent buf' a := by
  have h8 : 8 ≤ 2 ^ 64 := by norm_num
  have hino : load32 buf (packedAddr dirent a 0) = load32 buf' (packedAddr dirent a 0) :=
    load32_congr fun x hx => h x (hx.of_add (show 0 + 4 ≤ 8 by omega) h8)
  have hrec : load16 buf (packedAddr dirent a 1) = load16 buf' (packedAddr dirent a 1) :=
    load16_congr fun x hx => h x (hx.of_add (show 4 + 2 ≤ 8 by omega) h8)
  have hlen : buf (packedAddr dirent a 2) = buf' (packedAddr dirent a 2) :=
    h _ (within_add a (show 6 < 8 by omega) h8)
  have htype : buf (packedAddr dirent a 3) = buf' (packedAddr dirent a 3) :=
    h _ (within_add a (show 7 < 8 by omega) h8)
  rw [loadDirent, loadDirent, hino, hrec, hlen, htype]

/-- The header in a buffer that holds the block. -/
theorem loadDirent_eq (hg : Geometry m p) (hh : Holds m p (dirBlock m p ei o).toNat buf)
    (hin : HeadIn p o) : loadDirent buf (BitVec.ofNat 64 (inBlock p o)) = dirEntry m p ei o := by
  have hb := hg.bounds
  have hi := toNat_inBlock hg o
  refine loadDirent_congr fun x hx => hh x ?_
  rw [HeadIn] at hin
  rw [within_iff (by omega), hi] at hx
  omega

/-- Byte `j` of the name, with the place where it is. -/
theorem name_byte (hg : Geometry m p) (hh : Holds m p (dirBlock m p ei o).toNat buf)
    (hin : NameIn m p ei o) {j : ℕ} (hj : j < (dirEntry m p ei o).nameLen.toNat) :
    (BitVec.ofNat 64 (inBlock p o) + 8 + BitVec.ofNat 64 j).toNat = inBlock p o + 8 + j ∧
      buf (BitVec.ofNat 64 (inBlock p o) + 8 + BitVec.ofNat 64 j) =
        blockMem m p (dirBlock m p ei o).toNat
          (BitVec.ofNat 64 (inBlock p o) + 8 + BitVec.ofNat 64 j) := by
  have hb := hg.bounds
  have hi := toNat_inBlock hg o
  rw [NameIn] at hin
  have hx : (BitVec.ofNat 64 (inBlock p o) + 8 + BitVec.ofNat 64 j).toNat = inBlock p o + 8 + j := by
    rw [show (8 : U64) = BitVec.ofNat 64 8 from rfl, ← BitVec.ofNat_add, ← BitVec.ofNat_add,
      BitVec.toNat_ofNat, Nat.mod_eq_of_lt (by omega)]
  exact ⟨hx, hh _ (by omega)⟩

theorem bytesAt_eq (hg : Geometry m p) (hh : Holds m p (dirBlock m p ei o).toNat buf)
    (hin : NameIn m p ei o) : bytesAt buf (BitVec.ofNat 64 (inBlock p o) + 8)
      (dirEntry m p ei o).nameLen.toNat = dirName m p ei o :=
  List.map_congr_left fun _ hj => (name_byte hg hh hin (List.mem_range.1 hj)).2

/-- The loop that compares a name of the same length. -/
theorem matchName_spec (p : Ext2Priv) (buf : Mem) (name : List U8) (a : U64) (nameLen : U8)
    (n : ℕ) : ∀ (i : U8) (s : Io),
    nameLen.toNat - i.toNat < n → i ≤ nameLen →
    ∃ b t, matchName buf a nameLen name n i s = some (b, t) ∧
      (b = true ↔ ∀ j, i.toNat ≤ j → j < nameLen.toNat →
        buf (a + BitVec.ofNat 64 j) = name.getD j 0) ∧
      ((∀ j < nameLen.toNat, InBlocks p (.block ⟨a + BitVec.ofNat 64 j, 1⟩)) →
        AllIn p s → AllIn p t) := by
  induction n with
  | zero => exact fun _ _ h => absurd h (Nat.not_lt_zero _)
  | succ n ih =>
    intro i s hn hle
    rw [matchName]
    by_cases hlt : i < nameLen
    swap
    · rw [if_neg hlt]
      have hle' := BitVec.le_def.1 (BitVec.not_lt.1 hlt)
      exact ⟨true, s, rfl, iff_of_true rfl fun j hj hj' => by omega, fun _ h => h⟩
    have hlt' := BitVec.lt_def.1 hlt
    have hi : a + i.setWidth 64 = a + BitVec.ofNat 64 i.toNat := by rw [BitVec.ofNat_toNat]
    rw [if_pos hlt, bind_of (rfl : access _ _ = _), hi]
    by_cases hne : buf (a + BitVec.ofNat 64 i.toNat) ≠ name.getD i.toNat 0
    · rw [if_pos hne]
      refine ⟨false, _, rfl, iff_of_false Bool.false_ne_true fun h => hne (h _ le_rfl hlt'), ?_⟩
      exact fun hin hs => List.forall_mem_cons.2 ⟨hin _ hlt', hs⟩
    · rw [if_neg hne]
      have hsucc : (i + 1).toNat = i.toNat + 1 := by
        have hm := nameLen.isLt
        rw [BitVec.toNat_add, show (1 : U8).toNat = 1 from rfl, Nat.mod_eq_of_lt (by omega)]
      obtain ⟨b, t, hrun, hb, hin⟩ := ih (i + 1) _ (by omega) (BitVec.le_def.2 (by omega))
      refine ⟨b, t, hrun, hb.trans ⟨fun h j hj hj' => ?_, fun h j hj hj' => h j (by omega) hj'⟩,
        fun h hs => hin h (List.forall_mem_cons.2 ⟨h _ hlt', hs⟩)⟩
      rcases Nat.lt_or_eq_of_le hj with hj | rfl
      · exact h j (by omega) hj'
      · exact not_ne_iff.1 hne

end Rounds

/-! ## Looking up a name -/

section Lookup

variable {m : Machine} {p : Ext2Priv} {ei : Ext2Inode} {s t : Io} {o : U32} {buf : Mem}
  {name : List U8}

/-- Whether `ext2_lookup` has found its entry. -/
def nameMatches (buf : Mem) (a : U64) (de : Dirent) (name : List U8) : Ext2M Bool :=
  if de.inode ≠ 0 ∧ de.nameLen.toNat = name.length then
    matchName buf (a + 8) de.nameLen name 256 0
  else pure false

/-- What `ext2_lookup` does with the entry it has found. -/
def foundEntry (m : Machine) (p : Ext2Priv) (ino : U32) : Ext2M (I32 × Option VfsInode) := do
  match ← ext2ReadInode m p ino with
  | .error _ => pure (-1, none)
  | .ok ei =>
    match ← ext2MakeVfsInode m ino ei with
    | none => pure (enomem, none)
    | some vino => pure (0, some vino)

/-- One round of `ext2_lookup`. -/
theorem lookupLoop_round (hg : Geometry m p) (hlt : o < ei.sizeLow) (n : ℕ) (curBlk : U32)
    (buf : Mem) : lookupLoop m p ei name (n + 1) curBlk o buf =
      cacheBlock m p ei (o / p.blockSize) curBlk buf >>= fun r =>
      match r with
      | none => pure (enoent, none)
      | some buf => access (.block ⟨BitVec.ofNat 64 (inBlock p o), 8⟩) >>= fun _ =>
        if (loadDirent buf (BitVec.ofNat 64 (inBlock p o))).recLen < 8 then pure (enoent, none)
        else
          nameMatches buf (BitVec.ofNat 64 (inBlock p o))
            (loadDirent buf (BitVec.ofNat 64 (inBlock p o))) name >>= fun found =>
          if found then foundEntry m p (loadDirent buf (BitVec.ofNat 64 (inBlock p o))).inode
          else lookupLoop m p ei name n (o / p.blockSize)
            (o + (loadDirent buf (BitVec.ofNat 64 (inBlock p o))).recLen.setWidth 32) buf := by
  have hne := blockSize_ne_zero hg
  rw [lookupLoop, if_pos hlt, div_of_ne hne, mod_of_ne hne, pure_bind, pure_bind]
  simp only [toNat_offset_mod, nameMatches]
  refine congrArg _ (funext fun r => ?_)
  cases r with
  | none => rfl
  | some buf =>
    dsimp only
    refine congrArg _ (funext fun _ => ?_)
    split_ifs <;> rfl

theorem toNat_dirName_length : (dirName m p ei o).length = (dirEntry m p ei o).nameLen.toNat := by
  rw [dirName, bytesAt, List.length_map, List.length_range]

theorem bytesAt_eq_iff {a : U64} {n : ℕ} (hn : n = name.length) :
    bytesAt buf a n = name ↔ ∀ j < n, buf (a + BitVec.ofNat 64 j) = name.getD j 0 := by
  constructor
  · intro h j hj
    rw [← h, bytesAt, List.getD_eq_getElem _ _ (by simpa using hj), List.getElem_map,
      List.getElem_range]
  · intro h
    refine List.ext_getElem (by simpa [bytesAt] using hn) fun j hj hj' => ?_
    rw [← List.getD_eq_getElem _ 0 hj', ← h j (hn ▸ hj')]
    simp only [bytesAt, List.getElem_map, List.getElem_range]

/-- The name is compared in its block. -/
theorem nameMatches_spec (name : List U8) (hg : Geometry m p) (hh : Holds m p (dirBlock m p ei o).toNat buf)
    (hname : isLive m p ei o = true → NameIn m p ei o) (s : Io) :
    ∃ b t, nameMatches buf (BitVec.ofNat 64 (inBlock p o)) (dirEntry m p ei o) name s =
      some (b, t) ∧ b = isEntry m p ei name o ∧ (AllIn p s → AllIn p t) := by
  rw [nameMatches]
  by_cases hc : (dirEntry m p ei o).inode ≠ 0 ∧ (dirEntry m p ei o).nameLen.toNat = name.length
  swap
  · rw [if_neg hc]
    refine ⟨false, s, rfl, (Bool.eq_false_iff.2 fun he => hc ?_).symm, fun h => h⟩
    obtain ⟨hl, he⟩ := Bool.and_eq_true_iff.1 he
    rw [← toNat_dirName_length, of_decide_eq_true he]
    exact ⟨of_decide_eq_true hl, rfl⟩
  rw [if_pos hc]
  have hlive : isLive m p ei o = true := decide_eq_true hc.1
  have hin := hname hlive
  obtain ⟨b, t, hrun, hb, hacc⟩ := matchName_spec p buf name
    (BitVec.ofNat 64 (inBlock p o) + 8) (dirEntry m p ei o).nameLen 256 0 s
    (by have := (dirEntry m p ei o).nameLen.isLt; omega) (BitVec.le_def.2 (Nat.zero_le _))
  have hbyte : ∀ j < (dirEntry m p ei o).nameLen.toNat, _ := fun j hj => name_byte hg hh hin hj
  refine ⟨b, t, hrun, ?_, hacc fun j hj => ?_⟩
  · rw [isEntry, hlive, Bool.true_and, Bool.eq_iff_iff, hb, decide_eq_true_iff, dirName,
      bytesAt_eq_iff hc.2]
    exact ⟨fun h j hj => (hbyte j hj).2 ▸ h j (Nat.zero_le j) hj,
      fun h j _ hj => (hbyte j hj).2.symm ▸ h j hj⟩
  · rw [NameIn] at hin
    change (BitVec.ofNat 64 (inBlock p o) + 8 + BitVec.ofNat 64 j).toNat + 1 ≤ p.blockSize.toNat
    rw [(hbyte j hj).1]
    omega

/-- What is recorded for an inode that is read. -/
def InodeRead (p : Ext2Priv) (ino : U32) (t : Io) : Prop :=
  Access.bgdt (inodeGroup p ino) ∈ t.accesses ∧
    Access.block ⟨(inodeOff p ino).setWidth 64, packedSize inode⟩ ∈ t.accesses

/-- `ext2_read_inode` reads the inode, unless there is no buffer. -/
theorem readInode_spec (hg : Geometry m p) (hok : ∀ k, m.status k = 0)
    (hipg : p.inodesPerGroup ≠ 0) {ino : U32} (hino : ino ≠ 0) (s : Io) :
    ∃ r t, ext2ReadInode m p ino s = some (r, t) ∧ (InodeIn p ino → AllIn p s → AllIn p t) ∧
      ((∃ k n, m.alloc k n = false) ∧ r = .error (-1) ∨
        ∃ ei, r = .ok ei ∧ InodeRead p ino t) := by
  have hne := blockSize_ne_zero hg
  rw [ext2ReadInode, if_neg hino, div_of_ne hipg, mod_of_ne hipg]
  simp only [pure_bind, div_of_ne hne, mod_of_ne hne]
  rw [bind_of (rfl : access _ _ = _)]
  have hgrp : InodeIn p ino → AllIn p s →
      AllIn p { s with accesses := .bgdt (inodeGroup p ino) :: s.accesses } := fun h hs =>
    List.forall_mem_cons.2 ⟨h.1, hs⟩
  rcases Bool.eq_false_or_eq_true (m.alloc s.allocs 1) with hk | hk
  · obtain ⟨b, hb⟩ : ∃ b, kalloc m 1
        { s with accesses := Access.bgdt (inodeGroup p ino) :: s.accesses } = some (some b,
          { s with allocs := s.allocs + 1,
                   accesses := Access.bgdt (inodeGroup p ino) :: s.accesses }) := by
      rw [kalloc_apply, if_pos hk]
      exact ⟨_, rfl⟩
    obtain ⟨buf', hread, -⟩ := readBlock_eq hg
      (inodeTable p (inodeGroup p ino) + (ino - 1) % p.inodesPerGroup * p.inodeSize / p.blockSize) b
      { s with allocs := s.allocs + 1,
               accesses := Access.bgdt (inodeGroup p ino) :: s.accesses }
    rw [inodeGroup] at hb hread
    rw [bind_of hb]
    dsimp only
    rw [bind_of hread]
    dsimp only
    rw [if_pos (hok _)]
    refine ⟨_, _, rfl, fun h hs => List.forall_mem_cons.2 ⟨?_, hgrp h hs⟩,
      Or.inr ⟨_, rfl, List.mem_cons_of_mem _ List.mem_cons_self, List.mem_cons_self⟩⟩
    have hlt := (inodeOff p ino).isLt
    change ((inodeOff p ino).setWidth 64 : U64).toNat + packedSize inode ≤ p.blockSize.toNat
    rw [BitVec.toNat_setWidth, Nat.mod_eq_of_lt (by omega)]
    exact h.2
  · have hb : kalloc m 1 { s with accesses := Access.bgdt (inodeGroup p ino) :: s.accesses } =
        some (none, { s with allocs := s.allocs + 1,
                             accesses := Access.bgdt (inodeGroup p ino) :: s.accesses }) := by
      rw [kalloc_apply, if_neg (by rw [hk]; exact Bool.false_ne_true)]
    rw [inodeGroup] at hb
    rw [bind_of hb]
    exact ⟨_, _, rfl, hgrp, Or.inl ⟨⟨_, _, hk⟩, rfl⟩⟩

theorem makeVfsInode_spec (ino : U32) (ei : Ext2Inode) (s : Io) :
    ∃ r t, ext2MakeVfsInode m ino ei s = some (r, t) ∧ t.accesses = s.accesses ∧
      ((∃ k n, m.alloc k n = false) ∧ r = none ∨
        ∃ vino, r = some vino ∧ vino.ino = ino.setWidth 64) := by
  rw [ext2MakeVfsInode]
  rcases Bool.eq_false_or_eq_true (m.alloc s.allocs 1) with hk | hk
  swap
  · have hb := kalloc_apply m 1 s
    rw [if_neg (by rw [hk]; exact Bool.false_ne_true)] at hb
    rw [bind_of hb]
    exact ⟨_, _, rfl, rfl, Or.inl ⟨⟨_, _, hk⟩, rfl⟩⟩
  have hb := kalloc_apply m 1 s
  rw [if_pos hk] at hb
  rw [bind_of hb]
  dsimp only
  rcases Bool.eq_false_or_eq_true (m.alloc (s.allocs + 1) 1) with hk' | hk'
  · have hb' := kalloc_apply m 1 { s with allocs := s.allocs + 1 }
    rw [if_pos hk'] at hb'
    rw [bind_of hb']
    exact ⟨_, _, rfl, rfl, Or.inr ⟨_, rfl, rfl⟩⟩
  · have hb' := kalloc_apply m 1 { s with allocs := s.allocs + 1 }
    rw [if_neg (by rw [hk']; exact Bool.false_ne_true)] at hb'
    rw [bind_of hb']
    exact ⟨_, _, rfl, rfl, Or.inl ⟨⟨_, _, hk'⟩, rfl⟩⟩

/-- The entry that is found gives its inode, unless there is no buffer. -/
theorem foundEntry_spec (hg : Geometry m p) (hok : ∀ k, m.status k = 0)
    (hipg : p.inodesPerGroup ≠ 0) {ino : U32} (hino : ino ≠ 0) (s : Io) :
    ∃ r t, foundEntry m p ino s = some (r, t) ∧ (InodeIn p ino → AllIn p s → AllIn p t) ∧
      ((∃ k n, m.alloc k n = false) ∨
        ∃ vino, r = (0, some vino) ∧ vino.ino = ino.setWidth 64 ∧ InodeRead p ino t) := by
  obtain ⟨r, t, hrun, hacc, hcase⟩ := readInode_spec hg hok hipg hino s
  rw [foundEntry, bind_of hrun]
  rcases hcase with ⟨hk, rfl⟩ | ⟨ei, rfl, hread⟩
  · exact ⟨_, t, rfl, hacc, Or.inl hk⟩
  obtain ⟨r, u, hrun', hsame, hcase⟩ := makeVfsInode_spec (m := m) ino ei t
  have hacc' : InodeIn p ino → AllIn p s → AllIn p u := fun h hs => by
    have ht := hacc h hs
    rwa [AllIn, ← hsame] at ht
  dsimp only
  rw [bind_of hrun']
  rcases hcase with ⟨hk, rfl⟩ | ⟨vino, rfl, hv⟩
  · exact ⟨_, u, rfl, hacc', Or.inl hk⟩
  · rw [InodeRead, ← hsame] at hread
    exact ⟨_, u, rfl, hacc', Or.inr ⟨vino, rfl, hv, hread⟩⟩

/-- The access to a header is in bounds just when the header is in its block. -/
theorem header_in (hg : Geometry m p) :
    InBlocks p (.block ⟨BitVec.ofNat 64 (inBlock p o), 8⟩) ↔ HeadIn p o := by
  change (BitVec.ofNat 64 (inBlock p o)).toNat + 8 ≤ p.blockSize.toNat ↔ _
  rw [toNat_inBlock hg, HeadIn]

/-- One round : the lookup ends without an entry, it has found its entry, or it goes on. -/
theorem lookupRound (name : List U8) (hg : Geometry m p) (hok : ∀ k, m.status k = 0)
    (hhead : Here m p ei o → HeadIn p o)
    (hname : Entry m p ei o → isLive m p ei o = true → NameIn m p ei o) {curBlk : U32}
    (hcur : CurOk m p ei curBlk buf) (n : ℕ) (s : Io) : ∃ u, (AllIn p s → AllIn p u) ∧
      ((∃ c, lookupLoop m p ei name (n + 1) curBlk o buf s = some ((c, none), u) ∧
          ((∃ k n, m.alloc k n = false) ∨ ¬Entry m p ei o ∧ c = enoent)) ∨
        (Entry m p ei o ∧ isEntry m p ei name o = true ∧
          lookupLoop m p ei name (n + 1) curBlk o buf s =
            foundEntry m p (dirEntry m p ei o).inode u) ∨
        Entry m p ei o ∧ isEntry m p ei name o = false ∧ ∃ buf',
          CurOk m p ei (o / p.blockSize) buf' ∧
          lookupLoop m p ei name (n + 1) curBlk o buf s =
            lookupLoop m p ei name n (o / p.blockSize) (afterEntry m p ei o) buf' u) := by
  by_cases hlt : o < ei.sizeLow
  swap
  · rw [lookupLoop, if_neg hlt]
    exact ⟨s, fun h => h, Or.inl ⟨enoent, rfl, Or.inr ⟨fun h => hlt h.1.1, rfl⟩⟩⟩
  rw [lookupLoop_round hg hlt]
  obtain ⟨r, t, hrun, hacc, hcase⟩ := fetch_spec hg hok hcur o s
  rw [bind_of hrun]
  rcases hcase with ⟨rfl, hwhy⟩ | ⟨buf', rfl, h0, hh, hcur'⟩
  · refine ⟨t, hacc, Or.inl ⟨enoent, rfl, hwhy.symm.imp (fun ⟨k, hk⟩ => ⟨k, 1, hk⟩) fun h => ?_⟩⟩
    exact ⟨fun he => he.1.2 h, rfl⟩
  have hin := hhead ⟨hlt, h0⟩
  have hacc' : AllIn p s → AllIn p
      { t with accesses := .block ⟨BitVec.ofNat 64 (inBlock p o), 8⟩ :: t.accesses } := fun hs =>
    List.forall_mem_cons.2 ⟨(header_in hg).2 hin, hacc hs⟩
  dsimp only
  rw [bind_of (rfl : access _ _ = _), loadDirent_eq hg hh hin]
  by_cases hrec : (dirEntry m p ei o).recLen < 8
  · rw [if_pos hrec]
    refine ⟨_, hacc', Or.inl ⟨enoent, rfl, Or.inr ⟨fun he => ?_, rfl⟩⟩⟩
    exact BitVec.not_lt.2 he.2 hrec
  have he : Entry m p ei o := ⟨⟨hlt, h0⟩, BitVec.not_lt.1 hrec⟩
  obtain ⟨b, u, hmatch, hb, hacc''⟩ := nameMatches_spec name hg hh (hname he)
    { t with accesses := .block ⟨BitVec.ofNat 64 (inBlock p o), 8⟩ :: t.accesses }
  rw [if_neg hrec, bind_of hmatch]
  refine ⟨u, fun hs => hacc'' (hacc' hs), Or.inr ?_⟩
  rcases Bool.eq_false_or_eq_true (isEntry m p ei name o) with hs | hs
  · rw [hb, if_pos hs]
    exact Or.inl ⟨he, hs, rfl⟩
  · rw [hb, if_neg (by rw [hs]; exact Bool.false_ne_true)]
    exact Or.inr ⟨he, hs, buf', hcur', rfl⟩

/-- The headers and names a reader meets are in their blocks. -/
structure NamesIn (m : Machine) (p : Ext2Priv) (ei : Ext2Inode) (stop : U32 → Bool) (o : U32) :
    Prop where
  head : ∀ o', Visits (nextEntry m p ei stop) o o' → Here m p ei o' → HeadIn p o'
  name : ∀ o', Visits (nextEntry m p ei stop) o o' → Entry m p ei o' →
    isLive m p ei o' = true → NameIn m p ei o'

theorem NamesIn.next {stop : U32 → Bool} {o' : U32} (h : NamesIn m p ei stop o)
    (hn : nextEntry m p ei stop o = some o') : NamesIn m p ei stop o' :=
  ⟨fun e he => h.head e (.head hn he), fun e he => h.name e (.head hn he)⟩

/-- The inodes of the entries with the name are found in the tables. -/
def InodesIn (m : Machine) (p : Ext2Priv) (ei : Ext2Inode) (name : List U8) (o : U32) : Prop :=
  ∀ e, Visits (nextEntry m p ei (isEntry m p ei name)) o e → Entry m p ei e →
    isEntry m p ei name e = true → InodeIn p (dirEntry m p ei e).inode

theorem isLive_of_isEntry (h : isEntry m p ei name o = true) : isLive m p ei o = true :=
  (Bool.and_eq_true_iff.1 h).1

theorem inode_ne_of_isLive (h : isLive m p ei o = true) : (dirEntry m p ei o).inode ≠ 0 :=
  of_decide_eq_true h

/-- What the lookup returns at the end of its way. -/
def LookupEnd (m : Machine) (p : Ext2Priv) (ei : Ext2Inode) (name : List U8) (e : U32)
    (r : I32 × Option VfsInode) (t : Io) : Prop :=
  Entry m p ei e ∧ isEntry m p ei name e = true ∧
    (∃ vino, r = (0, some vino) ∧ vino.ino = (dirEntry m p ei e).inode.setWidth 64 ∧
      InodeRead p (dirEntry m p ei e).inode t) ∨
  ¬Entry m p ei e ∧ r = (enoent, none)

/-- The lookup follows the way to the first entry with the name, or to the end. -/
theorem lookupLoop_spec (hg : Geometry m p) (hok : ∀ k, m.status k = 0)
    (hipg : p.inodesPerGroup ≠ 0) {k : ℕ}
    (hends : Ends (nextEntry m p ei (isEntry m p ei name)) k o) : ∀ {fuel}, k < fuel →
    NamesIn m p ei (isEntry m p ei name) o → ∀ {curBlk buf}, CurOk m p ei curBlk buf → ∀ s,
    ∃ r t, lookupLoop m p ei name fuel curBlk o buf s = some (r, t) ∧
      (InodesIn m p ei name o → AllIn p s → AllIn p t) ∧
      ((∃ k n, m.alloc k n = false) ∨
        ∃ e, Visits (nextEntry m p ei (isEntry m p ei name)) o e ∧
          LookupEnd m p ei name e r t) := by
  induction hends with
  | @stop o hnone =>
    intro fuel hfuel hnames curBlk buf hcur s
    obtain ⟨n, rfl⟩ := Nat.exists_eq_add_of_lt hfuel
    rw [Nat.zero_add]
    obtain ⟨u, hacc, hcase⟩ := lookupRound name hg hok (hnames.head o .refl)
      (hnames.name o .refl) hcur n s
    rcases hcase with ⟨c, hrun, hwhy⟩ | ⟨he, hs, hrun⟩ | ⟨he, hs, -⟩
    · refine ⟨_, u, hrun, fun _ => hacc, hwhy.imp_right fun ⟨hne, hc⟩ => ⟨o, .refl, ?_⟩⟩
      exact Or.inr ⟨hne, by rw [hc]⟩
    · have hino := inode_ne_of_isLive (isLive_of_isEntry hs)
      obtain ⟨r, t, hfound, hacc', hcase⟩ := foundEntry_spec hg hok hipg hino u
      refine ⟨r, t, hrun.trans hfound, fun hi hs' => hacc' (hi o .refl he hs) (hacc hs'),
        hcase.imp_right fun h => ⟨o, .refl, Or.inl ⟨he, hs, h⟩⟩⟩
    · exact absurd (nextEntry_eq_none.1 hnone he) (by rw [hs]; exact Bool.false_ne_true)
  | @step k o b hnext hends ih =>
    intro fuel hfuel hnames curBlk buf hcur s
    obtain ⟨n, rfl⟩ := Nat.exists_eq_add_of_lt hfuel
    obtain ⟨he, hs, rfl⟩ := nextEntry_eq_some hnext
    obtain ⟨u, hacc, hcase⟩ := lookupRound name hg hok (hnames.head o .refl)
      (hnames.name o .refl) hcur (k + 1 + n) s
    rcases hcase with ⟨c, hrun, hwhy⟩ | ⟨-, hs', -⟩ | ⟨-, -, buf', hcur', hrun⟩
    · exact ⟨_, u, hrun, fun _ => hacc, hwhy.imp_right fun h => absurd he h.1⟩
    · exact absurd hs' (by rw [hs]; exact Bool.false_ne_true)
    · obtain ⟨r, t, hrest, hacc', hcase⟩ := ih (show k < k + 1 + n by omega)
        (hnames.next hnext) hcur' u
      refine ⟨r, t, hrun.trans hrest, fun hi hs' => hacc' (fun e hv => hi e (.head hnext hv))
        (hacc hs'), hcase.imp_right fun ⟨e, hv, h⟩ => ⟨e, .head hnext hv, h⟩⟩

theorem ext2Lookup_spec (hg : Geometry m p) (hok : ∀ k, m.status k = 0)
    (hipg : p.inodesPerGroup ≠ 0) {k : ℕ}
    (hends : Ends (nextEntry m p ei (isEntry m p ei name)) k 0)
    (hnames : NamesIn m p ei (isEntry m p ei name) 0) (s : Io) :
    ∃ r t, ext2Lookup m p ei name s = some (r, t) ∧
      (InodesIn m p ei name 0 → AllIn p s → AllIn p t) ∧
      ((∃ k n, m.alloc k n = false) ∨
        ∃ e, Visits (nextEntry m p ei (isEntry m p ei name)) 0 e ∧
          LookupEnd m p ei name e r t) := by
  rw [ext2Lookup]
  rcases Bool.eq_false_or_eq_true (m.alloc s.allocs 1) with hk | hk
  · have hb := kalloc_apply m 1 s
    rw [if_pos hk] at hb
    rw [bind_of hb]
    exact lookupLoop_spec hg hok hipg hends (lt_loopFuel hends) hnames (.start hg _)
      { s with allocs := s.allocs + 1 }
  · have hb := kalloc_apply m 1 s
    rw [if_neg (by rw [hk]; exact Bool.false_ne_true)] at hb
    rw [bind_of hb]
    exact ⟨_, _, rfl, fun _ h => h, Or.inl ⟨_, _, hk⟩⟩

end Lookup

/-! ## Listing the entries -/

section Readdir

variable {m : Machine} {p : Ext2Priv} {ei : Ext2Inode} {s t : Io} {o : U32} {buf : Mem}

/-- One round of `ext2_readdir`. -/
theorem readdirLoop_round (hg : Geometry m p) (hlt : o < ei.sizeLow) (n : ℕ) (curBlk : U32)
    (buf : Mem) : readdirLoop m p ei (n + 1) curBlk o buf =
      cacheBlock m p ei (o / p.blockSize) curBlk buf >>= fun r =>
      match r with
      | none => pure none
      | some buf => access (.block ⟨BitVec.ofNat 64 (inBlock p o), 8⟩) >>= fun _ =>
        let de := loadDirent buf (BitVec.ofNat 64 (inBlock p o))
        if de.recLen < 8 then pure none
        else if de.inode = 0 then
          readdirLoop m p ei n (o / p.blockSize) (o + de.recLen.setWidth 32) buf
        else
          access (.block ⟨BitVec.ofNat 64 (inBlock p o) + 8, de.nameLen.toNat⟩) >>= fun _ =>
          pure (some (⟨de.inode.setWidth 64, BitVec.ofNat 16 (CType.struct vfsDirent).size,
            de.fileType, bytesAt buf (BitVec.ofNat 64 (inBlock p o) + 8) de.nameLen.toNat ++ [0]⟩,
            o + de.recLen.setWidth 32)) := by
  have hne := blockSize_ne_zero hg
  have hlen : ∀ l : U8, (if l < 255 then l else 255) = l := fun l => by
    split_ifs with h
    · rfl
    · refine BitVec.eq_of_toNat_eq ?_
      have h := BitVec.le_def.1 (BitVec.not_lt.1 h)
      have hl := l.isLt
      change 255 ≤ l.toNat at h
      change 255 = l.toNat
      omega
  rw [readdirLoop, if_pos hlt, div_of_ne hne, mod_of_ne hne, pure_bind, pure_bind]
  simp only [toNat_offset_mod, hlen]
  all_goals rfl

/-- One round : there is no entry, it is returned, or it is deleted. -/
theorem readdirRound (hg : Geometry m p) (hok : ∀ k, m.status k = 0)
    (hhead : Here m p ei o → HeadIn p o) {curBlk : U32} (hcur : CurOk m p ei curBlk buf) (n : ℕ)
    (s : Io) : ∃ u, (AllIn p s → AllIn p u) ∧
      ((readdirLoop m p ei (n + 1) curBlk o buf s = some (none, u) ∧
          ((∃ k n, m.alloc k n = false) ∨ ¬Entry m p ei o)) ∨
        (Entry m p ei o ∧ isLive m p ei o = true ∧ ∃ d,
          readdirLoop m p ei (n + 1) curBlk o buf s = some (some (d, afterEntry m p ei o),
            { u with accesses := .block ⟨BitVec.ofNat 64 (inBlock p o) + 8,
              (dirEntry m p ei o).nameLen.toNat⟩ :: u.accesses }) ∧
          (NameIn m p ei o → d = direntOf m p ei o)) ∨
        Entry m p ei o ∧ isLive m p ei o = false ∧ ∃ buf',
          CurOk m p ei (o / p.blockSize) buf' ∧
          readdirLoop m p ei (n + 1) curBlk o buf s =
            readdirLoop m p ei n (o / p.blockSize) (afterEntry m p ei o) buf' u) := by
  by_cases hlt : o < ei.sizeLow
  swap
  · rw [readdirLoop, if_neg hlt]
    exact ⟨s, fun h => h, Or.inl ⟨rfl, Or.inr fun h => hlt h.1.1⟩⟩
  rw [readdirLoop_round hg hlt]
  obtain ⟨r, t, hrun, hacc, hcase⟩ := fetch_spec hg hok hcur o s
  rw [bind_of hrun]
  rcases hcase with ⟨rfl, hwhy⟩ | ⟨buf', rfl, h0, hh, hcur'⟩
  · refine ⟨t, hacc, Or.inl ⟨rfl, hwhy.symm.imp (fun ⟨k, hk⟩ => ⟨k, 1, hk⟩) fun h => ?_⟩⟩
    exact fun he => he.1.2 h
  have hin := hhead ⟨hlt, h0⟩
  have hacc' : AllIn p s → AllIn p
      { t with accesses := .block ⟨BitVec.ofNat 64 (inBlock p o), 8⟩ :: t.accesses } := fun hs =>
    List.forall_mem_cons.2 ⟨(header_in hg).2 hin, hacc hs⟩
  dsimp only
  rw [bind_of (rfl : access _ _ = _), loadDirent_eq hg hh hin]
  by_cases hrec : (dirEntry m p ei o).recLen < 8
  · rw [if_pos hrec]
    exact ⟨_, hacc', Or.inl ⟨rfl, Or.inr fun he => BitVec.not_lt.2 he.2 hrec⟩⟩
  have he : Entry m p ei o := ⟨⟨hlt, h0⟩, BitVec.not_lt.1 hrec⟩
  rw [if_neg hrec]
  refine ⟨_, hacc', Or.inr ?_⟩
  by_cases hlive : (dirEntry m p ei o).inode = 0
  · rw [if_pos hlive]
    exact Or.inr ⟨he, decide_eq_false (not_not_intro hlive), buf', hcur', rfl⟩
  · rw [if_neg hlive]
    refine Or.inl ⟨he, decide_eq_true hlive, _, rfl, fun hname => ?_⟩
    rw [bytesAt_eq hg hh hname]
    rfl

/-- What a call returns at the end of its way. -/
def ReaddirEnd (m : Machine) (p : Ext2Priv) (ei : Ext2Inode) (e : U32)
    (r : Option (VfsDirent × U32)) (t : Io) : Prop :=
  Entry m p ei e ∧ isLive m p ei e = true ∧
    (∃ d, r = some (d, afterEntry m p ei e) ∧ (NameIn m p ei e → d = direntOf m p ei e) ∧
      Access.block ⟨BitVec.ofNat 64 (inBlock p e) + 8, (dirEntry m p ei e).nameLen.toNat⟩ ∈
        t.accesses) ∨
  ¬Entry m p ei e ∧ r = none

/-- The access to a name is in bounds just when the name is in its block. -/
theorem name_in (hg : Geometry m p) (o : U32) :
    InBlocks p (.block ⟨BitVec.ofNat 64 (inBlock p o) + 8, (dirEntry m p ei o).nameLen.toNat⟩) ↔
      NameIn m p ei o := by
  have hb := hg.bounds
  have hlt := inBlock_lt hg o
  change (BitVec.ofNat 64 (inBlock p o) + 8 : U64).toNat + (dirEntry m p ei o).nameLen.toNat ≤
    p.blockSize.toNat ↔ _
  rw [show (8 : U64) = BitVec.ofNat 64 8 from rfl, ← BitVec.ofNat_add, BitVec.toNat_ofNat,
    Nat.mod_eq_of_lt (by omega), NameIn]

/-- A call follows the way to the next entry that is not deleted, or to the end. -/
theorem readdirLoop_spec (hg : Geometry m p) (hok : ∀ k, m.status k = 0) {k : ℕ}
    (hends : Ends (nextEntry m p ei (isLive m p ei)) k o) : ∀ {fuel}, k < fuel →
    (∀ o', Visits (nextEntry m p ei (isLive m p ei)) o o' → Here m p ei o' → HeadIn p o') →
    ∀ {curBlk buf}, CurOk m p ei curBlk buf → ∀ s,
    ∃ r t, readdirLoop m p ei fuel curBlk o buf s = some (r, t) ∧
      (NamesIn m p ei (isLive m p ei) o → AllIn p s → AllIn p t) ∧
      ((∃ k n, m.alloc k n = false) ∧ r = none ∨
        ∃ e, Visits (nextEntry m p ei (isLive m p ei)) o e ∧ ReaddirEnd m p ei e r t) := by
  induction hends with
  | @stop o hnone =>
    intro fuel hfuel hhead curBlk buf hcur s
    obtain ⟨n, rfl⟩ := Nat.exists_eq_add_of_lt hfuel
    rw [Nat.zero_add]
    obtain ⟨u, hacc, hcase⟩ := readdirRound hg hok (hhead o .refl) hcur n s
    rcases hcase with ⟨hrun, hwhy⟩ | ⟨he, hs, d, hrun, hd⟩ | ⟨he, hs, -⟩
    · exact ⟨_, u, hrun, fun _ => hacc, hwhy.imp (fun h => ⟨h, rfl⟩) fun hne =>
        ⟨o, .refl, Or.inr ⟨hne, rfl⟩⟩⟩
    · refine ⟨_, _, hrun, fun hn hs' => List.forall_mem_cons.2 ⟨?_, hacc hs'⟩,
        Or.inr ⟨o, .refl, Or.inl ⟨he, hs, d, rfl, hd, List.mem_cons_self⟩⟩⟩
      exact (name_in hg o).2 (hn.name o .refl he hs)
    · exact absurd (nextEntry_eq_none.1 hnone he) (by rw [hs]; exact Bool.false_ne_true)
  | @step k o b hnext hends ih =>
    intro fuel hfuel hhead curBlk buf hcur s
    obtain ⟨n, rfl⟩ := Nat.exists_eq_add_of_lt hfuel
    obtain ⟨he, hs, rfl⟩ := nextEntry_eq_some hnext
    obtain ⟨u, hacc, hcase⟩ := readdirRound hg hok (hhead o .refl) hcur (k + 1 + n) s
    rcases hcase with ⟨hrun, hwhy⟩ | ⟨-, hs', -⟩ | ⟨-, -, buf', hcur', hrun⟩
    · exact ⟨_, u, hrun, fun _ => hacc, hwhy.imp (fun h => ⟨h, rfl⟩) fun h => absurd he h⟩
    · exact absurd hs' (by rw [hs]; exact Bool.false_ne_true)
    · obtain ⟨r, t, hrest, hacc', hcase⟩ := ih (show k < k + 1 + n by omega)
        (fun e hv => hhead e (.head hnext hv)) hcur' u
      exact ⟨r, t, hrun.trans hrest, fun hn hs' => hacc' (hn.next hnext) (hacc hs'),
        hcase.imp_right fun ⟨e, hv, h⟩ => ⟨e, .head hnext hv, h⟩⟩

/-- What `ext2_readdir` returns at the end of its way. -/
def ReaddirResult (m : Machine) (p : Ext2Priv) (ei : Ext2Inode) (pos : U64) (e : U32)
    (r : I32 × U64 × Option VfsDirent) (t : Io) : Prop :=
  Entry m p ei e ∧ isLive m p ei e = true ∧
    (∃ d, r = (0, (afterEntry m p ei e).setWidth 64, some d) ∧
      (NameIn m p ei e → d = direntOf m p ei e) ∧
      Access.block ⟨BitVec.ofNat 64 (inBlock p e) + 8, (dirEntry m p ei e).nameLen.toNat⟩ ∈
        t.accesses) ∨
  ¬Entry m p ei e ∧ r = (enoent, pos, none)

theorem ext2Readdir_spec (hg : Geometry m p) (hok : ∀ k, m.status k = 0) {pos : U64} {k : ℕ}
    (hends : Ends (nextEntry m p ei (isLive m p ei)) k (pos.setWidth 32))
    (hhead : ∀ o', Visits (nextEntry m p ei (isLive m p ei)) (pos.setWidth 32) o' →
      Here m p ei o' → HeadIn p o') (s : Io) :
    ∃ r t, ext2Readdir m p ei pos s = some (r, t) ∧
      (NamesIn m p ei (isLive m p ei) (pos.setWidth 32) → AllIn p s → AllIn p t) ∧
      ((∃ k n, m.alloc k n = false) ∧ r.2.1 = pos ∨
        ∃ e, Visits (nextEntry m p ei (isLive m p ei)) (pos.setWidth 32) e ∧
          ReaddirResult m p ei pos e r t) := by
  rw [ext2Readdir]
  by_cases hend : pos.setWidth 32 ≥ ei.sizeLow
  · rw [if_pos hend]
    exact ⟨_, s, rfl, fun _ h => h, Or.inr ⟨_, .refl, Or.inr
      ⟨fun h => BitVec.not_lt.2 hend h.1.1, rfl⟩⟩⟩
  rw [if_neg hend]
  rcases Bool.eq_false_or_eq_true (m.alloc s.allocs 1) with hk | hk
  · have hb := kalloc_apply m 1 s
    rw [if_pos hk] at hb
    obtain ⟨r, t, hrun, hacc, hcase⟩ := readdirLoop_spec hg hok hends (lt_loopFuel hends) hhead
      (.start hg _) { s with allocs := s.allocs + 1 }
    rw [bind_of hb]
    dsimp only
    rw [bind_of hrun]
    rcases hcase with ⟨hwhy, rfl⟩ | ⟨e, hv, ⟨he, hs, d, rfl, hd, ha⟩ | ⟨hne, rfl⟩⟩
    · exact ⟨_, t, rfl, hacc, Or.inl ⟨hwhy, rfl⟩⟩
    · exact ⟨_, t, rfl, hacc, Or.inr ⟨e, hv, Or.inl ⟨he, hs, d, rfl, hd, ha⟩⟩⟩
    · exact ⟨_, t, rfl, hacc, Or.inr ⟨e, hv, Or.inr ⟨hne, rfl⟩⟩⟩
  · have hb := kalloc_apply m 1 s
    rw [if_neg (by rw [hk]; exact Bool.false_ne_true)] at hb
    rw [bind_of hb]
    exact ⟨_, _, rfl, fun _ h => h, Or.inl ⟨⟨_, _, hk⟩, rfl⟩⟩

end Readdir

end Jeos.Ext2
