import Jeos.Lib.NameTable
import Jeos.Vfs

/-!
# The directories of `initfs.c`

`g_dirs` is an array of eight structures in memory, each with a name of 64 bytes, its length, a mark and
an inode number. `initfs_mkdir` copies `child->name_len` bytes of the name into the first structure that
is not in use, however long the name is : from the 64th byte on they go over the fields behind the name,
and from the 72nd on into the next structure.

`Shows` reads a table of names off the memory. With names of at most 63 bytes the operations are those of
the finite map of that table (`initfs_is_finite_map`).
-/

namespace Jeos

namespace Initfs

set_option linter.unusedSectionVars false

open ByteMemory NameTable

/-! ## The array -/

/-- `INITFS_MAX_DIRS`. -/
abbrev maxDirs : ℕ := 8

/-- `struct initfs_dir` : `name`, `name_len`, `in_use`, `ino`. -/
def dirFields : List CType := [.array .u8 64, .u16, .u8, .u32]

theorem dir_size : (CType.struct dirFields).size = 72 := rfl

/-- The places of `g_dirs` and `g_next_ino`. `kernel.ld` puts the initialised data, `g_next_ino` among
it, in front of the array. A name has at most 255 bytes and a 0. -/
structure Globals where
  dirs : U64
  nextIno : U64
  apart : Apart dirs (7 * 72 + 256) nextIno 4

variable (g : Globals)

/-- `&g_dirs[i]`. -/
def dirAddr (i : Fin maxDirs) : U64 := g.dirs + BitVec.ofNat 64 (i * 72)

def nameAddr (i : Fin maxDirs) : U64 := fieldAddr dirFields (dirAddr g i) 0

def nameLenAddr (i : Fin maxDirs) : U64 := fieldAddr dirFields (dirAddr g i) 1

def inUseAddr (i : Fin maxDirs) : U64 := fieldAddr dirFields (dirAddr g i) 2

def inoAddr (i : Fin maxDirs) : U64 := fieldAddr dirFields (dirAddr g i) 3

/-! ## The functions -/

/-- `kstrcmp` of a string in memory with `s` and its 0. -/
def kstrcmp (m : Mem) (a : U64) : List U8 → ℤ
  | [] => (m a).toNat
  | c :: s => if m a ≠ 0 ∧ m a = c then kstrcmp m (a + 1) s else (m a).toNat - c.toNat

/-- The test of both loops over the array. -/
def isNamed (m : Mem) (name : List U8) (i : Fin maxDirs) : Bool :=
  m (inUseAddr g i) ≠ 0 ∧ load16 m (nameLenAddr g i) = BitVec.ofNat 16 name.length ∧
    kstrcmp m (nameAddr g i) name = 0

/-- The return value of an operation, and the inode number of `child->inode`. -/
structure Answer where
  code : ℤ
  ino : Option U32
  deriving DecidableEq

/-- `VFS_OK`. -/
def OK : ℤ := 0

/-- `VFS_EEXIST`. -/
def EEXIST : ℤ := -17

/-- `initfs_make_dir`, where `page` tells whether its `kalloc` succeeds, and what its callers
return. -/
def makeDir (page : Bool) (ino : U32) : Answer :=
  if page then ⟨OK, some ino⟩ else ⟨Vfs.ENOMEM, none⟩

/-- `initfs_lookup`. -/
def lookup (m : Mem) (name : List U8) (page : Bool) : Answer :=
  match first (isNamed g m name) with
  | some i => makeDir page (load32 m (inoAddr g i))
  | none => ⟨Vfs.ENOENT, none⟩

/-- `memcpy(d->name, child->name, child->name_len); d->name[child->name_len] = 0;` -/
def copyName (m : Mem) (i : Fin maxDirs) (name : List U8) : Mem :=
  Function.update (writeBytes m (nameAddr g i) name) (nameAddr g i + BitVec.ofNat 64 name.length) 0

/-- The name, its length, the number and the mark of `g_dirs[i]` are set. -/
def setDir (m : Mem) (i : Fin maxDirs) (name : List U8) : Mem :=
  let m := store16 (copyName g m i name) (nameLenAddr g i) (BitVec.ofNat 16 name.length)
  let ino := load32 m g.nextIno
  let m := store32 m g.nextIno (ino + 1)
  let m := store32 m (inoAddr g i) ino
  Function.update m (inUseAddr g i) 1

/-- `initfs_mkdir`. -/
def mkdir (m : Mem) (name : List U8) (page : Bool) : Mem × Answer :=
  match first (isNamed g m name) with
  | some _ => (m, ⟨EEXIST, none⟩)
  | none =>
    match first fun i => m (inUseAddr g i) = 0 with
    | none => (m, ⟨Vfs.ENOMEM, none⟩)
    | some i => (setDir g m i name, makeDir page (load32 (setDir g m i name) (inoAddr g i)))

/-! ## Places in the array -/

variable {g} {m m' : Mem} {i j : Fin maxDirs} {x : U64} {name name' : List U8} {ino : U32} {n : ℕ}

/-- The bytes of `g_dirs[i]` that `setDir` may write : the structure, or as far as the name goes. -/
def span (name : List U8) : ℕ := max 72 (name.length + 1)

theorem le_span : 72 ≤ span name ∧ name.length + 1 ≤ span name :=
  ⟨Nat.le_max_left .., Nat.le_max_right ..⟩

theorem span_le (h : name.length < 256) : span name ≤ 256 := Nat.max_le.2 ⟨by omega, by omega⟩

theorem span_short (h : name.length ≤ 63) : span name = 72 := Nat.max_eq_left (by omega)

/-- A byte of a field by its distance from the start of the structure. -/
theorem within_field {k n : ℕ} (hk : CType.offset dirFields k + n ≤ 72) (hn : 0 < n) :
    Within x (fieldAddr dirFields (dirAddr g i) k) n ↔
      CType.offset dirFields k ≤ (x - dirAddr g i).toNat ∧
        (x - dirAddr g i).toNat < CType.offset dirFields k + n :=
  within_add_iff (by omega) hn

theorem nameAddr_eq : nameAddr g i = dirAddr g i := BitVec.add_zero _

/-- `g_next_ino` is not where a name may go. -/
theorem apart_nextIno (hn : n ≤ 256) : Apart (dirAddr g i) n g.nextIno 4 :=
  g.apart.mono_left fun x hx => hx.of_add (by have : i.val < 8 := i.isLt; omega) (by omega)

/-- The structures are apart. -/
theorem apart_dir (h : i ≠ j) : Apart (dirAddr g i) 72 (dirAddr g j) 72 := by
  have hi : i.val < 8 := i.isLt
  have hj : j.val < 8 := j.isLt
  have hne : i.val ≠ j.val := fun he => h (Fin.ext he)
  refine apart_add g.dirs (by omega) (by omega) ?_
  omega

theorem copyName_of_not_within (hlen : name.length < 256)
    (hx : ¬Within x (dirAddr g i) (span name)) : copyName g m i name x = m x := by
  have hspan := @le_span name
  have hend : x ≠ nameAddr g i + BitVec.ofNat 64 name.length := fun he =>
    hx (he ▸ nameAddr_eq (g := g) ▸ within_add _ (by omega) (by have := span_le hlen; omega))
  rw [copyName, Function.update_of_ne hend, writeBytes_of_not_within]
  rw [nameAddr_eq]
  exact fun hw => hx (Nat.lt_of_lt_of_le hw (by omega))

/-- A byte of the copied name. -/
theorem copyName_add {k : ℕ} {c : U8} (hlen : name.length < 256) (h : (name ++ [0])[k]? = some c) :
    copyName g m i name (nameAddr g i + BitVec.ofNat 64 k) = c := by
  unfold copyName
  rcases Nat.lt_trichotomy k name.length with hlt | rfl | hgt
  · rw [List.getElem?_append_left hlt] at h
    have hne : nameAddr g i + BitVec.ofNat 64 k ≠ nameAddr g i + BitVec.ofNat 64 name.length := by
      intro he
      have := congrArg (fun y => (y - nameAddr g i).toNat) he
      simp only [toNat_add_sub_self _ (show k < 2 ^ 64 by omega),
        toNat_add_sub_self _ (show name.length < 2 ^ 64 by omega)] at this
      omega
    rw [Function.update_of_ne hne, writeBytes_add (by omega) h]
  · rw [Function.update_self]
    simpa using h
  · rw [List.getElem?_eq_none (by simpa using hgt)] at h
    cases h

section Fields

variable (hlen : name.length < 256)
include hlen

/-- The bytes of `g_dirs[i]` that `setDir` may write are not those of `g_next_ino`. -/
theorem span_apart : Apart (dirAddr g i) (span name) g.nextIno 4 := apart_nextIno (span_le hlen)

/-- What `setDir` writes. -/
theorem setDir_of_not_within (hx : ¬Within x (dirAddr g i) (span name))
    (hn : ¬Within x g.nextIno 4) : setDir g m i name x = m x := by
  have hspan := @le_span name
  have hout : ∀ {k n : ℕ}, CType.offset dirFields k + n ≤ 72 → 0 < n →
      ¬Within x (fieldAddr dirFields (dirAddr g i) k) n := fun hk hpos hw => by
    rw [within_field hk hpos] at hw
    exact hx (Nat.lt_of_lt_of_le hw.2 (by omega))
  have hmark : x ≠ inUseAddr g i := fun he =>
    hout (k := 2) (n := 1) (by decide) Nat.one_pos (he ▸ within_self _ Nat.one_pos)
  have hino : ¬Within x (inoAddr g i) 4 := hout (k := 3) (by decide) (by decide)
  have hnl : ¬Within x (nameLenAddr g i) 2 := hout (k := 1) (by decide) (by decide)
  rw [setDir, Function.update_of_ne hmark, store32_of_not_within hino, store32_of_not_within hn,
    store16_of_not_within hnl, copyName_of_not_within hlen hx]

/-- A byte that is in none of the fields behind the name. -/
theorem setDir_eq_copyName (hx : ¬(64 ≤ (x - dirAddr g i).toNat ∧ (x - dirAddr g i).toNat < 72))
    (hn : ¬Within x g.nextIno 4) : setDir g m i name x = copyName g m i name x := by
  have hout : ∀ {k n : ℕ}, 64 ≤ CType.offset dirFields k → CType.offset dirFields k + n ≤ 72 → 0 < n →
      ¬Within x (fieldAddr dirFields (dirAddr g i) k) n := fun h64 hk hpos hw => by
    rw [within_field hk hpos] at hw
    exact hx ⟨Nat.le_trans h64 hw.1, Nat.lt_of_lt_of_le hw.2 hk⟩
  have hmark : x ≠ inUseAddr g i := fun he =>
    hout (k := 2) (n := 1) (by decide) (by decide) Nat.one_pos (he ▸ within_self _ Nat.one_pos)
  have hino : ¬Within x (inoAddr g i) 4 := hout (k := 3) (by decide) (by decide) (by decide)
  have hnl : ¬Within x (nameLenAddr g i) 2 := hout (k := 1) (by decide) (by decide) (by decide)
  rw [setDir, Function.update_of_ne hmark, store32_of_not_within hino, store32_of_not_within hn,
    store16_of_not_within hnl]

theorem setDir_of_apart (hx : Within x (dirAddr g i) 64) : setDir g m i name x = copyName g m i name x :=
  setDir_eq_copyName hlen (fun h => absurd hx (Nat.not_lt_of_le h.1))
    (apart_nextIno (n := 64) (by decide) x hx)

theorem setDir_inUse : setDir g m i name (inUseAddr g i) = 1 := Function.update_self ..

/-- The fields of `g_dirs[i]` and `g_next_ino` are apart. -/
theorem nextIno_not_within {k n : ℕ} (hk : CType.offset dirFields k + n ≤ 72) (hn : 0 < n)
    (hx : Within x g.nextIno 4) : ¬Within x (fieldAddr dirFields (dirAddr g i) k) n := fun hw => by
  rw [within_field hk hn] at hw
  exact apart_nextIno (n := 72) (by decide) x (Nat.lt_of_lt_of_le hw.2 hk) hx

/-- The name leaves `g_next_ino` alone. -/
theorem load_nextIno_copyName : load32 (store16 (copyName g m i name) (nameLenAddr g i)
    (BitVec.ofNat 16 name.length)) g.nextIno = load32 m g.nextIno := by
  refine load32_congr fun x hx => ?_
  have hnl : ¬Within x (nameLenAddr g i) 2 :=
    nextIno_not_within hlen (k := 1) (by decide) (by decide) hx
  rw [store16_of_not_within hnl, copyName_of_not_within hlen fun hw => span_apart hlen x hw hx]

theorem setDir_ino : load32 (setDir g m i name) (inoAddr g i) = load32 m g.nextIno := by
  have hmark : ∀ x, Within x (inoAddr g i) 4 → x ≠ inUseAddr g i := fun x hx he =>
    apart_add (dirAddr g i) (i := 68) (n := 4) (j := 66) (k := 1) (by decide) (by decide)
      (by decide) x hx (he ▸ within_self _ Nat.one_pos)
  rw [← load_nextIno_copyName hlen, setDir]
  refine (load32_congr fun x hx => Function.update_of_ne (hmark x hx) ..).trans ?_
  exact load32_store32_self (by decide) ..

theorem setDir_nextIno : load32 (setDir g m i name) g.nextIno = load32 m g.nextIno + 1 := by
  have hmark : ∀ x, Within x g.nextIno 4 → x ≠ inUseAddr g i := fun x hx he => by
    refine nextIno_not_within (i := i) hlen (k := 2) (n := 1) (by decide) Nat.one_pos hx ?_
    rw [he]
    exact within_self _ Nat.one_pos
  have hino : Apart g.nextIno 4 (inoAddr g i) 4 := fun x hx =>
    nextIno_not_within hlen (k := 3) (by decide) (by decide) hx
  rw [setDir]
  refine (load32_congr fun x hx => Function.update_of_ne (hmark x hx) ..).trans ?_
  rw [load32_store32_of_apart hino, load32_store32_self (by decide), load_nextIno_copyName hlen]

theorem setDir_nameLen :
    load16 (setDir g m i name) (nameLenAddr g i) = BitVec.ofNat 16 name.length := by
  have hfield : ∀ x, Within x (nameLenAddr g i) 2 → setDir g m i name x =
      store16 (copyName g m i name) (nameLenAddr g i) (BitVec.ofNat 16 name.length) x := by
    intro x hx
    have hmark : x ≠ inUseAddr g i := fun he =>
      apart_add (dirAddr g i) (i := 64) (n := 2) (j := 66) (k := 1) (by decide) (by decide)
        (by decide) x hx (he ▸ within_self _ Nat.one_pos)
    have hino : ¬Within x (inoAddr g i) 4 :=
      apart_add (dirAddr g i) (i := 64) (n := 2) (j := 68) (k := 4) (by decide) (by decide)
        (by decide) x hx
    have hn : ¬Within x g.nextIno 4 := fun hn =>
      nextIno_not_within hlen (k := 1) (by decide) (by decide) hn hx
    rw [setDir, Function.update_of_ne hmark, store32_of_not_within hino, store32_of_not_within hn]
  rw [load16_congr hfield, load16_store16_self (by decide)]

end Fields

/-! ## Names in memory -/

/-- The bytes at `a` are `s` and a 0. -/
def StringAt (m : Mem) (a : U64) (s : List U8) : Prop :=
  ∀ k c, (s ++ [0])[k]? = some c → m (a + BitVec.ofNat 64 k) = c

theorem stringAt_cons {a : U64} {c : U8} {s : List U8} :
    StringAt m a (c :: s) ↔ m a = c ∧ StringAt m (a + 1) s := by
  have hnext : ∀ k : ℕ, a + BitVec.ofNat 64 (k + 1) = a + 1 + BitVec.ofNat 64 k := fun k => by
    rw [Nat.add_comm, BitVec.ofNat_add, ← BitVec.add_assoc]
    rfl
  constructor
  · intro h
    refine ⟨by simpa using h 0 c rfl, fun k c' hk => ?_⟩
    rw [← hnext]
    exact h (k + 1) c' hk
  · rintro ⟨h, hs⟩ k c' hk
    rcases k with _ | k
    · obtain rfl := Option.some.inj hk
      simpa using h
    · rw [hnext]
      exact hs k c' hk

/-- `kstrcmp` is 0 for the string that is there. -/
theorem kstrcmp_eq_zero_iff {s : List U8} (h0 : 0 ∉ s) (a : U64) :
    kstrcmp m a s = 0 ↔ StringAt m a s := by
  have hzero : ∀ {b c : U8}, ((b.toNat : ℤ) - c.toNat = 0 ↔ b = c) := fun {b c} => by
    rw [sub_eq_zero, Nat.cast_inj]
    exact ⟨BitVec.eq_of_toNat_eq, congrArg _⟩
  induction s generalizing a with
  | nil =>
    have h := hzero (b := m a) (c := 0)
    rw [kstrcmp]
    constructor
    · intro hm k c hk
      obtain ⟨rfl, rfl⟩ : k = 0 ∧ c = 0 := by
        rcases k with _ | k
        · exact ⟨rfl, (Option.some.inj hk).symm⟩
        · cases hk
      simpa using h.1 (by simpa using hm)
    · intro hs
      have h1 : m a = 0 := by simpa using hs 0 0 rfl
      simpa using h.2 h1
  | cons c s ih =>
    obtain ⟨hc, hs⟩ : 0 ≠ c ∧ 0 ∉ s := by simpa using h0
    rw [kstrcmp, stringAt_cons]
    split_ifs with h
    · exact (ih hs (a + 1)).trans (and_iff_right h.2).symm
    · rw [hzero]
      refine iff_of_false (fun he => h ⟨he ▸ hc.symm, he⟩) fun hm => h ⟨hm.1 ▸ hc.symm, hm.1⟩

/-- `kstrcmp` reads no further than the 0 of the string in memory. -/
theorem kstrcmp_congr {a : U64} {s : List U8} {n : ℕ} (h0 : m (a + BitVec.ofNat 64 n) = 0)
    (hm : ∀ k ≤ n, m' (a + BitVec.ofNat 64 k) = m (a + BitVec.ofNat 64 k)) :
    kstrcmp m' a s = kstrcmp m a s := by
  have ha : m' a = m a := by simpa using hm 0 (Nat.zero_le n)
  induction s generalizing a n with
  | nil => rw [kstrcmp, kstrcmp, ha]
  | cons c s ih =>
    rw [kstrcmp, kstrcmp, ha]
    split_ifs with h
    · have hpos : n ≠ 0 := by
        rintro rfl
        exact h.1 (by simpa using h0)
      have hnext : ∀ k : ℕ, a + 1 + BitVec.ofNat 64 k = a + BitVec.ofNat 64 (k + 1) := fun k => by
        rw [Nat.add_comm, BitVec.ofNat_add, ← BitVec.add_assoc]
        rfl
      have hrest : ∀ k ≤ n - 1, m' (a + 1 + BitVec.ofNat 64 k) = m (a + 1 + BitVec.ofNat 64 k) :=
        fun k hk => by
          rw [hnext]
          exact hm (k + 1) (by omega)
      refine ih (n := n - 1) ?_ hrest (by simpa using hrest 0 (Nat.zero_le _))
      rw [hnext, Nat.sub_add_cancel (Nat.pos_of_ne_zero hpos)]
      exact h0
    · rfl

/-- Two strings of one length at one place. -/
theorem StringAt.eq {a : U64} {s s' : List U8} (h : StringAt m a s) (h' : StringAt m a s')
    (hlen : s.length = s'.length) : s = s' := by
  refine List.ext_getElem hlen fun k hk hk' => ?_
  have hc := h k s[k] (by rw [List.getElem?_append_left hk, List.getElem?_eq_getElem hk])
  have hc' := h' k s'[k] (by rw [List.getElem?_append_left hk', List.getElem?_eq_getElem hk'])
  exact hc.symm.trans hc'

/-- A string ends at the first 0. -/
theorem StringAt.length_le {a : U64} {s s' : List U8} (h : StringAt m a s) (h' : StringAt m a s')
    (h0 : 0 ∉ s') : s'.length ≤ s.length := by
  by_contra hlt
  have hk := Nat.lt_of_not_le hlt
  have hend : m (a + BitVec.ofNat 64 s.length) = 0 := h s.length 0 (by simp)
  have hchar := h' s.length s'[s.length] (by
    rw [List.getElem?_append_left hk, List.getElem?_eq_getElem hk])
  exact h0 (hchar.symm.trans hend ▸ List.getElem_mem hk)

/-! ## The table in memory -/

/-- `g_dirs[i]` is in use, with the name and the number. -/
structure EntryIs (g : Globals) (m : Mem) (i : Fin maxDirs) (name : List U8) (ino : U32) : Prop where
  inUse : m (inUseAddr g i) ≠ 0
  nameLen : load16 m (nameLenAddr g i) = BitVec.ofNat 16 name.length
  string : StringAt m (nameAddr g i) name
  ino_eq : load32 m (inoAddr g i) = ino
  short : name.length ≤ 63
  nul : 0 ∉ name

/-- The slot of a table that `g_dirs[i]` holds. -/
def SlotIs (g : Globals) (m : Mem) (i : Fin maxDirs) : Option (List U8 × U32) → Prop
  | none => m (inUseAddr g i) = 0
  | some e => EntryIs g m i e.1 e.2

/-- The array holds the table. -/
def Shows (g : Globals) (m : Mem) (T : NameTable.Table maxDirs (List U8) U32) : Prop :=
  ∀ i, SlotIs g m i (T i)

variable {T : NameTable.Table maxDirs (List U8) U32}

theorem within_of_field {k n : ℕ} (hk : CType.offset dirFields k + n ≤ 72) (hn : 0 < n)
    (hx : Within x (fieldAddr dirFields (dirAddr g i) k) n) : Within x (dirAddr g i) 72 :=
  Nat.lt_of_lt_of_le ((within_field hk hn).1 hx).2 hk

/-- A structure is what its bytes are. -/
theorem SlotIs.congr {e : Option (List U8 × U32)} (h : SlotIs g m i e)
    (hm : ∀ x, Within x (dirAddr g i) 72 → m' x = m x) : SlotIs g m' i e := by
  have hmark : m' (inUseAddr g i) = m (inUseAddr g i) :=
    hm _ (within_of_field (k := 2) (n := 1) (by decide) Nat.one_pos (within_self _ Nat.one_pos))
  rcases e with _ | ⟨name, ino⟩
  · exact hmark.trans h
  obtain ⟨hu, hl, hs, hi, hshort, hnul⟩ := h
  refine ⟨hmark ▸ hu, ?_, fun k c hk => ?_, ?_, hshort, hnul⟩
  · rw [← hl]
    exact load16_congr fun x hx => hm x (within_of_field (k := 1) (by decide) (by decide) hx)
  · have hlt : k < 64 := by
      have := (List.getElem?_eq_some_iff.1 hk).1
      rw [List.length_append, List.length_singleton] at this
      omega
    rw [hm, hs k c hk]
    rw [nameAddr_eq]
    exact within_add _ (by omega) (by decide)
  · rw [← hi]
    exact load32_congr fun x hx => hm x (within_of_field (k := 3) (by decide) (by decide) hx)

/-- A structure has one name. -/
theorem EntryIs.isNamed_iff (h : EntryIs g m i name' ino) (hlen : name.length < 256) (h0 : 0 ∉ name) :
    isNamed g m name i = true ↔ name = name' := by
  rw [isNamed, decide_eq_true_iff]
  constructor
  · rintro ⟨-, hlen', hcmp⟩
    have hshort := h.short
    have hll : name.length = name'.length := by
      have h := congrArg BitVec.toNat (h.nameLen.symm.trans hlen')
      simp only [BitVec.toNat_ofNat] at h
      omega
    exact ((kstrcmp_eq_zero_iff h0 _).1 hcmp).eq h.string hll
  · rintro rfl
    exact ⟨h.inUse, h.nameLen, (kstrcmp_eq_zero_iff h0 _).2 h.string⟩

/-- The loops look for the name in the table. -/
theorem Shows.isNamed_eq (h : Shows g m T) (hlen : name.length < 256) (h0 : 0 ∉ name)
    (i : Fin maxDirs) : isNamed g m name i = holds T name i := by
  have hi := h i
  rw [Bool.eq_iff_iff, holds_iff]
  rcases he : T i with _ | ⟨name', ino⟩ <;> rw [he] at hi
  · rw [isNamed, decide_eq_true_iff]
    exact iff_of_false (fun hc => hc.1 hi) fun ⟨_, hc⟩ => nomatch hc
  · rw [EntryIs.isNamed_iff hi hlen h0]
    constructor
    · rintro rfl
      exact ⟨ino, rfl⟩
    · rintro ⟨ino', he'⟩
      exact (Prod.mk.inj (Option.some.inj he')).1.symm

/-- A short name fits into its structure. -/
theorem entryIs_setDir (hlen : name.length ≤ 63) (h0 : 0 ∉ name) :
    EntryIs g (setDir g m i name) i name (load32 m g.nextIno) := by
  have hlen' : name.length < 256 := by omega
  refine ⟨?_, setDir_nameLen hlen', fun k c hk => ?_, setDir_ino hlen', hlen, h0⟩
  · rw [setDir_inUse hlen']
    decide
  · have hlt : k < 64 := by
      have : k < (name ++ [0]).length := (List.getElem?_eq_some_iff.1 hk).1
      rw [List.length_append, List.length_singleton] at this
      omega
    rw [setDir_of_apart hlen', copyName_add hlen' hk]
    rw [nameAddr_eq]
    exact within_add _ hlt (by decide)

/-- The other structures stay as they are. -/
theorem setDir_of_ne (hlen : name.length ≤ 63) (hji : j ≠ i) (hx : Within x (dirAddr g j) 72) :
    setDir g m i name x = m x := by
  refine setDir_of_not_within (by omega) ?_ (apart_nextIno (by decide) x hx)
  rw [span_short hlen]
  exact apart_dir hji x hx

/-- A short name put in a free structure. -/
theorem Shows.setDir (h : Shows g m T) (hlen : name.length ≤ 63) (h0 : 0 ∉ name)
    (i : Fin maxDirs) : Shows g (setDir g m i name)
      (Function.update T i (some (name, load32 m g.nextIno))) := by
  intro j
  by_cases hji : j = i
  · subst hji
    rw [Function.update_self]
    exact entryIs_setDir hlen h0
  · rw [Function.update_of_ne hji]
    exact (h j).congr fun x => setDir_of_ne hlen hji

/-! ## A directory that has been made -/

/-- Which name a structure has depends on its bytes only : after a length below 256 there is a 0. -/
theorem isNamed_congr (hlen : name.length < 256) (hm : ∀ x, Within x (dirAddr g i) 72 → m' x = m x) :
    isNamed g m' name i = isNamed g m name i := by
  have hmark : m' (inUseAddr g i) = m (inUseAddr g i) :=
    hm _ (within_of_field (k := 2) (n := 1) (by decide) Nat.one_pos (within_self _ Nat.one_pos))
  have hnl : load16 m' (nameLenAddr g i) = load16 m (nameLenAddr g i) :=
    load16_congr fun x hx => hm x (within_of_field (k := 1) (by decide) (by decide) hx)
  rw [isNamed, isNamed, hmark, hnl]
  by_cases hl : load16 m (nameLenAddr g i) = BitVec.ofNat 16 name.length
  swap
  · simp [hl]
  have hbyte : ∀ k ≤ 65, m' (nameAddr g i + BitVec.ofNat 64 k) = m (nameAddr g i + BitVec.ofNat 64 k) :=
    fun k hk => by
      refine hm _ ?_
      rw [nameAddr_eq]
      exact within_add _ (by omega) (by decide)
  have hzero : m (nameAddr g i + BitVec.ofNat 64 65) = 0 := by
    have hadd : nameAddr g i + BitVec.ofNat 64 65 = nameLenAddr g i + 1 := by
      rw [nameAddr_eq, nameLenAddr, fieldAddr, BitVec.add_assoc]
      rfl
    rw [hadd]
    refine load16_high ?_
    rw [hl, BitVec.toNat_ofNat]
    omega
  rw [kstrcmp_congr hzero hbyte]

/-- Other names are where they were. -/
theorem isNamed_setDir {c : List U8} (hlen : name.length ≤ 63) (h0 : 0 ∉ name)
    (hfree : m (inUseAddr g i) = 0) (hc : c.length < 256) (hc0 : 0 ∉ c) (hne : c ≠ name) (j : Fin maxDirs) :
    isNamed g (setDir g m i name) c j = isNamed g m c j := by
  by_cases hji : j = i
  · subst hji
    have hbefore : isNamed g m c j = false := decide_eq_false fun h => h.1 hfree
    rw [hbefore, Bool.eq_false_iff]
    exact fun h => hne (((entryIs_setDir hlen h0).isNamed_iff hc hc0).1 h)
  · exact isNamed_congr hc fun x => setDir_of_ne hlen hji

/-- A lookup after the directory `name` has been made. -/
theorem lookup_setDir {c : List U8} {page : Bool} (hlen : name.length ≤ 63) (h0 : 0 ∉ name)
    (hfree : m (inUseAddr g i) = 0) (hnew : first (isNamed g m name) = none)
    (hc : c.length < 256) (hc0 : 0 ∉ c) : lookup g (setDir g m i name) c page =
      if c = name then makeDir page (load32 m g.nextIno) else lookup g m c page := by
  have hentry := entryIs_setDir (g := g) (m := m) (i := i) hlen h0
  split_ifs with hcn
  · subst hcn
    have hfirst : first (isNamed g (setDir g m i c) c) = some i := by
      refine first_eq_some ((hentry.isNamed_iff hc hc0).2 rfl) fun j hj => ?_
      by_contra hji
      rw [isNamed_congr hc fun x => setDir_of_ne hlen hji, first_eq_none_iff.1 hnew j] at hj
      cases hj
    rw [lookup, hfirst]
    dsimp only
    rw [hentry.ino_eq]
  · rw [lookup, lookup, first_congr (isNamed_setDir hlen h0 hfree hc hc0 hcn)]
    rcases hfirst : first (isNamed g m c) with _ | j
    · rfl
    have hji : j ≠ i := by
      rintro rfl
      have hnamed := first_of_some hfirst
      rw [isNamed, decide_eq_true_iff] at hnamed
      exact hnamed.1 hfree
    have hino : load32 (setDir g m i name) (inoAddr g j) = load32 m (inoAddr g j) :=
      load32_congr fun x hx => setDir_of_ne hlen hji (within_of_field (k := 3) (by decide) (by decide) hx)
    dsimp only
    rw [hino]

/-- What `initfs_mkdir` has done when it returns `VFS_OK`. -/
theorem mkdir_eq_ok {page : Bool} (h : (mkdir g m name page).2.code = OK) :
    first (isNamed g m name) = none ∧ ∃ i, m (inUseAddr g i) = 0 ∧
      (mkdir g m name page).1 = setDir g m i name := by
  unfold mkdir at h ⊢
  rcases hfirst : first (isNamed g m name) with _ | i <;> rw [hfirst] at h
  · refine ⟨rfl, ?_⟩
    dsimp only at h ⊢
    rcases hfree : first fun i => decide (m (inUseAddr g i) = 0) with _ | i <;> rw [hfree] at h
    · cases h
    · exact ⟨i, of_decide_eq_true (first_of_some hfree), rfl⟩
  · cases h

/-! ## The operations -/

/-- A name as `vfs_tmp_dentry` admits it. -/
structure Name where
  bytes : List U8
  ne_nil : bytes ≠ []
  length_lt : bytes.length < 256
  nul : 0 ∉ bytes

/-- An operation of the file system on a directory. -/
inductive Call where
  | lookup (name : Name)
  | mkdir (name : Name)

/-- The memory after a call whose `kalloc` succeeds, and its answer. -/
def perform (g : Globals) (m : Mem) : Call → Mem × Answer
  | .lookup name => (m, lookup g m name.bytes true)
  | .mkdir name => mkdir g m name.bytes true

/-- The names present, with their inode numbers. -/
abbrev DirMap := List U8 → Option U32

/-- What a call on a finite map of at most eight names answers and leaves. -/
inductive MapStep (M : DirMap) : Call → Answer → DirMap → Prop
  | found {name : Name} {ino : U32} : M name.bytes = some ino →
      MapStep M (.lookup name) ⟨OK, some ino⟩ M
  | absent {name : Name} : M name.bytes = none → MapStep M (.lookup name) ⟨Vfs.ENOENT, none⟩ M
  | exists {name : Name} : M name.bytes ≠ none → MapStep M (.mkdir name) ⟨EEXIST, none⟩ M
  | full {name : Name} : M name.bytes = none → (keys M).ncard = maxDirs →
      MapStep M (.mkdir name) ⟨Vfs.ENOMEM, none⟩ M
  | added {name : Name} {ino : U32} : M name.bytes = none → (keys M).ncard ≠ maxDirs →
      (∀ other, M other ≠ some ino) →
      MapStep M (.mkdir name) ⟨OK, some ino⟩ (Function.update M name.bytes (some ino))

/-- Two memories that differ in one structure of the array, which was free, and in `g_next_ino`. -/
def ChangesEntry (g : Globals) (m m' : Mem) : Prop :=
  ∃ i, m (inUseAddr g i) = 0 ∧
    ∀ x, ¬Within x (dirAddr g i) 72 → ¬Within x g.nextIno 4 → m' x = m x

/-- As long as the calls meet a condition they answer and act as on the map, and change the entry
they use and no other memory. -/
def ActsAsMap (g : Globals) (Cond : DirMap → Call → Prop) : Mem → DirMap → List Call → Prop
  | _, _, [] => True
  | m, M, c :: cs => Cond M c → ∃ M', MapStep M c (perform g m c).2 M' ∧
      ((perform g m c).1 = m ∨ ChangesEntry g m (perform g m c).1) ∧
      ActsAsMap g Cond (perform g m c).1 M' cs

/-- A name for which `initfs_mkdir` takes a structure has at most 63 bytes. -/
def Fits (M : DirMap) : Call → Prop
  | .lookup _ => True
  | .mkdir name => name.bytes.length ≤ 63 ∨ (keys M).ncard = maxDirs

/-- The array holds the table, its numbers are below `g_next_ino`, and every entry has had one. -/
structure Invariant (g : Globals) (m : Mem) (T : NameTable.Table maxDirs (List U8) U32) : Prop where
  shows : Shows g m T
  distinct : Distinct T
  below : ∀ i name ino, T i = some (name, ino) → ino < load32 m g.nextIno
  count : (load32 m g.nextIno).toNat = 2 + {i | T i ≠ none}.ncard

theorem Invariant.first_isNamed (h : Invariant g m T) (name : Name) :
    first (isNamed g m name.bytes) = first (holds T name.bytes) :=
  first_congr (h.shows.isNamed_eq name.length_lt name.nul)

/-- A free structure is an empty slot. -/
theorem Shows.slot_eq_none_iff (h : Shows g m T) (i : Fin maxDirs) :
    T i = none ↔ m (inUseAddr g i) = 0 := by
  have hi := h i
  rcases he : T i with _ | e <;> rw [he] at hi
  · exact iff_of_true rfl hi
  · exact iff_of_false (nomatch ·) hi.inUse

theorem Invariant.lookup (h : Invariant g m T) (name : Name) :
    MapStep (toMap T) (.lookup name) (perform g m (.lookup name)).2 (toMap T) := by
  rw [perform, Initfs.lookup, h.first_isNamed]
  rcases hfirst : first (holds T name.bytes) with _ | i
  · exact .absent (by rw [toMap, hfirst, Option.bind_none])
  · obtain ⟨ino, he⟩ := holds_iff.1 (first_of_some hfirst)
    have hi := h.shows i
    rw [he] at hi
    have hino : load32 m (inoAddr g i) = ino := hi.ino_eq
    simp only [hino]
    exact .found (h.distinct.toMap_eq_some_iff.2 ⟨i, he⟩)

theorem Invariant.mkdir (h : Invariant g m T) (name : Name) (hfits : Fits (toMap T) (.mkdir name)) :
    ∃ T', MapStep (toMap T) (.mkdir name) (perform g m (.mkdir name)).2 (toMap T') ∧
      ((perform g m (.mkdir name)).1 = m ∨ ChangesEntry g m (perform g m (.mkdir name)).1) ∧
      Invariant g (perform g m (.mkdir name)).1 T' := by
  rw [perform, Initfs.mkdir, h.first_isNamed]
  rcases hfirst : first (holds T name.bytes) with _ | i
  swap
  · obtain ⟨ino, he⟩ := holds_iff.1 (first_of_some hfirst)
    refine ⟨T, .exists ?_, Or.inl rfl, h⟩
    rw [h.distinct.toMap_eq_some_iff.2 ⟨i, he⟩]
    exact Option.some_ne_none _
  have hnew : toMap T name.bytes = none := by rw [toMap, hfirst, Option.bind_none]
  dsimp only
  rcases hfree : first fun i => decide (m (inUseAddr g i) = 0) with _ | i
  · refine ⟨T, .full hnew (h.distinct.ncard_keys_eq_iff.2 fun i hi => ?_), Or.inl rfl, h⟩
    exact of_decide_eq_false (first_eq_none_iff.1 hfree i) ((h.shows.slot_eq_none_iff i).1 hi)
  have hmark : m (inUseAddr g i) = 0 := of_decide_eq_true (first_of_some hfree)
  have hslot : T i = none := (h.shows.slot_eq_none_iff i).2 hmark
  have hroom : (keys (toMap T)).ncard ≠ maxDirs := fun hc =>
    h.distinct.ncard_keys_eq_iff.1 hc i hslot
  have hshort : name.bytes.length ≤ 63 := hfits.resolve_right hroom
  have hlen := name.length_lt
  set ino := load32 m g.nextIno
  have hino : load32 (setDir g m i name.bytes) (inoAddr g i) = ino := setDir_ino hlen
  have hnext : load32 (setDir g m i name.bytes) g.nextIno = ino + 1 := setDir_nextIno hlen
  have hcount := h.count
  have hempty : {j | T j ≠ none}.ncard < maxDirs := by
    refine Nat.lt_of_le_of_ne ?_ fun hc => hroom (h.distinct.ncard_keys.trans hc)
    exact (Set.ncard_le_ncard (Set.subset_univ _)).trans (by simp [Set.ncard_univ])
  have hsucc : (ino + 1).toNat = ino.toNat + 1 := by
    have : ino.toNat < 2 + 8 := by
      rw [hcount]
      exact Nat.add_lt_add_left hempty 2
    bv_omega
  refine ⟨Function.update T i (some (name.bytes, ino)), ?_, Or.inr ⟨i, hmark, fun x hx hn => ?_⟩,
    h.shows.setDir hshort name.nul i, h.distinct.fill hnew i, ?_, ?_⟩
  · simp only [hino]
    rw [h.distinct.toMap_fill hnew hslot]
    refine .added hnew hroom fun other hother => ?_
    obtain ⟨j, hj⟩ := h.distinct.toMap_eq_some_iff.1 hother
    exact absurd (h.below j other ino hj) (BitVec.lt_irrefl _)
  · exact setDir_of_not_within hlen (by rwa [span_short hshort]) hn
  · intro j other n hj
    rw [hnext, BitVec.lt_def, hsucc]
    by_cases hji : j = i
    · rw [hji, Function.update_self] at hj
      obtain ⟨-, rfl⟩ := Prod.mk.inj (Option.some.inj hj)
      exact Nat.lt_succ_self _
    · rw [Function.update_of_ne hji] at hj
      exact Nat.lt_succ_of_lt (BitVec.lt_def.1 (h.below j other n hj))
  · have hset : {j | Function.update T i (some (name.bytes, ino)) j ≠ none} =
        insert i {j | T j ≠ none} := by
      ext j
      by_cases hji : j = i
      · simp [hji]
      · simp [hji]
    rw [hnext, hsucc, hcount, hset, Set.ncard_insert_of_notMem (by simp [hslot]), Nat.add_assoc]

/-! ## Runs -/

/-- `g_dirs` and `g_next_ino` as the image has them. -/
structure Boot (g : Globals) (m : Mem) : Prop where
  dirs : ∀ x, Within x g.dirs (maxDirs * 72) → m x = 0
  nextIno : load32 m g.nextIno = 2

theorem Boot.invariant (h : Boot g m) : Invariant g m fun _ => none where
  shows i := by
    refine h.dirs _ ?_
    have hi : i.val < 8 := i.isLt
    have hbyte : i.val * 72 + 66 < 8 * 72 := by omega
    have haddr : inUseAddr g i = g.dirs + BitVec.ofNat 64 (i.val * 72 + 66) := by
      rw [BitVec.ofNat_add, ← BitVec.add_assoc]
      rfl
    rw [haddr]
    exact within_add _ hbyte (by decide)
  distinct := distinct_empty
  below _ _ _ hi := nomatch hi
  count := by
    rw [h.nextIno]
    simp

/-- The calls act on the map of the table, each from the one before. -/
theorem Invariant.actsAsMap {m : Mem} {T : NameTable.Table maxDirs (List U8) U32} {calls : List Call}
    (h : Invariant g m T) : ActsAsMap g Fits m (toMap T) calls := by
  induction calls generalizing m T with
  | nil => trivial
  | cons c cs ih =>
    intro hfits
    cases c with
    | lookup name => exact ⟨toMap T, h.lookup name, Or.inl rfl, ih h⟩
    | mkdir name =>
      obtain ⟨T', hstep, hframe, h'⟩ := h.mkdir name hfits
      exact ⟨toMap T', hstep, hframe, ih h'⟩

/-- From the image on, as long as a name that takes a structure has at most 63 bytes, the calls answer
and act as on a finite map. -/
theorem initfs_is_finite_map (h : Boot g m) (calls : List Call) :
    ActsAsMap g Fits m (fun _ => none) calls := by
  have hempty : toMap (fun _ => none : NameTable.Table maxDirs (List U8) U32) = fun _ => none :=
    funext fun _ => toMap_empty
  exact hempty ▸ h.invariant.actsAsMap

/-- An image with `g_next_ino` at 0x1000 and `g_dirs` at 0x2000. -/
def sampleGlobals : Globals where
  dirs := 0x2000
  nextIno := 0x1000
  apart := by
    intro x hx hn
    unfold Within at hx hn
    bv_omega

def sampleBoot : Mem := Function.update (fun _ => 0) 0x1000 2

theorem sampleBoot_boot : Boot sampleGlobals sampleBoot where
  dirs x hx := by
    refine Function.update_of_ne ?_ ..
    rintro rfl
    revert hx
    decide
  nextIno := by decide +kernel

/-- `n` letters. -/
def letters (n : ℕ) (h : 0 < n ∧ n < 256) : Name where
  bytes := List.replicate n 97
  ne_nil := by
    rw [Ne, List.replicate_eq_nil_iff]
    omega
  length_lt := by
    rw [List.length_replicate]
    exact h.2
  nul hm := absurd (List.eq_of_mem_replicate hm) (by decide)

theorem initfs_is_finite_map_sample : ActsAsMap sampleGlobals Fits sampleBoot (fun _ => none)
    [.mkdir (letters 63 (by decide)), .lookup (letters 63 (by decide))] :=
  initfs_is_finite_map sampleBoot_boot _

/-- A directory with a name of 64 letters is made and is not found : its length is written where `kstrcmp`
expects the 0. -/
theorem long_name_is_lost : ∃ g m calls, Boot g m ∧
    ¬ActsAsMap g (fun _ _ => True) m (fun _ => none) calls := by
  refine ⟨sampleGlobals, sampleBoot,
    [.mkdir (letters 64 (by decide)), .lookup (letters 64 (by decide))], sampleBoot_boot, fun h => ?_⟩
  obtain ⟨M, hmkdir, -, hrest⟩ := h trivial
  obtain ⟨M', hlookup, -⟩ := hrest trivial
  have hmade : (perform sampleGlobals sampleBoot (.mkdir (letters 64 (by decide)))).2 = ⟨OK, some 2⟩ := by
    decide +kernel
  have hlost : (perform sampleGlobals
      (perform sampleGlobals sampleBoot (.mkdir (letters 64 (by decide)))).1
      (.lookup (letters 64 (by decide)))).2 = ⟨Vfs.ENOENT, none⟩ := by
    decide +kernel
  rw [hmade] at hmkdir
  rw [hlost] at hlookup
  cases hmkdir
  cases hlookup with
  | absent habsent => simp at habsent

end Initfs

end Jeos
