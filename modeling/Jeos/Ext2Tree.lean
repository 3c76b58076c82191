import Jeos.Ext2Listing

/-!
# The tree of a volume

What a path means on an ext2 image, without the driver. An inode number has the inode that lies in
the inode tables (`diskInode`), a directory has the entries of its blocks (`Lists`), and a file has the
bytes of its blocks (`Contains`).

`ext2_lookup` returns the inode of the entry it has found (`Volume.lookup`).
-/

set_option linter.unusedSectionVars false

namespace Jeos.Ext2

open ByteMemory StateRun

/-- Two inodes with the same fields. What is behind the 15 pointers belongs to neither. -/
structure Ext2Inode.Same (ei ei' : Ext2Inode) : Prop where
  mode : ei.mode = ei'.mode
  sizeLow : ei.sizeLow = ei'.sizeLow
  sizeHigh : ei.sizeHigh = ei'.sizeHigh
  block : ∀ i < 15, ei.block i = ei'.block i

section Inodes

variable (m : Machine) (p : Ext2Priv)

/-- The block with an inode. -/
def inodeBlock (ino : U32) : U32 :=
  inodeTable p (inodeGroup p ino) + (ino - 1) % p.inodesPerGroup * p.inodeSize / p.blockSize

/-- The inode on the device. -/
def diskInode (ino : U32) : Ext2Inode :=
  loadInode (blockMem m p (inodeBlock p ino).toNat) ((inodeOff p ino).setWidth 64)

/-- The inode as `ext2_make_vfs_inode` makes it. -/
def diskVfsInode (ino : U32) : VfsInode :=
  ⟨ino.setWidth 64, ext2VfsMode (diskInode m p ino).mode, diskInode m p ino⟩

/-- A device that works, with memory for every buffer. -/
structure Volume : Prop where
  geometry : Geometry m p
  reads : ∀ k, m.status k = 0
  allocs : ∀ k n, m.alloc k n = true
  groups : p.inodesPerGroup ≠ 0

/-- The directory has the entries, and a name that is there twice has the first one. -/
structure Lists (ei : Ext2Inode) (entries : List U8 → Option U32) : Prop where
  size : ei.sizeLow.toNat < 2 ^ 32 - 65535
  tiled : ∃ os, Tiled m p ei 0 os ∧ ∀ name,
    entries name = (findEntry (liveEntries m p ei os) name).map fun d => d.ino.setWidth 32

/-- The file has the content, and all its blocks are allocated. -/
structure Contains (ei : Ext2Inode) (content : List U8) : Prop where
  size : ei.size.toNat ≤ maxBlocks p * p.blockSize.toNat
  allocated : ∀ k < ei.size.toNat, mapBlock m p ei (k / p.blockSize.toNat) ≠ 0
  content : content = fileBytes m p ei 0 ei.size.toNat

end Inodes

section Volume

variable {m : Machine} {p : Ext2Priv} {ei : Ext2Inode} {ino : U32} {name : List U8}
  {content : List U8}

/-! ### Inodes with the same fields -/

theorem loadInode_same {buf buf' : Mem} {a : U64} (h : ∀ x, Within x a 128 → buf x = buf' x) :
    (loadInode buf a).Same (loadInode buf' a) := by
  have h128 : 128 ≤ 2 ^ 64 := by norm_num
  refine ⟨load16_congr fun x hx => ?_, load32_congr fun x hx => ?_, load32_congr fun x hx => ?_,
    fun i hi => load32_congr fun x hx => ?_⟩
  · exact h x (hx.of_add (show 0 + 2 ≤ 128 by omega) h128)
  · exact h x (hx.of_add (show 4 + 4 ≤ 128 by omega) h128)
  · exact h x (hx.of_add (show 108 + 4 ≤ 128 by omega) h128)
  · rw [show packedAddr inode a 12 = a + BitVec.ofNat 64 40 from rfl, BitVec.add_assoc,
      ← BitVec.ofNat_add] at hx
    exact h x (hx.of_add (show 40 + 4 * i + 4 ≤ 128 by omega) h128)

theorem Ext2Inode.Same.symm {ei' : Ext2Inode} (h : ei.Same ei') : ei'.Same ei :=
  ⟨h.mode.symm, h.sizeLow.symm, h.sizeHigh.symm, fun i hi => (h.block i hi).symm⟩

theorem blockPath_slot (q n : ℕ) : (blockPath q n).1 < 15 := by
  rw [blockPath]
  split_ifs
  · omega
  · exact (by decide : 12 < 15)
  · exact (by decide : 13 < 15)
  · exact (by decide : 14 < 15)

theorem Ext2Inode.Same.mapBlock_eq {ei' : Ext2Inode} (h : ei.Same ei') :
    mapBlock m p ei = mapBlock m p ei' := by
  funext n
  rw [mapBlock, mapBlock, h.block _ (blockPath_slot _ n)]

theorem Ext2Inode.Same.dirBlock_eq {ei' : Ext2Inode} (h : ei.Same ei') :
    dirBlock m p ei = dirBlock m p ei' := by
  funext o
  rw [dirBlock, dirBlock, h.mapBlock_eq]

theorem Ext2Inode.Same.dirEntry_eq {ei' : Ext2Inode} (h : ei.Same ei') :
    dirEntry m p ei = dirEntry m p ei' := by
  funext o
  rw [dirEntry, dirEntry, h.dirBlock_eq]

theorem Ext2Inode.Same.liveEntries_eq {ei' : Ext2Inode} (h : ei.Same ei') (os : List ℕ) :
    liveEntries m p ei os = liveEntries m p ei' os := by
  have hlive : isLive m p ei = isLive m p ei' := by
    funext o
    rw [isLive, isLive, h.dirEntry_eq]
  have hdirent : direntOf m p ei = direntOf m p ei' := by
    funext o
    rw [direntOf, direntOf, dirName, dirName, h.dirEntry_eq, h.dirBlock_eq]
  rw [liveEntries, liveEntries, hlive, hdirent]

theorem Ext2Inode.Same.tiled {ei' : Ext2Inode} (h : ei.Same ei') {o : ℕ} {os : List ℕ}
    (ht : Tiled m p ei o os) : Tiled m p ei' o os := by
  induction ht with
  | done hle => exact .done (h.sizeLow ▸ hle)
  | entry hlt hb hr hin _ ih =>
    rw [h.dirBlock_eq] at hb
    rw [h.dirEntry_eq] at hr hin ih
    exact .entry (h.sizeLow ▸ hlt) hb hr hin ih

theorem Ext2Inode.Same.lists {ei' : Ext2Inode} {entries : List U8 → Option U32} (h : ei.Same ei')
    (hl : Lists m p ei entries) : Lists m p ei' entries := by
  obtain ⟨os, ht, hentries⟩ := hl.tiled
  refine ⟨h.sizeLow ▸ hl.size, os, h.tiled ht, fun name => ?_⟩
  rw [hentries, h.liveEntries_eq]

theorem Ext2Inode.Same.size_eq {ei' : Ext2Inode} (h : ei.Same ei') : ei.size = ei'.size := by
  rw [Ext2Inode.size, Ext2Inode.size, h.sizeLow, h.sizeHigh]

theorem Ext2Inode.Same.contains {ei' : Ext2Inode} (h : ei.Same ei')
    (hc : Contains m p ei content) : Contains m p ei' content := by
  have hbyte : fileByte m p ei = fileByte m p ei' := by
    funext k
    rw [fileByte, fileByte, h.mapBlock_eq]
  refine ⟨h.size_eq ▸ hc.size, fun k hk => ?_, ?_⟩
  · rw [← h.mapBlock_eq]
    exact hc.allocated k (h.size_eq ▸ hk)
  · rw [hc.content, fileBytes, fileBytes, hbyte, h.size_eq]

/-- Reading a file in pieces gives its content, up to the end. -/
theorem Contains.readChunks (hv : Volume m p) (hc : Contains m p ei content) (counts : List U64)
    (s : Io) (hov : (counts.map BitVec.toNat).sum < 2 ^ 64) :
    ∃ t, readChunks m p ei counts 0 s = some ((content.take (counts.map BitVec.toNat).sum,
      BitVec.ofNat 64 (min (counts.map BitVec.toNat).sum content.length)), t) := by
  have hov' : (0 : U64).toNat + (counts.map BitVec.toNat).sum < 2 ^ 64 := by
    rw [show (0 : U64).toNat = 0 from rfl, Nat.zero_add]
    exact hov
  obtain ⟨t, hrun⟩ := readChunks_eq hv.geometry hv.reads (fun k => hv.allocs k 1) hc.size counts 0 s
    hov'
  generalize (counts.map BitVec.toNat).sum = n at hrun
  have hlen : readLen m p ei 0 n = min n ei.size.toNat := by
    rw [readLen, Nat.sub_zero]
    refine readable_eq (Nat.le_refl _) (fun i hi => ?_) (Or.inl rfl)
    rw [Nat.zero_add]
    exact hc.allocated i (by omega)
  have hcontent : content.length = ei.size.toNat := by
    rw [hc.content, fileBytes, List.length_map, List.length_range]
  refine ⟨t, hrun.trans ?_⟩
  rw [show (0 : U64).toNat = 0 from rfl, hlen, hcontent]
  have htake : content.take n = fileBytes m p ei 0 (min n ei.size.toNat) := by
    rw [hc.content, fileBytes, fileBytes, ← List.map_take, List.take_range]
  rw [htake, show (0 : U64) + BitVec.ofNat 64 (min n ei.size.toNat) = _ from BitVec.zero_add _]

/-! ### Reading an inode -/

theorem readBlock_holds (hg : Geometry m p) (b : U32) (buf : Mem) :
    Returns (fun r => r.1 = 0 → Holds m p b.toNat r.2) (ext2ReadBlock m p b buf) := by
  intro s r t h
  obtain ⟨buf', hrun, hholds⟩ := readBlock_eq hg b buf s
  rw [hrun] at h
  obtain ⟨rfl, -⟩ := Prod.mk.inj (Option.some.inj h)
  exact hholds

theorem InodeIn.holds (hg : Geometry m p) (hin : InodeIn p ino) {buf : Mem} {b : ℕ}
    (hh : Holds m p b buf) (x : U64) (hx : Within x ((inodeOff p ino).setWidth 64) 128) :
    buf x = blockMem m p b x := by
  refine hh x ?_
  have hb := hg.bounds
  have hle : (inodeOff p ino).toNat + 128 ≤ p.blockSize.toNat := hin.2
  have hoff : ((inodeOff p ino).setWidth 64 : U64).toNat = (inodeOff p ino).toNat := by
    rw [BitVec.toNat_setWidth, Nat.mod_eq_of_lt (by omega)]
  rw [within_iff (by omega), hoff] at hx
  omega

/-- What `ext2_read_inode` returns for an inode that is in its block. -/
theorem Volume.readInode (hv : Volume m p) (hin : InodeIn p ino) :
    Returns (fun r => ∀ ei, r = .ok ei → ei.Same (diskInode m p ino)) (ext2ReadInode m p ino) := by
  have hne := blockSize_ne_zero hv.geometry
  rw [ext2ReadInode]
  refine .ite (fun _ => .pure fun ei h => ?_) fun _ => ?_
  · cases h
  rw [div_of_ne hv.groups, mod_of_ne hv.groups]
  simp only [pure_bind, div_of_ne hne, mod_of_ne hne]
  refine Returns.bind (.true _) fun _ _ => Returns.bind (.true _) fun buf _ => ?_
  cases buf with
  | none =>
    refine .pure fun ei h => ?_
    cases h
  | some buf =>
    refine Returns.bind (readBlock_holds hv.geometry _ buf) fun r hr => ?_
    refine .ite (fun h0 => Returns.bind (.true _) fun _ _ => .pure fun ei h => ?_)
      fun _ => .pure fun ei h => ?_
    · rw [← Except.ok.inj h]
      exact loadInode_same fun x hx => hin.holds hv.geometry (hr h0) x hx
    · cases h

/-- What the driver may return for a name : an inode of the volume. -/
def Made (m : Machine) (p : Ext2Priv) (r : I32 × Option VfsInode) : Prop :=
  ∀ v, r.2 = some v → ∃ ino : U32, v.ino = ino.setWidth 64 ∧
    (InodeIn p ino → v.mode = ext2VfsMode (diskInode m p ino).mode ∧
      v.priv.Same (diskInode m p ino))

theorem Made.none (c : I32) : Made m p (c, none) := fun v h => by
  cases h

theorem makeVfsInode_fields (ino : U32) (ei : Ext2Inode) :
    Returns (fun r => ∀ v, r = some v →
      v.ino = ino.setWidth 64 ∧ v.mode = ext2VfsMode ei.mode ∧ v.priv = ei)
      (ext2MakeVfsInode m ino ei) := by
  rw [ext2MakeVfsInode]
  refine Returns.bind (.true _) fun r _ => ?_
  cases r with
  | none =>
    refine .pure fun v h => ?_
    cases h
  | some _ =>
    refine Returns.bind (.true _) fun r _ => ?_
    cases r with
    | none =>
      refine .pure fun v h => ?_
      cases h
    | some _ =>
      refine .pure fun v h => ?_
      rw [← Option.some.inj h]
      exact ⟨rfl, rfl, rfl⟩

theorem Volume.foundEntry (hv : Volume m p) (ino : U32) :
    Returns (Made m p) (foundEntry m p ino) := by
  have hread : Returns (fun r => ∀ ei, r = .ok ei → InodeIn p ino → ei.Same (diskInode m p ino))
      (ext2ReadInode m p ino) := fun s r t h ei hr hin => hv.readInode hin s r t h ei hr
  refine Returns.bind hread fun r hr => ?_
  cases r with
  | error _ => exact .pure (.none _)
  | ok ei =>
    refine Returns.bind (makeVfsInode_fields ino ei) fun r hmade => ?_
    cases r with
    | none => exact .pure (.none _)
    | some vino =>
      refine .pure fun v h => ?_
      obtain rfl := Option.some.inj h
      obtain ⟨hino, hmode, hpriv⟩ := hmade vino rfl
      refine ⟨ino, hino, fun hin => ?_⟩
      have hsame := hr ei rfl hin
      exact ⟨by rw [hmode, hsame.mode], hpriv ▸ hsame⟩

theorem Volume.lookupLoop (hv : Volume m p) (ei : Ext2Inode) (name : List U8) (n : ℕ) :
    ∀ curBlk o buf, Returns (Made m p) (lookupLoop m p ei name n curBlk o buf) := by
  induction n with
  | zero => exact fun _ _ _ _ _ _ h => by cases h
  | succ n ih =>
    intro curBlk o buf
    by_cases hlt : o < ei.sizeLow
    · rw [lookupLoop_round hv.geometry hlt]
      refine Returns.bind (.true _) fun r _ => ?_
      cases r with
      | none => exact .pure (.none _)
      | some buf =>
        refine Returns.bind (.true _) fun _ _ => .ite (fun _ => .pure (.none _)) fun _ => ?_
        exact Returns.bind (.true _) fun _ _ => .ite (fun _ => hv.foundEntry _) fun _ => ih _ _ _
    · rw [Ext2.lookupLoop, if_neg hlt]
      exact .pure (.none _)

theorem Volume.ext2Lookup (hv : Volume m p) (ei : Ext2Inode) (name : List U8) :
    Returns (Made m p) (ext2Lookup m p ei name) := by
  refine Returns.bind (.true _) fun r _ => ?_
  cases r with
  | none => exact .pure (.none _)
  | some buf => exact hv.lookupLoop ei name loopFuel _ _ _

/-- `ext2_lookup` finds the inode of the entry, or there is no entry with the name. -/
theorem Volume.lookup (hv : Volume m p) {entries : List U8 → Option U32}
    (hl : Lists m p ei entries) (name : List U8) (s : Io) :
    ∃ r t, Ext2.ext2Lookup m p ei name s = some (r, t) ∧
      match entries name with
      | none => r = (enoent, none)
      | some ino => ∃ v, r = (0, some v) ∧ v.ino = ino.setWidth 64 ∧
          (InodeIn p ino → v.mode = ext2VfsMode (diskInode m p ino).mode ∧
            v.priv.Same (diskInode m p ino)) := by
  obtain ⟨os, ht, hentries⟩ := hl.tiled
  obtain ⟨r, t, hrun, hcase⟩ := ht.lookup hv.geometry hv.reads hv.allocs hv.groups hl.size name s
  refine ⟨r, t, hrun, ?_⟩
  rw [hentries]
  rcases hcase with ⟨hnone, rfl⟩ | ⟨d, v, hd, rfl, hino⟩
  · rw [hnone]
    rfl
  · obtain ⟨ino, hino', hmade⟩ := hv.ext2Lookup ei name s _ t hrun v rfl
    have hd' : d.ino.setWidth 32 = ino := by
      rw [← hino, hino']
      exact BitVec.setWidth_setWidth_of_le _ (by decide)
    rw [hd, Option.map_some, hd']
    exact ⟨v, rfl, hino', hmade⟩

end Volume

end Jeos.Ext2
