import Jeos.Ext2Dir

/-!
# Directories with arbitrary bytes

The chain of a directory is followed wherever its `rec_len`s lead. `DirIn` says what has to be so
for the accesses to be in bounds : the chain ends, the headers and the names on it are in their
blocks, and the inode of each first entry with a name is in a group of the table and in its block.
The driver checks none of this, and `dirSafe_iff` says that it is exactly what is needed.

`DirSafe` is about lookups of all names, and about calls of `ext2_readdir` that start at position 0
and go on where the last one ended (`DirPos`). It asks for a result too : a chain that wraps around
in a directory of almost 4 GiB is followed for ever.
-/

set_option linter.unusedSectionVars false

namespace Jeos.Ext2

open ByteMemory StateRun Chain

/-- A device with the given content whose reads return 0. -/
abbrev okDisk (sectorSize : U32) (image : ℕ → U8) (alloc : ℕ → U64 → Bool) (behind : ℕ → Mem) :
    Machine := diskOf sectorSize image (fun _ => 0) alloc behind

/-- The positions at which `ext2_readdir` is called. -/
inductive DirPos (sectorSize : U32) (image : ℕ → U8) (p : Ext2Priv) (ei : Ext2Inode) : U64 → Prop
  | start : DirPos sectorSize image p ei 0
  | next {pos pos' : U64} {alloc : ℕ → U64 → Bool} {behind : ℕ → Mem} {s t : Io} {rc : I32}
      {out : Option VfsDirent} : DirPos sectorSize image p ei pos →
      ext2Readdir (okDisk sectorSize image alloc behind) p ei pos s =
        some ((rc, pos', out), t) → DirPos sectorSize image p ei pos'

/-- All lookups in the directory and all calls that list it have their accesses in bounds. -/
def DirSafe (sectorSize : U32) (image : ℕ → U8) (p : Ext2Priv) (ei : Ext2Inode) : Prop :=
  ∀ alloc behind,
    (∀ name, Safe p (ext2Lookup (okDisk sectorSize image alloc behind) p ei name)) ∧
    ∀ pos, DirPos sectorSize image p ei pos →
      Safe p (ext2Readdir (okDisk sectorSize image alloc behind) p ei pos)

/-- A reader that stops nowhere. -/
def noStop : U32 → Bool := fun _ => false

/-- The directory keeps its readers in bounds. -/
structure DirIn (m : Machine) (p : Ext2Priv) (ei : Ext2Inode) : Prop where
  ends : ∃ n, Ends (nextEntry m p ei noStop) n 0
  names : NamesIn m p ei noStop 0
  inodes : ∀ name, InodesIn m p ei name 0

section Sufficient

variable {m : Machine} {p : Ext2Priv} {ei : Ext2Inode} {s t : Io} {o o' : U32}
  {stop : U32 → Bool} {sectorSize : U32} {image : ℕ → U8}

theorem visits_noStop (h : Visits (nextEntry m p ei stop) o o') :
    Visits (nextEntry m p ei noStop) o o' :=
  h.mono (nextEntry_mono fun _ _ => rfl)

theorem NamesIn.of_noStop (h : NamesIn m p ei noStop 0) (hv : Visits (nextEntry m p ei noStop) 0 o) :
    NamesIn m p ei stop o :=
  ⟨fun e he => h.head e (hv.trans (he.mono (nextEntry_mono fun _ _ => rfl))),
    fun e he => h.name e (hv.trans (he.mono (nextEntry_mono fun _ _ => rfl)))⟩

/-- If the chain ends, the readers get to an end from each of its entries. -/
theorem ends_at (h : ∃ n, Ends (nextEntry m p ei noStop) n 0)
    (hv : Visits (nextEntry m p ei noStop) 0 o) (stop : U32 → Bool) :
    ∃ k, Ends (nextEntry m p ei stop) k o := by
  obtain ⟨n, hn⟩ := h
  obtain ⟨k, -, hk⟩ := hn.visits hv
  have hle : ∀ a b, nextEntry m p ei stop a = some b → nextEntry m p ei noStop a = some b :=
    nextEntry_mono fun _ _ => rfl
  obtain ⟨j, -, hj⟩ := hk.mono hle
  exact ⟨j, hj⟩

/-- The positions are offsets of entries on the chain. -/
theorem DirPos.visits {alloc : ℕ → U64 → Bool} {behind : ℕ → Mem} {pos : U64}
    (hg : Geometry (okDisk sectorSize image alloc behind) p)
    (h : DirIn (okDisk sectorSize image alloc behind) p ei)
    (hpos : DirPos sectorSize image p ei pos) :
    Visits (nextEntry (okDisk sectorSize image alloc behind) p ei noStop) 0
      (pos.setWidth 32) := by
  induction hpos with
  | start => exact .refl
  | @next pos pos' alloc' behind' s t rc out _ hrun ih =>
    obtain ⟨k, hk⟩ := ends_at h.ends ih
      (isLive (okDisk sectorSize image alloc behind) p ei)
    have hg' : Geometry (okDisk sectorSize image alloc' behind') p := ⟨hg.1, hg.2, hg.3⟩
    obtain ⟨r, t', hrun', -, hcase⟩ :=
      ext2Readdir_spec hg' (fun _ => rfl) hk (h.names.of_noStop ih).head s
    obtain ⟨⟩ := hrun.symm.trans hrun'
    rcases hcase with ⟨-, hsame⟩ | ⟨e, hv, ⟨he, -, d, hr, -⟩ | ⟨-, hr⟩⟩
    · change pos' = pos at hsame
      rw [hsame]
      exact ih
    · obtain ⟨⟩ := hr
      rw [BitVec.setWidth_setWidth_of_le _ (by decide), BitVec.setWidth_eq]
      exact (ih.trans (visits_noStop hv)).step (nextEntry_of he rfl)
    · obtain ⟨⟩ := hr
      exact ih

/-- The chain depends on the content of the device only. -/
theorem DirIn.congr {alloc alloc' : ℕ → U64 → Bool} {behind behind' : ℕ → Mem}
    (h : DirIn (okDisk sectorSize image alloc behind) p ei) :
    DirIn (okDisk sectorSize image alloc' behind') p ei :=
  ⟨h.ends, ⟨h.names.head, h.names.name⟩, h.inodes⟩

theorem DirIn.dirSafe {alloc : ℕ → U64 → Bool} {behind : ℕ → Mem}
    (hg : Geometry (okDisk sectorSize image alloc behind) p) (hipg : p.inodesPerGroup ≠ 0)
    (h : DirIn (okDisk sectorSize image alloc behind) p ei) : DirSafe sectorSize image p ei := by
  intro alloc' behind'
  have hg' : Geometry (okDisk sectorSize image alloc' behind') p := ⟨hg.1, hg.2, hg.3⟩
  have h' : DirIn (okDisk sectorSize image alloc' behind') p ei := h.congr
  refine ⟨fun name s hs => ?_, fun pos hpos s hs => ?_⟩
  · obtain ⟨k, hk⟩ := ends_at h'.ends .refl (isEntry _ p ei name)
    obtain ⟨r, t, hrun, hacc, -⟩ :=
      ext2Lookup_spec hg' (fun _ => rfl) hipg hk (h'.names.of_noStop .refl) s
    exact ⟨r, t, hrun, hacc (h'.inodes name) hs⟩
  · have hv := hpos.visits hg' h'
    obtain ⟨k, hk⟩ := ends_at h'.ends hv (isLive _ p ei)
    obtain ⟨r, t, hrun, hacc, -⟩ :=
      ext2Readdir_spec hg' (fun _ => rfl) hk (h'.names.of_noStop hv).head s
    exact ⟨r, t, hrun, hacc (h'.names.of_noStop hv) hs⟩

end Sufficient

/-! ## The conditions are needed -/

section Necessary

variable {m : Machine} {p : Ext2Priv} {ei : Ext2Inode} {s t : Io} {o o' : U32} {buf : Mem}
  {sectorSize : U32} {image : ℕ → U8} {name : List U8}

theorem matchName_grows (a : Access) (start : U64) (nameLen : U8) (n : ℕ) : ∀ i,
    Keeps (fun s => a ∈ s.accesses) (matchName buf start nameLen name n i) := by
  induction n with
  | zero => exact fun _ _ _ _ _ h => nomatch h
  | succ n ih =>
    intro i
    rw [matchName]
    exact .ite (fun _ => .bind (access_grows a _) fun _ => .ite (fun _ => .pure _) fun _ => ih _)
      fun _ => .pure _

theorem readInode_grows (a : Access) (ino : U32) :
    Keeps (fun s => a ∈ s.accesses) (ext2ReadInode m p ino) := by
  rw [ext2ReadInode]
  refine .ite (fun _ => .pure _) fun _ => .bind (div_keeps (P := fun l => a ∈ l) _ _) fun _ =>
    .bind (mod_keeps (P := fun l => a ∈ l) _ _) fun _ => .bind (access_grows a _) fun _ =>
    .bind (div_keeps (P := fun l => a ∈ l) _ _) fun _ =>
    .bind (mod_keeps (P := fun l => a ∈ l) _ _) fun _ =>
    .bind (kalloc_keeps (P := fun l => a ∈ l) 1) fun r => ?_
  cases r with
  | none => exact .pure _
  | some buf =>
    exact .bind (readBlock_keeps (P := fun l => a ∈ l) _ _) fun _ =>
      .ite (fun _ => .bind (access_grows a _) fun _ => .pure _) fun _ => .pure _

theorem foundEntry_grows (a : Access) (ino : U32) :
    Keeps (fun s => a ∈ s.accesses) (foundEntry m p ino) := by
  rw [foundEntry]
  refine .bind (readInode_grows a ino) fun r => ?_
  cases r with
  | error _ => exact .pure _
  | ok ei =>
    refine .bind (fun s r t hs h => ?_) fun r => ?_
    · obtain ⟨r', t', h', hsame, -⟩ := makeVfsInode_spec (m := m) ino ei s
      obtain ⟨⟩ := h.symm.trans h'
      rwa [← hsame] at hs
    · cases r with
      | none => exact .pure _
      | some _ => exact .pure _

/-- The accesses of a lookup stay recorded. -/
theorem lookupLoop_grows (ei : Ext2Inode) (hg : Geometry m p) (a : Access) (n : ℕ) : ∀ curBlk o buf,
    Keeps (fun s => a ∈ s.accesses) (lookupLoop m p ei name n curBlk o buf) := by
  induction n with
  | zero => exact fun _ _ _ _ _ _ _ h => nomatch h
  | succ n ih =>
    intro curBlk o buf
    by_cases hlt : o < ei.sizeLow
    swap
    · rw [lookupLoop, if_neg hlt]
      exact .pure _
    rw [lookupLoop_round hg hlt]
    refine .bind (cacheBlock_grows hg.size ei _ _ _ a) fun r => ?_
    cases r with
    | none => exact .pure _
    | some buf =>
      refine .bind (access_grows a _) fun _ => .ite (fun _ => .pure _) fun _ => .bind ?_ fun _ =>
        .ite (fun _ => foundEntry_grows a _) fun _ => ih _ _ _
      rw [nameMatches]
      exact .ite (fun _ => matchName_grows a _ _ _ _) fun _ => .pure _

/-- No entry has a name of more than 255 bytes. -/
theorem nameMatches_long (hlong : 255 < name.length) (buf : Mem) (a : U64) (de : Dirent) :
    nameMatches buf a de name = pure false := by
  have hlt := de.nameLen.isLt
  exact if_neg fun h => by omega

/-- A lookup of a name that is too long goes through the whole chain. -/
theorem chain_of_lookup (hg : Geometry m p) (hok : ∀ k, m.status k = 0)
    (halloc : ∀ k n, m.alloc k n = true) (hlong : 255 < name.length) (n : ℕ) :
    ∀ {o curBlk buf s r t}, CurOk m p ei curBlk buf →
      lookupLoop m p ei name n curBlk o buf s = some (r, t) → AllIn p t →
      (∀ e, Visits (nextEntry m p ei noStop) o e → Here m p ei e → HeadIn p e) ∧
        ∃ k, Ends (nextEntry m p ei noStop) k o := by
  induction n with
  | zero => exact fun _ h => nomatch h
  | succ n ih =>
    intro o curBlk buf s r t hcur h hin
    -- Where the chain ends there is at most the header at `o`.
    have hend : ¬Entry m p ei o → (Here m p ei o → HeadIn p o) →
        (∀ e, Visits (nextEntry m p ei noStop) o e → Here m p ei e → HeadIn p e) ∧
          ∃ k, Ends (nextEntry m p ei noStop) k o := fun hne hhead => by
      have hn : nextEntry m p ei noStop o = none := nextEntry_eq_none.2 fun he => absurd he hne
      refine ⟨fun e hv => ?_, 0, .stop hn⟩
      rcases hv.eq_or_head with rfl | ⟨b, hb, -⟩
      · exact hhead
      · exact nomatch hn.symm.trans hb
    by_cases hlt : o < ei.sizeLow
    swap
    · exact hend (fun he => hlt he.1.1) fun hh => absurd hh.1 hlt
    rw [lookupLoop_round hg hlt] at h
    obtain ⟨c, u, hrun, -, hcase⟩ := fetch_spec hg hok hcur o s
    rw [bind_of hrun] at h
    rcases hcase with ⟨rfl, hwhy⟩ | ⟨buf', rfl, h0, hh, hcur'⟩
    · have h0 := hwhy.resolve_right fun ⟨k, hk⟩ => absurd (halloc k 1) (by
        rw [hk]
        exact Bool.false_ne_true)
      exact hend (fun he => he.1.2 h0) fun hh => absurd h0 hh.2
    dsimp only at h
    rw [bind_of (rfl : access _ _ = _), nameMatches_long hlong, pure_bind] at h
    have hhead : HeadIn p o := by
      refine (header_in hg).1 (hin _ ?_)
      refine Keeps.ite (I := fun s : Io => Access.block ⟨BitVec.ofNat 64 (inBlock p o), 8⟩ ∈
        s.accesses) (fun _ => .pure _) (fun _ => lookupLoop_grows ei hg _ _ _ _ _)
        _ _ _ List.mem_cons_self h
    rw [loadDirent_eq hg hh hhead] at h
    by_cases hrec : (dirEntry m p ei o).recLen < 8
    · exact hend (fun he => BitVec.not_lt.2 he.2 hrec) fun _ => hhead
    rw [if_neg hrec] at h
    obtain ⟨hheads, k, hk⟩ := ih hcur' h hin
    have hnext : nextEntry m p ei noStop o = some (afterEntry m p ei o) :=
      nextEntry_of ⟨⟨hlt, h0⟩, BitVec.not_lt.1 hrec⟩ rfl
    refine ⟨fun e hv hh => ?_, k + 1, .step hnext hk⟩
    rcases hv.eq_or_head with rfl | ⟨b, hb, hv⟩
    · exact hhead
    · obtain rfl := Option.some.inj (hnext.symm.trans hb)
      exact hheads e hv hh

/-- Every entry is on the way of a call that lists the directory. -/
theorem exists_dirPos {alloc : ℕ → U64 → Bool} {behind : ℕ → Mem}
    (hg : Geometry (okDisk sectorSize image alloc behind) p) (halloc : ∀ k n, alloc k n = true)
    (hheads : ∀ e, Visits (nextEntry (okDisk sectorSize image alloc behind) p ei noStop) 0 e →
      Here (okDisk sectorSize image alloc behind) p ei e → HeadIn p e)
    (hends : ∃ k, Ends (nextEntry (okDisk sectorSize image alloc behind) p ei noStop) k 0)
    (hv : Visits (nextEntry (okDisk sectorSize image alloc behind) p ei noStop) 0 o) :
    ∃ pos, DirPos sectorSize image p ei pos ∧
      Visits (nextEntry (okDisk sectorSize image alloc behind) p ei noStop) 0 (pos.setWidth 32) ∧
      Visits (nextEntry (okDisk sectorSize image alloc behind) p ei
        (isLive (okDisk sectorSize image alloc behind) p ei)) (pos.setWidth 32) o := by
  induction hv with
  | refl => exact ⟨0, .start, .refl, .refl⟩
  | @step b c hb hn ih =>
    obtain ⟨pos, hpos, hv, hlive⟩ := ih
    obtain ⟨he, -, rfl⟩ := nextEntry_eq_some hn
    rcases Bool.eq_false_or_eq_true (isLive (okDisk sectorSize image alloc behind) p ei b)
      with hs | hs
    · -- The call at `pos` returns the entry at `b`, and the next one starts after it.
      obtain ⟨j, hj⟩ := ends_at hends hv (isLive (okDisk sectorSize image alloc behind) p ei)
      obtain ⟨r, t, hrun, -, hcase⟩ := ext2Readdir_spec hg (fun _ => rfl) hj
        (fun e he => hheads e (hv.trans (visits_noStop he))) Io.start
      rcases hcase with ⟨⟨k, n, hk⟩, -⟩ | ⟨e, hve, h⟩
      · exact absurd (halloc k n) (by
          rw [show alloc k n = false from hk]
          exact Bool.false_ne_true)
      have hnone : nextEntry (okDisk sectorSize image alloc behind) p ei
          (isLive (okDisk sectorSize image alloc behind) p ei) e = none := by
        rcases h with ⟨-, hs, -⟩ | ⟨hne, -⟩
        · exact nextEntry_eq_none.2 fun _ => hs
        · exact nextEntry_eq_none.2 fun he => absurd he hne
      obtain rfl := hve.end_eq hlive hnone (nextEntry_eq_none.2 fun _ => hs)
      rcases h with ⟨-, -, d, rfl, -⟩ | ⟨hne, -⟩
      · have hoff : (((afterEntry (okDisk sectorSize image alloc behind) p ei e).setWidth 64 :
            U64).setWidth 32 : U32) = afterEntry (okDisk sectorSize image alloc behind) p ei e := by
          rw [BitVec.setWidth_setWidth_of_le _ (by decide), BitVec.setWidth_eq]
        refine ⟨_, hpos.next hrun, ?_⟩
        rw [hoff]
        exact ⟨hb.step hn, .refl⟩
      · exact absurd he hne
    · exact ⟨pos, hpos, hv, hlive.step (nextEntry_of he hs)⟩

theorem inodeIn_of_read {ino : U32} (ht : AllIn p t) (h : InodeRead p ino t) : InodeIn p ino := by
  have hlt := (inodeOff p ino).isLt
  have hoff : ((inodeOff p ino).setWidth 64 : U64).toNat + packedSize inode ≤ p.blockSize.toNat :=
    ht _ h.2
  rw [BitVec.toNat_setWidth, Nat.mod_eq_of_lt (by omega)] at hoff
  exact ⟨ht _ h.1, hoff⟩

/-- A directory that is safe keeps its readers in bounds. -/
theorem DirSafe.dirIn (hg : Geometry (goodDisk sectorSize image) p) (hipg : p.inodesPerGroup ≠ 0)
    (h : DirSafe sectorSize image p ei) : DirIn (goodDisk sectorSize image) p ei := by
  obtain ⟨hlookup, hreaddir⟩ := h (fun _ _ => true) fun _ _ => 0
  have hstart : AllIn p Io.start := fun a ha => absurd ha List.not_mem_nil
  have hnofail : ¬∃ k n, (goodDisk sectorSize image).alloc k n = false := fun ⟨_, _, hk⟩ =>
    Bool.false_ne_true hk.symm
  -- A name that is too long shows the headers, and that the chain ends.
  obtain ⟨hheads, hends⟩ : (∀ e, Visits (nextEntry (goodDisk sectorSize image) p ei noStop) 0 e →
      Here (goodDisk sectorSize image) p ei e → HeadIn p e) ∧
        ∃ k, Ends (nextEntry (goodDisk sectorSize image) p ei noStop) k 0 := by
    obtain ⟨r, t, hrun, hin⟩ := hlookup (List.replicate 256 0) Io.start hstart
    rw [ext2Lookup] at hrun
    obtain ⟨b, u, hb, hrun⟩ := bind_eq_some.1 hrun
    obtain ⟨buf, rfl⟩ := kalloc_returns (fun _ _ => rfl) 1 _ _ _ hb
    exact chain_of_lookup hg (fun _ => rfl) (fun _ _ => rfl)
      (by rw [List.length_replicate]; exact Nat.lt_succ_self 255) loopFuel (.start hg _) hrun hin
  have hnames : NamesIn (goodDisk sectorSize image) p ei noStop 0 := by
    refine ⟨hheads, fun o hv he hs => ?_⟩
    obtain ⟨pos, hpos, hv, hlive⟩ := exists_dirPos hg (fun _ _ => rfl) hheads hends hv
    obtain ⟨r, t, hrun, hin⟩ := hreaddir pos hpos Io.start hstart
    obtain ⟨k, hk⟩ := ends_at hends hv (isLive (goodDisk sectorSize image) p ei)
    obtain ⟨r', t', hrun', -, hcase⟩ := ext2Readdir_spec hg (fun _ => rfl) hk
      (fun e he => hheads e (hv.trans (visits_noStop he))) Io.start
    obtain ⟨⟩ := hrun.symm.trans hrun'
    obtain ⟨e, hve, h⟩ := hcase.resolve_left fun h => hnofail h.1
    have hstop : nextEntry (goodDisk sectorSize image) p ei
        (isLive (goodDisk sectorSize image) p ei) o = none := nextEntry_eq_none.2 fun _ => hs
    rcases h with ⟨-, hs', d, -, -, hmem⟩ | ⟨hne, -⟩
    · obtain rfl := hve.end_eq hlive (nextEntry_eq_none.2 fun _ => hs') hstop
      exact (name_in hg e).1 (hin _ hmem)
    · obtain rfl := hve.end_eq hlive (nextEntry_eq_none.2 fun he => absurd he hne) hstop
      exact absurd he hne
  refine ⟨hends, hnames, fun name o hv he hs => ?_⟩
  obtain ⟨r, t, hrun, hin⟩ := hlookup name Io.start hstart
  obtain ⟨k, hk⟩ := ends_at hends .refl (isEntry (goodDisk sectorSize image) p ei name)
  obtain ⟨r', t', hrun', -, hcase⟩ := ext2Lookup_spec hg (fun _ => rfl) hipg hk
    (hnames.of_noStop .refl) Io.start
  obtain ⟨⟩ := hrun.symm.trans hrun'
  obtain ⟨e, hve, h⟩ := hcase.resolve_left hnofail
  have hstop : nextEntry (goodDisk sectorSize image) p ei
      (isEntry (goodDisk sectorSize image) p ei name) o = none := nextEntry_eq_none.2 fun _ => hs
  rcases h with ⟨-, hs', vino, -, -, hread⟩ | ⟨hne, -⟩
  · obtain rfl := hve.end_eq hv (nextEntry_eq_none.2 fun _ => hs') hstop
    exact inodeIn_of_read hin hread
  · obtain rfl := hve.end_eq hv (nextEntry_eq_none.2 fun he => absurd he hne) hstop
    exact absurd he hne

theorem dirSafe_iff (hg : Geometry (goodDisk sectorSize image) p) (hipg : p.inodesPerGroup ≠ 0) :
    DirSafe sectorSize image p ei ↔ DirIn (goodDisk sectorSize image) p ei :=
  ⟨DirSafe.dirIn hg hipg, DirIn.dirSafe hg hipg⟩

end Necessary

/-- Block 1 with one entry for the inode 100, with the name `a`. -/
def farInodeImage : ℕ → U8
  | 1024 => 100
  | 1029 => 4
  | 1030 => 1
  | 1032 => 97
  | _ => 0

end Jeos.Ext2
