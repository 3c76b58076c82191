import Jeos.Ext2Bounds

/-!
# Directories that are tiled by entries

`Tiled m p ei 0 os` is a directory as it should be : from offset 0 on its bytes are entries at the
offsets `os`, each with room for its name and inside its block, up to the size.

Calling `ext2_readdir` again and again from position 0 gives the entries at `os` that are not
deleted, in order, and then `VFS_ENOENT`, and `ext2_lookup` finds the first of them with the name
(`readdir_lookup_agree`).
-/

set_option linter.unusedSectionVars false

namespace Jeos.Ext2

open ByteMemory StateRun Chain

section Tiled

variable (m : Machine) (p : Ext2Priv) (ei : Ext2Inode)

/-- From offset `o` on the directory is tiled by entries at the offsets `os`. -/
inductive Tiled : ℕ → List ℕ → Prop
  | done {o : ℕ} : ei.sizeLow.toNat ≤ o → Tiled o []
  | entry {o : ℕ} {os : List ℕ} : o < ei.sizeLow.toNat →
      dirBlock m p ei (BitVec.ofNat 32 o) ≠ 0 →
      8 + (dirEntry m p ei (BitVec.ofNat 32 o)).nameLen.toNat ≤
        (dirEntry m p ei (BitVec.ofNat 32 o)).recLen.toNat →
      o % p.blockSize.toNat + (dirEntry m p ei (BitVec.ofNat 32 o)).recLen.toNat ≤
        p.blockSize.toNat →
      Tiled (o + (dirEntry m p ei (BitVec.ofNat 32 o)).recLen.toNat) os → Tiled o (o :: os)

/-- The entries at the given offsets that are not deleted, as `ext2_readdir` returns them. -/
def liveEntries (os : List ℕ) : List VfsDirent :=
  (os.filter fun o => isLive m p ei (BitVec.ofNat 32 o)).map fun o =>
    direntOf m p ei (BitVec.ofNat 32 o)

/-- At most `n` calls of `ext2_readdir`, up to the one that returns no entry : the entries, and the
return value and position of the last call. -/
def readdirCalls : ℕ → U64 → Ext2M (List VfsDirent × I32 × U64)
  | 0, pos => pure ([], 0, pos)
  | n + 1, pos => do
    let (rc, pos, out) ← ext2Readdir m p ei pos
    match out with
    | none => pure ([], rc, pos)
    | some d =>
      let (ds, rc, pos) ← readdirCalls n pos
      pure (d :: ds, rc, pos)

end Tiled

section Listing

variable {m : Machine} {p : Ext2Priv} {ei : Ext2Inode} {o : ℕ} {os : List ℕ}

/-- The directories that are small enough for their offsets not to wrap. -/
def SizeOk (ei : Ext2Inode) : Prop := ei.sizeLow.toNat < 2 ^ 32 - 65535

/-- The offset of an entry of a tiled directory and of the next one. -/
theorem offset_bounds (hs : SizeOk ei) (ho : o < ei.sizeLow.toNat) :
    (BitVec.ofNat 32 o).toNat = o ∧
      o + (dirEntry m p ei (BitVec.ofNat 32 o)).recLen.toNat < 2 ^ 32 ∧
      afterEntry m p ei (BitVec.ofNat 32 o) =
        BitVec.ofNat 32 (o + (dirEntry m p ei (BitVec.ofNat 32 o)).recLen.toNat) := by
  rw [SizeOk] at hs
  have hr := (dirEntry m p ei (BitVec.ofNat 32 o)).recLen.isLt
  refine ⟨by rw [BitVec.toNat_ofNat, Nat.mod_eq_of_lt (by omega)], by omega, ?_⟩
  rw [afterEntry, BitVec.ofNat_add, BitVec.ofNat_toNat]

/-- At the end of the directory there is no entry. -/
theorem not_here_of_le (ho : o < 2 ^ 32) (h : ei.sizeLow.toNat ≤ o) :
    ¬Here m p ei (BitVec.ofNat 32 o) := fun hh => by
  have hlt := BitVec.lt_def.1 hh.1
  rw [BitVec.toNat_ofNat, Nat.mod_eq_of_lt ho] at hlt
  omega

/-- What a tiled directory has at an offset. -/
theorem tile_entry (hs : SizeOk ei) (ho : o < ei.sizeLow.toNat)
    (hb : dirBlock m p ei (BitVec.ofNat 32 o) ≠ 0)
    (hr : 8 + (dirEntry m p ei (BitVec.ofNat 32 o)).nameLen.toNat ≤
      (dirEntry m p ei (BitVec.ofNat 32 o)).recLen.toNat)
    (hin : o % p.blockSize.toNat + (dirEntry m p ei (BitVec.ofNat 32 o)).recLen.toNat ≤
      p.blockSize.toNat) :
    Entry m p ei (BitVec.ofNat 32 o) ∧ HeadIn p (BitVec.ofNat 32 o) ∧
      NameIn m p ei (BitVec.ofNat 32 o) := by
  obtain ⟨ho', -, -⟩ := offset_bounds (m := m) (p := p) hs ho
  have hi : inBlock p (BitVec.ofNat 32 o) = o % p.blockSize.toNat := by rw [inBlock, ho']
  refine ⟨⟨⟨BitVec.lt_def.2 (ho'.symm ▸ ho), hb⟩, BitVec.le_def.2 ?_⟩, ?_, ?_⟩
  · exact le_trans (show (8 : U16).toNat ≤ 8 from le_rfl) (by omega)
  · rw [HeadIn, hi]
    omega
  · rw [NameIn, hi]
    omega

/-- A reader of a tiled directory stops at the first offset where it wants to, or at the end. -/
theorem Tiled.split (hs : SizeOk ei) (stop : U32 → Bool) (h : Tiled m p ei o os)
    (ho : o < 2 ^ 32) :
    (∃ e, Visits (nextEntry m p ei stop) (BitVec.ofNat 32 o) e ∧ ¬Entry m p ei e ∧
      ∀ x ∈ os, stop (BitVec.ofNat 32 x) = false) ∨
    ∃ pre x post, os = pre ++ x :: post ∧ (∀ y ∈ pre, stop (BitVec.ofNat 32 y) = false) ∧
      stop (BitVec.ofNat 32 x) = true ∧
      Visits (nextEntry m p ei stop) (BitVec.ofNat 32 o) (BitVec.ofNat 32 x) ∧
      Entry m p ei (BitVec.ofNat 32 x) ∧ NameIn m p ei (BitVec.ofNat 32 x) ∧
      x < ei.sizeLow.toNat ∧
      Tiled m p ei (x + (dirEntry m p ei (BitVec.ofNat 32 x)).recLen.toNat) post := by
  induction h with
  | @done o hle =>
    refine Or.inl ⟨_, .refl, fun he => not_here_of_le ho hle he.1, fun x hx => ?_⟩
    exact absurd hx List.not_mem_nil
  | @entry o os hlt hb hr hin ht ih =>
    obtain ⟨he, -, hname⟩ := tile_entry hs hlt hb hr hin
    obtain ⟨-, ho', hafter⟩ := offset_bounds (m := m) (p := p) hs hlt
    rcases Bool.eq_false_or_eq_true (stop (BitVec.ofNat 32 o)) with hstop | hstop
    · exact Or.inr ⟨[], o, os, rfl, fun y hy => absurd hy List.not_mem_nil, hstop, .refl, he,
        hname, hlt, ht⟩
    · have hnext : nextEntry m p ei stop _ = some _ := nextEntry_of he hstop
      rw [hafter] at hnext
      rcases ih ho' with ⟨e, hv, hne, hall⟩ | ⟨pre, x, post, rfl, hpre, hx, hv, hrest⟩
      · exact Or.inl ⟨e, .head hnext hv, hne, List.forall_mem_cons.2 ⟨hstop, hall⟩⟩
      · exact Or.inr ⟨o :: pre, x, post, rfl, List.forall_mem_cons.2 ⟨hstop, hpre⟩, hx,
          .head hnext hv, hrest⟩

/-- The chain of a tiled directory ends. -/
theorem Tiled.ends (hs : SizeOk ei) (stop : U32 → Bool) (h : Tiled m p ei o os)
    (ho : o < 2 ^ 32) : ∃ k, Ends (nextEntry m p ei stop) k (BitVec.ofNat 32 o) := by
  rcases h.split hs stop ho with ⟨e, hv, hne, -⟩ | ⟨pre, x, post, -, -, hx, hv, -⟩
  · exact Ends.of_visits hv (.stop (nextEntry_eq_none.2 fun he => absurd he hne))
  · exact Ends.of_visits hv (.stop (nextEntry_eq_none.2 fun _ => hx))

/-- The headers and names of a tiled directory are in their blocks. -/
theorem Tiled.namesIn (hs : SizeOk ei) (stop : U32 → Bool) (h : Tiled m p ei o os)
    (ho : o < 2 ^ 32) : NamesIn m p ei stop (BitVec.ofNat 32 o) := by
  induction h with
  | @done o hle =>
    have hne := not_here_of_le (m := m) (p := p) ho hle
    have hat : ∀ e, Visits (nextEntry m p ei stop) (BitVec.ofNat 32 o) e → ¬Here m p ei e :=
      fun e hv => by
        rcases hv.eq_or_head with rfl | ⟨b, hb, -⟩
        · exact hne
        · exact absurd (nextEntry_eq_some hb).1.1 hne
    exact ⟨fun e hv hh => absurd hh (hat e hv), fun e hv he => absurd he.1 (hat e hv)⟩
  | @entry o os hlt hb hr hin ht ih =>
    obtain ⟨he, hhead, hname⟩ := tile_entry hs hlt hb hr hin
    obtain ⟨-, ho', hafter⟩ := offset_bounds (m := m) (p := p) hs hlt
    have hrest := ih ho'
    rw [← hafter] at hrest
    refine ⟨fun e hv hh => ?_, fun e hv he hl => ?_⟩
    · rcases hv.eq_or_head with rfl | ⟨b, hn, hv⟩
      · exact hhead
      · obtain ⟨-, -, rfl⟩ := nextEntry_eq_some hn
        exact hrest.head e hv hh
    · rcases hv.eq_or_head with rfl | ⟨b, hn, hv⟩
      · exact hname
      · obtain ⟨-, -, rfl⟩ := nextEntry_eq_some hn
        exact hrest.name e hv he hl

/-! ### Listing -/

theorem liveEntries_append (os os' : List ℕ) : liveEntries m p ei (os ++ os') =
    liveEntries m p ei os ++ liveEntries m p ei os' := by
  rw [liveEntries, List.filter_append, List.map_append]
  rfl

theorem liveEntries_of_dead (h : ∀ x ∈ os, isLive m p ei (BitVec.ofNat 32 x) = false) :
    liveEntries m p ei os = [] := by
  rw [liveEntries, List.filter_eq_nil_iff.2 fun x hx => by rw [h x hx]; exact Bool.false_ne_true]
  rfl

theorem liveEntries_cons {x : ℕ} (h : isLive m p ei (BitVec.ofNat 32 x) = true) :
    liveEntries m p ei (x :: os) = direntOf m p ei (BitVec.ofNat 32 x) :: liveEntries m p ei os := by
  have hfilter : List.filter (fun o => isLive m p ei (BitVec.ofNat 32 o)) (x :: os) =
      x :: List.filter (fun o => isLive m p ei (BitVec.ofNat 32 o)) os := List.filter_cons_of_pos h
  rw [liveEntries, hfilter]
  rfl

theorem setWidth_offset (o : ℕ) : (BitVec.ofNat 64 o).setWidth 32 = BitVec.ofNat 32 o := by
  refine BitVec.eq_of_toNat_eq ?_
  rw [BitVec.toNat_setWidth, BitVec.toNat_ofNat, BitVec.toNat_ofNat,
    Nat.mod_mod_of_dvd _ (by norm_num)]

/-- A call of `ext2_readdir` at an offset of a tiled directory returns the next entry that is not
deleted, and the offset after it. -/
theorem Tiled.readdir (hg : Geometry m p) (hok : ∀ k, m.status k = 0)
    (halloc : ∀ k n, m.alloc k n = true) (hs : SizeOk ei) (h : Tiled m p ei o os) (ho : o < 2 ^ 32)
    (s : Io) : ∃ r t, ext2Readdir m p ei (BitVec.ofNat 64 o) s = some (r, t) ∧
      (r = (enoent, BitVec.ofNat 64 o, none) ∧ liveEntries m p ei os = [] ∨
        ∃ d o' post, r = (0, BitVec.ofNat 64 o', some d) ∧ o' < 2 ^ 32 ∧ Tiled m p ei o' post ∧
          liveEntries m p ei os = d :: liveEntries m p ei post) := by
  have hoff := setWidth_offset o
  obtain ⟨k, hk⟩ := h.ends hs (isLive m p ei) ho
  obtain ⟨r, t, hrun, -, hcase⟩ := ext2Readdir_spec hg hok (hoff.symm ▸ hk)
    (hoff.symm ▸ (h.namesIn hs (isLive m p ei) ho).head) s
  rw [hoff] at hcase
  obtain ⟨e, hve, hres⟩ := hcase.resolve_left fun ⟨⟨k, n, hk⟩, _⟩ => absurd (halloc k n) (by
    rw [hk]
    exact Bool.false_ne_true)
  refine ⟨r, t, hrun, ?_⟩
  have hend : nextEntry m p ei (isLive m p ei) e = none := by
    rcases hres with ⟨-, hl, -⟩ | ⟨hne, -⟩
    · exact nextEntry_eq_none.2 fun _ => hl
    · exact nextEntry_eq_none.2 fun he => absurd he hne
  rcases h.split hs (isLive m p ei) ho with
    ⟨e', hv, hne, hdead⟩ | ⟨pre, x, post, rfl, hdead, hl, hv, he, hname, hlt, hpost⟩
  · obtain rfl := hve.end_eq hv hend (nextEntry_eq_none.2 fun he => absurd he hne)
    rcases hres with ⟨he, -⟩ | ⟨-, hr⟩
    · exact absurd he hne
    · exact Or.inl ⟨hr, liveEntries_of_dead hdead⟩
  · obtain rfl := hve.end_eq hv hend (nextEntry_eq_none.2 fun _ => hl)
    obtain ⟨-, hlt', hafter⟩ := offset_bounds (m := m) (p := p) hs hlt
    rcases hres with ⟨-, -, d, hr, hd, -⟩ | ⟨hne, -⟩
    · refine Or.inr ⟨d, _, post, ?_, hlt', hpost, ?_⟩
      · rw [hr, hafter]
        refine congrArg (fun a => (_, a, _)) (BitVec.eq_of_toNat_eq ?_)
        rw [BitVec.toNat_setWidth, BitVec.toNat_ofNat, BitVec.toNat_ofNat, Nat.mod_eq_of_lt hlt']
      · rw [liveEntries_append, liveEntries_of_dead hdead, List.nil_append, liveEntries_cons hl,
          hd hname]
    · exact absurd he hne

/-- Calling `ext2_readdir` until it returns no entry. -/
theorem Tiled.readdirCalls (hg : Geometry m p) (hok : ∀ k, m.status k = 0)
    (halloc : ∀ k n, m.alloc k n = true) (hs : SizeOk ei) (n : ℕ) : ∀ {o os}, Tiled m p ei o os →
      o < 2 ^ 32 → (liveEntries m p ei os).length < n → ∀ s, ∃ pos t,
        readdirCalls m p ei n (BitVec.ofNat 64 o) s =
          some ((liveEntries m p ei os, enoent, pos), t) := by
  induction n with
  | zero => exact fun _ _ h => absurd h (Nat.not_lt_zero _)
  | succ n ih =>
    intro o os h ho hn s
    obtain ⟨r, t, hrun, hcase⟩ := h.readdir hg hok halloc hs ho s
    rw [Ext2.readdirCalls, bind_of hrun]
    rcases hcase with ⟨rfl, hnil⟩ | ⟨d, o', post, rfl, ho', hpost, hcons⟩
    · rw [hnil]
      exact ⟨_, t, rfl⟩
    · rw [hcons] at hn ⊢
      obtain ⟨pos, u, hrest⟩ := ih hpost ho' (Nat.lt_of_succ_lt_succ hn) t
      refine ⟨pos, u, ?_⟩
      dsimp only
      rw [bind_of hrest]
      rfl

/-! ### Looking up -/

/-- The entry of the listing with the name. -/
def findEntry (ds : List VfsDirent) (name : List U8) : Option VfsDirent :=
  ds.find? fun d => d.name = name ++ [0]

theorem findEntry_of_not {name : List U8}
    (h : ∀ x ∈ os, isEntry m p ei name (BitVec.ofNat 32 x) = false) :
    findEntry (liveEntries m p ei os) name = none := by
  refine List.find?_eq_none.2 fun d hd hname => ?_
  obtain ⟨x, hx, rfl⟩ := List.mem_map.1 hd
  obtain ⟨hx, hl⟩ := List.mem_filter.1 hx
  have hn : dirName m p ei (BitVec.ofNat 32 x) = name :=
    List.append_cancel_right (of_decide_eq_true hname)
  have hf := h x hx
  rw [isEntry, hl, Bool.true_and, decide_eq_true hn] at hf
  exact Bool.false_ne_true hf.symm

/-- A lookup in a tiled directory finds the first entry of the listing with the name. -/
theorem Tiled.lookup (hg : Geometry m p) (hok : ∀ k, m.status k = 0)
    (halloc : ∀ k n, m.alloc k n = true) (hipg : p.inodesPerGroup ≠ 0) (hs : SizeOk ei)
    (h : Tiled m p ei 0 os) (name : List U8) (s : Io) :
    ∃ r t, ext2Lookup m p ei name s = some (r, t) ∧
      (findEntry (liveEntries m p ei os) name = none ∧ r = (enoent, none) ∨
        ∃ d vino, findEntry (liveEntries m p ei os) name = some d ∧ r = (0, some vino) ∧
          vino.ino = d.ino) := by
  have h0 : 0 < 2 ^ 32 := by norm_num
  obtain ⟨k, hk⟩ := h.ends hs (isEntry m p ei name) h0
  obtain ⟨r, t, hrun, -, hcase⟩ := ext2Lookup_spec hg hok hipg hk
    (h.namesIn hs (isEntry m p ei name) h0) s
  obtain ⟨e, hve, hres⟩ := hcase.resolve_left fun ⟨k, n, hk⟩ => absurd (halloc k n) (by
    rw [hk]
    exact Bool.false_ne_true)
  refine ⟨r, t, hrun, ?_⟩
  have hend : nextEntry m p ei (isEntry m p ei name) e = none := by
    rcases hres with ⟨-, hl, -⟩ | ⟨hne, -⟩
    · exact nextEntry_eq_none.2 fun _ => hl
    · exact nextEntry_eq_none.2 fun he => absurd he hne
  rcases h.split hs (isEntry m p ei name) h0 with
    ⟨e', hv, hne, hnot⟩ | ⟨pre, x, post, rfl, hnot, hx, hv, he, -⟩
  · obtain rfl := hve.end_eq hv hend (nextEntry_eq_none.2 fun he => absurd he hne)
    rcases hres with ⟨he, -⟩ | ⟨-, hr⟩
    · exact absurd he hne
    · exact Or.inl ⟨findEntry_of_not hnot, hr⟩
  · obtain rfl := hve.end_eq hv hend (nextEntry_eq_none.2 fun _ => hx)
    rcases hres with ⟨-, -, vino, hr, hino, -⟩ | ⟨hne, -⟩
    · have hname : dirName m p ei (BitVec.ofNat 32 x) = name :=
        of_decide_eq_true (Bool.and_eq_true_iff.1 hx).2
      refine Or.inr ⟨direntOf m p ei (BitVec.ofNat 32 x), vino, ?_, hr, hino⟩
      have hpre : (liveEntries m p ei pre).find? (fun d => d.name = name ++ [0]) = none :=
        findEntry_of_not hnot
      rw [findEntry, liveEntries_append, List.find?_append, hpre, Option.none_or,
        liveEntries_cons (isLive_of_isEntry hx)]
      exact List.find?_cons_of_pos (decide_eq_true (by rw [← hname]; rfl))
    · exact absurd he hne

/-- Listing a tiled directory gives the entries that are not deleted in order, and looking up a
name finds its first entry in that list. -/
theorem readdir_lookup_agree (hg : Geometry m p) (hok : ∀ k, m.status k = 0)
    (halloc : ∀ k n, m.alloc k n = true) (hipg : p.inodesPerGroup ≠ 0)
    (hs : ei.sizeLow.toNat < 2 ^ 32 - 65535) (h : Tiled m p ei 0 os) :
    (∀ n s, (liveEntries m p ei os).length < n → ∃ pos t,
      readdirCalls m p ei n 0 s = some ((liveEntries m p ei os, enoent, pos), t)) ∧
    ∀ name s, ∃ r t, ext2Lookup m p ei name s = some (r, t) ∧
      (findEntry (liveEntries m p ei os) name = none ∧ r = (enoent, none) ∨
        ∃ d vino, findEntry (liveEntries m p ei os) name = some d ∧ r = (0, some vino) ∧
          vino.ino = d.ino) :=
  ⟨fun n s hn => h.readdirCalls hg hok halloc hs n (by norm_num) hn s,
    fun name s => h.lookup hg hok halloc hipg hs name s⟩

end Listing

/-- Block 1 with the entry `a` of inode 5, a deleted entry and the entry `b` of inode 6. -/
def smallDirImage : ℕ → U8
  | 1024 => 5
  | 1028 => 12
  | 1030 => 1
  | 1032 => 97
  | 1040 => 12
  | 1048 => 6
  | 1052 => 0xE8
  | 1053 => 3
  | 1054 => 1
  | 1056 => 98
  | _ => 0

theorem smallDir_tiled : Tiled (goodDisk 512 smallDirImage) smallPriv (regularFile 1024 fun _ => 1) 0
    [0, 12, 24] := by
  refine .entry (by decide) (by decide) (by decide +kernel) (by decide +kernel) ?_
  rw [show 0 + _ = 12 by decide +kernel]
  refine .entry (by decide) (by decide) (by decide +kernel) (by decide +kernel) ?_
  rw [show 12 + _ = 24 by decide +kernel]
  refine .entry (by decide) (by decide) (by decide +kernel) (by decide +kernel) ?_
  exact .done (by decide +kernel)

theorem readdir_lookup_agree_sample : ∃ r t,
    ext2Lookup (goodDisk 512 smallDirImage) smallPriv (regularFile 1024 fun _ => 1) [98] Io.start =
      some (r, t) ∧ ∃ vino, r = (0, some vino) ∧ vino.ino = 6 := by
  have h := (readdir_lookup_agree (goodDisk_geometry smallDirImage) (fun _ => rfl) (fun _ _ => rfl)
    (show (8 : U32) ≠ 0 by decide) (by decide) smallDir_tiled).2 [98] Io.start
  obtain ⟨r, t, hrun, ⟨hnone, -⟩ | ⟨d, vino, hd, hr, hino⟩⟩ := h
  · exact absurd (congrArg Option.isNone hnone) (by decide +kernel)
  · refine ⟨r, t, hrun, vino, hr, hino.trans ?_⟩
    have h6 : (findEntry (liveEntries (goodDisk 512 smallDirImage) smallPriv
        (regularFile 1024 fun _ => 1) [0, 12, 24]) [98]).map (fun d => d.ino) = some 6 := by
      decide +kernel
    rw [hd] at h6
    exact Option.some.inj h6

end Jeos.Ext2
