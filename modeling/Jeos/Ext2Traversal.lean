import Jeos.Ext2Bounds

/-!
# Where the traversal of a directory ends

The loops of `ext2_lookup` and `ext2_readdir` go from the header at offset `o` to the one at
`o + rec_len`, computed with 32 bits. Nothing bounds `rec_len` or keeps a header in its block, so
`header` reads what a loop finds, behind the block too. `following` is the way the loop takes.

A directory of almost 4 GiB can lead back to an offset where the loop has been
(`ext2_traversal_circles`). Otherwise the loops end (`ext2_traversal_ends_iff`), and they always do
when the size leaves room for one more `rec_len` below 4 GiB (`ends_of_size`).
-/

set_option linter.unusedSectionVars false

namespace Jeos.Ext2

open ByteMemory StateRun Chain

section Way

variable (m : Machine) (p : Ext2Priv) (ei : Ext2Inode) (page : Mem)

/-- The buffer with the block of offset `o`. Behind the block it is as `kalloc` left it. -/
def dirBuffer (o : U32) : Mem := fun x =>
  if x.toNat < p.blockSize.toNat then blockMem m p (dirBlock m p ei o).toNat x else page x

/-- The header that a loop finds at offset `o`. -/
def header (o : U32) : Dirent :=
  loadDirent (dirBuffer m p ei page o) (BitVec.ofNat 64 (inBlock p o))

/-- The name that a loop finds there. -/
def headerName (o : U32) : List U8 :=
  bytesAt (dirBuffer m p ei page o) (BitVec.ofNat 64 (inBlock p o) + 8)
    (header m p ei page o).nameLen.toNat

/-- The offset after `o`, unless the loop ends at `o`. -/
def following (stop : U32 → Bool) (o : U32) : Option U32 :=
  if Here m p ei o ∧ 8 ≤ (header m p ei page o).recLen ∧ stop o = false then
    some (o + (header m p ei page o).recLen.setWidth 32)
  else none

/-- `ext2_readdir` ends at an entry that is not deleted. -/
def endsReaddir (o : U32) : Bool := (header m p ei page o).inode ≠ 0

/-- `ext2_lookup` ends at an entry with the name. -/
def endsLookup (name : List U8) (o : U32) : Bool :=
  endsReaddir m p ei page o && headerName m p ei page o = name

/-- The page that the next `kalloc(1)` gives, if it gives one. -/
def freshPage (s : Io) : Mem := fill (m.behind s.allocs) 0 5 (1 * pageSize).toNat

end Way

variable {m : Machine} {p : Ext2Priv} {ei : Ext2Inode} {page buf : Mem} {s t : Io} {o o' : U32}
  {stop : U32 → Bool} {name : List U8}

theorem following_of (hh : Here m p ei o) (hrec : ¬(header m p ei page o).recLen < 8)
    (hs : stop o = false) : following m p ei page stop o =
      some (o + (header m p ei page o).recLen.setWidth 32) :=
  if_pos ⟨hh, BitVec.not_lt.1 hrec, hs⟩

theorem following_eq_none (h : Here m p ei o → ¬(header m p ei page o).recLen < 8 →
    stop o = true) : following m p ei page stop o = none := by
  refine if_neg fun ⟨hh, hrec, hs⟩ => ?_
  rw [h hh (BitVec.not_lt.2 hrec)] at hs
  exact nomatch hs

/-! ## The buffer of a loop -/

/-- Between the rounds the buffer differs from the page of `kalloc` in its block only. -/
structure BufOk (m : Machine) (p : Ext2Priv) (ei : Ext2Inode) (page : Mem) (curBlk : U32)
    (buf : Mem) : Prop where
  cur : CurOk m p ei curBlk buf
  behind : ∀ x : U64, p.blockSize.toNat ≤ x.toNat → buf x = page x

theorem BufOk.start (hg : Geometry m p) (page : Mem) : BufOk m p ei page (-1) page :=
  ⟨.start hg page, fun _ _ => rfl⟩

theorem cacheBlock_behind (hg : Geometry m p) (lbn curBlk : U32)
    (hb : ∀ x : U64, p.blockSize.toNat ≤ x.toNat → buf x = page x) :
    Returns (fun r => ∀ buf', r = some buf' →
      ∀ x : U64, p.blockSize.toNat ≤ x.toNat → buf' x = page x)
      (cacheBlock m p ei lbn curBlk buf) := by
  rw [cacheBlock]
  refine .ite (fun _ => .pure fun buf' h => ?_) fun _ => .bind (.true _) fun phys _ =>
    .ite (fun _ => .pure fun _ h => by cases h) fun _ => .bind (P := fun r : I32 × Mem =>
      ∀ x : U64, p.blockSize.toNat ≤ x.toNat → r.2 x = page x) ?_ fun r hr => ?_
  · obtain rfl := Option.some.inj h
    exact hb
  · intro s r t h x hx
    rw [readBlock_run hg] at h
    obtain ⟨⟩ := h
    dsimp only
    by_cases h0 : m.status s.reads = 0
    · rw [if_pos h0, if_neg (Nat.not_lt.2 hx)]
      exact hb x hx
    · rw [if_neg h0]
      exact hb x hx
  · obtain ⟨rc, buf'⟩ := r
    refine .ite (fun _ => .pure fun b h => ?_) fun _ => .pure fun _ h => by cases h
    obtain rfl := Option.some.inj h
    exact hr

/-- Getting the block of offset `o` : the loop ends, or the buffer is `dirBuffer`. -/
theorem fetch_buffer (hg : Geometry m p) (hok : ∀ k, m.status k = 0) {curBlk : U32}
    (hbuf : BufOk m p ei page curBlk buf) (o : U32) (s : Io) :
    ∃ r t, cacheBlock m p ei (o / p.blockSize) curBlk buf s = some (r, t) ∧
      (r = none ∧ (dirBlock m p ei o = 0 ∨ ∃ k, m.alloc k 1 = false) ∨
        r = some (dirBuffer m p ei page o) ∧ dirBlock m p ei o ≠ 0 ∧
          BufOk m p ei page (o / p.blockSize) (dirBuffer m p ei page o)) := by
  obtain ⟨r, t, hrun, -, hcase⟩ := fetch_spec hg hok hbuf.cur o s
  refine ⟨r, t, hrun, hcase.imp_right fun ⟨buf', hr, h0, hh, hcur⟩ => ?_⟩
  have hbehind := cacheBlock_behind hg _ _ hbuf.behind s r t hrun buf' hr
  have heq : buf' = dirBuffer m p ei page o := by
    funext x
    rw [dirBuffer]
    split_ifs with hx
    · exact hh x hx
    · exact hbehind x (Nat.not_lt.1 hx)
  rw [← heq]
  exact ⟨hr, h0, hcur, hbehind⟩

/-! ## The loops follow their ways -/

/-- Whether `ext2_lookup` has found its entry at `o`. -/
theorem nameMatches_header (m : Machine) (p : Ext2Priv) (ei : Ext2Inode) (page : Mem)
    (name : List U8) (o : U32) (s : Io) : ∃ t,
    nameMatches (dirBuffer m p ei page o) (BitVec.ofNat 64 (inBlock p o)) (header m p ei page o)
      name s = some (endsLookup m p ei page name o, t) := by
  rw [nameMatches]
  have hlen : (headerName m p ei page o).length = (header m p ei page o).nameLen.toNat := by
    rw [headerName, bytesAt, List.length_map, List.length_range]
  by_cases hc : (header m p ei page o).inode ≠ 0 ∧
      (header m p ei page o).nameLen.toNat = name.length
  swap
  · rw [if_neg hc]
    have hno : endsLookup m p ei page name o = false := Bool.eq_false_iff.2 fun h => by
      obtain ⟨hl, hn⟩ := Bool.and_eq_true_iff.1 h
      refine hc ⟨of_decide_eq_true hl, ?_⟩
      rw [← hlen, of_decide_eq_true hn]
    exact ⟨s, by rw [hno]; rfl⟩
  obtain ⟨b, t, hrun, hb, -⟩ := matchName_spec p (dirBuffer m p ei page o) name
    (BitVec.ofNat 64 (inBlock p o) + 8) (header m p ei page o).nameLen 256 0 s
    (by have := (header m p ei page o).nameLen.isLt; omega) (BitVec.le_def.2 (Nat.zero_le _))
  have heq : b = endsLookup m p ei page name o := by
    rw [endsLookup, show endsReaddir m p ei page o = true from decide_eq_true hc.1, Bool.true_and,
      Bool.eq_iff_iff, hb, decide_eq_true_iff, headerName, bytesAt_eq_iff hc.2]
    exact ⟨fun h j hj => h j (Nat.zero_le j) hj, fun h j _ hj => h j hj⟩
  rw [if_pos hc, ← heq]
  exact ⟨t, hrun⟩

theorem lookupLoop_traces (hg : Geometry m p) (hok : ∀ k, m.status k = 0)
    (hipg : p.inodesPerGroup ≠ 0) (ei : Ext2Inode) (page : Mem) (name : List U8) :
    Traces (following m p ei page (endsLookup m p ei page name)) (∃ k, m.alloc k 1 = false)
      (fun _ (c : U32 × Mem × Io) => BufOk m p ei page c.1 c.2.1)
      (fun n o c => lookupLoop m p ei name n c.1 o c.2.1 c.2.2) := by
  refine ⟨fun _ _ => rfl, ?_⟩
  rintro n o ⟨curBlk, buf, s⟩ hbuf
  dsimp only at hbuf ⊢
  by_cases hlt : o < ei.sizeLow
  swap
  · rw [lookupLoop, if_neg hlt]
    exact Or.inl ⟨Or.inl (following_eq_none fun hh => absurd hh.1 hlt), _, rfl⟩
  rw [lookupLoop_round hg hlt]
  obtain ⟨r, t, hrun, hcase⟩ := fetch_buffer hg hok hbuf o s
  rw [bind_of hrun]
  rcases hcase with ⟨rfl, hwhy⟩ | ⟨rfl, h0, hbuf'⟩
  · exact Or.inl ⟨hwhy.imp_left fun h => following_eq_none fun hh => absurd h hh.2, _, rfl⟩
  have hh : Here m p ei o := ⟨hlt, h0⟩
  dsimp only
  rw [bind_of (rfl : access _ _ = _)]
  by_cases hrec : (header m p ei page o).recLen < 8
  · rw [header] at hrec
    rw [if_pos hrec]
    exact Or.inl ⟨Or.inl (following_eq_none fun _ h => absurd hrec h), _, rfl⟩
  obtain ⟨u, hmatch⟩ := nameMatches_header m p ei page name o
    { t with accesses := .block ⟨BitVec.ofNat 64 (inBlock p o), 8⟩ :: t.accesses }
  rw [if_neg (by rw [header] at hrec; exact hrec)]
  rw [header] at hmatch
  rw [bind_of hmatch]
  rcases Bool.eq_false_or_eq_true (endsLookup m p ei page name o) with hs | hs
  · rw [if_pos hs]
    have hino : (header m p ei page o).inode ≠ 0 :=
      of_decide_eq_true (Bool.and_eq_true_iff.1 hs).1
    obtain ⟨r, v, hfound, -, -⟩ := foundEntry_spec hg hok hipg hino u
    exact Or.inl ⟨Or.inl (following_eq_none fun _ _ => hs), _, hfound⟩
  · rw [if_neg (by rw [hs]; exact Bool.false_ne_true)]
    exact Or.inr ⟨_, (o / p.blockSize, dirBuffer m p ei page o, u), following_of hh hrec hs,
      hbuf', rfl⟩

theorem readdirLoop_traces (hg : Geometry m p) (hok : ∀ k, m.status k = 0) (ei : Ext2Inode)
    (page : Mem) :
    Traces (following m p ei page (endsReaddir m p ei page)) (∃ k, m.alloc k 1 = false)
      (fun _ (c : U32 × Mem × Io) => BufOk m p ei page c.1 c.2.1)
      (fun n o c => readdirLoop m p ei n c.1 o c.2.1 c.2.2) := by
  refine ⟨fun _ _ => rfl, ?_⟩
  rintro n o ⟨curBlk, buf, s⟩ hbuf
  dsimp only at hbuf ⊢
  by_cases hlt : o < ei.sizeLow
  swap
  · rw [readdirLoop, if_neg hlt]
    exact Or.inl ⟨Or.inl (following_eq_none fun hh => absurd hh.1 hlt), _, rfl⟩
  rw [readdirLoop_round hg hlt]
  obtain ⟨r, t, hrun, hcase⟩ := fetch_buffer hg hok hbuf o s
  rw [bind_of hrun]
  rcases hcase with ⟨rfl, hwhy⟩ | ⟨rfl, h0, hbuf'⟩
  · exact Or.inl ⟨hwhy.imp_left fun h => following_eq_none fun hh => absurd h hh.2, _, rfl⟩
  have hh : Here m p ei o := ⟨hlt, h0⟩
  dsimp only
  rw [bind_of (rfl : access _ _ = _)]
  change _ ∧ (∃ r, (if (header m p ei page o).recLen < 8 then _ else _ : Ext2M _) _ = some r) ∨
    ∃ b t, _ ∧ _ ∧ (if (header m p ei page o).recLen < 8 then _ else _ : Ext2M _) _ = _
  by_cases hrec : (header m p ei page o).recLen < 8
  · rw [if_pos hrec]
    exact Or.inl ⟨Or.inl (following_eq_none fun _ h => absurd hrec h), _, rfl⟩
  rw [if_neg hrec]
  by_cases hlive : (header m p ei page o).inode = 0
  · rw [header] at hlive
    rw [if_pos hlive]
    exact Or.inr ⟨_, (o / p.blockSize, dirBuffer m p ei page o, _),
      following_of hh hrec (decide_eq_false (not_not_intro hlive)), hbuf', rfl⟩
  · refine Or.inl ⟨Or.inl (following_eq_none fun _ _ => decide_eq_true hlive), ?_⟩
    rw [header] at hlive
    rw [if_neg hlive]
    exact ⟨_, rfl⟩

/-! ## The loops end unless their ways come back -/

/-- Whatever `kalloc` gives, `ext2_lookup` of the name returns. -/
def LookupEnds (m : Machine) (p : Ext2Priv) (ei : Ext2Inode) (name : List U8) (s : Io) : Prop :=
  ∀ alloc, ∃ r, ext2Lookup { m with alloc } p ei name s = some r

/-- Whatever `kalloc` gives, `ext2_readdir` at position `pos` returns. -/
def ReaddirEnds (m : Machine) (p : Ext2Priv) (ei : Ext2Inode) (pos : U64) (s : Io) : Prop :=
  ∀ alloc, ∃ r, ext2Readdir { m with alloc } p ei pos s = some r

theorem Geometry.congr_alloc (hg : Geometry m p) (alloc : ℕ → U64 → Bool) :
    Geometry { m with alloc } p := ⟨hg.1, hg.2, hg.3⟩

/-- With enough fuel a loop over offsets returns unless its way comes back. -/
theorem traces_returns_iff {σ β : Type} {next : U32 → Option U32} {early : Prop}
    {I : U32 → σ → Prop} {F : ℕ → U32 → σ → Option β} {c : σ} (h : Traces next early I F)
    (hc : I o c) : (¬Circles next o → ∃ r, F loopFuel o c = some r) ∧
      (¬early → (∃ r, F loopFuel o c = some r) → ¬Circles next o) := by
  have hinj : Function.Injective fun a : U32 => a.toFin := fun _ _ hab =>
    BitVec.eq_of_toFin_eq hab
  have := Finite.of_injective _ hinj
  refine ⟨fun hno => ?_, fun hearly hr => ?_⟩
  · obtain ⟨n, hn⟩ := exists_ends_iff.2 hno
    exact h.returns_of_ends hn ((hn.lt hinj).trans (by rw [loopFuel]; norm_num)) hc
  · exact exists_ends_iff.1 ((h.returns_iff hearly hinj (by rw [loopFuel]; norm_num) hc).1 hr)

theorem kalloc_true (h : m.alloc s.allocs 1 = true) :
    kalloc m 1 s = some (some (freshPage m s), { s with allocs := s.allocs + 1 }) := by
  rw [kalloc_apply, if_pos h, freshPage]

theorem kalloc_false (h : m.alloc s.allocs 1 = false) :
    kalloc m 1 s = some (none, { s with allocs := s.allocs + 1 }) := by
  rw [kalloc_apply, if_neg (by rw [h]; exact Bool.false_ne_true)]

theorem lookupEnds_iff (hg : Geometry m p) (hok : ∀ k, m.status k = 0)
    (hipg : p.inodesPerGroup ≠ 0) (ei : Ext2Inode) (name : List U8) (s : Io) :
    LookupEnds m p ei name s ↔
      ¬Circles (following m p ei (freshPage m s) (endsLookup m p ei (freshPage m s) name)) 0 := by
  have hloop := fun alloc => traces_returns_iff
    (lookupLoop_traces (hg.congr_alloc alloc) hok hipg ei (freshPage m s) name)
    (c := (-1, freshPage m s, { s with allocs := s.allocs + 1 })) (o := 0)
    (.start (hg.congr_alloc alloc) _)
  constructor
  · intro h
    refine (hloop fun _ _ => true).2 (fun ⟨_, hk⟩ => Bool.false_ne_true hk.symm) ?_
    obtain ⟨r, hr⟩ := h fun _ _ => true
    rw [ext2Lookup, bind_of (kalloc_true rfl)] at hr
    exact ⟨r, hr⟩
  · intro hno alloc
    rw [ext2Lookup]
    rcases Bool.eq_false_or_eq_true (alloc s.allocs 1) with hk | hk
    · rw [bind_of (kalloc_true hk)]
      exact (hloop alloc).1 hno
    · rw [bind_of (kalloc_false hk)]
      exact ⟨_, rfl⟩

theorem readdirEnds_iff (hg : Geometry m p) (hok : ∀ k, m.status k = 0) (ei : Ext2Inode)
    (pos : U64) (s : Io) : ReaddirEnds m p ei pos s ↔
      ¬Circles (following m p ei (freshPage m s) (endsReaddir m p ei (freshPage m s)))
        (pos.setWidth 32) := by
  have hloop := fun alloc => traces_returns_iff
    (readdirLoop_traces (hg.congr_alloc alloc) hok ei (freshPage m s))
    (c := (-1, freshPage m s, { s with allocs := s.allocs + 1 })) (o := pos.setWidth 32)
    (.start (hg.congr_alloc alloc) _)
  by_cases hend : pos.setWidth 32 ≥ ei.sizeLow
  · refine iff_of_true (fun alloc => ?_) fun ⟨b, c, hv, hn, hcb⟩ => ?_
    · rw [ext2Readdir, if_pos hend]
      exact ⟨_, rfl⟩
    · have hnone : following m p ei (freshPage m s) (endsReaddir m p ei (freshPage m s))
          (pos.setWidth 32) = none :=
        following_eq_none fun hh => absurd hh.1 (BitVec.not_lt.2 hend)
      rcases hv.eq_or_head with rfl | ⟨d, hd, -⟩
      · cases hnone.symm.trans hn
      · cases hnone.symm.trans hd
  constructor
  · intro h
    refine (hloop fun _ _ => true).2 (by rintro ⟨_, hk⟩; exact Bool.false_ne_true hk.symm) ?_
    obtain ⟨r, hr⟩ := h fun _ _ => true
    rw [ext2Readdir, if_neg hend, bind_of (kalloc_true rfl)] at hr
    obtain ⟨out, t, hrun, -⟩ := bind_eq_some.1 hr
    exact ⟨_, hrun⟩
  · intro hno alloc
    rw [ext2Readdir, if_neg hend]
    rcases Bool.eq_false_or_eq_true (alloc s.allocs 1) with hk | hk
    · obtain ⟨⟨out, t⟩, hrun⟩ := (hloop alloc).1 hno
      rw [bind_of (kalloc_true hk)]
      change ∃ r, (readdirLoop _ p ei loopFuel (-1) _ (freshPage m s) >>= _) _ = some r
      rw [bind_of hrun]
      rcases out with _ | ⟨d, o⟩
      · exact ⟨_, rfl⟩
      · exact ⟨_, rfl⟩
    · rw [bind_of (kalloc_false hk)]
      exact ⟨_, rfl⟩

/-- The directories whose traversal ends, for every name and position : the way of the loop comes
back to no offset. -/
theorem ext2_traversal_ends_iff (hg : Geometry m p) (hok : ∀ k, m.status k = 0)
    (hipg : p.inodesPerGroup ≠ 0) (ei : Ext2Inode) (s : Io) :
    (∀ name, LookupEnds m p ei name s ↔
      ¬Circles (following m p ei (freshPage m s) (endsLookup m p ei (freshPage m s) name)) 0) ∧
    ∀ pos : U64, ReaddirEnds m p ei pos s ↔
      ¬Circles (following m p ei (freshPage m s) (endsReaddir m p ei (freshPage m s)))
        (pos.setWidth 32) :=
  ⟨fun name => lookupEnds_iff hg hok hipg ei name s, fun pos => readdirEnds_iff hg hok ei pos s⟩

/-- Below 4 GiB less one `rec_len` no offset wraps around. -/
theorem ends_of_size (h : ei.sizeLow.toNat + 65535 ≤ 2 ^ 32) (page : Mem) (stop : U32 → Bool)
    (o : U32) : ¬Circles (following m p ei page stop) o := by
  refine not_circles_of_lt BitVec.toNat (fun a b hab => ?_) o
  rw [following] at hab
  split_ifs at hab with hc
  obtain rfl := Option.some.inj hab
  have hlt := BitVec.lt_def.1 hc.1.1
  have hrec := (header m p ei page a).recLen.isLt
  have hpos := BitVec.le_def.1 hc.2.1
  change 8 ≤ (header m p ei page a).recLen.toNat at hpos
  rw [BitVec.toNat_add, BitVec.toNat_setWidth, Nat.mod_eq_of_lt (by omega),
    Nat.mod_eq_of_lt (by omega)]
  omega

/-! ## A directory that is followed for ever -/

/-- The bytes 0 and 4 in turn, so that the four bytes at an even place are `0x04000400`. -/
def alternating : ℕ → U8 := fun x => if x % 2 = 0 then 0 else 4

/-- A directory of 4 GiB less one byte, all of whose blocks and tables are the same block. -/
def wideDir : Ext2Inode := ⟨0x41ED, 0xFFFFFFFF, fun _ => 0x04000400, 0⟩

theorem blockMem_alternating (b : ℕ) (x : U64) :
    blockMem (goodDisk 512 alternating) smallPriv b x = alternating x.toNat := by
  change alternating (b * 1024 + x.toNat) = alternating x.toNat
  rw [alternating, alternating, show (b * 1024 + x.toNat) % 2 = x.toNat % 2 by omega]

theorem tablePtr_alternating {tbl : U32} (h : tbl = 0x04000400) {i : ℕ} (hi : i < 2 ^ 32) :
    tablePtr (goodDisk 512 alternating) smallPriv tbl i = 0x04000400 := by
  rw [tablePtr, if_neg (by rw [h]; decide)]
  have hbyte : ∀ k < 4, blockMem (goodDisk 512 alternating) smallPriv tbl.toNat
      (BitVec.ofNat 64 (4 * i + k)) = alternating k := fun k hk => by
    rw [blockMem_alternating, BitVec.toNat_ofNat, Nat.mod_eq_of_lt (by omega), alternating,
      alternating, show (4 * i + k) % 2 = k % 2 by omega]
  have hnext : ∀ k, BitVec.ofNat 64 (4 * i + k) + 1 = BitVec.ofNat 64 (4 * i + (k + 1)) := fun k => by
    rw [show (1 : U64) = BitVec.ofNat 64 1 from rfl, ← BitVec.ofNat_add, Nat.add_assoc]
  rw [show 4 * i = 4 * i + 0 from rfl]
  simp only [load32, readLE, hnext, hbyte _ (show 0 < 4 by decide), hbyte _ (show 1 < 4 by decide),
    hbyte _ (show 2 < 4 by decide), hbyte _ (show 3 < 4 by decide), Nat.zero_add, Nat.reduceAdd]
  decide

theorem dirBlock_alternating (o : U32) :
    dirBlock (goodDisk 512 alternating) smallPriv wideDir o = 0x04000400 := by
  have hlt := offset_lt (goodDisk_geometry alternating) o
  have hfold : ∀ (ds : List ℕ) (v : U32), (∀ i ∈ ds, i < 256) → v = 0x04000400 →
      ds.foldl (tablePtr (goodDisk 512 alternating) smallPriv) v = 0x04000400 := fun ds => by
    induction ds with
    | nil => exact fun v _ hv => hv
    | cons i ds ih =>
      intro v hds hv
      exact ih _ (fun j hj => hds j (List.mem_cons_of_mem _ hj))
        (tablePtr_alternating hv ((hds i List.mem_cons_self).trans (by norm_num)))
  exact hfold _ _ (blockPath_lt (by decide) hlt) rfl

/-- Every block of the directory starts with an entry of 1024 bytes with an empty name. -/
theorem header_alternating (page : Mem) {o : U32} (ho : o.toNat % 1024 = 0) :
    header (goodDisk 512 alternating) smallPriv wideDir page o = ⟨0x04000400, 1024, 0, 4⟩ := by
  have hin : inBlock smallPriv o = 0 := ho
  have hcongr : loadDirent (dirBuffer (goodDisk 512 alternating) smallPriv wideDir page o) 0 =
      loadDirent (fun x => alternating x.toNat) 0 := loadDirent_congr fun x hx => by
      have hlt : x.toNat < 1024 := by
        rw [within_iff (by decide)] at hx
        exact hx.2.trans_le (by decide)
      exact (if_pos hlt).trans (blockMem_alternating _ x)
  rw [header, hin]
  refine hcongr.trans ?_
  rw [loadDirent, load32, load16]
  rfl

theorem wideDir_following (page : Mem) (k : ℕ) :
    following (goodDisk 512 alternating) smallPriv wideDir page
      (endsLookup (goodDisk 512 alternating) smallPriv wideDir page [97])
      (BitVec.ofNat 32 (1024 * k)) = some (BitVec.ofNat 32 (1024 * (k + 1))) := by
  have hk : (BitVec.ofNat 32 (1024 * k)).toNat % 1024 = 0 := by
    rw [BitVec.toNat_ofNat]
    omega
  have hhead := header_alternating page hk
  have hlt : BitVec.ofNat 32 (1024 * k) < wideDir.sizeLow := by
    rw [BitVec.lt_def, BitVec.toNat_ofNat]
    change 1024 * k % 2 ^ 32 < 0xFFFFFFFF
    omega
  have hstop : endsLookup (goodDisk 512 alternating) smallPriv wideDir page [97]
      (BitVec.ofNat 32 (1024 * k)) = false := by
    rw [endsLookup, Bool.and_eq_false_iff]
    refine Or.inr (decide_eq_false fun h => ?_)
    have hlen := congrArg List.length h
    rw [headerName, hhead, bytesAt, List.length_map, List.length_range] at hlen
    exact absurd hlen (by decide)
  rw [following_of ⟨hlt, by rw [dirBlock_alternating]; decide⟩ (by rw [hhead]; decide) hstop, hhead,
    show (1024 : U16).setWidth 32 = BitVec.ofNat 32 1024 from rfl, ← BitVec.ofNat_add,
    Nat.mul_succ]

/-- From the last block of the directory the lookup goes on at the first one. -/
theorem ext2_traversal_circles :
    ¬LookupEnds (goodDisk 512 alternating) smallPriv wideDir [97] Io.start := by
  rw [lookupEnds_iff (goodDisk_geometry _) (fun _ => rfl) (show (8 : U32) ≠ 0 by decide), not_not]
  have hvisits : ∀ k, Visits (following (goodDisk 512 alternating) smallPriv wideDir
      (freshPage (goodDisk 512 alternating) Io.start) (endsLookup (goodDisk 512 alternating)
        smallPriv wideDir (freshPage (goodDisk 512 alternating) Io.start) [97])) 0
      (BitVec.ofNat 32 (1024 * k)) := fun k => by
    induction k with
    | zero => exact .refl
    | succ k ih => exact ih.step (wideDir_following _ k)
  have hlast := wideDir_following (freshPage (goodDisk 512 alternating) Io.start) 4194303
  rw [show BitVec.ofNat 32 (1024 * (4194303 + 1)) = 0 from rfl] at hlast
  exact ⟨_, 0, hvisits 4194303, hlast, hvisits 4194303⟩

theorem ext2_traversal_ends_iff_small :
    LookupEnds (goodDisk 512 farInodeImage) smallPriv (regularFile 1024 fun _ => 1) [98] Io.start :=
  ((ext2_traversal_ends_iff (goodDisk_geometry farInodeImage) (fun _ => rfl)
    (show (8 : U32) ≠ 0 by decide) _ _).1 [98]).2 (ends_of_size (by decide) _ _ _)

end Jeos.Ext2
