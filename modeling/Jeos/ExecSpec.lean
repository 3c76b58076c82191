import Jeos.Exec
import Jeos.Exhaustion

/-!
# The parts of `proc_exec`

What loading a program leaves (`loadImage_some`), and how the address space of the caller and its
kernel stack come through the call. The buffer of the file is a block that is not free, the new
tree takes free pages only, and the old one is not touched before it is freed.
-/

set_option linter.unusedSectionVars false

namespace Jeos

open ByteMemory DyadicBlock TreeWalk Elf LoadState UserStack

section Tree

variable {h h' g : Heap} {pml4 v npages : U64} {o : ℕ} {U : Set ℕ}

/-- Where neither the pages of a space are written nor freed, the space stays. -/
theorem UserSpace.undisturbed (hu : UserSpace h pml4) (hs : h'.Sound) (hag : h.AgreeOutside U h')
    (hd : Disjoint (spacePages h pml4) U) (hf : Disjoint (spacePages h pml4) h'.freePages) :
    Undisturbed pml4 h h' := by
  refine ⟨hs, hag.hhdm, fun p n hn hl i hi => ?_, fun k hk => Set.disjoint_left.1 hf hk⟩
  rw [SameEntry, entry_congr (hu.aligned hn) (hi.trans_le n.fanout_le) fun x hx => hag.mem x ?_]
  rw [hx]
  exact Set.disjoint_left.1 hd ⟨p, n, hn, rfl⟩

theorem UserSpace.disjoint_free (hu : UserSpace h pml4) :
    Disjoint (spacePages h pml4) h.freePages :=
  Set.disjoint_left.2 fun _ hk => hu.not_free hk

theorem HeldBlock.mono (hb : HeldBlock h npages v o) (hsub : g.freePages ⊆ h.freePages) :
    HeldBlock g npages v o :=
  { hb with held := hb.held.mono_right hsub }

/-- The nodes of an undisturbed tree are the same. -/
theorem UserSpace.nodeAt_eq (hu : UserSpace h pml4) (hag : h.AgreeOutside U h')
    (hd : Disjoint (spacePages h pml4) U) (p : List ℕ) : nodeAt h' pml4 p = nodeAt h pml4 p :=
  hu.nodeAt_of_agree hag (hd.mono_left tablePages_subset) p

theorem UserSpace.shows (hu : UserSpace h pml4) (hag : h.AgreeOutside U h')
    (hd : Disjoint (spacePages h pml4) U) {p : List ℕ} {f : U64} {c : ℕ → U8}
    (hs : Shows h pml4 p f c) : Shows h' pml4 p f c := by
  obtain ⟨n, hn, hl, hf, hb⟩ := hs
  refine ⟨n, (hu.nodeAt_eq hag hd p).trans hn, hl, hf, fun i hi => ?_⟩
  rw [hag.mem, hb i hi]
  rw [pageOf_add (hu.aligned hn) hi]
  exact Set.disjoint_left.1 hd ⟨p, n, hn, rfl⟩

end Tree

namespace ProgramFile

/-- The byte of the buffer at `i` when the read returns : the file's, or the pattern of `kalloc`. -/
def elfByte (p : ProgramFile) (size : U64) (i : ℕ) : U8 :=
  if i < (p.reply size).stored then (p.reply size).bytes (BitVec.ofNat 64 i) else 5

/-- The read stays in the pages of the buffer, and the segments of what is there then map pages of
the user half, with every copy in its page. -/
structure Loads (p : ProgramFile) (size : U64) : Prop where
  stored : (p.reply size).stored ≤ (elfPages size).toNat * 4096
  tame : ∀ elf : Mem, (∀ i < (elfPages size).toNat * 4096, elf (BitVec.ofNat 64 i) =
    p.elfByte size i) → IsElf64 elf → Tame elf

theorem filled_byte {p : ProgramFile} {size v : U64} {h h₁ : Heap} {o : ℕ}
    (ht : TakesBlock h h₁ ((elfPages size).setWidth 64) v o)
    (hst : (p.reply size).stored ≤ (elfPages size).toNat * 4096) {i : ℕ}
    (hi : i < (elfPages size).toNat * 4096) :
    (p.filled size v h₁).mem (v + BitVec.ofNat 64 i) = p.elfByte size i := by
  have hlt := (elfPages size).isLt
  rw [elfByte]
  split_ifs with hlow
  · rw [filled_eq, paste_add hlow (by omega)]
    congr 1
    exact BitVec.zero_add _
  · exact filled_rest ht (Nat.le_of_not_lt hlow) hi

end ProgramFile

namespace ExecState

variable {s s' : ExecState} {k : Fin maxProcs} {buf pml4 entry : U64} {pages : U32} {o : ℕ}

/-- What is left when a program is loaded from the buffer, in the heap `g` : the address space of
the file, made of free pages, with the stack. The pages `B` of the buffer are free. -/
structure ImageLoaded (g : Heap) (B : Set ℕ) (elf : Mem) (pml4 : U64) (s : ExecState) : Prop where
  own : OwnTree s.heap pml4
  stack : ∃ n, nodeAt s.heap pml4 (vaPath userStackBase) = some n
  pages : spacePages s.heap pml4 ⊆ g.freePages
  free : s.heap.freePages ⊆ g.freePages ∪ B
  freed : B ⊆ s.heap.freePages
  agree : g.AgreeOutside (g.freePages ∪ B) s.heap
  shows : ∀ p f c, imageOf (elfPlan elf) p = some (f, c) → Shows s.heap pml4 p f c

/-- The bytes of the buffer. -/
def BufferBytes (g : Heap) (buf : U64) (pages : U32) (elf : Mem) : Prop :=
  ∀ i < pages.toNat * 4096, elf (BitVec.ofNat 64 i) = g.mem (buf + BitVec.ofNat 64 i)

theorem HeldBlock.pageOf_mem {h : Heap} {x : U64} (hb : HeldBlock h (pages.setWidth 64) buf o)
    (hx : Within x buf (pages.toNat * 4096)) : pageOf x ∈ (blockAt o buf).pages := by
  have hle := le_of_orderFor hb.order
  rw [BitVec.toNat_setWidth_of_le (by norm_num)] at hle
  exact pageOf_mem_of_within hb.order_le hb.aligned (by omega) hx

/-- After `create_user_pml4` the buffer is as it was. -/
theorem bufferBytes_create {t : PagingState} (hb : HeldBlock s.heap (pages.setWidth 64) buf o)
    (hn : NewSpace pml4 s.heap t.heap) :
    BufferBytes s.heap buf pages fun o => t.heap.mem (buf + o) := fun i hi => by
  have hlt := pages.isLt
  exact hn.agree.mem _ fun hf => Set.disjoint_left.1 hb.held
    (HeldBlock.pageOf_mem hb (within_add buf hi (by omega))) hf

theorem loadImage_some (hs : s.heap.Sound) (hb : HeldBlock s.heap (pages.setWidth 64) buf o)
    (htame : ∀ elf, BufferBytes s.heap buf pages elf → IsElf64 elf → Tame elf)
    (hr : s.loadImage buf pages = some (s', pml4, some entry)) (hok : s'.tablesOk = true) :
    s'.files = s.files ∧ ∃ elf, BufferBytes s.heap buf pages elf ∧ IsElf64 elf ∧
      entry = eEntry elf ∧ ImageLoaded s.heap (blockAt o buf).pages elf pml4 s' := by
  obtain ⟨⟨t, p4⟩, hcreate, hr⟩ := Option.bind_eq_some_iff.1 hr
  dsimp only at hr
  split_ifs at hr with h0
  · obtain ⟨s₁, -, he⟩ := Option.map_eq_some_iff.1 hr
    exact absurd (Prod.mk.inj (Prod.mk.inj he).2).2 (by simp)
  obtain ⟨-, t', hc', -⟩ | ⟨t', p', hc', htok, -⟩ := ForkState.createUserPml4_cases hs s.cr3
  · exact absurd (Prod.mk.inj (Option.some.inj (hcreate.symm.trans hc'))).2 h0
  obtain ⟨rfl, rfl⟩ := Prod.mk.inj (Option.some.inj (hcreate.symm.trans hc'))
  have hn := PagingState.createUserPml4_spec (s := ⟨s.heap, true⟩) hs hcreate htok
  have hbytes := bufferBytes_create hb hn
  obtain ⟨⟨l, e⟩, hload, hr⟩ := Option.bind_eq_some_iff.1 hr
  cases e with
  | none =>
    obtain ⟨s₁, -, hr⟩ := Option.bind_eq_some_iff.1 hr
    obtain ⟨s₂, -, he⟩ := Option.map_eq_some_iff.1 hr
    exact absurd (Prod.mk.inj (Prod.mk.inj he).2).2 (by simp)
  | some e =>
    obtain ⟨s₁, hk, he⟩ := Option.map_eq_some_iff.1 hr
    rw [Prod.mk.injEq, Prod.mk.injEq, Option.some.injEq] at he
    obtain ⟨rfl, rfl, rfl⟩ := he
    obtain ⟨g, hg, rfl⟩ := Option.map_eq_some_iff.1 hk
    generalize helf : (fun o => t.heap.mem (buf + o)) = elf at hbytes hload
    have hisElf : IsElf64 elf := by
      by_contra hno
      obtain ⟨l', hrej, -⟩ := elfLoadSegments_reject hno p4 (pages.setWidth 64 * pageSize)
        ⟨⟨t.heap, true, s.tablesOk⟩, [], []⟩
      exact absurd (Prod.mk.inj (Option.some.inj (hload.symm.trans hrej))).2 (by simp)
    have hplan := (htame elf hbytes hisElf).plan_ok
    obtain ⟨l', r, hload', hm⟩ := exists_elfLoadSegments hisElf p4 (pages.setWidth 64 * pageSize)
      ⟨⟨t.heap, true, s.tablesOk⟩, [], []⟩
    obtain ⟨rfl, rfl⟩ := Prod.mk.inj (Option.some.inj (hload.symm.trans hload'))
    obtain ⟨pre, -, hpre, hmap⟩ := MapState.mapAll_spec (m := ⟨t.heap, true, s.tablesOk⟩)
      hn.ownTree hplan hm hok
    obtain rfl := hpre rfl
    -- the tree is made of pages that were free, and the buffer is not free yet
    have hown := hn.owning.pages
    rw [Set.union_empty] at hown
    have ht : t.heap.freePages ⊆ s.heap.freePages := hown ▸ Set.subset_union_left
    have htp : spacePages t.heap p4 ⊆ s.heap.freePages := hown ▸ Set.subset_union_right
    have hl : l.map.heap.freePages ⊆ s.heap.freePages := hmap.free.trans ht
    have hlp : spacePages l.map.heap p4 ⊆ s.heap.freePages :=
      hmap.pages.trans (Set.union_subset htp ht)
    obtain ⟨g', hk', hs', hfree, hag⟩ := (hb.mono hl).kfree hmap.own.space.sound
    obtain rfl := Option.some.inj (hg.symm.trans hk')
    have hd : Disjoint (spacePages l.map.heap p4) (l.map.heap.freePages ∪ (blockAt o buf).pages) :=
      Set.disjoint_union_right.2
        ⟨hmap.own.space.disjoint_free, (hb.held.mono_right hlp).symm⟩
    have hund := hmap.own.space.undisturbed hs' hag hd (hfree ▸ hd)
    refine ⟨rfl, elf, hbytes, hisElf, elfLoadSegments_entry hisElf hload, hmap.own.undisturbed hund,
      ?_, hund.spacePages_eq ▸ hlp, hfree ▸ Set.union_subset_union_left _ hl,
      hfree ▸ Set.subset_union_right, ?_, fun p f c hp =>
        hmap.own.space.shows hag hd (hmap.shows p f c hp)⟩
    · have hst : zeroReq userStackBase ∈ elfPlan elf :=
        List.mem_append_right _ (List.mem_map_of_mem (mem_pagesFrom.2 ⟨0, rfl, by decide⟩))
      obtain ⟨f, c, hi⟩ := exists_imageOf hst
      obtain ⟨n, hnode, -⟩ := hmap.own.space.shows hag hd (hmap.shows _ f c hi)
      exact ⟨n, hnode⟩
    · have htab : t.heap.freePages ∪ tablePages t.heap p4 ⊆
          s.heap.freePages ∪ (blockAt o buf).pages :=
        (Set.union_subset ht (tablePages_subset.trans htp)).trans Set.subset_union_left
      exact ((hn.agree.mono Set.subset_union_left).trans (hmap.agree.mono htab)).trans
        (hag.mono (Set.union_subset_union_left _ hl))

/-! ## From the argument vector to the new tables -/

/-- The new image is loaded, and the old one and the kernel stack are as they were. -/
structure ExecStart (s : ExecState) (k : Fin maxProcs) (newPml4 : U64) : Prop where
  old : OwnTree s.heap (s.entry k).pml4
  new : OwnTree s.heap newPml4
  apart : Disjoint (spacePages s.heap newPml4) (spacePages s.heap (s.entry k).pml4)
  stack : ∃ n, nodeAt s.heap newPml4 (vaPath userStackBase) = some n
  free : s.heap.freePages.Nonempty
  aligned : PageAligned (s.entry k).kstack
  last : pageOf (s.entry k).kstack + 1 < 2 ^ 52
  kstackFree : Disjoint (stackPages (s.entry k).kstack) s.heap.freePages
  kstackOld : Disjoint (stackPages (s.entry k).kstack) (spacePages s.heap (s.entry k).pml4)
  kstackNew : Disjoint (stackPages (s.entry k).kstack) (spacePages s.heap newPml4)

/-- `proc_exec` after `setup_user_stack` up to the tear-down, in the memory `g` that
`setup_user_stack` left. -/
def patched (s : ExecState) (g : Heap) (k : Fin maxProcs) (newPml4 entry userRsp : U64) :
    ExecState :=
  let s := ({ s with heap := g } : ExecState).redirect k entry userRsp
  s.setProc k { s.entry k with pml4 := newPml4 }

/-- What is left when the old address space is gone. The frame of the system call has three other
words. -/
structure Switched (s : ExecState) (k : Fin maxProcs) (newPml4 entry userRsp : U64) (n : Node)
    (s' : ExecState) : Prop where
  sound : s'.heap.Sound
  hhdm : s'.heap.hhdmOffset = s.heap.hhdmOffset
  free : s'.heap.freePages = s.heap.freePages ∪ spacePages s.heap (s.entry k).pml4
  nodes : ∀ p, nodeAt s'.heap newPml4 p = nodeAt s.heap newPml4 p
  mem : ∀ x, pageOf x ∉ s'.heap.freePages → pageOf x ≠ pageOf n.addr →
    pageOf x ∉ stackPages (s.entry k).kstack → s'.heap.mem x = s.heap.mem x
  frame : ∀ ws, ws.length = 16 →
    WordsAt s.heap.mem ((s.entry k).kstack + kstackSize - BitVec.ofNat 64 128) ws →
      WordsAt s'.heap.mem ((s.entry k).kstack + kstackSize - BitVec.ofNat 64 128)
        (((ws.set 15 userRsp).set 14 entry).set 13 0x202)

/-- A place below the top of a kernel stack. -/
theorem kstop_sub (v : U64) {j : ℕ} (hj : j ≤ 8192) :
    v + kstackSize - BitVec.ofNat 64 j = v + BitVec.ofNat 64 (8192 - j) :=
  add_ofNat_sub v hj

/-- The three stores at the top of the kernel stack. -/
theorem redirect_words (s : ExecState) (k : Fin maxProcs) (entry userRsp : U64) {ws : List U64}
    (hlen : ws.length = 16)
    (hw : WordsAt s.heap.mem ((s.entry k).kstack + kstackSize - BitVec.ofNat 64 128) ws) :
    WordsAt (s.redirect k entry userRsp).heap.mem
      ((s.entry k).kstack + kstackSize - BitVec.ofNat 64 128)
      (((ws.set 15 userRsp).set 14 entry).set 13 0x202) := by
  have hslot : ∀ i < 16, (s.entry k).kstack + BitVec.ofNat 64 (8064 + 8 * i) =
      (s.entry k).kstack + kstackSize - BitVec.ofNat 64 128 + BitVec.ofNat 64 (8 * i) :=
    fun i _ => by rw [kstop_sub _ (by norm_num), add_ofNat_add]
  have h15 := hw.set (k := 15) (v := userRsp) (by decide) (by omega) (by omega)
  have h14 := h15.set (k := 14) (v := entry) (by decide) (by simp [hlen]) (by simp [hlen])
  have h13 := h14.set (k := 13) (v := 0x202) (by decide) (by simp [hlen]) (by simp [hlen])
  rw [← hslot 15 (by norm_num), ← hslot 14 (by norm_num), ← hslot 13 (by norm_num)] at h13
  simp only [redirect, setProc]
  rw [kstop_sub _ (show 8 ≤ 8192 by norm_num), kstop_sub _ (show 16 ≤ 8192 by norm_num),
    kstop_sub _ (show 24 ≤ 8192 by norm_num)]
  exact h13

/-- The stores leave everything else. -/
theorem redirect_mem (s : ExecState) (k : Fin maxProcs) (entry userRsp : U64) {x : U64}
    (hx : ¬Within x (s.entry k).kstack 8192) :
    (s.redirect k entry userRsp).heap.mem x = s.heap.mem x := by
  have hout : ∀ j, 8 ≤ j → j ≤ 8192 →
      ¬Within x ((s.entry k).kstack + kstackSize - BitVec.ofNat 64 j) 8 := fun j h8 hj hx' => by
    rw [kstop_sub _ hj] at hx'
    exact hx (hx'.of_add (by omega) (by norm_num))
  simp only [redirect, setProc]
  rw [store64_of_not_within (hout 24 (by norm_num) (by norm_num)),
    store64_of_not_within (hout 16 (by norm_num) (by norm_num)),
    store64_of_not_within (hout 8 (by norm_num) (by norm_num))]

/-- With a vector that fits, the stack is set up and the old address space is torn down. -/
theorem exists_switched {um : Mem} {argv : U64} {newPml4 : U64} (hst : ExecStart s k newPml4)
    (hf : Fits um argv) (entry : U64) : ∃ n t userRsp s',
    nodeAt s.heap newPml4 (vaPath userStackBase) = some n ∧
    setupUserStack s.heap newPml4 um argv = some (t, userRsp) ∧
    (patched s t.heap k newPml4 entry userRsp).teardown (s.entry k).pml4 = some s' ∧
    Switched s k newPml4 entry userRsp n s' := by
  obtain ⟨n, hn⟩ := hst.stack
  obtain ⟨t, v, ht, hb⟩ := setupUserStack_fits hst.new.space hf hn hst.free
  set old := (s.entry k).pml4 with hold
  set kstack := (s.entry k).kstack with hkstack
  generalize userStackBase + (t.ptr - n.addr) = userRsp at ht
  have hnew : pageOf n.addr ∈ spacePages s.heap newPml4 := ⟨_, n, hn, rfl⟩
  -- the state before the tear-down
  set s₁ := patched s t.heap k newPml4 entry userRsp with hs₁
  have hout : ∀ x, pageOf x ∉ stackPages kstack → s₁.heap.mem x = t.heap.mem x := fun x hx =>
    redirect_mem { s with heap := t.heap } k entry userRsp fun hx' =>
      hx (pageOf_mem_stackPages hst.aligned hst.last hx')
  obtain ⟨hsound, hfree⟩ := hb.sound.congr s₁.heap rfl rfl fun x hx => hout x fun hx' =>
    Set.disjoint_left.1 hst.kstackFree hx' (hb.free ▸ hx)
  rw [hb.free] at hfree
  have hag : s.heap.AgreeOutside (s.heap.freePages ∪ {pageOf n.addr} ∪ stackPages kstack)
      s₁.heap := ⟨hb.agree.hhdm, fun x hx => (hout x fun hx' => hx (Or.inr hx')).trans
        (hb.agree.mem x fun hx' => hx (Or.inl hx'))⟩
  have hd : Disjoint (spacePages s.heap old)
      (s.heap.freePages ∪ {pageOf n.addr} ∪ stackPages kstack) :=
    Set.disjoint_union_right.2 ⟨Set.disjoint_union_right.2 ⟨hst.old.space.disjoint_free,
      Set.disjoint_singleton_right.2 (Set.disjoint_left.1 hst.apart hnew)⟩, hst.kstackOld.symm⟩
  have hund := hst.old.space.undisturbed hsound hag hd
    (hfree ▸ hst.old.space.disjoint_free)
  obtain ⟨f, hf', hs', hfree', hag', -⟩ := (hst.old.undisturbed hund).teardown
  rw [hund.spacePages_eq, hfree] at hfree' hag'
  have hkpages : Disjoint (stackPages kstack) (s.heap.freePages ∪ spacePages s.heap old) :=
    Set.disjoint_union_right.2 ⟨hst.kstackFree, hst.kstackOld⟩
  refine ⟨n, t, userRsp, _, hn, ht, Option.map_eq_some_iff.2 ⟨f, hf', rfl⟩, hs',
    hag'.hhdm.trans hag.hhdm, hfree', fun p => ?_, fun x hx hx' hx'' => ?_, fun ws hlen hw => ?_⟩
  · have hall := (hag.mono Set.subset_union_left).trans
      (hag'.mono (V := s.heap.freePages ∪ {pageOf n.addr} ∪ stackPages kstack ∪
        spacePages s.heap old) ?_)
    · refine hst.new.space.nodeAt_of_agree hall (Set.disjoint_union_right.2
        ⟨Set.disjoint_union_right.2 ⟨Set.disjoint_union_right.2 ⟨?_, ?_⟩, ?_⟩, ?_⟩) p
      · exact hst.new.space.disjoint_free.mono_left tablePages_subset
      · refine Set.disjoint_singleton_right.2 (hst.new.space.frame_not_table hn ?_)
        exact nodeAt_vaPath_level hn
      · exact (hst.kstackNew.mono_right tablePages_subset).symm
      · exact hst.apart.mono_left tablePages_subset
    · rintro k (hk | hk)
      · exact Or.inl (Or.inl (Or.inl hk))
      · exact Or.inr hk
  · rw [hfree'] at hx
    refine (hag'.mem x hx).trans (hag.mem x ?_)
    rintro ((hx₁ | hx₁) | hx₁)
    · exact hx (Or.inl hx₁)
    · exact hx' hx₁
    · exact hx'' hx₁
  · have hwithin : ∀ x, Within x (kstack + kstackSize - BitVec.ofNat 64 128) (8 * ws.length) →
        pageOf x ∈ stackPages kstack := fun x hx => by
      rw [kstop_sub _ (by norm_num), hlen] at hx
      exact pageOf_mem_stackPages hst.aligned hst.last (hx.of_add (by norm_num) (by norm_num))
    have hwt : WordsAt t.heap.mem (kstack + kstackSize - BitVec.ofNat 64 128) ws :=
      hw.congr (by omega) fun x hx => hb.agree.mem x (by
        rintro (h | h)
        · exact Set.disjoint_left.1 hst.kstackFree (hwithin x hx) h
        · exact Set.disjoint_left.1 hst.kstackNew (hwithin x hx) (h ▸ hnew))
    have hw₁ := redirect_words { s with heap := t.heap } k entry userRsp hlen hwt
    refine hw₁.congr (by simp [hlen]) fun x hx => hag'.mem x fun h => ?_
    exact Set.disjoint_left.1 hkpages (hwithin x (by simpa using hx)) h

/-! ## Up to the new image -/

/-- A process in a system call : its address space and its kernel stack are nobody else's. -/
structure ExecReady (g : Heap) (s : ExecState) (k : Fin maxProcs) : Prop where
  own : OwnTree g (s.entry k).pml4
  aligned : PageAligned (s.entry k).kstack
  last : pageOf (s.entry k).kstack + 1 < 2 ^ 52
  held : Disjoint (stackPages (s.entry k).kstack) g.freePages
  apart : Disjoint (stackPages (s.entry k).kstack) (spacePages g (s.entry k).pml4)

theorem ExecReady.congr {g : Heap} (hr : ExecReady g s k) (he : s'.entry = s.entry) :
    ExecReady g s' k := by
  obtain ⟨h1, h2, h3, h4, h5⟩ := hr
  rw [← he] at h1 h2 h3 h4 h5
  exact ⟨h1, h2, h3, h4, h5⟩

/-- Pages outside the address space were written. -/
theorem ExecReady.of_agree {h g : Heap} {U : Set ℕ} (hr : ExecReady h s k) (hs : g.Sound)
    (hag : h.AgreeOutside U g) (hd : Disjoint (spacePages h (s.entry k).pml4) U)
    (hsub : g.freePages ⊆ h.freePages) :
    ExecReady g s k ∧ spacePages g (s.entry k).pml4 = spacePages h (s.entry k).pml4 := by
  have hund := hr.own.space.undisturbed hs hag hd (hr.own.space.disjoint_free.mono_right hsub)
  exact ⟨⟨hr.own.undisturbed hund, hr.aligned, hr.last, hr.held.mono_right hsub,
    hund.spacePages_eq ▸ hr.apart⟩, hund.spacePages_eq⟩

/-- A block was taken, and its pages were written. -/
theorem ExecReady.take {h h₁ g : Heap} {npages v : U64} (hr : ExecReady h s k)
    (ht : TakesBlock h h₁ npages v o) (hs : g.Sound) (hag : h.AgreeOutside h.freePages g)
    (hfree : g.freePages = h₁.freePages) :
    ExecReady g s k ∧ spacePages g (s.entry k).pml4 = spacePages h (s.entry k).pml4 :=
  hr.of_agree hs hag hr.own.space.disjoint_free (by
    rw [hfree, ht.free]
    exact Set.sdiff_subset)

/-- The new image stands next to what was there. -/
theorem ImageLoaded.start {g : Heap} {B : Set ℕ} {elf : Mem} {newPml4 : U64}
    (hi : ImageLoaded g B elf newPml4 s) (hr : ExecReady g s k) (hB : B.Nonempty)
    (hold : Disjoint (spacePages g (s.entry k).pml4) B)
    (hk : Disjoint (stackPages (s.entry k).kstack) B) : ExecStart s k newPml4 := by
  have hd : Disjoint (spacePages g (s.entry k).pml4) (g.freePages ∪ B) :=
    Set.disjoint_union_right.2 ⟨hr.own.space.disjoint_free, hold⟩
  have hkd : Disjoint (stackPages (s.entry k).kstack) (g.freePages ∪ B) :=
    Set.disjoint_union_right.2 ⟨hr.held, hk⟩
  have hund := hr.own.space.undisturbed hi.own.space.sound hi.agree hd (hd.mono_right hi.free)
  refine ⟨hr.own.undisturbed hund, hi.own, ?_, hi.stack, hB.mono hi.freed, hr.aligned, hr.last,
    hkd.mono_right hi.free, ?_, hkd.mono_right (hi.pages.trans Set.subset_union_left)⟩
  · rw [hund.spacePages_eq]
    exact (hr.own.space.disjoint_free.mono_right hi.pages).symm
  · rw [hund.spacePages_eq]
    exact hr.apart

/-- A successful `proc_exec` up to the new image. -/
structure ExecLoaded (s s₁ : ExecState) (k : Fin maxProcs) (newPml4 : U64) : Prop where
  start : ExecStart s₁ k newPml4
  same : SameProcs s s₁
  files : FilesKept s.files s₁.files
  free : s₁.heap.freePages ⊆ s.heap.freePages
  agree : s.heap.AgreeOutside s.heap.freePages s₁.heap
  pages : spacePages s₁.heap newPml4 ⊆ s.heap.freePages

/-- The file the file system has for the path. -/
def program (s : ExecState) (fs : List U8 → ProgramFile) (path : U64) : ProgramFile :=
  fs (stringAt s.userMem path)

theorem execLoad_some {s₁ : ExecState} {fs : List U8 → ProgramFile} {path newPml4 : U64}
    (hready : ExecReady s.heap s k) (hf : FileSystemState.FilesOk s.files [])
    (hp : ∀ size, (s.program fs path).size = some size → (s.program fs path).Loads size)
    (hr : s.execLoad fs path = some (s₁, some (newPml4, entry))) (hok : s₁.tablesOk = true) :
    ExecLoaded s s₁ k newPml4 ∧ ∃ size elf, (s.program fs path).size = some size ∧
      (∀ i < (elfPages size).toNat * 4096, elf (BitVec.ofNat 64 i) =
        (s.program fs path).elfByte size i) ∧
      IsElf64 elf ∧ entry = eEntry elf ∧
      ∀ p f c, imageOf (elfPlan elf) p = some (f, c) → Shows s₁.heap newPml4 p f c := by
  have hsame := execLoad_same hr
  obtain ⟨s₀, hread, hr⟩ := Option.bind_eq_some_iff.1 hr
  obtain ⟨b, helf, hr⟩ := Option.bind_eq_some_iff.1 hr
  obtain rfl := readUser_eq hread
  dsimp only at helf hr
  change (s.program fs path).readElf s.heap s.files = some b at helf
  obtain ⟨files, hok', -, hkept, ⟨-, hread'⟩ | ⟨-, size, h₁, v, o, hsz, ht, -, hread'⟩⟩ :=
    ProgramFile.readElf_cases (p := s.program fs path) hready.own.space.sound hf
  · obtain rfl := Option.some.inj (helf.symm.trans hread')
    exact absurd (Prod.mk.inj (Option.some.inj hr)).2 (by simp)
  rw [hread', ProgramFile.finish] at helf
  split_ifs at helf with hneg
  · obtain ⟨g, -, rfl⟩ := Option.map_eq_some_iff.1 helf
    exact absurd (Prod.mk.inj (Option.some.inj hr)).2 (by simp)
  obtain rfl := Option.some.inj helf
  obtain ⟨⟨s₂, p4, e⟩, hload, he⟩ := Option.map_eq_some_iff.1 hr
  cases e with
  | none => exact absurd (Prod.mk.inj he).2 (by simp)
  | some e =>
    rw [Option.map_some, Prod.mk.injEq, Option.some.injEq, Prod.mk.injEq] at he
    obtain ⟨rfl, rfl, rfl⟩ := he
    obtain ⟨hst, htame⟩ := hp size hsz
    set g := (s.program fs path).filled size v h₁ with hg
    have hagree : s.heap.AgreeOutside s.heap.freePages g := ProgramFile.filled_agree ht hst
    obtain ⟨hgs, hgfree⟩ := ht.sound.congr g rfl rfl fun x hx =>
      ProgramFile.filled_mem ht hst (by rw [ht.free] at hx; exact hx.2)
    have hsub : g.freePages ∪ (blockAt o v).pages ⊆ s.heap.freePages := by
      rw [hgfree, ht.free, Set.sdiff_union_self]
      exact Set.union_subset subset_rfl ht.mem_free
    obtain ⟨hfiles, elf, hbytes, hisElf, hentry, hi⟩ := loadImage_some hgs (ht.held hgfree)
      (fun elf hbytes => htame elf fun i hi =>
        (hbytes i hi).trans (ProgramFile.filled_byte ht hst hi)) hload hok
    have hne : (blockAt o v).pages.Nonempty := by
      have h0 : 0 < ((elfPages size).setWidth 64).toNat :=
        Nat.pos_of_ne_zero fun h0 => ht.pages_ne (BitVec.eq_of_toNat_eq h0)
      exact ⟨pageOf v, ht.pageOf_mem (within_self _ (by omega))⟩
    obtain ⟨hready', hspace⟩ := hready.take ht hgs hagree hgfree
    refine ⟨⟨hi.start (hready'.congr hsame.1) hne ?_ ?_, hsame, hfiles ▸ hkept, hi.free.trans hsub, hagree.trans (hi.agree.mono hsub),
      hi.pages.trans (Set.subset_union_left.trans hsub)⟩, size, elf, hsz,
      fun i hi => (hbytes i hi).trans (ProgramFile.filled_byte ht hst hi), hisElf, hentry, hi.shows⟩
    · rw [hsame.1, hspace]
      exact hready.own.space.disjoint_free.mono_right ht.mem_free
    · rw [hsame.1]
      exact hready.held.mono_right ht.mem_free

end ExecState

end Jeos
