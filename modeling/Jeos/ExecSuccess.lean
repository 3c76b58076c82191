import Jeos.ExecSpec

/-!
# A call of `proc_exec` that succeeds

A program of one page is loaded when there is room for it (`exists_execLoad`), and with an argument
vector that fits the call then returns 0 (`exists_procExec`). `caller` is a process with one page,
and `launcher` a program for it.
-/

set_option linter.unusedSectionVars false

namespace Jeos

open ByteMemory DyadicBlock TreeWalk Elf LoadState UserStack

namespace ExecState

variable {s s' s₁ : ExecState} {k : Fin maxProcs} {fs : List U8 → ProgramFile}
  {path argv buf pml4 newPml4 entry size : U64} {pages : U32} {o : ℕ}

/-- With a page for the top table and four for each page of the plan the file in the buffer is
loaded. -/
theorem exists_loadImage (hs : s.heap.Sound) (hb : HeldBlock s.heap (pages.setWidth 64) buf o)
    (hok : s.tablesOk = true)
    (hfile : ∀ elf, BufferBytes s.heap buf pages elf → IsElf64 elf ∧ Tame elf ∧
      4 * (elfPlan elf).length + 1 ≤ s.heap.freePages.ncard) :
    ∃ s' pml4 entry, s.loadImage buf pages = some (s', pml4, some entry) ∧ s'.tablesOk = true := by
  obtain ⟨hempty, -⟩ | ⟨t, p4, hcreate, htok, h0⟩ := ForkState.createUserPml4_cases hs s.cr3
  · obtain ⟨-, -, hroom⟩ := hfile (fun o => s.heap.mem (buf + o)) fun _ _ => rfl
    rw [hempty, Set.ncard_empty] at hroom
    omega
  have hn := PagingState.createUserPml4_spec (s := ⟨s.heap, true⟩) hs hcreate htok
  obtain ⟨hisElf, htame, hroom⟩ := hfile _ (bufferBytes_create hb hn)
  have hcard := Set.ncard_sdiff_singleton_of_mem hn.mem_free
  rw [← hn.free] at hcard
  change t.heap.freePages.ncard = s.heap.freePages.ncard - 1 at hcard
  obtain ⟨l, r, hload, hlink⟩ := htame.load (s := ⟨⟨t.heap, true, s.tablesOk⟩, [], []⟩) hisElf
    hn.ownTree (pages.setWidth 64 * pageSize)
  obtain ⟨hp, ht⟩ := htame.load_ok (s := ⟨⟨t.heap, true, s.tablesOk⟩, [], []⟩) hisElf hn.ownTree
    (show _ ≤ t.heap.freePages.ncard by omega) rfl hok hload
  obtain ⟨rfl, hm⟩ := hlink hp ht
  have hsub : l.map.heap.freePages ⊆ s.heap.freePages :=
    hm.free.trans (hn.free.trans_subset Set.sdiff_subset)
  obtain ⟨g, hk, -⟩ := (hb.mono hsub).kfree hm.own.space.sound
  refine ⟨{ s with heap := g, tablesOk := l.map.tablesOk, events := .free buf :: s.events }, p4,
    eEntry fun o => t.heap.mem (buf + o), ?_, ht⟩
  rw [loadImage, hcreate, Option.bind_some]
  dsimp only
  rw [if_neg h0, hload, Option.bind_some]
  dsimp only [kfree]
  rw [hk]
  rfl

/-- The state after `read_elf`. -/
def bufferRead (s : ExecState) (path : U64) (b : ElfBuffer) : ExecState :=
  { s with
    heap := b.heap
    files := b.files
    events := b.freed.map .free ++ [.read (stringExtent s.userMem path)] }

theorem execLoad_of_readElf {b : ElfBuffer} (hread : s.CanRead (stringExtent s.userMem path))
    (helf : (s.program fs path).readElf s.heap s.files = some b) : s.execLoad fs path =
      match b.result with
      | none => some (s.bufferRead path b, none)
      | some (buf, pages) => ((s.bufferRead path b).loadImage buf pages).map
          fun (s, pml4, entry) => (s, entry.map fun entry => (pml4, entry)) := by
  have hall : ∀ e ∈ [stringExtent s.userMem path], s.CanRead e := fun e he =>
    List.mem_singleton.1 he ▸ hread
  have hone : ({ s with events := [] } : ExecState).readUser [stringExtent s.userMem path] =
      some { s with events := [.read (stringExtent s.userMem path)] } := if_pos hall
  rw [execLoad, hone, Option.bind_some]
  change ((s.program fs path).readElf s.heap s.files).bind _ = _
  rw [helf, Option.bind_some]
  rfl

theorem execLoad_eq {b : ElfBuffer} (hread : s.CanRead (stringExtent s.userMem path))
    (helf : (s.program fs path).readElf s.heap s.files = some b)
    (hres : b.result = some (buf, pages)) : s.execLoad fs path =
      ((s.bufferRead path b).loadImage buf pages).map
        fun (s, pml4, entry) => (s, entry.map fun entry => (pml4, entry)) := by
  rw [execLoad_of_readElf hread helf, hres]

/-- Without a buffer the call fails. -/
theorem execLoad_eq_none {b : ElfBuffer} (hread : s.CanRead (stringExtent s.userMem path))
    (helf : (s.program fs path).readElf s.heap s.files = some b) (hres : b.result = none) :
    s.execLoad fs path = some (s.bufferRead path b, none) := by
  rw [execLoad_of_readElf hread helf, hres]

/-- A program of one page that the file system reads is loaded when there is room. -/
theorem exists_execLoad (hready : ExecReady s.heap s k) (hf : FileSystemState.FilesOk s.files [])
    (hread : s.CanRead (stringExtent s.userMem path)) (hok : s.tablesOk = true)
    (hopen : (s.program fs path).opened ≠ none) (hsz : (s.program fs path).size = some size)
    (hone : elfPages size = 1) (hst : ((s.program fs path).reply size).stored ≤ 4096)
    (hpos : ((s.program fs path).reply size).result.slt 0 = false)
    (hfile : ∀ elf : Mem, (∀ i < 4096, elf (BitVec.ofNat 64 i) =
      (s.program fs path).elfByte size i) → IsElf64 elf ∧ Tame elf ∧
        4 * (elfPlan elf).length + 2 ≤ s.heap.freePages.ncard) :
    ∃ s₁ newPml4 entry, s.execLoad fs path = some (s₁, some (newPml4, entry)) ∧
      s₁.tablesOk = true ∧ ExecLoaded s s₁ k newPml4 ∧ ∃ elf : Mem,
        (∀ i < 4096, elf (BitVec.ofNat 64 i) = (s.program fs path).elfByte size i) ∧
        entry = eEntry elf ∧
        ∀ p f c, imageOf (elfPlan elf) p = some (f, c) → Shows s₁.heap newPml4 p f c := by
  have hs := hready.own.space.sound
  have hn : (elfPages size).toNat * 4096 = 4096 := by
    rw [hone]
    rfl
  obtain ⟨-, -, hroom⟩ := hfile (fun a => (s.program fs path).elfByte size a.toNat) fun i hi => by
    rw [BitVec.toNat_ofNat, Nat.mod_eq_of_lt (by omega)]
  obtain ⟨files, h', v', o, -, ht', -, ht, hread'⟩ := ProgramFile.readElf_one hs hf
    (Set.nonempty_of_ncard_ne_zero (by omega)) hopen hsz hone
  have hst' : ((s.program fs path).reply size).stored ≤ (elfPages size).toNat * 4096 :=
    hst.trans hn.ge
  rw [ProgramFile.finish, if_neg (by rw [hpos]; decide)] at hread'
  have hload := execLoad_eq hread hread' rfl
  set g := (s.program fs path).filled size v' h' with hg
  obtain ⟨hgs, hgfree⟩ := ht.sound.congr g rfl rfl fun x hx =>
    ProgramFile.filled_mem ht hst' (by rw [ht.free] at hx; exact hx.2)
  have hcard := Set.ncard_sdiff_singleton_of_mem ht'.mem_free
  rw [← ht'.free, ← hgfree] at hcard
  obtain ⟨s₁, p4, e, himg, htab⟩ := exists_loadImage (s := s.bufferRead path
    ⟨g, files, [⟨v', ((s.program fs path).reply size).stored⟩], [], some (v', elfPages size),
      some (v', elfPages size)⟩) hgs (ht.held hgfree) hok fun elf hb => by
      obtain ⟨h1, h2, h3⟩ := hfile elf fun i hi =>
        (hb i (hi.trans_eq hn.symm)).trans (ProgramFile.filled_byte ht hst' (hi.trans_eq hn.symm))
      refine ⟨h1, h2, ?_⟩
      change _ ≤ g.freePages.ncard
      omega
  rw [himg, Option.map_some] at hload
  have hloads : ∀ size', (s.program fs path).size = some size' →
      (s.program fs path).Loads size' := fun size' h => by
    obtain rfl := Option.some.inj (hsz.symm.trans h)
    exact ⟨hst', fun elf hb _ => (hfile elf fun i hi => hb i (hi.trans_eq hn.symm)).2.1⟩
  obtain ⟨hloaded, size', elf, hsz'', hbytes, -, hentry, hshows⟩ :=
    execLoad_some hready hf hloads hload htab
  obtain rfl := Option.some.inj (hsz.symm.trans hsz'')
  exact ⟨s₁, p4, e, hload, htab, hloaded, elf, fun i hi => hbytes i (hi.trans_eq hn.symm), hentry,
    hshows⟩

/-! ## The whole call -/

/-- The last steps : the path is read, and the process gets its name. -/
def renamed (s : ExecState) (k : Fin maxProcs) (path : U64) : ExecState :=
  ({ s with events := .read (stringExtent s.userMem path) :: s.events } : ExecState).setProc k
    { s.entry k with name := copyName (s.entry k).name (baseName (stringAt s.userMem path)) }

/-- The state after the reads of the argument vector. -/
def argsRead (s : ExecState) (argv : U64) : ExecState :=
  { s with events := (argReads s.userMem argv).map .read ++ s.events }

/-- A call that returns 0 has gone through all the steps. -/
theorem procExec_eq_zero (hr : s.procExec (some k) fs path argv = some (s', 0)) :
    ∃ s₁ newPml4 entry t userRsp s₂, s.execLoad fs path = some (s₁, some (newPml4, entry)) ∧
      setupUserStack s₁.heap newPml4 s₁.userMem argv = some (t, userRsp) ∧
      (patched (s₁.argsRead argv) t.heap k newPml4 entry userRsp).teardown (s₁.entry k).pml4 =
        some s₂ ∧
      s' = (s₂.lcr3 (s₂.heap.virtToPhys newPml4)).renamed k path := by
  obtain ⟨⟨s₁, r⟩, hl, hr⟩ := Option.bind_eq_some_iff.1 hr
  cases r with
  | none => exact absurd (Prod.mk.inj (Option.some.inj hr)).2 (by decide)
  | some r =>
    obtain ⟨newPml4, entry⟩ := r
    obtain ⟨s₂, hread, hr⟩ := Option.bind_eq_some_iff.1 hr
    obtain ⟨⟨t, userRsp⟩, hset, hr⟩ := Option.bind_eq_some_iff.1 hr
    obtain ⟨s₃, hsw, hr⟩ := Option.map_eq_some_iff.1 hr
    obtain ⟨rfl, -⟩ := Prod.mk.inj hr
    obtain ⟨s₄, htear, hsw⟩ := Option.bind_eq_some_iff.1 hsw
    obtain ⟨s₅, hname, rfl⟩ := Option.map_eq_some_iff.1 hsw
    obtain rfl := readUser_eq hread
    obtain rfl := readUser_eq hname
    have hp : ((({ s₁.argsRead argv with heap := t.heap } : ExecState).redirect k entry
        userRsp).entry k).pml4 = (s₁.entry k).pml4 := by
      simp [redirect, setProc, argsRead]
    refine ⟨s₁, newPml4, entry, t, userRsp, s₄, hl, hset, ?_, rfl⟩
    rw [← hp]
    exact htear

/-- The call never fails behind `setup_user_stack`. -/
theorem procExec_ne_neg {r : U64 × U64} (hl : s.execLoad fs path = some (s₁, some r)) :
    s.procExec (some k) fs path argv ≠ some (s', -1) := fun hr => by
  rw [procExec, hl, Option.bind_some] at hr
  obtain ⟨s₂, -, hr⟩ := Option.bind_eq_some_iff.1 hr
  obtain ⟨⟨t, userRsp⟩, -, hr⟩ := Option.bind_eq_some_iff.1 hr
  obtain ⟨s₃, -, hr⟩ := Option.map_eq_some_iff.1 hr
  exact absurd (Prod.mk.inj hr).2 (by decide)

theorem ExecStart.argsRead (hst : ExecStart s₁ k newPml4) (argv : U64) :
    ExecStart (s₁.argsRead argv) k newPml4 :=
  ⟨hst.old, hst.new, hst.apart, hst.stack, hst.free, hst.aligned, hst.last, hst.kstackFree,
    hst.kstackOld, hst.kstackNew⟩

/-- With a program loaded, a vector that fits and can be read, and the path mapped in the new
image, the call returns 0. -/
theorem exists_procExec (hl : s.execLoad fs path = some (s₁, some (newPml4, entry)))
    (hst : ExecStart s₁ k newPml4) (hargs : ∀ e ∈ argReads s₁.userMem argv, s₁.CanRead e)
    (hf : Fits s₁.userMem argv)
    (hpath : ∀ n userRsp s₂, nodeAt s₁.heap newPml4 (vaPath userStackBase) = some n →
      Switched s₁ k newPml4 entry userRsp n s₂ →
      (s₂.lcr3 (s₂.heap.virtToPhys newPml4)).CanRead
        (stringExtent (s₂.lcr3 (s₂.heap.virtToPhys newPml4)).userMem path)) :
    ∃ n userRsp s₂, nodeAt s₁.heap newPml4 (vaPath userStackBase) = some n ∧
      Switched s₁ k newPml4 entry userRsp n s₂ ∧ s.procExec (some k) fs path argv =
        some ((s₂.lcr3 (s₂.heap.virtToPhys newPml4)).renamed k path, 0) := by
  obtain ⟨n, t, userRsp, s₂, hn, hset, htear, hsw⟩ := exists_switched (hst.argsRead argv) hf entry
  have hsw' : Switched s₁ k newPml4 entry userRsp n s₂ :=
    ⟨hsw.sound, hsw.hhdm, hsw.free, hsw.nodes, hsw.mem, hsw.frame⟩
  have hread : s₁.readUser (argReads s₁.userMem argv) = some (s₁.argsRead argv) := if_pos hargs
  have hname : (s₂.lcr3 (s₂.heap.virtToPhys newPml4)).readUser
      [stringExtent (s₂.lcr3 (s₂.heap.virtToPhys newPml4)).userMem path] =
        some { s₂.lcr3 (s₂.heap.virtToPhys newPml4) with
          events := .read (stringExtent (s₂.lcr3 (s₂.heap.virtToPhys newPml4)).userMem path) ::
            (s₂.lcr3 (s₂.heap.virtToPhys newPml4)).events } :=
    if_pos fun e he => List.mem_singleton.1 he ▸ hpath n userRsp s₂ hn hsw'
  have hp : ((({ s₁.argsRead argv with heap := t.heap } : ExecState).redirect k entry
      userRsp).entry k).pml4 = (s₁.entry k).pml4 := by
    simp [redirect, setProc, argsRead]
  refine ⟨n, userRsp, s₂, hn, hsw', ?_⟩
  have hset' : setupUserStack (s₁.argsRead argv).heap newPml4 (s₁.argsRead argv).userMem argv =
      some (t, userRsp) := hset
  rw [procExec, hl, Option.bind_some]
  dsimp only
  rw [hread, Option.bind_some, hset', Option.bind_some]
  dsimp only
  rw [switchSpace, hp]
  dsimp only
  change Option.map _ (((patched (s₁.argsRead argv) t.heap k newPml4 entry userRsp).teardown
    (s₁.entry k).pml4).bind _) = _
  rw [show ((s₁.argsRead argv).patched t.heap k newPml4 entry userRsp).teardown (s₁.entry k).pml4 =
    some s₂ from htear, Option.bind_some, hname]
  rfl

/-! ## The memory of the caller -/

/-- Loading a program leaves the memory of the caller. -/
theorem ExecLoaded.userMem_eq (hl : ExecLoaded s s₁ k newPml4) (hready : ExecReady s.heap s k)
    (hcr3 : s.heap.physToVirt s.cr3 = (s.entry k).pml4) {va : U64} (hva : va.toNat < 2 ^ 47) :
    s₁.userMem va = s.userMem va := by
  have hcr3' : s₁.heap.physToVirt s₁.cr3 = (s.entry k).pml4 := by
    rw [hl.same.2, ← hcr3, Heap.physToVirt, Heap.physToVirt, hl.agree.hhdm]
  rw [userMem, userMem, hcr3, hcr3']
  exact hready.own.space.view_of_agree hl.agree hready.own.space.disjoint_free hva

theorem ExecLoaded.nodeAt_eq (hl : ExecLoaded s s₁ k newPml4) (hready : ExecReady s.heap s k)
    (hcr3 : s.heap.physToVirt s.cr3 = (s.entry k).pml4) (p : List ℕ) :
    nodeAt s₁.heap (s₁.heap.physToVirt s₁.cr3) p = nodeAt s.heap (s.entry k).pml4 p := by
  rw [hl.same.2, show s₁.heap.physToVirt s.cr3 = (s.entry k).pml4 by
    rw [← hcr3, Heap.physToVirt, Heap.physToVirt, hl.agree.hhdm]]
  exact hready.own.space.nodeAt_eq hl.agree hready.own.space.disjoint_free p

/-- The new image stays when the old one is torn down, but for the stack page. -/
theorem Switched.shows {userRsp : U64} {n : Node} (hsw : Switched s k newPml4 entry userRsp n s')
    (hst : ExecStart s k newPml4) (hn : nodeAt s.heap newPml4 (vaPath userStackBase) = some n)
    {p : List ℕ} {f : U64} {c : ℕ → U8} (hp : p ≠ vaPath userStackBase)
    (hs : Shows s.heap newPml4 p f c) : Shows s'.heap newPml4 p f c := by
  obtain ⟨n', hn', hl, hf, hb⟩ := hs
  have hmem : pageOf n'.addr ∈ spacePages s.heap newPml4 := ⟨p, n', hn', rfl⟩
  refine ⟨n', (hsw.nodes p).trans hn', hl, hf, fun i hi => ?_⟩
  have hpage := pageOf_add (hst.new.space.aligned hn') hi
  rw [hsw.mem, hb i hi]
  · rw [hpage, hsw.free]
    rintro (h | h)
    · exact hst.new.space.not_free hmem h
    · exact Set.disjoint_left.1 hst.apart hmem h
  · rw [hpage]
    exact fun h => hp (hst.new.apart p _ n' n hn' hn h)
  · rw [hpage]
    exact fun h => Set.disjoint_left.1 hst.kstackNew h hmem

/-- A range in a mapped page can be read. -/
theorem canRead_page {va : U64} {n : Node} {a l : ℕ} (hva : PageAligned va)
    (h47 : va.toNat + 4096 ≤ 2 ^ 47)
    (hn : nodeAt s.heap (s.heap.physToVirt s.cr3) (vaPath va) = some n) (hal : a + l ≤ 4096) :
    s.CanRead ⟨va + BitVec.ofNat 64 a, l⟩ := fun i (hi : i < l) _ => by
  rw [← add_ofNat_add, vaPath_add hva h47 (show a + i < 4096 by omega), hn]
  rfl

end ExecState

/-! ## A program of one page -/

/-- A file of 4096 bytes. -/
def pageFile (content : Mem) : ProgramFile where
  opened := some (⟨0, none, none⟩, true, false)
  size := some 4096
  read count := ⟨content, min 4096 count.toNat, BitVec.ofNat 64 (min 4096 count.toNat)⟩

theorem pageFile_allowed (content : Mem) : (pageFile content).Allowed content :=
  fun _ => ⟨Nat.min_le_right _ _, fun _ => ⟨rfl, fun _ _ => rfl⟩⟩

/-- A program with the string "/x" at `0x400000`, where it starts. -/
def launcher : List U8 :=
  elfFile [[1, 7, 120, 0x400000, 0x400000, 3, 3, 4096]] [0x2F, 0x78, 0]

/-- The page of the program. -/
def launcherPage (i : ℕ) : U8 := if i = 0 then 0x2F else if i = 1 then 0x78 else 0

section Launcher

variable {elf : Mem}

/-- Memories with the same low bytes are the same at low addresses. -/
theorem eq_of_low {m m' : Mem} {n l : ℕ}
    (h : ∀ i < n, m (BitVec.ofNat 64 i) = m' (BitVec.ofNat 64 i)) {a x : U64}
    (ha : a.toNat + l ≤ n) (hn : n ≤ 2 ^ 64) (hx : Within x a l) : m x = m' x := by
  have hx := (within_iff (by omega)).1 hx
  have := h x.toNat (by omega)
  rwa [BitVec.ofNat_toNat, BitVec.setWidth_eq] at this

/-- The file of the program, whatever is behind its page. -/
def IsLauncher (elf : Mem) : Prop :=
  ∀ i < 4096, elf (BitVec.ofNat 64 i) = bufOf launcher (BitVec.ofNat 64 i)

namespace IsLauncher

variable (h : IsLauncher elf)

include h

theorem word64 {a : U64} (ha : a.toNat + 8 ≤ 4096) : load64 elf a = load64 (bufOf launcher) a :=
  load64_congr fun _ hx => eq_of_low h ha (by norm_num) hx

theorem word32 {a : U64} (ha : a.toNat + 4 ≤ 4096) : load32 elf a = load32 (bufOf launcher) a :=
  load32_congr fun _ hx => eq_of_low h ha (by norm_num) hx

theorem word16 {a : U64} (ha : a.toNat + 2 ≤ 4096) : load16 elf a = load16 (bufOf launcher) a :=
  load16_congr fun _ hx => eq_of_low h ha (by norm_num) hx

theorem header_eq : ePhnum elf = 1 ∧ ePhoff elf = 64 ∧ eEntry elf = 0x400000 ∧ IsElf64 elf := by
  have hclass : eClass elf = eClass (bufOf launcher) :=
    eq_of_low (l := 1) h (by decide) (by norm_num) (within_self _ Nat.one_pos)
  rw [IsElf64, hclass, ePhnum, ePhoff, eEntry, eMagic, eMachine, h.word16 (by decide),
    h.word64 (by decide), h.word64 (by decide), h.word32 (by decide), h.word16 (by decide)]
  decide +kernel

theorem ePhnum_eq : ePhnum elf = 1 := h.header_eq.1

theorem ePhoff_eq : ePhoff elf = 64 := h.header_eq.2.1

theorem eEntry_eq : eEntry elf = 0x400000 := h.header_eq.2.2.1

theorem isElf64 : IsElf64 elf := h.header_eq.2.2.2

theorem phdrField_eq (k : ℕ) : phdrField elf 0 k = field phdr 64 k := by
  rw [phdrField, h.ePhoff_eq]
  congr 1

theorem segment_eq : (pType elf 0 = ptLoad ∧ pFlags elf 0 = 7) ∧
    pOffset elf 0 = 120 ∧ pVaddr elf 0 = 0x400000 ∧ pFilesz elf 0 = 3 ∧ pMemsz elf 0 = 3 := by
  rw [pType, pFlags, pOffset, pVaddr, pFilesz, pMemsz]
  simp only [h.phdrField_eq]
  rw [h.word32 (by decide), h.word32 (by decide), h.word64 (by decide), h.word64 (by decide),
    h.word64 (by decide), h.word64 (by decide)]
  decide +kernel

theorem pType_eq : pType elf 0 = ptLoad := h.segment_eq.1.1

theorem pFlags_eq : pFlags elf 0 = 7 := h.segment_eq.1.2

theorem pOffset_eq : pOffset elf 0 = 120 := h.segment_eq.2.1

theorem pVaddr_eq : pVaddr elf 0 = 0x400000 := h.segment_eq.2.2.1

theorem pFilesz_eq : pFilesz elf 0 = 3 := h.segment_eq.2.2.2.1

theorem pMemsz_eq : pMemsz elf 0 = 3 := h.segment_eq.2.2.2.2

theorem segPages_eq : segPages elf 0 = [0x400000] := by
  rw [segPages, if_pos h.pType_eq, h.pVaddr_eq, h.pMemsz_eq]
  decide

theorem plan_length : (elfPlan elf).length = 3 := by
  simp only [elfPlan, List.length_append, List.length_flatMap, List.length_map]
  rw [h.ePhnum_eq]
  change (List.map _ [0]).sum + Elf.stackPages.length = 3
  rw [List.map_singleton, List.sum_singleton, h.segPages_eq]
  decide

theorem wellFormed : WellFormed elf 4096 := by
  have h0 : ∀ i, Segment elf i → i = 0 := fun i hi => by
    have := hi.1
    rw [h.ePhnum_eq] at this
    exact Nat.lt_one_iff.1 this
  refine ⟨h.isElf64, fun i hi => ?_, fun i hi => ?_, fun i hi => ?_, fun i j hi hj hij => ?_⟩
  · rw [h0 i hi, h.pFilesz_eq, h.pMemsz_eq]
  · rw [h0 i hi, h.pFilesz_eq, h.pOffset_eq]
    decide
  · rw [h0 i hi, h.pVaddr_eq, h.pMemsz_eq]
    decide
  · exact absurd ((h0 i hi).trans (h0 j hj).symm) hij

/-- The page at `0x400000` shows the string. -/
theorem image : ∃ f c, imageOf (elfPlan elf) (vaPath 0x400000) = some (f, c) ∧
    ∀ i < 4096, c i = launcherPage i := by
  have hmem : (0x400000 : U64) ∈ segPages elf 0 := by rw [h.segPages_eq]; exact List.mem_singleton_self _
  refine ⟨_, _, h.wellFormed.imageOf_plan (j := 0) (by rw [h.ePhnum_eq]; decide) hmem
    fun j hj hj' => ?_, fun i hi => ?_⟩
  · rw [h.ePhnum_eq] at hj'
    exact absurd hj' (by change ¬j < 1; omega)
  · have hend : (segFileEnd elf 0).toNat = 0x400003 := by
      rw [segFileEnd, h.pVaddr_eq, h.pFilesz_eq]
      rfl
    have hfile : ∀ j < 3, bufOf launcher (120 + BitVec.ofNat 64 j) = launcherPage j := by
      decide
    have hbyte : ∀ j < 3, elf (120 + (0x400000 + BitVec.ofNat 64 j - 0x400000)) = launcherPage j :=
      fun j hj => by
        rw [BitVec.add_comm 0x400000, BitVec.add_sub_cancel, ← hfile j hj]
        exact eq_of_low (a := 120) (l := 3) h (by decide) (by norm_num)
          (within_add 120 hj (by norm_num))
    have hva : (0x400000 : U64).toNat = 0x400000 := rfl
    rw [segByte, h.pVaddr_eq, h.pOffset_eq, hend, hva]
    split_ifs with hin
    · exact hbyte i (by omega)
    · rw [launcherPage, if_neg (by omega), if_neg (by omega)]

end IsLauncher

end Launcher

/-! ## A process with one page -/

/-- A page with the bytes `c`. -/
def pageReq (va : U64) (c : ℕ → U8) : PageReq :=
  ⟨va, pteUser ||| pteWrite,
    fun page h => { h with mem := paste h.mem page (fun a => c a.toNat) 0 4096 }, c⟩

theorem pageReq_ok {va : U64} (hva : pml4Index va < 256) (c : ℕ → U8) : (pageReq va c).Ok := by
  refine ⟨hva, show FlagBits (pteUser ||| pteWrite) by decide,
    show User (pteUser ||| pteWrite) by decide, fun _ _ => rfl, fun _ _ => rfl, ?_, ?_⟩
  · intro page h x hp hx
    dsimp only [pageReq]
    exact paste_of_not_within fun hw => hx ((within_page_iff hp).1 hw)
  · intro page h hp hz i hi
    dsimp only [pageReq]
    rw [paste_add hi (by norm_num),
      show (0 : U64) + BitVec.ofNat 64 i = BitVec.ofNat 64 i from BitVec.zero_add _,
      BitVec.toNat_ofNat, Nat.mod_eq_of_lt (by omega)]

/-- Process 1 with the address space `old`, in a system call. -/
def caller (h : Heap) (old : U64) : ExecState where
  heap := h
  files := FileSystemState.boot
  entry _ := ⟨1, 0, old, 0xffff800000400000, 0, fun _ => 0, 0, fun _ => 0⟩
  nextPid := 2
  cr3 := h.virtToPhys old
  tablesOk := true
  events := []

theorem caller_cr3 (h : Heap) (old : U64) : h.physToVirt (caller h old).cr3 = old :=
  BitVec.sub_add_cancel _ _

/-- There is such a process with a page at `0x400000`, and `n` pages are free. The pages of both are
below its kernel stack. -/
theorem exists_caller {n : ℕ} (hn : n + 4 < 256) (c : ℕ → U8) : ∃ h old,
    ExecState.ExecReady h (caller h old) 0 ∧ Shows h old (vaPath 0x400000) (pteUser ||| pteWrite) c ∧
      n ≤ h.freePages.ncard ∧ ∀ k ∈ h.freePages ∪ spacePages h old, 0xffff800000100 ≤ k ∧
        k < 0xffff800000200 := by
  obtain ⟨h₀, t, old, hboot, -, -, hnew, hcard, -⟩ := exists_new_space hn
  obtain ⟨h₁, hboot', -, -, -, hbounds⟩ := exists_boot_heap_of (n := n + 4 + 1) hn
  obtain rfl := Option.some.inj (hboot.symm.trans hboot')
  have hp : (pageReq 0x400000 c).Ok := pageReq_ok (by decide) c
  obtain ⟨⟨m, go⟩, hr⟩ := MapState.exists_mapNewPage ⟨t.heap, true, true⟩ old 0x400000
    (pageReq 0x400000 c).flags (pageReq 0x400000 c).write
  obtain ⟨rfl, -, htab⟩ := MapState.mapNewPage_ok (p := pageReq 0x400000 c) hnew.ownTree.space hp hr
    (by change 4 ≤ t.heap.freePages.ncard; omega)
  obtain ⟨-, hfree, hm⟩ := (Mapped.refl hnew.ownTree).mapNewPage hp.user hp.flagBits hp.userFlag
    hp.fills hr htab
  have hm : Mapped t.heap m.heap old _ := hm
  have hpages : m.heap.freePages ∪ spacePages m.heap old ⊆ h₀.freePages := by
    have hown := hnew.owning.pages
    rw [Set.union_empty] at hown
    have ht : t.heap.freePages ⊆ h₀.freePages := hown ▸ Set.subset_union_left
    exact Set.union_subset (hm.free.trans ht) (hm.pages.trans
      (Set.union_subset (hown ▸ Set.subset_union_right) ht))
  have hlow : ∀ k ∈ m.heap.freePages ∪ spacePages m.heap old, 0xffff800000100 ≤ k ∧
      k < 0xffff800000200 := fun k hk => hbounds k (hpages hk)
  have hstack : Disjoint (Jeos.stackPages 0xffff800000400000)
      (m.heap.freePages ∪ spacePages m.heap old) := Set.disjoint_left.2 fun k hk hk' => by
    have h1 := hlow k hk'
    have h2 : pageOf 0xffff800000400000 = 0xffff800000400 := by decide
    rcases hk with rfl | rfl <;> omega
  refine ⟨m.heap, old, ⟨hm.own, (by decide : PageAligned 0xffff800000400000),
    (by decide : pageOf 0xffff800000400000 + 1 < 2 ^ 52),
    hstack.mono_right Set.subset_union_left, hstack.mono_right Set.subset_union_right⟩,
    hm.shows _ _ _ (Function.update_self _ _ _), ?_, hlow⟩
  change t.heap.freePages.ncard ≤ _ at hfree
  omega

/-- The null vector fits. -/
theorem fits_zero (um : Mem) : Fits um 0 := by
  have hb : bytesFrom um 0 0 = 0 := bytesFrom_count um 0
  rw [Fits, stringBytes, hb, show argCount um 0 = 0 from if_pos rfl]
  decide

/-- A memory with the bytes `c` at `0x400000`. -/
def pageMem (c : ℕ → U8) : Mem := fun a => c (a - 0x400000).toNat

section PageMem

variable {um : Mem} {c : ℕ → U8} {o : ℕ}

theorem pageMem_add (c : ℕ → U8) (ho : o < 4096) :
    pageMem c (0x400000 + BitVec.ofNat 64 o) = c o := by
  rw [pageMem, BitVec.add_comm, BitVec.add_sub_cancel, BitVec.toNat_ofNat,
    Nat.mod_eq_of_lt (by omega)]

/-- A string in a page is the one in the bytes of the page. -/
theorem stringAt_page (hum : ∀ i < 4096, um (0x400000 + BitVec.ofNat 64 i) = c i)
    (hlen : o + (stringAt (pageMem c) (0x400000 + BitVec.ofNat 64 o)).length < 4096) :
    stringAt um (0x400000 + BitVec.ofNat 64 o) =
      stringAt (pageMem c) (0x400000 + BitVec.ofNat 64 o) :=
  cstring_congr fun j hj => by
    have hlt : o + j < 4096 := lt_of_le_of_lt (Nat.add_le_add_left hj o) hlen
    rw [← add_ofNat_add, hum _ hlt, pageMem_add c hlt]

theorem load64_page (hum : ∀ i < 4096, um (0x400000 + BitVec.ofNat 64 i) = c i)
    (ho : o + 8 ≤ 4096) : load64 um (0x400000 + BitVec.ofNat 64 o) =
      load64 (pageMem c) (0x400000 + BitVec.ofNat 64 o) := by
  rw [load64, load64]
  refine congrArg (BitVec.ofNat 64) (readLE_congr_add fun i hi => ?_)
  have hlt : o + i < 4096 := by omega
  rw [← add_ofNat_add, hum _ hlt, pageMem_add c hlt]

/-- A vector in a page is the one in the bytes of the page. -/
theorem argAt_page (hum : ∀ i < 4096, um (0x400000 + BitVec.ofNat 64 i) = c i) {i : ℕ}
    (hi : o + 8 * i + 8 ≤ 4096) : argAt um (0x400000 + BitVec.ofNat 64 o) i =
      argAt (pageMem c) (0x400000 + BitVec.ofNat 64 o) i := by
  rw [argAt, argAt, ← add_ofNat_add]
  exact load64_page hum hi

theorem argCount_page (hum : ∀ i < 4096, um (0x400000 + BitVec.ofNat 64 i) = c i)
    (hlen : o + 8 * (argCount (pageMem c) (0x400000 + BitVec.ofNat 64 o) + 1) ≤ 4096) :
    argCount um (0x400000 + BitVec.ofNat 64 o) =
      argCount (pageMem c) (0x400000 + BitVec.ofNat 64 o) := by
  rw [argCount, argCount] at *
  split_ifs at hlen ⊢ with h0
  · rfl
  · refine congrArg List.length (words_congr fun j hj => ?_)
    rw [← add_ofNat_add]
    exact load64_page hum (by omega)

end PageMem

/-- The file system with the program at every path. -/
def launcherFs (_ : List U8) : ProgramFile := pageFile (bufOf launcher)

/-- What is in the buffer when the program has been read. -/
theorem isLauncher_of_bytes {elf : Mem} (hb : ∀ i < 4096,
    elf (BitVec.ofNat 64 i) = (pageFile (bufOf launcher)).elfByte 4096 i) : IsLauncher elf :=
  fun i hi => by
    rw [hb i hi, ProgramFile.elfByte,
      if_pos (show i < ((pageFile (bufOf launcher)).reply 4096).stored from hi)]
    rfl

theorem launcher_loads : (pageFile (bufOf launcher)).Loads 4096 where
  stored := by decide
  tame _ hb _ := (isLauncher_of_bytes hb).wellFormed.tame

/-- With the program loaded and no argument vector the call returns 0, and the path is then another
one. -/
theorem exec_launcher {s s₁ : ExecState} {k : Fin maxProcs} {fs : List U8 → ProgramFile} {newPml4 : U64}
    (hload : s.execLoad fs 0x400000 = some (s₁, some (newPml4, 0x400000)))
    (hst : ExecState.ExecStart s₁ k newPml4)
    (himage : ∃ f d, Shows s₁.heap newPml4 (vaPath 0x400000) f d ∧ ∀ i < 4096, d i = launcherPage i) :
    ∃ n userRsp s₂, nodeAt s₁.heap newPml4 (vaPath userStackBase) = some n ∧
      ExecState.Switched s₁ k newPml4 0x400000 userRsp n s₂ ∧
      s.procExec (some k) fs 0x400000 0 =
        some ((s₂.lcr3 (s₂.heap.virtToPhys newPml4)).renamed k 0x400000, 0) ∧
      stringAt (s₂.lcr3 (s₂.heap.virtToPhys newPml4)).userMem 0x400000 = [0x2F, 0x78] := by
  obtain ⟨f, d, hshow, hd⟩ := himage
  have hal : PageAligned 0x400000 := by decide
  have h47 : (0x400000 : U64).toNat + 4096 ≤ 2 ^ 47 := by decide
  have hfinal : ∀ n userRsp s₂, nodeAt s₁.heap newPml4 (vaPath userStackBase) = some n →
      ExecState.Switched s₁ k newPml4 0x400000 userRsp n s₂ →
        (∃ n', nodeAt s₂.heap newPml4 (vaPath 0x400000) = some n') ∧
          stringAt (s₂.lcr3 (s₂.heap.virtToPhys newPml4)).userMem 0x400000 = [0x2F, 0x78] :=
    fun n userRsp s₂ hn hsw => by
      have hshow₂ := hsw.shows hst hn (by decide) hshow
      have hpage : ∀ i < 4096, (s₂.lcr3 (s₂.heap.virtToPhys newPml4)).userMem
          (0x400000 + BitVec.ofNat 64 i) = launcherPage i := fun i hi => by
        rw [← hd i hi, ← hshow₂.view hal h47 hi]
        exact congrArg (fun p => s₂.heap.view p _) (BitVec.sub_add_cancel _ _)
      have hstr := stringAt_page (o := 0) hpage (by decide)
      rw [BitVec.add_zero] at hstr
      obtain ⟨n', hn', -⟩ := hshow₂
      exact ⟨⟨n', hn'⟩, hstr.trans (by decide)⟩
  obtain ⟨n, userRsp, s₂, hn, hsw, hr⟩ := ExecState.exists_procExec hload hst
    (show ∀ e ∈ argReads s₁.userMem 0, s₁.CanRead e from fun e he => absurd he List.not_mem_nil)
    (fits_zero s₁.userMem) fun n userRsp s₂ hn hsw => by
    obtain ⟨⟨n', hn'⟩, hstr⟩ := hfinal n userRsp s₂ hn hsw
    rw [stringExtent, hstr]
    have := ExecState.canRead_page (s := s₂.lcr3 (s₂.heap.virtToPhys newPml4)) (n := n') (a := 0)
      (l := 3) hal h47 ((congrArg (fun p => nodeAt s₂.heap p _) (BitVec.sub_add_cancel _ _)).trans hn')
      (by norm_num)
    rwa [BitVec.add_zero] at this
  exact ⟨n, userRsp, s₂, hn, hsw, hr, (hfinal n userRsp s₂ hn hsw).2⟩

/-- The process with the bytes `c` in its page has loaded the program. -/
structure Launched (c : ℕ → U8) (h : Heap) (old : U64) (s₁ : ExecState) (newPml4 : U64) : Prop where
  ready : ExecState.ExecReady h (caller h old) 0
  page : ∀ i < 4096, (caller h old).userMem (0x400000 + BitVec.ofNat 64 i) = c i
  node : ∃ n, nodeAt h old (vaPath 0x400000) = some n
  load : (caller h old).execLoad launcherFs 0x400000 = some (s₁, some (newPml4, 0x400000))
  tables : s₁.tablesOk = true
  loaded : ExecState.ExecLoaded (caller h old) s₁ 0 newPml4
  image : ∃ f d, Shows s₁.heap newPml4 (vaPath 0x400000) f d ∧ ∀ i < 4096, d i = launcherPage i

section Caller

variable {c : ℕ → U8} {h : Heap} {old f : U64}

theorem caller_page (hshow : Shows h old (vaPath 0x400000) f c) : ∀ i < 4096,
    (caller h old).userMem (0x400000 + BitVec.ofNat 64 i) = c i := fun i hi => by
  rw [ExecState.userMem, show (caller h old).heap.physToVirt _ = old from caller_cr3 h old]
  exact hshow.view (by decide) (by decide) hi

/-- A short string in the page of the process can be read. -/
theorem caller_canRead (hshow : Shows h old (vaPath 0x400000) f c)
    (hc : (stringAt (pageMem c) 0x400000).length < 4096) :
    (caller h old).CanRead (stringExtent (caller h old).userMem 0x400000) := by
  obtain ⟨n, hn, -⟩ := id hshow
  have hstr : stringAt (caller h old).userMem 0x400000 = stringAt (pageMem c) 0x400000 := by
    have := stringAt_page (o := 0) (caller_page hshow) (by simpa using hc)
    rwa [BitVec.add_zero] at this
  have := ExecState.canRead_page (s := caller h old) (n := n) (a := 0)
    (l := (stringAt (caller h old).userMem 0x400000).length + 1)
    (by decide : PageAligned 0x400000) (by decide : (0x400000 : U64).toNat + 4096 ≤ 2 ^ 47)
    (by rw [show (caller h old).heap.physToVirt _ = old from caller_cr3 h old]; exact hn)
    (by rw [hstr]; omega)
  rwa [BitVec.add_zero] at this

end Caller

theorem exists_launched {c : ℕ → U8} (hc : (stringAt (pageMem c) 0x400000).length < 4096) :
    ∃ h old s₁ newPml4, Launched c h old s₁ newPml4 := by
  obtain ⟨h, old, hready, hshow, hcard, -⟩ := exists_caller (n := 32) (by norm_num) c
  have hpage := caller_page hshow
  have hread := caller_canRead hshow hc
  obtain ⟨n, hn, -⟩ := id hshow
  have hbyte : ∀ elf : Mem, (∀ i < 4096, elf (BitVec.ofNat 64 i) =
      ((caller h old).program launcherFs 0x400000).elfByte 4096 i) → IsLauncher elf :=
    fun _ hb => isLauncher_of_bytes hb
  obtain ⟨s₁, newPml4, entry, hload, htab, hloaded, elf, hbytes, rfl, hshows⟩ :=
    ExecState.exists_execLoad (s := caller h old) (k := 0) hready
      FileSystemState.pipesOk_boot.files hread rfl
      (show ((caller h old).program launcherFs 0x400000).opened ≠ none from Option.some_ne_none _)
      (show ((caller h old).program launcherFs 0x400000).size = some 4096 from rfl) (by decide)
      (show ((pageFile (bufOf launcher)).reply 4096).stored ≤ 4096 by decide)
      (show ((pageFile (bufOf launcher)).reply 4096).result.slt 0 = false by decide)
      fun elf hb => ⟨(hbyte elf hb).isElf64, (hbyte elf hb).wellFormed.tame, by
        rw [(hbyte elf hb).plan_length]
        exact le_trans (by norm_num) hcard⟩
  have hl := hbyte elf hbytes
  obtain ⟨f, d, himg, hd⟩ := hl.image
  rw [hl.eEntry_eq] at hload
  exact ⟨h, old, s₁, newPml4, hready, hpage, ⟨n, hn⟩, hload, htab, hloaded, f, d, hshows _ _ _ himg,
    hd⟩

namespace Launched

variable {c : ℕ → U8} {h : Heap} {old newPml4 : U64} {s₁ : ExecState}

theorem userMem_eq (hl : Launched c h old s₁ newPml4) {i : ℕ} (hi : i < 4096) :
    s₁.userMem (0x400000 + BitVec.ofNat 64 i) = c i := by
  rw [hl.loaded.userMem_eq hl.ready (caller_cr3 h old), hl.page i hi]
  rw [add_toNat_of_page (by decide) hi]
  exact lt_of_lt_of_le (Nat.add_lt_add_left hi _) (by decide)

theorem canRead (hl : Launched c h old s₁ newPml4) {a l : ℕ} (hal : a + l ≤ 4096) :
    s₁.CanRead ⟨0x400000 + BitVec.ofNat 64 a, l⟩ := by
  obtain ⟨n, hn⟩ := hl.node
  exact ExecState.canRead_page (n := n) (by decide) (by decide)
    ((hl.loaded.nodeAt_eq hl.ready (caller_cr3 h old) _).trans hn) hal

/-- With no argument vector the call returns 0, and the path is then another one. -/
theorem exec (hl : Launched c h old s₁ newPml4) : ∃ n userRsp s₂,
    ExecState.Switched s₁ 0 newPml4 0x400000 userRsp n s₂ ∧
      (caller h old).procExec (some 0) launcherFs 0x400000 0 =
        some ((s₂.lcr3 (s₂.heap.virtToPhys newPml4)).renamed 0 0x400000, 0) ∧
      stringAt (s₂.lcr3 (s₂.heap.virtToPhys newPml4)).userMem 0x400000 = [0x2F, 0x78] := by
  obtain ⟨n, userRsp, s₂, -, h⟩ := exec_launcher hl.load hl.loaded.start hl.image
  exact ⟨n, userRsp, s₂, h⟩

end Launched

end Jeos
