import Jeos.Descriptors
import Jeos.Lib.Extent
import Jeos.ForkIsolation

/-!
# Reading a program file

`read_elf` of `proc.c` : open the file, ask for its size, take as many pages as the size needs,
read the whole file into them and close it. The number of pages is cut to 32 bits, the length of
the read is not, and any value of `vfs_read` that is not negative counts as success.

`ProgramFile` is what the file system does for the path. `ProgramFile.Allowed` is the contract of a
read : it stores at most the bytes asked for, and when it succeeds these are the first bytes of the
file, as many as it returns. The memory a driver takes for the time of a read is left out.

The caller gets the whole file or nothing, and nothing outside the buffer is written, exactly if
the file is refused, or the read stays in the pages of the buffer and fails or leaves out no byte
that the buffer has not already (`readElf_right_iff`).

`stored` records the ranges the read wrote, `freed` the calls of `kfree`, and `buffer` the pages
`kalloc` gave. No function reads them.
-/

set_option linter.unusedSectionVars false

namespace Jeos

open ByteMemory DyadicBlock FileSystemState

/-! ## Blocks of several pages -/

/-- What a successful `kalloc(npages)` does : the block of order `o` at `v` was free and no longer
is, and the pages asked for have the pattern of `MEM_ALLOC_PATTERN`. -/
structure TakesBlock (h h' : Heap) (npages v : U64) (o : ℕ) : Prop where
  ne_zero : v ≠ 0
  pages_ne : npages ≠ 0
  order : orderFor npages = some o
  order_le : o ≤ 11
  aligned : OrderAligned o v
  mem_free : (blockAt o v).pages ⊆ h.freePages
  sound : h'.Sound
  free : h'.freePages = h.freePages \ (blockAt o v).pages
  agree : h.AgreeOutside h.freePages h'
  pattern : ∀ i < npages.toNat * 4096, h'.mem (v + BitVec.ofNat 64 i) = 5

section Block

variable {h h' g : Heap} {npages v : U64} {o : ℕ}

theorem kalloc_pattern (hk : kalloc h npages = some (h', v)) (hv : v ≠ 0) :
    ∃ m, h'.mem = ByteMemory.fill m v 5 (npages * pageSize).toNat := by
  rw [kalloc] at hk
  split_ifs at hk with h0
  · exact absurd (Prod.mk.inj (Option.some.inj hk)).2.symm hv
  · obtain ⟨o, -, hk⟩ := Option.map_eq_some_iff.1 hk
    by_cases ho : o ≥ maxOrder
    · rw [if_pos ho] at hk
      exact absurd (Prod.mk.inj hk).2.symm hv
    · by_cases hf : findOrder h (maxOrder - o) o = maxOrder
      · rw [if_neg ho, if_pos hf] at hk
        exact absurd (Prod.mk.inj hk).2.symm hv
      · rw [if_neg ho, if_neg hf] at hk
        obtain ⟨rfl, rfl⟩ := Prod.mk.inj hk
        exact ⟨_, rfl⟩

/-- No free list has a block of that many pages. -/
def Heap.Lacks (h : Heap) (npages : U64) : Prop :=
  ∀ k, npages.toNat ≤ 2 ^ k → k ≤ 11 → h.freeLists k = 0

theorem kalloc_of_lacks (hn : npages.toNat ≤ 2 ^ 63) (hl : h.Lacks npages) :
    kalloc h npages = some (h, 0) := by
  rw [kalloc, orderFor_eq hn]
  split_ifs with h0
  · rfl
  rw [Option.map_some]
  split_ifs with ho
  · rfl
  have hle : Nat.clog 2 npages.toNat + (maxOrder - Nat.clog 2 npages.toNat) = 12 := by
    unfold maxOrder at *
    omega
  obtain ⟨hge, h12, -, hne⟩ := findOrder_spec h _ _ hle
  rcases Nat.lt_or_eq_of_le h12 with hlt | heq
  · exact absurd (hl _ ((Nat.clog_le_iff_le_pow (by norm_num)).1 hge) (by omega)) (hne hlt)
  · exact congrArg some (if_pos heq)

/-- `kalloc` of any number of pages fails or takes a block. -/
theorem kalloc_block (hs : h.Sound) (hn : npages.toNat ≤ 2 ^ 63) :
    (kalloc h npages = some (h, 0) ∧ (npages = 0 ∨ h.Lacks npages)) ∨
      ∃ h' v o, kalloc h npages = some (h', v) ∧ TakesBlock h h' npages v o := by
  by_cases h0 : npages = 0
  · exact Or.inl ⟨by rw [kalloc, if_pos h0], Or.inl h0⟩
  have ho := orderFor_eq hn
  have hclog : ∀ k, npages.toNat ≤ 2 ^ k → Nat.clog 2 npages.toNat ≤ k := fun k =>
    (Nat.clog_le_iff_le_pow (by norm_num)).2
  generalize Nat.clog 2 npages.toNat = o at ho hclog
  by_cases ho' : o ≤ 11
  · obtain ⟨L, hL⟩ := hs.lists
    rcases kalloc_spec hL h0 ho ho' with
      ⟨hk, hnil⟩ | ⟨h', L', v, hk, hv, hal, hL', hd, hcov, hag⟩
    · exact Or.inl ⟨hk, Or.inr fun k hk h11 => (hL.eq_nil_iff h11).2 (hnil k (hclog k hk) h11)⟩
    · have hle := (le_of_orderFor ho).trans (Nat.pow_le_pow_right (by norm_num) ho')
      refine Or.inr ⟨h', v, o, hk, hv, h0, ho, ho', hal, ?_, ⟨⟨L', hL'⟩, hag.hhdm ▸ hs.hhdm⟩, ?_,
        ?_, fun i hi => ?_⟩
      · rw [hL.freePages_eq, ← hcov]
        exact Set.subset_union_right
      · rw [hL'.freePages_eq, hL.freePages_eq, ← hcov, Set.union_sdiff_right,
          hd.symm.sdiff_eq_left]
      · rwa [hL.freePages_eq]
      · obtain ⟨m, hm⟩ := kalloc_pattern hk hv
        have hlen : (npages * pageSize).toNat = npages.toNat * 4096 := by
          rw [BitVec.toNat_mul, pageSize_toNat, Nat.mod_eq_of_lt (by omega)]
        rw [hm, hlen, fill_apply, if_pos (within_add _ hi (by omega))]
  · refine Or.inl ⟨?_, Or.inr fun k hk h11 => absurd ((hclog k hk).trans h11) ho'⟩
    rw [kalloc, if_neg h0, ho, Option.map_some,
      if_pos (show o ≥ maxOrder by unfold maxOrder; omega)]

/-- The bytes of the pages asked for are in the block. -/
theorem TakesBlock.pageOf_mem {x : U64} (ht : TakesBlock h h' npages v o)
    (hx : Within x v (npages.toNat * 4096)) : pageOf x ∈ (blockAt o v).pages := by
  have hle := le_of_orderFor ht.order
  exact pageOf_mem_of_within ht.order_le ht.aligned (by omega) hx

/-- A block of pages from the allocator. -/
structure HeldBlock (h : Heap) (npages v : U64) (o : ℕ) : Prop where
  ne_zero : v ≠ 0
  pages_ne : npages ≠ 0
  order : orderFor npages = some o
  order_le : o ≤ 11
  aligned : OrderAligned o v
  held : Disjoint (blockAt o v).pages h.freePages

theorem HeldBlock.kfree (hb : HeldBlock h npages v o) (hs : h.Sound) :
    ∃ h', Jeos.kfree h v npages = some h' ∧ h'.Sound ∧
      h'.freePages = h.freePages ∪ (blockAt o v).pages ∧
      h.AgreeOutside (h.freePages ∪ (blockAt o v).pages) h' := by
  obtain ⟨L, hL⟩ := hs.lists
  obtain ⟨h', L', hk, hL', hrel, hag⟩ := kfree_spec hL hb.pages_ne hb.order hb.order_le hb.aligned
    hb.ne_zero (hL.freePages_eq ▸ hb.held)
  rw [← hL.freePages_eq] at hag
  refine ⟨h', hk, ⟨⟨L', hL'⟩, hag.hhdm ▸ hs.hhdm⟩, ?_, hag⟩
  rw [hL'.freePages_eq, hrel, cover_release, ← hL.freePages_eq]

theorem TakesBlock.held (ht : TakesBlock h h' npages v o) (hf : g.freePages = h'.freePages) :
    HeldBlock g npages v o :=
  ⟨ht.ne_zero, ht.pages_ne, ht.order, ht.order_le, ht.aligned, by
    rw [hf, ht.free]
    exact Set.disjoint_sdiff_right⟩

/-- A block that was taken is freed, after changes outside the free pages. -/
theorem TakesBlock.release (ht : TakesBlock h h' npages v o) (g : Heap)
    (hl : g.freeLists = h'.freeLists) (hh : g.hhdmOffset = h'.hhdmOffset)
    (hm : ∀ x, pageOf x ∈ h'.freePages → g.mem x = h'.mem x) :
    ∃ g', Jeos.kfree g v npages = some g' ∧ g'.Sound ∧ g'.freePages = h.freePages ∧
      g.AgreeOutside h.freePages g' := by
  obtain ⟨hg, hfree⟩ := ht.sound.congr g hl hh hm
  obtain ⟨g', hk, hs', hfree', hag⟩ := (ht.held hfree).kfree hg
  have hback : g.freePages ∪ (blockAt o v).pages = h.freePages := by
    rw [hfree, ht.free, Set.sdiff_union_self, Set.union_eq_left]
    exact ht.mem_free
  rw [hback] at hfree' hag
  exact ⟨g', hk, hs', hfree', hag⟩

/-- A block that was taken and written is freed : the allocator is as before. -/
theorem TakesBlock.kfree (ht : TakesBlock h h' npages v o) (g : Heap)
    (hl : g.freeLists = h'.freeLists) (hh : g.hhdmOffset = h'.hhdmOffset)
    (hm : ∀ x, pageOf x ∉ (blockAt o v).pages → g.mem x = h'.mem x) :
    ∃ g', Jeos.kfree g v npages = some g' ∧ g'.Sound ∧ g'.freePages = h.freePages ∧
      h.AgreeOutside h.freePages g' := by
  obtain ⟨g', hk, hs', hfree', hag⟩ := ht.release g hl hh fun x hx => hm x (by
    rw [ht.free] at hx
    exact hx.2)
  refine ⟨g', hk, hs', hfree', hag.hhdm.trans (hh.trans ht.agree.hhdm), fun x hx => ?_⟩
  rw [hag.mem x hx, hm x fun hx' => hx (ht.mem_free hx'), ht.agree.mem x hx]

end Block

/-! ## `read_elf` -/

/-- What one call of the read operation does : the bytes it stores at the buffer, how many they
are, and its value. -/
structure ReadReply where
  bytes : Mem
  stored : ℕ
  result : U64

/-- What the file system does for a path : `vfs_open`, the size of `vfs_fstat`, unless it fails,
and the read operation of the file, given the length asked for. -/
structure ProgramFile where
  opened : Opened
  size : Option U64
  read : U64 → ReadReply

/-- `npages`. -/
def elfPages (size : U64) : U32 := ((size + pageSize - 1) / pageSize).setWidth 32

/-- The state when `read_elf` returns, and the buffer and `*pages_out`, unless it returns 0. -/
structure ElfBuffer where
  heap : Heap
  files : FileSystemState
  stored : List (Extent 64)
  freed : List U64
  buffer : Option (U64 × U32)
  result : Option (U64 × U32)

/-- `vfs_read` : a file without a read operation stores nothing. -/
def ProgramFile.vfsRead (p : ProgramFile) (s : FileSystemState) (f : ℕ) (buf count : U64) :
    ReadReply :=
  match s.vfsRead f buf count with
  | .ret v => ⟨fun _ => 0, 0, v⟩
  | _ => p.read count

/-- `read_elf`. -/
def ProgramFile.readElf (p : ProgramFile) (h : Heap) (s : FileSystemState) : Option ElfBuffer :=
  match s.vfsOpen p.opened with
  | (s, none) => some ⟨h, s, [], [], none, none⟩
  | (s, some f) =>
    match p.size with
    | none => (s.vfsClose f).map fun s => ⟨h, s, [], [], none, none⟩
    | some size =>
      let npages := elfPages size
      (kalloc h (npages.setWidth 64)).bind fun (h, buf) =>
        if buf = 0 then (s.vfsClose f).map fun s => ⟨h, s, [], [], none, none⟩
        else
          let r := p.vfsRead s f buf size
          let h := { h with mem := paste h.mem buf r.bytes 0 r.stored }
          let stored := [⟨buf, r.stored⟩]
          if r.result.slt 0 then
            (kfree h buf (npages.setWidth 64)).bind fun h =>
              (s.vfsClose f).map fun s => ⟨h, s, stored, [buf], some (buf, npages), none⟩
          else
            (s.vfsClose f).map fun s =>
              ⟨h, s, stored, [], some (buf, npages), some (buf, npages)⟩

/-! ## What it does -/

namespace ProgramFile

variable {p : ProgramFile} {content : Mem} {size : U64} {h : Heap} {s : FileSystemState}

/-- The file can be read. -/
def readable (p : ProgramFile) : Bool := p.opened.elim false fun o => o.2.1

/-- What `vfs_read` does for a read of `size` bytes. -/
def reply (p : ProgramFile) (size : U64) : ReadReply :=
  if p.readable then p.read size else ⟨fun _ => 0, 0, vfsENOSYS⟩

/-- The contract of the read operation. -/
def Allowed (p : ProgramFile) (content : Mem) : Prop :=
  ∀ count, (p.read count).stored ≤ count.toNat ∧
    ((p.read count).result.slt 0 = false →
      (p.read count).result = BitVec.ofNat 64 (p.read count).stored ∧
        ∀ i < (p.read count).stored,
          (p.read count).bytes (BitVec.ofNat 64 i) = content (BitVec.ofNat 64 i))

/-- The path is not found, has no size, or there are no pages for it. -/
def Refused (p : ProgramFile) (h : Heap) : Prop :=
  p.opened = none ∨
    ∀ size, p.size = some size → kalloc h ((elfPages size).setWidth 64) = some (h, 0)

theorem Allowed.reply_stored (ha : p.Allowed content) (size : U64) :
    (p.reply size).stored ≤ size.toNat := by
  unfold reply
  split_ifs
  · exact (ha size).1
  · exact Nat.zero_le _

theorem Allowed.reply_bytes (ha : p.Allowed content) (hr : (p.reply size).result.slt 0 = false)
    {i : ℕ} (hi : i < (p.reply size).stored) :
    (p.reply size).bytes (BitVec.ofNat 64 i) = content (BitVec.ofNat 64 i) := by
  unfold reply at *
  split_ifs at * with hread
  · exact ((ha size).2 (by simpa [hread] using hr)).2 i hi
  · exact absurd hi (Nat.not_lt_zero i)

end ProgramFile

/-- Nothing is open that was not open before, and what was is as it was. -/
structure FilesKept (s s' : FileSystemState) : Prop where
  fds : s'.fds = s.fds
  procState : s'.procState = s.procState
  pipe : s'.pipe = s.pipe
  live : ∀ i, (s'.file i).live = (s.file i).live
  refcnt : ∀ i, (s'.file i).refcnt = (s.file i).refcnt
  old : ∀ i < s.nextFile,
    (s'.file i).inode = (s.file i).inode ∧ (s'.file i).fops = (s.file i).fops

section Files

variable {s s₁ s' : FileSystemState} {p : ProgramFile} {f : ℕ} {buf : U64}

theorem FileSystemState.FilesOk.filesKept (h : FilesOk s []) (h' : FilesOk s' [])
    (ho : FilesOpened s s') (hfds : s'.fds = s.fds) : FilesKept s s' := by
  have hcnt : ∀ i, (s'.file i).refcnt = (s.file i).refcnt := fun i =>
    BitVec.eq_of_toNat_eq (by rw [h'.counts, h.counts, hfds])
  exact ⟨hfds, ho.procState, ho.pipe, fun i => by rw [h'.live, h.live, hcnt], hcnt, ho.old⟩

theorem FilesKept.refl (s : FileSystemState) : FilesKept s s :=
  ⟨rfl, rfl, rfl, fun _ => rfl, fun _ => rfl, fun _ _ => ⟨rfl, rfl⟩⟩

/-- The file `vfs_open` gives is read with its own operation. -/
theorem ProgramFile.vfsRead_eq (ho : s.vfsOpen p.opened = (s₁, some f)) (hbuf : buf ≠ 0)
    (count : U64) : p.vfsRead s₁ f buf count = p.reply count := by
  cases hop : p.opened with
  | none =>
    rw [hop] at ho
    cases ho
  | some o =>
    obtain ⟨inode, read, write⟩ := o
    rw [hop] at ho
    obtain ⟨rfl, hf⟩ := Prod.mk.inj ho
    obtain rfl := Option.some.inj hf
    rw [ProgramFile.vfsRead, ProgramFile.reply, ProgramFile.readable, hop, FileSystemState.vfsRead,
      if_neg hbuf]
    cases read <;> simp [FileSystemState.newFile, FileSystemState.setFile]

end Files

namespace ProgramFile

variable {p : ProgramFile} {content : Mem} {size v : U64} {h h₁ : Heap} {s s' : FileSystemState}

/-- The memory after `vfs_read`. -/
def filled (p : ProgramFile) (size v : U64) (h : Heap) : Heap :=
  { h with mem := paste h.mem v (p.reply size).bytes 0 (p.reply size).stored }

theorem filled_eq (p : ProgramFile) (size v : U64) (h : Heap) : (p.filled size v h).mem =
    paste h.mem v (p.reply size).bytes 0 (p.reply size).stored := rfl

/-- How `read_elf` ends once it has its pages at `v`. -/
def finish (p : ProgramFile) (size v : U64) (h : Heap) (s : FileSystemState) : Option ElfBuffer :=
  let npages := elfPages size
  let stored := [⟨v, (p.reply size).stored⟩]
  if (p.reply size).result.slt 0 then
    (kfree (p.filled size v h) v (npages.setWidth 64)).map fun h =>
      ⟨h, s, stored, [v], some (v, npages), none⟩
  else some ⟨p.filled size v h, s, stored, [], some (v, npages), some (v, npages)⟩

/-- `read_elf` is refused, or has its pages and reads. It closes the file in every case. -/
theorem readElf_cases (hs : h.Sound) (hf : FilesOk s []) : ∃ s', FilesOk s' [] ∧
    FilesOpened s s' ∧ FilesKept s s' ∧
      (p.Refused h ∧ p.readElf h s = some ⟨h, s', [], [], none, none⟩ ∨
        ¬p.Refused h ∧ ∃ size h₁ v o, p.size = some size ∧
          TakesBlock h h₁ ((elfPages size).setWidth 64) v o ∧
          kalloc h ((elfPages size).setWidth 64) = some (h₁, v) ∧
          p.readElf h s = p.finish size v h₁ s') := by
  rcases vfsOpen_spec hf p.opened with he | ⟨s₁, he, hok₁, hnew₁, hfds₁⟩
  · refine ⟨s, hf, (SameObjects.refl s).filesOpened, FilesKept.refl s, Or.inl ⟨Or.inl ?_, ?_⟩⟩
    · cases hop : p.opened with
      | none => rfl
      | some o =>
        rw [hop] at he
        exact absurd (congrArg Prod.snd he) (Option.some_ne_none _)
    · rw [readElf, he]
  obtain ⟨s₂, hs₂, hok₂, hfds₂, hsame₂⟩ := vfsClose_spec hok₁
  have hopen : p.opened ≠ none := fun hno => by
    rw [hno] at he
    cases he
  have hnew := hnew₁.trans hsame₂.filesOpened
  refine ⟨s₂, hok₂, hnew, hf.filesKept hok₂ hnew (hfds₂.trans hfds₁), ?_⟩
  cases hsz : p.size with
  | none =>
    refine Or.inl ⟨Or.inr fun _ h => by simp [hsz] at h, ?_⟩
    simp only [readElf, he, hsz, hs₂, Option.map_some]
  | some size =>
    have hn : ((elfPages size).setWidth 64).toNat ≤ 2 ^ 63 := by
      rw [BitVec.toNat_setWidth_of_le (by norm_num)]
      exact (elfPages size).isLt.le.trans (by norm_num)
    rcases kalloc_block hs hn with ⟨hk, -⟩ | ⟨h₁, v, o, hk, ht⟩
    · refine Or.inl ⟨Or.inr fun sz hsz' => ?_, ?_⟩
      · rw [hsz, Option.some.injEq] at hsz'
        rwa [← hsz']
      · simp only [readElf, he, hsz, hk, Option.bind_some, if_true, hs₂, Option.map_some]
    · refine Or.inr ⟨?_, size, h₁, v, o, rfl, ht, hk, ?_⟩
      · rintro (hno | hno)
        · exact hopen hno
        · exact ht.ne_zero (Prod.mk.inj (Option.some.inj (hk.symm.trans (hno size hsz)))).2
      · simp only [readElf, he, hsz, hk, Option.bind_some, if_neg ht.ne_zero,
          ProgramFile.vfsRead_eq he ht.ne_zero, hs₂, Option.map_some]
        rw [finish, Option.map_eq_bind]
        rfl

/-- With a free page, a file of one page that is found is read. -/
theorem readElf_one (hs : h.Sound) (hf : FilesOk s []) (hfree : h.freePages.Nonempty)
    (hopen : p.opened ≠ none) (hsz : p.size = some size) (hone : elfPages size = 1) :
    ∃ s' h₁ v o, FilesKept s s' ∧ TakesPage h h₁ v ∧ kalloc h 1 = some (h₁, v) ∧
      TakesBlock h h₁ ((elfPages size).setWidth 64) v o ∧
      p.readElf h s = p.finish size v h₁ s' := by
  have hn64 : (elfPages size).setWidth 64 = (1 : U64) := by
    rw [hone]
    decide
  obtain ⟨-, hempty⟩ | ⟨h', v', hk', ht'⟩ := kalloc_one hs
  · exact absurd hempty hfree.ne_empty
  obtain ⟨s', -, -, hkept, ⟨hno, -⟩ | ⟨-, size', h₁, v, o, hsz', ht, hk, hread⟩⟩ :=
    readElf_cases (p := p) hs hf
  · rcases hno with hno | hno
    · exact absurd hno hopen
    · have h0 := hno size hsz
      rw [hn64, hk'] at h0
      exact absurd (Prod.mk.inj (Option.some.inj h0)).2 ht'.ne_zero
  · obtain rfl := Option.some.inj (hsz.symm.trans hsz')
    rw [hn64, hk'] at hk
    obtain ⟨rfl, rfl⟩ := Prod.mk.inj (Option.some.inj hk)
    exact ⟨s', h', v', o, hkept, ht', hk', ht, hread⟩

/-- The number of pages, cut to 32 bits. -/
theorem elfPages_toNat (size : U64) :
    (elfPages size).toNat = (size.toNat + 4096 - 1) % 2 ^ 64 / 4096 % 2 ^ 32 := by
  have hsz := size.isLt
  rw [elfPages, BitVec.toNat_setWidth, BitVec.toNat_udiv, BitVec.toNat_sub, BitVec.toNat_add,
    pageSize_toNat, show (1 : U64).toNat = 1 from rfl]
  omega

/-- The pages hold the file, unless their number was cut. -/
theorem le_elfPages_iff (size : U64) :
    size.toNat ≤ (elfPages size).toNat * 4096 ↔ size.toNat ≤ (2 ^ 32 - 1) * 4096 := by
  have hsz := size.isLt
  rw [elfPages_toNat]
  omega

section Filled

variable {o : ℕ} (ht : TakesBlock h h₁ ((elfPages size).setWidth 64) v o)

include ht

/-- The read stays in the pages of the buffer. -/
theorem filled_mem (hst : (p.reply size).stored ≤ (elfPages size).toNat * 4096) {x : U64}
    (hx : pageOf x ∉ (blockAt o v).pages) : (p.filled size v h₁).mem x = h₁.mem x :=
  paste_of_not_within fun hx' => hx (ht.pageOf_mem (lt_of_lt_of_le hx' (by
    rwa [BitVec.toNat_setWidth_of_le (by norm_num)])))

theorem filled_agree (hst : (p.reply size).stored ≤ (elfPages size).toNat * 4096) :
    h.AgreeOutside h.freePages (p.filled size v h₁) where
  hhdm := ht.agree.hhdm
  mem x hx := (filled_mem ht hst fun hx' => hx (ht.mem_free hx')).trans (ht.agree.mem x hx)

/-- Where the read stored nothing, the buffer has the pattern of `kalloc`. -/
theorem filled_rest {i : ℕ} (hst : (p.reply size).stored ≤ i)
    (hi : i < (elfPages size).toNat * 4096) :
    (p.filled size v h₁).mem (v + BitVec.ofNat 64 i) = 5 := by
  have hn : (elfPages size).toNat < 2 ^ 32 := (elfPages size).isLt
  rw [filled_eq, paste_of_not_within,
    ht.pattern i (by rwa [BitVec.toNat_setWidth_of_le (by norm_num)])]
  rw [Within, toNat_add_sub_self _ (by omega)]
  omega

end Filled

theorem filled_stored (ha : p.Allowed content) (hr : (p.reply size).result.slt 0 = false) {i : ℕ}
    (hi : i < (p.reply size).stored) :
    (p.filled size v h).mem (v + BitVec.ofNat 64 i) = content (BitVec.ofNat 64 i) := by
  have hst := ha.reply_stored size
  rw [filled_eq, paste_add hi (by omega),
    show (0 : U64) + BitVec.ofNat 64 i = BitVec.ofNat 64 i from BitVec.zero_add _,
    ha.reply_bytes hr hi]

/-! ## The whole file or nothing -/

/-- `read_elf` returns, the file is closed, nothing outside free pages and outside the buffer is
written, and the caller has the whole file in the buffer, or nothing with all memory freed. -/
def ReadsWhole (p : ProgramFile) (content : Mem) (h : Heap) (s : FileSystemState) : Prop :=
  ∃ r, p.readElf h s = some r ∧ FilesKept s r.files ∧ h.AgreeOutside h.freePages r.heap ∧
    (∀ e ∈ r.stored, ∃ b ∈ r.buffer, ∀ x,
      Within x e.start e.length → Within x b.1 (b.2.toNat * 4096)) ∧
    (r.result = none ∧ r.heap.Sound ∧ r.heap.freePages = h.freePages ∨
      ∃ buf pages size, r.result = some (buf, pages) ∧ p.size = some size ∧
        size.toNat ≤ pages.toNat * 4096 ∧
          ∀ i < size.toNat, r.heap.mem (buf + BitVec.ofNat 64 i) = content (BitVec.ofNat 64 i))

/-- The read stays in the pages of the buffer, and fails, or leaves out no byte of the file but
those the pages have already. -/
def ReadFits (p : ProgramFile) (content : Mem) (size : U64) : Prop :=
  (p.reply size).stored ≤ (elfPages size).toNat * 4096 ∧
    ((p.reply size).result.slt 0 = true ∨ size.toNat ≤ (2 ^ 32 - 1) * 4096 ∧
      ∀ i, (p.reply size).stored ≤ i → i < size.toNat → content (BitVec.ofNat 64 i) = 5)

theorem readElf_right_iff (hs : h.Sound) (hf : FilesOk s []) (ha : p.Allowed content) :
    p.ReadsWhole content h s ↔
      p.Refused h ∨ ∃ size, p.size = some size ∧ p.ReadFits content size := by
  obtain ⟨s', -, -, hkept, ⟨hno, hr⟩ | ⟨hno, size, h₁, v, o, hsz, ht, -, hr⟩⟩ :=
    readElf_cases (p := p) hs hf
  · refine iff_of_true ⟨_, hr, hkept, ⟨rfl, fun _ _ => rfl⟩, fun e he => ?_, ?_⟩ (Or.inl hno)
    · exact absurd he List.not_mem_nil
    · exact Or.inl ⟨rfl, hs, rfl⟩
  have hn : ((elfPages size).setWidth 64).toNat = (elfPages size).toNat :=
    BitVec.toNat_setWidth_of_le (by norm_num)
  have hlt : (elfPages size).toNat < 2 ^ 32 := (elfPages size).isLt
  rw [or_iff_right hno]
  constructor
  · rintro ⟨r, hr', -, -, hin, hres⟩
    refine ⟨size, hsz, ?_⟩
    rw [hr, finish] at hr'
    have hstored : r.stored = [⟨v, (p.reply size).stored⟩] ∧
        r.buffer = some (v, elfPages size) := by
      split_ifs at hr' with hneg
      · obtain ⟨g, -, rfl⟩ := Option.map_eq_some_iff.1 hr'
        exact ⟨rfl, rfl⟩
      · obtain rfl := Option.some.inj hr'
        exact ⟨rfl, rfl⟩
    rw [hstored.1, hstored.2] at hin
    have hst : (p.reply size).stored ≤ (elfPages size).toNat * 4096 := by
      by_contra hlong
      obtain ⟨b, hb, hall⟩ := hin _ List.mem_cons_self
      obtain rfl := Option.some.inj hb
      have := hall (v + BitVec.ofNat 64 ((elfPages size).toNat * 4096))
        (within_add v (Nat.lt_of_not_le hlong) ((ha.reply_stored size).trans size.isLt.le))
      rw [Within, toNat_add_sub_self _ (by omega)] at this
      exact lt_irrefl _ this
    refine ⟨hst, ?_⟩
    split_ifs at hr' with hneg
    · exact Or.inl hneg
    · obtain rfl := Option.some.inj hr'
      rcases hres with ⟨hnone, -⟩ | ⟨buf, pages, size', hbuf, hsz', hle, hbytes⟩
      · exact absurd hnone (Option.some_ne_none _)
      · obtain rfl := Option.some.inj (hsz.symm.trans hsz')
        obtain ⟨rfl, rfl⟩ := Prod.mk.inj (Option.some.inj hbuf)
        refine Or.inr ⟨(le_elfPages_iff size).1 hle, fun i hi hi' => ?_⟩
        rw [← hbytes i hi', filled_rest ht hi (by omega)]
  · rintro ⟨size', hsz', hst, hfit⟩
    obtain rfl := Option.some.inj (hsz.symm.trans hsz')
    have hin : ∀ e ∈ [(⟨v, (p.reply size).stored⟩ : Extent 64)],
        ∃ b ∈ some (v, elfPages size), ∀ x,
          Within x e.start e.length → Within x b.1 (b.2.toNat * 4096) := by
      rintro e he
      obtain rfl := List.mem_singleton.1 he
      exact ⟨_, rfl, fun x hx => lt_of_lt_of_le hx hst⟩
    by_cases hneg : (p.reply size).result.slt 0 = true
    · obtain ⟨g, hk, hg, hfree, hag⟩ := ht.kfree (p.filled size v h₁) rfl rfl
        fun x hx => filled_mem ht hst hx
      refine ⟨⟨g, s', [⟨v, (p.reply size).stored⟩], [v], some (v, elfPages size), none⟩, ?_, hkept,
        hag, hin, Or.inl ⟨rfl, hg, hfree⟩⟩
      rw [hr, finish, if_pos hneg, hk, Option.map_some]
    · obtain ⟨hsize, hrest⟩ := hfit.resolve_left hneg
      refine ⟨_, by rw [hr, finish, if_neg hneg], hkept, filled_agree ht hst, hin,
        Or.inr ⟨v, elfPages size, size, rfl, hsz, (le_elfPages_iff size).2 hsize, fun i hi => ?_⟩⟩
      have hle := (le_elfPages_iff size).2 hsize
      by_cases hi' : i < (p.reply size).stored
      · exact filled_stored ha (Bool.eq_false_iff.2 hneg) hi'
      · rw [hrest i (by omega) hi]
        exact filled_rest ht (by omega) (by omega)

/-- A file of one byte. A read stores `stored` bytes of it at most. -/
def oneByte (stored : ℕ) : ProgramFile where
  opened := some (⟨0, none, none⟩, true, false)
  size := some 1
  read count :=
    ⟨fun _ => 0x61, min stored count.toNat, BitVec.ofNat 64 (min stored count.toNat)⟩

theorem oneByte_allowed (k : ℕ) : (oneByte k).Allowed fun _ => 0x61 :=
  fun _ => ⟨Nat.min_le_right _ _, fun _ => ⟨rfl, fun _ _ => rfl⟩⟩

theorem readElf_right_oneByte : ∃ h, h.Sound ∧ ¬(oneByte 1).Refused h ∧
    (oneByte 1).ReadsWhole (fun _ => 0x61) h boot := by
  obtain ⟨h, -, hs, hcard⟩ := exists_boot_heap
  refine ⟨h, hs, ?_, (readElf_right_iff hs pipesOk_boot.files (oneByte_allowed 1)).2
    (Or.inr ⟨1, rfl, by decide, Or.inr ⟨by decide, fun i hi hi' => absurd hi' hi.not_gt⟩⟩)⟩
  rintro (hno | hno)
  · exact Option.some_ne_none _ hno
  · rcases kalloc_one hs with ⟨-, hfree⟩ | ⟨h', v, hk, ht⟩
    · rw [hfree, Set.ncard_empty] at hcard
      exact absurd hcard (by norm_num)
    · exact ht.ne_zero (Prod.mk.inj (Option.some.inj (hk.symm.trans (hno 1 rfl)))).2

theorem readElf_short : ∃ h r buf, h.Sound ∧ (oneByte 0).Allowed (fun _ => 0x61) ∧
    (oneByte 0).readElf h boot = some r ∧ r.result = some (buf, 1) ∧ r.heap.mem buf = 5 ∧
      ¬(oneByte 0).ReadsWhole (fun _ => 0x61) h boot := by
  obtain ⟨h, -, hs, hcard⟩ := exists_boot_heap
  have hone : (elfPages 1).setWidth 64 = 1 := by decide
  obtain ⟨s', -, -, -, ⟨hno, -⟩ | ⟨-, size, h₁, v, o, hsz, ht, -, hr⟩⟩ :=
    readElf_cases (p := oneByte 0) hs pipesOk_boot.files
  · rcases hno with hno | hno
    · exact absurd hno (Option.some_ne_none _)
    · have hk := hno 1 rfl
      rw [hone] at hk
      rcases kalloc_one hs with ⟨-, hfree⟩ | ⟨h', v, hk', ht⟩
      · rw [hfree, Set.ncard_empty] at hcard
        exact absurd hcard (by norm_num)
      · exact absurd (Prod.mk.inj (Option.some.inj (hk'.symm.trans hk))).2 ht.ne_zero
  obtain rfl : 1 = size := Option.some.inj hsz
  have hmem : ((oneByte 0).filled 1 v h₁).mem (v + BitVec.ofNat 64 0) = 5 :=
    filled_rest ht (Nat.le_refl 0) (by decide)
  rw [finish, if_neg (by decide)] at hr
  refine ⟨h, _, v, hs, oneByte_allowed 0, hr, rfl, ?_, ?_⟩
  · rwa [BitVec.add_zero] at hmem
  · rintro ⟨r, hr', -, -, -, hres⟩
    obtain rfl := Option.some.inj (hr.symm.trans hr')
    rcases hres with ⟨hnone, -⟩ | ⟨buf, pages, size, hbuf, hsz', -, hbytes⟩
    · exact absurd hnone (Option.some_ne_none _)
    · obtain ⟨rfl, -⟩ := Prod.mk.inj (Option.some.inj hbuf)
      obtain rfl : 1 = size := Option.some.inj hsz'
      exact absurd (hmem.symm.trans (hbytes 0 (by decide))) (by decide)

end ProgramFile

end Jeos
