import Jeos.ForkFrame
import Jeos.ForkPages
import Jeos.PipeLifetime

/-!
# `proc_fork` when memory runs out

The process table, the open files and the allocator together, and `proc_fork` with
everything it takes one after the other : a table entry, two pages for the kernel stack,
the top page table, the pages of the copy, and the references of the descriptors.

A fork that returns a process must have copied all user pages, and one that returns -1
must have changed nothing (`AllOrNothing`). `fork_all_or_nothing` says when this is so.
Without a free pair of pages the entry keeps the process number it was given. Without a
page for the top table the kernel stack is lost (`noTop_fork`). With too few pages for the
copy the process is returned all the same, since `copy_user_pml4` does not report that a
page is missing.
-/

set_option linter.unusedSectionVars false

namespace Jeos

open ByteMemory PagingState FileSystemState

/-! ## The functions -/

/-- `struct proc` but for `exit_code`, which a fork does not set. The fields `state` and `files`
are in the tables of `FileSystemState`. -/
structure ProcRecord where
  pid : U32
  ppid : U32
  pml4 : U64
  kstack : U64
  context : U64
  tf : TfField → U64
  brk : U64
  name : Fin 16 → U8

/-- The allocator, `proc_table`, the open files and `next_pid`. -/
structure ForkState where
  heap : Heap
  files : FileSystemState
  entry : Fin maxProcs → ProcRecord
  nextPid : U32

/-- `build_fork_tf`, as the frame it builds. -/
def forkTf (src : TfField → U64) : TfField → U64 :=
  let dst := forkMoves.foldl (fun dst e => Function.update dst e.1 (src e.2)) fun _ => 0
  Function.update (Function.update (Function.update dst .cs userCs) .ss userDs) .rax 0

/-- The frame `kstack_setup` makes for a process without one. -/
def freshTf (entry userRsp : U64) : TfField → U64
  | .cs => userCs
  | .ss => userDs
  | .rip => entry
  | .rsp => userRsp
  | .rflags => 0x202
  | _ => 0

/-- The fields in the order of `struct trap_frame`. -/
def TfField.all : List TfField :=
  [.r15, .r14, .r13, .r12, .r11, .r10, .r9, .r8, .rbp, .rdi, .rsi, .rdx, .rcx, .rbx, .rax, .intNo,
    .errorCode, .rip, .cs, .rflags, .rsp, .ss]

/-- A trap frame is written at `p`. -/
def writeTf (m : Mem) (p : U64) (tf : TfField → U64) : Mem :=
  TfField.all.foldl (fun m f => storeTf m p f (tf f)) m

namespace ForkState

variable (s : ForkState)

def setEntry (c : Fin maxProcs) (p : ProcRecord) : ForkState :=
  { s with entry := Function.update s.entry c p }

def setProcState (c : Fin maxProcs) (st : ProcState) : ForkState :=
  { s with files := s.files.setProcState c st }

/-- `proc_alloc`. -/
def procAlloc : Option (ForkState × Option (Fin maxProcs)) :=
  match s.files.unusedProc with
  | none => some (s, none)
  | some c =>
    let s := { s.setEntry c { s.entry c with pid := s.nextPid } with nextPid := s.nextPid + 1 }
    let s := s.setProcState c .embryo
    (kalloc s.heap (kstackSize / pageSize)).map fun (h, v) =>
      let s := { s.setEntry c { s.entry c with kstack := v } with heap := h }
      if v = 0 then (s.setProcState c .unused, none)
      else ({ s with heap := { s.heap with mem := fill s.heap.mem v 0 kstackSize.toNat } }, some c)

/-- `kstack_setup`, with the addresses of `forkret` and `trapret`. -/
def kstackSetup (c : Fin maxProcs) (entry userRsp forkret trapret : U64) : ForkState :=
  let p := s.entry c
  let sp := p.kstack + kstackSize - BitVec.ofNat 64 (CType.struct trapFrameFields).size
  let m := if p.tf .rip ≠ 0 then writeTf s.heap.mem sp p.tf
    else writeTf s.heap.mem sp (freshTf entry userRsp)
  let sp := sp - BitVec.ofNat 64 8
  let m := store64 m sp trapret
  let sp := sp - BitVec.ofNat 64 (CType.struct contextFields).size
  let m := fill m sp 0 (CType.struct contextFields).size
  let m := store64 m (fieldAddr contextFields sp 6) forkret
  { s.setEntry c { p with context := sp } with heap := { s.heap with mem := m } }

/-- `proc_fork` by the process `current`, with the value of CR3. It returns the number of the
child, or -1. -/
def procFork (current : Option (Fin maxProcs)) (cr3 forkret trapret : U64) :
    Option (ForkState × U32) :=
  match current with
  | none => some (s, -1)
  | some k =>
    s.procAlloc.bind fun
      | (s, none) => some (s, -1)
      | (s, some c) =>
        (createUserPml4 ⟨s.heap, true⟩ cr3).bind fun (t, pml4) =>
          let s := { s.setEntry c { s.entry c with pml4 := pml4 } with heap := t.heap }
          if pml4 = 0 then some (s.setProcState c .unused, -1)
          else
            (copyUserPml4 t pml4 (s.entry k).pml4).bind fun t =>
              let s := { s with heap := t.heap }
              let s := s.setEntry c { s.entry c with tf := forkTf (s.entry k).tf }
              let s := s.kstackSetup c 0 0 forkret trapret
              ((List.finRange maxFds).foldlM (fun s' fd => inheritFd s' k c fd) s.files).map
                fun files =>
                  let s := { s with files := files }
                  let s := s.setEntry c { s.entry c with
                    name := (s.entry k).name
                    ppid := (s.entry k).pid
                    brk := (s.entry k).brk }
                  (s.setProcState c .runnable, (s.entry c).pid)

end ForkState

/-! ## The kernel stack -/

/-- The two pages of a kernel stack. -/
def stackPages (v : U64) : Set ℕ := {pageOf v, pageOf v + 1}

/-- A free list with blocks of two pages or more is not empty. -/
def PairFree (h : Heap) : Prop := ∃ o < 12, 1 ≤ o ∧ h.freeLists o ≠ 0

instance (h : Heap) : Decidable (PairFree h) := inferInstanceAs (Decidable (∃ o < 12, _))

/-- `v` is a block of two pages that was free and no longer is. -/
structure TakesStack (h h' : Heap) (v : U64) : Prop where
  ne_zero : v ≠ 0
  pair : PairFree h
  aligned : PageAligned v
  last : pageOf v + 1 < 2 ^ 52
  mem_free : stackPages v ⊆ h.freePages
  sound : h'.Sound
  free : h'.freePages = h.freePages \ stackPages v
  agree : h.AgreeOutside h.freePages h'

section Stack

variable {h h' : Heap} {v x p : U64} {m : Mem}

theorem pages_blockAt_one (hv : OrderAligned 1 v) : (blockAt 1 v).pages = stackPages v := by
  have heven : 2 ∣ pageOf v := by
    obtain ⟨k, hk⟩ := hv
    exact ⟨k, by rw [pageOf, hk]; omega⟩
  ext k
  simp only [DyadicBlock.mem_pages, blockAt, stackPages, Set.mem_insert_iff, Set.mem_singleton_iff]
  omega

theorem ncard_stackPages (v : U64) : (stackPages v).ncard = 2 :=
  Set.ncard_pair (Nat.succ_ne_self _).symm

/-- `kalloc(2)` fails when there is no free pair of pages, and takes one else. -/
theorem kalloc_stack (hs : h.Sound) :
    (¬PairFree h ∧ kalloc h 2 = some (h, 0)) ∨
      ∃ h' v, kalloc h 2 = some (h', v) ∧ TakesStack h h' v := by
  obtain ⟨L, hL⟩ := hs.lists
  have ho : orderFor 2 = some 1 := by decide
  obtain ⟨-, -, hempty, -⟩ := findOrder_spec h 11 1 rfl
  rcases kalloc_spec hL (show (2 : U64) ≠ 0 by decide) ho (by omega) with
    ⟨hk, hnil⟩ | ⟨h', L', v, hk, hv, hal, hL', hd, hcov, hag⟩
  · refine Or.inl ⟨?_, hk⟩
    rintro ⟨o, h12, h1, hne⟩
    have h11 : o ≤ 11 := Nat.le_of_lt_succ h12
    exact hne ((hL.eq_nil_iff h11).2 (hnil o h1 h11))
  · have hpair : PairFree h := by
      by_contra hno
      have hall : findOrder h 11 1 = 12 := by
        obtain ⟨hge, hle, -, hne⟩ := findOrder_spec h 11 1 rfl
        by_contra h12
        exact hno ⟨_, by omega, hge, hne (by omega)⟩
      have hzero : kalloc h 2 = some (h, 0) := by
        rw [kalloc, if_neg (by decide), ho, Option.map_some, if_neg (by decide)]
        change some (if findOrder h 11 1 = 12 then (h, 0) else _) = _
        rw [if_pos hall]
      exact hv (Prod.mk.inj (Option.some.inj (hk.symm.trans hzero))).2
    have hlt := hal.add_le (by omega)
    rw [pages_blockAt_one hal] at hd hcov
    refine Or.inr ⟨h', v, hk, hv, hpair, hal.pageAligned, ?_, ?_, ⟨⟨L', hL'⟩, hag.hhdm ▸ hs.hhdm⟩,
      ?_, ?_⟩
    · rw [pageOf]
      omega
    · rw [hL.freePages_eq, ← hcov]
      exact Set.subset_union_right
    · rw [hL'.freePages_eq, hL.freePages_eq, ← hcov, Set.union_sdiff_right, hd.symm.sdiff_eq_left]
    · rwa [hL.freePages_eq]

theorem TakesStack.ncard_free (ht : TakesStack h h' v) (hs : h.Sound) :
    h.freePages.ncard = h'.freePages.ncard + 2 := by
  have h := Set.ncard_sdiff_add_ncard_of_subset ht.mem_free hs.finite
  rw [← ht.free, ncard_stackPages] at h
  exact h.symm

/-- A byte of a kernel stack is in its pages. -/
theorem pageOf_mem_stackPages (hv : PageAligned v) (hlast : pageOf v + 1 < 2 ^ 52)
    (hx : Within x v 8192) : pageOf x ∈ stackPages v := by
  have hvn := hv.toNat_eq
  rw [within_iff (by omega)] at hx
  have hp : pageOf x = pageOf v ∨ pageOf x = pageOf v + 1 := by
    unfold pageOf at *
    omega
  exact hp

theorem writeTf_of_not_within {tf : TfField → U64} (hx : ¬Within x p 176) :
    writeTf m p tf x = m x := by
  have hfold : ∀ l : List TfField, ∀ m : Mem, l.foldl (fun m f => storeTf m p f (tf f)) m x = m x := by
    intro l
    induction l with
    | nil => exact fun _ => rfl
    | cons f l ih =>
      intro m
      rw [List.foldl_cons, ih, storeTf, tfAddr]
      refine store64_of_not_within fun hx' => hx (hx'.of_add ?_ (by norm_num))
      have := f.index_lt
      omega
  exact hfold _ _

/-- The stack after `memset`. -/
theorem TakesStack.fill (ht : TakesStack h h' v) :
    TakesStack h { h' with mem := ByteMemory.fill h'.mem v 0 kstackSize.toNat } v := by
  have hin : ∀ x, pageOf x ∉ stackPages v →
      ByteMemory.fill h'.mem v 0 kstackSize.toNat x = h'.mem x := fun x hx =>
    fill_of_not_within fun hx' => hx (pageOf_mem_stackPages ht.aligned ht.last hx')
  obtain ⟨hs, hf⟩ := ht.sound.congr { h' with mem := ByteMemory.fill h'.mem v 0 kstackSize.toNat }
    rfl rfl fun x hx => hin x (by rw [ht.free] at hx; exact hx.2)
  exact ⟨ht.ne_zero, ht.pair, ht.aligned, ht.last, ht.mem_free, hs, hf.trans ht.free,
    ht.agree.hhdm, fun x hx => (hin x fun hx' => hx (ht.mem_free hx')).trans (ht.agree.mem x hx)⟩

end Stack

namespace ForkState

variable {s : ForkState} {c : Fin maxProcs} {entry userRsp forkret trapret x : U64}

/-- `kstack_setup` writes to the kernel stack only. -/
theorem kstackSetup_mem (hx : ¬Within x (s.entry c).kstack 8192) :
    (s.kstackSetup c entry userRsp forkret trapret).heap.mem x = s.heap.mem x := by
  set k := (s.entry c).kstack with hk
  have hout : ∀ {i n : ℕ}, i + n ≤ 8192 → ¬Within x (k + BitVec.ofNat 64 i) n := fun hin hx' =>
    hx (hx'.of_add hin (by norm_num))
  have hlast : fieldAddr contextFields (k + BitVec.ofNat 64 7952) 6 = k + BitVec.ofNat 64 8000 :=
    (add_ofNat_add k 7952 48).symm
  simp only [kstackSetup, ← hk, stackTf_addr, stackRet_addr, stackContext_addr, hlast]
  rw [store64_of_not_within (hout (by norm_num)), fill_of_not_within (hout (by decide)),
    store64_of_not_within (hout (by norm_num))]
  split_ifs
  · exact writeTf_of_not_within (hout (by norm_num))
  · exact writeTf_of_not_within (hout (by norm_num))

/-- `kstack_setup` changes the `context` field only. -/
theorem kstackSetup_entry (s : ForkState) (c : Fin maxProcs) (entry userRsp forkret trapret : U64) :
    ∃ context, (s.kstackSetup c entry userRsp forkret trapret).entry c =
      { s.entry c with context := context } :=
  ⟨_, Function.update_self c _ s.entry⟩

/-- `proc_alloc` with an unused entry. -/
theorem procAlloc_spec (hs : s.heap.Sound) (hc : s.files.unusedProc = some c) :
    ∃ s₁ r, s.procAlloc = some (s₁, r) ∧ ∃ v,
      s₁.entry = Function.update s.entry c { s.entry c with pid := s.nextPid, kstack := v } ∧
      (¬PairFree s.heap ∧ r = none ∧ v = 0 ∧ s₁.heap = s.heap ∧ s₁.files = s.files ∨
        r = some c ∧ TakesStack s.heap s₁.heap v ∧
          s₁.files = s.files.setProcState c .embryo) := by
  have hpages : kstackSize / pageSize = 2 := by decide
  have hcu : s.files.procState c = .unused := by simpa using List.find?_some hc
  rcases kalloc_stack hs with ⟨hno, hk⟩ | ⟨h', v, hk, ht⟩
  · obtain ⟨⟨s₁, r⟩, hr⟩ : ∃ p, s.procAlloc = some p := by
      simp only [procAlloc, hc, hpages, setEntry, setProcState, hk, Option.map_some]
      exact ⟨_, rfl⟩
    refine ⟨s₁, r, hr, 0, ?_⟩
    simp only [procAlloc, hc, hpages, setEntry, setProcState, hk, Option.map_some, if_true] at hr
    obtain ⟨rfl, rfl⟩ := Prod.mk.inj (Option.some.inj hr)
    refine ⟨by simp only [Function.update_self, Function.update_idem],
      Or.inl ⟨hno, rfl, rfl, rfl, ?_⟩⟩
    rw [FileSystemState.setProcState, FileSystemState.setProcState, Function.update_idem, ← hcu,
      Function.update_eq_self]
  · obtain ⟨⟨s₁, r⟩, hr⟩ : ∃ p, s.procAlloc = some p := by
      simp only [procAlloc, hc, hpages, setEntry, setProcState, hk, Option.map_some]
      exact ⟨_, rfl⟩
    refine ⟨s₁, r, hr, v, ?_⟩
    simp only [procAlloc, hc, hpages, setEntry, setProcState, hk, Option.map_some,
      if_neg ht.ne_zero] at hr
    obtain ⟨rfl, rfl⟩ := Prod.mk.inj (Option.some.inj hr)
    exact ⟨by simp only [Function.update_self, Function.update_idem], Or.inr ⟨rfl, ht.fill, rfl⟩⟩

/-- `create_user_pml4` fails when there is no page. -/
theorem createUserPml4_cases {h : Heap} (hs : h.Sound) (cr3 : U64) :
    (h.freePages = ∅ ∧ ∃ t, createUserPml4 ⟨h, true⟩ cr3 = some (t, 0) ∧ t.heap = h) ∨
      ∃ t pml4, createUserPml4 ⟨h, true⟩ cr3 = some (t, pml4) ∧ t.ok = true ∧ pml4 ≠ 0 := by
  rcases kalloc_one hs with ⟨hk, hfree⟩ | ⟨h', v, hk, ht⟩
  · refine Or.inl ⟨hfree, ⟨h, false⟩, ?_, rfl⟩
    rw [createUserPml4, kallocPage, hk]
    rfl
  · obtain ⟨⟨t, pml4⟩, hr⟩ := exists_createUserPml4 ⟨h, true⟩ cr3
    have hok := createUserPml4_ok (s := ⟨h, true⟩) hs hr rfl ⟨_, ht.mem_free⟩
    exact Or.inr ⟨t, pml4, hr, hok, (createUserPml4_spec (s := ⟨h, true⟩) hs hr hok).ne_zero⟩

/-- An entry that is given back is as it was. -/
theorem setProcState_unused {f : FileSystemState} (hc : s.files.unusedProc = some c)
    (hf : f = s.files.setProcState c .embryo) : f.setProcState c .unused = s.files := by
  have hcu : s.files.procState c = .unused := by simpa using List.find?_some hc
  rw [hf, FileSystemState.setProcState, FileSystemState.setProcState, Function.update_idem, ← hcu,
    Function.update_eq_self]

/-- `proc_fork` without a top table. -/
theorem procFork_noTop {s₁ : ForkState} {k : Fin maxProcs} {cr3 : U64} {t : PagingState}
    (forkret trapret : U64) (halloc : s.procAlloc = some (s₁, some c))
    (hcreate : createUserPml4 ⟨s₁.heap, true⟩ cr3 = some (t, 0)) :
    ∃ s', s.procFork (some k) cr3 forkret trapret = some (s', -1) ∧ s'.heap = t.heap ∧
      s'.files = s₁.files.setProcState c .unused := by
  refine ⟨({ s₁.setEntry c { s₁.entry c with pml4 := 0 } with heap := t.heap }).setProcState c
    .unused, ?_, rfl, rfl⟩
  rw [procFork, halloc]
  simp only [Option.bind_some, hcreate, if_true]

/-- The rest of `proc_fork`, after `create_user_pml4`. -/
theorem procFork_child {s₁ : ForkState} {k : Fin maxProcs} {cr3 pml4 : U64} {t u : PagingState}
    {files : FileSystemState} (forkret trapret : U64) (hkc : k ≠ c) (halloc : s.procAlloc = some (s₁, some c))
    (hcreate : createUserPml4 ⟨s₁.heap, true⟩ cr3 = some (t, pml4)) (hne : pml4 ≠ 0)
    (hcopy : copyUserPml4 t pml4 (s₁.entry k).pml4 = some u)
    (hfiles : (List.finRange maxFds).foldlM (fun s' fd => inheritFd s' k c fd) s₁.files =
      some files) :
    ∃ s', s.procFork (some k) cr3 forkret trapret = some (s', (s₁.entry c).pid) ∧
      s'.files = files.setProcState c .runnable ∧ (s'.entry c).pml4 = pml4 ∧
      (s'.entry c).pid = (s₁.entry c).pid ∧ s'.heap.hhdmOffset = u.heap.hhdmOffset ∧
      ∀ x, ¬Within x (s₁.entry c).kstack 8192 → s'.heap.mem x = u.heap.mem x := by
  obtain ⟨⟨s', ret⟩, hr⟩ : ∃ r, s.procFork (some k) cr3 forkret trapret = some r := by
    simp only [procFork, halloc, Option.bind_some, hcreate, if_neg hne, setEntry,
      Function.update_of_ne hkc, hcopy]
    simp only [kstackSetup, setEntry, hfiles, Option.map_some]
    exact ⟨_, rfl⟩
  have hrun := hr
  simp only [procFork, halloc, Option.bind_some, hcreate, if_neg hne, setEntry,
    Function.update_of_ne hkc, hcopy] at hr
  generalize hs₀ : ForkState.mk u.heap s₁.files (Function.update _ c _) _ = s₀ at hr
  have hentry : (s₀.entry c).pml4 = pml4 ∧ (s₀.entry c).pid = (s₁.entry c).pid ∧
      (s₀.entry c).kstack = (s₁.entry c).kstack := by
    rw [← hs₀]
    simp only [Function.update_self, and_self]
  obtain ⟨context, hctx⟩ := kstackSetup_entry s₀ c 0 0 forkret trapret
  have hhd : (s₀.kstackSetup c 0 0 forkret trapret).heap.hhdmOffset = u.heap.hhdmOffset := hs₀ ▸ rfl
  rw [show (s₀.kstackSetup c 0 0 forkret trapret).files = s₁.files from hs₀ ▸ rfl, hfiles] at hr
  obtain ⟨rfl, hret⟩ := Prod.mk.inj (Option.some.inj hr)
  rw [Function.update_self, hctx] at hret
  have hpid : ret = (s₁.entry c).pid := hret.symm.trans hentry.2.1
  rw [hpid] at hrun
  refine ⟨_, hrun, rfl, ?_, ?_, hhd, fun x hx => ?_⟩
  · simp only [setProcState, Function.update_self, hctx, hentry.1]
  · simp only [setProcState, Function.update_self, hctx, hentry.2.1]
  · refine (kstackSetup_mem (hentry.2.2 ▸ hx)).trans ?_
    rw [← hs₀]

end ForkState

/-! ## All or nothing -/

/-- The process table, the files and the free pages are the same. -/
structure SameResources (s s' : ForkState) : Prop where
  files : s'.files = s.files
  entry : s'.entry = s.entry
  pages : s'.heap.freePages = s.heap.freePages

/-- A new process with copies of the caller's pages, or -1 and nothing changed. -/
def AllOrNothing (s s' : ForkState) (current : Option (Fin maxProcs)) (ret : U32) : Prop :=
  (∃ k c, current = some k ∧ s.files.procState c = .unused ∧ s'.files.procState c = .runnable ∧
    (s'.entry c).pid = ret ∧ MapsCopies s.heap s'.heap (s.entry k).pml4 (s'.entry c).pml4) ∨
  ret = -1 ∧ SameResources s s'

/-- A fork that finds an unused entry finds enough pages as well : a pair for the stack and one for
each node of the copy. Without a pair, the entry must happen to hold what `proc_alloc` writes. -/
def ForkFits (s : ForkState) (current : Option (Fin maxProcs)) : Prop :=
  ∀ k c, current = some k → s.files.unusedProc = some c →
    if PairFree s.heap then copySize s.heap (s.entry k).pml4 + 2 ≤ s.heap.freePages.ncard
    else (s.entry c).pid = s.nextPid ∧ (s.entry c).kstack = 0

/-- The allocator and the files are in order, and the caller is a process with an address space. -/
structure ForkReady (s : ForkState) (current : Option (Fin maxProcs)) : Prop where
  sound : s.heap.Sound
  files : FilesOk s.files []
  idle : ∀ c, s.files.procState c = .unused → ∀ fd, s.files.fds (c, fd) = none
  used : ∀ k, current = some k → s.files.procState k ≠ .unused
  space : ∀ k, current = some k → UserSpace s.heap (s.entry k).pml4

section AllOrNothing

variable {s s' : ForkState} {current : Option (Fin maxProcs)} {ret : U32} {k c : Fin maxProcs}

/-- What the new space holds, seen from a heap in which a block was taken. -/
theorem mapsCopies_congr {h h₁ g : Heap} {oldPml4 newPml4 : U64} (hu : UserSpace h oldPml4)
    (hag : h.AgreeOutside h.freePages h₁) :
    MapsCopies h₁ g oldPml4 newPml4 ↔ MapsCopies h g oldPml4 newPml4 := by
  have htab : SameTables h h₁ oldPml4 :=
    ⟨hag.hhdm, fun x hx => hag.mem x (hu.not_free (tablePages_subset hx))⟩
  have hbytes : ∀ va e b, userPte h oldPml4 va = some e →
      (SameBytes h₁ g (h₁.pteAddr e) b ↔ SameBytes h g (h.pteAddr e) b) := by
    intro va e b he
    obtain ⟨n, hn, -, rfl⟩ := hu.userPte_eq_some.1 he
    refine forall₂_congr fun i hi => ?_
    rw [pteAddr_congr hag.hhdm, hag.mem]
    rw [← nodeAt_addr hn (vaPath_ne_nil va), pageOf_add (hu.aligned hn) hi]
    exact hu.held _ n hn
  unfold MapsCopies
  simp only [hu.userPte_congr htab]
  refine forall₄_congr fun va _ e he => exists_congr fun e' => and_congr_right fun _ => ?_
  rw [hbytes va e _ he]

/-- A call that returns -1 leaves no new process. -/
theorem allOrNothing_iff_same (hstate : s'.files = s.files) :
    AllOrNothing s s' current (-1) ↔
      s'.entry = s.entry ∧ s'.heap.freePages = s.heap.freePages := by
  constructor
  · rintro (⟨k, c, -, hu, hr, -⟩ | ⟨-, hs⟩)
    · rw [hstate, hu] at hr
      cases hr
    · exact ⟨hs.entry, hs.pages⟩
  · exact fun h => Or.inr ⟨rfl, hstate, h.1, h.2⟩

theorem one_le_copySize (h : Heap) (pml4 : U64) : 1 ≤ copySize h pml4 :=
  Nat.one_le_iff_ne_zero.2 fun h0 =>
    (Set.eq_empty_iff_forall_notMem.1 ((Set.ncard_eq_zero (copyPaths_finite _ _ _)).1 h0)) []
      (Or.inl rfl)

/-- A call that gets as far as the copy. -/
theorem allOrNothing_iff_maps {files : FileSystemState} {pml4 : U64} {pid : U32}
    (hc : s.files.procState c = .unused) (hfiles : files.procState =
      Function.update s.files.procState c .embryo)
    (hstate : s'.files = files.setProcState c .runnable) (hpml4 : (s'.entry c).pml4 = pml4)
    (hpid : (s'.entry c).pid = pid) :
    AllOrNothing s s' (some k) pid ↔ MapsCopies s.heap s'.heap (s.entry k).pml4 pml4 := by
  have hst : s'.files.procState = Function.update s.files.procState c .runnable := by
    rw [hstate, FileSystemState.setProcState, hfiles, Function.update_idem]
  constructor
  · rintro (⟨k', c', hk, hu, hr, -, hm⟩ | ⟨-, hs⟩)
    · have hcc : c' = c := by
        by_contra hne
        rw [hst, Function.update_of_ne hne, hu] at hr
        exact absurd hr (by decide)
      rw [Option.some.inj hk, ← hpml4, ← hcc]
      exact hm
    · rw [hs.files] at hst
      have := congrFun hst c
      rw [Function.update_self, hc] at this
      exact absurd this (by decide)
  · exact fun hm => Or.inl ⟨k, c, rfl, hc, by rw [hst, Function.update_self], hpid, hpml4 ▸ hm⟩

/-- `proc_fork` returns, and is all or nothing exactly when it finds the pages it needs. -/
theorem fork_all_or_nothing (hs : ForkReady s current) (cr3 forkret trapret : U64) :
    ∃ s' ret, s.procFork current cr3 forkret trapret = some (s', ret) ∧
      (AllOrNothing s s' current ret ↔ ForkFits s current) := by
  rcases current with _ | k
  · refine ⟨s, -1, rfl, fun _ k c hk => ?_, fun _ => Or.inr ⟨rfl, rfl, rfl, rfl⟩⟩
    cases hk
  rcases hun : s.files.unusedProc with _ | c
  · refine ⟨s, -1, ?_, fun _ k c _ hc => ?_, fun _ => Or.inr ⟨rfl, rfl, rfl, rfl⟩⟩
    · rw [ForkState.procFork, ForkState.procAlloc, hun]
      rfl
    · rw [hun] at hc
      cases hc
  have hcu : s.files.procState c = .unused := by simpa using List.find?_some hun
  have hkc : k ≠ c := fun h => hs.used k rfl (h ▸ hcu)
  have hfits : ForkFits s (some k) ↔
      if PairFree s.heap then copySize s.heap (s.entry k).pml4 + 2 ≤ s.heap.freePages.ncard
      else (s.entry c).pid = s.nextPid ∧ (s.entry c).kstack = 0 := by
    refine ⟨fun h => h k c rfl hun, fun h k' c' hk hc => ?_⟩
    obtain rfl := Option.some.inj hk
    obtain rfl := Option.some.inj (hun.symm.trans hc)
    exact h
  obtain ⟨s₁, r, halloc, v, hentry, ⟨hno, rfl, rfl, hheap, hfiles⟩ | ⟨rfl, ht, hfiles⟩⟩ :=
    ForkState.procAlloc_spec hs.sound hun
  · -- There is no kernel stack.
    refine ⟨s₁, -1, by rw [ForkState.procFork, halloc]; rfl, ?_⟩
    rw [allOrNothing_iff_same hfiles, hfits, if_neg hno, hentry, hheap]
    constructor
    · rintro ⟨he, -⟩
      have hec := congrFun he c
      rw [Function.update_self] at hec
      exact ⟨(congrArg ProcRecord.pid hec).symm, (congrArg ProcRecord.kstack hec).symm⟩
    · rintro ⟨hpid, hk⟩
      refine ⟨?_, rfl⟩
      rw [← hpid, ← hk]
      exact Function.update_eq_self c s.entry
  rw [if_pos ht.pair] at hfits
  have hone := ht.ncard_free hs.sound
  have hck : (s₁.entry c).kstack = v := by rw [hentry, Function.update_self]
  rcases ForkState.createUserPml4_cases ht.sound cr3 with ⟨hempty, t, hcreate, hheap⟩ |
    ⟨t, pml4, hcreate, hok, hne⟩
  · -- There is no top table, and the kernel stack is lost.
    obtain ⟨s', hrun, hheap', hstate⟩ := ForkState.procFork_noTop (k := k) forkret trapret halloc
      hcreate
    refine ⟨s', -1, hrun, ?_⟩
    rw [allOrNothing_iff_same (hstate.trans (ForkState.setProcState_unused hun hfiles)), hfits,
      hheap', hheap, hempty]
    rw [hempty, Set.ncard_empty] at hone
    constructor
    · rintro ⟨-, hpages⟩
      rw [← hpages, Set.ncard_empty] at hone
      exact absurd hone (by norm_num)
    · intro h
      have := one_le_copySize s.heap (s.entry k).pml4
      omega
  · have hu := hs.space k rfl
    obtain ⟨hu₁, hnodes⟩ := hu.of_agree ht.sound ht.agree (ht.free ▸ Set.sdiff_subset)
    have hek : s₁.entry k = s.entry k := by rw [hentry, Function.update_of_ne hkc]
    obtain ⟨u, hcopy⟩ := exists_copyUserPml4 pml4 (s₁.entry k).pml4 t
    obtain ⟨files, hinherit, -, hsame, -⟩ := inheritFds_spec hkc
      (hfiles ▸ hs.files.setProcState c .embryo) (List.nodup_finRange maxFds)
      fun fd _ => hfiles ▸ hs.idle c hcu fd
    obtain ⟨s', hrun, hstate, hpml4, hpid, hhd, hmem⟩ := ForkState.procFork_child
      forkret trapret hkc halloc hcreate hne hcopy hinherit
    refine ⟨s', _, hrun, ?_⟩
    rw [allOrNothing_iff_maps hcu ?_ hstate hpml4 hpid, hfits,
      ← mapsCopies_congr hu ht.agree]
    · have hg : u.heap.AgreeOutside s₁.heap.freePagesᶜ s'.heap := ⟨hhd, fun x hx => hmem x ?_⟩
      · rw [hek] at hcopy
        rw [copyUserPml4_outcome hu₁ hcreate hok hcopy hg, copySize_congr hnodes, hone]
        exact Nat.add_le_add_iff_right.symm
      · rw [hck]
        intro hx'
        have hfree : pageOf x ∈ s₁.heap.freePages := not_not.1 hx
        rw [ht.free] at hfree
        exact hfree.2 (pageOf_mem_stackPages ht.aligned ht.last hx')
    · rw [hsame.procState, hfiles]
      rfl

end AllOrNothing

/-! ## A machine with one process -/

/-- Process 1 with an empty address space, and the allocator `h`. -/
def oneProcess (h : Heap) (pml4 : U64) : ForkState where
  heap := h
  files := FileSystemState.init
  entry k := if k = 0 then ⟨1, 0, pml4, 0, 0, fun _ => 0, 0, fun _ => 0⟩
    else ⟨0, 0, 0, 0, 0, fun _ => 0, 0, fun _ => 0⟩
  nextPid := 2

/-- It is ready to fork, with any number of free pages, and a fork needs three. -/
theorem exists_oneProcess {n : ℕ} (hn : n < 256)
    (hpair : ((freerange (kinit (fun _ => 0) 0xffff800000000000) 0x100000
      (BitVec.ofNat 64 (0x100000 + 4096 * (n + 1)))).bind fun h =>
        (createUserPml4 ⟨h, true⟩ 0).map fun r => decide (PairFree r.1.heap)) = some true) :
    ∃ h pml4, ForkReady (oneProcess h pml4) (some 0) ∧ PairFree h ∧ h.freePages.ncard = n ∧
      copySize h pml4 = 1 := by
  obtain ⟨h₀, t, pml4, hboot, hr, -, hnew, hcard, -⟩ := exists_new_space hn
  rw [hboot, Option.bind_some, hr, Option.map_some] at hpair
  refine ⟨t.heap, pml4, ⟨hnew.space.sound, pipesOk_init.files, fun _ _ _ => rfl, ?_, ?_⟩,
    of_decide_eq_true (Option.some.inj hpair), hcard, ?_⟩
  · rintro k hk
    obtain rfl := Option.some.inj hk
    change FileSystemState.init.procState 0 ≠ .unused
    decide
  · rintro k hk
    obtain rfl := Option.some.inj hk
    exact hnew.space
  · rw [copySize, copyPaths, Set.ncard_eq_one]
    refine ⟨[], Set.Subset.antisymm ?_ fun p hp => Or.inl hp⟩
    rintro p (rfl | ⟨q, -, ⟨m, hm, hl, -⟩, -⟩)
    · rfl
    · obtain ⟨-, rfl⟩ := hnew.empty q m hm
      exact absurd hl (Nat.succ_ne_zero 3)

/-- Three pages are enough. -/
theorem fork_all_or_nothing_three : ∃ h pml4 s' ret,
    ForkReady (oneProcess h pml4) (some 0) ∧ h.freePages.ncard = 3 ∧
    (oneProcess h pml4).procFork (some 0) 0 0 0 = some (s', ret) ∧
    AllOrNothing (oneProcess h pml4) s' (some 0) ret := by
  obtain ⟨h, pml4, hs, hpair, hcard, hsize⟩ := exists_oneProcess (n := 3) (by norm_num)
    (by decide)
  obtain ⟨s', ret, hrun, hiff⟩ := fork_all_or_nothing hs 0 0 0
  refine ⟨h, pml4, s', ret, hs, hcard, hrun, hiff.2 fun k c hk hc => ?_⟩
  obtain rfl := Option.some.inj hk
  rw [if_pos (show PairFree (oneProcess h pml4).heap from hpair)]
  exact (congrArg (· + 2) hsize).trans_le hcard.ge

/-- Two pages are left. The fork returns -1, and they are lost with the kernel stack. -/
theorem noTop_fork : ∃ h pml4 s',
    ForkReady (oneProcess h pml4) (some 0) ∧ h.freePages.ncard = 2 ∧
    (oneProcess h pml4).procFork (some 0) 0 0 0 = some (s', -1) ∧
    s'.heap.freePages = ∅ ∧ ¬AllOrNothing (oneProcess h pml4) s' (some 0) (-1) := by
  obtain ⟨h, pml4, hs, hpair, hcard, -⟩ := exists_oneProcess (n := 2) (by norm_num)
    (by decide)
  have hun : (oneProcess h pml4).files.unusedProc = some 1 :=
    show FileSystemState.init.unusedProc = some 1 by decide
  obtain ⟨s₁, r, halloc, v, -, ⟨hno, -⟩ | ⟨rfl, ht, hfiles⟩⟩ :=
    ForkState.procAlloc_spec (s := oneProcess h pml4) hs.sound hun
  · exact absurd hpair hno
  have hone := ht.ncard_free hs.sound
  have hempty : s₁.heap.freePages = ∅ := by
    refine (Set.ncard_eq_zero ht.sound.finite).1 ?_
    have h2 : (oneProcess h pml4).heap.freePages.ncard = 2 := hcard
    omega
  rcases ForkState.createUserPml4_cases ht.sound 0 with ⟨-, u, hcreate, hheap⟩ |
    ⟨u, pml4', hcreate, hok, -⟩
  · obtain ⟨s', hrun, hheap', hstate⟩ := ForkState.procFork_noTop (k := 0) 0 0 halloc hcreate
    have hlost : s'.heap.freePages = ∅ := by rw [hheap', hheap, hempty]
    refine ⟨h, pml4, s', hs, hcard, hrun, hlost, fun hall => ?_⟩
    rw [allOrNothing_iff_same (hstate.trans (ForkState.setProcState_unused hun hfiles)),
      hlost] at hall
    have hz : h.freePages = ∅ := hall.2.symm
    rw [hz, Set.ncard_empty] at hcard
    exact absurd hcard (by norm_num)
  · have hn := createUserPml4_spec (s := ⟨s₁.heap, true⟩) ht.sound hcreate hok
    exact absurd hn.mem_free (by simp [hempty])

end Jeos
