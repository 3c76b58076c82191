import Jeos.ContextSwitch
import Jeos.ExecFailure

/-!
# The frame of the system call in `proc_exec`

`syscall_entry` pushes sixteen words below the top of the kernel stack. `proc_exec` writes to three of them
by their distance from the top, and the pops at the end of `syscall_entry` load them, whatever preemptions
come in between. When the program is read and loaded inside its memory and the argument vector fits, the
call takes effect exactly (`exec_takes_effect`).

A read that passes the end of the buffer can change another word of the frame, and the call still returns
0 (`exec_corrupts_frame`).
-/

set_option linter.unusedSectionVars false

namespace Jeos

open ByteMemory Machine DyadicBlock TreeWalk Elf LoadState UserStack

/-- The sixteen words at `a` are the same. -/
def SameFrame (m m' : Mem) (a : U64) : Prop :=
  ∀ i < 16, load64 m' (a + BitVec.ofNat 64 (8 * i)) = load64 m (a + BitVec.ofNat 64 (8 * i))

theorem SameFrame.words {m m' : Mem} {a : U64} {ws : List U64} (h : SameFrame m m' a)
    (hlen : ws.length = 16) (hw : WordsAt m a ws) : WordsAt m' a ws := fun i v hv => by
  obtain ⟨hi, -⟩ := List.getElem?_eq_some_iff.1 hv
  rw [h i (hlen ▸ hi), hw.load i hv]

namespace ExecState

variable {s s' s₁ : ExecState} {k : Fin maxProcs} {fs : List U8 → ProgramFile} {m u u' : State}
  {path argv newPml4 entry userRsp : U64}

/-- `(u64)p->kstack + KSTACK_SIZE`. -/
def kstop (s : ExecState) (k : Fin maxProcs) : U64 := (s.entry k).kstack + kstackSize

/-- The process is in the system call that was made in the state `m`, and `kernel_rsp` was the top of its
kernel stack. The frame is still there. -/
structure InSyscall (m : State) (s : ExecState) (k : Fin maxProcs) : Prop where
  layout : EntryLayout m
  top : kernelRsp m = s.kstop k
  frame : SameFrame (exec id 0 beforeHandler m).mem s.heap.mem (s.kstop k - BitVec.ofNat 64 128)

/-- The process leaves the system call : the pops run from the state `u`, with the frame that is in the
memory of `s`, and with any preemptions. -/
structure Leaves (s : ExecState) (k : Fin maxProcs) (u u' : State) : Prop where
  rsp : u.regs .rsp = s.kstop k - BitVec.ofNat 64 128
  frame : SameFrame s.heap.mem u.mem (s.kstop k - BitVec.ofNat 64 128)
  run : Interrupted (fun t t' => Preempted (inUse (s.kstop k) 8192 t) t t') leaveKernel u u'

/-- The pops load the program's entry, its flags and its stack, and everything else as it was saved. -/
def LeavesFor (m : State) (s' : ExecState) (k : Fin maxProcs) (entry userRsp : U64) : Prop :=
  ∀ u u', s'.Leaves k u u' → u'.regs .rcx = entry ∧ u'.regs .r11 = 0x202 ∧ u'.regs .rsp = userRsp ∧
    ∀ r, r ≠ .rcx → r ≠ .r11 → r ≠ .rsp → u'.regs r = m.regs r

/-- A call that returned 0 has taken effect exactly. `newPml4` is the table that was filled from the
buffer with the bytes `elf`. -/
structure TookEffect (m : State) (s : ExecState) (k : Fin maxProcs) (newPml4 entry userRsp : U64)
    (elf : Mem) (s' : ExecState) : Prop where
  leaves : LeavesFor m s' k entry userRsp
  entry_eq : entry = eEntry elf
  pml4 : (s'.entry k).pml4 = newPml4
  image : ∀ p f c, p ≠ vaPath userStackBase → imageOf (elfPlan elf) p = some (f, c) →
    Shows s'.heap newPml4 p f c
  brk : (s'.entry k).brk = userHeapBase
  files : FilesKept s.files s'.files

/-- The call has taken effect with the program of the file and the value of `setup_user_stack`. -/
def TakesEffect (m : State) (s : ExecState) (k : Fin maxProcs) (fs : List U8 → ProgramFile)
    (path argv : U64) (s' : ExecState) : Prop :=
  ∃ s₁ newPml4 entry t userRsp size elf, s.execLoad fs path = some (s₁, some (newPml4, entry)) ∧
    setupUserStack s₁.heap newPml4 s₁.userMem argv = some (t, userRsp) ∧
    (s.program fs path).size = some size ∧
    (∀ i < (elfPages size).toNat * 4096,
      elf (BitVec.ofNat 64 i) = (s.program fs path).elfByte size i) ∧
    TookEffect m s k newPml4 entry userRsp elf s'

/-! ## The pops -/

theorem InSyscall.words (h : InSyscall m s k) :
    WordsAt s.heap.mem (s.kstop k - BitVec.ofNat 64 128) (entryFrame m.regs) := by
  have he := exec_beforeHandler (c := id) h.layout
  have hw := he.frame
  rw [he.rsp, h.top] at hw
  exact h.frame.words (entryFrame_length _) hw

/-- The pops, with the sixteen words of the frame. -/
theorem Leaves.regs (h : s.Leaves k u u') {regs : Reg → U64} {userRsp entry flags : U64}
    (hw : WordsAt s.heap.mem (s.kstop k - BitVec.ofNat 64 128)
      ((((entryFrame regs).set 15 userRsp).set 14 entry).set 13 flags)) :
    u'.regs .rcx = entry ∧ u'.regs .r11 = flags ∧ u'.regs .rsp = userRsp ∧
      ∀ r, r ≠ .rcx → r ≠ .r11 → r ≠ .rsp → u'.regs r = regs r := by
  have hR := keepsStack_preempted (s.kstop k) (by norm_num : 8192 + 192 ≤ 2 ^ 64)
  have hframe := h.frame.words (by simp) hw
  rw [← h.rsp] at hframe
  have htop : 8 * 16 = (s.kstop k - u.regs .rsp).toNat := by
    rw [h.rsp]
    generalize s.kstop k = a
    bv_omega
  have hrun : Interrupted (fun t t' => Preempted (inUse (s.kstop k) 8192 t) t t')
      (savedRegs.reverse.map .pop ++ [.pop .rsp, .swapgs]) u u' := h.run
  obtain ⟨v, hv, hvals, -, hlast, htop'⟩ := @Interrupted.pops _ u u' [.pop .rsp, .swapgs]
    savedRegs.reverse [regs .rax, regs .r9, regs .r8, regs .r10, regs .rdx, regs .rsi, regs .rdi,
      regs .r15, regs .r14, regs .r13, regs .r12, regs .rbp, regs .rbx, flags, entry] [userRsp] _ _
    hR rfl (by decide) (by decide) hframe (by simp) htop hrun
  obtain ⟨w, hw', hregs, -⟩ := hv.pop hR hlast (by simp) htop'
  have hend : u'.regs = w.regs := hw'.regs_eq hR (by simp [Instr.step])
  have hrest : ∀ r, r ≠ .rsp → u'.regs r = v.regs r := fun r hr => by
    rw [hend, hregs, Function.update_of_ne hr, Function.update_of_ne hr]
  have hload : savedRegs.reverse.map v.regs =
      savedRegs.reverse.map (Function.update (Function.update regs .r11 flags) .rcx entry) :=
    hvals.trans rfl
  have hval := List.map_inj_left.1 hload
  refine ⟨?_, ?_, ?_, fun r hc h11 hr => ?_⟩
  · rw [hrest _ (by decide), hval .rcx (by decide), Function.update_self]
  · rw [hrest _ (by decide), hval .r11 (by decide), Function.update_of_ne (by decide),
      Function.update_self]
  · rw [hend, hregs, Function.update_self]
  · have hmem : r ∈ savedRegs.reverse := by
      revert hr
      cases r <;> decide
    rw [hrest r hr, hval r hmem, Function.update_of_ne hc, Function.update_of_ne h11]

/-! ## A call that returns 0 -/

/-- What is behind the tear-down of the old address space leaves the frame alone. -/
theorem switched_entry {t : Heap} {s₂ : ExecState} (path : U64)
    (h : (patched (s₁.argsRead argv) t k newPml4 entry userRsp).teardown (s₁.entry k).pml4 = some s₂) :
    let s' := (s₂.lcr3 (s₂.heap.virtToPhys newPml4)).renamed k path
    (s'.entry k).pml4 = newPml4 ∧ (s'.entry k).brk = userHeapBase ∧ s'.kstop k = s₁.kstop k ∧
      s'.files = s₁.files := by
  have hentry := (teardown_same h).1
  obtain ⟨f, -, rfl⟩ := Option.map_eq_some_iff.1 h
  simp [renamed, lcr3, setProc, patched, redirect, argsRead, kstop]

/-- The frame of the system call is in the pages of the kernel stack, which nothing up to the new image
writes to. -/
theorem ExecLoaded.frame (hl : ExecLoaded s s₁ k newPml4) (hready : ExecReady s.heap s k) {ws : List U64}
    (hlen : ws.length = 16) (hw : WordsAt s.heap.mem (s.kstop k - BitVec.ofNat 64 128) ws) :
    WordsAt s₁.heap.mem (s.kstop k - BitVec.ofNat 64 128) ws := by
  refine hw.congr (by omega) fun x hx => hl.agree.mem x fun hfree => ?_
  rw [hlen, kstop, kstop_sub _ (by norm_num)] at hx
  refine Set.disjoint_left.1 hready.held ?_ hfree
  exact pageOf_mem_stackPages hready.aligned hready.last (hx.of_add (by norm_num) (by norm_num))

/-- With the program read and loaded inside its memory, and a vector that fits, a call that returns 0 has
taken effect exactly. -/
theorem exec_takes_effect (hsys : InSyscall m s k) (hready : ExecReady s.heap s k)
    (hf : FileSystemState.FilesOk s.files [])
    (hload : ∀ size, (s.program fs path).size = some size → (s.program fs path).Loads size)
    (hfits : ∀ s₁ r, s.execLoad fs path = some (s₁, some r) →
      s₁.tablesOk = true ∧ Fits s₁.userMem argv)
    (hr : s.procExec (some k) fs path argv = some (s', 0)) : TakesEffect m s k fs path argv s' := by
  obtain ⟨s₁, newPml4, entry, t, userRsp, s₂, hl, hset, htear, rfl⟩ := procExec_eq_zero hr
  obtain ⟨htables, hfit⟩ := hfits s₁ _ hl
  obtain ⟨hloaded, size, elf, hsize, hbytes, -, hentry, himage⟩ :=
    execLoad_some hready hf hload hl htables
  have hst := hloaded.start.argsRead argv
  obtain ⟨n, t', userRsp', s₂', hn, hset', htear', hsw⟩ := exists_switched hst hfit entry
  obtain ⟨rfl, rfl⟩ := Prod.mk.inj (Option.some.inj (hset.symm.trans hset'))
  obtain rfl := Option.some.inj (htear.symm.trans htear')
  obtain ⟨hpml4, hbrk, hkstop, hfiles⟩ := switched_entry path htear
  have hkeep : s₁.kstop k = s.kstop k := by rw [kstop, kstop, hloaded.same.1]
  refine ⟨s₁, newPml4, entry, t, userRsp, size, elf, hl, hset, hsize, hbytes, fun u u' hu => ?_,
    hentry, hpml4, fun p f c hp himg => ?_, hbrk, ?_⟩
  · refine hu.regs ?_
    rw [hkstop]
    refine hsw.frame _ (entryFrame_length _) ?_
    have hw := hloaded.frame hready (entryFrame_length _) hsys.words
    rw [← hkeep] at hw
    exact hw
  · exact hsw.shows hst hn hp (himage p f c himg)
  · rw [hfiles]
    exact hloaded.files

/-! ## A process in a system call -/

/-- The registers whose frame is in the memory at `a`. -/
def frameRegs (mem : Mem) (a : U64) (r : Reg) : U64 :=
  load64 mem (a + BitVec.ofNat 64 (8 * (savedRegs.reverse ++ [Reg.rsp]).idxOf r))

theorem frameRegs_words (mem : Mem) (a : U64) : WordsAt mem a (entryFrame (frameRegs mem a)) := by
  have hmap : entryFrame (frameRegs mem a) =
      (savedRegs.reverse ++ [Reg.rsp]).map (frameRegs mem a) := by
    rw [entryFrame, List.map_append, List.map_reverse]
    rfl
  intro i v hv
  rw [hmap, List.getElem?_map] at hv
  obtain ⟨r, hr, rfl⟩ := Option.map_eq_some_iff.1 hv
  obtain ⟨hi, rfl⟩ := List.getElem?_eq_some_iff.1 hr
  rw [frameRegs, List.Nodup.idxOf_getElem (by decide)]

/-- The machine at a `syscall`, with its `struct cpu` at the end of the kernel stack. -/
def machineAt (regs : Reg → U64) (top : U64) : State where
  regs := regs
  mem := store64 (fun _ => 0) top top
  zf := false
  gs := 0
  kernelGs := top

theorem machineAt_layout (regs : Reg → U64) (top : U64) :
    EntryLayout (machineAt regs top) ∧ kernelRsp (machineAt regs top) = top := by
  have hk : kernelRsp (machineAt regs top) = top := load64_store64_self (by decide) _ _ _
  have hp : curProc (machineAt regs top) = 0 := by
    have hap : Apart (top + BitVec.ofNat 64 16) 8 (top + BitVec.ofNat 64 0) 8 :=
      apart_add top (by norm_num) (by norm_num) (Or.inr (by norm_num))
    rw [BitVec.add_zero] at hap
    change load64 (store64 (fun _ => 0) top top) (top + BitVec.ofNat 64 16) = 0
    rw [load64_store64_of_apart hap, load64]
    rfl
  refine ⟨⟨?_, fun h => absurd hp h, fun h => absurd hp h⟩, hk⟩
  have hap : Apart (top - BitVec.ofNat 64 128 + BitVec.ofNat 64 128) 24
      (top - BitVec.ofNat 64 128 + BitVec.ofNat 64 0) 128 :=
    apart_add _ (by norm_num) (by norm_num) (Or.inr (by norm_num))
  rw [BitVec.add_zero, BitVec.sub_add_cancel] at hap
  rw [hk]
  exact hap

/-- Whatever is at the top of the kernel stack is the frame of some machine. -/
theorem inSyscall_machineAt (s : ExecState) (k : Fin maxProcs) :
    InSyscall (machineAt (frameRegs s.heap.mem (s.kstop k - BitVec.ofNat 64 128)) (s.kstop k)) s k := by
  obtain ⟨hl, hk⟩ := machineAt_layout (frameRegs s.heap.mem (s.kstop k - BitVec.ofNat 64 128)) (s.kstop k)
  have he := exec_beforeHandler (c := id) hl
  have hw := he.frame
  rw [he.rsp, hk] at hw
  have hw' := frameRegs_words s.heap.mem (s.kstop k - BitVec.ofNat 64 128)
  refine ⟨hl, hk, fun i hi => ?_⟩
  obtain ⟨v, hv⟩ : ∃ v, (entryFrame (machineAt (frameRegs s.heap.mem
      (s.kstop k - BitVec.ofNat 64 128)) (s.kstop k)).regs)[i]? = some v :=
    ⟨_, List.getElem?_eq_getElem hi⟩
  rw [hw.load i hv, hw'.load i hv]

theorem exec_takes_effect_launcher : ∃ m s k fs path argv s',
    s.procExec (some k) fs path argv = some (s', 0) ∧ TakesEffect m s k fs path argv s' := by
  obtain ⟨h, old, s₁, newPml4, hl⟩ := exists_launched (c := fun _ => 0) (by decide)
  obtain ⟨n, userRsp, s₂, -, hr, -⟩ := hl.exec
  refine ⟨_, caller h old, 0, launcherFs, 0x400000, 0, _, hr,
    exec_takes_effect (inSyscall_machineAt _ 0) hl.ready FileSystemState.pipesOk_boot.files ?_ ?_ hr⟩
  · intro size hsize
    obtain rfl := Option.some.inj hsize
    exact launcher_loads
  · intro s₁' r hload
    obtain ⟨rfl, -⟩ := Prod.mk.inj (Option.some.inj (hl.load.symm.trans hload))
    exact ⟨hl.tables, fits_zero _⟩

end ExecState

/-! ## A read that passes the end of its buffer -/

/-- A program of one page, and behind it what `m` has behind a buffer at `v`, up to the address `x`, but for
the last byte. -/
def smashed (m : Mem) (v x : U64) : Mem := fun a =>
  if a.toNat < 4096 then bufOf launcher a else if v + a = x then m x + 1 else m (v + a)

/-- A file of `2 ^ 44 + 1` bytes. A read stores the bytes up to the address `x`, when the buffer is at `v`. -/
def smash (m : Mem) (v x : U64) : ProgramFile where
  opened := some (⟨0, none, none⟩, true, false)
  size := some 0x100000000001
  read count := ⟨smashed m v x, min ((x - v).toNat + 1) count.toNat,
    BitVec.ofNat 64 (min ((x - v).toNat + 1) count.toNat)⟩

theorem smash_allowed (m : Mem) (v x : U64) : (smash m v x).Allowed (smashed m v x) :=
  fun _ => ⟨Nat.min_le_right _ _, fun _ => ⟨rfl, fun _ _ => rfl⟩⟩

theorem smash_reply (m : Mem) {v x count : U64} (hx : (x - v).toNat < count.toNat) :
    (smash m v x).reply count =
      ⟨smashed m v x, (x - v).toNat + 1, BitVec.ofNat 64 ((x - v).toNat + 1)⟩ := by
  have hmin : min ((x - v).toNat + 1) count.toNat = (x - v).toNat + 1 := Nat.min_eq_left hx
  have hreply : (smash m v x).reply count = ⟨smashed m v x, min ((x - v).toNat + 1) count.toNat,
    BitVec.ofNat 64 (min ((x - v).toNat + 1) count.toNat)⟩ := rfl
  rw [hreply, hmin]

theorem not_slt_zero {n : ℕ} (h : n < 2 ^ 63) : (BitVec.ofNat 64 n).slt 0 = false := by
  have hmod : n % 2 ^ 64 = n := Nat.mod_eq_of_lt (by omega)
  rw [BitVec.slt, decide_eq_false_iff_not, BitVec.toInt_eq_toNat_cond, BitVec.toNat_ofNat, hmod,
    if_pos (by omega)]
  exact not_lt.2 (Int.natCast_nonneg n)

/-- What the read leaves. -/
theorem smash_filled (h : Heap) {v x count : U64} (h4 : 4096 ≤ (x - v).toNat)
    (hx : (x - v).toNat < count.toNat) (y : U64) : ((smash h.mem v x).filled count v h).mem y =
      if Within y v 4096 then bufOf launcher (y - v) else if y = x then h.mem x + 1 else h.mem y := by
  have hzero : (0 : U64) + (y - v) = y - v := BitVec.zero_add _
  have hback : v + (y - v) = y := by rw [BitVec.add_comm, BitVec.sub_add_cancel]
  rw [ProgramFile.filled_eq, smash_reply h.mem hx, paste, hzero]
  dsimp only [smashed]
  rw [hback]
  by_cases hin : Within y v ((x - v).toNat + 1)
  · rw [if_pos hin]
    rfl
  · have hout : ¬Within y v 4096 := fun h => hin (Nat.lt_of_lt_of_le h (by omega))
    have hne : y ≠ x := by
      rintro rfl
      exact hin (Nat.lt_succ_self _)
    rw [if_neg hin, if_neg hout, if_neg hne]

/-- The process has loaded the program with a read that has changed the byte at `x`. -/
structure Smashed (x : U64) (h : Heap) (old : U64) (fs : List U8 → ProgramFile) (s₁ : ExecState)
    (newPml4 : U64) : Prop where
  ready : ExecState.ExecReady h (caller h old) 0
  load : (caller h old).execLoad fs 0x400000 = some (s₁, some (newPml4, 0x400000))
  tables : s₁.tablesOk = true
  start : ExecState.ExecStart s₁ 0 newPml4
  image : ∃ f d, Shows s₁.heap newPml4 (vaPath 0x400000) f d ∧ ∀ i < 4096, d i = launcherPage i
  byte : s₁.heap.mem x = h.mem x + 1

/-- The byte at `x` is in the kernel stack, above the free pages. -/
theorem exists_smashed {x : U64} (hx : x.toNat < 0xffff800000402000)
    (hxp : pageOf x = 0xffff800000401) : ∃ h old p content s₁ newPml4, p.Allowed content ∧
      Smashed x h old (fun _ => p) s₁ newPml4 := by
  obtain ⟨h, old, hready, hshow, hcard, hlow⟩ := exists_caller (n := 32) (by norm_num) fun _ => 0
  have hs := hready.own.space.sound
  have hread := caller_canRead hshow (by decide)
  obtain ⟨-, hempty⟩ | ⟨h₁, v, hk, ht⟩ := kalloc_one hs
  · rw [hempty, Set.ncard_empty] at hcard
    omega
  have hxout : pageOf x ∉ h.freePages ∪ spacePages h old := fun hin => by
    have := hlow _ hin
    omega
  have hv := hlow _ (Or.inl ht.mem_free)
  have hxv : 4096 ≤ (x - v).toNat ∧ (x - v).toNat < 0x100000000001 := by
    unfold pageOf at hv hxp
    rw [BitVec.toNat_sub_of_le (BitVec.le_def.2 (by omega))]
    omega
  have hcount : (0x100000000001 : U64).toNat = 0x100000000001 := rfl
  obtain ⟨files, h₁', v', o, -, -, hk', htb, hbuf⟩ := ProgramFile.readElf_one
    (p := smash h₁.mem v x) hs FileSystemState.pipesOk_boot.files ⟨_, ht.mem_free⟩
    (Option.some_ne_none _) (show (smash h₁.mem v x).size = some _ from rfl) (by decide)
  obtain ⟨rfl, rfl⟩ := Prod.mk.inj (Option.some.inj (hk.symm.trans hk'))
  have hmem := smash_filled h₁ hxv.1 (hxv.2.trans_eq hcount.symm)
  have hpos : ((smash h₁.mem v x).reply 0x100000000001).result.slt 0 = false := by
    rw [smash_reply h₁.mem (hxv.2.trans_eq hcount.symm)]
    exact not_slt_zero (by omega)
  rw [ProgramFile.finish, if_neg (by rw [hpos]; decide)] at hbuf
  set g := (smash h₁.mem v x).filled 0x100000000001 v h₁ with hg
  -- the pages of the buffer are the block at `v`, and `x` is somewhere else
  have hblock : ∀ y, Within y v 4096 → pageOf y ∈ (blockAt o v).pages := fun y hy =>
    htb.pageOf_mem (hy.trans_eq (by decide))
  have hkeep : ∀ y, pageOf y ∉ (blockAt o v).pages → y ≠ x → g.mem y = h₁.mem y :=
    fun y hy hne => by rw [hmem, if_neg fun hin => hy (hblock y hin), if_neg hne]
  obtain ⟨hgs, hgfree⟩ := htb.sound.congr g rfl rfl fun y hy => hkeep y
    (by rw [htb.free] at hy; exact hy.2) (by
      rintro rfl
      rw [htb.free] at hy
      exact hxout (Or.inl hy.1))
  have hag : h.AgreeOutside (h.freePages ∪ {pageOf x}) g := ⟨htb.agree.hhdm, fun y hy =>
    (hkeep y (fun hin => hy (Or.inl (htb.mem_free hin))) fun he => hy (Or.inr (congrArg pageOf he))).trans
      (htb.agree.mem y fun hin => hy (Or.inl hin))⟩
  have hgsub : g.freePages ⊆ h.freePages := by
    rw [hgfree, htb.free]
    exact Set.sdiff_subset
  obtain ⟨hready', hspace⟩ := hready.of_agree hgs hag (Set.disjoint_union_right.2
    ⟨hready.own.space.disjoint_free, Set.disjoint_singleton_right.2 fun hin => hxout (Or.inr hin)⟩) hgsub
  have hgx : g.mem x = h.mem x + 1 := by
    have hout : ¬Within x v 4096 := hxv.1.not_gt
    rw [hmem, if_neg hout, if_pos rfl, htb.agree.mem x fun hin => hxout (Or.inl hin)]
  have hcard' := Set.ncard_sdiff_singleton_of_mem ht.mem_free
  rw [← ht.free, ← hgfree] at hcard'
  have hfile : ∀ elf, ExecState.BufferBytes g v (elfPages 0x100000000001) elf → IsLauncher elf :=
    fun elf hb i hi => by
      rw [hb i (hi.trans_eq (by decide)), hmem, if_pos (within_add v hi (by norm_num)), BitVec.add_comm,
        BitVec.add_sub_cancel]
  obtain ⟨s₁, p4, e, himg, htab⟩ := ExecState.exists_loadImage (s := (caller h old).bufferRead 0x400000
    ⟨g, files, [⟨v, ((smash h₁.mem v x).reply 0x100000000001).stored⟩], [],
      some (v, elfPages 0x100000000001), some (v, elfPages 0x100000000001)⟩) hgs (htb.held hgfree) rfl
    fun elf hb => ⟨(hfile elf hb).isElf64, (hfile elf hb).wellFormed.tame, by
      rw [(hfile elf hb).plan_length]
      change _ ≤ g.freePages.ncard
      omega⟩
  obtain ⟨-, elf, hbytes, -, rfl, hi⟩ := ExecState.loadImage_some hgs (htb.held hgfree)
    (fun elf hb _ => (hfile elf hb).wellFormed.tame) himg htab
  have hl := hfile elf hbytes
  have hbuf' : ((caller h old).program (fun _ => smash h₁.mem v x) 0x400000).readElf
      (caller h old).heap (caller h old).files = some _ := hbuf
  have hload := ExecState.execLoad_eq hread hbuf' rfl
  rw [himg, Option.map_some, hl.eEntry_eq] at hload
  have hsame := ExecState.execLoad_same hload
  obtain ⟨f, d, hplan, hd⟩ := hl.image
  refine ⟨h, old, smash h₁.mem v x, _, s₁, p4, smash_allowed _ _ _, hready, hload, htab,
    hi.start (hready'.congr hsame.1) ⟨_, hblock v (within_self v (by norm_num))⟩ ?_ ?_,
    ⟨f, d, hi.shows _ _ _ hplan, hd⟩, ?_⟩
  · rw [hsame.1]
    exact hspace ▸ hready.own.space.disjoint_free.mono_right htb.mem_free
  · rw [hsame.1]
    exact hready.held.mono_right htb.mem_free
  · refine (hi.agree.mem x ?_).trans hgx
    rintro (hin | hin)
    · exact hxout (Or.inl (hgsub hin))
    · exact hxout (Or.inl (htb.mem_free hin))

/-! ## A frame that is changed -/

/-- The lowest byte of a word. -/
theorem load64_low (m : Mem) (a : U64) : (load64 m a).toNat % 256 = (m a).toNat := by
  have hlt : readLE m a 8 < 2 ^ 64 := readLE_lt m 8 a
  have hbyte := (m a).isLt
  rw [load64, BitVec.toNat_ofNat, Nat.mod_eq_of_lt hlt, readLE]
  omega

namespace ExecState

/-- The top of the kernel stack stays. -/
theorem procExec_kstop {s s' : ExecState} {k : Fin maxProcs} {fs : List U8 → ProgramFile} {path argv : U64}
    (hr : s.procExec (some k) fs path argv = some (s', 0)) : s'.kstop k = s.kstop k := by
  obtain ⟨s₁, newPml4, entry, t, userRsp, s₂, hl, -, htear, rfl⟩ := procExec_eq_zero hr
  rw [(switched_entry path htear).2.2.1, kstop, kstop, (execLoad_same hl).1]

theorem frameRegs_rbx (mem : Mem) (a : U64) :
    frameRegs mem a .rbx = load64 mem (a + BitVec.ofNat 64 96) := rfl

/-- The read changes the saved `rbx`, and the call returns 0. -/
theorem exec_corrupts_frame : ∃ m s k p content path argv s', InSyscall m s k ∧ ExecReady s.heap s k ∧
    p.Allowed content ∧ s.procExec (some k) (fun _ => p) path argv = some (s', 0) ∧
      ¬TakesEffect m s k (fun _ => p) path argv s' := by
  obtain ⟨h, old, p, content, s₁, newPml4, hp, hsm⟩ :=
    exists_smashed (x := 0xffff800000401fe0) (by decide) (by decide)
  obtain ⟨n, userRsp, s₂, hn, hsw, hr, -⟩ := exec_launcher hsm.load hsm.start hsm.image
  refine ⟨_, caller h old, 0, p, content, 0x400000, 0, _, inSyscall_machineAt (caller h old) 0,
    hsm.ready, hp, hr, ?_⟩
  rintro ⟨_, _, entry, _, rsp, _, _, -, -, -, -, heff⟩
  set s' := (s₂.lcr3 (s₂.heap.virtToPhys newPml4)).renamed 0 0x400000
  have htop : s'.kstop 0 = (caller h old).kstop 0 := procExec_kstop hr
  have htop₁ : s₁.kstop 0 = (caller h old).kstop 0 := by
    rw [kstop, kstop, (execLoad_same hsm.load).1]
  -- the process leaves without an interruption
  let u : State := ⟨fun _ => s'.kstop 0 - BitVec.ofNat 64 128, s'.heap.mem, false, 0, 0⟩
  obtain ⟨u', hrun⟩ := exists_interrupted (fun t t' => Preempted (inUse (s'.kstop 0) 8192 t) t t')
    leaveKernel u
  have hu : s'.Leaves 0 u u' := ⟨rfl, fun _ _ => rfl, hrun⟩
  have hframe := hsw.frame _ (entryFrame_length _)
    (frameRegs_words s₁.heap.mem (s₁.kstop 0 - BitVec.ofNat 64 128))
  have hloaded := (hu.regs (by rw [htop, ← htop₁]; exact hframe)).2.2.2 .rbx (by decide) (by decide)
    (by decide)
  have hsaved := (heff.leaves u u' hu).2.2.2 .rbx (by decide) (by decide) (by decide)
  have haddr : (caller h old).kstop 0 - BitVec.ofNat 64 128 + BitVec.ofNat 64 96 =
      0xffff800000401fe0 := by
    change (0xffff800000400000 : U64) + kstackSize - BitVec.ofNat 64 128 + BitVec.ofNat 64 96 = _
    decide
  rw [htop₁, frameRegs_rbx, haddr] at hloaded
  have hold : (machineAt (frameRegs (caller h old).heap.mem ((caller h old).kstop 0 - BitVec.ofNat 64 128))
      ((caller h old).kstop 0)).regs .rbx = load64 h.mem 0xffff800000401fe0 := by
    rw [← haddr]
    exact frameRegs_rbx _ _
  have hbyte : (s₁.heap.mem 0xffff800000401fe0).toNat = (h.mem 0xffff800000401fe0).toNat := by
    rw [← load64_low, ← load64_low, ← hloaded, hsaved, hold]
  rw [hsm.byte] at hbyte
  generalize h.mem 0xffff800000401fe0 = b at hbyte
  revert hbyte
  bv_omega

end ExecState

end Jeos
