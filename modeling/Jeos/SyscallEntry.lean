import Jeos.Lib.Machine
import Jeos.Types

/-!
# The system call entry

`syscall_entry` switches to the kernel stack, pushes the user registers, copies them into
the trap frame of the current process, calls `syscall_handler`, pops the registers and
returns to the user.

`Entered` is what holds at the call, with the frame of the sixteen pushed words on the
stack. `exec_syscallEntry_regs` : after any handler that returns, every register is back,
and this includes `rax`, since the return value is overwritten by the pushed system call
number. So the caller gets the result of the handler if and only if it is the number of
the system call (`syscall_result_iff`).
-/

namespace Jeos

open ByteMemory Machine

/-! ## The layouts -/

/-- `struct cpu` : `kernel_rsp`, `scratch_rsp`, `proc`, `scheduler_ctx`, `apic_id`, `ncli`,
`intena`, `cpu_id`. -/
def cpuFields : List CType := [.u64, .u64, .u64, .u64, .u8, .u8, .u8, .u8]

/-- `struct trap_frame` : the registers from `r15` to `rax`, `int_no`, `error_code`, `rip`,
`cs`, `rflags`, `rsp`, `ss`. -/
def trapFrameFields : List CType := List.replicate 22 .u64

/-- `struct proc` : `pid`, `ppid`, `state`, `exit_code`, `pml4`, `kstack`, `context`, `tf`,
`brk`, `name`, `files`. -/
def procFields : List CType :=
  [.u32, .u32, .u32, .u32, .u64, .u64, .u64, .struct trapFrameFields, .u64, .array .u8 16,
    .array .u64 32]

/-- The assembly code writes the trap frame at `proc + 40`. -/
theorem tf_offset : CType.offset procFields 7 = 40 := rfl

theorem trapFrame_size : (CType.struct trapFrameFields).size = 176 := rfl

/-! ## The code -/

/-- From the first instruction to the last push. -/
def enterKernel : List Instr :=
  [.swapgs,
    .storeGs 8 .rsp,
    .loadGs .rsp 0,
    .pushGs 8,
    .push .rcx,
    .push .r11,
    .push .rbx,
    .push .rbp,
    .push .r12,
    .push .r13,
    .push .r14,
    .push .r15,
    .push .rdi,
    .push .rsi,
    .push .rdx,
    .push .r10,
    .push .r8,
    .push .r9,
    .push .rax]

/-- The copy of the pushed words into `current_proc->tf`. -/
def saveTf : List Instr :=
  [.lea .rax .rbx 40,
    .load .rdx .rsp 56, .store .rax 0 .rdx,
    .load .rdx .rsp 64, .store .rax 8 .rdx,
    .load .rdx .rsp 72, .store .rax 16 .rdx,
    .load .rdx .rsp 80, .store .rax 24 .rdx,
    .load .rdx .rsp 104, .store .rax 32 .rdx,
    .load .rdx .rsp 24, .store .rax 40 .rdx,
    .load .rdx .rsp 8, .store .rax 48 .rdx,
    .load .rdx .rsp 16, .store .rax 56 .rdx,
    .load .rdx .rsp 88, .store .rax 64 .rdx,
    .load .rdx .rsp 48, .store .rax 72 .rdx,
    .load .rdx .rsp 40, .store .rax 80 .rdx,
    .load .rdx .rsp 32, .store .rax 88 .rdx,
    .load .rdx .rsp 112, .store .rax 96 .rdx,
    .load .rdx .rsp 96, .store .rax 104 .rdx,
    .load .rdx .rsp 0, .store .rax 112 .rdx,
    .clear .rdx,
    .store .rax 120 .rdx,
    .store .rax 128 .rdx,
    .load .rdx .rsp 112, .store .rax 136 .rdx,
    .movImm .rdx 0x20, .store .rax 144 .rdx,
    .load .rdx .rsp 104, .store .rax 152 .rdx,
    .load .rdx .rsp 120, .store .rax 160 .rdx,
    .movImm .rdx 0x28, .store .rax 168 .rdx]

/-- From `.skip_tf_save` to the call. -/
def reloadArgs : List Instr :=
  [.load .rdi .rsp 0,
    .load .rsi .rsp 48,
    .load .rdx .rsp 40,
    .load .rcx .rsp 32,
    .load .r8 .rsp 24,
    .load .r9 .rsp 16]

/-- What is before `call syscall_handler`. -/
def beforeHandler : List Instr :=
  enterKernel ++ [.loadGs .rbx 16, .test .rbx] ++ .jz saveTf.length :: (saveTf ++ reloadArgs)

/-- What is after the call, up to `o64 sysret`. -/
def leaveKernel : List Instr :=
  [.pop .rax,
    .pop .r9,
    .pop .r8,
    .pop .r10,
    .pop .rdx,
    .pop .rsi,
    .pop .rdi,
    .pop .r15,
    .pop .r14,
    .pop .r13,
    .pop .r12,
    .pop .rbp,
    .pop .rbx,
    .pop .r11,
    .pop .rcx,
    .pop .rsp,
    .swapgs]

/-- The instructions of `syscall_entry`, up to `o64 sysret`. -/
def syscallEntry : List Instr := beforeHandler ++ .call :: leaveKernel

/-! ## The handler -/

/-- The function `syscall_handler` calls, with its arguments. -/
inductive Service
  | sysExit (status : U32)
  | sysWrite (fd buf len : U64)
  | sysGetpid
  | procExec (path argv : U64)
  | procFork
  | sysOpen (path flags : U64)
  | sysClose (fd : U64)
  | sysRead (fd buf len : U64)
  | sysSeek (fd off whence : U64)
  | sysFstat (fd st : U64)
  | sysStat (path st : U64)
  | sysWait (status : U64)
  | sysDup (fd : U64)
  | sysDup2 (oldfd newfd : U64)
  | sysBrk (addr : U64)
  | sysPipe (fds : U64)
  | sysFbinfo (info : U64)

/-- `syscall_handler` up to the call of a service. `none` is the default case, which
returns -1. -/
def syscallHandler (num a1 a2 a3 : U64) : Option Service :=
  match num.toNat with
  | 0 => some (.sysExit (a1.setWidth 32))
  | 1 => some (.sysWrite a1 a2 a3)
  | 2 => some .sysGetpid
  | 3 => some (.procExec a1 a2)
  | 4 => some .procFork
  | 5 => some (.sysOpen a1 a2)
  | 6 => some (.sysClose a1)
  | 7 => some (.sysRead a1 a2 a3)
  | 8 => some (.sysSeek a1 a2 a3)
  | 9 => some (.sysFstat a1 a2)
  | 10 => some (.sysStat a1 a2)
  | 11 => some (.sysWait a1)
  | 12 => some (.sysDup a1)
  | 13 => some (.sysDup2 a1 a2)
  | 14 => some (.sysBrk a1)
  | 15 => some (.sysPipe a1)
  | 16 => some (.sysFbinfo a1)
  | _ => none

/-- The call of `syscall_handler`, with the state in which a service returns. -/
def callHandler (serve : Service → State → State) (s : State) : State :=
  match syscallHandler (s.regs .rdi) (s.regs .rsi) (s.regs .rdx) (s.regs .rcx) with
  | some f => serve f s
  | none => s.set .rax (-1)

/-! ## The frame -/

/-- The pushed registers, in the order of the pushes after the user stack pointer. -/
def savedRegs : List Reg :=
  [.rcx, .r11, .rbx, .rbp, .r12, .r13, .r14, .r15, .rdi, .rsi, .rdx, .r10, .r8, .r9, .rax]

/-- The words on the kernel stack at the call, the top first. -/
def entryFrame (regs : Reg → U64) : List U64 := (savedRegs.map regs).reverse ++ [regs .rsp]

/-- The trap frame `syscall_entry` saves. -/
def savedTf (regs : Reg → U64) : List U64 :=
  [regs .r15, regs .r14, regs .r13, regs .r12, regs .r11, regs .r10, regs .r9, regs .r8,
    regs .rbp, regs .rdi, regs .rsi, regs .rdx, regs .rcx, regs .rbx, regs .rax, 0, 0,
    regs .rcx, 0x20, regs .r11, regs .rsp, 0x28]

/-- `cpu->kernel_rsp`. -/
def kernelRsp (s : State) : U64 := load64 s.mem s.kernelGs

/-- `cpu->proc`. -/
def curProc (s : State) : U64 := load64 s.mem (s.kernelGs + BitVec.ofNat 64 16)

/-- The 128 bytes below `kernel_rsp`, the three words of `struct cpu` the code reads and
the trap frame of the current process are different objects. -/
structure EntryLayout (s : State) : Prop where
  cpu : Apart s.kernelGs 24 (kernelRsp s - BitVec.ofNat 64 128) 128
  tf : curProc s ≠ 0 →
    Apart (kernelRsp s - BitVec.ofNat 64 128) 128 (curProc s + BitVec.ofNat 64 40) 176
  cpu_tf : curProc s ≠ 0 → Apart s.kernelGs 24 (curProc s + BitVec.ofNat 64 40) 176

variable {s t : State} {c : State → State}

@[simp] theorem entryFrame_length (regs : Reg → U64) : (entryFrame regs).length = 16 := rfl

@[simp] theorem savedTf_length (regs : Reg → U64) : (savedTf regs).length = 22 := rfl

/-- The state after `mov rsp, [gs:0]`. -/
def onKernelStack (s : State) : State :=
  { s.set .rsp (kernelRsp s) with
    mem := store64 s.mem (s.kernelGs + BitVec.ofNat 64 8) (s.regs .rsp)
    gs := s.kernelGs
    kernelGs := s.gs }

theorem onKernelStack_mem : (onKernelStack s).mem =
    store64 s.mem (s.kernelGs + BitVec.ofNat 64 8) (s.regs .rsp) := rfl

/-- A word of `struct cpu` behind `scratch_rsp` or in front of it. -/
theorem load64_onKernelStack {i : ℕ} (h : i + 8 ≤ 8 ∨ 16 ≤ i) (hi : i + 8 ≤ 24) :
    load64 (onKernelStack s).mem (s.kernelGs + BitVec.ofNat 64 i) =
      load64 s.mem (s.kernelGs + BitVec.ofNat 64 i) := by
  rw [onKernelStack_mem, load64_store64_of_apart]
  exact apart_add _ (by omega) (by omega) (by omega)

/-- The pushes put the frame below `kernel_rsp`. -/
theorem exec_enterKernel :
    Pushed (onKernelStack s) (exec c 0 enterKernel s) (entryFrame s.regs) := by
  have hrsp : load64 (onKernelStack s).mem (s.kernelGs + BitVec.ofNat 64 0) = kernelRsp s := by
    rw [load64_onKernelStack (by omega) (by omega), BitVec.add_zero, kernelRsp]
  have hscratch : load64 (onKernelStack s).mem (s.kernelGs + BitVec.ofNat 64 8) = s.regs .rsp := by
    rw [onKernelStack_mem, load64_store64_self (by decide)]
  have hregs : savedRegs.map ((onKernelStack s).push (s.regs .rsp)).regs = savedRegs.map s.regs :=
    List.map_congr_left fun r hr => by
      have hne : r ≠ .rsp := fun e => absurd (e ▸ hr) (by decide)
      rw [(pushed_push _ _).regs r hne]
      exact State.set_of_ne _ _ hne
  have hexec : exec c 0 enterKernel s =
      exec c 0 (savedRegs.map .push) ((onKernelStack s).push (s.regs .rsp)) := by
    have hcode : enterKernel =
        [.swapgs, .storeGs 8 .rsp, .loadGs .rsp 0, .pushGs 8] ++ savedRegs.map .push := rfl
    rw [hcode, exec_append (by decide), exec_cons rfl, exec_cons rfl, exec_cons rfl, exec_cons rfl,
      exec_nil]
    simp only [Instr.step, State.set_gs, State.set_mem, ← onKernelStack_mem, hrsp, hscratch]
    rfl
  have h : Pushed ((onKernelStack s).push (s.regs .rsp))
      (exec c 0 (savedRegs.map .push) ((onKernelStack s).push (s.regs .rsp)))
      (savedRegs.map ((onKernelStack s).push (s.regs .rsp)).regs).reverse :=
    exec_pushes (by decide) (by decide)
  rw [hregs] at h
  rw [hexec]
  exact (pushed_push _ _).trans h (by rw [← entryFrame, entryFrame_length]; decide)

/-! ## The copy into the trap frame -/

/-- Where a word of the trap frame comes from : a word of the stack frame, a constant, a
cleared register, or the word before. -/
inductive TfSource
  | slot (i : ℕ)
  | imm (v : U64)
  | zero
  | same

/-- The instruction that loads the word. -/
def TfSource.code : TfSource → List Instr
  | .slot i => [.load .rdx .rsp (8 * i)]
  | .imm v => [.movImm .rdx v]
  | .zero => [.clear .rdx]
  | .same => []

/-- The word, with `v` in `rdx` before. -/
def TfSource.value (frame : List U64) (v : U64) : TfSource → U64
  | .slot i => frame.getD i 0
  | .imm u => u
  | .zero => 0
  | .same => v

/-- The words of a list of sources. -/
def tfValues (frame : List U64) : U64 → List TfSource → List U64
  | _, [] => []
  | v, src :: srcs => src.value frame v :: tfValues frame (src.value frame v) srcs

/-- The stores of a list of sources, from word `k` on. -/
def saveCode : ℕ → List TfSource → List Instr
  | _, [] => []
  | k, src :: srcs => src.code ++ .store .rax (8 * k) .rdx :: saveCode (k + 1) srcs

/-- The sources of the trap frame, in its order. -/
def tfSources : List TfSource :=
  [.slot 7, .slot 8, .slot 9, .slot 10, .slot 13, .slot 3, .slot 1, .slot 2, .slot 11,
    .slot 6, .slot 5, .slot 4, .slot 14, .slot 12, .slot 0, .zero, .same, .slot 14,
    .imm 0x20, .slot 13, .slot 15, .imm 0x28]

theorem saveTf_eq : saveTf = .lea .rax .rbx 40 :: saveCode 0 tfSources := rfl

theorem TfSource.code_isJump (src : TfSource) : ∀ i ∈ src.code, i.isJump = false := by
  cases src <;> simp [code, Instr.isJump]

/-- The stores of `saveCode` have put the words `ws` at `tf` and changed nothing but
`rdx` besides. -/
structure TfStored (s t : State) (tf : U64) (ws : List U64) : Prop where
  regs : ∀ r, r ≠ .rdx → t.regs r = s.regs r
  gs : t.gs = s.gs
  kernelGs : t.kernelGs = s.kernelGs
  words : WordsAt t.mem tf ws
  mem : ∀ x, ¬Within x tf 176 → t.mem x = s.mem x

/-- A source puts its word into `rdx`. -/
theorem exec_source {frame : List U64} {src : TfSource}
    (hsrc : ∀ i, src = .slot i → i < frame.length) (hf : WordsAt s.mem (s.regs .rsp) frame) :
    let t := exec c 0 src.code s
    t.regs .rdx = src.value frame (s.regs .rdx) ∧ (∀ r, r ≠ .rdx → t.regs r = s.regs r) ∧
      t.mem = s.mem ∧ t.gs = s.gs ∧ t.kernelGs = s.kernelGs := by
  cases src with
  | slot i =>
    have hi : frame[i]? = some (frame.getD i 0) := by
      rw [List.getD_eq_getElem?_getD, List.getElem?_eq_getElem (hsrc i rfl), Option.getD_some]
    refine ⟨?_, fun r hr => State.set_of_ne _ _ hr, rfl, rfl, rfl⟩
    exact (State.set_self _ _).trans (hf.load i hi)
  | imm v => exact ⟨State.set_self _ _, fun r hr => State.set_of_ne _ _ hr, rfl, rfl, rfl⟩
  | zero =>
    exact ⟨State.set_self s (r := .rdx) 0, fun r hr => State.set_of_ne s _ hr, rfl, rfl, rfl⟩
  | same => exact ⟨rfl, fun _ _ => rfl, rfl, rfl, rfl⟩

/-- The stores put their words one behind the other. -/
theorem exec_saveCode {frame : List U64} {tf : U64} (hlen : 8 * frame.length ≤ 128) :
    ∀ {srcs : List TfSource} {ws : List U64} {s : State},
      (∀ i, .slot i ∈ srcs → i < frame.length) → WordsAt s.mem (s.regs .rsp) frame →
      Apart (s.regs .rsp) 128 tf 176 → s.regs .rax = tf → WordsAt s.mem tf ws →
      8 * (ws.length + srcs.length) ≤ 176 →
      TfStored s (exec c 0 (saveCode ws.length srcs) s) tf
        (ws ++ tfValues frame (s.regs .rdx) srcs)
  | [], ws, s, _, _, _, _, hws, _ =>
    ⟨fun _ _ => rfl, rfl, rfl, by rw [tfValues, List.append_nil]; exact hws, fun _ _ => rfl⟩
  | src :: srcs, ws, s, hsrc, hf, hap, hrax, hws, hn => by
    have hsub : ∀ i, .slot i ∈ srcs → i < frame.length :=
      fun i hi => hsrc i (List.mem_cons_of_mem _ hi)
    obtain ⟨hv, hr, hm, hgs, hkgs⟩ := exec_source (c := c)
      (fun i hi => hsrc i (hi ▸ List.mem_cons_self)) hf
    rw [List.length_cons] at hn
    -- the state after the load and the store of the first word
    let s₁ := exec c 0 src.code s
    let s₂ : State :=
      { s₁ with mem := store64 s.mem (tf + BitVec.ofNat 64 (8 * ws.length)) (s₁.regs .rdx) }
    have hexec : exec c 0 (saveCode ws.length (src :: srcs)) s =
        exec c 0 (saveCode (ws.length + 1) srcs) s₂ := by
      have hs₂ : Instr.step c s₁ (.store .rax (8 * ws.length) .rdx) = s₂ := by
        rw [Instr.step, hm, hr .rax (by decide), hrax]
      rw [saveCode, exec_append src.code_isJump, exec_cons rfl, hs₂]
    have hout : ∀ x, ¬Within x tf 176 → s₂.mem x = s.mem x := fun x hx =>
      store64_of_not_within fun h => hx (h.of_add (by omega) (by decide))
    have hrsp : s₂.regs .rsp = s.regs .rsp := hr .rsp (by decide)
    have hf₂ : WordsAt s₂.mem (s₂.regs .rsp) frame := by
      rw [hrsp]
      exact hf.congr (by omega) fun x hx => hout x (hap x (Nat.lt_of_lt_of_le hx hlen))
    have hws₂ : WordsAt s₂.mem tf (ws ++ [s₁.regs .rdx]) :=
      hws.store_next (by decide) (by omega)
    have h := exec_saveCode hlen hsub hf₂ (by rw [hrsp]; exact hap)
      ((hr .rax (by decide)).trans hrax) hws₂
      (by rw [List.length_append, List.length_singleton]; omega)
    have hvals : ws ++ [s₁.regs .rdx] ++ tfValues frame (s₂.regs .rdx) srcs =
        ws ++ tfValues frame (s.regs .rdx) (src :: srcs) := by
      rw [List.append_assoc, tfValues, ← hv]
      rfl
    rw [List.length_append, List.length_singleton, hvals] at h
    rw [hexec]
    exact ⟨fun r hne => (h.regs r hne).trans (hr r hne), h.gs.trans hgs, h.kernelGs.trans hkgs,
      h.words, fun x hx => (h.mem x hx).trans (hout x hx)⟩

/-! ## The state at the call -/

/-- The state `t` at the call of the handler, when `syscall` is executed in the state `s`. -/
structure Entered (s t : State) : Prop where
  rsp : t.regs .rsp = kernelRsp s - BitVec.ofNat 64 128
  frame : WordsAt t.mem (t.regs .rsp) (entryFrame s.regs)
  num : t.regs .rdi = s.regs .rax
  a1 : t.regs .rsi = s.regs .rdi
  a2 : t.regs .rdx = s.regs .rsi
  a3 : t.regs .rcx = s.regs .rdx
  a4 : t.regs .r8 = s.regs .r10
  a5 : t.regs .r9 = s.regs .r8
  gs : t.gs = s.kernelGs
  kernelGs : t.kernelGs = s.gs
  proc : load64 t.mem (t.gs + BitVec.ofNat 64 16) = curProc s
  tf : curProc s ≠ 0 → WordsAt t.mem (curProc s + BitVec.ofNat 64 40) (savedTf s.regs)

/-- The arguments come from the words of the frame. -/
theorem exec_reloadArgs {regs : Reg → U64}
    (hf : WordsAt s.mem (s.regs .rsp) (entryFrame regs)) :
    let t := exec c 0 reloadArgs s
    (t.regs .rsp = s.regs .rsp ∧ t.mem = s.mem ∧ t.gs = s.gs ∧ t.kernelGs = s.kernelGs) ∧
      t.regs .rdi = regs .rax ∧ t.regs .rsi = regs .rdi ∧ t.regs .rdx = regs .rsi ∧
      t.regs .rcx = regs .rdx ∧ t.regs .r8 = regs .r10 ∧ t.regs .r9 = regs .r8 := by
  have h0 := hf.load 0 rfl
  have h1 := hf.load 2 rfl
  have h2 := hf.load 3 rfl
  have h3 := hf.load 4 rfl
  have h4 := hf.load 5 rfl
  have h5 := hf.load 6 rfl
  have hexec : exec c 0 reloadArgs s =
      (((((s.set .rdi (regs .rax)).set .rsi (regs .rdi)).set .rdx (regs .rsi)).set .rcx
        (regs .rdx)).set .r8 (regs .r10)).set .r9 (regs .r8) := by
    rw [reloadArgs, exec_cons rfl, exec_cons rfl, exec_cons rfl, exec_cons rfl, exec_cons rfl,
      exec_cons rfl, exec_nil]
    simp only [Instr.step, State.set_mem, ne_eq, reduceCtorEq, not_false_eq_true, State.set_of_ne,
      h0, h1, h2, h3, h4, h5]
  rw [hexec]
  refine ⟨⟨?_, rfl, rfl, rfl⟩, ?_⟩
  · simp
  · simp

theorem exec_saveTf {regs : Reg → U64} {tf : U64}
    (hf : WordsAt s.mem (s.regs .rsp) (entryFrame regs))
    (htf : s.regs .rbx + BitVec.ofNat 64 40 = tf) (hap : Apart (s.regs .rsp) 128 tf 176) :
    TfStored (s.set .rax tf) (exec c 0 saveTf s) tf (savedTf regs) := by
  have hexec : exec c 0 saveTf s = exec c 0 (saveCode 0 tfSources) (s.set .rax tf) := by
    rw [saveTf_eq, exec_cons rfl, ← htf]
    rfl
  have hrsp : (s.set .rax tf).regs .rsp = s.regs .rsp := State.set_of_ne s _ (by decide)
  have hslots : ∀ i, .slot i ∈ tfSources → i < (entryFrame regs).length := fun i hi => by
    simp only [tfSources, List.mem_cons, TfSource.slot.injEq, reduceCtorEq, false_or, or_false,
      List.not_mem_nil] at hi
    rw [entryFrame_length]
    omega
  have h := exec_saveCode (c := c) (by rw [entryFrame_length]) hslots (s := s.set .rax tf)
    (by rw [hrsp]; exact hf) (by rw [hrsp]; exact hap) (State.set_self s _)
    (wordsAt_nil (w := 64)) (by decide)
  rw [hexec]
  exact h

/-- The state at `.skip_tf_save` : the frame is on the stack, and in the trap frame of the
current process if there is one. -/
structure AtSkip (s t : State) : Prop where
  rsp : t.regs .rsp = kernelRsp s - BitVec.ofNat 64 128
  frame : WordsAt t.mem (t.regs .rsp) (entryFrame s.regs)
  gs : t.gs = s.kernelGs
  kernelGs : t.kernelGs = s.gs
  proc : load64 t.mem (t.gs + BitVec.ofNat 64 16) = curProc s
  tf : curProc s ≠ 0 → WordsAt t.mem (curProc s + BitVec.ofNat 64 40) (savedTf s.regs)

theorem atSkip_of_saved {u : State} (L : EntryLayout s) (hp : curProc s ≠ 0)
    (hrsp : t.regs .rsp = kernelRsp s - BitVec.ofNat 64 128)
    (hf : WordsAt t.mem (t.regs .rsp) (entryFrame s.regs)) (hgs : t.gs = s.kernelGs)
    (hkgs : t.kernelGs = s.gs) (hproc : load64 t.mem (t.gs + BitVec.ofNat 64 16) = curProc s)
    (h : TfStored (t.set .rax (curProc s + BitVec.ofNat 64 40)) u
      (curProc s + BitVec.ofNat 64 40) (savedTf s.regs)) : AtSkip s u := by
  have hmem : ∀ x, ¬Within x (curProc s + BitVec.ofNat 64 40) 176 → u.mem x = t.mem x := h.mem
  have hu : u.regs .rsp = t.regs .rsp :=
    (h.regs .rsp (by decide)).trans (State.set_of_ne t _ (by decide))
  have hugs : u.gs = t.gs := h.gs
  refine ⟨hu.trans hrsp, ?_, hugs.trans hgs, h.kernelGs.trans hkgs, ?_, fun _ => h.words⟩
  · rw [hu]
    refine hf.congr (by rw [entryFrame_length]; decide) fun x hx => hmem x (L.tf hp x ?_)
    rw [← hrsp]
    exact hx
  · rw [← hproc, hugs, hgs]
    refine load64_congr fun x hx => hmem x (L.cpu_tf hp x ?_)
    exact hx.of_add (by decide) (by decide)

/-- The test of `cpu->proc` and the copy. -/
theorem exec_testProc (L : EntryLayout s)
    (hrsp : t.regs .rsp = kernelRsp s - BitVec.ofNat 64 128)
    (hf : WordsAt t.mem (t.regs .rsp) (entryFrame s.regs)) (hgs : t.gs = s.kernelGs)
    (hkgs : t.kernelGs = s.gs) (hproc : load64 t.mem (t.gs + BitVec.ofNat 64 16) = curProc s) :
    ∃ u, AtSkip s u ∧ exec c 0 ([.loadGs .rbx 16, .test .rbx] ++
      .jz saveTf.length :: (saveTf ++ reloadArgs)) t = exec c 0 reloadArgs u := by
  -- the state after `test rbx, rbx`
  obtain ⟨t', ht'⟩ : ∃ t' : State,
      t' = { t.set .rbx (curProc s) with zf := curProc s = 0 } := ⟨_, rfl⟩
  have hexec : exec c 0 ([.loadGs .rbx 16, .test .rbx] ++
      .jz saveTf.length :: (saveTf ++ reloadArgs)) t =
      exec c 0 reloadArgs (if t'.zf then t' else exec c 0 saveTf t') := by
    rw [List.cons_append, exec_cons rfl, List.cons_append, exec_cons rfl, List.nil_append,
      exec_jz (by decide), ht']
    simp only [Instr.step, hproc, State.set_self]
  have hrsp' : t'.regs .rsp = t.regs .rsp := by
    rw [ht']
    exact State.set_of_ne t (curProc s) (show Reg.rsp ≠ .rbx by decide)
  have hrbx : t'.regs .rbx = curProc s := by
    rw [ht']
    exact State.set_self t (r := .rbx) _
  have hmem : t'.mem = t.mem := by rw [ht']; rfl
  have hgs' : t'.gs = t.gs := by rw [ht']; rfl
  have hkgs' : t'.kernelGs = t.kernelGs := by rw [ht']; rfl
  have hzf : t'.zf = decide (curProc s = 0) := by rw [ht']
  have hf' : WordsAt t'.mem (t'.regs .rsp) (entryFrame s.regs) := by
    rw [hmem, hrsp']
    exact hf
  have hproc' : load64 t'.mem (t'.gs + BitVec.ofNat 64 16) = curProc s := by
    rw [hmem, hgs', hproc]
  rw [hexec, hzf]
  by_cases hp : curProc s = 0
  · refine ⟨t', ⟨hrsp'.trans hrsp, hf', hgs'.trans hgs, hkgs'.trans hkgs, hproc',
      fun h => absurd hp h⟩, ?_⟩
    simp only [hp, decide_true, if_true]
  · refine ⟨exec c 0 saveTf t', ?_, by simp only [hp, decide_false, Bool.false_eq_true, if_false]⟩
    refine atSkip_of_saved L hp (hrsp'.trans hrsp) hf' (hgs'.trans hgs) (hkgs'.trans hkgs) hproc' ?_
    refine exec_saveTf hf' (by rw [hrbx]) ?_
    rw [hrsp', hrsp]
    exact L.tf hp

/-- The frame, the arguments and the trap frame at the call of the handler. -/
theorem exec_beforeHandler (L : EntryLayout s) : Entered s (exec c 0 beforeHandler s) := by
  have h1 := exec_enterKernel (s := s) (c := c)
  have hcode : exec c 0 beforeHandler s = exec c 0 ([.loadGs .rbx 16, .test .rbx] ++
      .jz saveTf.length :: (saveTf ++ reloadArgs)) (exec c 0 enterKernel s) := by
    rw [beforeHandler, List.append_assoc, exec_append (by decide)]
  rw [hcode]
  generalize exec c 0 enterKernel s = t at h1
  have hk : (onKernelStack s).regs .rsp = kernelRsp s := State.set_self s (r := .rsp) _
  have hrsp : t.regs .rsp = kernelRsp s - BitVec.ofNat 64 128 := by
    rw [← hk, ← h1.rsp, entryFrame_length, BitVec.add_sub_cancel]
  have hgs : t.gs = s.kernelGs := h1.gs
  have hproc : load64 t.mem (t.gs + BitVec.ofNat 64 16) = curProc s := by
    rw [curProc, ← load64_onKernelStack (Or.inr (le_refl 16)) (by decide), hgs]
    refine load64_congr fun x hx => h1.mem x ?_
    rw [hrsp]
    exact L.cpu x (hx.of_add (by decide) (by decide))
  obtain ⟨u, hu, hexec⟩ := exec_testProc (c := c) L hrsp h1.words hgs h1.kernelGs hproc
  obtain ⟨⟨ersp, emem, egs, ekgs⟩, h⟩ := exec_reloadArgs (c := c) hu.frame
  rw [hexec]
  generalize exec c 0 reloadArgs u = v at *
  exact ⟨ersp.trans hu.rsp, by rw [ersp, emem]; exact hu.frame, h.1, h.2.1, h.2.2.1, h.2.2.2.1,
    h.2.2.2.2.1, h.2.2.2.2.2, egs.trans hu.gs, ekgs.trans hu.kernelGs,
    by rw [emem, egs]; exact hu.proc, by rw [emem]; exact hu.tf⟩

/-! ## The return to the user -/

/-- The pops give every register its word of the frame. -/
theorem exec_leaveKernel {regs : Reg → U64}
    (hf : WordsAt s.mem (s.regs .rsp) (entryFrame regs)) (r : Reg) :
    (exec c 0 leaveKernel s).regs r = regs r := by
  have hcode : leaveKernel = savedRegs.reverse.map .pop ++ [.pop .rsp, .swapgs] := rfl
  obtain ⟨hsaved, hlast⟩ := wordsAt_append.1 hf
  have h : Popped s (exec c 0 (savedRegs.reverse.map .pop) s) savedRegs.reverse
      (savedRegs.map regs).reverse :=
    exec_pops (by simp) (by decide) (by decide) hsaved
  have hexec : exec c 0 leaveKernel s =
      Instr.step c ((exec c 0 (savedRegs.reverse.map .pop) s).pop .rsp) .swapgs := by
    rw [hcode, exec_append (by decide), exec_cons rfl, exec_cons rfl, exec_nil]
    rfl
  rw [hexec]
  generalize exec c 0 (savedRegs.reverse.map .pop) s = t at h
  have hrsp : load64 t.mem (t.regs .rsp) = regs .rsp := by
    rw [h.mem, h.rsp]
    exact (wordsAt_cons.1 hlast).1
  by_cases hr : r = .rsp
  · rw [hr, ← hrsp]
    exact State.set_self (t.set .rsp (t.regs .rsp + BitVec.ofNat 64 8)) (r := .rsp)
      (load64 t.mem (t.regs .rsp))
  · have hmem : r ∈ savedRegs := by cases r <;> first | decide | exact absurd rfl hr
    have hval : ∀ r' ∈ savedRegs, t.regs r' = regs r' := by
      have hv := h.values
      rw [List.map_reverse, List.reverse_inj] at hv
      exact List.map_inj_left.1 hv
    rw [← hval r hmem]
    exact (State.set_of_ne (t.set .rsp _) _ hr).trans (State.set_of_ne t _ hr)

/-- The jump ends at `.skip_tf_save` whatever the test finds. -/
theorem exec_toSkip (q : List Instr) :
    exec c 0 (enterKernel ++ [.loadGs .rbx 16, .test .rbx] ++
      .jz saveTf.length :: (saveTf ++ q)) s =
      let t := exec c 0 (enterKernel ++ [.loadGs .rbx 16, .test .rbx]) s
      exec c 0 q (if t.zf then t else exec c 0 saveTf t) := by
  rw [exec_append (q := .jz saveTf.length :: (saveTf ++ q)) (by decide), exec_jz (by decide)]

/-- With a handler that returns, `syscall_entry` gives back every register as it was, `rax`
included. -/
theorem exec_syscallEntry_regs (L : EntryLayout s)
    (h : Returns (exec c 0 beforeHandler s) (c (exec c 0 beforeHandler s)) 128) (r : Reg) :
    (exec c 0 syscallEntry s).regs r = s.regs r := by
  have hE := exec_beforeHandler (c := c) L
  have hexec : exec c 0 syscallEntry s =
      exec c 0 leaveKernel (c (exec c 0 beforeHandler s)) := by
    have hcode : syscallEntry = enterKernel ++ [.loadGs .rbx 16, .test .rbx] ++
        .jz saveTf.length :: (saveTf ++ (reloadArgs ++ .call :: leaveKernel)) := by
      simp only [syscallEntry, beforeHandler, List.append_assoc, List.cons_append]
    rw [hcode, exec_toSkip, beforeHandler, exec_toSkip, exec_append (p := reloadArgs) (by decide),
      exec_cons rfl]
    rfl
  rw [hexec]
  exact exec_leaveKernel (h.words (by rw [entryFrame_length]) (by decide) hE.frame) r

/-! ## The result of a system call -/

variable {serve : Service → State → State}

/-- The state at `call syscall_handler`. -/
def atHandler (serve : Service → State → State) (s : State) : State :=
  exec (callHandler serve) 0 beforeHandler s

/-- The state in which `syscall_handler` returns, with its result in `rax`. -/
def afterHandler (serve : Service → State → State) (s : State) : State :=
  callHandler serve (atHandler serve s)

/-- The `STAR` register, as `init_syscall` sets it. -/
def star : U64 := 0x33 <<< 48 ||| 0x28 <<< 32

/-- The user's state after the `syscall` instruction executed in the state `s`. -/
def syscall (serve : Service → State → State) (s : State) : UserState :=
  sysret star (exec (callHandler serve) 0 syscallEntry s)

/-- The user finds the result of the handler in `rax`, and everything else as it was. -/
structure ReturnsResult (serve : Service → State → State) (s : State) : Prop where
  rax : (syscall serve s).regs .rax = (afterHandler serve s).regs .rax
  regs : ∀ r, r ≠ .rax → (syscall serve s).regs r = s.regs r
  rip : (syscall serve s).rip = s.regs .rcx
  rflags : (syscall serve s).rflags = s.regs .r11 &&& 0x3C7FD7 ||| 2

/-- The user gets the result of a handler that returns exactly if the result is the number of
the system call. -/
theorem syscall_result_iff (L : EntryLayout s)
    (h : Returns (atHandler serve s) (afterHandler serve s) 128) :
    ReturnsResult serve s ↔ (afterHandler serve s).regs .rax = s.regs .rax := by
  have hregs : ∀ r, (syscall serve s).regs r = s.regs r := exec_syscallEntry_regs L h
  constructor
  · intro hR
    rw [← hR.rax, hregs]
  · intro hrax
    refine ⟨by rw [hregs, hrax], fun r _ => hregs r, hregs .rcx, ?_⟩
    change (syscall serve s).regs .r11 &&& 0x3C7FD7 ||| 2 = _
    rw [hregs]

theorem returns_set_rax (s : State) (v : U64) (n : ℕ) : Returns s (s.set .rax v) n where
  saved := fun r hr => State.set_of_ne s v fun e => absurd (e ▸ hr) (by decide)
  frame := fun _ _ => rfl

/-- The handler returns -1 for the numbers without a service. -/
theorem callHandler_of_gt (h : 16 < (s.regs .rdi).toNat) :
    callHandler serve s = s.set .rax (-1) := by
  have hnone : syscallHandler (s.regs .rdi) (s.regs .rsi) (s.regs .rdx) (s.regs .rcx) = none := by
    unfold syscallHandler
    split <;> first | omega | rfl
  rw [callHandler, hnone]

/-- A process at a `syscall` with the number `num`, on a CPU whose structure is at `0x1000`
and whose kernel stack ends at `0x9000`. -/
def userAt (num : U64) : State where
  regs := fun r => if r = .rax then num else 0
  mem := store64 (fun _ => 0) 0x1000 0x9000
  zf := false
  gs := 0
  kernelGs := 0x1000

theorem userAt_layout (num : U64) : EntryLayout (userAt num) := by
  have hk : kernelRsp (userAt num) = 0x9000 := load64_store64_self (by decide) _ _ _
  have hp : curProc (userAt num) = 0 := by
    change load64 (store64 (fun _ => 0) 0x1000 0x9000) (0x1000 + BitVec.ofNat 64 16) = (0 : U64)
    rw [load64_store64_of_apart (apart_of_le (by decide) (by decide) (Or.inr (by decide))), load64]
    rfl
  refine ⟨?_, fun h => absurd hp h, fun h => absurd hp h⟩
  rw [hk]
  change Apart (0x1000 : U64) 24 _ 128
  exact apart_of_le (by decide) (by decide) (Or.inl (by decide))

theorem syscall_result_two :
    ReturnsResult (fun _ t => t.set .rax 2) (userAt 2) := by
  have hE := exec_beforeHandler (c := callHandler fun _ t => t.set .rax 2) (userAt_layout 2)
  have hafter : afterHandler (fun _ t => t.set .rax 2) (userAt 2) =
      (atHandler (fun _ t => t.set .rax 2) (userAt 2)).set .rax 2 := by
    rw [afterHandler, callHandler, atHandler, hE.num]
    rfl
  refine (syscall_result_iff (userAt_layout 2) ?_).2 ?_
  · rw [hafter]
    exact returns_set_rax _ 2 128
  · rw [hafter, State.set_self]
    rfl

/-- `syscall` with the number 17 : the handler returns -1 and the user gets 17. -/
theorem unknown_syscall_gives_number :
    EntryLayout (userAt 17) ∧
      Returns (atHandler (fun _ t => t) (userAt 17)) (afterHandler (fun _ t => t) (userAt 17)) 128 ∧
      (afterHandler (fun _ t => t) (userAt 17)).regs .rax = -1 ∧
      (syscall (fun _ t => t) (userAt 17)).regs .rax = 17 ∧
      ¬ReturnsResult (fun _ t => t) (userAt 17) := by
  have L := userAt_layout 17
  have hE := exec_beforeHandler (c := callHandler fun _ t => t) L
  have hafter : afterHandler (fun _ t => t) (userAt 17) =
      (atHandler (fun _ t => t) (userAt 17)).set .rax (-1) :=
    callHandler_of_gt (by rw [atHandler, hE.num]; decide)
  have hR : Returns (atHandler (fun _ t => t) (userAt 17))
      (afterHandler (fun _ t => t) (userAt 17)) 128 := by
    rw [hafter]
    exact returns_set_rax _ _ 128
  have hrax : (syscall (fun _ t => t) (userAt 17)).regs .rax = 17 :=
    exec_syscallEntry_regs L hR .rax
  have hres : (afterHandler (fun _ t => t) (userAt 17)).regs .rax = -1 := by
    rw [hafter, State.set_self]
  refine ⟨L, hR, hres, hrax, fun h => ?_⟩
  have := h.rax
  rw [hrax, hres] at this
  exact absurd this (by decide)

end Jeos
