import Jeos.SyscallEntry

/-!
# The register state of a forked process

The registers of a process that calls `fork` go through five layouts : `syscall_entry`
saves them in the parent's trap frame, `build_fork_tf` makes the child's trap frame,
`kstack_setup` copies it to the child's kernel stack below a return address and a
context, `swtch` pops the context, and `trapret` pops the registers and returns to the
user.

Each layout is a list of words in memory, and the result of every step is such a list
again (`buildForkTf_words`, `kstackSetup_words`, `exec_swtch`, `exec_trapret`). The list
at the end gives the user state of the child (`fork_child_state`).
-/

namespace Jeos

open ByteMemory Machine

/-! ## The trap frame in memory -/

/-- The fields of `struct trap_frame`. -/
inductive TfField
  | r15
  | r14
  | r13
  | r12
  | r11
  | r10
  | r9
  | r8
  | rbp
  | rdi
  | rsi
  | rdx
  | rcx
  | rbx
  | rax
  | intNo
  | errorCode
  | rip
  | cs
  | rflags
  | rsp
  | ss
  deriving DecidableEq

/-- The place of the field in `struct trap_frame`. -/
def TfField.index : TfField → ℕ
  | .r15 => 0
  | .r14 => 1
  | .r13 => 2
  | .r12 => 3
  | .r11 => 4
  | .r10 => 5
  | .r9 => 6
  | .r8 => 7
  | .rbp => 8
  | .rdi => 9
  | .rsi => 10
  | .rdx => 11
  | .rcx => 12
  | .rbx => 13
  | .rax => 14
  | .intNo => 15
  | .errorCode => 16
  | .rip => 17
  | .cs => 18
  | .rflags => 19
  | .rsp => 20
  | .ss => 21

def loadTf (m : Mem) (p : U64) (f : TfField) : U64 := load64 m (fieldAddr trapFrameFields p f.index)

def storeTf (m : Mem) (p : U64) (f : TfField) (v : U64) : Mem :=
  store64 m (fieldAddr trapFrameFields p f.index) v

/-- `USER_CS`. -/
def userCs : U64 := 0x43

/-- `USER_DS`. -/
def userDs : U64 := 0x3B

/-- The assignments `dst->f = src->g` of `build_fork_tf`, in its order. -/
def forkMoves : List (TfField × TfField) :=
  [(.rsp, .rsp),
    (.rip, .rip),
    (.rcx, .rip),
    (.rflags, .rflags),
    (.r11, .rflags),
    (.rbx, .rbx),
    (.rbp, .rbp),
    (.r12, .r12),
    (.r13, .r13),
    (.r14, .r14),
    (.r15, .r15),
    (.rdi, .rdi),
    (.rsi, .rsi),
    (.rdx, .rdx),
    (.r10, .r10),
    (.r8, .r8),
    (.r9, .r9)]

/-- `dst->f = src->g`. -/
def moveTf (dst src : U64) (m : Mem) (e : TfField × TfField) : Mem :=
  storeTf m dst e.1 (loadTf m src e.2)

/-- `build_fork_tf`. -/
def buildForkTf (m : Mem) (dst src : U64) : Mem :=
  let m := fill m dst 0 (CType.struct trapFrameFields).size
  let m := forkMoves.foldl (moveTf dst src) m
  let m := storeTf m dst .cs userCs
  let m := storeTf m dst .ss userDs
  storeTf m dst .rax 0

/-! ## The kernel stack of a new process -/

/-- `struct context` : `r15`, `r14`, `r13`, `r12`, `rbx`, `rbp`, `rip`. -/
def contextFields : List CType := List.replicate 7 .u64

theorem context_size : (CType.struct contextFields).size = 56 := rfl

/-- `KSTACK_SIZE`. -/
def kstackSize : U64 := pageSize * 2

/-- `&p->tf`. -/
def procTf (p : U64) : U64 := fieldAddr procFields p 7

/-- `p->kstack`. -/
def procKstack (m : Mem) (p : U64) : U64 := load64 m (fieldAddr procFields p 5)

/-- `p->context`. -/
def procContext (m : Mem) (p : U64) : U64 := load64 m (fieldAddr procFields p 6)

/-- `kstack_setup`, with the addresses of the functions `forkret` and `trapret`. -/
def kstackSetup (m : Mem) (p entry userRsp forkret trapret : U64) : Mem :=
  let sp := procKstack m p + kstackSize
  let sp := sp - BitVec.ofNat 64 (CType.struct trapFrameFields).size
  let m :=
    if loadTf m (procTf p) .rip ≠ 0 then
      copy m sp (procTf p) (CType.struct trapFrameFields).size
    else
      let m := fill m sp 0 (CType.struct trapFrameFields).size
      let m := storeTf m sp .cs userCs
      let m := storeTf m sp .ss userDs
      let m := storeTf m sp .rip entry
      let m := storeTf m sp .rsp userRsp
      storeTf m sp .rflags 0x202
  let sp := sp - BitVec.ofNat 64 8
  let m := store64 m sp trapret
  let sp := sp - BitVec.ofNat 64 (CType.struct contextFields).size
  let m := store64 m (fieldAddr procFields p 6) sp
  let m := fill m (procContext m p) 0 (CType.struct contextFields).size
  store64 m (fieldAddr contextFields (procContext m p) 6) forkret

/-! ## The first run -/

/-- `swtch(old, new)`, up to its `ret`. -/
def swtch : List Instr :=
  [.push .rbp,
    .push .rbx,
    .push .r12,
    .push .r13,
    .push .r14,
    .push .r15,
    .store .rdi 0 .rsp,
    .mov .rsp .rsi,
    .pop .r15,
    .pop .r14,
    .pop .r13,
    .pop .r12,
    .pop .rbx,
    .pop .rbp]

/-- `trapret`, up to its `iretq`. -/
def trapret : List Instr :=
  [.pop .r15,
    .pop .r14,
    .pop .r13,
    .pop .r12,
    .pop .r11,
    .pop .r10,
    .pop .r9,
    .pop .r8,
    .pop .rbp,
    .pop .rdi,
    .pop .rsi,
    .pop .rdx,
    .pop .rcx,
    .pop .rbx,
    .pop .rax,
    .add .rsp 16,
    .testMem 3 .rsp 8,
    .jz 1,
    .swapgs]

/-- The run from the scheduler's `swtch` to the user : `swtch` has to return to the address
of `forkret`, and `forkret` to the address of `trapret`. `runForkret` is the effect of the
C function `forkret` up to its `ret`. -/
def firstRun (runForkret : State → State) (forkretAddr trapretAddr : U64) (s : State) :
    Option UserState :=
  let (s₁, rip₁) := ret (exec id 0 swtch s)
  if rip₁ = forkretAddr then
    let (s₂, rip₂) := ret (runForkret s₁)
    if rip₂ = trapretAddr then some (iretq (exec id 0 trapret s₂)) else none
  else none

variable {m m₀ : Mem} {p dst src : U64} {ws zs : List U64}

theorem tfAddr (p : U64) (f : TfField) :
    fieldAddr trapFrameFields p f.index = p + BitVec.ofNat 64 (8 * f.index) := by
  cases f <;> rfl

theorem TfField.index_lt (f : TfField) : f.index < 22 := by cases f <;> decide

/-- A field of a trap frame of words. -/
def tfWord (ws : List U64) (f : TfField) : U64 := ws.getD f.index 0

theorem loadTf_words (h : WordsAt m p ws) (hlen : ws.length = 22) (f : TfField) :
    loadTf m p f = tfWord ws f := by
  have hf : ws[f.index]? = some (tfWord ws f) := by
    have := f.index_lt
    rw [tfWord, List.getD_eq_getElem?_getD, List.getElem?_eq_getElem (by omega), Option.getD_some]
  rw [loadTf, tfAddr, h.load _ hf]

/-! ## The child's trap frame -/

/-- The words `zs` at `dst`, and the rest of the memory as in `m₀`. -/
structure TfBuilt (m₀ m : Mem) (dst : U64) (zs : List U64) : Prop where
  words : WordsAt m dst zs
  length : zs.length = 22
  mem : ∀ x, ¬Within x dst 176 → m x = m₀ x

theorem tfBuilt_fill (m₀ : Mem) (dst : U64) :
    TfBuilt m₀ (fill m₀ dst 0 (CType.struct trapFrameFields).size) dst (List.replicate 22 0) where
  words := by
    rw [trapFrame_size]
    exact wordsAt_fill_zero (by decide) (by decide)
  length := rfl
  mem := fun x hx => fill_of_not_within hx

theorem TfBuilt.put (h : TfBuilt m₀ m dst zs) (f : TfField) (v : U64) :
    TfBuilt m₀ (storeTf m dst f v) dst (zs.set f.index v) where
  words := by
    rw [storeTf, tfAddr]
    exact h.words.set (by decide) (by rw [h.length]; decide) (by rw [h.length]; exact f.index_lt)
  length := by rw [List.length_set, h.length]
  mem := fun x hx => by
    have := f.index_lt
    rw [storeTf, tfAddr, store64_of_not_within fun h => hx (h.of_add (by omega) (by decide)),
      h.mem x hx]

/-- The assignments of `build_fork_tf` : the source is not written. -/
theorem TfBuilt.moves (hws : WordsAt m₀ src ws) (hlen : ws.length = 22)
    (hap : Apart src 176 dst 176) :
    ∀ (es : List (TfField × TfField)) {m : Mem} {zs : List U64}, TfBuilt m₀ m dst zs →
      TfBuilt m₀ (es.foldl (moveTf dst src) m) dst
        (es.foldl (fun zs e => zs.set e.1.index (tfWord ws e.2)) zs)
  | [], _, _, h => h
  | e :: es, m, zs, h => by
    have hm : WordsAt m src ws :=
      hws.congr (by rw [hlen]; decide) fun x hx => h.mem x (hap x (by rw [hlen] at hx; exact hx))
    have hmove : TfBuilt m₀ (moveTf dst src m e) dst (zs.set e.1.index (tfWord ws e.2)) := by
      rw [moveTf, loadTf_words hm hlen]
      exact h.put e.1 _
    exact TfBuilt.moves hws hlen hap es hmove

/-- The child's trap frame. -/
def forkWords (ws : List U64) : List U64 :=
  [tfWord ws .r15, tfWord ws .r14, tfWord ws .r13, tfWord ws .r12, tfWord ws .rflags,
    tfWord ws .r10, tfWord ws .r9, tfWord ws .r8, tfWord ws .rbp, tfWord ws .rdi, tfWord ws .rsi,
    tfWord ws .rdx, tfWord ws .rip, tfWord ws .rbx, 0, 0, 0, tfWord ws .rip, userCs,
    tfWord ws .rflags, tfWord ws .rsp, userDs]

theorem buildForkTf_words (hws : WordsAt m src ws) (hlen : ws.length = 22)
    (hap : Apart src 176 dst 176) : TfBuilt m (buildForkTf m dst src) dst (forkWords ws) := by
  have h := TfBuilt.moves hws hlen hap forkMoves (tfBuilt_fill m dst)
  have hwords : (((forkMoves.foldl (fun zs e => zs.set e.1.index (tfWord ws e.2))
      (List.replicate 22 0)).set TfField.cs.index userCs).set TfField.ss.index userDs).set
      TfField.rax.index 0 = forkWords ws := by
    simp only [forkMoves, forkWords, List.foldl_cons, List.foldl_nil, TfField.index,
      List.replicate_succ, List.replicate_zero, List.set_cons_zero, List.set_cons_succ]
  rw [← hwords, buildForkTf]
  exact ((h.put .cs userCs).put .ss userDs).put .rax 0

/-! ## The stack of the child -/

/-- What `kstack_setup` leaves on the kernel stack : a context that starts in `forkret`, the
return address of `forkret` and the trap frame. -/
def startWords (forkretAddr trapretAddr : U64) (ws : List U64) : List U64 :=
  List.replicate 6 0 ++ [forkretAddr] ++ trapretAddr :: ws

/-- The places on a kernel stack, from its base. -/
theorem stackTf_addr (k : U64) :
    k + kstackSize - BitVec.ofNat 64 (CType.struct trapFrameFields).size =
      k + BitVec.ofNat 64 8016 :=
  add_ofNat_sub k (i := 8192) (j := 176) (by decide)

theorem stackRet_addr (k : U64) :
    k + BitVec.ofNat 64 8016 - BitVec.ofNat 64 8 = k + BitVec.ofNat 64 8008 :=
  add_ofNat_sub k (by decide)

theorem stackContext_addr (k : U64) :
    k + BitVec.ofNat 64 8008 - BitVec.ofNat 64 (CType.struct contextFields).size =
      k + BitVec.ofNat 64 7952 :=
  add_ofNat_sub k (j := 56) (by decide)

/-- With a trap frame in the process, `kstack_setup` copies it. -/
theorem kstackSetup_words (entry userRsp forkretAddr trapretAddr : U64)
    (hws : WordsAt m (procTf p) ws) (hlen : ws.length = 22) (hrip : tfWord ws .rip ≠ 0)
    (hap : Apart p 496 (procKstack m p) 8192) :
    let m' := kstackSetup m p entry userRsp forkretAddr trapretAddr
    procContext m' p = procKstack m p + BitVec.ofNat 64 7952 ∧
      WordsAt m' (procContext m' p) (startWords forkretAddr trapretAddr ws) := by
  intro m'
  generalize hk : procKstack m p = k at *
  -- the addresses as offsets from the base of the stack
  have htop := stackTf_addr k
  have hret := stackRet_addr k
  have hctx := stackContext_addr k
  have hc8 : k + BitVec.ofNat 64 7952 + BitVec.ofNat 64 (8 * 7) = k + BitVec.ofNat 64 8008 := by
    rw [← add_ofNat_add]
  have hr8 : k + BitVec.ofNat 64 8016 - BitVec.ofNat 64 8 = k + BitVec.ofNat 64 8008 := hret
  -- the stores one after the other
  obtain ⟨m₁, hm₁⟩ : ∃ m₁, m₁ = copy m (k + BitVec.ofNat 64 8016) (procTf p) 176 := ⟨_, rfl⟩
  obtain ⟨m₂, hm₂⟩ : ∃ m₂, m₂ = store64 m₁ (k + BitVec.ofNat 64 8008) trapretAddr := ⟨_, rfl⟩
  obtain ⟨m₃, hm₃⟩ : ∃ m₃, m₃ = store64 m₂ (p + BitVec.ofNat 64 32)
    (k + BitVec.ofNat 64 7952) := ⟨_, rfl⟩
  obtain ⟨m₄, hm₄⟩ : ∃ m₄, m₄ = fill m₃ (k + BitVec.ofNat 64 7952) 0 56 := ⟨_, rfl⟩
  obtain ⟨m₅, hm₅⟩ : ∃ m₅, m₅ = store64 m₄ (k + BitVec.ofNat 64 7952 + BitVec.ofNat 64 (8 * 6))
    forkretAddr := ⟨_, rfl⟩
  -- the words of the trap frame and the return address
  have hw₁ : WordsAt m₁ (k + BitVec.ofNat 64 8016) ws := by
    rw [hm₁]
    exact hws.copy (by rw [hlen]) (by decide)
      (hap.add (i := 40) (by decide) (by decide) (by decide) (by decide)).symm
  have hw₂ : WordsAt m₂ (k + BitVec.ofNat 64 8008) (trapretAddr :: ws) := by
    have h := hw₁.store_prev (v := trapretAddr) (by decide) (by rw [hlen]; decide)
    rw [hr8] at h
    rw [hm₂]
    exact h
  have hlen₂ : (trapretAddr :: ws).length = 23 := by rw [List.length_cons, hlen]
  have hw₃ : WordsAt m₃ (k + BitVec.ofNat 64 8008) (trapretAddr :: ws) := by
    rw [hm₃]
    refine hw₂.store_of_apart (by rw [hlen₂]; decide) ?_
    rw [hlen₂]
    exact (hap.add (by decide) (by decide) (by decide) (by decide)).symm
  have hw₄ : WordsAt m₄ (k + BitVec.ofNat 64 8008) (trapretAddr :: ws) := by
    rw [hm₄]
    refine hw₃.congr (by rw [hlen₂]; decide) fun x hx => fill_of_not_within ?_
    rw [hlen₂] at hx
    exact (apart_add k (by decide) (by decide) (Or.inr (by decide))) x hx
  have hw₅ : WordsAt m₅ (k + BitVec.ofNat 64 8008) (trapretAddr :: ws) := by
    rw [hm₅, ← add_ofNat_add]
    refine hw₄.store_of_apart (by rw [hlen₂]; decide) ?_
    rw [hlen₂]
    exact apart_add k (by decide) (by decide) (Or.inr (by decide))
  -- the context
  have hz₄ : WordsAt m₄ (k + BitVec.ofNat 64 7952) (List.replicate 7 0) := by
    rw [hm₄]
    exact wordsAt_fill_zero (by decide) (by decide)
  have hz₅ : WordsAt m₅ (k + BitVec.ofNat 64 7952) (List.replicate 6 0 ++ [forkretAddr]) := by
    rw [hm₅]
    exact hz₄.set (by decide) (by decide) (by decide)
  -- `p->context`, which the other stores leave alone
  have hc₃ : load64 m₃ (p + BitVec.ofNat 64 32) = k + BitVec.ofNat 64 7952 := by
    rw [hm₃, load64_store64_self (by decide)]
  have hc₄ : load64 m₄ (p + BitVec.ofNat 64 32) = k + BitVec.ofNat 64 7952 := by
    rw [← hc₃, hm₄]
    refine load64_congr fun x hx => fill_of_not_within ?_
    exact (hap.add (by decide) (by decide) (by decide) (by decide)) x hx
  have hc₅ : load64 m₅ (p + BitVec.ofNat 64 32) = k + BitVec.ofNat 64 7952 := by
    rw [hm₅, ← add_ofNat_add, load64_store64_of_apart, hc₄]
    exact hap.add (by decide) (by decide) (by decide) (by decide)
  have hm' : m' = m₅ := by
    have hrip' : loadTf m (procTf p) .rip ≠ 0 := by rwa [loadTf_words hws hlen]
    have hc : ∀ m'' : Mem, procContext m'' p = load64 m'' (p + BitVec.ofNat 64 32) := fun _ => rfl
    have hf : ∀ a : U64, fieldAddr contextFields a 6 = a + BitVec.ofNat 64 (8 * 6) := fun _ => rfl
    have hp : fieldAddr procFields p 6 = p + BitVec.ofNat 64 32 := rfl
    change kstackSetup m p entry userRsp forkretAddr trapretAddr = m₅
    simp only [kstackSetup, hk, htop, hret, hctx, if_pos hrip', hc, hf, hp]
    rw [trapFrame_size, ← hm₁, ← hm₂, ← hm₃, hc₃, context_size, ← hm₄, hc₄, ← hm₅]
  have hctx' : procContext m' p = k + BitVec.ofNat 64 7952 := by rw [hm']; exact hc₅
  refine ⟨hctx', ?_⟩
  rw [hctx', hm', startWords, wordsAt_append]
  exact ⟨hz₅, by rw [← hc8] at hw₅; exact hw₅⟩

/-! ## The way to the user -/

variable {s : State}

/-- The registers `swtch` pushes. -/
def contextRegs : List Reg := [.rbp, .rbx, .r12, .r13, .r14, .r15]

/-- The state in which `swtch` has saved the context at `s.rsp - 48` and has the new stack. -/
structure SwitchedStack (s t : State) : Prop where
  rsp : t.regs .rsp = s.regs .rsi
  saved : load64 t.mem (s.regs .rdi) = s.regs .rsp - BitVec.ofNat 64 48
  context : Apart (s.regs .rdi) 8 (s.regs .rsp - BitVec.ofNat 64 48) 48 →
    WordsAt t.mem (s.regs .rsp - BitVec.ofNat 64 48) (contextRegs.map s.regs).reverse
  mem : ∀ x, ¬Within x (s.regs .rsp - BitVec.ofNat 64 48) 48 → ¬Within x (s.regs .rdi) 8 →
    t.mem x = s.mem x

theorem exec_swtch_stack (s : State) : ∃ t, SwitchedStack s t ∧
    exec id 0 swtch s = exec id 0 (contextRegs.reverse.map .pop) t := by
  have hpush : Pushed s (exec id 0 (contextRegs.map .push) s) _ :=
    exec_pushes (by decide) (by decide)
  have hcode : swtch = contextRegs.map .push ++
    ([.store .rdi 0 .rsp, .mov .rsp .rsi] ++ contextRegs.reverse.map .pop) := rfl
  rw [hcode, exec_append (by decide)]
  generalize exec id 0 (contextRegs.map .push) s = t at hpush
  have hrsp : t.regs .rsp = s.regs .rsp - BitVec.ofNat 64 48 := by
    rw [← hpush.rsp]
    exact (BitVec.add_sub_cancel _ _).symm
  have hrsi : t.regs .rsi = s.regs .rsi := hpush.regs .rsi (by decide)
  have hrdi : t.regs .rdi = s.regs .rdi := hpush.regs .rdi (by decide)
  refine ⟨{ t with mem := store64 t.mem (s.regs .rdi) (t.regs .rsp) }.set .rsp (s.regs .rsi),
    ⟨State.set_self _ _, ?_, fun hd => ?_, fun x hx hx' => ?_⟩, ?_⟩
  · rw [State.set_mem, load64_store64_self (by decide), hrsp]
  · have hw := hpush.words
    rw [hrsp] at hw
    exact hw.store_of_apart (by rw [List.length_reverse, List.length_map]; decide) hd.symm
  · rw [State.set_mem]
    refine (store64_of_not_within hx').trans (hpush.mem x ?_)
    rw [hrsp]
    exact hx
  · rw [List.cons_append, exec_cons rfl, List.cons_append, exec_cons rfl, List.nil_append]
    simp only [Instr.step, hrdi, hrsi]
    rw [BitVec.add_zero]

/-- `swtch` takes the registers from the new context. -/
theorem exec_swtch_pops {vs : List U64} (hlen : vs.length = 6)
    (hw : WordsAt s.mem (s.regs .rsi) vs)
    (hstack : Apart (s.regs .rsp - BitVec.ofNat 64 48) 48 (s.regs .rsi) 48)
    (hold : Apart (s.regs .rdi) 8 (s.regs .rsi) 48) :
    contextRegs.reverse.map (exec id 0 swtch s).regs = vs ∧
      (exec id 0 swtch s).regs .rsp = s.regs .rsi + BitVec.ofNat 64 48 ∧
      ∀ x, ¬Within x (s.regs .rsp - BitVec.ofNat 64 48) 48 → ¬Within x (s.regs .rdi) 8 →
        (exec id 0 swtch s).mem x = s.mem x := by
  obtain ⟨t, ht, hexec⟩ := exec_swtch_stack s
  have hwt : WordsAt t.mem (t.regs .rsp) vs := by
    rw [ht.rsp]
    refine hw.congr (by rw [hlen]; decide) fun x hx => ?_
    rw [hlen] at hx
    exact ht.mem x (fun hx' => hstack x hx' hx) fun hx' => hold x hx' hx
  have hpop : Popped t (exec id 0 (contextRegs.reverse.map .pop) t) contextRegs.reverse vs :=
    exec_pops (by rw [hlen]; rfl) (by decide) (by decide) hwt
  rw [hexec]
  refine ⟨hpop.values, ?_, fun x hx hx' => ?_⟩
  · rw [hpop.rsp, ht.rsp, hlen]
  · rw [hpop.mem, ht.mem x hx hx']

/-- `swtch` to a new process goes to the address in its context, with the rest of the stack
behind it. -/
theorem exec_swtch {vs : List U64} {v : U64} (hlen : vs.length = 6) (hws : ws.length = 23)
    (hw : WordsAt s.mem (s.regs .rsi) (vs ++ v :: ws))
    (hstack : Apart (s.regs .rsp - BitVec.ofNat 64 48) 48 (s.regs .rsi) 240)
    (hold : Apart (s.regs .rdi) 8 (s.regs .rsi) 240) :
    (ret (exec id 0 swtch s)).2 = v ∧
      WordsAt (ret (exec id 0 swtch s)).1.mem ((ret (exec id 0 swtch s)).1.regs .rsp) ws := by
  have hwlen : (vs ++ v :: ws).length = 30 := by
    rw [List.length_append, List.length_cons, hlen, hws]
  obtain ⟨-, hrsp, hmem⟩ := exec_swtch_pops hlen (wordsAt_append.1 hw).1
    (hstack.mono (Nat.le_refl _) (by norm_num)) (hold.mono (Nat.le_refl _) (by norm_num))
  generalize exec id 0 swtch s = u at hrsp hmem
  have hwu : WordsAt u.mem (s.regs .rsi) (vs ++ v :: ws) :=
    hw.congr (by rw [hwlen]; decide) fun x hx => by
      rw [hwlen] at hx
      exact hmem x (fun hx' => hstack x hx' hx) fun hx' => hold x hx' hx
  have hrest := (wordsAt_append.1 hwu).2
  rw [hlen, ← hrsp] at hrest
  obtain ⟨hv, hws'⟩ := wordsAt_cons.1 hrest
  refine ⟨hv, ?_⟩
  change WordsAt u.mem ((u.set .rsp (u.regs .rsp + BitVec.ofNat 64 8)).regs .rsp) ws
  rw [State.set_self]
  exact hws'

/-- The registers `trapret` pops. -/
def trapretRegs : List Reg :=
  [.r15, .r14, .r13, .r12, .r11, .r10, .r9, .r8, .rbp, .rdi, .rsi, .rdx, .rcx, .rbx, .rax]

/-- `trapret` gives the user the registers of the trap frame. -/
theorem exec_trapret (hlen : ws.length = 22) (hw : WordsAt s.mem (s.regs .rsp) ws) :
    let u := iretq (exec id 0 trapret s)
    trapretRegs.map u.regs = ws.take 15 ∧ u.rip = tfWord ws .rip ∧ u.cs = tfWord ws .cs ∧
      u.rflags = tfWord ws .rflags ∧ u.regs .rsp = tfWord ws .rsp ∧ u.ss = tfWord ws .ss := by
  have htake : (ws.take 15).length = 15 := by rw [List.length_take, hlen]; rfl
  have hsplit : WordsAt s.mem (s.regs .rsp) (ws.take 15 ++ ws.drop 15) := by
    rwa [List.take_append_drop]
  obtain ⟨hregs, -⟩ := wordsAt_append.1 hsplit
  have hcode : trapret = trapretRegs.map .pop ++
    ([.add .rsp 16, .testMem 3 .rsp 8] ++ .jz [Instr.swapgs].length :: ([.swapgs] ++ [])) := rfl
  have hpop : Popped s (exec id 0 (trapretRegs.map .pop) s) trapretRegs (ws.take 15) :=
    exec_pops (by rw [htake]; rfl) (by decide) (by decide) hregs
  rw [hcode, exec_append (by decide)]
  generalize exec id 0 (trapretRegs.map .pop) s = t at hpop
  -- neither the test nor `swapgs` changes a register or the memory
  obtain ⟨u, hu, humem, huregs⟩ : ∃ u, exec id 0 ([.add .rsp 16, .testMem 3 .rsp 8] ++
      .jz [Instr.swapgs].length :: ([.swapgs] ++ [])) t = u ∧ u.mem = t.mem ∧
      u.regs = Function.update t.regs .rsp (t.regs .rsp + 16) := by
    rw [exec_append (by decide), exec_jz (by decide), exec_nil]
    refine ⟨_, rfl, ?_⟩
    split_ifs
    · exact ⟨rfl, rfl⟩
    · exact ⟨rfl, rfl⟩
  rw [hu]
  have hrsp : u.regs .rsp = s.regs .rsp + BitVec.ofNat 64 (8 * 17) := by
    rw [huregs, Function.update_self, hpop.rsp, htake]
    exact (add_ofNat_add _ _ _).symm
  have hword : ∀ f : TfField, load64 u.mem (s.regs .rsp + BitVec.ofNat 64 (8 * f.index)) =
      tfWord ws f := fun f => by
    rw [humem, hpop.mem, ← tfAddr]
    exact loadTf_words hw hlen f
  intro v
  have hv : ∀ r, r ≠ .rsp → v.regs r = t.regs r := fun r hr => by
    change Function.update u.regs .rsp _ r = _
    rw [Function.update_of_ne hr, huregs, Function.update_of_ne hr]
  refine ⟨?_, ?_, ?_, ?_, ?_, ?_⟩
  · rw [← hpop.values]
    exact List.map_congr_left fun r hr => hv r fun e => absurd (e ▸ hr) (by decide)
  · rw [← hword .rip]
    change load64 u.mem (u.regs .rsp) = _
    rw [hrsp]
    rfl
  · rw [← hword .cs]
    change load64 u.mem (u.regs .rsp + BitVec.ofNat 64 8) = _
    rw [hrsp, ← add_ofNat_add]
    rfl
  · rw [← hword .rflags]
    change load64 u.mem (u.regs .rsp + BitVec.ofNat 64 16) = _
    rw [hrsp, ← add_ofNat_add]
    rfl
  · rw [← hword .rsp]
    change Function.update u.regs .rsp (load64 u.mem (u.regs .rsp + BitVec.ofNat 64 24)) .rsp = _
    rw [Function.update_self, hrsp, ← add_ofNat_add]
    rfl
  · rw [← hword .ss]
    change load64 u.mem (u.regs .rsp + BitVec.ofNat 64 32) = _
    rw [hrsp, ← add_ofNat_add]
    rfl

/-- From `swtch` to the user : the start of a process with the trap frame `ws`. -/
theorem firstRun_words {runForkret : State → State} {forkretAddr trapretAddr : U64}
    (hlen : ws.length = 22)
    (hw : WordsAt s.mem (s.regs .rsi) (startWords forkretAddr trapretAddr ws))
    (hstack : Apart (s.regs .rsp - BitVec.ofNat 64 48) 48 (s.regs .rsi) 240)
    (hold : Apart (s.regs .rdi) 8 (s.regs .rsi) 240)
    (hret : Returns (ret (exec id 0 swtch s)).1 (runForkret (ret (exec id 0 swtch s)).1) 184) :
    ∃ u, firstRun runForkret forkretAddr trapretAddr s = some u ∧
      trapretRegs.map u.regs = ws.take 15 ∧ u.rip = tfWord ws .rip ∧ u.cs = tfWord ws .cs ∧
      u.rflags = tfWord ws .rflags ∧ u.regs .rsp = tfWord ws .rsp ∧ u.ss = tfWord ws .ss := by
  have hlen' : (trapretAddr :: ws).length = 23 := by rw [List.length_cons, hlen]
  rw [startWords, List.append_assoc] at hw
  obtain ⟨hrip, hstk⟩ := exec_swtch (List.length_replicate) hlen' hw hstack hold
  have hstk' := hret.words (by rw [hlen']) (by decide) hstk
  unfold firstRun
  generalize ret (exec id 0 swtch s) = s₁ at *
  obtain ⟨s₁, rip₁⟩ := s₁
  obtain rfl : rip₁ = forkretAddr := hrip
  dsimp only at hstk' ⊢
  obtain ⟨hrip', hws⟩ := wordsAt_cons.1 hstk'
  have hret₂ : ret (runForkret s₁) = ((runForkret s₁).set .rsp
      ((runForkret s₁).regs .rsp + BitVec.ofNat 64 8), trapretAddr) := by
    rw [ret, hrip']
  rw [if_pos rfl, hret₂, if_pos rfl]
  refine ⟨_, rfl, exec_trapret hlen ?_⟩
  rw [State.set_self]
  exact hws

/-! ## The child of a fork -/

/-- The memory after `build_fork_tf` and `kstack_setup`, as `proc_fork` calls them. -/
def forkMem (m : Mem) (parent child forkretAddr trapretAddr : U64) : Mem :=
  kstackSetup (buildForkTf m (procTf child) (procTf parent)) child 0 0 forkretAddr trapretAddr

/-- The child is another process than the parent, and its kernel stack is not in it. -/
structure ForkLayout (m : Mem) (parent child : U64) : Prop where
  tf : Apart (procTf parent) 176 (procTf child) 176
  kstack : Apart child 496 (procKstack m child) 8192

/-- The user state `u` in which the child of `fork` starts, with the parent's registers
`user` at the system call, where `rcx` is the resume address and `r11` the flags. -/
structure ChildStart (user : Reg → U64) (u : UserState) : Prop where
  regs : ∀ r, r ≠ .rax → u.regs r = user r
  rax : u.regs .rax = 0
  rip : u.rip = user .rcx
  rflags : u.rflags = user .r11
  rcx : u.regs .rcx = u.rip
  r11 : u.regs .r11 = u.rflags
  cs : u.cs = userCs
  ss : u.ss = userDs

/-- What `proc_fork` leaves on the child's kernel stack, after a save in the parent's trap
frame. -/
theorem forkMem_words {regs : Reg → U64} {parent child : U64} (forkretAddr trapretAddr : U64)
    (hF : ForkLayout m parent child) (hparent : WordsAt m (procTf parent) (savedTf regs))
    (hrip : regs .rcx ≠ 0) :
    let m' := forkMem m parent child forkretAddr trapretAddr
    procContext m' child = procKstack m child + BitVec.ofNat 64 7952 ∧
      WordsAt m' (procContext m' child)
        (startWords forkretAddr trapretAddr (forkWords (savedTf regs))) := by
  have hbuilt := buildForkTf_words hparent rfl hF.tf
  have hk : procKstack (buildForkTf m (procTf child) (procTf parent)) child =
      procKstack m child := by
    refine load64_congr fun x hx => hbuilt.mem x fun hx' => ?_
    exact apart_add child (i := 24) (j := 40) (by decide) (by decide) (Or.inl (by decide)) x hx hx'
  have h := kstackSetup_words 0 0 forkretAddr trapretAddr hbuilt.words hbuilt.length hrip
    (by rw [hk]; exact hF.kstack)
  rwa [hk] at h

/-- Whatever the parent's registers are at a `fork`, its child starts with them, at the
parent's resume address and with 0 in `rax`. The parent's trap frame is as
`syscall_entry` left it when `proc_fork` copies it (`hm`), and the top of the child's
kernel stack is as `kstack_setup` left it when the scheduler switches to it (`ht`). -/
theorem fork_child_state {c : State → State} {s t : State} (L : EntryLayout s)
    (hp : curProc s ≠ 0) (hrip : s.regs .rcx ≠ 0) {child forkretAddr trapretAddr : U64}
    (hm : ∀ x, Within x (procTf (curProc s)) 176 → m x = (exec c 0 beforeHandler s).mem x)
    (hF : ForkLayout m (curProc s) child)
    (hrsi : t.regs .rsi =
      procContext (forkMem m (curProc s) child forkretAddr trapretAddr) child)
    (ht : ∀ x, Within x (t.regs .rsi) 240 →
      t.mem x = forkMem m (curProc s) child forkretAddr trapretAddr x)
    (hstack : Apart (t.regs .rsp - BitVec.ofNat 64 48) 48 (t.regs .rsi) 240)
    (hold : Apart (t.regs .rdi) 8 (t.regs .rsi) 240) {runForkret : State → State}
    (hret : Returns (ret (exec id 0 swtch t)).1 (runForkret (ret (exec id 0 swtch t)).1) 184) :
    ∃ u, firstRun runForkret forkretAddr trapretAddr t = some u ∧ ChildStart s.regs u := by
  have hparent : WordsAt m (procTf (curProc s)) (savedTf s.regs) :=
    ((exec_beforeHandler (c := c) L).tf hp).congr (by rw [savedTf_length]; decide)
      fun x hx => hm x (by rw [savedTf_length] at hx; exact hx)
  obtain ⟨-, hstart⟩ := forkMem_words forkretAddr trapretAddr hF hparent hrip
  have hlen : (startWords forkretAddr trapretAddr (forkWords (savedTf s.regs))).length = 30 := rfl
  have hw : WordsAt t.mem (t.regs .rsi) (startWords forkretAddr trapretAddr
      (forkWords (savedTf s.regs))) := by
    rw [hrsi] at ht ⊢
    exact WordsAt.congr hstart (by rw [hlen]; decide)
      fun x hx => ht x (by rw [hlen] at hx; exact hx)
  have hlen' : (forkWords (savedTf s.regs)).length = 22 := rfl
  obtain ⟨u, hu, hregs, hurip, hcs, hflags, hrsp, hss⟩ :=
    firstRun_words hlen' hw hstack hold hret
  have hchild : forkWords (savedTf s.regs) =
      [s.regs .r15, s.regs .r14, s.regs .r13, s.regs .r12, s.regs .r11, s.regs .r10, s.regs .r9,
        s.regs .r8, s.regs .rbp, s.regs .rdi, s.regs .rsi, s.regs .rdx, s.regs .rcx, s.regs .rbx, 0,
        0, 0, s.regs .rcx, userCs, s.regs .r11, s.regs .rsp, userDs] := rfl
  rw [hchild] at hregs hurip hcs hflags hrsp hss
  simp only [trapretRegs, List.map_cons, List.map_nil, List.take_succ_cons, List.take_zero,
    List.cons.injEq, and_true] at hregs
  obtain ⟨h15, h14, h13, h12, h11, h10, h9, h8, hbp, hdi, hsi, hdx, hcx, hbx, hax⟩ := hregs
  refine ⟨u, hu, fun r hr => ?_, hax, hurip, hflags, hcx.trans hurip.symm, h11.trans hflags.symm,
    hcs, hss⟩
  cases r <;> first | assumption | exact absurd rfl hr

/-- A process at `0x20000` that calls `fork` on the CPU whose structure is at `0x1000`. -/
def forkUser : State where
  regs := fun r => if r = .rcx then 0x400000 else if r = .rax then 4 else 0
  mem := store64 (store64 (fun _ => 0) 0x1000 0x9000) 0x1010 0x20000
  zf := false
  gs := 0
  kernelGs := 0x1000

/-- The memory once `proc_alloc` has given the process at `0x30000` the kernel stack at
`0x50000`. -/
def forkUserMem : Mem := store64 (exec id 0 beforeHandler forkUser).mem 0x30018 0x50000

/-- A scheduler that switches to the process at `0x30000`. -/
def forkScheduler : State where
  regs := fun r =>
    if r = .rsi then procContext (forkMem forkUserMem 0x20000 0x30000 0x100 0x200) 0x30000
    else if r = .rsp then 0x80000
    else 0
  mem := forkMem forkUserMem 0x20000 0x30000 0x100 0x200
  zf := false
  gs := 0
  kernelGs := 0

theorem forkUser_curProc : curProc forkUser = 0x20000 := by
  change load64 (store64 _ 0x1010 0x20000) (0x1010 : U64) = 0x20000
  rw [load64_store64_self (by decide)]

theorem forkUser_layout : EntryLayout forkUser := by
  have hk : kernelRsp forkUser = 0x9000 := by
    change load64 (store64 (store64 (fun _ => 0) 0x1000 0x9000) 0x1010 0x20000) (0x1000 : U64) = _
    rw [load64_store64_of_apart (apart_of_le (by decide) (by decide) (Or.inl (by decide))),
      load64_store64_self (by decide)]
  refine ⟨?_, fun _ => ?_, fun _ => ?_⟩
  · rw [hk]
    change Apart (0x1000 : U64) 24 _ 128
    exact apart_of_le (by decide) (by decide) (Or.inl (by decide))
  · rw [hk, forkUser_curProc]
    exact apart_of_le (by decide) (by decide) (Or.inl (by decide))
  · rw [forkUser_curProc]
    change Apart (0x1000 : U64) 24 _ 176
    exact apart_of_le (by decide) (by decide) (Or.inl (by decide))

theorem forkUserMem_kstack : procKstack forkUserMem 0x30000 = 0x50000 := by
  change load64 (store64 _ 0x30018 0x50000) (0x30018 : U64) = 0x50000
  rw [load64_store64_self (by decide)]

theorem forkUserMem_layout : ForkLayout forkUserMem 0x20000 0x30000 where
  tf := apart_of_le (by decide) (by decide) (Or.inl (by decide))
  kstack := by
    rw [forkUserMem_kstack]
    exact apart_of_le (by decide) (by decide) (Or.inl (by decide))

theorem forkUserMem_tf (x : U64) (hx : Within x (procTf 0x20000) 176) :
    forkUserMem x = (exec id 0 beforeHandler forkUser).mem x := by
  refine store64_of_not_within fun hx' => ?_
  exact apart_of_le (a := procTf 0x20000) (b := 0x30018) (n := 176) (k := 8) (by decide) (by decide)
    (Or.inl (by decide)) x hx hx'

theorem forkScheduler_rsi : forkScheduler.regs .rsi = 0x50000 + BitVec.ofNat 64 7952 := by
  have hparent : WordsAt forkUserMem (procTf 0x20000) (savedTf forkUser.regs) := by
    have h := (exec_beforeHandler (c := id) forkUser_layout).tf (by rw [forkUser_curProc]; decide)
    rw [forkUser_curProc] at h
    exact h.congr (by rw [savedTf_length]; decide) forkUserMem_tf
  have h := (forkMem_words 0x100 0x200 forkUserMem_layout hparent (by decide)).1
  rwa [forkUserMem_kstack] at h

theorem fork_child_state_boot :
    ∃ u, firstRun id 0x100 0x200 forkScheduler = some u ∧ ChildStart forkUser.regs u := by
  have hp := forkUser_curProc
  refine fork_child_state (m := forkUserMem) (c := id) forkUser_layout (by rw [hp]; decide)
    (by decide) (by rw [hp]; exact forkUserMem_tf) (by rw [hp]; exact forkUserMem_layout)
    (by rw [hp]; rfl) (fun x _ => by rw [hp]; rfl) ?_ ?_ ⟨fun _ _ => rfl, fun _ _ => rfl⟩
  · rw [forkScheduler_rsi]
    change Apart (0x80000 - BitVec.ofNat 64 48 : U64) 48 _ 240
    exact apart_of_le (by decide) (by decide) (Or.inr (by decide))
  · rw [forkScheduler_rsi]
    change Apart (0 : U64) 8 _ 240
    exact apart_of_le (by decide) (by decide) (Or.inl (by decide))

end Jeos
