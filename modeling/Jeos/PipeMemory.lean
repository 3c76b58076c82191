import Jeos.BuddyOwnership
import Jeos.Lib.StructLayout
import Jeos.Pipe

/-!
# The pipe in memory

`pipe_create` puts `struct pipe` at the address of a page from `kalloc(1)`. Here the
operations of `pipe.c` load and store the fields at the offsets of the C layout, with
the spinlock and its fields. `Pipe.ofMem` reads the `Pipe` at an address, and every
operation on the memory is the section of `Pipe` on what it reads
(`ofMem_createAt`, `ofMem_readAt`, `ofMem_writeAt`, `ofMem_closeAt`).

The structure has 4144 bytes, so its last fields are behind the page
(`pipe_size`). The operations change no byte behind the structure, but `read_open` and
the fields around it are bytes of the next page (`pipe_leaves_page`).
-/

namespace Jeos

open ByteMemory CircularBuffer

/-! ## The layout -/

/-- `struct spinlock` : `locked`, `name`, `cpu`. -/
def spinlockFields : List CType := [.u8, .u64, .u64]

/-- `struct pipe` : `lock`, `buf`, `read_pos`, `write_pos`, `count`, `read_open`,
`write_open`. -/
def pipeFields : List CType :=
  [.struct spinlockFields, .array .u8 pipeBuf, .u32, .u32, .u32, .u32, .u32]

theorem pipe_size : (CType.struct pipeFields).size = 4144 := rfl

/-- `struct vfs_inode` : `ino`, `mode`, `refcnt`, `sb`, `iops`, `fops`, `priv`. -/
def inodeFields : List CType := [.u64, .u32, .u32, .u64, .u64, .u64, .u64]

/-- `struct vfs_file` : `refcnt`, `flags`, `pos`, `inode`, `fops`, `priv`. -/
def fileFields : List CType := [.u32, .u32, .u64, .u64, .u64, .u64]

/-- The address of a field of the lock, the first field of the pipe. -/
def lockAddr (p : U64) (k : ℕ) : U64 := fieldAddr spinlockFields (fieldAddr pipeFields p 0) k

/-- The address of `buf[i]`. -/
def bufAddr (p : U64) (i : ℕ) : U64 := p + BitVec.ofNat 64 (CType.offset pipeFields 1 + i)

/-- The 32-bit fields of the pipe. -/
inductive PipeWord where
  | readPos
  | writePos
  | count
  | readOpen
  | writeOpen
  deriving DecidableEq

/-- The place of the field in `struct pipe`. -/
def PipeWord.index : PipeWord → ℕ
  | .readPos => 2
  | .writePos => 3
  | .count => 4
  | .readOpen => 5
  | .writeOpen => 6

namespace Pipe

def get (p : Pipe) : PipeWord → U32
  | .readPos => p.readPos
  | .writePos => p.writePos
  | .count => p.count
  | .readOpen => p.readOpen
  | .writeOpen => p.writeOpen

def set (p : Pipe) (f : PipeWord) (v : U32) : Pipe :=
  match f with
  | .readPos => { p with readPos := v }
  | .writePos => { p with writePos := v }
  | .count => { p with count := v }
  | .readOpen => { p with readOpen := v }
  | .writeOpen => { p with writeOpen := v }

theorem ext_get {p q : Pipe} (hb : p.buf = q.buf) (hw : ∀ f, p.get f = q.get f) : p = q := by
  obtain ⟨b, r, w, c, ro, wo⟩ := p
  obtain ⟨b', r', w', c', ro', wo'⟩ := q
  obtain rfl : b = b' := hb
  obtain rfl : r = r' := hw .readPos
  obtain rfl : w = w' := hw .writePos
  obtain rfl : c = c' := hw .count
  obtain rfl : ro = ro' := hw .readOpen
  obtain rfl : wo = wo' := hw .writeOpen
  rfl

@[simp] theorem set_buf (p : Pipe) (f : PipeWord) (v : U32) : (p.set f v).buf = p.buf := by
  cases f <;> rfl

theorem get_set (p : Pipe) (f g : PipeWord) (v : U32) :
    (p.set f v).get g = if g = f then v else p.get g := by
  cases f <;> cases g <;> rfl

end Pipe

/-! ## The operations -/

def loadWord (m : Mem) (p : U64) (f : PipeWord) : U32 := load32 m (fieldAddr pipeFields p f.index)

def storeWord (m : Mem) (p : U64) (f : PipeWord) (v : U32) : Mem :=
  store32 m (fieldAddr pipeFields p f.index) v

/-- `acquire(&p->lock)` on the CPU `cpu`, once the lock is free. -/
def acquireAt (m : Mem) (p cpu : U64) : Mem :=
  store64 (Function.update m (lockAddr p 0) 1) (lockAddr p 2) cpu

/-- `release(&p->lock)`. -/
def releaseAt (m : Mem) (p : U64) : Mem :=
  Function.update (store64 m (lockAddr p 2) 0) (lockAddr p 0) 0

/-- `initlock(&p->lock, name)`. -/
def initlockAt (m : Mem) (p name : U64) : Mem :=
  store64 (Function.update (store64 m (lockAddr p 1) name) (lockAddr p 0) 0) (lockAddr p 2) 0

/-- The part of `pipe_create` that sets up the structure. -/
def createAt (m : Mem) (p name : U64) : Mem :=
  let m₁ := initlockAt (fill m p 0 (CType.struct pipeFields).size) p name
  storeWord (storeWord m₁ p .readOpen 1) p .writeOpen 1

/-- A section of `pipe_read`. -/
def readAt (m : Mem) (p cpu : U64) : Mem × ReadOutcome :=
  let m₁ := acquireAt m p cpu
  if loadWord m₁ p .count = 0 then
    if loadWord m₁ p .writeOpen = 0 then (releaseAt m₁ p, .eof) else (releaseAt m₁ p, .wait)
  else
    let b := m₁ (bufAddr p ((loadWord m₁ p .readPos).toNat % pipeBuf))
    let m₂ := storeWord m₁ p .readPos (loadWord m₁ p .readPos + 1)
    (releaseAt (storeWord m₂ p .count (loadWord m₂ p .count - 1)) p, .byte b)

/-- A section of `pipe_write` with the byte `b`. -/
def writeAt (m : Mem) (p cpu : U64) (b : U8) : Mem × WriteOutcome :=
  let m₁ := acquireAt m p cpu
  if loadWord m₁ p .count = BitVec.ofNat 32 pipeBuf then
    if loadWord m₁ p .readOpen = 0 then (releaseAt m₁ p, .brokenPipe)
    else (releaseAt m₁ p, .wait)
  else
    let m₂ := Function.update m₁ (bufAddr p ((loadWord m₁ p .writePos).toNat % pipeBuf)) b
    let m₃ := storeWord m₂ p .writePos (loadWord m₂ p .writePos + 1)
    (releaseAt (storeWord m₃ p .count (loadWord m₃ p .count + 1)) p, .stored)

/-- The section of `pipe_close`. -/
def closeAt (m : Mem) (p cpu : U64) (writeEnd : Bool) : Mem × Bool :=
  let m₁ := acquireAt m p cpu
  let f := if writeEnd then PipeWord.writeOpen else .readOpen
  let m₂ := storeWord m₁ p f (loadWord m₁ p f - 1)
  (releaseAt m₂ p, loadWord m₂ p .readOpen = 0 ∧ loadWord m₂ p .writeOpen = 0)

/-- `make_pipe_end`. It returns 0 if an allocation fails. -/
def makePipeEnd (h : Heap) (p ops endTag : U64) : Option (Heap × U64) :=
  (kalloc h 1).bind fun (h₁, ino) =>
    if ino = 0 then some (h₁, 0)
    else
      let m := fill h₁.mem ino 0 (CType.struct inodeFields).size
      let m := store64 m (fieldAddr inodeFields ino 5) ops
      let m := store64 m (fieldAddr inodeFields ino 6) p
      let m := store64 m (fieldAddr inodeFields ino 0) endTag
      let m := store32 m (fieldAddr inodeFields ino 2) 1
      (kalloc { h₁ with mem := m } 1).bind fun (h₂, f) =>
        if f = 0 then (kfree h₂ ino 1).map fun h₃ => (h₃, 0)
        else
          let m := fill h₂.mem f 0 (CType.struct fileFields).size
          let m := store64 m (fieldAddr fileFields f 3) ino
          let m := store32 m (fieldAddr fileFields f 0) 1
          some ({ h₂ with mem := m }, f)

/-- The error path of `pipe_create` for one end : `kfree(f->inode, 1); kfree(f, 1);` -/
def freePipeEnd (h : Heap) (f : U64) : Option Heap :=
  if f = 0 then some h
  else (kfree h (load64 h.mem (fieldAddr fileFields f 3)) 1).bind fun h' => kfree h' f 1

/-- `pipe_create`, with the addresses of the string `"pipe"` and of the two operation
tables. It gives the two files, or `none` for the return value -1. -/
def pipeCreate (h : Heap) (name readOps writeOps : U64) : Option (Heap × Option (U64 × U64)) :=
  (kalloc h 1).bind fun (h₁, p) =>
    if p = 0 then some (h₁, none)
    else
      (makePipeEnd { h₁ with mem := createAt h₁.mem p name } p readOps 1).bind fun (h₂, r) =>
        (makePipeEnd h₂ p writeOps 2).bind fun (h₃, w) =>
          if r = 0 ∨ w = 0 then
            (freePipeEnd h₃ r).bind fun h₄ => (freePipeEnd h₄ w).bind fun h₅ =>
              (kfree h₅ p 1).map fun h₆ => (h₆, none)
          else some (h₃, some (r, w))

/-! ## What the operations do to the fields -/

/-- The `Pipe` in the memory at `p`. -/
def Pipe.ofMem (m : Mem) (p : U64) : Pipe where
  buf := fun i => if i < pipeBuf then m (bufAddr p i) else 0
  readPos := loadWord m p .readPos
  writePos := loadWord m p .writePos
  count := loadWord m p .count
  readOpen := loadWord m p .readOpen
  writeOpen := loadWord m p .writeOpen

variable {m m' : Mem} {p cpu x : U64} {b : U8} {f g : PipeWord}

@[simp] theorem Pipe.ofMem_get (m : Mem) (p : U64) (f : PipeWord) :
    (Pipe.ofMem m p).get f = loadWord m p f := by
  cases f <;> rfl

@[simp] theorem Pipe.ofMem_readPos (m : Mem) (p : U64) :
    (Pipe.ofMem m p).readPos = loadWord m p .readPos := rfl

@[simp] theorem Pipe.ofMem_writePos (m : Mem) (p : U64) :
    (Pipe.ofMem m p).writePos = loadWord m p .writePos := rfl

@[simp] theorem Pipe.ofMem_count (m : Mem) (p : U64) :
    (Pipe.ofMem m p).count = loadWord m p .count := rfl

@[simp] theorem Pipe.ofMem_readOpen (m : Mem) (p : U64) :
    (Pipe.ofMem m p).readOpen = loadWord m p .readOpen := rfl

@[simp] theorem Pipe.ofMem_writeOpen (m : Mem) (p : U64) :
    (Pipe.ofMem m p).writeOpen = loadWord m p .writeOpen := rfl

theorem wordOffset_le (f : PipeWord) : 4120 ≤ CType.offset pipeFields f.index ∧
    CType.offset pipeFields f.index + 4 ≤ 4140 := by
  cases f <;> decide

theorem wordOffset_apart (h : f ≠ g) :
    CType.offset pipeFields f.index + 4 ≤ CType.offset pipeFields g.index ∨
      CType.offset pipeFields g.index + 4 ≤ CType.offset pipeFields f.index := by
  cases f <;> cases g <;> first | exact absurd rfl h | decide

theorem bufOffset : CType.offset pipeFields 1 = 24 := rfl

theorem bufAddr_sub (p : U64) {i : ℕ} (hi : i < pipeBuf) : (bufAddr p i - p).toNat = 24 + i := by
  unfold pipeBuf at hi
  rw [bufAddr, bufOffset, toNat_add_sub_self p (by omega)]

theorem within_word : Within x (fieldAddr pipeFields p f.index) 4 ↔
    CType.offset pipeFields f.index ≤ (x - p).toNat ∧
      (x - p).toNat < CType.offset pipeFields f.index + 4 := by
  have := wordOffset_le f
  exact within_add_iff (by omega) (by decide)

/-- The pipe only depends on the bytes behind its lock. -/
theorem Pipe.ofMem_congr (h : ∀ x, 24 ≤ (x - p).toNat → (x - p).toNat < 4140 → m' x = m x) :
    Pipe.ofMem m' p = Pipe.ofMem m p := by
  refine Pipe.ext_get (funext fun i => ?_) fun f => ?_
  · simp only [Pipe.ofMem]
    split_ifs with hi
    · have he := bufAddr_sub p hi
      unfold pipeBuf at hi
      exact h _ (by omega) (by omega)
    · rfl
  · rw [Pipe.ofMem_get, Pipe.ofMem_get]
    refine load32_congr fun x hx => ?_
    rw [within_word] at hx
    have := wordOffset_le f
    exact h x (by omega) (by omega)

theorem loadWord_storeWord_self (m : Mem) (p : U64) (f : PipeWord) (v : U32) :
    loadWord (storeWord m p f v) p f = v :=
  load32_store32_self (by decide) _ _ _

/-- Storing a field sets it. -/
theorem Pipe.ofMem_storeWord (m : Mem) (p : U64) (f : PipeWord) (v : U32) :
    Pipe.ofMem (storeWord m p f v) p = (Pipe.ofMem m p).set f v := by
  refine Pipe.ext_get (funext fun i => ?_) fun g => ?_
  · rw [Pipe.set_buf]
    simp only [Pipe.ofMem]
    split_ifs with hi
    · refine store32_of_not_within fun hw => ?_
      rw [within_word, bufAddr_sub p hi] at hw
      have := wordOffset_le f
      unfold pipeBuf at hi
      omega
    · rfl
  · rw [Pipe.ofMem_get, Pipe.get_set, Pipe.ofMem_get]
    split_ifs with hgf
    · rw [hgf, loadWord_storeWord_self]
    · have h1 := wordOffset_le f
      have h2 := wordOffset_le g
      exact load32_store32_of_apart
        (apart_add p (by omega) (by omega) (wordOffset_apart hgf))

/-- Storing a byte of the buffer sets it. -/
theorem Pipe.ofMem_storeBuf (m : Mem) (p : U64) {i : ℕ} (hi : i < pipeBuf) (b : U8) :
    Pipe.ofMem (Function.update m (bufAddr p i) b) p =
      { Pipe.ofMem m p with buf := Function.update (Pipe.ofMem m p).buf i b } := by
  have hsub := bufAddr_sub p hi
  refine Pipe.ext_get (funext fun j => ?_) fun f => ?_
  · simp only [Pipe.ofMem]
    rcases eq_or_ne j i with rfl | hne
    · rw [if_pos hi, Function.update_self, Function.update_self]
    · rw [Function.update_of_ne hne]
      split_ifs with hj
      · refine Function.update_of_ne (fun he => hne ?_) _ _
        have := bufAddr_sub p hj
        rw [he] at this
        omega
      · rfl
  · have hl : loadWord (Function.update m (bufAddr p i) b) p f = loadWord m p f := by
      refine load32_congr fun x hx => Function.update_of_ne (fun he => ?_) _ _
      rw [within_word, he, hsub] at hx
      have := wordOffset_le f
      unfold pipeBuf at hi
      omega
    rw [Pipe.ofMem_get, hl]
    cases f <;> rfl

theorem lockAddr_eq (p : U64) (k : ℕ) :
    lockAddr p k = p + BitVec.ofNat 64 (CType.offset spinlockFields k) := by
  have h0 : fieldAddr pipeFields p 0 = p := BitVec.add_zero p
  rw [lockAddr, h0, fieldAddr]

theorem lockByte_of_le (h : 24 ≤ (x - p).toNat) : Function.update m (lockAddr p 0) b x = m x := by
  refine Function.update_of_ne (fun he => ?_) _ _
  rw [he, lockAddr_eq, toNat_add_sub_self p (by decide)] at h
  exact absurd h (by decide)

theorem lockWord_of_le {k : ℕ} {v : U64} (hk : CType.offset spinlockFields k ≤ 16)
    (h : 24 ≤ (x - p).toNat) : store64 m (lockAddr p k) v x = m x := by
  refine store64_of_not_within fun hw => ?_
  rw [lockAddr_eq, within_add_iff (by omega) (by decide)] at hw
  omega

theorem acquireAt_of_le (h : 24 ≤ (x - p).toNat) : acquireAt m p cpu x = m x := by
  rw [acquireAt, lockWord_of_le (by decide) h, lockByte_of_le h]

theorem releaseAt_of_le (h : 24 ≤ (x - p).toNat) : releaseAt m p x = m x := by
  rw [releaseAt, lockByte_of_le h, lockWord_of_le (by decide) h]

theorem initlockAt_of_le {name : U64} (h : 24 ≤ (x - p).toNat) : initlockAt m p name x = m x := by
  rw [initlockAt, lockWord_of_le (by decide) h, lockByte_of_le h, lockWord_of_le (by decide) h]

theorem storeWord_of_le {v : U32} (h : 4140 ≤ (x - p).toNat) : storeWord m p f v x = m x := by
  refine store32_of_not_within fun hw => ?_
  have := wordOffset_le f
  rw [within_word] at hw
  omega

theorem storeBuf_of_le {i : ℕ} (hi : i < pipeBuf) (h : 4140 ≤ (x - p).toNat) :
    Function.update m (bufAddr p i) b x = m x := by
  refine Function.update_of_ne (fun he => ?_) _ _
  rw [he, bufAddr_sub p hi] at h
  unfold pipeBuf at hi
  omega

@[simp] theorem Pipe.ofMem_acquireAt (m : Mem) (p cpu : U64) :
    Pipe.ofMem (acquireAt m p cpu) p = Pipe.ofMem m p :=
  Pipe.ofMem_congr fun _ h _ => acquireAt_of_le h

@[simp] theorem Pipe.ofMem_releaseAt (m : Mem) (p : U64) :
    Pipe.ofMem (releaseAt m p) p = Pipe.ofMem m p :=
  Pipe.ofMem_congr fun _ h _ => releaseAt_of_le h

/-- `pipe_create` sets up an empty pipe with both ends open. -/
theorem Pipe.ofMem_createAt (m : Mem) (p name : U64) :
    Pipe.ofMem (createAt m p name) p = Pipe.create := by
  have h0 : Pipe.ofMem (fill m p 0 (CType.struct pipeFields).size) p =
      ⟨fun _ => 0, 0, 0, 0, 0, 0⟩ := by
    have hz : ∀ x, (x - p).toNat < 4144 →
        fill m p 0 (CType.struct pipeFields).size x = 0 := fun x hx => by
      rw [fill_apply, pipe_size, if_pos (show Within x p 4144 from hx)]
    refine Pipe.ext_get (funext fun i => ?_) fun f => ?_
    · simp only [Pipe.ofMem]
      split_ifs with hi
      · have hsub := bufAddr_sub p hi
        unfold pipeBuf at hi
        exact hz _ (by omega)
      · rfl
    · have hl : loadWord (fill m p 0 (CType.struct pipeFields).size) p f =
          loadWord (fun _ => 0) p f := load32_congr fun x hx => by
        rw [within_word] at hx
        have := wordOffset_le f
        exact hz x (by omega)
      rw [Pipe.ofMem_get, hl, loadWord, load32]
      cases f <;> rfl
  have h1 : Pipe.ofMem (initlockAt (fill m p 0 (CType.struct pipeFields).size) p name) p =
      ⟨fun _ => 0, 0, 0, 0, 0, 0⟩ := by
    rw [← h0]
    exact Pipe.ofMem_congr fun _ h _ => initlockAt_of_le h
  simp only [createAt, Pipe.ofMem_storeWord, h1]
  rfl

theorem Pipe.ofMem_buf {i : ℕ} (hi : i < pipeBuf) : (Pipe.ofMem m p).buf i = m (bufAddr p i) :=
  if_pos hi

theorem pos_mod_lt (v : U32) : v.toNat % pipeBuf < pipeBuf := Nat.mod_lt _ (by decide)

/-- A section of `pipe_read` in memory is the section of the pipe it reads. -/
theorem Pipe.ofMem_readAt (m : Mem) (p cpu : U64) :
    (Pipe.ofMem m p).readSection = (Pipe.ofMem (readAt m p cpu).1 p, (readAt m p cpu).2) := by
  rw [← Pipe.ofMem_acquireAt m p cpu, readAt]
  set m₁ := acquireAt m p cpu
  by_cases h0 : loadWord m₁ p .count = 0
  · rw [if_pos h0, Pipe.readSection, Pipe.ofMem_count, if_pos h0, Pipe.ofMem_writeOpen]
    split_ifs <;> simp only [Pipe.ofMem_releaseAt]
  · have hc : loadWord (storeWord m₁ p .readPos (loadWord m₁ p .readPos + 1)) p .count =
        loadWord m₁ p .count := by
      rw [← Pipe.ofMem_get, Pipe.ofMem_storeWord, Pipe.get_set, if_neg (by decide),
        Pipe.ofMem_get]
    rw [if_neg h0, Pipe.readSection_byte (p := Pipe.ofMem m₁ p) h0, Pipe.ofMem_buf (pos_mod_lt _)]
    simp only [Pipe.ofMem_releaseAt, Pipe.ofMem_storeWord, hc, Pipe.set, Pipe.ofMem_readPos,
      Pipe.ofMem_count]

/-- A section of `pipe_write` in memory is the section of the pipe it writes. -/
theorem Pipe.ofMem_writeAt (m : Mem) (p cpu : U64) (b : U8) :
    (Pipe.ofMem m p).writeSection b =
      (Pipe.ofMem (writeAt m p cpu b).1 p, (writeAt m p cpu b).2) := by
  rw [← Pipe.ofMem_acquireAt m p cpu, writeAt]
  set m₁ := acquireAt m p cpu
  by_cases hf : loadWord m₁ p .count = BitVec.ofNat 32 pipeBuf
  · rw [if_pos hf, Pipe.writeSection, Pipe.ofMem_count, if_pos hf, Pipe.ofMem_readOpen]
    split_ifs <;> simp only [Pipe.ofMem_releaseAt]
  · have hb := Pipe.ofMem_storeBuf m₁ p (pos_mod_lt (loadWord m₁ p .writePos)) b
    set m₂ := Function.update m₁ (bufAddr p ((loadWord m₁ p .writePos).toNat % pipeBuf)) b
    have hw : loadWord m₂ p .writePos = loadWord m₁ p .writePos := by
      rw [← Pipe.ofMem_get, hb]
      rfl
    have hc : loadWord (storeWord m₂ p .writePos (loadWord m₁ p .writePos + 1)) p .count =
        loadWord m₁ p .count := by
      rw [← Pipe.ofMem_get, Pipe.ofMem_storeWord, Pipe.get_set, if_neg (by decide), hb]
      rfl
    rw [if_neg hf, Pipe.writeSection_stored (p := Pipe.ofMem m₁ p) hf]
    simp only [Pipe.ofMem_releaseAt, Pipe.ofMem_storeWord, hw, hc, hb, Pipe.set,
      Pipe.ofMem_writePos, Pipe.ofMem_count]

/-- The section of `pipe_close` in memory is the section of the pipe it closes. -/
theorem Pipe.ofMem_closeAt (m : Mem) (p cpu : U64) (writeEnd : Bool) :
    (Pipe.ofMem m p).closeSection writeEnd =
      (Pipe.ofMem (closeAt m p cpu writeEnd).1 p, (closeAt m p cpu writeEnd).2) := by
  rw [← Pipe.ofMem_acquireAt m p cpu, closeAt]
  set m₁ := acquireAt m p cpu
  have hr := fun f v => Pipe.ofMem_get (storeWord m₁ p f v) p .readOpen
  have hw := fun f v => Pipe.ofMem_get (storeWord m₁ p f v) p .writeOpen
  simp only [Pipe.ofMem_releaseAt, Pipe.ofMem_storeWord, ← hr, ← hw]
  cases writeEnd <;> rfl

/-! ## The page of the pipe -/

/-- What `pipe.c` does to a pipe at a fixed address. -/
inductive PipeOp where
  | create (name : U64)
  | read (cpu : U64)
  | write (cpu : U64) (b : U8)
  | close (cpu : U64) (writeEnd : Bool)

def PipeOp.apply (p : U64) (m : Mem) : PipeOp → Mem
  | .create name => createAt m p name
  | .read cpu => (readAt m p cpu).1
  | .write cpu b => (writeAt m p cpu b).1
  | .close cpu writeEnd => (closeAt m p cpu writeEnd).1

/-- The memory after a sequence of operations on the pipe at `p`. -/
def runPipeOps (p : U64) (m : Mem) (ops : List PipeOp) : Mem := ops.foldl (PipeOp.apply p) m

/-- No operation changes a byte behind the structure. -/
theorem PipeOp.apply_of_le (op : PipeOp) (h : 4144 ≤ (x - p).toNat) : op.apply p m x = m x := by
  have h24 : 24 ≤ (x - p).toNat := by omega
  have h40 : 4140 ≤ (x - p).toNat := by omega
  cases op with
  | create name =>
    rw [PipeOp.apply, createAt, storeWord_of_le h40, storeWord_of_le h40, initlockAt_of_le h24]
    exact fill_of_not_within (Nat.not_lt_of_le h)
  | read cpu =>
    rw [PipeOp.apply, readAt]
    split_ifs <;> dsimp only
    · rw [releaseAt_of_le h24, acquireAt_of_le h24]
    · rw [releaseAt_of_le h24, acquireAt_of_le h24]
    · rw [releaseAt_of_le h24, storeWord_of_le h40, storeWord_of_le h40, acquireAt_of_le h24]
  | write cpu b =>
    rw [PipeOp.apply, writeAt]
    split_ifs <;> dsimp only
    · rw [releaseAt_of_le h24, acquireAt_of_le h24]
    · rw [releaseAt_of_le h24, acquireAt_of_le h24]
    · rw [releaseAt_of_le h24, storeWord_of_le h40, storeWord_of_le h40,
        storeBuf_of_le (pos_mod_lt _) h40, acquireAt_of_le h24]
  | close cpu writeEnd =>
    rw [PipeOp.apply, closeAt]
    dsimp only
    rw [releaseAt_of_le h24, storeWord_of_le h40, acquireAt_of_le h24]

theorem runPipeOps_of_le (ops : List PipeOp) (h : 4144 ≤ (x - p).toNat) :
    runPipeOps p m ops x = m x := by
  induction ops generalizing m with
  | nil => rfl
  | cons op ops ih => exact (ih (m := op.apply p m)).trans (op.apply_of_le h)

/-- Closing the read end changes a byte of `read_open`. -/
theorem exists_close_ne (m : Mem) (p cpu : U64) :
    ∃ x, 4132 ≤ (x - p).toNat ∧ (x - p).toNat < 4136 ∧
      runPipeOps p m [.close cpu false] x ≠ m x := by
  have hne : loadWord (runPipeOps p m [.close cpu false]) p .readOpen ≠ loadWord m p .readOpen := by
    have h := congrArg Prod.fst (Pipe.ofMem_closeAt m p cpu false)
    have h' := congrArg Pipe.readOpen h
    intro he
    have he' : loadWord m p .readOpen - 1 = loadWord m p .readOpen := h'.trans he
    bv_omega
  obtain ⟨x, hx, hxne⟩ := exists_ne_of_load32_ne hne
  have hx' := (within_word (f := .readOpen)).1 hx
  exact ⟨x, hx'.1, hx'.2, hxne⟩

theorem pageOf_of_lt (hp : PageAligned p) (h : (x - p).toNat < 4096) : pageOf x = pageOf p := by
  have hx := (within_iff (x := x) (a := p) (n := 4096) (by have := hp.toNat_eq; omega)).1 h
  have := hp.toNat_eq
  unfold pageOf at *
  omega

theorem pageOf_next (hp : PageAligned p) (h : 4096 ≤ (x - p).toNat) (h' : (x - p).toNat < 8192) :
    pageOf x = pageOf (p + pageSize) := by
  have hn : PageAligned (p + pageSize) := by
    rw [PageAligned, BitVec.toNat_add, pageSize_toNat]
    unfold PageAligned at hp
    omega
  refine pageOf_of_lt hn ?_
  have he : x - (p + pageSize) = x - p - pageSize := by
    rw [BitVec.sub_eq_add_neg, BitVec.neg_add, BitVec.sub_eq_add_neg, BitVec.sub_eq_add_neg,
      BitVec.sub_eq_add_neg, BitVec.add_assoc]
  rw [he, BitVec.toNat_sub, pageSize_toNat]
  omega

/-- The operations on a pipe change bytes outside its page, whatever the memory holds. They
leave the pages `U` of another allocation alone exactly if the next page is none of them. -/
theorem pipe_leaves_page (m : Mem) (hp : PageAligned p) :
    (¬∀ ops x, ¬Within x p 4096 → runPipeOps p m ops x = m x) ∧
      ∀ U : Set ℕ, pageOf p ∉ U →
        ((∀ ops x, pageOf x ∈ U → runPipeOps p m ops x = m x) ↔ pageOf (p + pageSize) ∉ U) := by
  obtain ⟨y, hy, hy', hne⟩ := exists_close_ne m p 0
  refine ⟨fun h => hne (h _ y (Nat.not_lt_of_le (by omega))), fun U hU => ⟨fun h hn => ?_, ?_⟩⟩
  · rw [← pageOf_next hp (by omega) (by omega : (y - p).toNat < 8192)] at hn
    exact hne (h _ y hn)
  · intro hn ops x hx
    rcases Nat.lt_or_ge (x - p).toNat 4144 with hlt | hge
    · rcases Nat.lt_or_ge (x - p).toNat 4096 with hlt' | hge'
      · exact absurd (pageOf_of_lt hp hlt' ▸ hx) hU
      · exact absurd (pageOf_next hp hge' (by omega) ▸ hx) hn
    · exact runPipeOps_of_le ops hge

theorem pipe_leaves_page_zero :
    ¬∀ ops x, ¬Within x 0x100000 4096 → runPipeOps 0x100000 (fun _ => 0) ops x = 0 :=
  (pipe_leaves_page (fun _ => 0) (p := 0x100000) (by decide)).1

/-- With the page below a live page free, the next `pipe_create` clears bytes of the live
page. -/
theorem pipe_create_clobbers_neighbour :
    ∃ s h' r w, Run.run AllocState.step (AllocState.init (fun _ => 0) 0xffff800000000000)
        [.freerange ⟨0x100000, 0x108000, by decide⟩, .kalloc 1, .kalloc 1,
          .kfree 0xffff800000100000 1] = some s ∧
      (0xffff800000101000, 1) ∈ s.live ∧
      pipeCreate s.heap 0 0 0 = some (h', some (r, w)) ∧
      h'.mem 0xffff800000101000 ≠ s.heap.mem 0xffff800000101000 := by
  have hs : ((Run.run AllocState.step (AllocState.init (fun _ => 0) 0xffff800000000000)
      [.freerange ⟨0x100000, 0x108000, by decide⟩, .kalloc 1, .kalloc 1,
        .kfree 0xffff800000100000 1]).bind fun s =>
      (pipeCreate s.heap 0 0 0).map fun (h', e) => (s.live, e.isSome,
        h'.mem 0xffff800000101000, s.heap.mem 0xffff800000101000)) =
      some ([(0xffff800000101000, 1)], true, 0, 5) := by decide +kernel
  obtain ⟨s, hs, hc⟩ := Option.bind_eq_some_iff.1 hs
  obtain ⟨⟨h', e⟩, hc, he⟩ := Option.map_eq_some_iff.1 hc
  simp only [Prod.mk.injEq] at he
  obtain ⟨hlive, hsome, h0, h5⟩ := he
  obtain ⟨⟨r, w⟩, rfl⟩ := Option.isSome_iff_exists.1 hsome
  refine ⟨s, h', r, w, hs, by simp [hlive], hc, ?_⟩
  rw [h0, h5]
  decide

end Jeos
