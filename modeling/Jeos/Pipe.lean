import Jeos.Lib.CircularBuffer
import Jeos.Lib.Run
import Jeos.Types

/-!
# The pipe of `pipe.c`

`struct pipe` is a ring buffer of `PIPE_BUF` bytes under a lock. `pipe_read` and
`pipe_write` move one byte in each lock-protected section, or find the buffer empty
or full, release the lock and try again. `readSection`, `writeSection` and
`closeSection` are the bodies of these sections, `PipeCall` is a call on its way
through its loop, and a run of `PipeSystem.step` is an interleaving of the sections
of any number of calls.

`PipeQueue` ties the three counters to the bytes accepted and delivered so far. It
holds in every state of every run (`pipe_fifo`) : the positions are only used modulo
`PIPE_BUF`, which divides `2 ^ 32`, so they may wrap.
-/

namespace Jeos

open CircularBuffer

/-- `PIPE_BUF`. -/
def pipeBuf : ℕ := 4096

/-- `struct pipe` without its lock. -/
structure Pipe where
  buf : ℕ → U8
  readPos : U32
  writePos : U32
  count : U32
  readOpen : U32
  writeOpen : U32

/-- How a section of `pipe_read` ends. -/
inductive ReadOutcome where
  | wait
  | eof
  | byte (b : U8)

/-- How a section of `pipe_write` ends. -/
inductive WriteOutcome where
  | wait
  | brokenPipe
  | stored

namespace Pipe

/-- The fields after `pipe_create`. -/
def create : Pipe := ⟨fun _ => 0, 0, 0, 0, 1, 1⟩

/-- `pipe_read` from an `acquire` to the next `release`. -/
def readSection (p : Pipe) : Pipe × ReadOutcome :=
  if p.count = 0 then
    if p.writeOpen = 0 then (p, .eof) else (p, .wait)
  else
    ({ p with readPos := p.readPos + 1, count := p.count - 1 },
      .byte (p.buf (p.readPos.toNat % pipeBuf)))

/-- `pipe_write` from an `acquire` to the next `release`, with the byte `src[i]`. -/
def writeSection (p : Pipe) (b : U8) : Pipe × WriteOutcome :=
  if p.count = BitVec.ofNat 32 pipeBuf then
    if p.readOpen = 0 then (p, .brokenPipe) else (p, .wait)
  else
    ({ p with
      buf := Function.update p.buf (p.writePos.toNat % pipeBuf) b
      writePos := p.writePos + 1
      count := p.count + 1 }, .stored)

/-- The section of `pipe_close` for the write end or the read end, and whether the pipe
is dead after it. -/
def closeSection (p : Pipe) (writeEnd : Bool) : Pipe × Bool :=
  let p' := if writeEnd then { p with writeOpen := p.writeOpen - 1 }
    else { p with readOpen := p.readOpen - 1 }
  (p', p'.readOpen = 0 ∧ p'.writeOpen = 0)

/-- The bytes in the buffer, oldest first. -/
def contents (p : Pipe) : List U8 := window p.buf pipeBuf p.readPos.toNat p.count.toNat

end Pipe

/-! ## Calls and their interleavings -/

/-- A call of `pipe_read` with the bytes it has stored in `dst`, or of `pipe_write` with
its loop variable. The last argument is the value it returned. -/
inductive PipeCall where
  | read (len : U64) (dst : List U8) (ret : Option U64)
  | write (src : ℕ → U8) (len : U64) (i : ℕ) (ret : Option U64)

/-- A call after one of its sections, the pipe, and the byte that went in or out. -/
structure SectionResult where
  call : PipeCall
  pipe : Pipe
  accepted : Option U8
  delivered : Option U8

namespace PipeCall

/-- `pipe_read` before its next test of `n < len`. -/
def readLoop (len : U64) (dst : List U8) : PipeCall :=
  .read len dst (if dst.length < len.toNat then none else some (BitVec.ofNat 64 dst.length))

/-- `pipe_write` before its next test of `i < len`. -/
def writeLoop (src : ℕ → U8) (len : U64) (i : ℕ) : PipeCall :=
  .write src len i (if i < len.toNat then none else some len)

/-- The next section of a call that has not returned. -/
def nextSection (p : Pipe) : PipeCall → Option SectionResult
  | .read len dst none =>
    match p.readSection with
    | (p', .wait) => some ⟨.read len dst none, p', none, none⟩
    | (p', .eof) => some ⟨.read len dst (some (BitVec.ofNat 64 dst.length)), p', none, none⟩
    | (p', .byte b) => some ⟨readLoop len (dst ++ [b]), p', none, some b⟩
  | .write src len i none =>
    match p.writeSection (src i) with
    | (p', .wait) => some ⟨.write src len i none, p', none, none⟩
    | (p', .brokenPipe) => some ⟨.write src len i (some (-1)), p', none, none⟩
    | (p', .stored) => some ⟨writeLoop src len (i + 1), p', some (src i), none⟩
  | .read _ _ (some _) => none
  | .write _ _ _ (some _) => none

end PipeCall

/-- One pipe, the calls made on it, and the bytes that went in and out with the number of
the call that moved them. -/
structure PipeSystem where
  pipe : Pipe
  calls : List PipeCall
  accepted : List (ℕ × U8)
  delivered : List (ℕ × U8)

/-- A new call, or the next section of an earlier one. -/
inductive PipeEvent where
  | read (len : U64)
  | write (src : ℕ → U8) (len : U64)
  | turn (j : ℕ)

namespace PipeSystem

/-- After `pipe_create`. -/
def init : PipeSystem := ⟨Pipe.create, [], [], []⟩

def step (s : PipeSystem) : PipeEvent → Option PipeSystem
  | .read len => some { s with calls := s.calls ++ [PipeCall.readLoop len []] }
  | .write src len => some { s with calls := s.calls ++ [PipeCall.writeLoop src len 0] }
  | .turn j =>
    s.calls[j]?.bind fun c => (c.nextSection s.pipe).map fun r =>
      { pipe := r.pipe
        calls := s.calls.set j r.call
        accepted := s.accepted ++ r.accepted.toList.map fun b => (j, b)
        delivered := s.delivered ++ r.delivered.toList.map fun b => (j, b) }

/-- The bytes of a log that call `j` moved. -/
def bytesOf (j : ℕ) (log : List (ℕ × U8)) : List U8 :=
  (log.filter fun e => e.1 = j).map Prod.snd

end PipeSystem

/-! ## The queue in the pipe -/

/-- The counters, and the bytes accepted and delivered so far. -/
structure PipeQueue (p : Pipe) (accepted delivered : List U8) : Prop where
  count_le : p.count.toNat ≤ pipeBuf
  count_eq : p.count = p.writePos - p.readPos
  contents : accepted = delivered ++ p.contents

variable {p : Pipe} {acc del : List U8} {b : U8}

theorem pipeQueue_create : PipeQueue Pipe.create [] [] :=
  ⟨by decide, by decide, rfl⟩

theorem Pipe.readSection_wait (h0 : p.count = 0) (ho : p.writeOpen ≠ 0) :
    p.readSection = (p, .wait) := by
  rw [readSection, if_pos h0, if_neg ho]

theorem Pipe.readSection_byte (h0 : p.count ≠ 0) :
    p.readSection = ({ p with readPos := p.readPos + 1, count := p.count - 1 },
      .byte (p.buf (p.readPos.toNat % pipeBuf))) := by
  rw [readSection, if_neg h0]

theorem Pipe.writeSection_wait (hf : p.count = BitVec.ofNat 32 pipeBuf) (ho : p.readOpen ≠ 0) :
    p.writeSection b = (p, .wait) := by
  rw [writeSection, if_pos hf, if_neg ho]

theorem Pipe.writeSection_stored (hf : p.count ≠ BitVec.ofNat 32 pipeBuf) :
    p.writeSection b = ({ p with
      buf := Function.update p.buf (p.writePos.toNat % pipeBuf) b
      writePos := p.writePos + 1
      count := p.count + 1 }, .stored) := by
  rw [writeSection, if_neg hf]

theorem U32.toNat_succ_mod (x : U32) : (x + 1).toNat % pipeBuf = (x.toNat + 1) % pipeBuf := by
  unfold pipeBuf
  bv_omega

/-- Taking a byte delivers the oldest one. -/
theorem PipeQueue.read (h : PipeQueue p acc del) (h0 : p.count ≠ 0) :
    PipeQueue { p with readPos := p.readPos + 1, count := p.count - 1 } acc
      (del ++ [p.buf (p.readPos.toNat % pipeBuf)]) := by
  have hpos : p.count.toNat ≠ 0 := fun e => h0 (BitVec.eq_of_toNat_eq e)
  have hc : (p.count - 1).toNat = p.count.toNat - 1 := by bv_omega
  have hle := h.count_le
  refine ⟨by simp only [hc]; omega, ?_, ?_⟩
  · simp only [h.count_eq]
    bv_omega
  · have hs : p.contents = p.buf (p.readPos.toNat % pipeBuf) ::
        window p.buf pipeBuf (p.readPos.toNat + 1) (p.count.toNat - 1) := by
      rw [Pipe.contents, ← window_succ, Nat.sub_add_cancel (Nat.pos_of_ne_zero hpos)]
    rw [h.contents, hs, Pipe.contents, hc, window_congr (U32.toNat_succ_mod p.readPos)]
    simp

/-- Storing a byte accepts it as the newest. -/
theorem PipeQueue.write (h : PipeQueue p acc del) (hf : p.count ≠ BitVec.ofNat 32 pipeBuf) :
    PipeQueue { p with
      buf := Function.update p.buf (p.writePos.toNat % pipeBuf) b
      writePos := p.writePos + 1
      count := p.count + 1 } (acc ++ [b]) del := by
  have hle := h.count_le
  have hlt : p.count.toNat < pipeBuf := Nat.lt_of_le_of_ne hle fun e =>
    hf (BitVec.eq_of_toNat_eq (by rw [e]; rfl))
  have hc : (p.count + 1).toNat = p.count.toNat + 1 := by
    unfold pipeBuf at hlt
    bv_omega
  -- `write_pos` is the cell behind the window.
  have hcell : p.writePos.toNat % pipeBuf = (p.readPos.toNat + p.count.toNat) % pipeBuf := by
    have hw : p.writePos = p.readPos + p.count := by
      rw [h.count_eq]
      bv_omega
    rw [hw, BitVec.toNat_add, pipeBuf]
    omega
  refine ⟨by simp only [hc]; omega, ?_, ?_⟩
  · simp only [h.count_eq]
    bv_omega
  · rw [h.contents, Pipe.contents, Pipe.contents, hc, hcell, window_push hlt, List.append_assoc]

/-! ## Every interleaving -/

/-- Both ends are open, so no section ends with `eof` or `brokenPipe`. -/
def Pipe.BothOpen (p : Pipe) : Prop := p.readOpen ≠ 0 ∧ p.writeOpen ≠ 0

/-- What a call has moved : a reader stored what was delivered to it, a writer's bytes
went in in order, and a call has returned when it moved `len` bytes. -/
def PipeCall.Record : PipeCall → List U8 → List U8 → Prop
  | .read len dst ret, acc, del =>
    acc = [] ∧ del = dst ∧ dst.length ≤ len.toNat ∧
      ret = if dst.length < len.toNat then none else some len
  | .write src len i ret, acc, del =>
    acc = (List.range i).map src ∧ del = [] ∧ i ≤ len.toNat ∧
      ret = if i < len.toNat then none else some len

theorem PipeCall.record_readLoop {len : U64} {dst : List U8} (h : dst.length ≤ len.toNat) :
    (PipeCall.readLoop len dst).Record [] dst := by
  refine ⟨rfl, rfl, h, ?_⟩
  split_ifs with hlt
  · rfl
  · rw [Nat.le_antisymm h (Nat.le_of_not_lt hlt), BitVec.ofNat_toNat, BitVec.setWidth_eq]

theorem PipeCall.record_writeLoop {src : ℕ → U8} {len : U64} {i : ℕ} (h : i ≤ len.toNat) :
    (PipeCall.writeLoop src len i).Record ((List.range i).map src) [] :=
  ⟨rfl, rfl, h, rfl⟩

/-- One section moves at most one byte, through the queue and in its call. -/
theorem PipeCall.nextSection_spec {c : PipeCall} {r : SectionResult} {ca cd : List U8}
    (hq : PipeQueue p acc del) (ho : p.BothOpen) (hc : c.Record ca cd)
    (hr : c.nextSection p = some r) :
    PipeQueue r.pipe (acc ++ r.accepted.toList) (del ++ r.delivered.toList) ∧ r.pipe.BothOpen ∧
      r.call.Record (ca ++ r.accepted.toList) (cd ++ r.delivered.toList) := by
  cases c with
  | read len dst ret =>
    obtain ⟨rfl, rfl, hle, hret⟩ := hc
    cases ret with
    | some v => simp [nextSection] at hr
    | none =>
      have hlt : cd.length < len.toNat := by
        by_contra hge
        simp [hge] at hret
      by_cases h0 : p.count = 0
      · rw [nextSection, Pipe.readSection_wait h0 ho.2] at hr
        obtain rfl := Option.some.inj hr
        simpa [Record, hlt, hle] using ⟨hq, ho⟩
      · rw [nextSection, Pipe.readSection_byte h0] at hr
        obtain rfl := Option.some.inj hr
        refine ⟨?_, ho, ?_⟩
        · simpa using hq.read h0
        · exact record_readLoop (by simpa using Nat.succ_le_of_lt hlt)
  | write src len i ret =>
    obtain ⟨rfl, rfl, hle, hret⟩ := hc
    cases ret with
    | some v => simp [nextSection] at hr
    | none =>
      have hlt : i < len.toNat := by
        by_contra hge
        simp [hge] at hret
      by_cases hf : p.count = BitVec.ofNat 32 pipeBuf
      · rw [nextSection, Pipe.writeSection_wait hf ho.1] at hr
        obtain rfl := Option.some.inj hr
        simpa [Record, hlt, hle] using ⟨hq, ho⟩
      · rw [nextSection, Pipe.writeSection_stored hf] at hr
        obtain rfl := Option.some.inj hr
        refine ⟨?_, ho, ?_⟩
        · simpa using hq.write hf
        · simpa [List.range_succ] using @record_writeLoop src len _ hlt

namespace PipeSystem

variable {s s' : PipeSystem} {j k : ℕ} {log : List (ℕ × U8)}

theorem bytesOf_append_self (j : ℕ) (log : List (ℕ × U8)) (l : List U8) :
    bytesOf j (log ++ l.map fun b => (j, b)) = bytesOf j log ++ l := by
  simp [bytesOf, List.filter_append, List.filter_map, Function.comp_def]

theorem bytesOf_append_of_ne (h : k ≠ j) (log : List (ℕ × U8)) (l : List U8) :
    bytesOf j (log ++ l.map fun b => (k, b)) = bytesOf j log := by
  simp [bytesOf, List.filter_append, List.filter_map, Function.comp_def, h]

theorem bytesOf_eq_nil (h : ∀ e ∈ log, e.1 < j) : bytesOf j log = [] := by
  rw [bytesOf, List.map_eq_nil_iff, List.filter_eq_nil_iff]
  intro e he
  have := h e he
  simp
  omega

/-- The invariant : the queue, and the record of every call. -/
structure Ok (s : PipeSystem) : Prop where
  queue : PipeQueue s.pipe (s.accepted.map Prod.snd) (s.delivered.map Prod.snd)
  bothOpen : s.pipe.BothOpen
  calls : ∀ j (c : PipeCall), s.calls[j]? = some c →
    c.Record (bytesOf j s.accepted) (bytesOf j s.delivered)
  accepted_lt : ∀ e ∈ s.accepted, e.1 < s.calls.length
  delivered_lt : ∀ e ∈ s.delivered, e.1 < s.calls.length

theorem ok_init : Ok init :=
  ⟨pipeQueue_create, ⟨by decide, by decide⟩, by simp [init], by simp [init], by simp [init]⟩

theorem Ok.newCall (h : Ok s) {c : PipeCall} (hc : c.Record [] []) :
    Ok { s with calls := s.calls ++ [c] } := by
  refine ⟨h.queue, h.bothOpen, fun j c' hj => ?_, fun e he => ?_, fun e he => ?_⟩
  · rcases Nat.lt_trichotomy j s.calls.length with hlt | rfl | hgt
    · exact h.calls j c' (by rwa [List.getElem?_append_left hlt] at hj)
    · obtain rfl : c = c' := by simpa using hj
      rwa [bytesOf_eq_nil h.accepted_lt, bytesOf_eq_nil h.delivered_lt]
    · rw [List.getElem?_eq_none (by simpa using Nat.succ_le_of_lt hgt)] at hj
      simp at hj
  · exact Nat.lt_of_lt_of_le (h.accepted_lt e he) (by simp)
  · exact Nat.lt_of_lt_of_le (h.delivered_lt e he) (by simp)

theorem Ok.step {e : PipeEvent} (h : Ok s) (hs : s.step e = some s') : Ok s' := by
  cases e with
  | read len =>
    obtain rfl := Option.some.inj hs
    exact h.newCall (PipeCall.record_readLoop (Nat.zero_le _))
  | write src len =>
    obtain rfl := Option.some.inj hs
    exact h.newCall (PipeCall.record_writeLoop (Nat.zero_le _))
  | turn j =>
    obtain ⟨c, hj, hs⟩ := Option.bind_eq_some_iff.1 hs
    obtain ⟨r, hr, rfl⟩ := Option.map_eq_some_iff.1 hs
    obtain ⟨hlt, -⟩ := List.getElem?_eq_some_iff.1 hj
    obtain ⟨hq, ho, hc⟩ := PipeCall.nextSection_spec h.queue h.bothOpen (h.calls j c hj) hr
    have hmem : ∀ {log : List (ℕ × U8)} {l : List U8}, (∀ e ∈ log, e.1 < s.calls.length) →
        ∀ e ∈ log ++ l.map fun b => (j, b), e.1 < (s.calls.set j r.call).length := by
      intro log l hlog e he
      rw [List.length_set]
      rcases List.mem_append.1 he with he | he
      · exact hlog e he
      · obtain ⟨b, -, rfl⟩ := List.mem_map.1 he
        exact hlt
    refine ⟨?_, ho, fun k c' hk => ?_, hmem h.accepted_lt, hmem h.delivered_lt⟩
    · simpa [Function.comp_def] using hq
    · rcases eq_or_ne j k with rfl | hne
      · obtain rfl : r.call = c' := by simpa [hlt] using hk
        rwa [bytesOf_append_self, bytesOf_append_self]
      · rw [bytesOf_append_of_ne hne, bytesOf_append_of_ne hne]
        exact h.calls k c' (by rwa [List.getElem?_set_ne hne] at hk)

end PipeSystem

/-- After every interleaving of reads and writes the buffer holds exactly the bytes
accepted and not delivered, in order, and every call moved the bytes it says. -/
theorem pipe_fifo {es : List PipeEvent} {s : PipeSystem}
    (hr : Run.run PipeSystem.step PipeSystem.init es = some s) :
    s.pipe.count.toNat ≤ pipeBuf ∧ s.pipe.count = s.pipe.writePos - s.pipe.readPos ∧
      s.accepted.map Prod.snd = s.delivered.map Prod.snd ++ s.pipe.contents ∧
      s.delivered.map Prod.snd <+: s.accepted.map Prod.snd ∧
      ∀ j (c : PipeCall), s.calls[j]? = some c →
        c.Record (PipeSystem.bytesOf j s.accepted) (PipeSystem.bytesOf j s.delivered) := by
  have h := Run.run_invariant (fun _ _ _ => PipeSystem.Ok.step) PipeSystem.ok_init hr
  exact ⟨h.queue.count_le, h.queue.count_eq, h.queue.contents,
    ⟨_, h.queue.contents.symm⟩, h.calls⟩

/-- Two bytes written, one read back. -/
theorem pipe_fifo_two :
    ∃ s, Run.run PipeSystem.step PipeSystem.init
        [.write (fun i => BitVec.ofNat 8 (65 + i)) 2, .read 3, .turn 0, .turn 1, .turn 1, .turn 0] =
        some s ∧ s.accepted.map Prod.snd = s.delivered.map Prod.snd ++ s.pipe.contents := by
  have hs : (Run.run PipeSystem.step PipeSystem.init
      [.write (fun i => BitVec.ofNat 8 (65 + i)) 2, .read 3, .turn 0, .turn 1, .turn 1,
        .turn 0]).isSome := by decide
  obtain ⟨s, hs⟩ := Option.isSome_iff_exists.1 hs
  exact ⟨s, hs, (pipe_fifo hs).2.2.1⟩

end Jeos
