import Jeos.Lib.Numeral
import Jeos.Ring

/-!
# The mouse

`mouse_interrupt` of `ps2.c` takes up to 64 bytes from the controller and puts packets of three together,
in variables that it keeps from one interrupt to the next. A movement has nine bits : the sign is in the
first byte of the packet, the others are in the second or the third.

The code takes the low eight bits as a signed number before it looks at the sign. So a movement of 128
or more to the right or up comes out as one to the left or down. The position follows the packets of a
stream, however the interrupts split it, just if it has no such movement (`mouse_tracks_iff`).
-/

set_option linter.unusedSectionVars false

namespace Jeos.Mouse

open Jeos.Ring Numeral

/-- The variables of `mouse_interrupt` and those of the mouse in `ps2.c`. -/
structure MouseState where
  mouseBuf : ℕ → U8
  mouseIdx : U8
  mouseX : U32
  mouseY : U32
  mouseButtons : U8
  mouseEnabled : U8
  mouseRingBuf : RingT

/-- `MOUSE_X_SIGN`. -/
def mouseXSign : U8 := 1 <<< 4

/-- `MOUSE_Y_SIGN`. -/
def mouseYSign : U8 := 1 <<< 5

/-- `MOUSE_X_OVERFLOW`. -/
def mouseXOverflow : U8 := 1 <<< 6

/-- `MOUSE_Y_OVERFLOW`. -/
def mouseYOverflow : U8 := 1 <<< 7

/-- The text that `puti` writes, without the 0 behind it. -/
def puti (val : U32) : List U8 :=
  let v := if val.toInt < 0 then -val else val
  if v = 0 then [48]
  else (if val.toInt < 0 then [45] else []) ++
    ((digitLoop 10 12 v.toInt.toNat).map fun d => BitVec.ofNat 8 (48 + d)).reverse

/-- `dx` or `dy`, from the first byte of a packet and another one. -/
def delta (head low overflow sign : U8) : U32 :=
  if head &&& overflow ≠ 0 then 0
  else if head &&& sign ≠ 0 then low.signExtend 32 ||| 0xFFFFFF00
  else low.signExtend 32

/-- The text in `buf`. -/
def record (dx dy : U32) (buttons : U8) : List U8 :=
  [109, 32] ++ puti dx ++ [32] ++ puti dy ++ [32] ++ puti (buttons.setWidth 32) ++ [10]

/-- What is done with a byte of the mouse, and the record written, if there is one. Bit 3 of the first
byte of a packet is set. -/
def mouseByte (s : MouseState) (data : U8) : MouseState × List (List U8) :=
  if s.mouseIdx = 0 ∧ data &&& 8 = 0 then (s, [])
  else
    let buf := Function.update s.mouseBuf s.mouseIdx.toNat data
    if s.mouseIdx + 1 = 3 then
      let s := { s with mouseBuf := buf, mouseIdx := 0 }
      if buf 0 &&& 8 = 0 then (s, [])
      else
        let dx := delta (buf 0) (buf 1) mouseXOverflow mouseXSign
        let dy := -delta (buf 0) (buf 2) mouseYOverflow mouseYSign
        let buttons := buf 0 &&& 7
        if s.mouseEnabled ≠ 0 then
          ({ s with
              mouseX := s.mouseX + dx
              mouseY := s.mouseY + dy
              mouseButtons := buttons
              mouseRingBuf := s.mouseRingBuf.writeText (record dx dy buttons) },
            [record dx dy buttons])
        else (s, [])
    else ({ s with mouseBuf := buf, mouseIdx := s.mouseIdx + 1 }, [])

/-- The loop of `mouse_interrupt`. The controller gives the bytes of the port in turn, those of the mouse
with the mark that the status has. -/
def mouseLoop : ℕ → MouseState → List (Bool × U8) → MouseState × List (List U8)
  | 0, s, _ => (s, [])
  | _ + 1, s, [] => (s, [])
  | n + 1, s, (aux, data) :: port =>
    if aux then
      let (s, r) := mouseByte s data
      let (s, r') := mouseLoop n s port
      (s, r ++ r')
    else (s, [])

/-- `mouse_interrupt`. -/
def mouseInterrupt (s : MouseState) (port : List (Bool × U8)) : MouseState × List (List U8) :=
  mouseLoop 64 s port

/-- Interrupts, with what the controller has for each. -/
def run : MouseState → List (List (Bool × U8)) → MouseState × List (List U8)
  | s, [] => (s, [])
  | s, port :: ports =>
    let (s, r) := mouseInterrupt s port
    let (s, r') := run s ports
    (s, r ++ r')

/-! ## Packets -/

/-- A packet of the mouse without overflow. -/
structure Packet where
  head : U8
  x : U8
  y : U8
  marked : head &&& 8 ≠ 0
  overflow : head &&& mouseXOverflow = 0 ∧ head &&& mouseYOverflow = 0

namespace Packet

def bytes (p : Packet) : List U8 := [p.head, p.x, p.y]

/-- A number of nine bits. -/
def nineBits (low : U8) (negative : Prop) [Decidable negative] : ℤ :=
  if negative then low.toNat - 256 else low.toNat

/-- The movement to the right. -/
def moveX (p : Packet) : ℤ := nineBits p.x (p.head &&& mouseXSign ≠ 0)

/-- The movement down. -/
def moveY (p : Packet) : ℤ := -nineBits p.y (p.head &&& mouseYSign ≠ 0)

/-- The record of a packet. -/
def text (p : Packet) : List U8 :=
  [109, 32] ++ decimal p.moveX ++ [32] ++ decimal p.moveY ++ [32] ++ decimal (p.head &&& 7).toNat ++ [10]

/-- No movement of 128 or more to the right or up. -/
def Slow (p : Packet) : Prop :=
  (p.head &&& mouseXSign = 0 → p.x.toNat < 128) ∧ (p.head &&& mouseYSign = 0 → p.y.toNat < 128)

end Packet

/-- The bytes that an interrupt takes. -/
def taken (port : List (Bool × U8)) : List U8 := ((port.take 64).takeWhile Prod.fst).map Prod.snd

/-- The next packet starts with the next byte, and records are written. -/
structure Ready (s : MouseState) : Prop where
  idx : s.mouseIdx = 0
  enabled : s.mouseEnabled ≠ 0

/-- A number that a signed word of 32 bits can hold. -/
def FitsInt (z : ℤ) : Prop := -2 ^ 31 ≤ z ∧ z < 2 ^ 31

/-- The position has changed by the sum of the movements, and there is a record for each packet. -/
structure Tracks (s s' : MouseState) (records : List (List U8)) (ps : List Packet) : Prop where
  x : FitsInt (s.mouseX.toInt + (ps.map Packet.moveX).sum) →
    s'.mouseX.toInt = s.mouseX.toInt + (ps.map Packet.moveX).sum
  y : FitsInt (s.mouseY.toInt + (ps.map Packet.moveY).sum) →
    s'.mouseY.toInt = s.mouseY.toInt + (ps.map Packet.moveY).sum
  records : records = ps.map Packet.text

variable {s s' : MouseState} {p : Packet}

/-! ## Bytes and interrupts -/

/-- The bytes one after the other. -/
def feed : MouseState → List U8 → MouseState × List (List U8)
  | s, [] => (s, [])
  | s, data :: bytes => ((feed (mouseByte s data).1 bytes).1,
      (mouseByte s data).2 ++ (feed (mouseByte s data).1 bytes).2)

theorem feed_append (s : MouseState) (bs cs : List U8) : feed s (bs ++ cs) =
    ((feed (feed s bs).1 cs).1, (feed s bs).2 ++ (feed (feed s bs).1 cs).2) := by
  induction bs generalizing s with
  | nil => rfl
  | cons b bs ih => rw [List.cons_append, feed, ih, feed, List.append_assoc]

theorem mouseLoop_eq (n : ℕ) (s : MouseState) (port : List (Bool × U8)) :
    mouseLoop n s port = feed s (((port.take n).takeWhile Prod.fst).map Prod.snd) := by
  induction n generalizing s port with
  | zero => rw [mouseLoop, List.take_zero, List.takeWhile_nil, List.map_nil, feed]
  | succ n ih =>
    match port with
    | [] => rfl
    | (false, data) :: port => rfl
    | (true, data) :: port =>
      have h := ih (mouseByte s data).1 port
      exact congrArg (fun q => (q.1, (mouseByte s data).2 ++ q.2)) h

/-- However the interrupts split a stream, its bytes are handled one after the other. -/
theorem run_eq (s : MouseState) (ports : List (List (Bool × U8))) :
    run s ports = feed s (ports.flatMap taken) := by
  induction ports generalizing s with
  | nil => rfl
  | cons port ports ih =>
    have hport : mouseInterrupt s port = feed s (taken port) := mouseLoop_eq 64 s port
    rw [List.flatMap_cons, feed_append, ← hport, ← ih]
    rfl

/-! ## A packet -/

theorem toInt_signExtend : ∀ low : U8, (low.signExtend 32).toInt =
    if low.toNat < 128 then (low.toNat : ℤ) else low.toNat - 256 := by decide

theorem toInt_negative : ∀ low : U8, (low.signExtend 32 ||| 0xFFFFFF00).toInt = (low.toNat : ℤ) - 256 := by
  decide

/-- What the code makes of a number of nine bits. -/
theorem toInt_delta {head low overflow sign : U8} (ho : head &&& overflow = 0) :
    (delta head low overflow sign).toInt =
      if head &&& sign = 0 ∧ low.toNat < 128 then (low.toNat : ℤ) else low.toNat - 256 := by
  rw [delta, if_neg (not_not.2 ho)]
  by_cases hs : head &&& sign = 0
  · rw [if_neg (not_not.2 hs), toInt_signExtend]
    simp only [hs, true_and]
  · rw [if_pos hs, toInt_negative, if_neg fun h => hs h.1]

theorem toInt_delta_eq_iff {head low overflow sign : U8} (ho : head &&& overflow = 0) :
    (delta head low overflow sign).toInt = Packet.nineBits low (head &&& sign ≠ 0) ↔
      (head &&& sign = 0 → low.toNat < 128) := by
  rw [toInt_delta ho, Packet.nineBits]
  by_cases hs : head &&& sign = 0
  · rw [if_neg (not_not.2 hs)]
    split_ifs with h
    · exact iff_of_true rfl fun _ => h.2
    · refine iff_of_false (by omega) fun hlow => h ⟨hs, hlow hs⟩
  · rw [if_pos hs, if_neg fun h => hs h.1]
    exact iff_of_true rfl fun h => absurd h hs

/-- The changes of the position that the code makes for a packet. -/
def Packet.codeX (p : Packet) : U32 := delta p.head p.x mouseXOverflow mouseXSign

def Packet.codeY (p : Packet) : U32 := -delta p.head p.y mouseYOverflow mouseYSign

theorem delta_bounds {head overflow : U8} (low sign : U8) (ho : head &&& overflow = 0) :
    -256 ≤ (delta head low overflow sign).toInt ∧ (delta head low overflow sign).toInt < 128 := by
  have := low.isLt
  rw [toInt_delta ho]
  split_ifs <;> omega

theorem ne_intMin {v : U32} (h : -2 ^ 31 < v.toInt) : v ≠ BitVec.intMin 32 := by
  rintro rfl
  exact absurd h (by decide)

theorem Packet.toInt_codeY (p : Packet) :
    p.codeY.toInt = -(delta p.head p.y mouseYOverflow mouseYSign).toInt := by
  have h := delta_bounds p.y mouseYSign p.overflow.2
  exact BitVec.toInt_neg_of_ne_intMin (ne_intMin (by omega))

/-- The code moves by a packet as it should just if the movement is slow. -/
theorem Packet.slow_iff (p : Packet) :
    p.Slow ↔ p.codeX.toInt = p.moveX ∧ p.codeY.toInt = p.moveY := by
  rw [p.toInt_codeY, Packet.moveY, neg_inj, Packet.codeX, Packet.moveX, toInt_delta_eq_iff p.overflow.1,
    toInt_delta_eq_iff p.overflow.2, Packet.Slow]

/-- A byte that is not the last of its packet. -/
theorem mouseByte_of_ne {data : U8} (hd : ¬(s.mouseIdx = 0 ∧ data &&& 8 = 0))
    (hi : s.mouseIdx + 1 ≠ 3) : mouseByte s data =
      ({ s with mouseBuf := Function.update s.mouseBuf s.mouseIdx.toNat data, mouseIdx := s.mouseIdx + 1 },
        []) := by
  rw [mouseByte, if_neg hd, if_neg hi]

/-- The last byte of a packet. -/
theorem mouseByte_of_eq (hi : s.mouseIdx = 2) (he : s.mouseEnabled ≠ 0) (hh : s.mouseBuf 0 = p.head)
    (hx : s.mouseBuf 1 = p.x) : mouseByte s p.y =
      ({ s with
          mouseBuf := Function.update s.mouseBuf 2 p.y
          mouseIdx := 0
          mouseX := s.mouseX + p.codeX
          mouseY := s.mouseY + p.codeY
          mouseButtons := p.head &&& 7
          mouseRingBuf := s.mouseRingBuf.writeText (record p.codeX p.codeY (p.head &&& 7)) },
        [record p.codeX p.codeY (p.head &&& 7)]) := by
  have h0 : Function.update s.mouseBuf s.mouseIdx.toNat p.y 0 = p.head := by
    rw [hi]
    exact hh
  have h1 : Function.update s.mouseBuf s.mouseIdx.toNat p.y 1 = p.x := by
    rw [hi]
    exact hx
  have h2 : Function.update s.mouseBuf s.mouseIdx.toNat p.y 2 = p.y := by
    rw [hi]
    exact Function.update_self ..
  have hd : ¬(s.mouseIdx = 0 ∧ p.y &&& 8 = 0) := fun h => by
    rw [hi] at h
    exact absurd h.1 (by decide)
  rw [mouseByte, if_neg hd, if_pos (by rw [hi]; decide)]
  simp only [h0, h1, h2]
  rw [if_neg p.marked, if_pos he, hi]
  rfl

/-- A packet changes the position by what the code makes of it, and writes one record. -/
theorem feed_packet (hs : Ready s) (p : Packet) : Ready (feed s p.bytes).1 ∧
    (feed s p.bytes).1.mouseX = s.mouseX + p.codeX ∧ (feed s p.bytes).1.mouseY = s.mouseY + p.codeY ∧
    (feed s p.bytes).1.mouseRingBuf = s.mouseRingBuf.writeText (record p.codeX p.codeY (p.head &&& 7)) ∧
    (feed s p.bytes).2 = [record p.codeX p.codeY (p.head &&& 7)] := by
  let s₁ : MouseState :=
    { s with mouseBuf := Function.update s.mouseBuf 0 p.head, mouseIdx := 1 }
  let s₂ : MouseState := { s₁ with mouseBuf := Function.update s₁.mouseBuf 1 p.x, mouseIdx := 2 }
  have h₁ : mouseByte s p.head = (s₁, []) := by
    rw [mouseByte_of_ne (fun h => p.marked h.2) (by rw [hs.idx]; decide), hs.idx]
    rfl
  have h₂ : mouseByte s₁ p.x = (s₂, []) :=
    mouseByte_of_ne (fun h => absurd (show (1 : U8) = 0 from h.1) (by decide))
      (show (1 : U8) + 1 ≠ 3 by decide)
  have hhead : s₂.mouseBuf 0 = p.head :=
    (Function.update_of_ne Nat.zero_ne_one p.x s₁.mouseBuf).trans (Function.update_self 0 p.head s.mouseBuf)
  have hx : s₂.mouseBuf 1 = p.x := Function.update_self 1 p.x s₁.mouseBuf
  have h₃ := mouseByte_of_eq (s := s₂) (p := p) rfl hs.enabled hhead hx
  rw [Packet.bytes, feed, feed, feed, h₁, h₂, h₃]
  exact ⟨⟨rfl, hs.enabled⟩, rfl, rfl, rfl, rfl⟩

/-- What a stream does. -/
structure Moved (ps : List Packet) (s s' : MouseState) (records : List (List U8)) : Prop where
  ready : Ready s'
  x : s'.mouseX = s.mouseX + BitVec.ofInt 32 (ps.map fun p => p.codeX.toInt).sum
  y : s'.mouseY = s.mouseY + BitVec.ofInt 32 (ps.map fun p => p.codeY.toInt).sum
  ring : s'.mouseRingBuf = records.foldl RingT.writeText s.mouseRingBuf
  records : records = ps.map fun p => record p.codeX p.codeY (p.head &&& 7)

theorem moved_of_packets (ps : List Packet) (hs : Ready s) :
    Moved ps s (feed s (ps.flatMap Packet.bytes)).1 (feed s (ps.flatMap Packet.bytes)).2 := by
  induction ps generalizing s with
  | nil => exact ⟨hs, (BitVec.add_zero _).symm, (BitVec.add_zero _).symm, rfl, rfl⟩
  | cons p ps ih =>
    obtain ⟨hready, hx, hy, hring, hrec⟩ := feed_packet hs p
    have h := ih hready
    rw [List.flatMap_cons, feed_append]
    refine ⟨h.ready, ?_, ?_, ?_, ?_⟩
    · rw [h.x, hx, List.map_cons, List.sum_cons, BitVec.ofInt_add, BitVec.ofInt_toInt, BitVec.add_assoc]
    · rw [h.y, hy, List.map_cons, List.sum_cons, BitVec.ofInt_add, BitVec.ofInt_toInt, BitVec.add_assoc]
    · rw [h.ring, hring, hrec]
      rfl
    · rw [hrec, h.records]
      rfl

/-! ## The records -/

theorem putiDigits_eq {n : ℕ} (hn : n < 10 ^ 12) (h0 : n ≠ 0) :
    ((digitLoop 10 12 n).map fun d => BitVec.ofNat 8 (48 + d)).reverse = text 10 n := by
  rw [digitLoop_eq (by norm_num) hn, text, if_neg h0, ← List.map_reverse]
  refine List.map_congr_left fun d hd => ?_
  rw [digitChar, if_pos (Nat.digits_lt_base (by norm_num) (List.mem_reverse.1 hd))]

theorem puti_eq {val : U32} (hv : val ≠ BitVec.intMin 32) : puti val = decimal val.toInt := by
  have hneg := BitVec.toInt_neg_of_ne_intMin hv
  have hlt := val.toInt_lt
  have hge := val.le_toInt
  have habs : (if val.toInt < 0 then -val else val).toInt = val.toInt.natAbs := by
    split_ifs <;> omega
  rw [puti]
  by_cases h0 : (if val.toInt < 0 then -val else val) = 0
  · have hz : val.toInt = 0 := by
      rw [h0] at habs
      exact Int.natAbs_eq_zero.1 (Int.ofNat.inj habs.symm)
    rw [if_pos h0, hz]
    rfl
  · have hne : val.toInt.natAbs ≠ 0 := fun hz => h0 (BitVec.eq_of_toInt_eq (by rw [habs, hz]; rfl))
    have hsmall : val.toInt.natAbs < 10 ^ 12 := by omega
    rw [if_neg h0, habs, Int.toNat_natCast, putiDigits_eq hsmall hne, decimal]

theorem length_puti_le (val : U32) : (puti val).length ≤ 13 := by
  have hloop : ∀ fuel n, (digitLoop 10 fuel n).length ≤ fuel := fun fuel => by
    induction fuel with
    | zero => exact fun _ => le_rfl
    | succ fuel ih =>
      intro n
      rw [digitLoop]
      split_ifs
      · exact Nat.zero_le _
      · exact Nat.succ_le_succ (ih _)
  rw [puti]
  split_ifs
  · norm_num
  · have := hloop 12 (-val).toInt.toNat
    simp
    omega
  · norm_num
  · have := hloop 12 val.toInt.toNat
    simp
    omega

/-- A record fits into `buf`. -/
theorem length_record_lt (dx dy : U32) (buttons : U8) : (record dx dy buttons).length < 48 := by
  have h₁ := length_puti_le dx
  have h₂ := length_puti_le dy
  have h₃ := length_puti_le (buttons.setWidth 32)
  simp only [record, List.length_append, List.length_cons, List.length_nil]
  omega

/-- Lists that have the first blank at the same place. -/
theorem eq_of_append_blank {l l' r r' : List U8} (hl : 32 ∉ l) (hl' : 32 ∉ l')
    (h : l ++ 32 :: r = l' ++ 32 :: r') : l = l' ∧ r = r' := by
  induction l generalizing l' with
  | nil =>
    cases l' with
    | nil => exact ⟨rfl, (List.cons.inj h).2⟩
    | cons c l' => exact absurd ((List.cons.inj h).1 ▸ List.mem_cons_self) hl'
  | cons c l ih =>
    cases l' with
    | nil => exact absurd ((List.cons.inj h).1 ▸ List.mem_cons_self) hl
    | cons c' l' =>
      obtain ⟨rfl, ht⟩ := List.cons.inj h
      obtain ⟨rfl, rfl⟩ := ih (fun hm => hl (List.mem_cons_of_mem _ hm))
        (fun hm => hl' (List.mem_cons_of_mem _ hm)) ht
      exact ⟨rfl, rfl⟩

theorem blank_not_mem_decimal (z : ℤ) : 32 ∉ decimal z := fun h => by
  rcases mem_decimal h with h | h
  · exact absurd h (by decide)
  · exact absurd h (by decide)

/-- The code writes the record of a packet just if it moves by it as it should. -/
theorem Packet.record_eq_text_iff (p : Packet) :
    record p.codeX p.codeY (p.head &&& 7) = p.text ↔ p.Slow := by
  have hx := delta_bounds p.x mouseXSign p.overflow.1
  have hy := delta_bounds p.y mouseYSign p.overflow.2
  have hx' : p.codeX ≠ BitVec.intMin 32 := ne_intMin (lt_of_lt_of_le (by norm_num) hx.1)
  have hy' : p.codeY ≠ BitVec.intMin 32 := ne_intMin (by rw [p.toInt_codeY]; omega)
  have hsmall : ∀ b : U8, ((b &&& 7).setWidth 32).toInt = (b &&& 7).toNat := by decide
  have hb : puti ((p.head &&& 7).setWidth 32) = decimal (p.head &&& 7).toNat := by
    rw [puti_eq (ne_intMin (by rw [hsmall]; omega)), hsmall]
  rw [p.slow_iff, record, Packet.text, puti_eq hx', puti_eq hy', hb]
  simp only [List.append_assoc, List.cons_append, List.nil_append, List.cons.injEq, true_and]
  constructor
  · intro h
    obtain ⟨h₁, h₂⟩ := eq_of_append_blank (blank_not_mem_decimal _) (blank_not_mem_decimal _) h
    obtain ⟨h₂, -⟩ := eq_of_append_blank (blank_not_mem_decimal _) (blank_not_mem_decimal _) h₂
    exact ⟨decimal_injective h₁, decimal_injective h₂⟩
  · rintro ⟨h₁, h₂⟩
    rw [h₁, h₂]

/-! ## Streams -/

/-- A sum that a signed word can hold. -/
theorem toInt_add_ofInt {x : U32} {z : ℤ} (h : FitsInt (x.toInt + z)) :
    (x + BitVec.ofInt 32 z).toInt = x.toInt + z := by
  obtain ⟨hge, hlt⟩ := h
  rw [BitVec.toInt_add, BitVec.toInt_ofInt, Int.add_bmod_bmod]
  exact Int.bmod_eq_of_le (by omega) (by omega)

theorem Moved.tracks_iff {ps : List Packet} {records : List (List U8)} (h : Moved ps s s' records) :
    Tracks s s' records ps ↔ ∀ p ∈ ps, p.Slow := by
  constructor
  · intro ht p hp
    have hrec := h.records.symm.trans ht.records
    rw [List.map_inj_left] at hrec
    exact p.record_eq_text_iff.1 (hrec p hp)
  · intro hslow
    have hmove : ∀ p ∈ ps, p.codeX.toInt = p.moveX ∧ p.codeY.toInt = p.moveY := fun p hp =>
      p.slow_iff.1 (hslow p hp)
    refine ⟨fun hfit => ?_, fun hfit => ?_, ?_⟩
    · rw [h.x, List.map_congr_left fun p hp => (hmove p hp).1, toInt_add_ofInt hfit]
    · rw [h.y, List.map_congr_left fun p hp => (hmove p hp).2, toInt_add_ofInt hfit]
    · rw [h.records]
      exact List.map_congr_left fun p hp => p.record_eq_text_iff.2 (hslow p hp)

/-- On a stream of packets, split over interrupts in any way, the position changes by the sums of the
movements and a record is written for each packet just if no packet moves by 128 or more to the right or
up. The ring gets the records in any case. -/
theorem mouse_tracks_iff {ps : List Packet} {ports : List (List (Bool × U8))} (hs : Ready s)
    (hports : ports.flatMap taken = ps.flatMap Packet.bytes) :
    (Tracks s (run s ports).1 (run s ports).2 ps ↔ ∀ p ∈ ps, p.Slow) ∧
      Ready (run s ports).1 ∧ ∀ cap q, RingT.Holds cap q s.mouseRingBuf →
        RingT.Holds cap ((q ++ (run s ports).2.flatten).rtake cap) (run s ports).1.mouseRingBuf := by
  have h := moved_of_packets ps hs
  rw [← hports, ← run_eq] at h
  refine ⟨h.tracks_iff, h.ready, fun cap q hq => ?_⟩
  rw [h.ring]
  refine hq.writeTexts fun t ht => ?_
  rw [h.records] at ht
  obtain ⟨p, -, rfl⟩ := List.mem_map.1 ht
  exact (length_record_lt _ _ _).trans (by norm_num)

/-- The variables after the boot. -/
def bootMouse : MouseState := ⟨fun _ => 0, 0, 0, 0, 0, 1, RingT.init (fun _ => 0) 256⟩

theorem bootMouse_ready : Ready bootMouse := ⟨rfl, by decide⟩

/-- A movement by 5 to the right and 3 up, and one by 200 to the right. -/
def slowPacket : Packet := ⟨0x08, 5, 3, by decide, by decide⟩

def fastPacket : Packet := ⟨0x08, 200, 0, by decide, by decide⟩

/-- The first packet in two interrupts. -/
theorem mouse_tracks_slow :
    let ports := [[(true, 0x08)], [(true, 5), (true, 3), (false, 0x1E)]]
    Tracks bootMouse (run bootMouse ports).1 (run bootMouse ports).2 [slowPacket] :=
  (mouse_tracks_iff bootMouse_ready rfl).1.2 (List.forall_mem_singleton.2
    ⟨fun _ => by decide, fun _ => by decide⟩)

/-- The second packet moves the position by 56 to the left. -/
theorem mouse_jumps :
    let ports := [[(true, 0x08), (true, 200), (true, 0)]]
    ports.flatMap taken = [fastPacket].flatMap Packet.bytes ∧ fastPacket.moveX = 200 ∧
      (run bootMouse ports).1.mouseX.toInt = -56 ∧
      (run bootMouse ports).2 = [[109, 32, 45, 53, 54, 32, 48, 32, 48, 10]] ∧
      ¬Tracks bootMouse (run bootMouse ports).1 (run bootMouse ports).2 [fastPacket] := by
  refine ⟨rfl, by decide, by decide, by decide, fun h => ?_⟩
  have hmove : ([fastPacket].map Packet.moveX).sum = 200 := by decide
  have hx := h.x
  rw [hmove] at hx
  exact absurd (hx ⟨by decide, by decide⟩) (by decide)

end Jeos.Mouse
