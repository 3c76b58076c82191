import Jeos.Lib.CircularBuffer
import Jeos.Lib.Loop
import Jeos.Types

/-!
# The ring of `ring.h`

`ring_t` is a queue of bytes in a buffer of `cap` bytes that forgets the oldest ones. It stores where
the next byte goes and how many there are, and `ring_start` computes where the oldest one is.

`Queue` is what it is for : a list of which a write keeps the last `cap` bytes. Over any calls the
ring holds the bytes of that list in `cap` cells, and its reads return the same bytes
(`ring_refines_queue`).
-/

set_option linter.unusedSectionVars false

namespace Jeos.Ring

open CircularBuffer

/-- `ring_t`, with the storage behind `buf`. -/
structure RingT where
  buf : ℕ → U8
  cap : U32
  head : U32
  len : U32

/-- A call on a ring. The data of `ring_write` are those at the pointer, `n` of them. -/
inductive Call where
  | putc (c : U8)
  | write (data : ℕ → U8) (n : U32)
  | read (outCap : U32)

namespace RingT

variable (r : RingT)

/-- `ring_init`. -/
def init (storage : ℕ → U8) (capacity : U32) : RingT := ⟨storage, capacity, 0, 0⟩

/-- `ring_putc`. -/
def putc (c : U8) : RingT where
  buf := Function.update r.buf r.head.toNat c
  cap := r.cap
  head := if r.head + 1 = r.cap then 0 else r.head + 1
  len := if r.len < r.cap then r.len + 1 else r.len

/-- `for (u32 i = 0; i < n; i++) r->buf[i] = v(i)`. -/
def fill (v : ℕ → U8) (n : ℕ) : RingT :=
  (List.range n).foldl (fun r i => { r with buf := Function.update r.buf i (v i) }) r

/-- `ring_write`. -/
def write (data : ℕ → U8) (n : U32) : RingT :=
  if r.cap ≤ n then
    fill { r with head := 0, len := r.cap } (fun i => data ((n - r.cap).toNat + i)) r.cap.toNat
  else (List.range n.toNat).foldl (fun r i => r.putc (data i)) r

/-- `ring_write` of a text. -/
def writeText (text : List U8) : RingT :=
  r.write (fun i => text.getD i 0) (BitVec.ofNat 32 text.length)

/-- `ring_start`. -/
def start : U32 := if r.len ≤ r.head then r.head - r.len else r.cap - (r.len - r.head)

/-- `ring_read` : the number that it returns, and what it stores in `out`. -/
def read (outCap : U32) : RingT × U32 × List U8 :=
  let n := if outCap < r.len then outCap else r.len
  if n = 0 then (r, 0, [])
  else
    let (_, out) := (List.range n.toNat).foldl
      (fun (idx, out) _ => (if idx + 1 = r.cap then 0 else idx + 1, out ++ [r.buf idx.toNat]))
      (r.start, ([] : List U8))
    ({ r with len := r.len - n }, n, out)

/-- The ring after a call, and the result of a `ring_read`. -/
def step (r : RingT) : Call → RingT × List (U32 × List U8)
  | .putc c => (r.putc c, [])
  | .write data n => (r.write data n, [])
  | .read outCap => ((r.read outCap).1, [(r.read outCap).2])

/-- The ring after the calls, and the results of the reads. -/
def run (r : RingT) : List Call → RingT × List (U32 × List U8)
  | [] => (r, [])
  | c :: cs => ((run (r.step c).1 cs).1, (r.step c).2 ++ (run (r.step c).1 cs).2)

end RingT

/-! ## The queue -/

namespace Queue

/-- A queue that keeps the newest `cap` bytes. -/
def step (cap : ℕ) (q : List U8) : Call → List U8 × List (U32 × List U8)
  | .putc c => ((q ++ [c]).rtake cap, [])
  | .write data n => ((q ++ (List.range n.toNat).map data).rtake cap, [])
  | .read outCap =>
    (q.drop (min q.length outCap.toNat),
      [(BitVec.ofNat 32 (min q.length outCap.toNat), q.take (min q.length outCap.toNat))])

def run (cap : ℕ) (q : List U8) : List Call → List U8 × List (U32 × List U8)
  | [] => (q, [])
  | c :: cs => ((run cap (step cap q c).1 cs).1,
      (step cap q c).2 ++ (run cap (step cap q c).1 cs).2)

end Queue

/-! ## The layout -/

namespace RingT

variable {r : RingT} {q : List U8} {cap : ℕ}

/-- The bytes in the ring, oldest first. -/
def contents (r : RingT) : List U8 := window r.buf r.cap.toNat r.start.toNat r.len.toNat

/-- The ring has `cap` cells, and the next byte goes to one of them. -/
structure Layout (cap : ℕ) (r : RingT) : Prop where
  cap_eq : r.cap.toNat = cap
  head_lt : r.head.toNat < cap
  len_le : r.len.toNat ≤ cap

/-- `ring_start` is `len` cells before `head`. -/
theorem Layout.start_eq (h : Layout cap r) :
    r.start.toNat = (r.head.toNat + (cap - r.len.toNat)) % cap := by
  have hcap := h.cap_eq
  have hhead := h.head_lt
  have hlen := h.len_le
  unfold start
  split
  · rename_i hle
    have hle' := BitVec.le_def.mp hle
    rw [BitVec.toNat_sub_of_le hle,
      show r.head.toNat + (cap - r.len.toNat) = r.head.toNat - r.len.toNat + cap by omega,
      Nat.add_mod_right, Nat.mod_eq_of_lt (by omega)]
  · rename_i hlt
    have hlt' := BitVec.lt_def.mp (BitVec.not_le.mp hlt)
    have hsub : (r.len - r.head).toNat = r.len.toNat - r.head.toNat :=
      BitVec.toNat_sub_of_le (BitVec.le_def.mpr hlt'.le)
    rw [BitVec.toNat_sub_of_le (BitVec.le_def.mpr (by omega)), hsub, hcap,
      Nat.mod_eq_of_lt (by omega)]
    omega

/-- `head` is `len` cells behind `ring_start`. -/
theorem Layout.head_eq (h : Layout cap r) : (r.start.toNat + r.len.toNat) % cap = r.head.toNat := by
  have hlen := h.len_le
  rw [h.start_eq, Nat.mod_add_mod,
    show r.head.toNat + (cap - r.len.toNat) + r.len.toNat = r.head.toNat + cap by omega,
    Nat.add_mod_right, Nat.mod_eq_of_lt h.head_lt]

/-- One step around the buffer. -/
theorem toNat_next {c i : U32} (hi : i.toNat < c.toNat) :
    (if i + 1 = c then 0 else i + 1).toNat = (i.toNat + 1) % c.toNat := by
  have hc := c.isLt
  have hsucc : (i + 1).toNat = i.toNat + 1 := by
    rw [BitVec.toNat_add]
    exact Nat.mod_eq_of_lt (show i.toNat + 1 < 2 ^ 32 by omega)
  split
  · rename_i he
    rw [← hsucc, he, Nat.mod_self]
    rfl
  · rename_i hne
    have hne' : i.toNat + 1 ≠ c.toNat := fun h => hne (BitVec.eq_of_toNat_eq (hsucc.trans h))
    rw [hsucc, Nat.mod_eq_of_lt (by omega)]

/-- The contents, from any position of the first byte. -/
theorem Layout.contents_eq (h : Layout cap r) {p : ℕ}
    (hp : p % cap = (r.head.toNat + (cap - r.len.toNat)) % cap) :
    r.contents = window r.buf cap p r.len.toNat := by
  rw [contents, h.cap_eq]
  refine window_congr ?_
  rw [h.start_eq, Nat.mod_mod, hp]

@[simp] theorem length_contents : r.contents.length = r.len.toNat := length_window

/-! ## Calls -/

/-- The ring has `cap` cells and holds the bytes `q`. -/
structure Holds (cap : ℕ) (q : List U8) (r : RingT) : Prop extends Layout cap r where
  contents_eq' : r.contents = q

theorem Holds.length_eq (h : Holds cap q r) : q.length = r.len.toNat := by
  rw [← h.contents_eq', length_contents]

/-- `ring_putc` keeps the newest bytes. -/
theorem Holds.putc (h : Holds cap q r) (c : U8) :
    Holds cap ((q ++ [c]).rtake cap) (r.putc c) := by
  have hcap := h.cap_eq
  have hhead := h.head_lt
  have hnext : (r.putc c).head.toNat = (r.head.toNat + 1) % cap := by
    rw [← hcap]
    exact toNat_next (by omega)
  have hbuf : (r.putc c).buf = Function.update r.buf r.head.toNat c := rfl
  by_cases hfull : r.len < r.cap
  · have hlt := BitVec.lt_def.mp hfull
    have hlen : (r.putc c).len.toNat = r.len.toNat + 1 := by
      show (if r.len < r.cap then r.len + 1 else r.len).toNat = _
      rw [if_pos hfull, BitVec.toNat_add]
      exact Nat.mod_eq_of_lt (show r.len.toNat + 1 < 2 ^ 32 by omega)
    have hlay : Layout cap (r.putc c) :=
      ⟨hcap, by rw [hnext]; exact Nat.mod_lt _ (by omega), by omega⟩
    refine ⟨hlay, ?_⟩
    have hstart : r.start.toNat % cap =
        ((r.putc c).head.toNat + (cap - (r.putc c).len.toNat)) % cap := by
      rw [h.start_eq, Nat.mod_mod, hnext, Nat.mod_add_mod, hlen]
      congr 1
      omega
    have hwindow := h.contents_eq'
    rw [contents, hcap] at hwindow
    rw [hlay.contents_eq hstart, hlen, hbuf, ← h.head_eq, window_push (by omega), hwindow,
      rtake_of_length_le]
    rw [List.length_append, h.length_eq]
    exact hcap ▸ hlt
  · -- the oldest byte makes room
    have hlen : r.len.toNat = cap := le_antisymm h.len_le (hcap ▸ BitVec.le_def.mp
      (BitVec.not_lt.mp hfull))
    have hlen' : (r.putc c).len.toNat = cap := by
      show (if r.len < r.cap then r.len + 1 else r.len).toNat = _
      rw [if_neg hfull, hlen]
    have hlay : Layout cap (r.putc c) :=
      ⟨hcap, by rw [hnext]; exact Nat.mod_lt _ (by omega), hlen'.le⟩
    refine ⟨hlay, ?_⟩
    have hstart : (r.head.toNat + 1) % cap =
        ((r.putc c).head.toNat + (cap - (r.putc c).len.toNat)) % cap := by
      rw [hnext, hlen', Nat.sub_self]
      exact (Nat.mod_mod _ _).symm
    have hold : window r.buf cap r.head.toNat cap = q := by
      have hzero : r.head.toNat % cap = (r.head.toNat + (cap - r.len.toNat)) % cap := by
        rw [hlen, Nat.sub_self, Nat.add_zero]
      rw [← h.contents_eq', h.toLayout.contents_eq hzero, hlen]
    have hcell : r.head.toNat = r.head.toNat % cap := (Nat.mod_eq_of_lt hhead).symm
    rw [hlay.contents_eq hstart, hlen', hbuf]
    nth_rewrite 1 [hcell]
    rw [window_rotate (by omega), hold]
    have hq : q.length = cap := h.length_eq.trans hlen
    rw [List.rtake, List.length_append, hq, List.length_singleton, Nat.add_sub_cancel_left,
      List.drop_one, List.tail_append_of_ne_nil]
    rintro rfl
    rw [List.length_nil] at hq
    omega

theorem fill_eq (r : RingT) (v : ℕ → U8) (n : ℕ) :
    (r.fill v n).cap = r.cap ∧ (r.fill v n).head = r.head ∧ (r.fill v n).len = r.len ∧
      ∀ i < n, (r.fill v n).buf i = v i := by
  induction n with
  | zero => exact ⟨rfl, rfl, rfl, fun i hi => absurd hi (Nat.not_lt_zero i)⟩
  | succ n ih =>
    have hsucc : r.fill v (n + 1) =
        { r.fill v n with buf := Function.update (r.fill v n).buf n (v n) } := by
      rw [fill, List.range_succ, List.foldl_append]
      rfl
    rw [hsucc]
    refine ⟨ih.1, ih.2.1, ih.2.2.1, fun i hi => ?_⟩
    rcases Nat.lt_succ_iff_lt_or_eq.mp hi with hi | rfl
    · exact (Function.update_of_ne hi.ne _ _).trans (ih.2.2.2 i hi)
    · exact Function.update_self ..

/-- `ring_write` keeps the newest bytes. -/
theorem Holds.write (h : Holds cap q r) (data : ℕ → U8) (n : U32) :
    Holds cap ((q ++ (List.range n.toNat).map data).rtake cap) (r.write data n) := by
  have hcap := h.cap_eq
  unfold RingT.write
  split
  · -- only the last `cap` bytes matter
    rename_i hle
    have hle' := BitVec.le_def.mp hle
    have hsub : (n - r.cap).toNat = n.toNat - cap := by rw [BitVec.toNat_sub_of_le hle, hcap]
    obtain ⟨h₁, h₂, h₃, h₄⟩ := fill_eq { r with head := 0, len := r.cap }
      (fun i => data ((n - r.cap).toNat + i)) r.cap.toNat
    generalize fill { r with head := 0, len := r.cap } _ _ = t at h₁ h₂ h₃ h₄ ⊢
    have hlay : Layout cap t := by
      refine ⟨by rw [h₁, hcap], ?_, by rw [h₃, hcap]⟩
      rw [h₂]
      exact Nat.zero_lt_of_lt h.head_lt
    refine ⟨hlay, ?_⟩
    have hzero : 0 % cap = (t.head.toNat + (cap - t.len.toNat)) % cap := by
      rw [h₂, h₃, hcap, Nat.sub_self]
      rfl
    have hlast : ((List.range n.toNat).map data).rtake cap =
        (List.range cap).map fun i => data (n.toNat - cap + i) := by
      have hsplit : n.toNat = n.toNat - cap + cap := by omega
      rw [List.rtake, List.length_map, List.length_range, ← List.map_drop]
      conv_lhs => rw [hsplit, List.range_add, Nat.add_sub_cancel,
        List.drop_left' List.length_range, List.map_map]
      rfl
    rw [hlay.contents_eq hzero, h₃, hcap, rtake_append_of_le (by simp; omega), hlast, window]
    refine List.map_congr_left fun i hi => ?_
    rw [Nat.zero_add, Nat.mod_eq_of_lt (List.mem_range.mp hi),
      h₄ i (hcap ▸ List.mem_range.mp hi), hsub]
  · refine Loop.foldl_range_spec
      (I := fun k t => Holds cap ((q ++ (List.range k).map data).rtake cap) t)
      (fun k _ t ht => ?_) ?_
    · rw [List.range_succ, List.map_append, List.map_singleton, ← List.append_assoc,
        ← rtake_append_rtake]
      exact ht.putc (data k)
    · rw [List.range_zero, List.map_nil, List.append_nil, rtake_of_length_le]
      · exact h
      · exact h.length_eq ▸ h.len_le

theorem Holds.writeText {text : List U8} (h : Holds cap q r) (hlen : text.length < 2 ^ 32) :
    Holds cap ((q ++ text).rtake cap) (r.writeText text) := by
  have hn : (BitVec.ofNat 32 text.length).toNat = text.length := by
    rw [BitVec.toNat_ofNat, Nat.mod_eq_of_lt hlen]
  have hdata : (List.range text.length).map (fun i => text.getD i 0) = text := by
    refine List.ext_getElem (by simp) fun i _ hi => ?_
    rw [List.getElem_map, List.getElem_range, List.getD_eq_getElem _ _ hi]
  have := h.write (fun i => text.getD i 0) (BitVec.ofNat 32 text.length)
  rwa [hn, hdata] at this

/-- After texts are written the ring holds the newest bytes of them. -/
theorem Holds.writeTexts {texts : List (List U8)} (h : Holds cap q r)
    (hlen : ∀ t ∈ texts, t.length < 2 ^ 32) :
    Holds cap ((q ++ texts.flatten).rtake cap) (texts.foldl RingT.writeText r) := by
  induction texts generalizing q r with
  | nil =>
    rw [List.flatten_nil, List.append_nil, rtake_of_length_le (h.length_eq ▸ h.len_le)]
    exact h
  | cons t texts ih =>
    rw [List.forall_mem_cons] at hlen
    have := ih (h.writeText hlen.1) hlen.2
    rw [rtake_append_rtake, List.append_assoc] at this
    rwa [List.flatten_cons]

/-- `ring_read` removes the oldest bytes and returns them. -/
theorem Holds.read (h : Holds cap q r) (outCap : U32) :
    Holds cap (q.drop (min q.length outCap.toNat)) (r.read outCap).1 ∧
      (r.read outCap).2 = (BitVec.ofNat 32 (min q.length outCap.toNat),
        q.take (min q.length outCap.toNat)) := by
  have hcap := h.cap_eq
  have hlen := h.length_eq
  have hle := h.len_le
  generalize hn : (if outCap < r.len then outCap else r.len) = n
  have hmin : min q.length outCap.toNat = n.toNat := by
    rw [hlen, ← hn]
    split
    · rename_i hlt
      exact Nat.min_eq_right (BitVec.lt_def.mp hlt).le
    · rename_i hge
      exact Nat.min_eq_left (BitVec.le_def.mp (BitVec.not_lt.mp hge))
  have hnle : n.toNat ≤ r.len.toNat := by
    rw [← hmin, hlen]
    exact Nat.min_le_left _ _
  have hof : BitVec.ofNat 32 n.toNat = n := by rw [BitVec.ofNat_toNat, BitVec.setWidth_eq]
  unfold RingT.read
  rw [hn, hmin, hof]
  dsimp only
  split
  · rename_i hzero
    subst hzero
    exact ⟨h, rfl⟩
  -- after `k` rounds `out` holds the `k` oldest bytes
  have hloop := Loop.foldl_range_spec (n := n.toNat) (s := (r.start, ([] : List U8)))
    (I := fun k x => k ≤ r.len.toNat → x.1.toNat = (r.start.toNat + k) % cap ∧
      x.2 = window r.buf cap r.start.toNat k)
    (g := fun x _ => (if x.1 + 1 = r.cap then 0 else x.1 + 1, x.2 ++ [r.buf x.1.toNat]))
    (fun k hk x hx => ?_) ?_
  · obtain ⟨-, hout⟩ := hloop hnle
    have hsub : (r.len - n).toNat = r.len.toNat - n.toNat :=
      BitVec.toNat_sub_of_le (BitVec.le_def.mpr hnle)
    have hlay : Layout cap { r with len := r.len - n } := ⟨hcap, h.head_lt, by
      rw [hsub]
      omega⟩
    have hwindow := h.contents_eq'
    rw [contents, hcap] at hwindow
    refine ⟨⟨hlay, ?_⟩, Prod.ext rfl ?_⟩
    · have hstart : (r.start.toNat + n.toNat) % cap =
          (r.head.toNat + (cap - (r.len - n).toNat)) % cap := by
        rw [h.start_eq, Nat.mod_add_mod, hsub]
        congr 1
        omega
      rw [hlay.contents_eq hstart, hsub, ← hwindow, drop_window]
    · rw [← hwindow, take_window _ _ _ hnle]
      exact hout
  · intro hk'
    obtain ⟨hidx, hout⟩ := hx (by omega)
    have hlt : x.1.toNat < r.cap.toNat := by
      rw [hidx, hcap]
      exact Nat.mod_lt _ (Nat.zero_lt_of_lt h.head_lt)
    refine ⟨?_, ?_⟩
    · rw [toNat_next hlt, hidx, hcap, Nat.mod_add_mod, Nat.add_assoc]
    · dsimp only
      rw [hout, hidx]
      simp only [window, List.range_succ, List.map_append, List.map_singleton]
  · intro _
    refine ⟨?_, rfl⟩
    rw [h.start_eq, Nat.add_zero, Nat.mod_mod]

/-- A call on the ring is the call on the queue. -/
theorem Holds.step (h : Holds cap q r) (c : Call) :
    Holds cap (Queue.step cap q c).1 (r.step c).1 ∧ (r.step c).2 = (Queue.step cap q c).2 := by
  cases c with
  | putc c => exact ⟨h.putc c, rfl⟩
  | write data n => exact ⟨h.write data n, rfl⟩
  | read outCap =>
    obtain ⟨h₁, h₂⟩ := h.read outCap
    exact ⟨h₁, congrArg (fun x => [x]) h₂⟩

theorem Holds.run (cs : List Call) (h : Holds cap q r) :
    Holds cap (Queue.run cap q cs).1 (r.run cs).1 ∧ (r.run cs).2 = (Queue.run cap q cs).2 := by
  induction cs generalizing q r with
  | nil => exact ⟨h, rfl⟩
  | cons c cs ih =>
    obtain ⟨h₁, h₂⟩ := h.step c
    obtain ⟨h₃, h₄⟩ := ih h₁
    exact ⟨h₃, congrArg₂ (· ++ ·) h₂ h₄⟩

theorem holds_init (storage : ℕ → U8) {capacity : U32} (hc : 1 ≤ capacity.toNat) :
    Holds capacity.toNat [] (init storage capacity) :=
  ⟨⟨rfl, hc, Nat.zero_le _⟩, rfl⟩

/-- After any calls the ring holds the newest bytes of what the queue holds, in its `cap` cells, and
its reads have returned what the reads of the queue return. -/
theorem ring_refines_queue (storage : ℕ → U8) (capacity : U32) (hc : 1 ≤ capacity.toNat)
    (cs : List Call) :
    let r := ((init storage capacity).run cs).1
    r.cap = capacity ∧ r.head < r.cap ∧ r.len ≤ r.cap ∧
      r.contents = (Queue.run capacity.toNat [] cs).1 ∧
      ((init storage capacity).run cs).2 = (Queue.run capacity.toNat [] cs).2 := by
  obtain ⟨h, hout⟩ := (holds_init storage hc).run cs
  refine ⟨BitVec.eq_of_toNat_eq h.cap_eq, BitVec.lt_def.mpr ?_, BitVec.le_def.mpr ?_,
    h.contents_eq', hout⟩
  · rw [h.cap_eq]
    exact h.head_lt
  · rw [h.cap_eq]
    exact h.len_le

/-- A ring of three bytes that gets five and one more, and is read twice. -/
theorem ring_refines_queue_three :
    let cs : List Call := [.write (fun i => BitVec.ofNat 8 i) 5, .putc 9, .read 2, .read 2]
    let r := ((init (fun _ => 0) 3).run cs).1
    r.cap = 3 ∧ r.head < r.cap ∧ r.len ≤ r.cap ∧ r.contents = (Queue.run 3 [] cs).1 ∧
      ((init (fun _ => 0) 3).run cs).2 = (Queue.run 3 [] cs).2 :=
  ring_refines_queue (fun _ => 0) 3 (by decide) _

end RingT

end Jeos.Ring
