import Jeos.Ring

/-!
# The keyboard

`kbd_handle_scancode` of `ps2.c` takes the bytes of scancode set 1 one by one. The byte 0xE0 says that the
next one is of another key, a static variable remembers it. Two keys of each kind set and clear one bit of
`kbd_modifiers`.

So the bit of a kind is clear when one of its keys is released while the other one is held. The bits, and
the case of the letters with them, follow the keys in every state of a sequence of presses and releases
just if that never happens (`kbd_follows_iff`).
-/

set_option linter.unusedSectionVars false

namespace Jeos.Keyboard

open Jeos.Ring

/-- The variable of `kbd_handle_scancode` and those of the keyboard in `ps2.c`. -/
structure KbdState where
  e0 : U8
  kbdModifiers : U8
  kbdRingBuf : RingT

/-- `KBD_MOD_SHIFT`. -/
def kbdModShift : U8 := 0x01

/-- `KBD_MOD_CTRL`. -/
def kbdModCtrl : U8 := 0x04

/-- `KBD_MOD_ALT`. -/
def kbdModAlt : U8 := 0x08

/-- `KBD_MOD_CAPS`. -/
def kbdModCaps : U8 := 0x40

/-- `modifier_scancodes`. -/
def modifierScancodes (key : U8) : U8 :=
  if key = 0x2A ∨ key = 0x36 then kbdModShift
  else if key = 0x1D ∨ key = 0x9D then kbdModCtrl
  else if key = 0x38 ∨ key = 0xB8 then kbdModAlt
  else if key = 0x3A then kbdModCaps else 0

/-- An entry of a table that is given by rows, each with its first index. The others are 0. -/
def runeAt (rows : List (ℕ × List ℕ)) (key : U8) : U32 :=
  match rows.find? fun row => row.1 ≤ key.toNat ∧ key.toNat < row.1 + row.2.length with
  | some row => BitVec.ofNat 32 (row.2.getD (key.toNat - row.1) 0)
  | none => 0

/-- `scancode_to_rune`. -/
def scancodeToRune : U8 → U32 :=
  runeAt [
    -- 1 2 3 4 5 6 7 8 9 0 - =
    (0x02, [0x31, 0x32, 0x33, 0x34, 0x35, 0x36, 0x37, 0x38, 0x39, 0x30, 0x2D, 0x3D]),
    -- backspace tab
    (0x0E, [0x08, 0x09]),
    -- q w e r t y u i o p [ ] enter
    (0x10, [0x71, 0x77, 0x65, 0x72, 0x74, 0x79, 0x75, 0x69, 0x6F, 0x70, 0x5B, 0x5D, 0x0A]),
    -- a s d f g h j k l ; ' `
    (0x1E, [0x61, 0x73, 0x64, 0x66, 0x67, 0x68, 0x6A, 0x6B, 0x6C, 0x3B, 0x27, 0x60]),
    -- z x c v b n m , . /
    (0x2C, [0x7A, 0x78, 0x63, 0x76, 0x62, 0x6E, 0x6D, 0x2C, 0x2E, 0x2F]),
    -- space
    (0x39, [0x20])]

/-- `scancode_to_rune_shift`. -/
def scancodeToRuneShift : U8 → U32 :=
  runeAt [
    -- ! @ # $ % ^ & * ( ) _ +
    (0x02, [0x21, 0x40, 0x23, 0x24, 0x25, 0x5E, 0x26, 0x2A, 0x28, 0x29, 0x5F, 0x2B]),
    -- Q W E R T Y U I O P { }
    (0x10, [0x51, 0x57, 0x45, 0x52, 0x54, 0x59, 0x55, 0x49, 0x4F, 0x50, 0x7B, 0x7D]),
    -- A S D F G H J K L : " ~
    (0x1E, [0x41, 0x53, 0x44, 0x46, 0x47, 0x48, 0x4A, 0x4B, 0x4C, 0x3A, 0x22, 0x7E]),
    -- Z X C V B N M < > ?
    (0x2C, [0x5A, 0x58, 0x43, 0x56, 0x42, 0x4E, 0x4D, 0x3C, 0x3E, 0x3F])]

/-- `kbd_put_rune` : the bytes that it writes. -/
def kbdPutRune (rune : U32) : List U8 :=
  if rune < 0x80 then [rune.setWidth 8]
  else if rune < 0x800 then
    [((0xC0 : U32) ||| rune >>> 6).setWidth 8, ((0x80 : U32) ||| (rune &&& 0x3F)).setWidth 8]
  else if rune < 0x10000 then
    [((0xE0 : U32) ||| rune >>> 12).setWidth 8, ((0x80 : U32) ||| (rune >>> 6 &&& 0x3F)).setWidth 8,
      ((0x80 : U32) ||| (rune &&& 0x3F)).setWidth 8]
  else
    [((0xF0 : U32) ||| rune >>> 18).setWidth 8, ((0x80 : U32) ||| (rune >>> 12 &&& 0x3F)).setWidth 8,
      ((0x80 : U32) ||| (rune >>> 6 &&& 0x3F)).setWidth 8, ((0x80 : U32) ||| (rune &&& 0x3F)).setWidth 8]

/-- The rune of a key that is pressed. -/
def runeOf (modifiers key : U8) : U32 :=
  let base := scancodeToRune key
  let shifted := scancodeToRuneShift key
  let shift : Bool := modifiers &&& kbdModShift ≠ 0
  let caps : Bool := modifiers &&& kbdModCaps ≠ 0
  if 97 ≤ base ∧ base ≤ 122 ∨ 65 ≤ base ∧ base ≤ 90 then
    if shift != caps then (if shifted ≠ 0 then shifted else base) else base
  else if shift ∧ shifted ≠ 0 then shifted else base

/-- `kbd_handle_scancode` : the state, and what is written to the ring. -/
def kbdHandleScancode (s : KbdState) (scancode : U8) : KbdState × List (List U8) :=
  if scancode = 0xE0 then ({ s with e0 := 1 }, [])
  else
    let key := scancode &&& 0x7F
    let release : Bool := scancode &&& 0x80 ≠ 0
    let setModifier (s : KbdState) (bit : U8) : KbdState :=
      { s with kbdModifiers := if release then s.kbdModifiers &&& ~~~bit else s.kbdModifiers ||| bit }
    if s.e0 ≠ 0 then
      let s := { s with e0 := 0 }
      if key = 0x1D then (setModifier s kbdModCtrl, [])
      else if key = 0x38 then (setModifier s kbdModAlt, [])
      else (s, [])
    else if key = 0x3A then
      (if release then s else { s with kbdModifiers := s.kbdModifiers ^^^ kbdModCaps }, [])
    else if modifierScancodes key ≠ 0 then (setModifier s (modifierScancodes key), [])
    else if release then (s, [])
    else
      let rune := runeOf s.kbdModifiers key
      if rune ≠ 0 then
        ({ s with kbdRingBuf := s.kbdRingBuf.writeText (kbdPutRune rune) }, [kbdPutRune rune])
      else (s, [])

/-- The bytes one after the other. -/
def feed : KbdState → List U8 → KbdState × List (List U8)
  | s, [] => (s, [])
  | s, c :: cs => ((feed (kbdHandleScancode s c).1 cs).1,
      (kbdHandleScancode s c).2 ++ (feed (kbdHandleScancode s c).1 cs).2)

/-! ## Keys -/

/-- A key of scancode set 1 : its make code, and whether 0xE0 comes in front. The break code of 0x60
would be 0xE0. -/
structure Key where
  ext : Bool
  code : U8
  valid : code < 0x80 ∧ code ≠ 0x60
  deriving DecidableEq

/-- A key is pressed or released. -/
structure Event where
  key : Key
  release : Bool

/-- The bytes that the keyboard sends. -/
def Event.codes (e : Event) : List U8 :=
  (if e.key.ext then [0xE0] else []) ++ [if e.release then e.key.code ||| 0x80 else e.key.code]

/-- The kinds of keys that come in twos. -/
inductive Modifier where
  | shift
  | ctrl
  | alt
  deriving DecidableEq

namespace Modifier

def bit : Modifier → U8
  | shift => kbdModShift
  | ctrl => kbdModCtrl
  | alt => kbdModAlt

def left : Modifier → Key
  | shift => ⟨false, 0x2A, by decide⟩
  | ctrl => ⟨false, 0x1D, by decide⟩
  | alt => ⟨false, 0x38, by decide⟩

def right : Modifier → Key
  | shift => ⟨false, 0x36, by decide⟩
  | ctrl => ⟨true, 0x1D, by decide⟩
  | alt => ⟨true, 0x38, by decide⟩

end Modifier

def capsLock : Key := ⟨false, 0x3A, by decide⟩

/-- The letter on a key. -/
def Key.letter (k : Key) : Option U8 :=
  if k.ext = false ∧ 97 ≤ scancodeToRune k.code ∧ scancodeToRune k.code ≤ 122 then
    some ((scancodeToRune k.code).setWidth 8)
  else none

/-- The key is held after the events. -/
def held (evs : List Event) (k : Key) : Bool :=
  evs.foldl (fun h e => if e.key = k then !e.release else h) false

/-- A key of this kind is held. -/
def Modifier.Held (m : Modifier) (evs : List Event) : Prop := held evs m.left ∨ held evs m.right

/-- Caps Lock has been pressed an odd number of times. -/
def CapsOn (evs : List Event) : Prop :=
  (evs.countP fun e => e.key = capsLock ∧ e.release = false) % 2 = 1

instance (m : Modifier) (evs : List Event) : Decidable (m.Held evs) :=
  inferInstanceAs (Decidable (_ ∨ _))

instance (evs : List Event) : Decidable (CapsOn evs) := inferInstanceAs (Decidable (_ = _))

/-- Presses and releases of each key take turns. -/
def Alternates (evs : List Event) : Prop :=
  ∀ pre e, pre ++ [e] <+: evs → e.release = held pre e.key

/-- An event. -/
def typeEvent (s : KbdState) (e : Event) : KbdState × List (List U8) := feed s e.codes

/-- The events one after the other. -/
def typed : KbdState → List Event → KbdState × List (List U8)
  | s, [] => (s, [])
  | s, e :: evs => ((typed (typeEvent s e).1 evs).1,
      (typeEvent s e).2 ++ (typed (typeEvent s e).1 evs).2)

/-- After every part of the events the bits say which keys are held, and a letter comes in upper case
just if Shift held differs from Caps Lock. -/
structure Follows (s : KbdState) (evs : List Event) : Prop where
  modifiers : ∀ pre, pre <+: evs → ∀ m : Modifier,
    ((typed s pre).1.kbdModifiers &&& m.bit ≠ 0 ↔ m.Held pre)
  caps : ∀ pre, pre <+: evs → ((typed s pre).1.kbdModifiers &&& kbdModCaps ≠ 0 ↔ CapsOn pre)
  letters : ∀ pre e c, pre ++ [e] <+: evs → e.release = false → e.key.letter = some c →
    (typeEvent (typed s pre).1 e).2 = [[if Modifier.shift.Held pre ↔ CapsOn pre then c else c - 32]]

/-- No key is released while the other one of its kind is held. -/
def OneAtATime (evs : List Event) : Prop :=
  ∀ pre e, pre ++ [e] <+: evs → e.release = true → ∀ m : Modifier,
    (e.key = m.left → held pre m.right = false) ∧ (e.key = m.right → held pre m.left = false)

variable {s : KbdState} {e : Event} {evs pre : List Event} {m : Modifier} {k : Key}

/-! ## One event -/

/-- The bit that a key sets and clears. -/
def keyBit (k : Key) : U8 :=
  if k.ext then (if k.code = 0x1D then kbdModCtrl else if k.code = 0x38 then kbdModAlt else 0)
  else if k.code = 0x3A then 0 else modifierScancodes k.code

/-- The bits after an event. -/
def newModifiers (modifiers : U8) (e : Event) : U8 :=
  if e.key = capsLock then (if e.release then modifiers else modifiers ^^^ kbdModCaps)
  else if e.release then modifiers &&& ~~~keyBit e.key else modifiers ||| keyBit e.key

/-- What is written for an event. -/
def written (modifiers : U8) (e : Event) : List (List U8) :=
  if e.key.ext ∨ e.key.code = 0x3A ∨ modifierScancodes e.key.code ≠ 0 ∨ e.release then []
  else if runeOf modifiers e.key.code ≠ 0 then [kbdPutRune (runeOf modifiers e.key.code)] else []

/-- The byte of a key. -/
theorem byte_of_code (h : k.code < 0x80 ∧ k.code ≠ 0x60) (r : Bool) :
    (if r then k.code ||| 0x80 else k.code) ≠ 0xE0 ∧
      (if r then k.code ||| 0x80 else k.code) &&& 0x7F = k.code ∧
      decide ((if r then k.code ||| 0x80 else k.code) &&& 0x80 ≠ 0) = r := by
  have hall : ∀ c : U8, c < 0x80 ∧ c ≠ 0x60 → ∀ r : Bool, (if r then c ||| 0x80 else c) ≠ 0xE0 ∧
      (if r then c ||| 0x80 else c) &&& 0x7F = c ∧
      decide ((if r then c ||| 0x80 else c) &&& 0x80 ≠ 0) = r := by decide
  exact hall k.code h r

/-- A byte behind 0xE0. -/
theorem handle_ext {c : U8} (h0 : s.e0 ≠ 0) (hk : k.ext = true) (hc : c ≠ 0xE0)
    (hcode : c &&& 0x7F = k.code) {r : Bool} (hr : decide (c &&& 0x80 ≠ 0) = r) :
    kbdHandleScancode s c = ({ s with
      e0 := 0, kbdModifiers := newModifiers s.kbdModifiers ⟨k, r⟩ }, []) := by
  have hcaps : k ≠ capsLock := fun h => by
    rw [h] at hk
    cases hk
  rw [kbdHandleScancode, if_neg hc, hcode, hr, newModifiers, if_neg hcaps, keyBit, if_pos hk]
  simp only [if_pos h0]
  have hall : s.kbdModifiers &&& ~~~(0 : U8) = s.kbdModifiers := BitVec.and_allOnes
  have hnone : s.kbdModifiers ||| (0 : U8) = s.kbdModifiers := BitVec.or_zero
  split_ifs <;> first | rfl | rw [hall] | rw [hnone]

/-- A byte of another key. -/
theorem handle_plain {c : U8} (h0 : s.e0 = 0) (hk : k.ext = false) (hc : c ≠ 0xE0)
    (hcode : c &&& 0x7F = k.code) {r : Bool} (hr : decide (c &&& 0x80 ≠ 0) = r) :
    kbdHandleScancode s c = ({ s with
      kbdModifiers := newModifiers s.kbdModifiers ⟨k, r⟩
      kbdRingBuf := (written s.kbdModifiers ⟨k, r⟩).foldl RingT.writeText s.kbdRingBuf },
      written s.kbdModifiers ⟨k, r⟩) := by
  have hcaps : k = capsLock ↔ k.code = 0x3A := by
    constructor
    · rintro rfl
      rfl
    · obtain ⟨ext, code, hv⟩ := k
      rintro rfl
      obtain rfl := hk
      rfl
  obtain ⟨e0, modifiers, ring⟩ := s
  obtain rfl : e0 = 0 := h0
  rw [kbdHandleScancode, if_neg hc, hcode, hr, newModifiers, written, keyBit, hk]
  simp only [hcaps, ne_eq, not_true_eq_false, if_false, Bool.false_eq_true, false_or]
  by_cases h3A : k.code = 0x3A
  · rw [if_pos h3A, if_pos h3A, if_pos (Or.inl h3A)]
    cases r <;> rfl
  rw [if_neg h3A, if_neg h3A, if_neg h3A]
  by_cases hmod : modifierScancodes k.code = 0
  · have hall : modifiers &&& ~~~(0 : U8) = modifiers := BitVec.and_allOnes
    have hnone : modifiers ||| (0 : U8) = modifiers := BitVec.or_zero
    rw [if_neg (not_not.2 hmod), hmod, hall, hnone, ite_self]
    cases r with
    | true =>
      rw [if_pos rfl, if_pos (Or.inr (Or.inr rfl))]
      rfl
    | false =>
      have hpress : ¬(k.code = 0x3A ∨ ¬(0 : U8) = 0 ∨ false = true) := by
        rintro (h | h | h)
        · exact h3A h
        · exact h rfl
        · cases h
      rw [if_neg Bool.false_ne_true, if_neg hpress]
      split_ifs <;> rfl
  · rw [if_pos hmod, if_pos (Or.inr (Or.inl hmod))]
    rfl

theorem typeEvent_eq (h0 : s.e0 = 0) (e : Event) : typeEvent s e =
    ({ s with
      kbdModifiers := newModifiers s.kbdModifiers e
      kbdRingBuf := (written s.kbdModifiers e).foldl RingT.writeText s.kbdRingBuf },
      written s.kbdModifiers e) := by
  obtain ⟨hc, hcode, hr⟩ := byte_of_code e.key.valid e.release
  rw [typeEvent, Event.codes]
  cases hk : e.key.ext with
  | true =>
    have hw : written s.kbdModifiers e = [] := if_pos (Or.inl hk)
    have h₁ : kbdHandleScancode s 0xE0 = ({ s with e0 := 1 }, []) := if_pos rfl
    have hne : ({ s with e0 := 1 } : KbdState).e0 ≠ 0 := show (1 : U8) ≠ 0 by decide
    have h₂ := handle_ext hne hk hc hcode hr
    rw [if_pos rfl, List.singleton_append, feed, feed, feed, h₁, h₂, hw]
    exact h0 ▸ rfl
  | false =>
    rw [if_neg Bool.false_ne_true, List.nil_append, feed, feed, handle_plain h0 hk hc hcode hr,
      List.append_nil]

/-! ## The bits -/

theorem held_concat (pre : List Event) (e : Event) (k : Key) :
    held (pre ++ [e]) k = if e.key = k then !e.release else held pre k := List.foldl_append

theorem keyBit_eq : ∀ (m : Modifier) (ext : Bool) (code : U8) (hv : code < 0x80 ∧ code ≠ 0x60),
    if (⟨ext, code, hv⟩ : Key) = m.left ∨ (⟨ext, code, hv⟩ : Key) = m.right then
      keyBit ⟨ext, code, hv⟩ = m.bit
    else keyBit ⟨ext, code, hv⟩ &&& m.bit = 0 := by
  intro m
  cases m <;> decide

/-- A bit that is not among those set or cleared. -/
theorem and_of_apart {x kb b : U8} (h : kb &&& b = 0#8) :
    (x &&& ~~~kb) &&& b = x &&& b ∧ (x ||| kb) &&& b = x &&& b := by
  have hnot : ~~~kb &&& b = b := by
    refine BitVec.eq_of_getLsbD_eq fun i hi => ?_
    have hi' := congrArg (fun y => BitVec.getLsbD y i) h
    simp only [BitVec.getLsbD_and, BitVec.getLsbD_not, BitVec.getLsbD_zero, hi, decide_true,
      Bool.true_and] at hi' ⊢
    cases hb : b.getLsbD i
    · rw [Bool.and_false]
    · rw [hb, Bool.and_true] at hi'
      rw [hi']
      rfl
  constructor
  · rw [BitVec.and_assoc, hnot]
  · rw [BitVec.and_comm, BitVec.and_or_distrib_left, BitVec.and_comm b kb, h, BitVec.or_zero,
      BitVec.and_comm]

theorem capsLock_ne (m : Modifier) : capsLock ≠ m.left ∧ capsLock ≠ m.right := by
  cases m <;> decide

/-- A bit of a kind is set and cleared by the keys of the kind. -/
theorem newModifiers_bit (m : Modifier) (x : U8) (e : Event) : newModifiers x e &&& m.bit ≠ 0 ↔
    if e.key = m.left ∨ e.key = m.right then e.release = false else x &&& m.bit ≠ 0 := by
  have hkey := keyBit_eq m e.key.ext e.key.code e.key.valid
  by_cases hm : e.key = m.left ∨ e.key = m.right
  · have hbit : keyBit e.key = m.bit := by
      rw [if_pos hm] at hkey
      exact hkey
    have hcaps : e.key ≠ capsLock := fun h =>
      hm.elim (fun hl => (capsLock_ne m).1 (h.symm.trans hl)) fun hr =>
        (capsLock_ne m).2 (h.symm.trans hr)
    have hclear : ∀ m : Modifier, ∀ x : U8, x &&& ~~~m.bit &&& m.bit = 0 := by
      intro m
      cases m <;> decide
    have hset : ∀ m : Modifier, ∀ x : U8, (x ||| m.bit) &&& m.bit ≠ 0 := by
      intro m
      cases m <;> decide
    rw [if_pos hm, newModifiers, if_neg hcaps, hbit]
    cases e.release with
    | true => exact iff_of_false (not_not.2 (hclear m x)) (by simp)
    | false => exact iff_of_true (hset m x) rfl
  · have hbit : keyBit e.key &&& m.bit = 0 := by
      rw [if_neg hm] at hkey
      exact hkey
    have hxor : ∀ m : Modifier, ∀ x : U8, (x ^^^ kbdModCaps) &&& m.bit = x &&& m.bit := by
      intro m
      cases m <;> decide
    rw [if_neg hm, newModifiers]
    split_ifs
    · exact Iff.rfl
    · rw [hxor]
    · rw [(and_of_apart hbit).1]
    · rw [(and_of_apart hbit).2]

/-- The bit of Caps Lock changes when that key is pressed. -/
theorem newModifiers_caps (x : U8) (e : Event) : newModifiers x e &&& kbdModCaps ≠ 0 ↔
    if e.key = capsLock ∧ e.release = false then ¬x &&& kbdModCaps ≠ 0 else x &&& kbdModCaps ≠ 0 := by
  have hbit : ∀ (ext : Bool) (code : U8) (hv : code < 0x80 ∧ code ≠ 0x60),
      keyBit ⟨ext, code, hv⟩ &&& kbdModCaps = 0 := by decide
  have hkey : keyBit e.key &&& kbdModCaps = 0 := hbit e.key.ext e.key.code e.key.valid
  have hxor : ∀ x : U8, (x ^^^ kbdModCaps) &&& kbdModCaps ≠ 0 ↔ ¬x &&& kbdModCaps ≠ 0 := by decide
  rw [newModifiers]
  by_cases hc : e.key = capsLock
  · rw [if_pos hc]
    cases hr : e.release with
    | true => rw [if_pos rfl, if_neg fun h => Bool.noConfusion h.2]
    | false => rw [if_neg Bool.false_ne_true, if_pos ⟨hc, rfl⟩, hxor]
  · have hpress : ¬(e.key = capsLock ∧ e.release = false) := fun h => hc h.1
    rw [if_neg hc, if_neg hpress]
    split_ifs
    · rw [(and_of_apart hkey).1]
    · rw [(and_of_apart hkey).2]

/-! ## Sequences -/

theorem typed_concat (s : KbdState) (pre : List Event) (e : Event) : typed s (pre ++ [e]) =
    ((typeEvent (typed s pre).1 e).1, (typed s pre).2 ++ (typeEvent (typed s pre).1 e).2) := by
  induction pre generalizing s with
  | nil => rw [List.nil_append, typed, typed, typed, List.append_nil, List.nil_append]
  | cons e' pre ih => rw [List.cons_append, typed, ih, typed, List.append_assoc]

theorem typed_e0 (h0 : s.e0 = 0) (evs : List Event) : (typed s evs).1.e0 = 0 := by
  induction evs using List.reverseRecOn with
  | nil => exact h0
  | append_singleton evs e ih => rw [typed_concat, typeEvent_eq ih, ih]

theorem modifiers_concat (h0 : s.e0 = 0) (pre : List Event) (e : Event) :
    (typed s (pre ++ [e])).1.kbdModifiers = newModifiers (typed s pre).1.kbdModifiers e := by
  rw [typed_concat, typeEvent_eq (typed_e0 h0 pre)]

theorem capsOn_concat (pre : List Event) (e : Event) : CapsOn (pre ++ [e]) ↔
    if e.key = capsLock ∧ e.release = false then ¬CapsOn pre else CapsOn pre := by
  rw [CapsOn, CapsOn, List.countP_append, List.countP_singleton]
  split_ifs with h h' h'
  · omega
  · exact absurd (by simpa using h) h'
  · exact absurd (by simpa using h') h
  · rw [Nat.add_zero]

theorem Modifier.left_ne_right (m : Modifier) : m.left ≠ m.right := by
  cases m <;> decide

theorem OneAtATime.prefix_of (h : OneAtATime evs) (hp : pre <+: evs) : OneAtATime pre :=
  fun pre' e hpre => h pre' e (hpre.trans hp)

/-- When no key is released while the other one of its kind is held, the bits say which are held. -/
theorem bit_iff_held (h0 : s.e0 = 0) (hm : s.kbdModifiers = 0) (h : OneAtATime evs) (m : Modifier) :
    (typed s evs).1.kbdModifiers &&& m.bit ≠ 0 ↔ m.Held evs := by
  induction evs using List.reverseRecOn with
  | nil =>
    refine iff_of_false (not_not.2 ?_) (by simp [Modifier.Held, held])
    rw [typed, hm]
    exact BitVec.zero_and
  | append_singleton pre e ih =>
    have ih := ih (h.prefix_of (List.prefix_append _ _))
    have hcond := fun hr => h pre e List.prefix_rfl hr m
    have hne := m.left_ne_right
    rw [modifiers_concat h0, newModifiers_bit, Modifier.Held, held_concat, held_concat]
    by_cases hl : e.key = m.left
    · rw [if_pos (Or.inl hl), if_pos hl, if_neg fun hr => hne (hl.symm.trans hr)]
      cases hr : e.release with
      | true => simp [(hcond hr).1 hl]
      | false => simp
    by_cases hr : e.key = m.right
    · rw [if_pos (Or.inr hr), if_pos hr, if_neg hl]
      cases hrel : e.release with
      | true => simp [(hcond hrel).2 hr]
      | false => simp
    · rw [if_neg (not_or.2 ⟨hl, hr⟩), if_neg hl, if_neg hr]
      exact ih

theorem caps_iff_capsOn (h0 : s.e0 = 0) (hm : s.kbdModifiers = 0) (evs : List Event) :
    (typed s evs).1.kbdModifiers &&& kbdModCaps ≠ 0 ↔ CapsOn evs := by
  induction evs using List.reverseRecOn with
  | nil =>
    refine iff_of_false (not_not.2 ?_) (by simp [CapsOn])
    rw [typed, hm]
    exact BitVec.zero_and
  | append_singleton pre e ih =>
    rw [modifiers_concat h0, newModifiers_caps, capsOn_concat, ih]

/-- The entries of the tables for a letter. -/
theorem letter_entry : ∀ code : U8, 97 ≤ scancodeToRune code ∧ scancodeToRune code ≤ 122 →
    code ≠ 0x3A ∧ modifierScancodes code = 0 ∧ scancodeToRune code ≠ 0 ∧ scancodeToRuneShift code ≠ 0 ∧
      kbdPutRune (scancodeToRune code) = [(scancodeToRune code).setWidth 8] ∧
      kbdPutRune (scancodeToRuneShift code) = [(scancodeToRune code).setWidth 8 - 32] := by
  decide

/-- What is written for a letter. -/
theorem written_letter {c x : U8} (hr : e.release = false) (hc : e.key.letter = some c) :
    written x e = [[if x &&& kbdModShift ≠ 0 ↔ x &&& kbdModCaps ≠ 0 then c else c - 32]] := by
  rw [Key.letter] at hc
  split at hc
  case isFalse => cases hc
  case isTrue hl =>
    obtain ⟨hext, hletter⟩ := hl
    obtain rfl := Option.some.inj hc
    obtain ⟨h3A, hmod, hbase, hshifted, hput, hput'⟩ := letter_entry e.key.code hletter
    have hpress : ¬(e.key.ext ∨ e.key.code = 0x3A ∨ modifierScancodes e.key.code ≠ 0 ∨ e.release) := by
      rw [hext, hr, hmod]
      rintro (h | h | h | h)
      · cases h
      · exact h3A h
      · exact h rfl
      · cases h
    have hrune : runeOf x e.key.code = if x &&& kbdModShift ≠ 0 ↔ x &&& kbdModCaps ≠ 0 then
        scancodeToRune e.key.code else scancodeToRuneShift e.key.code := by
      rw [runeOf, if_pos (Or.inl hletter), if_pos hshifted]
      by_cases h₁ : x &&& kbdModShift = 0#8 <;> by_cases h₂ : x &&& kbdModCaps = 0#8 <;>
        simp [h₁, h₂]
    rw [written, if_neg hpress, hrune]
    split_ifs with hs
    · rw [hput]
    · rw [hput']

theorem follows_of_oneAtATime (h0 : s.e0 = 0) (hm : s.kbdModifiers = 0) (h : OneAtATime evs) :
    Follows s evs := by
  refine ⟨fun pre hp m => bit_iff_held h0 hm (h.prefix_of hp) m, fun pre _ => caps_iff_capsOn h0 hm pre,
    fun pre e c hp hr hc => ?_⟩
  have hshift := bit_iff_held h0 hm (h.prefix_of ((List.prefix_append _ _).trans hp)) Modifier.shift
  rw [typeEvent_eq (typed_e0 h0 pre), written_letter hr hc]
  simp only [caps_iff_capsOn h0 hm, show kbdModShift = Modifier.shift.bit from rfl, hshift]

theorem Follows.oneAtATime (h0 : s.e0 = 0) (h : Follows s evs) : OneAtATime evs := by
  intro pre e hp hr m
  have hclear : ∀ k', k' = m.left ∨ k' = m.right → e.key = k' → ¬m.Held (pre ++ [e]) := by
    rintro k' hk' rfl
    rw [← h.modifiers _ hp, modifiers_concat h0, newModifiers_bit, if_pos hk', hr]
    exact Bool.noConfusion
  have hne := m.left_ne_right
  constructor
  · intro hl
    have := hclear _ (Or.inl rfl) hl
    rw [Modifier.Held, not_or, held_concat, held_concat, if_neg fun hr' => hne (hl.symm.trans hr')] at this
    exact Bool.eq_false_iff.2 this.2
  · intro hl
    have := hclear _ (Or.inr rfl) hl
    rw [Modifier.Held, not_or, held_concat, held_concat, if_neg fun hr' => hne (hr'.symm.trans hl)] at this
    exact Bool.eq_false_iff.2 this.1

theorem length_kbdPutRune_le (rune : U32) : (kbdPutRune rune).length ≤ 4 := by
  rw [kbdPutRune]
  split_ifs <;> norm_num

/-- The ring gets what is written. -/
theorem typed_ring (h0 : s.e0 = 0) (evs : List Event) :
    (typed s evs).1.kbdRingBuf = (typed s evs).2.foldl RingT.writeText s.kbdRingBuf ∧
      ∀ t ∈ (typed s evs).2, t.length ≤ 4 := by
  induction evs using List.reverseRecOn with
  | nil => exact ⟨rfl, nofun⟩
  | append_singleton pre e ih =>
    rw [typed_concat, typeEvent_eq (typed_e0 h0 pre), List.foldl_append, ← ih.1]
    refine ⟨rfl, fun t ht => (List.mem_append.1 ht).elim (ih.2 t) fun ht => ?_⟩
    rw [written] at ht
    split_ifs at ht
    · cases ht
    · rw [List.mem_singleton.1 ht]
      exact length_kbdPutRune_le _
    · cases ht

/-- For any sequence of presses and releases from the boot on, of which those that take turns are a part :
in every state of it the bits follow the keys, and the letters come in the right case, just if no key is
released while the other one of its kind is held. The ring gets what is written in any case. -/
theorem kbd_follows_iff (h0 : s.e0 = 0) (hm : s.kbdModifiers = 0) (evs : List Event) :
    (Follows s evs ↔ OneAtATime evs) ∧ ∀ cap q, RingT.Holds cap q s.kbdRingBuf →
      RingT.Holds cap ((q ++ (typed s evs).2.flatten).rtake cap) (typed s evs).1.kbdRingBuf := by
  refine ⟨⟨fun h => h.oneAtATime h0, follows_of_oneAtATime h0 hm⟩, fun cap q hq => ?_⟩
  obtain ⟨hring, hlen⟩ := typed_ring h0 evs
  rw [hring]
  exact hq.writeTexts fun t ht => (hlen t ht).trans_lt (by norm_num)

/-- An event of a sequence, with those in front of it. -/
theorem exists_index (hp : pre ++ [e] <+: evs) : ∃ i, pre = evs.take i ∧ evs[i]? = some e := by
  obtain ⟨post, rfl⟩ := hp
  refine ⟨pre.length, ?_, ?_⟩
  · rw [List.append_assoc, List.take_left]
  · rw [List.append_assoc, List.getElem?_append_right le_rfl, Nat.sub_self]
    rfl

/-- The state after the boot. -/
def bootKbd : KbdState := ⟨0, 0, RingT.init (fun _ => 0) 1024⟩

/-- The key A. -/
def keyA : Key := ⟨false, 0x1E, by decide⟩

/-- Shift is held while A is pressed. -/
theorem kbd_follows_shift :
    Follows bootKbd [⟨Modifier.shift.left, false⟩, ⟨keyA, false⟩, ⟨Modifier.shift.left, true⟩] := by
  refine (kbd_follows_iff rfl rfl _).1.2 fun pre e hp hr m => ?_
  obtain ⟨i, rfl, he⟩ := exists_index hp
  match i with
  | 0 | 1 =>
    obtain rfl := Option.some.inj he
    cases hr
  | 2 =>
    obtain rfl := Option.some.inj he
    cases m <;> decide
  | i + 3 => cases he

/-- Both Shift keys are pressed, the left one is released, and A is pressed : the bit is clear and the
letter is "a". -/
theorem kbd_loses_shift :
    let evs : List Event := [⟨Modifier.shift.left, false⟩, ⟨Modifier.shift.right, false⟩,
      ⟨Modifier.shift.left, true⟩, ⟨keyA, false⟩]
    Alternates evs ∧ Modifier.shift.Held evs ∧
      (typed bootKbd evs).1.kbdModifiers = 0 ∧ (typed bootKbd evs).2 = [[97]] ∧ ¬Follows bootKbd evs := by
  intro evs
  have hheld : Modifier.shift.Held evs := by decide
  have hbit : (typed bootKbd evs).1.kbdModifiers = 0 := by decide
  refine ⟨fun pre e hp => ?_, hheld, hbit, by decide, fun h => ?_⟩
  · obtain ⟨i, rfl, he⟩ := exists_index hp
    match i with
    | 0 | 1 | 2 | 3 =>
      obtain rfl := Option.some.inj he
      decide
    | i + 4 => cases he
  · refine (h.modifiers evs List.prefix_rfl Modifier.shift).2 hheld ?_
    rw [hbit]
    exact BitVec.zero_and

end Jeos.Keyboard
