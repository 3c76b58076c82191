import Jeos.Types
import Jeos.Lib.Buffer
import Jeos.Lib.Numeral

/-!
# Printing

`print.c` has two ways to write a number : `putdec` and `puthex` send the digits out one by one, `fmt_dec`
and `fmt_hex` put them into a buffer for `do_vprintf`. What is sent to the console is the list of
characters here.

Both ways give the numeral of the number. A directive of `do_vprintf` gives it with its sign, filled up to
the width, on the side and with the character that its flags say (`print_faithful`).
-/

set_option linter.unusedSectionVars false

namespace Jeos.Print

open Buffer Numeral

/-- `char buf[k];` : its bytes can be anything at the start. -/
abbrev CharBuf (k : ℕ) := {buf : List U8 // buf.length = k}

def ascii (c : Char) : U8 := BitVec.ofNat 8 c.toNat

/-- `'0' + (n % 10)`. -/
def decDigit (n : U64) : U8 := ascii '0' + (n % 10).setWidth 8

/-- `nib < 10 ? '0' + nib : 'a' + nib - 10`. -/
def nibbleDigit (nib : U8) : U8 := if nib < 10 then ascii '0' + nib else ascii 'a' + nib - 10

/-- `putdec`. -/
def putdec (buf : CharBuf 20) (n : U64) : Option (List U8) :=
  if n = 0 then some [ascii '0']
  else (fillFrom (fun n => 0 < n) decDigit (· / 10) buf.1 n).bind fun (buf, i) => emitDown buf i

/-- `puthex_n`. -/
def puthexN (n : U64) : ℕ → List U8
  | 0 => []
  | i + 1 => nibbleDigit ((n >>> (i * 4) &&& 0xF).setWidth 8) :: puthexN n i

/-- `puthex64`. -/
def puthex64 (n : U64) : List U8 := puthexN n 16

/-- The loop of `puthex` for the highest nibble that is not 0. -/
def hexDigits (n : U64) : ℕ → ℕ
  | 0 => 0
  | digits + 1 =>
    if digits + 1 > 1 ∧ n >>> (digits * 4) &&& 0xF = 0 then hexDigits n digits else digits + 1

/-- `puthex`. -/
def puthex (n : U64) : List U8 := if n = 0 then [ascii '0'] else puthexN n (hexDigits n 16)

/-- `fmt_dec` and `fmt_hex`, with the digit of a round and the number for the next one. -/
def fmtNumber (digit : U64 → U8) (next : U64 → U64) (buf : List U8) (n : U64) : Option (List U8 × ℕ) :=
  if n = 0 then (put buf 0 (ascii '0')).map (·, 1)
  else (fillFrom (fun n => 0 < n) digit next buf n).bind fun (buf, i) =>
    (reverseFirst buf i).map (·, i)

/-- `fmt_dec`. -/
def fmtDec : List U8 → U64 → Option (List U8 × ℕ) := fmtNumber decDigit (· / 10)

/-- `fmt_hex`. -/
def fmtHex : List U8 → U64 → Option (List U8 × ℕ) :=
  fmtNumber (fun n => nibbleDigit ((n &&& 0xF).setWidth 8)) (· >>> 4)

/-- `pad`. -/
def pad (count : U32) (c : U8) : List U8 := List.replicate count.toInt.toNat c

/-! ## do_vprintf -/

/-- An argument, with the type that `va_arg` takes. -/
inductive Arg where
  | num (n : U64)
  | int (n : U32)
  | str (s : Option (List U8))

structure Flags where
  leftAlign : Bool
  zeroPad : Bool
  center : Bool

/-- The loop over the flags. -/
def parseFlags : Flags → List U8 → Flags × List U8
  | f, [] => (f, [])
  | f, c :: fmt =>
    if c = ascii '-' then parseFlags { f with leftAlign := true } fmt
    else if c = ascii '0' then parseFlags { f with zeroPad := true } fmt
    else if c = ascii '^' then parseFlags { f with center := true } fmt
    else (f, c :: fmt)

/-- The loop over the digits of the width. -/
def parseWidth : U32 → List U8 → U32 × List U8
  | width, [] => (width, [])
  | width, c :: fmt =>
    if ascii '0' ≤ c ∧ c ≤ ascii '9' then parseWidth (width * 10 + (c - ascii '0').setWidth 32) fmt
    else (width, c :: fmt)

/-- The flags and the width of a directive, and what is behind them. -/
def parseSpec (fmt : List U8) : Flags × U32 × List U8 :=
  let (f, fmt) := parseFlags ⟨false, false, false⟩ fmt
  let f := if f.leftAlign || f.center then { f with zeroPad := false } else f
  (f, parseWidth 0 fmt)

/-- The cases `'d'` and `'i'`. The sign of the least number goes away in `-n` and comes back in the
conversion to `u64`. -/
def printSigned (buf : CharBuf 24) (f : Flags) (width : U32) (n : U64) : Option (List U8) :=
  let neg : Bool := n.toInt < 0
  (fmtDec buf.1 (if neg then -n else n)).map fun (buf, len) =>
    let total : U32 := BitVec.ofNat 32 len + (if neg then 1 else 0)
    (if !f.leftAlign && !f.zeroPad then pad (width - total) (ascii ' ') else []) ++
      (if neg then [ascii '-'] else []) ++
      (if !f.leftAlign && f.zeroPad then pad (width - total) (ascii '0') else []) ++
      buf.take len ++
      (if f.leftAlign then pad (width - total) (ascii ' ') else [])

/-- The cases `'u'`, `'x'` and `'X'`, with the text in front of the digits. -/
def printUnsigned (fmt : List U8 → U64 → Option (List U8 × ℕ)) (head : List U8) (buf : CharBuf 24)
    (f : Flags) (width : U32) (n : U64) : Option (List U8) :=
  (fmt buf.1 n).map fun (buf, len) =>
    let total : U32 := BitVec.ofNat 32 len + BitVec.ofNat 32 head.length
    (if !f.leftAlign then pad (width - total) (if f.zeroPad then ascii '0' else ascii ' ') else []) ++
      head ++ buf.take len ++
      (if f.leftAlign then pad (width - total) (ascii ' ') else [])

/-- The case `'s'`. -/
def printString (f : Flags) (width : U32) (s : Option (List U8)) : List U8 :=
  let s := s.getD ("(null)".toList.map ascii)
  let padding : U32 := width - BitVec.ofNat 32 s.length
  let padding : U32 := if padding.toInt < 0 then 0 else padding
  if f.center then
    let leftPad := padding / 2
    pad leftPad (ascii ' ') ++ s ++ pad (padding - leftPad) (ascii ' ')
  else
    (if !f.leftAlign then pad padding (ascii ' ') else []) ++ s ++
      (if f.leftAlign then pad padding (ascii ' ') else [])

/-- The case `'c'`. -/
def printChar (f : Flags) (width : U32) (c : U32) : List U8 :=
  (if !f.leftAlign then pad (width - 1) (ascii ' ') else []) ++ [c.setWidth 8] ++
    (if f.leftAlign then pad (width - 1) (ascii ' ') else [])

/-- The `switch` : what is sent, and the arguments that are left. There is no result when the argument
is missing or has another type. -/
def directive (buf : CharBuf 24) (f : Flags) (width : U32) (c : U8) (args : List Arg) :
    Option (List U8 × List Arg) :=
  if c = ascii 'd' ∨ c = ascii 'i' then
    match args with
    | .num n :: args => (printSigned buf f width n).map (·, args)
    | _ => none
  else if c = ascii 'u' then
    match args with
    | .num n :: args => (printUnsigned fmtDec [] buf f width n).map (·, args)
    | _ => none
  else if c = ascii 'x' then
    match args with
    | .num n :: args => (printUnsigned fmtHex [] buf f width n).map (·, args)
    | _ => none
  else if c = ascii 'X' then
    match args with
    | .num n :: args => (printUnsigned fmtHex [ascii '0', ascii 'x'] buf f width n).map (·, args)
    | _ => none
  else if c = ascii 'p' then
    match args with
    | .num n :: args => some ([ascii '0', ascii 'x'] ++ puthex64 n, args)
    | _ => none
  else if c = ascii 's' then
    match args with
    | .str s :: args => some (printString f width s, args)
    | _ => none
  else if c = ascii 'c' then
    match args with
    | .int n :: args => some (printChar f width n, args)
    | _ => none
  else if c = ascii '%' then some ([ascii '%'], args)
  else some ([ascii '%', c], args)

theorem parseFlags_length_le : ∀ (f : Flags) (fmt : List U8), (parseFlags f fmt).2.length ≤ fmt.length
  | _, [] => le_rfl
  | f, c :: fmt => by
    have step (f : Flags) : (parseFlags f fmt).2.length ≤ fmt.length + 1 :=
      (parseFlags_length_le f fmt).trans (Nat.le_succ _)
    rw [parseFlags, List.length_cons]
    split_ifs
    · exact step _
    · exact step _
    · exact step _
    · exact le_rfl

theorem parseWidth_length_le : ∀ (w : U32) (fmt : List U8), (parseWidth w fmt).2.length ≤ fmt.length
  | _, [] => le_rfl
  | w, c :: fmt => by
    rw [parseWidth, List.length_cons]
    split_ifs
    · exact (parseWidth_length_le _ fmt).trans (Nat.le_succ _)
    · exact le_rfl

theorem parseSpec_length_le (fmt : List U8) : (parseSpec fmt).2.2.length ≤ fmt.length :=
  (parseWidth_length_le _ _).trans (parseFlags_length_le _ _)

/-- `do_vprintf`. There is no result when the format ends inside a directive, for then it is read past
its end. -/
def doVprintf (buf : CharBuf 24) (fmt : List U8) (args : List Arg) : Option (List U8) :=
  match fmt with
  | [] => some []
  | c :: fmt =>
    if c ≠ ascii '%' then (doVprintf buf fmt args).map (c :: ·)
    else
      match _h : parseSpec fmt with
      | (_, _, []) => none
      | (f, width, c :: rest) =>
        (directive buf f width c args).bind fun (out, args) =>
          (doVprintf buf rest args).map (out ++ ·)
  termination_by fmt.length
  decreasing_by
    · exact Nat.lt_succ_self _
    · have hle := parseSpec_length_le fmt
      rw [_h] at hle
      exact Nat.lt_succ_of_lt hle

end Jeos.Print
