import Jeos.Print

/-!
# What is printed

`putdec`, `puthex`, `fmt_dec` and `fmt_hex` give the numeral of the number (`agree_dec`, `agree_hex`). Each
loop over the digits fills a buffer with the items of `Nat.digits`, and the reversal or the way back
through the buffer puts the highest digit first.

A directive of `do_vprintf` with flags and a width is parsed (`parseSpec_source`) and laid out
(`directive_eq`), with its sign in front of the zeros. A format is printed piece by piece
(`doVprintf_pieces`). `print_faithful` puts them together.
-/

set_option linter.unusedSectionVars false

namespace Jeos.Print

open Buffer Numeral

variable {digit : U64 → U8} {next : U64 → U64} {n : U64} {b k : ℕ}

/-! ## Digits -/

theorem decDigit_eq (n : U64) : decDigit n = digitChar (n.toNat % 10) := by
  have hlt : n.toNat % 10 < 10 := Nat.mod_lt _ (by norm_num)
  refine BitVec.eq_of_toNat_eq ?_
  rw [digitChar_toNat (by omega), if_pos hlt, decDigit, BitVec.toNat_add, BitVec.toNat_setWidth,
    BitVec.toNat_umod]
  change (48 + n.toNat % 10 % 256) % 256 = _
  omega

theorem nibble_toNat (n : U64) : (n &&& 0xF).toNat = n.toNat % 16 := by
  rw [BitVec.toNat_and]
  exact Nat.and_two_pow_sub_one_eq_mod n.toNat 4

theorem nibbleDigit_eq (n : U64) : nibbleDigit ((n &&& 0xF).setWidth 8) = digitChar (n.toNat % 16) := by
  have hlt : n.toNat % 16 < 16 := Nat.mod_lt _ (by norm_num)
  have hset : (n &&& 0xF).setWidth 8 = BitVec.ofNat 8 (n.toNat % 16) := by
    rw [← nibble_toNat, BitVec.ofNat_toNat]
  rw [hset]
  generalize n.toNat % 16 = d at hlt
  interval_cases d <;> rfl

/-- The items of the loop over the digits. -/
theorem yields_digits (hb : 1 < b) (hdigit : ∀ n, digit n = digitChar (n.toNat % b))
    (hnext : ∀ n, (next n).toNat = n.toNat / b) (n : U64) :
    Yields (fun n => 0 < n) digit next n ((Nat.digits b n.toNat).map digitChar) := by
  induction hv : n.toNat using Nat.strong_induction_on generalizing n with
  | _ v ih =>
    subst hv
    by_cases h0 : n.toNat = 0
    · rw [h0, Nat.digits_zero]
      exact Yields.stop (decide_eq_false (by rw [BitVec.lt_def, h0]; exact Nat.lt_irrefl 0))
    · have hpos : 0 < n.toNat := Nat.pos_of_ne_zero h0
      have hrest := ih (next n).toNat (by rw [hnext]; exact Nat.div_lt_self hpos hb) _ rfl
      rw [Nat.digits_def' hb hpos, List.map_cons, ← hdigit, ← hnext]
      exact Yields.step (decide_eq_true (by rwa [BitVec.lt_def])) hrest

theorem toNat_ne_zero (h : n ≠ 0) : n.toNat ≠ 0 := fun h0 => h (BitVec.eq_of_toNat_eq h0)

theorem text_of_ne_zero (h : n ≠ 0) :
    text b n.toNat = ((Nat.digits b n.toNat).map digitChar).reverse := by
  rw [text, if_neg (toNat_ne_zero h), List.map_reverse]

/-- The loop over the digits puts them in front of the buffer. -/
theorem fillFrom_digits (hb : 1 < b) (hdigit : ∀ n, digit n = digitChar (n.toNat % b))
    (hnext : ∀ n, (next n).toNat = n.toNat / b) {buf : List U8} (hn : n.toNat < b ^ buf.length) :
    fillFrom (fun n => 0 < n) digit next buf n =
      some ((Nat.digits b n.toNat).map digitChar ++ buf.drop (Nat.digits b n.toNat).length,
        (Nat.digits b n.toNat).length) := by
  have hle := (Nat.digits_length_le_iff hb n.toNat).2 hn
  rw [fillFrom_eq (yields_digits hb hdigit hnext n) (by rwa [List.length_map]), List.length_map]

/-- The numeral is in front of the buffer, and the rest of the buffer is kept. -/
theorem fmtNumber_eq (hb : 1 < b) (hdigit : ∀ n, digit n = digitChar (n.toNat % b))
    (hnext : ∀ n, (next n).toNat = n.toNat / b) {buf : List U8} (hbuf : 0 < buf.length)
    (hn : n.toNat < b ^ buf.length) :
    fmtNumber digit next buf n =
      some (text b n.toNat ++ buf.drop (text b n.toNat).length, (text b n.toNat).length) := by
  rw [fmtNumber]
  split_ifs with h0
  · obtain ⟨x, buf, rfl⟩ := List.exists_cons_of_length_pos hbuf
    rw [h0]
    rfl
  · have hlen : (text b n.toNat).length = (Nat.digits b n.toNat).length := by
      rw [text_of_ne_zero h0, List.length_reverse, List.length_map]
    rw [fillFrom_digits hb hdigit hnext hn, Option.bind_some]
    dsimp only
    rw [reverseFirst_eq (by simp), Option.map_some, List.take_left' (List.length_map _),
      List.drop_left' (List.length_map _), ← text_of_ne_zero h0, hlen]

/-- `fmt_dec`. -/
theorem fmtDec_eq (buf : CharBuf 24) (n : U64) : fmtDec buf.1 n =
    some (text 10 n.toNat ++ buf.1.drop (text 10 n.toNat).length, (text 10 n.toNat).length) := by
  refine fmtNumber_eq (by norm_num) decDigit_eq (fun _ => BitVec.toNat_udiv) ?_ ?_
  · rw [buf.2]
    norm_num
  · rw [buf.2]
    exact n.isLt.trans_le (by norm_num)

/-- `fmt_hex`. -/
theorem fmtHex_eq (buf : CharBuf 24) (n : U64) : fmtHex buf.1 n =
    some (text 16 n.toNat ++ buf.1.drop (text 16 n.toNat).length, (text 16 n.toNat).length) := by
  refine fmtNumber_eq (by norm_num) nibbleDigit_eq (fun n => ?_) ?_ ?_
  · rw [BitVec.toNat_ushiftRight, Nat.shiftRight_eq_div_pow]
  · rw [buf.2]
    norm_num
  · rw [buf.2]
    exact n.isLt.trans_le (by norm_num)

/-- `putdec`. -/
theorem putdec_eq (buf : CharBuf 20) (n : U64) : putdec buf n = some (text 10 n.toNat) := by
  rw [putdec]
  split_ifs with h0
  · rw [h0]
    rfl
  · rw [fillFrom_digits (by norm_num) decDigit_eq (fun _ => BitVec.toNat_udiv), Option.bind_some]
    · have hdown := @emitDown_eq _ ((Nat.digits 10 n.toNat).map digitChar)
        (buf.1.drop (Nat.digits 10 n.toNat).length)
      rw [List.length_map] at hdown
      rw [text_of_ne_zero h0]
      exact hdown
    · rw [buf.2]
      exact n.isLt.trans_le (by norm_num)

/-! ## puthex -/

theorem shiftedNibble (n : U64) (i : ℕ) : (n >>> (i * 4)).toNat = n.toNat / 16 ^ i := by
  rw [BitVec.toNat_ushiftRight, Nat.shiftRight_eq_div_pow, Nat.mul_comm, Nat.pow_mul]

/-- The lowest `k` digits. -/
theorem puthexN_eq (n : U64) : ∀ k, puthexN n k =
    ((List.range k).map fun i => digitChar (n.toNat / 16 ^ i % 16)).reverse
  | 0 => rfl
  | k + 1 => by
    rw [puthexN, puthexN_eq n k, nibbleDigit_eq, shiftedNibble, List.range_succ, List.map_append,
      List.reverse_append]
    rfl

theorem digits_eq_range (v : ℕ) :
    Nat.digits 16 v = (List.range (Nat.digits 16 v).length).map fun i => v / 16 ^ i % 16 := by
  refine List.ext_getElem (by simp) fun i hi _ => ?_
  rw [List.getElem_map, List.getElem_range, ← Nat.getD_digits v i (by norm_num),
    List.getD_eq_getElem _ _ hi]

/-- The loop finds the number of digits. -/
theorem hexDigits_eq (h0 : n.toNat ≠ 0) : ∀ {k : ℕ}, n.toNat < 16 ^ k →
    hexDigits n k = (Nat.digits 16 n.toNat).length
  | 0, h => absurd (Nat.lt_one_iff.1 h) h0
  | k + 1, h => by
    rw [hexDigits]
    have hdiv : n.toNat / 16 ^ k < 16 := Nat.div_lt_of_lt_mul (by rwa [← Nat.pow_succ])
    have hnibble : (n >>> (k * 4) &&& 0xF = 0) ↔ n.toNat < 16 ^ k := by
      rw [← BitVec.toNat_inj, nibble_toNat, shiftedNibble, Nat.mod_eq_of_lt hdiv]
      exact Nat.div_eq_zero_iff_lt (by positivity)
    have hle := (Nat.digits_length_le_iff (by norm_num) n.toNat).2 h
    split_ifs with hc
    · exact hexDigits_eq h0 (hnibble.1 hc.2)
    · have hlow : k < (Nat.digits 16 n.toNat).length := by
        rw [Nat.lt_digits_length_iff (by norm_num)]
        by_contra hlt
        rw [hnibble] at hc
        rcases k with _ | k
        · exact h0 (by omega)
        · exact hc ⟨by omega, by omega⟩
      omega

/-- `puthex`. -/
theorem puthex_eq (n : U64) : puthex n = text 16 n.toNat := by
  rw [puthex]
  split_ifs with h0
  · rw [h0]
    rfl
  · rw [hexDigits_eq (toNat_ne_zero h0) (n.isLt.trans_le (by norm_num)), puthexN_eq, text_of_ne_zero h0]
    conv_rhs => rw [digits_eq_range, List.map_map]
    rfl

/-! ## Directives -/

inductive Flag where
  | minus
  | zero
  | caret
  deriving DecidableEq

def Flag.char : Flag → U8
  | minus => ascii '-'
  | zero => ascii '0'
  | caret => ascii '^'

inductive Conversion where
  | d
  | u
  | x
  deriving DecidableEq

def Conversion.char : Conversion → U8
  | d => ascii 'd'
  | u => ascii 'u'
  | x => ascii 'x'

/-- The number that an argument stands for. -/
def Conversion.value : Conversion → U64 → ℤ
  | d, n => n.toInt
  | u, n | x, n => n.toNat

/-- The base of the numeral. -/
def Conversion.base : Conversion → ℕ
  | d | u => 10
  | x => 16

/-- A directive for a number, with its argument. A width of 0 is left out. -/
structure Directive where
  flags : List Flag
  width : ℕ
  width_lt : width < 2 ^ 31
  conversion : Conversion
  arg : U64

namespace Directive

/-- The directive in the format. -/
def source (d : Directive) : List U8 :=
  ascii '%' :: (d.flags.map Flag.char ++
    ((if d.width = 0 then [] else text 10 d.width) ++ [d.conversion.char]))

def value (d : Directive) : ℤ := d.conversion.value d.arg

def sign (d : Directive) : List U8 := if d.value < 0 then [ascii '-'] else []

def digits (d : Directive) : List U8 := text d.conversion.base d.value.natAbs

/-- The number of characters that are missing for the width. -/
def missing (d : Directive) : ℕ := d.width - (d.sign ++ d.digits).length

/-- The numeral with its sign : on the left of the width, or with zeros between sign and digits, or on
the right of the width. -/
def output (d : Directive) : List U8 :=
  if .minus ∈ d.flags then d.sign ++ d.digits ++ List.replicate d.missing (ascii ' ')
  else if .zero ∈ d.flags ∧ .caret ∉ d.flags then
    d.sign ++ List.replicate d.missing (ascii '0') ++ d.digits
  else List.replicate d.missing (ascii ' ') ++ d.sign ++ d.digits

/-- The number that is read from an output. -/
def readBack (c : Conversion) (out : List U8) : ℤ :=
  match c with
  | .d => intValue (out.filter (· ≠ ascii ' '))
  | .u => Numeral.value 10 (out.filter (· ≠ ascii ' '))
  | .x => Numeral.value 16 (out.filter (· ≠ ascii ' '))

end Directive

/-! ## Parsing -/

/-- The flags of a directive, as `do_vprintf` has them. -/
def flagsOf (f : Flags) (fs : List Flag) : Flags :=
  ⟨f.leftAlign || decide (.minus ∈ fs), f.zeroPad || decide (.zero ∈ fs),
    f.center || decide (.caret ∈ fs)⟩

theorem parseFlags_eq {c : U8} (hc : ∀ f : Flag, c ≠ f.char) (fmt : List U8) :
    ∀ (fs : List Flag) (f : Flags),
      parseFlags f (fs.map Flag.char ++ c :: fmt) = (flagsOf f fs, c :: fmt)
  | [], f => by
    have hminus : c ≠ ascii '-' := hc .minus
    have hzero : c ≠ ascii '0' := hc .zero
    have hcaret : c ≠ ascii '^' := hc .caret
    rw [List.map_nil, List.nil_append, parseFlags, if_neg hminus, if_neg hzero, if_neg hcaret]
    simp [flagsOf]
  | g :: fs, f => by
    rw [List.map_cons, List.cons_append, parseFlags]
    cases g with
    | minus =>
      rw [Flag.char, if_pos rfl, parseFlags_eq hc fmt fs]
      simp [flagsOf]
    | zero =>
      rw [Flag.char, if_neg (by decide), if_pos rfl, parseFlags_eq hc fmt fs]
      simp [flagsOf]
    | caret =>
      rw [Flag.char, if_neg (by decide), if_neg (by decide), if_pos rfl, parseFlags_eq hc fmt fs]
      simp [flagsOf]

theorem digit_bounds {d : ℕ} (hd : d < 10) :
    (ascii '0' ≤ digitChar d ∧ digitChar d ≤ ascii '9') ∧
      (digitChar d - ascii '0').setWidth 32 = BitVec.ofNat 32 d := by
  interval_cases d <;> decide

/-- The digits of the width are read up to the next character. -/
theorem parseWidth_eq {c : U8} (hc : ¬(ascii '0' ≤ c ∧ c ≤ ascii '9')) (fmt : List U8) :
    ∀ (cs : List U8), (∀ c ∈ cs, ∃ d < 10, c = digitChar d) → ∀ a : ℕ,
      parseWidth (BitVec.ofNat 32 a) (cs ++ c :: fmt) =
        (BitVec.ofNat 32 (cs.foldl (fun a c => a * 10 + digitValue c) a), c :: fmt)
  | [], _, a => by rw [List.nil_append, parseWidth, if_neg hc, List.foldl_nil]
  | _ :: cs, h, a => by
    rw [List.forall_mem_cons] at h
    obtain ⟨⟨d, hd, rfl⟩, h⟩ := h
    obtain ⟨hin, hval⟩ := digit_bounds hd
    rw [List.cons_append, parseWidth, if_pos hin, hval, List.foldl_cons,
      digitValue_digitChar (by omega), ← parseWidth_eq hc fmt cs h (a * 10 + d), BitVec.ofNat_add,
      BitVec.ofNat_mul]
    rfl

theorem Conversion.char_ne_flag (c : Conversion) (f : Flag) : c.char ≠ f.char := by
  cases c <;> cases f <;> decide

theorem Conversion.char_not_digit (c : Conversion) : ¬(ascii '0' ≤ c.char ∧ c.char ≤ ascii '9') := by
  cases c <;> decide

namespace Directive

variable (d : Directive)

/-- The text of the width and what is behind it. -/
def widthText : List U8 := if d.width = 0 then [] else text 10 d.width

/-- No flag is behind the flags : the width has no 0 in front. -/
theorem exists_head (fmt : List U8) : ∃ c fmt', d.widthText ++ d.conversion.char :: fmt = c :: fmt' ∧
    ∀ f : Flag, c ≠ f.char := by
  rw [widthText]
  split_ifs with h0
  · exact ⟨_, _, rfl, d.conversion.char_ne_flag⟩
  · obtain ⟨c, cs, hcs⟩ := List.exists_cons_of_ne_nil (text_ne_nil 10 d.width)
    refine ⟨c, cs ++ d.conversion.char :: fmt, by rw [hcs]; rfl, ?_⟩
    have hhead : c ≠ digitChar 0 := fun hc =>
      h0 ((text_head (b := 10) (by norm_num) (by norm_num)).1 (by rw [hcs, hc]; rfl))
    have hmem : c ∈ text 10 d.width := by
      rw [hcs]
      exact List.mem_cons_self
    obtain ⟨e, he, rfl⟩ := exists_digit_of_mem_text (by norm_num) hmem
    intro f
    interval_cases e
    · exact absurd rfl hhead
    all_goals cases f <;> decide

theorem parseWidth_widthText (fmt : List U8) :
    parseWidth 0 (d.widthText ++ d.conversion.char :: fmt) =
      (BitVec.ofNat 32 d.width, d.conversion.char :: fmt) := by
  rw [widthText]
  split_ifs with h0
  · rw [h0, List.nil_append]
    exact parseWidth_eq d.conversion.char_not_digit fmt [] (by simp) 0
  · have hread := parseWidth_eq d.conversion.char_not_digit fmt (text 10 d.width)
      (fun c hc => exists_digit_of_mem_text (by norm_num) hc) 0
    have hvalue : (text 10 d.width).foldl (fun a c => a * 10 + digitValue c) 0 = d.width :=
      value_text (by norm_num) (by norm_num) d.width
    rwa [hvalue] at hread

/-- The flags behind the loop : `-` and `^` take `0` away. -/
def effective : Flags :=
  ⟨decide (.minus ∈ d.flags), decide (.zero ∈ d.flags ∧ .minus ∉ d.flags ∧ .caret ∉ d.flags),
    decide (.caret ∈ d.flags)⟩

theorem parseSpec_source (fmt : List U8) :
    parseSpec (d.flags.map Flag.char ++ (d.widthText ++ d.conversion.char :: fmt)) =
      (d.effective, BitVec.ofNat 32 d.width, d.conversion.char :: fmt) := by
  have hflags : parseFlags ⟨false, false, false⟩
      (d.flags.map Flag.char ++ (d.widthText ++ d.conversion.char :: fmt)) =
      (flagsOf ⟨false, false, false⟩ d.flags, d.widthText ++ d.conversion.char :: fmt) := by
    obtain ⟨c, fmt', heq, hc⟩ := d.exists_head fmt
    rw [heq, parseFlags_eq hc]
  rw [parseSpec, hflags]
  dsimp only
  rw [parseWidth_widthText]
  congr 1
  rw [flagsOf, effective]
  by_cases hm : Flag.minus ∈ d.flags <;> by_cases hc : Flag.caret ∈ d.flags <;> simp [hm, hc]

end Directive

/-! ## Padding -/

/-- The padding to a width, for a text of `t` characters. -/
theorem pad_sub {w t : ℕ} (hw : w < 2 ^ 31) (ht : t < 2 ^ 31) (c : U8) :
    pad (BitVec.ofNat 32 w - BitVec.ofNat 32 t) c = List.replicate (w - t) c := by
  rw [pad]
  congr 1
  rw [BitVec.toInt_eq_toNat_cond, BitVec.toNat_sub, BitVec.toNat_ofNat, BitVec.toNat_ofNat]
  split_ifs <;> omega

/-- The parts of an output, with `k` characters for the padding. -/
def layout (f : Flags) (k : ℕ) (sign digits : List U8) : List U8 :=
  if f.leftAlign then sign ++ digits ++ List.replicate k (ascii ' ')
  else if f.zeroPad then sign ++ List.replicate k (ascii '0') ++ digits
  else List.replicate k (ascii ' ') ++ sign ++ digits

theorem length_text_le {b : ℕ} (hb : 1 < b) (hlarge : 2 ^ 64 ≤ b ^ 24) {v : ℕ} (hv : v < 2 ^ 64) :
    (text b v).length ≤ 24 := text_length_le hb (by norm_num) (hv.trans_le hlarge)

theorem printUnsigned_eq {fmt : List U8 → U64 → Option (List U8 × ℕ)} {buf : CharBuf 24} {n : U64}
    {cs rest : List U8} (hfmt : fmt buf.1 n = some (cs ++ rest, cs.length)) (hcs : cs.length ≤ 24)
    (f : Flags) {w : ℕ} (hw : w < 2 ^ 31) :
    printUnsigned fmt [] buf f (BitVec.ofNat 32 w) n = some (layout f (w - cs.length) [] cs) := by
  rw [printUnsigned, hfmt, Option.map_some]
  congr 1
  have hpad := pad_sub hw (lt_of_le_of_lt hcs (by norm_num) : cs.length < 2 ^ 31)
  simp only [List.length_nil, BitVec.add_zero, List.take_left, hpad, layout]
  obtain ⟨l, z, c⟩ := f
  cases l <;> cases z <;> simp

/-- The number that `case 'd'` formats. The least one is its own negative, and `2 ^ 63` as a `u64`. -/
theorem abs_toNat (n : U64) :
    (if decide (n.toInt < 0) = true then -n else n).toNat = n.toInt.natAbs := by
  rw [BitVec.toInt_eq_toNat_cond]
  have hlt := n.isLt
  split_ifs with h1 h2 h2
  · exact absurd (of_decide_eq_true h2) (by omega)
  · rfl
  · rw [BitVec.toNat_neg]
    omega
  · exact absurd h2 (by simp; omega)

theorem printSigned_eq (buf : CharBuf 24) (f : Flags) {w : ℕ} (hw : w < 2 ^ 31) (n : U64) :
    printSigned buf f (BitVec.ofNat 32 w) n =
      some (layout f (w - ((if n.toInt < 0 then [ascii '-'] else []) ++ text 10 n.toInt.natAbs).length)
        (if n.toInt < 0 then [ascii '-'] else []) (text 10 n.toInt.natAbs)) := by
  have hlen : (text 10 n.toInt.natAbs).length ≤ 24 := by
    rw [← abs_toNat]
    exact length_text_le (by norm_num) (by norm_num) (BitVec.isLt _)
  rw [printSigned]
  dsimp only
  rw [fmtDec_eq, Option.map_some, abs_toNat]
  dsimp only
  rw [List.take_left]
  congr 1
  generalize text 10 n.toInt.natAbs = cs at hlen
  obtain ⟨l, z, c⟩ := f
  by_cases hn : n.toInt < 0
  · have hpad := pad_sub hw (by omega : cs.length + 1 < 2 ^ 31)
    rw [BitVec.ofNat_add] at hpad
    simp only [hn, decide_true, if_true, layout]
    cases l <;> cases z <;> simp [hpad]
  · have hpad := pad_sub hw (by omega : cs.length < 2 ^ 31)
    simp only [hn, decide_false, Bool.false_eq_true, if_false, layout]
    cases l <;> cases z <;> simp [hpad]

/-! ## Runs -/

namespace Directive

variable (d : Directive)

theorem output_eq : d.output = layout d.effective d.missing d.sign d.digits := by
  rw [output, layout, effective]
  by_cases hm : Flag.minus ∈ d.flags <;> simp [hm]

/-- What the `switch` sends for a directive. -/
theorem directive_eq (buf : CharBuf 24) (args : List Arg) :
    directive buf d.effective (BitVec.ofNat 32 d.width) d.conversion.char (.num d.arg :: args) =
      some (d.output, args) := by
  obtain ⟨flags, width, hw, conversion, arg⟩ := d
  rw [output_eq, missing, sign, digits, value]
  cases conversion with
  | d =>
    change (printSigned buf _ _ arg).map (·, args) = _
    rw [printSigned_eq buf _ hw]
    rfl
  | u =>
    change (printUnsigned fmtDec [] buf _ _ arg).map (·, args) = _
    rw [printUnsigned_eq (fmtDec_eq buf arg) (length_text_le (by norm_num) (by norm_num) arg.isLt) _ hw]
    rfl
  | x =>
    change (printUnsigned fmtHex [] buf _ _ arg).map (·, args) = _
    rw [printUnsigned_eq (fmtHex_eq buf arg) (length_text_le (by norm_num) (by norm_num) arg.isLt) _ hw]
    rfl

/-- A directive in front of a format : its output comes first, and the rest is printed with the other
arguments. -/
theorem doVprintf_source (buf : CharBuf 24) (fmt : List U8) (args : List Arg) :
    doVprintf buf (d.source ++ fmt) (.num d.arg :: args) =
      (doVprintf buf fmt args).map (d.output ++ ·) := by
  have hspec := d.parseSpec_source fmt
  have hsource : d.source ++ fmt =
      ascii '%' :: (d.flags.map Flag.char ++ (d.widthText ++ d.conversion.char :: fmt)) := by
    rw [source, widthText]
    simp
  rw [hsource, doVprintf, if_neg (not_not.2 rfl)]
  split
  · next heq => exact absurd (congrArg (fun t => t.2.2) (hspec.symm.trans heq)) (List.cons_ne_nil _ _)
  · next f w c rest heq =>
    obtain ⟨rfl, htail⟩ := Prod.mk.inj (hspec.symm.trans heq)
    obtain ⟨rfl, hcons⟩ := Prod.mk.inj htail
    obtain ⟨rfl, rfl⟩ := List.cons.inj hcons
    rw [d.directive_eq, Option.bind_some]

/-- The width is filled. -/
theorem length_output : d.output.length = max d.width (d.sign ++ d.digits).length := by
  have hmissing : d.missing + (d.sign ++ d.digits).length =
      max d.width (d.sign ++ d.digits).length := by
    rw [missing]
    omega
  rw [← hmissing, output, List.length_append]
  split_ifs
  · simp only [List.length_append, List.length_replicate]
    omega
  · simp only [List.length_append, List.length_replicate]
    omega
  · simp only [List.length_append, List.length_replicate]
    omega

end Directive

/-- A part of a format : a character, or a directive for a number with its argument. -/
inductive Piece where
  | char (c : U8) (h : c ≠ ascii '%')
  | number (d : Directive)

namespace Piece

def source : Piece → List U8
  | char c _ => [c]
  | number d => d.source

def args : Piece → List Arg
  | char _ _ => []
  | number d => [.num d.arg]

def output : Piece → List U8
  | char c _ => [c]
  | number d => d.output

end Piece

/-- A format is printed piece by piece. -/
theorem doVprintf_pieces (buf : CharBuf 24) : ∀ ps : List Piece,
    doVprintf buf (ps.flatMap Piece.source) (ps.flatMap Piece.args) = some (ps.flatMap Piece.output)
  | [] => by
    rw [List.flatMap_nil, List.flatMap_nil, List.flatMap_nil, doVprintf]
  | .char c h :: ps => by
    rw [List.flatMap_cons, List.flatMap_cons, List.flatMap_cons]
    change doVprintf buf (c :: ps.flatMap Piece.source) (ps.flatMap Piece.args) = _
    rw [doVprintf, if_pos h, doVprintf_pieces buf ps]
    rfl
  | .number d :: ps => by
    rw [List.flatMap_cons, List.flatMap_cons, List.flatMap_cons]
    change doVprintf buf (d.source ++ ps.flatMap Piece.source) (.num d.arg :: ps.flatMap Piece.args) = _
    rw [d.doVprintf_source, doVprintf_pieces buf ps]
    rfl

/-! ## The number in an output -/

theorem text_no_space {b v : ℕ} (hb : 1 < b) (hb16 : b ≤ 16) {c : U8} (hc : c ∈ text b v) :
    c ≠ ascii ' ' := by
  rintro rfl
  have hmem := mem_text hb hb16 hc
  have hspace : (ascii ' ').toNat = 32 := rfl
  omega

theorem filter_spaces (k : ℕ) : (List.replicate k (ascii ' ')).filter (· ≠ ascii ' ') = [] := by
  simp

theorem filter_zeros (k : ℕ) :
    (List.replicate k (ascii '0')).filter (· ≠ ascii ' ') = List.replicate k (ascii '0') := by
  rw [List.filter_eq_self]
  intro c hc
  rw [List.eq_of_mem_replicate hc]
  decide

theorem value_zeros_text {b : ℕ} (hb : 1 < b) (hb16 : b ≤ 16) (k v : ℕ) :
    Numeral.value b (List.replicate k (ascii '0') ++ text b v) = v :=
  (value_zeros _ k).trans (value_text hb hb16 v)

theorem head_zeros_text {b : ℕ} (hb : 1 < b) (hb16 : b ≤ 16) (v : ℕ) : ∀ k,
    (List.replicate k (ascii '0') ++ text b v).head? ≠ some 45
  | 0 => head_text_ne_minus hb hb16
  | _ + 1 => by
    rw [List.replicate_succ, List.cons_append, List.head?_cons]
    decide

namespace Directive

variable (d : Directive)

/-- Without the spaces there are the sign, zeros and the digits. -/
theorem exists_zeros : ∃ k, d.output.filter (· ≠ ascii ' ') =
    d.sign ++ List.replicate k (ascii '0') ++ d.digits := by
  have hsign : d.sign.filter (· ≠ ascii ' ') = d.sign := by
    rw [sign]
    split_ifs <;> rfl
  have hdigits : d.digits.filter (· ≠ ascii ' ') = d.digits := by
    rw [List.filter_eq_self]
    intro c hc
    refine decide_eq_true (text_no_space ?_ ?_ hc)
    · cases d.conversion <;> decide
    · cases d.conversion <;> decide
  rw [output]
  split_ifs
  · exact ⟨0, by simp only [List.filter_append, filter_spaces, hsign, hdigits]; simp⟩
  · exact ⟨d.missing, by simp only [List.filter_append, filter_zeros, hsign, hdigits]⟩
  · exact ⟨0, by simp only [List.filter_append, filter_spaces, hsign, hdigits]; simp⟩

/-- The number can be read from the output. -/
theorem readBack_output : readBack d.conversion d.output = d.value := by
  obtain ⟨k, hk⟩ := d.exists_zeros
  obtain ⟨flags, width, hw, conversion, arg⟩ := d
  cases conversion with
  | d =>
    change intValue _ = arg.toInt
    rw [hk]
    change intValue ((if arg.toInt < 0 then [ascii '-'] else []) ++ List.replicate k (ascii '0') ++
      text 10 arg.toInt.natAbs) = _
    split_ifs with hneg
    · rw [List.append_assoc, List.singleton_append, intValue, if_pos (show ascii '-' = 45 from rfl),
        value_zeros_text (by norm_num) (by norm_num)]
      omega
    · rw [List.nil_append, intValue_of_head (head_zeros_text (by norm_num) (by norm_num) _ k),
        value_zeros_text (by norm_num) (by norm_num)]
      omega
  | u =>
    have hsign : ¬((arg.toNat : ℤ) < 0) := by omega
    change (Numeral.value 10 _ : ℤ) = arg.toNat
    rw [hk]
    change (Numeral.value 10 ((if (arg.toNat : ℤ) < 0 then [ascii '-'] else []) ++
      List.replicate k (ascii '0') ++ text 10 arg.toNat) : ℤ) = _
    rw [if_neg hsign, List.nil_append, value_zeros_text (by norm_num) (by norm_num)]
  | x =>
    have hsign : ¬((arg.toNat : ℤ) < 0) := by omega
    change (Numeral.value 16 _ : ℤ) = arg.toNat
    rw [hk]
    change (Numeral.value 16 ((if (arg.toNat : ℤ) < 0 then [ascii '-'] else []) ++
      List.replicate k (ascii '0') ++ text 16 arg.toNat) : ℤ) = _
    rw [if_neg hsign, List.nil_append, value_zeros_text (by norm_num) (by norm_num)]

end Directive

/-! ## Faithful output -/

/-- A number comes out in the same way from both implementations : as its numeral, which is in front of the
buffer with room to spare, and does not change the rest of it. -/
structure Agree (b : ℕ) (fmt : List U8 → U64 → Option (List U8 × ℕ)) (sent : Option (List U8))
    (n : U64) (cs : List U8) : Prop where
  numeral : Canonical b n.toNat cs
  room : cs.length ≤ 24
  fmt_eq : ∀ buf : CharBuf 24, fmt buf.1 n = some (cs ++ buf.1.drop cs.length, cs.length)
  sent_eq : sent = some cs

theorem agree_dec (buf : CharBuf 20) (n : U64) : Agree 10 fmtDec (putdec buf n) n (text 10 n.toNat) where
  numeral := canonical_text (by norm_num) (by norm_num) _
  room := length_text_le (by norm_num) (by norm_num) n.isLt
  fmt_eq buf := fmtDec_eq buf n
  sent_eq := putdec_eq buf n

theorem agree_hex (n : U64) : Agree 16 fmtHex (some (puthex n)) n (text 16 n.toNat) where
  numeral := canonical_text (by norm_num) (by norm_num) _
  room := length_text_le (by norm_num) (by norm_num) n.isLt
  fmt_eq buf := fmtHex_eq buf n
  sent_eq := congrArg some (puthex_eq n)

/-- Numbers are printed faithfully : both implementations give the numeral, and for every format with texts
and directives for numbers the output of each directive fills its width and has the number in it. -/
theorem print_faithful :
    (∀ (buf : CharBuf 20) (n : U64), ∃ cs, Agree 10 fmtDec (putdec buf n) n cs) ∧
    (∀ n : U64, ∃ cs, Agree 16 fmtHex (some (puthex n)) n cs) ∧
    (∀ (buf : CharBuf 24) (ps : List Piece),
      doVprintf buf (ps.flatMap Piece.source) (ps.flatMap Piece.args) =
        some (ps.flatMap Piece.output)) ∧
    ∀ d : Directive, d.output.length = max d.width (d.sign ++ d.digits).length ∧
      Directive.readBack d.conversion d.output = d.value :=
  ⟨fun buf n => ⟨_, agree_dec buf n⟩, fun n => ⟨_, agree_hex n⟩, doVprintf_pieces,
    fun d => ⟨d.length_output, d.readBack_output⟩⟩

end Jeos.Print
