import Mathlib.Logic.Function.Basic
import Jeos.Font

/-!
# The console

`kconsole_init`, `kconsole_clear` and `kconsole_putc` of `kconsole.c`, with the escape sequences,
the glyphs and the scrolling. The framebuffer is its words by number, and every access to it, to
`esc_params` and to `ansi_palette` goes on a list. All coordinates and indices are 32-bit numbers.
-/

set_option linter.unusedSectionVars false

namespace Jeos.Kconsole

/-- `esc_state`. -/
inductive EscState where
  | none
  | esc
  | bracket
  deriving DecidableEq

/-- An access to a word of the framebuffer or to an element of `esc_params` or `ansi_palette`. -/
inductive Access where
  | fb (i : ℕ)
  | param (i : ℕ)
  | palette (i : ℕ)

/-- The variables of the console, the framebuffer, and the accesses so far. -/
structure Console where
  fb : ℕ → U32
  fbWidth : U32
  fbHeight : U32
  fbPitchU32 : U32
  fbCols : U32
  fbRows : U32
  curCol : U32
  curRow : U32
  fgColor : U32
  bgColor : U32
  fgDefault : U32
  bgDefault : U32
  fbReady : Bool
  escState : EscState
  escParams : ℕ → U32
  escNparam : U8
  accesses : List Access

/-- `struct limine_framebuffer`, as far as it is used. -/
structure Framebuffer where
  width : U64
  height : U64
  pitch : U64

/-- `ansi_palette`. -/
def ansiPalette : List U32 :=
  [0x1A1A2E, 0xCC3333, 0x33AA33, 0xCCAA33, 0x3355CC, 0xAA33AA, 0x33AACC, 0xCCCCCC,
   0x555555, 0xFF5555, 0x55FF55, 0xFFFF55, 0x5588FF, 0xFF55FF, 0x55FFFF, 0xFFFFFF]

def palette (i : ℕ) : U32 := ansiPalette.getD i 0

/-- The console before `kconsole_init`. -/
def boot (fb : ℕ → U32) : Console where
  fb := fb
  fbWidth := 0
  fbHeight := 0
  fbPitchU32 := 0
  fbCols := 0
  fbRows := 0
  curCol := 0
  curRow := 0
  fgColor := 0xE0E0E0
  bgColor := 0x1A1A2E
  fgDefault := 0xE0E0E0
  bgDefault := 0x1A1A2E
  fbReady := false
  escState := .none
  escParams := fun _ => 0
  escNparam := 0
  accesses := []

namespace Console

variable (s : Console)

def touch (a : Access) : Console := { s with accesses := a :: s.accesses }

/-- `fb_addr[i] = v`. -/
def store (i : U32) (v : U32) : Console :=
  { s.touch (.fb i.toNat) with fb := Function.update s.fb i.toNat v }

/-- `fb_addr[dst] = fb_addr[src]`. -/
def copyWord (dst src : U32) : Console := (s.touch (.fb src.toNat)).store dst (s.fb src.toNat)

/-! ## Escape sequences -/

/-- The loop for bold of `fb_apply_sgr`, over the indices left. -/
def brighten (s : Console) : List ℕ → Console
  | [] => s
  | j :: js =>
    let s := s.touch (.palette j)
    if s.fgColor = palette j then
      { s.touch (.palette (j + 8)) with fgColor := palette (j + 8) }
    else brighten s js

/-- The body of the loop in `fb_apply_sgr`. -/
def applyParam (p : U32) : Console :=
  if p = 0 then { s with fgColor := s.fgDefault, bgColor := s.bgDefault }
  else if p = 1 then s.brighten (List.range 8)
  else if 30 ≤ p ∧ p ≤ 37 then
    { s.touch (.palette (p - 30).toNat) with fgColor := palette (p - 30).toNat }
  else if 90 ≤ p ∧ p ≤ 97 then
    { s.touch (.palette (p - 90 + 8).toNat) with fgColor := palette (p - 90 + 8).toNat }
  else if 40 ≤ p ∧ p ≤ 47 then
    { s.touch (.palette (p - 40).toNat) with bgColor := palette (p - 40).toNat }
  else if 100 ≤ p ∧ p ≤ 107 then
    { s.touch (.palette (p - 100 + 8).toNat) with bgColor := palette (p - 100 + 8).toNat }
  else s

/-- `esc_params[i] = v`. -/
def setParam (i : ℕ) (v : U32) : Console :=
  { s.touch (.param i) with escParams := Function.update s.escParams i v }

/-- `fb_apply_sgr`. -/
def applySgr : Console :=
  let s := if s.escNparam = 0 then { s.setParam 0 0 with escNparam := 1 } else s
  (List.range s.escNparam.toNat).foldl
    (fun s i => (s.touch (.param i)).applyParam (s.escParams i)) s

/-! ## Pixels -/

/-- `for (u32 x = 0; x < n; x++) fb_addr[base + x] = v(x)`. -/
def storeRow (base : U32) (n : ℕ) (v : ℕ → U32) : Console :=
  (List.range n).foldl (fun s x => s.store (base + BitVec.ofNat 32 x) (v x)) s

/-- `for (u32 x = 0; x < n; x++) fb_addr[dst + x] = fb_addr[src + x]`. -/
def copyRow (dst src : U32) (n : ℕ) : Console :=
  (List.range n).foldl
    (fun s x => s.copyWord (dst + BitVec.ofNat 32 x) (src + BitVec.ofNat 32 x)) s

/-- The colour of pixel `x` in a row of a glyph. -/
def glyphPixel (fg bg : U32) (bits : U8) (x : ℕ) : U32 := if bits &&& (0x80 >>> x) ≠ 0 then fg else bg

/-- `fb_draw_glyph`. -/
def drawGlyph (col row : U32) (ch : U8) : Console :=
  let px := col * 8
  let py := row * 9
  let s := (List.range 8).foldl (fun s y =>
    s.storeRow ((py + BitVec.ofNat 32 y) * s.fbPitchU32 + px) 8
      (glyphPixel s.fgColor s.bgColor (glyphRow ch y))) s
  s.storeRow ((py + 8) * s.fbPitchU32 + px) 8 fun _ => s.bgColor

/-- `fb_scroll`. -/
def scroll : Console :=
  let s := (List.range' 1 (s.fbRows.toNat - 1)).foldl (fun s r =>
    (List.range 9).foldl (fun s y =>
      let r := BitVec.ofNat 32 r
      let y := BitVec.ofNat 32 y
      s.copyRow (((r - 1) * 9 + y) * s.fbPitchU32) ((r * 9 + y) * s.fbPitchU32)
        (s.fbCols * 8).toNat) s) s
  let lastY := (s.fbRows - 1) * 9
  (List.range 9).foldl (fun s y =>
    s.storeRow ((lastY + BitVec.ofNat 32 y) * s.fbPitchU32) (s.fbCols * 8).toNat
      fun _ => s.bgColor) s

/-! ## The interface -/

/-- `kconsole_clear`. -/
def clear : Console :=
  if s.fbReady then
    let s := (List.range s.fbHeight.toNat).foldl (fun s y =>
      s.storeRow (BitVec.ofNat 32 y * s.fbPitchU32) s.fbWidth.toNat fun _ => s.bgColor) s
    { s with curCol := 0, curRow := 0 }
  else s

/-- `kconsole_init`. -/
def init (f : Framebuffer) : Console :=
  let width := f.width.setWidth 32
  let height := f.height.setWidth 32
  clear { s with
    fbWidth := width
    fbHeight := height
    fbPitchU32 := (f.pitch / 4).setWidth 32
    fbCols := width / 8
    fbRows := height / 9
    curCol := 0
    curRow := 0
    fbReady := true }

/-- The cursor goes to the start of the next row, with `fb_scroll` behind the last one. -/
def newline : Console :=
  let s := { s with curCol := 0, curRow := s.curRow + 1 }
  if s.fbRows ≤ s.curRow then { s.scroll with curRow := s.fbRows - 1 } else s

/-- `kconsole_putc` in the state `ESC_BRACKET`. -/
def putcBracket (c : U8) : Console :=
  if 0x30 ≤ c.toInt ∧ c.toInt ≤ 0x39 then
    let n := s.escNparam.toNat
    (s.touch (.param n)).setParam n (s.escParams n * 10 + (c - 0x30).setWidth 32)
  else if c = 0x3B then
    let s := if s.escNparam < 7 then { s with escNparam := s.escNparam + 1 } else s
    s.setParam s.escNparam.toNat 0
  else
    let s := { s with escNparam := s.escNparam + 1 }
    let s := if c = 0x6D then s.applySgr else s
    { s with escState := .none }

/-- `kconsole_putc` in the state `ESC_NONE`. -/
def putcPlain (c : U8) : Console :=
  if c = 0x1B then { s with escState := .esc }
  else if c = 0x0D then { s with curCol := 0 }
  else if c = 0x0A then s.newline
  else if c = 0x08 then
    if 0 < s.curCol then
      let s := { s with curCol := s.curCol - 1 }
      s.drawGlyph s.curCol s.curRow 0x20
    else s
  -- `char` is signed
  else if c.toInt < 0x20 ∨ 0x7E < c.toInt then s
  else
    let s := s.drawGlyph s.curCol s.curRow c
    let s := { s with curCol := s.curCol + 1 }
    if s.fbCols ≤ s.curCol then s.newline else s

/-- `kconsole_putc`. -/
def putc (c : U8) : Console :=
  if s.fbReady then
    match s.escState with
    | .esc =>
      if c = 0x5B then { s.setParam 0 0 with escState := .bracket, escNparam := 0 }
      else { s with escState := .none }
    | .bracket => s.putcBracket c
    | .none => s.putcPlain c
  else s

/-- `kconsole_putc` for each byte. -/
def puts (cs : List U8) : Console := cs.foldl putc s

end Console

end Jeos.Kconsole
