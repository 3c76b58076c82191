import Mathlib.Tactic.Common
import Jeos.Console

/-!
# The terminal

What the console is for, without pixels : a grid of cells, each with a character and two colours, a
cursor, and the escape sequence read so far. `Terminal.put` is the meaning of a byte. The parameters
of a sequence for colours count as `effective` says : all of them, or only those that eight numbers
of 32 bits can hold (`kept`).
-/

set_option linter.unusedSectionVars false

namespace Jeos.Kconsole

/-- A colour by its name. -/
inductive Color where
  | default
  | dark (k : Fin 8)
  | bright (k : Fin 8)
  deriving DecidableEq

namespace Color

/-- The colour as a foreground. -/
def foreground : Color → U32
  | .default => 0xE0E0E0
  | .dark k => palette k
  | .bright k => palette (k + 8)

/-- The colour as a background. -/
def background : Color → U32
  | .default => 0x1A1A2E
  | .dark k => palette k
  | .bright k => palette (k + 8)

def bold : Color → Color
  | .dark k => .bright k
  | c => c

end Color

structure Cell where
  char : U8
  fg : Color
  bg : Color

namespace Cell

def blank (fg bg : Color) : Cell := ⟨0x20, fg, bg⟩

/-- Pixel `(x, y)` of a cell : the glyph, and a row of background below it. -/
def pixel (c : Cell) (x y : ℕ) : U32 :=
  if y < 8 then Console.glyphPixel c.fg.foreground c.bg.background (glyphRow c.char y) x
  else c.bg.background

end Cell

/-- The escape sequence so far, with the parameters that are complete and the one that is read. -/
inductive Parser where
  | ground
  | escape
  | csi (params : List ℕ) (last : ℕ)
  deriving DecidableEq

/-- The grid by rows and columns, the cursor, the colours and the parser. -/
structure Terminal where
  cell : ℕ → ℕ → Cell
  row : ℕ
  col : ℕ
  fg : Color
  bg : Color
  parser : Parser

/-- The first seven parameters and the last one, as numbers of 32 bits. -/
def kept (params : List ℕ) : List ℕ :=
  (params.take 7 ++ (params.drop 7).getLast?.toList).map (· % 2 ^ 32)

namespace Terminal

variable (rows cols : ℕ) (effective : List ℕ → List ℕ) (t : Terminal)

def start : Terminal where
  cell := fun _ _ => .blank .default .default
  row := 0
  col := 0
  fg := .default
  bg := .default
  parser := .ground

/-- The character `c` in the cell of the cursor. -/
def write (c : U8) : Terminal :=
  { t with cell := fun r k => if r = t.row ∧ k = t.col then ⟨c, t.fg, t.bg⟩ else t.cell r k }

/-- The start of the next row, with the grid one row up behind the last one. -/
def lineFeed : Terminal :=
  if t.row + 1 < rows then { t with row := t.row + 1, col := 0 }
  else { t with
    col := 0
    cell := fun r k => if r + 1 < rows then t.cell (r + 1) k else .blank t.fg t.bg }

/-- A parameter of a sequence for colours. -/
def sgr (t : Terminal) (p : ℕ) : Terminal :=
  if p = 0 then { t with fg := .default, bg := .default }
  else if p = 1 then { t with fg := t.fg.bold }
  else if h : 30 ≤ p ∧ p ≤ 37 then { t with fg := .dark ⟨p - 30, by omega⟩ }
  else if h : 90 ≤ p ∧ p ≤ 97 then { t with fg := .bright ⟨p - 90, by omega⟩ }
  else if h : 40 ≤ p ∧ p ≤ 47 then { t with bg := .dark ⟨p - 40, by omega⟩ }
  else if h : 100 ≤ p ∧ p ≤ 107 then { t with bg := .bright ⟨p - 100, by omega⟩ }
  else t

/-- A byte outside of escape sequences. -/
def putGround (c : U8) : Terminal :=
  if c = 0x1B then { t with parser := .escape }
  else if c = 0x0D then { t with col := 0 }
  else if c = 0x0A then t.lineFeed rows
  else if c = 0x08 then
    if 0 < t.col then write { t with col := t.col - 1 } 0x20 else t
  else if 0x20 ≤ c.toNat ∧ c.toNat ≤ 0x7E then
    if t.col + 1 < cols then { t.write c with col := t.col + 1 } else (t.write c).lineFeed rows
  else t

/-- A byte of a sequence after its bracket. -/
def putCsi (params : List ℕ) (last : ℕ) (c : U8) : Terminal :=
  if 0x30 ≤ c.toNat ∧ c.toNat ≤ 0x39 then
    { t with parser := .csi params (last * 10 + (c.toNat - 0x30)) }
  else if c = 0x3B then { t with parser := .csi (params ++ [last]) 0 }
  else if c = 0x6D then { (effective (params ++ [last])).foldl sgr t with parser := .ground }
  else { t with parser := .ground }

/-- The meaning of a byte. -/
def put (c : U8) : Terminal :=
  match t.parser with
  | .ground => t.putGround rows cols c
  | .escape => { t with parser := if c = 0x5B then .csi [] 0 else .ground }
  | .csi params last => t.putCsi effective params last c

/-- The meaning of each byte. -/
def feed (cs : List U8) : Terminal := cs.foldl (put rows cols effective) t

/-- The screen of the terminal, by its pixels. -/
def pixel (x y : ℕ) : U32 := (t.cell (y / 9) (x / 8)).pixel (x % 8) (y % 9)

end Terminal

end Jeos.Kconsole
