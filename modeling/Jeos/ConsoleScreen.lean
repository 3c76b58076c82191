import Jeos.ConsoleBounds
import Jeos.Terminal

/-!
# The screen renders the terminal

After any bytes the text area shows the grid of the terminal that gets the same bytes
(`screen_renders_terminal`), where of a long list of parameters the first seven and the last one
count. It rests on `Shows`, which relates the console and the terminal and is kept by every byte
(`Shows.putc`). With all parameters counted, or with words beyond 32-bit indices, the screen shows
something else (`screen_differs`).
-/

set_option linter.unusedSectionVars false

namespace Jeos.Kconsole

open Raster

/-! ## Bytes and parameters -/

/-- The signed comparisons of `kconsole_putc` select ASCII characters. -/
theorem toInt_between (c : U8) (lo : ℕ) {hi : ℕ} (hhi : hi < 128) :
    (lo : ℤ) ≤ c.toInt ∧ c.toInt ≤ hi ↔ lo ≤ c.toNat ∧ c.toNat ≤ hi := by
  have hc := c.isLt
  rw [BitVec.toInt_eq_toNat_cond]
  split <;> omega

/-- The parameters that are kept, with the one that is read last. -/
theorem kept_append (params : List ℕ) (last : ℕ) :
    kept (params ++ [last]) = (params.take 7 ++ [last]).map (· % 2 ^ 32) := by
  unfold kept
  rcases Nat.lt_or_ge params.length 7 with h | h
  · rw [List.take_of_length_le (by simp; omega), List.drop_eq_nil_of_le (by simp; omega),
      List.take_of_length_le h.le]
    simp
  · rw [List.take_append_of_le_length h, List.drop_append_of_le_length h, List.getLast?_concat]
    rfl

namespace Terminal

variable (t : Terminal)

/-- A parameter changes the colours only. -/
theorem sgr_eq (p : ℕ) : t.sgr p = { t with fg := (t.sgr p).fg, bg := (t.sgr p).bg } := by
  unfold sgr
  split_ifs <;> rfl

theorem foldl_sgr_eq (ps : List ℕ) :
    ps.foldl sgr t = { t with fg := (ps.foldl sgr t).fg, bg := (ps.foldl sgr t).bg } := by
  induction ps generalizing t with
  | nil => rfl
  | cons p ps ih =>
    rw [List.foldl_cons, ih (t.sgr p), sgr_eq t p]

end Terminal

/-! ## Cells as pixels -/

theorem glyphRow_space (y : ℕ) (hy : y < 8) : glyphRow 0x20 y = 0 := by
  revert y
  decide

@[simp] theorem Cell.pixel_blank (fg bg : Color) (x y : ℕ) :
    (Cell.blank fg bg).pixel x y = bg.background := by
  unfold Cell.pixel Cell.blank
  split
  · rename_i hy
    dsimp only
    rw [glyphRow_space y hy]
    simp [Console.glyphPixel]
  · rfl

theorem Terminal.pixel_write (t : Terminal) (c : U8) (x y : ℕ) :
    (t.write c).pixel x y = if y / 9 = t.row ∧ x / 8 = t.col then
      Cell.pixel ⟨c, t.fg, t.bg⟩ (x % 8) (y % 9) else t.pixel x y := by
  unfold Terminal.pixel Terminal.write
  dsimp only
  split <;> rfl

namespace Console

variable {P x y col row : ℕ} {fb : ℕ → U32}

theorem withGlyph_index (hx : x < P) (fg bg : U32) (ch : U8) :
    withGlyph P col row fg bg ch 9 fb (index P x y) = if y / 9 = row ∧ x / 8 = col then
      if y % 9 < 8 then glyphPixel fg bg (glyphRow ch (y % 9)) (x % 8) else bg
    else fb (index P x y) := by
  unfold withGlyph
  rw [row_index hx, column_index hx]
  by_cases h : y / 9 = row ∧ x / 8 = col
  · obtain ⟨rfl, rfl⟩ := h
    rw [show y - y / 9 * 9 = y % 9 by omega, show x - x / 8 * 8 = x % 8 by omega,
      if_pos (by omega)]
    exact (if_pos ⟨rfl, rfl⟩).symm
  · rw [if_neg h, if_neg (by omega)]

theorem scrolled_index {C R : ℕ} (hx : x < C * 8) (hC : C * 8 ≤ P) (hy : y < R * 9) (bg : U32) :
    scrolled P C R bg fb (index P x y) =
      if y / 9 + 1 < R then fb (index P x (y + 9)) else bg := by
  have hrow := row_index (hx.trans_le hC) y
  have hnext : index P x y + 9 * P = index P x (y + 9) := by
    unfold index
    ring
  unfold scrolled
  rw [hrow, column_index (hx.trans_le hC), if_pos ⟨hx, hy⟩, hnext]
  exact if_congr (by omega) rfl rfl

/-! ## The relation -/

/-- The console has the colours of the terminal. -/
structure Colored (s : Console) (t : Terminal) : Prop where
  fg : s.fgColor = t.fg.foreground
  bg : s.bgColor = t.bg.background
  fgDefault : s.fgDefault = Color.default.foreground
  bgDefault : s.bgDefault = Color.default.background

/-- The console has read the escape sequence of the terminal. -/
def Parsing (s : Console) : Parser → Prop
  | .ground => s.escState = .none
  | .escape => s.escState = .esc
  | .csi params last => s.escState = .bracket ∧
      (List.range (s.escNparam.toNat + 1)).map s.escParams =
        (params.take 7 ++ [last]).map (BitVec.ofNat 32)

/-- The console shows the terminal. -/
structure Shows (f : Framebuffer) (s : Console) (t : Terminal) : Prop extends Colored s t where
  ok : Ok f Set.univ s
  row : s.curRow.toNat = t.row
  col : s.curCol.toNat = t.col
  parser : Parsing s t.parser
  pixels : ∀ y < f.rows * 9, ∀ x < f.cols * 8, s.fb (index f.pitchWords x y) = t.pixel x y

variable {f : Framebuffer} {s s' : Console} {t t' : Terminal}

/-! ## Colours -/

theorem brighten_fgColor : ∀ (js : List ℕ) (s : Console), (s.brighten js).fgColor =
    match js.find? fun j => s.fgColor = palette j with
    | some j => palette (j + 8)
    | none => s.fgColor
  | [], s => rfl
  | j :: js, s => by
    unfold brighten
    dsimp only
    by_cases h : s.fgColor = palette j
    · rw [if_pos (show (s.touch (.palette j)).fgColor = palette j from h),
        List.find?_cons_of_pos (by simpa using h)]
    · rw [if_neg (show ¬(s.touch (.palette j)).fgColor = palette j from h),
        List.find?_cons_of_neg (by simpa using h), brighten_fgColor js]
      rfl

theorem brighten_eq : ∀ (js : List ℕ) (s : Console), s.brighten js =
    { s with fgColor := (s.brighten js).fgColor, accesses := (s.brighten js).accesses }
  | [], s => rfl
  | j :: js, s => by
    unfold brighten
    dsimp only
    split
    · rfl
    · rw [brighten_eq js]
      rfl

/-- The loop over the palette finds the bold variant of every colour. -/
theorem find_bold (c : Color) :
    (match (List.range 8).find? fun j => c.foreground = palette j with
      | some j => palette (j + 8)
      | none => c.foreground) = c.bold.foreground := by
  cases c with
  | default => decide
  | dark k => revert k; decide
  | bright k => revert k; decide

theorem applyParam_escParams (s : Console) (p : U32) :
    (s.applyParam p).escParams = s.escParams := by
  unfold applyParam
  split_ifs
  · rfl
  · rw [brighten_eq]
  all_goals rfl

theorem Colored.applyParam (h : Colored s t) (p : U32) :
    Colored (s.applyParam p) (t.sgr p.toNat) := by
  unfold Console.applyParam Terminal.sgr
  have hzero : p = 0 ↔ p.toNat = 0 := BitVec.toNat_inj.symm
  have hone : p = 1 ↔ p.toNat = 1 := BitVec.toNat_inj.symm
  have hfg : 30 ≤ p ∧ p ≤ 37 ↔ 30 ≤ p.toNat ∧ p.toNat ≤ 37 := Iff.rfl
  have hfg' : 90 ≤ p ∧ p ≤ 97 ↔ 90 ≤ p.toNat ∧ p.toNat ≤ 97 := Iff.rfl
  have hbg : 40 ≤ p ∧ p ≤ 47 ↔ 40 ≤ p.toNat ∧ p.toNat ≤ 47 := Iff.rfl
  have hbg' : 100 ≤ p ∧ p ≤ 107 ↔ 100 ≤ p.toNat ∧ p.toNat ≤ 107 := Iff.rfl
  by_cases h0 : p = 0
  · rw [if_pos h0, if_pos (hzero.mp h0)]
    exact ⟨h.fgDefault, h.bgDefault, h.fgDefault, h.bgDefault⟩
  rw [if_neg h0, if_neg (mt hzero.mpr h0)]
  by_cases h1 : p = 1
  · rw [if_pos h1, if_pos (hone.mp h1), brighten_eq]
    refine ⟨?_, h.bg, h.fgDefault, h.bgDefault⟩
    show (s.brighten (List.range 8)).fgColor = t.fg.bold.foreground
    rw [brighten_fgColor, h.fg]
    exact find_bold t.fg
  rw [if_neg h1, if_neg (mt hone.mpr h1)]
  by_cases h30 : 30 ≤ p ∧ p ≤ 37
  · have hsub := toNat_sub_of_mem h30 rfl
    rw [if_pos h30, dif_pos (hfg.mp h30)]
    exact ⟨congrArg palette hsub.1, h.bg, h.fgDefault, h.bgDefault⟩
  rw [if_neg h30, dif_neg (mt hfg.mpr h30)]
  by_cases h90 : 90 ≤ p ∧ p ≤ 97
  · have hsub := toNat_sub_of_mem h90 rfl
    rw [if_pos h90, dif_pos (hfg'.mp h90)]
    exact ⟨congrArg palette hsub.2.1, h.bg, h.fgDefault, h.bgDefault⟩
  rw [if_neg h90, dif_neg (mt hfg'.mpr h90)]
  by_cases h40 : 40 ≤ p ∧ p ≤ 47
  · have hsub := toNat_sub_of_mem h40 rfl
    rw [if_pos h40, dif_pos (hbg.mp h40)]
    exact ⟨h.fg, congrArg palette hsub.1, h.fgDefault, h.bgDefault⟩
  rw [if_neg h40, dif_neg (mt hbg.mpr h40)]
  by_cases h100 : 100 ≤ p ∧ p ≤ 107
  · have hsub := toNat_sub_of_mem h100 rfl
    rw [if_pos h100, dif_pos (hbg'.mp h100)]
    exact ⟨h.fg, congrArg palette hsub.2.1, h.fgDefault, h.bgDefault⟩
  rw [if_neg h100, dif_neg (mt hbg'.mpr h100)]
  exact h

/-- `fb_apply_sgr` applies the parameters in their order. -/
theorem Colored.applySgr (h : Colored s t) (hn : s.escNparam ≠ 0) :
    Colored s.applySgr (((List.range s.escNparam.toNat).map fun i => (s.escParams i).toNat).foldl
      Terminal.sgr t) := by
  unfold Console.applySgr
  dsimp only
  rw [if_neg hn]
  have hloop := Loop.foldl_range_spec (n := s.escNparam.toNat) (s := s)
    (I := fun k u => u.escParams = s.escParams ∧ Colored u
      (((List.range k).map fun i => (s.escParams i).toNat).foldl Terminal.sgr t))
    (g := fun u i => (u.touch (.param i)).applyParam (u.escParams i))
    (fun k hk u hu => ?_) ⟨rfl, h⟩
  · exact hloop.2
  · obtain ⟨hparams, hcolor⟩ := hu
    have htouch : Colored (u.touch (.param k)) _ :=
      ⟨hcolor.fg, hcolor.bg, hcolor.fgDefault, hcolor.bgDefault⟩
    refine ⟨(applyParam_escParams _ _).trans hparams, ?_⟩
    rw [List.range_succ, List.map_append, List.foldl_append, hparams]
    exact htouch.applyParam _

/-! ## Steps -/

theorem textIn_univ (f : Framebuffer) : TextIn f Set.univ := fun _ _ _ => Set.mem_univ _

/-- The cursor moves within its row. -/
theorem Shows.moveTo (h : Shows f s t) {col : U32} {k : ℕ} (hlt : col < s.fbCols)
    (hk : col.toNat = k) : Shows f { s with curCol := col } { t with col := k } where
  fg := h.fg
  bg := h.bg
  fgDefault := h.fgDefault
  bgDefault := h.bgDefault
  ok := h.ok.moveTo hlt
  row := h.row
  col := hk
  parser := h.parser
  pixels := h.pixels

/-- A glyph at the cursor. -/
theorem Shows.write (h : Shows f s t) (hf : f.TextFits) (c : U8) :
    Shows f (s.drawGlyph s.curCol s.curRow c) (t.write c) := by
  have hp := h.ok.toSized.drawGlyph hf (textIn_univ f) h.ok.curCol h.ok.curRow c
  have hok := h.ok.drawGlyph hf (textIn_univ f) h.ok.curCol h.ok.curRow c
  generalize s.drawGlyph s.curCol s.curRow c = u at hp hok ⊢
  have hfb := hp.fb_eq
  rw [hp.eq] at hok ⊢
  refine ⟨⟨h.fg, h.bg, h.fgDefault, h.bgDefault⟩, hok, h.row, h.col, h.parser, fun y hy x hx => ?_⟩
  show withGlyph _ _ _ _ _ c 9 s.fb _ = _
  rw [withGlyph_index (hx.trans_le hf.cols_le), Terminal.pixel_write, h.row, h.col, h.fg, h.bg,
    h.pixels y hy x hx]
  rfl

/-- The next row, or the grid one row up. -/
theorem Shows.lineFeed (h : Shows f s t) (hf : f.TextFits) :
    Shows f s.newline (t.lineFeed f.rows) := by
  have hok := h.ok.newline hf (textIn_univ f)
  unfold Terminal.lineFeed
  rcases h.ok.toSized.newline_eq hf (textIn_univ f) h.ok.curRow with ⟨hlt, hn⟩ | ⟨hlast, u, hn, hp⟩
  · have hrow := (toNat_succ h.ok.curRow).trans (congrArg (· + 1) h.row)
    have hnext : t.row + 1 < f.rows := by
      rw [← hrow, ← h.ok.rows]
      exact BitVec.lt_def.mp hlt
    rw [hn] at hok ⊢
    rw [if_pos hnext]
    exact ⟨⟨h.fg, h.bg, h.fgDefault, h.bgDefault⟩, hok, hrow, rfl, h.parser, h.pixels⟩
  · have hend : ¬t.row + 1 < f.rows := by
      rw [← h.row]
      omega
    have hfb := hp.fb_eq
    rw [hn, hp.eq] at hok ⊢
    rw [if_neg hend]
    refine ⟨⟨h.fg, h.bg, h.fgDefault, h.bgDefault⟩, hok, h.row, rfl, h.parser, fun y hy x hx => ?_⟩
    show scrolled _ _ _ _ s.fb _ = _
    rw [scrolled_index hx hf.cols_le hy]
    unfold Terminal.pixel
    dsimp only
    by_cases hup : y / 9 + 1 < f.rows
    · rw [if_pos hup, if_pos hup, h.pixels (y + 9) (by omega) x hx]
      unfold Terminal.pixel
      rw [Nat.add_mod_right, Nat.add_div_right _ (by decide)]
    · rw [if_neg hup, if_neg hup, Cell.pixel_blank, h.bg]

/-- A byte that leaves the grid and the colours. -/
theorem Shows.parse (h : Shows f s t) (hok : Ok f Set.univ s')
    (heq : s' = { s with
      escState := s'.escState
      escParams := s'.escParams
      escNparam := s'.escNparam
      accesses := s'.accesses }) {p : Parser} (hp : Parsing s' p) :
    Shows f s' { t with parser := p } := by
  refine ⟨⟨?_, ?_, ?_, ?_⟩, hok, ?_, ?_, hp, ?_⟩ <;> rw [heq]
  exacts [h.fg, h.bg, h.fgDefault, h.bgDefault, h.row, h.col, h.pixels]

theorem Shows.putcPlain (h : Shows f s t) (hf : f.TextFits) (c : U8) :
    Shows f (s.putcPlain c) (t.putGround f.rows f.cols c) := by
  have hascii : 0x20 ≤ c.toInt ∧ c.toInt ≤ 0x7E ↔ 0x20 ≤ c.toNat ∧ c.toNat ≤ 0x7E :=
    toInt_between c 0x20 (by decide)
  unfold Console.putcPlain Terminal.putGround
  by_cases hesc : c = 0x1B
  · have hok : Ok f Set.univ { s with escState := .esc } :=
      ⟨⟨h.ok.ready, h.ok.pitch, h.ok.cols, h.ok.rows⟩, h.ok.curCol, h.ok.curRow,
        fun he => absurd he (show EscState.esc ≠ .bracket by decide), h.ok.accesses⟩
    rw [if_pos hesc, if_pos hesc]
    exact h.parse hok rfl rfl
  rw [if_neg hesc, if_neg hesc]
  by_cases hcr : c = 0x0D
  · rw [if_pos hcr, if_pos hcr]
    exact h.moveTo (BitVec.lt_def.mpr (by rw [h.ok.cols]; exact hf.cols_pos)) rfl
  rw [if_neg hcr, if_neg hcr]
  by_cases hlf : c = 0x0A
  · rw [if_pos hlf, if_pos hlf]
    exact h.lineFeed hf
  rw [if_neg hlf, if_neg hlf]
  by_cases hbs : c = 0x08
  · rw [if_pos hbs, if_pos hbs]
    by_cases hcol : 0 < s.curCol
    · have hpos : 0 < s.curCol.toNat := BitVec.lt_def.mp hcol
      have hsub : (s.curCol - 1).toNat = t.col - 1 := by
        rw [BitVec.toNat_sub_of_le (BitVec.le_def.mpr (show (1 : U32).toNat ≤ _ from hpos)), h.col]
        rfl
      have hlt : s.curCol - 1 < s.fbCols := by
        have := BitVec.lt_def.mp h.ok.curCol
        rw [BitVec.lt_def, hsub, ← h.col]
        omega
      rw [if_pos hcol, if_pos (h.col ▸ hpos)]
      exact (h.moveTo hlt hsub).write hf 0x20
    · have hzero : ¬0 < t.col := fun hpos => hcol (BitVec.lt_def.mpr (h.col.symm ▸ hpos))
      rw [if_neg hcol, if_neg hzero]
      exact h
  rw [if_neg hbs, if_neg hbs]
  by_cases hprint : 0x20 ≤ c.toNat ∧ c.toNat ≤ 0x7E
  · have hwrite := h.write hf c
    have hdraw := h.ok.toSized.drawGlyph hf (textIn_univ f) h.ok.curCol h.ok.curRow c
    have hnext : (s.curCol + 1).toNat = t.col + 1 :=
      (toNat_succ h.ok.curCol).trans (congrArg (· + 1) h.col)
    have hcols : (s.drawGlyph s.curCol s.curRow c).fbCols = s.fbCols := by rw [hdraw.eq]
    have hcol : (s.drawGlyph s.curCol s.curRow c).curCol = s.curCol := by rw [hdraw.eq]
    have hctl : ¬(c.toInt < 0x20 ∨ 0x7E < c.toInt) := by
      have := hascii.mpr hprint
      omega
    rw [if_neg hctl, if_pos hprint]
    dsimp only
    rw [hcols, hcol]
    by_cases hwrap : t.col + 1 < f.cols
    · have hlt : s.curCol + 1 < s.fbCols := by rw [BitVec.lt_def, hnext, h.ok.cols]; exact hwrap
      rw [if_pos hwrap, if_neg (BitVec.not_le.mpr hlt)]
      exact hwrite.moveTo (by rw [hcols]; exact hlt) hnext
    · have hle : s.fbCols ≤ s.curCol + 1 := by
        rw [BitVec.le_def, hnext, h.ok.cols]
        omega
      rw [if_neg hwrap, if_pos hle]
      exact hwrite.lineFeed hf
  · have hctl : c.toInt < 0x20 ∨ 0x7E < c.toInt := by
      by_contra hno
      exact hprint (hascii.mp ⟨by omega, by omega⟩)
    rw [if_pos hctl, if_neg hprint]
    exact h

/-- The parameter that is read gets one more digit. -/
theorem parsing_digit {n : ℕ} {params : List ℕ} {last : ℕ} {ep : ℕ → U32} {c : U8}
    (hc : 0x30 ≤ c.toNat ∧ c.toNat ≤ 0x39)
    (h : (List.range (n + 1)).map ep = (params.take 7 ++ [last]).map (BitVec.ofNat 32)) :
    (List.range (n + 1)).map (Function.update ep n (ep n * 10 + (c - 0x30).setWidth 32)) =
      (params.take 7 ++ [last * 10 + (c.toNat - 0x30)]).map (BitVec.ofNat 32) := by
  rw [List.range_succ, List.map_append, List.map_append] at h ⊢
  obtain ⟨hinit, hlast⟩ := List.append_inj' h rfl
  have hn : ep n = BitVec.ofNat 32 last := by simpa using hlast
  have hdigit : (c - 0x30).setWidth 32 = BitVec.ofNat 32 (c.toNat - 0x30) := by
    have hle : (0x30 : U8) ≤ c := BitVec.le_def.mpr hc.1
    rw [← BitVec.ofNat_toNat, BitVec.toNat_sub_of_le hle]
    rfl
  have hkeep : (List.range n).map (Function.update ep n (ep n * 10 + (c - 0x30).setWidth 32)) =
      (List.range n).map ep := List.map_congr_left fun i hi =>
    Function.update_of_ne (List.mem_range.mp hi).ne _ _
  rw [hkeep, hinit, List.map_singleton, List.map_singleton, Function.update_self, hn, hdigit,
    BitVec.ofNat_add, BitVec.ofNat_mul]
  rfl

/-- The next parameter is read : over the one that was read, when there are already seven. -/
theorem parsing_next {n : ℕ} {params : List ℕ} {last : ℕ} {ep : ℕ → U32}
    (h : (List.range (n + 1)).map ep = (params.take 7 ++ [last]).map (BitVec.ofNat 32)) :
    let m := if n < 7 then n + 1 else n
    (List.range (m + 1)).map (Function.update ep m 0) =
      ((params ++ [last]).take 7 ++ [0]).map (BitVec.ofNat 32) := by
  have hlen : n = (params.take 7).length := by simpa using congrArg List.length h
  have hkeep : ∀ m, (List.range m).map (Function.update ep m 0) = (List.range m).map ep :=
    fun m => List.map_congr_left fun i hi => Function.update_of_ne (List.mem_range.mp hi).ne _ _
  dsimp only
  rw [List.range_succ, List.map_append, hkeep, List.map_append, List.map_singleton,
    Function.update_self]
  congr 1
  rw [List.length_take] at hlen
  by_cases hn : n < 7
  · rw [if_pos hn, h, List.take_of_length_le (by omega),
      List.take_of_length_le (by rw [List.length_append, List.length_singleton]; omega)]
  · rw [if_neg hn, List.take_append_of_le_length (by omega)]
    rw [List.range_succ, List.map_append, List.map_append] at h
    exact (List.append_inj' h rfl).1

/-- The end of a sequence for colours. -/
theorem Shows.sgr (h : Shows f s t) (hb : s.escState = .bracket) {params : List ℕ} {last : ℕ}
    (hparams : (List.range (s.escNparam.toNat + 1)).map s.escParams =
      (params.take 7 ++ [last]).map (BitVec.ofNat 32))
    (hok : Ok f Set.univ
      { applySgr { s with escNparam := s.escNparam + 1 } with escState := .none }) :
    Shows f { applySgr { s with escNparam := s.escNparam + 1 } with escState := .none }
      { (kept (params ++ [last])).foldl Terminal.sgr t with parser := .ground } := by
  have hn := h.ok.nparam hb
  have hsucc : (s.escNparam + 1).toNat = s.escNparam.toNat + 1 := by
    rw [BitVec.toNat_add]
    exact Nat.mod_eq_of_lt (show s.escNparam.toNat + 1 < 256 by omega)
  generalize hs : ({ s with escNparam := s.escNparam + 1 } : Console) = u at hok ⊢
  have hcount : u.escNparam.toNat = s.escNparam.toNat + 1 := by rw [← hs, ← hsucc]
  have hcolor : Colored u t := by
    rw [← hs]
    exact ⟨h.fg, h.bg, h.fgDefault, h.bgDefault⟩
  have hsgr := hcolor.applySgr fun h0 => by
    rw [h0] at hcount
    exact absurd hcount (Nat.succ_ne_zero _).symm
  have hlist : (List.range u.escNparam.toNat).map (fun i => (u.escParams i).toNat) =
      kept (params ++ [last]) := by
    have hmap : (List.range u.escNparam.toNat).map u.escParams =
        (params.take 7 ++ [last]).map (BitVec.ofNat 32) := by
      rw [hcount, ← hparams, ← hs]
    calc (List.range u.escNparam.toNat).map (fun i => (u.escParams i).toNat)
        = ((List.range u.escNparam.toNat).map u.escParams).map BitVec.toNat := by
          rw [List.map_map]
          rfl
      _ = kept (params ++ [last]) := by
          rw [hmap, kept_append, List.map_map]
          rfl
  rw [hlist] at hsgr
  have hr := recolors_applySgr u (by omega)
  have hrow : u.applySgr.curRow = s.curRow := by rw [hr.eq, ← hs]
  have hcol : u.applySgr.curCol = s.curCol := by rw [hr.eq, ← hs]
  have hfb : u.applySgr.fb = s.fb := by rw [hr.eq, ← hs]
  have hfields := Terminal.foldl_sgr_eq t (kept (params ++ [last]))
  refine ⟨⟨hsgr.fg, hsgr.bg, hsgr.fgDefault, hsgr.bgDefault⟩, hok, ?_, ?_, rfl, fun y hy x hx => ?_⟩
  · rw [hfields]
    exact (congrArg BitVec.toNat hrow).trans h.row
  · rw [hfields]
    exact (congrArg BitVec.toNat hcol).trans h.col
  · rw [hfields]
    exact (congrFun hfb _).trans (h.pixels y hy x hx)

theorem Shows.putcBracket (h : Shows f s t) {params : List ℕ} {last : ℕ} (c : U8)
    (hp : t.parser = .csi params last) : Shows f (s.putcBracket c) (t.putCsi kept params last c) := by
  obtain ⟨hb, hparams⟩ : Parsing s (.csi params last) := hp ▸ h.parser
  have hok := h.ok.putcBracket hb c
  have hdigit : 0x30 ≤ c.toInt ∧ c.toInt ≤ 0x39 ↔ 0x30 ≤ c.toNat ∧ c.toNat ≤ 0x39 :=
    toInt_between c 0x30 (by decide)
  unfold Terminal.putCsi
  unfold Console.putcBracket at hok ⊢
  by_cases hd : 0x30 ≤ c.toNat ∧ c.toNat ≤ 0x39
  · have hd' := hdigit.mpr hd
    rw [if_pos hd'] at hok ⊢
    rw [if_pos hd]
    exact h.parse hok rfl ⟨hb, parsing_digit hd hparams⟩
  have hd' := mt hdigit.mp hd
  rw [if_neg hd'] at hok ⊢
  rw [if_neg hd]
  by_cases hsemi : c = 0x3B
  · rw [if_pos hsemi] at hok ⊢
    rw [if_pos hsemi]
    have hnext := parsing_next hparams
    dsimp only at hok hnext ⊢
    by_cases hlt : s.escNparam < 7
    · have hn : s.escNparam.toNat < 7 := BitVec.lt_def.mp hlt
      have hsucc : (s.escNparam + 1).toNat = s.escNparam.toNat + 1 := by
        rw [BitVec.toNat_add]
        exact Nat.mod_eq_of_lt (show s.escNparam.toNat + 1 < 256 by omega)
      rw [if_pos hn, ← hsucc] at hnext
      rw [if_pos hlt] at hok ⊢
      exact h.parse hok rfl ⟨hb, hnext⟩
    · have hn : ¬s.escNparam.toNat < 7 := fun hn => hlt (BitVec.lt_def.mpr hn)
      rw [if_neg hn] at hnext
      rw [if_neg hlt] at hok ⊢
      exact h.parse hok rfl ⟨hb, hnext⟩
  rw [if_neg hsemi] at hok ⊢
  rw [if_neg hsemi]
  by_cases hm : c = 0x6D
  · dsimp only at hok ⊢
    rw [if_pos hm] at hok ⊢
    rw [if_pos hm]
    exact h.sgr hb hparams hok
  · dsimp only at hok ⊢
    rw [if_neg hm] at hok ⊢
    rw [if_neg hm]
    exact h.parse hok rfl rfl

/-- A byte. -/
theorem Shows.putc (h : Shows f s t) (hf : f.TextFits) (c : U8) :
    Shows f (s.putc c) (t.put f.rows f.cols kept c) := by
  have hok := h.ok.putc hf (textIn_univ f) c
  have hparser := h.parser
  unfold Terminal.put
  unfold Console.putc at hok ⊢
  rw [if_pos h.ok.ready] at hok ⊢
  cases hp : t.parser with
  | ground =>
    rw [hp] at hparser
    rw [show s.escState = .none from hparser]
    exact h.putcPlain hf c
  | escape =>
    rw [hp] at hparser
    rw [show s.escState = .esc from hparser] at hok ⊢
    dsimp only at hok ⊢
    by_cases hc : c = 0x5B
    · rw [if_pos hc] at hok ⊢
      rw [if_pos hc]
      exact h.parse hok rfl ⟨rfl, rfl⟩
    · rw [if_neg hc] at hok ⊢
      rw [if_neg hc]
      exact h.parse hok rfl rfl
  | csi params last =>
    have hb : s.escState = .bracket := (hp ▸ hparser : Parsing s (.csi params last)).1
    rw [hb]
    exact h.putcBracket c hp

theorem Shows.puts (hf : f.TextFits) (cs : List U8) (h : Shows f s t) :
    Shows f (s.puts cs) (t.feed f.rows f.cols kept cs) := by
  induction cs generalizing s t with
  | nil => exact h
  | cons c cs ih => exact ih (h.putc hf c)

/-- The console shows the blank terminal after `kconsole_init`. -/
theorem shows_init (hf : f.TextFits) (fb : ℕ → U32) :
    Shows f ((boot fb).init f) Terminal.start := by
  have hok := ok_init (A := Set.univ) hf (fun _ _ _ _ => Set.mem_univ _) fb
  obtain ⟨fb', hp, hbg⟩ := init_eq (A := Set.univ) hf (fun _ _ _ _ => Set.mem_univ _) (boot fb)
  rw [hp.eq] at hok ⊢
  refine ⟨⟨rfl, rfl, rfl, rfl⟩, hok, rfl, rfl, rfl, fun y hy x hx => ?_⟩
  have hidx := hf.index_le hy
  have hlt : index f.pitchWords x y < 2 ^ 32 := by
    unfold index at *
    omega
  have hpixel := hbg y (hy.trans_le (Nat.div_mul_le_self _ _)) x
    (hx.trans_le (Nat.div_mul_le_self _ _))
  rw [BitVec.toNat_ofNat, Nat.mod_eq_of_lt hlt] at hpixel
  exact hpixel.trans (Cell.pixel_blank .default .default _ _).symm

/-- After any bytes the text area shows the terminal that got the same bytes. -/
theorem screen_renders_terminal (hf : f.TextFits) (fb : ℕ → U32) (cs : List U8) :
    ∀ y < f.rows * 9, ∀ x < f.cols * 8,
      (((boot fb).init f).puts cs).fb (y * (f.pitch.toNat / 4) + x) =
        (Terminal.start.feed f.rows f.cols kept cs).pixel x y :=
  ((shows_init hf fb).puts hf cs).pixels

/-- The letter A in red, on a framebuffer of two characters. -/
theorem screen_renders_terminal_red :
    let cs : List U8 := [0x1B, 0x5B, 0x33, 0x31, 0x6D, 0x41]
    ∀ y < twoCells.rows * 9, ∀ x < twoCells.cols * 8,
      (((boot fun _ => 0).init twoCells).puts cs).fb (y * (twoCells.pitch.toNat / 4) + x) =
        (Terminal.start.feed twoCells.rows twoCells.cols kept cs).pixel x y :=
  screen_renders_terminal (f := twoCells)
    ⟨by decide, by decide, by decide, by decide, by decide⟩ (fun _ => 0) _

/-- Nine parameters before the letter A : seven that mean nothing, 31 for red, and one more. -/
def nineParams : List U8 :=
  [0x1B, 0x5B, 0x32, 0x3B, 0x32, 0x3B, 0x32, 0x3B, 0x32, 0x3B, 0x32, 0x3B, 0x32, 0x3B, 0x32, 0x3B,
   0x33, 0x31, 0x3B, 0x32, 0x6D, 0x41]

/-- The parameter 2 ^ 32 + 31 before the letter A. -/
def hugeParam : List U8 :=
  [0x1B, 0x5B, 0x34, 0x32, 0x39, 0x34, 0x39, 0x36, 0x37, 0x33, 0x32, 0x37, 0x6D, 0x41]

/-- A framebuffer of one character, with rows of 2 ^ 31 words. -/
def farRows : Framebuffer := ⟨8, 9, 0x200000000⟩

/-- The screen is not that of a terminal where all parameters count as they are, and on a
framebuffer with more words than 32-bit indices it is not that of a terminal at all. -/
theorem screen_differs :
    (((boot fun _ => 0).init twoCells).puts nineParams).fb
        (0 * (twoCells.pitch.toNat / 4) + 3) ≠
      (Terminal.start.feed twoCells.rows twoCells.cols id nineParams).pixel 3 0 ∧
    (((boot fun _ => 0).init twoCells).puts hugeParam).fb
        (0 * (twoCells.pitch.toNat / 4) + 3) ≠
      (Terminal.start.feed twoCells.rows twoCells.cols id hugeParam).pixel 3 0 ∧
    (((boot fun _ => 0).init farRows).puts []).fb (2 * (farRows.pitch.toNat / 4) + 0) ≠
      (Terminal.start.feed farRows.rows farRows.cols id []).pixel 0 2 := by
  have hf : twoCells.TextFits := ⟨by decide, by decide, by decide, by decide, by decide⟩
  have hscreen : ∀ cs, (((boot fun _ => 0).init twoCells).puts cs).fb
      (0 * (twoCells.pitch.toNat / 4) + 3) =
        (Terminal.start.feed twoCells.rows twoCells.cols kept cs).pixel 3 0 := fun cs =>
    ((shows_init hf fun _ => 0).puts hf cs).pixels 0 (by decide) 3 (by decide)
  refine ⟨?_, ?_, ?_⟩
  · rw [hscreen]
    decide
  · rw [hscreen]
    decide
  · decide

end Console

end Jeos.Kconsole
