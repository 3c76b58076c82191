import Jeos.ConsolePixels

/-!
# The console stays inside its bounds

After any bytes the cursor is on the screen, and every access was to one of the eight parameters,
to one of the sixteen colours, or to a word of the framebuffer in a column that is displayed
(`console_in_bounds`). `Framebuffer.TextFits` is what this needs of the framebuffer : the words of
the text area have 32-bit indices. It follows if all words of the framebuffer have
(`Framebuffer.Regular`).
-/

set_option linter.unusedSectionVars false

namespace Jeos.Kconsole

open Raster

namespace Framebuffer

variable (f : Framebuffer)

/-- The words in a row of pixels. -/
def pitchWords : ℕ := f.pitch.toNat / 4

def cols : ℕ := f.width.toNat / 8

def rows : ℕ := f.height.toNat / 9

/-- A framebuffer with room for a character, whose words have 32-bit indices. -/
structure Regular : Prop where
  width_ge : 8 ≤ f.width.toNat
  height_ge : 9 ≤ f.height.toNat
  pitch_dvd : 4 ∣ f.pitch.toNat
  pitch_ge : 4 * f.width.toNat ≤ f.pitch.toNat
  words_lt : f.height.toNat * f.pitch.toNat / 4 < 2 ^ 32

/-- A framebuffer with room for a character, where the words of the text area have 32-bit
indices. -/
structure TextFits : Prop where
  width_ge : 8 ≤ f.width.toNat
  height_ge : 9 ≤ f.height.toNat
  pitch_dvd : 4 ∣ f.pitch.toNat
  pitch_ge : 4 * f.width.toNat ≤ f.pitch.toNat
  words_le : (f.rows * 9 - 1) * f.pitchWords + f.cols * 8 ≤ 2 ^ 32

variable {f}

theorem Regular.words_eq (h : f.Regular) : f.height.toNat * f.pitchWords < 2 ^ 32 := by
  have := h.words_lt
  rwa [Nat.mul_div_assoc _ h.pitch_dvd] at this

theorem TextFits.width_le (h : f.TextFits) : f.width.toNat ≤ f.pitchWords := by
  have := h.pitch_ge
  unfold pitchWords
  omega

theorem TextFits.cols_le (h : f.TextFits) : f.cols * 8 ≤ f.pitchWords :=
  (Nat.div_mul_le_self _ _).trans h.width_le

theorem TextFits.cols_pos (h : f.TextFits) : 0 < f.cols := Nat.div_pos h.width_ge (by decide)

theorem TextFits.rows_pos (h : f.TextFits) : 0 < f.rows := Nat.div_pos h.height_ge (by decide)

theorem Regular.textFits (h : f.Regular) : f.TextFits := by
  refine ⟨h.width_ge, h.height_ge, h.pitch_dvd, h.pitch_ge, ?_⟩
  have hwords := h.words_eq
  have hpitch := h.pitch_ge
  have hcols : f.cols * 8 ≤ f.pitchWords := (Nat.div_mul_le_self _ _).trans (by
    unfold pitchWords
    omega)
  have hrows : f.rows * 9 ≤ f.height.toNat := Nat.div_mul_le_self _ _
  have hpos : 0 < f.rows := Nat.div_pos h.height_ge (by decide)
  calc (f.rows * 9 - 1) * f.pitchWords + f.cols * 8
      ≤ (f.rows * 9 - 1) * f.pitchWords + 1 * f.pitchWords := by omega
    _ = f.rows * 9 * f.pitchWords := by rw [← Nat.add_mul, Nat.sub_add_cancel (by omega)]
    _ ≤ f.height.toNat * f.pitchWords := Nat.mul_le_mul_right _ hrows
    _ ≤ 2 ^ 32 := hwords.le

/-- The sizes are numbers of 32 bits. -/
theorem TextFits.sizes_lt (h : f.TextFits) : f.width.toNat < 2 ^ 32 ∧ f.height.toNat < 2 ^ 32 ∧
    f.pitchWords < 2 ^ 32 := by
  have hwidth := h.width_le
  have hw := h.width_ge
  have hh := h.height_ge
  have hwords := h.words_le
  have hrows : 8 ≤ f.rows * 9 - 1 := by
    have := h.rows_pos
    omega
  have h1 := Nat.mul_le_mul_right f.pitchWords hrows
  have h2 := Nat.mul_le_mul_left (f.rows * 9 - 1) (hw.trans hwidth)
  have h3 : f.height.toNat < f.rows * 9 + 9 := by
    unfold rows
    omega
  exact ⟨by omega, by omega, by omega⟩

/-- The words of the text area have 32-bit indices. -/
theorem TextFits.index_le (h : f.TextFits) {y : ℕ} (hy : y < f.rows * 9) :
    index f.pitchWords 0 y + f.cols * 8 ≤ 2 ^ 32 := by
  have h1 := Nat.mul_le_mul_right f.pitchWords (show y ≤ f.rows * 9 - 1 by omega)
  have h2 := h.words_le
  unfold index
  omega

end Framebuffer

/-- The words of the framebuffer in `A`, and the elements of the two arrays. -/
def Access.Inside (A : Set ℕ) : Access → Prop
  | .fb i => i ∈ A
  | .param i => i < 8
  | .palette i => i < 16

theorem Access.Small.inside {A : Set ℕ} {a : Access} (h : a.Small) : a.Inside A := by
  cases a with
  | fb i => exact h.elim
  | param i => exact h
  | palette i => exact h

namespace Console

variable {f : Framebuffer} {A : Set ℕ} {s s' : Console}

/-- The console works on `f`. -/
structure Sized (f : Framebuffer) (s : Console) : Prop where
  ready : s.fbReady = true
  pitch : s.fbPitchU32.toNat = f.pitchWords
  cols : s.fbCols.toNat = f.cols
  rows : s.fbRows.toNat = f.rows

/-- The console works on `f`, with the cursor on the screen and all accesses inside. -/
structure Ok (f : Framebuffer) (A : Set ℕ) (s : Console) : Prop extends Sized f s where
  curCol : s.curCol < s.fbCols
  curRow : s.curRow < s.fbRows
  nparam : s.escState = .bracket → s.escNparam.toNat < 8
  accesses : ∀ a ∈ s.accesses, a.Inside A

theorem Ok.paints {fb : ℕ → U32} (h : Ok f A s) (hp : Paints A fb s s') : Ok f A s' := by
  have hacc : ∀ a ∈ s'.accesses, a.Inside A := fun a ha => by
    rcases hp.accesses a ha with h' | ⟨i, hi, rfl⟩
    · exact h.accesses a h'
    · exact hi
  rw [hp.eq]
  exact ⟨⟨h.ready, h.pitch, h.cols, h.rows⟩, h.curCol, h.curRow, h.nparam, hacc⟩

/-- A step that changes no more than colours and parameters, and leaves the state in brackets. -/
theorem Ok.recolors (h : Ok f A s) (hr : Recolors s s') (hn : s.escState ≠ .bracket) :
    Ok f A s' := by
  have hacc : ∀ a ∈ s'.accesses, a.Inside A := fun a ha =>
    (hr.accesses a ha).elim (h.accesses a) Access.Small.inside
  rw [hr.eq]
  exact ⟨⟨h.ready, h.pitch, h.cols, h.rows⟩, h.curCol, h.curRow, fun he => absurd he hn, hacc⟩

/-- The text area lies in `A`. -/
def TextIn (f : Framebuffer) (A : Set ℕ) : Prop :=
  ∀ i, i / f.pitchWords < f.rows * 9 → i % f.pitchWords < f.cols * 8 → i ∈ A

theorem Sized.drawGlyph (h : Sized f s) (hf : f.TextFits) (hA : TextIn f A) {col row : U32}
    (hcol : col < s.fbCols) (hrow : row < s.fbRows) (ch : U8) :
    Paints A (withGlyph f.pitchWords col.toNat row.toNat s.fgColor s.bgColor ch 9 s.fb) s
      (s.drawGlyph col row ch) := by
  have hc : col.toNat < f.cols := h.cols ▸ BitVec.lt_def.mp hcol
  have hr : row.toNat < f.rows := h.rows ▸ BitVec.lt_def.mp hrow
  have hle := hf.cols_le
  have hidx := hf.index_le (show row.toNat * 9 + 8 < f.rows * 9 by omega)
  refine paints_drawGlyph s col row ch h.pitch (by omega) (by unfold index at *; omega)
    fun i h1 h2 h3 h4 => hA i (by omega) (by omega)

theorem Sized.scroll (h : Sized f s) (hf : f.TextFits) (hA : TextIn f A) :
    Paints A (scrolled f.pitchWords f.cols f.rows s.bgColor s.fb) s s.scroll := by
  have hpos := hf.rows_pos
  have hcols := hf.cols_pos
  have hle := hf.cols_le
  exact paints_scroll s h.pitch h.cols h.rows (by omega) hpos hle (hf.index_le (by omega)) hA

theorem toNat_succ {x y : U32} (h : x < y) : (x + 1).toNat = x.toNat + 1 := by
  have hlt := BitVec.lt_def.mp h
  have hy := y.isLt
  rw [BitVec.toNat_add]
  exact Nat.mod_eq_of_lt (show x.toNat + 1 < 2 ^ 32 by omega)

/-- The cursor goes down a row, or the text goes up one. -/
theorem Sized.newline_eq (h : Sized f s) (hf : f.TextFits) (hA : TextIn f A)
    (hrow : s.curRow < s.fbRows) :
    (s.curRow + 1 < s.fbRows ∧
      s.newline = { s with curCol := 0, curRow := s.curRow + 1 }) ∨
    (s.curRow.toNat + 1 = f.rows ∧ ∃ t, s.newline = { t with curCol := 0 } ∧
      Paints A (scrolled f.pitchWords f.cols f.rows s.bgColor s.fb) s t) := by
  have hnext := toNat_succ hrow
  unfold newline
  dsimp only
  by_cases hlast : s.fbRows ≤ s.curRow + 1
  · have hle := BitVec.le_def.mp hlast
    have hlt := BitVec.lt_def.mp hrow
    have hcur : s.curRow + 1 = s.fbRows := BitVec.eq_of_toNat_eq (by omega)
    have hdown : Sized f { s with curCol := 0, curRow := s.curRow + 1 } :=
      ⟨h.ready, h.pitch, h.cols, h.rows⟩
    have hscroll := hdown.scroll hf hA
    rw [if_pos hlast]
    generalize Console.scroll { s with curCol := 0, curRow := s.curRow + 1 } = u at hscroll ⊢
    refine Or.inr ⟨by rw [← h.rows]; omega,
      { s with fb := u.fb, accesses := u.accesses }, ?_, ?_, hscroll.accesses⟩
    · rw [hscroll.eq, ← hcur, BitVec.add_sub_cancel]
    · rw [hscroll.fb_eq]
  · rw [if_neg hlast]
    exact Or.inl ⟨BitVec.not_le.mp hlast, rfl⟩

/-! ## Steps -/

theorem Ok.newline (h : Ok f A s) (hf : f.TextFits) (hA : TextIn f A) : Ok f A s.newline := by
  have hcol : 0 < s.fbCols := BitVec.lt_def.mpr (by rw [h.cols]; exact hf.cols_pos)
  rcases h.toSized.newline_eq hf hA h.curRow with ⟨hrow, hn⟩ | ⟨-, t, hn, hp⟩
  · rw [hn]
    exact ⟨⟨h.ready, h.pitch, h.cols, h.rows⟩, hcol, hrow, h.nparam, h.accesses⟩
  · have ht := h.paints hp
    rw [hn]
    exact ⟨⟨ht.ready, ht.pitch, ht.cols, ht.rows⟩, show (0 : U32) < t.fbCols by rwa [hp.eq],
      ht.curRow, ht.nparam, ht.accesses⟩

/-- An access to `esc_params` below the counter. -/
theorem Ok.setParam (h : Ok f A s) {i : ℕ} (hi : i < 8) (v : U32) : Ok f A (s.setParam i v) :=
  ⟨⟨h.ready, h.pitch, h.cols, h.rows⟩, h.curCol, h.curRow, h.nparam,
    fun _ ha => (List.mem_cons.mp ha).elim (fun h' => h' ▸ hi) (h.accesses _)⟩

theorem Ok.putcBracket (h : Ok f A s) (hb : s.escState = .bracket) (c : U8) :
    Ok f A (s.putcBracket c) := by
  have hn := h.nparam hb
  unfold Console.putcBracket
  split
  · have htouch : Ok f A (s.touch (.param s.escNparam.toNat)) :=
      ⟨⟨h.ready, h.pitch, h.cols, h.rows⟩, h.curCol, h.curRow, h.nparam,
        fun _ ha => (List.mem_cons.mp ha).elim (fun h' => h' ▸ hn) (h.accesses _)⟩
    exact htouch.setParam hn _
  split
  · dsimp only
    by_cases hlt : s.escNparam < 7
    · have hle := BitVec.lt_def.mp hlt
      have hnext : (s.escNparam + 1).toNat < 8 := by
        rw [BitVec.toNat_add]
        exact Nat.lt_of_le_of_lt (Nat.mod_le _ _) (Nat.succ_lt_succ hle)
      rw [if_pos hlt]
      refine Ok.setParam ?_ hnext 0
      exact ⟨⟨h.ready, h.pitch, h.cols, h.rows⟩, h.curCol, h.curRow, fun _ => hnext, h.accesses⟩
    · rw [if_neg hlt]
      exact h.setParam hn 0
  · -- the counter reaches eight here, and the brackets are left
    have hcount : (s.escNparam + 1).toNat ≤ 8 := by
      rw [BitVec.toNat_add]
      exact (Nat.mod_le _ _).trans (Nat.succ_le_of_lt hn)
    dsimp only
    generalize ht : ({ s with escNparam := s.escNparam + 1 } : Console) = t
    have hr : Recolors t (if c = 0x6D then t.applySgr else t) := by
      split
      · exact recolors_applySgr t (by rwa [← ht])
      · exact Recolors.refl t
    generalize (if c = 0x6D then t.applySgr else t) = u at hr ⊢
    subst ht
    rw [hr.eq]
    exact ⟨⟨h.ready, h.pitch, h.cols, h.rows⟩, h.curCol, h.curRow,
      fun he => absurd he (by simp), fun a ha =>
        (hr.accesses a ha).elim (h.accesses a) Access.Small.inside⟩

theorem Ok.drawGlyph (h : Ok f A s) (hf : f.TextFits) (hA : TextIn f A) {col row : U32}
    (hcol : col < s.fbCols) (hrow : row < s.fbRows) (ch : U8) :
    Ok f A (s.drawGlyph col row ch) := h.paints (h.toSized.drawGlyph hf hA hcol hrow ch)

theorem Ok.moveTo (h : Ok f A s) {col : U32} (hcol : col < s.fbCols) :
    Ok f A { s with curCol := col } :=
  ⟨⟨h.ready, h.pitch, h.cols, h.rows⟩, hcol, h.curRow, h.nparam, h.accesses⟩

theorem Ok.putcPlain (h : Ok f A s) (hf : f.TextFits) (hA : TextIn f A) (c : U8) :
    Ok f A (s.putcPlain c) := by
  have hpos : 0 < s.fbCols := BitVec.lt_def.mpr (by rw [h.cols]; exact hf.cols_pos)
  unfold Console.putcPlain
  split_ifs with hesc hcr hlf hbs hcol hctl
  · exact ⟨⟨h.ready, h.pitch, h.cols, h.rows⟩, h.curCol, h.curRow,
      fun he => absurd he (by simp), h.accesses⟩
  · exact h.moveTo hpos
  · exact h.newline hf hA
  · have hback : s.curCol - 1 < s.fbCols := by
      have h1 := BitVec.lt_def.mp hcol
      have h2 := BitVec.lt_def.mp h.curCol
      have hle : (1 : U32) ≤ s.curCol := BitVec.le_def.mpr h1
      rw [BitVec.lt_def, BitVec.toNat_sub_of_le hle]
      exact (Nat.sub_le _ _).trans_lt h2
    exact (h.moveTo hback).drawGlyph hf hA hback h.curRow 0x20
  · exact h
  · exact h
  · have hdraw := h.drawGlyph hf hA h.curCol h.curRow c
    dsimp only
    split
    · exact hdraw.newline hf hA
    · rename_i hlt
      exact hdraw.moveTo (BitVec.not_le.mp hlt)

theorem Ok.putc (h : Ok f A s) (hf : f.TextFits) (hA : TextIn f A) (c : U8) :
    Ok f A (s.putc c) := by
  unfold Console.putc
  rw [if_pos h.ready]
  split
  · split
    · exact ⟨⟨h.ready, h.pitch, h.cols, h.rows⟩, h.curCol, h.curRow,
        fun _ => show (0 : U8).toNat < 8 by decide, (h.setParam (show 0 < 8 by decide) 0).accesses⟩
    · exact ⟨⟨h.ready, h.pitch, h.cols, h.rows⟩, h.curCol, h.curRow,
        fun he => absurd he (by simp), h.accesses⟩
  · rename_i hb
    exact h.putcBracket hb c
  · exact h.putcPlain hf hA c

theorem Ok.puts (hf : f.TextFits) (hA : TextIn f A) (cs : List U8) (h : Ok f A s) :
    Ok f A (s.puts cs) := by
  induction cs generalizing s with
  | nil => exact h
  | cons c cs ih => exact ih (h.putc hf hA c)

/-! ## The start -/

/-- The console on `f` that `kconsole_init` clears. -/
def on (s : Console) (f : Framebuffer) : Console :=
  { s with
    fbWidth := f.width.setWidth 32
    fbHeight := f.height.setWidth 32
    fbPitchU32 := (f.pitch / 4).setWidth 32
    fbCols := f.width.setWidth 32 / 8
    fbRows := f.height.setWidth 32 / 9
    curCol := 0
    curRow := 0
    fbReady := true }

theorem sized_on (hf : f.TextFits) (s : Console) : Sized f (s.on f) ∧
    (s.on f).fbWidth.toNat = f.width.toNat ∧ (s.on f).fbHeight.toNat = f.height.toNat := by
  obtain ⟨hw, hh, hp⟩ := hf.sizes_lt
  have hwidth : (f.width.setWidth 32).toNat = f.width.toNat := by
    rw [BitVec.toNat_setWidth, Nat.mod_eq_of_lt hw]
  have hheight : (f.height.setWidth 32).toNat = f.height.toNat := by
    rw [BitVec.toNat_setWidth, Nat.mod_eq_of_lt hh]
  refine ⟨⟨rfl, ?_, ?_, ?_⟩, hwidth, hheight⟩
  · show ((f.pitch / 4).setWidth 32).toNat = f.pitchWords
    rw [BitVec.toNat_setWidth, BitVec.toNat_udiv]
    exact Nat.mod_eq_of_lt hp
  · show (f.width.setWidth 32 / 8).toNat = f.cols
    rw [BitVec.toNat_udiv, hwidth]
    rfl
  · show (f.height.setWidth 32 / 9).toNat = f.rows
    rw [BitVec.toNat_udiv, hheight]
    rfl

/-- `kconsole_init` leaves a blank screen with the cursor at its start. -/
theorem init_eq (hf : f.TextFits)
    (hA : ∀ y < f.height.toNat, ∀ x < f.width.toNat,
      (BitVec.ofNat 32 (index f.pitchWords x y)).toNat ∈ A) (s : Console) :
    ∃ fb', Paints A fb' (s.on f) (s.init f) ∧ ∀ y < f.height.toNat, ∀ x < f.width.toNat,
      fb' (BitVec.ofNat 32 (index f.pitchWords x y)).toNat = s.bgColor := by
  obtain ⟨hs, hw, hh⟩ := sized_on hf s
  obtain ⟨fb', t, hp, hclear, hbg⟩ := paints_clear (s.on f) hs.ready hs.pitch hw hh hA
  refine ⟨fb', ?_, hbg⟩
  rw [show s.init f = { t with curCol := 0, curRow := 0 } from hclear]
  refine ⟨?_, hp.accesses⟩
  rw [hp.eq]
  rfl

theorem ok_init (hf : f.TextFits)
    (hA : ∀ y < f.height.toNat, ∀ x < f.width.toNat,
      (BitVec.ofNat 32 (index f.pitchWords x y)).toNat ∈ A) (fb : ℕ → U32) :
    Ok f A ((boot fb).init f) := by
  obtain ⟨fb', hp, -⟩ := init_eq hf hA (boot fb)
  have hs := (sized_on hf (boot fb)).1
  have hcol : (0 : U32) < ((boot fb).on f).fbCols :=
    BitVec.lt_def.mpr (by rw [hs.cols]; exact hf.cols_pos)
  have hrow : (0 : U32) < ((boot fb).on f).fbRows :=
    BitVec.lt_def.mpr (by rw [hs.rows]; exact hf.rows_pos)
  have hstart : Ok f A ((boot fb).on f) :=
    ⟨hs, hcol, hrow, fun h => absurd h (show EscState.none ≠ .bracket by decide),
      fun a ha => absurd ha List.not_mem_nil⟩
  exact hstart.paints hp

/-- The words of the framebuffer in a row and a column that are displayed. -/
def displayed (f : Framebuffer) : Set ℕ :=
  {i | i / f.pitchWords < f.height.toNat ∧ i % f.pitchWords < f.width.toNat}

theorem textIn_displayed (f : Framebuffer) : TextIn f (displayed f) := fun _ hrow hcol =>
  ⟨hrow.trans_le (Nat.div_mul_le_self _ _), hcol.trans_le (Nat.div_mul_le_self _ _)⟩

/-- No index wraps on such a framebuffer. -/
theorem index_mem_displayed (hf : f.Regular) {x y : ℕ} (hy : y < f.height.toNat)
    (hx : x < f.width.toNat) : (BitVec.ofNat 32 (index f.pitchWords x y)).toNat ∈ displayed f := by
  have hxp : x < f.pitchWords := hx.trans_le hf.textFits.width_le
  have hpos : 0 < f.pitchWords := by omega
  have hlt : index f.pitchWords x y < 2 ^ 32 :=
    (lt_of_row_lt hpos (by rwa [row_index hxp])).trans hf.words_eq
  rw [BitVec.toNat_ofNat, Nat.mod_eq_of_lt hlt]
  exact ⟨by rwa [row_index hxp], by rwa [column_index hxp]⟩

/-- After any bytes the cursor is on the screen, and every access was inside of its array. -/
theorem console_in_bounds (hf : f.Regular) (fb : ℕ → U32) (cs : List U8) :
    let s := ((boot fb).init f).puts cs
    s.curCol < s.fbCols ∧ s.curRow < s.fbRows ∧ ∀ a ∈ s.accesses, match a with
      | .param i => i < 8
      | .palette i => i < 16
      | .fb i => i < f.height.toNat * f.pitch.toNat / 4 ∧
          i % (f.pitch.toNat / 4) < f.width.toNat := by
  have hstart := ok_init hf.textFits (fun y hy x hx => index_mem_displayed hf hy hx) fb
  have h := hstart.puts hf.textFits (textIn_displayed f) cs
  refine ⟨h.curCol, h.curRow, fun a ha => ?_⟩
  have hin := h.accesses a ha
  match a, hin with
  | .param i, hin => exact hin
  | .palette i, hin => exact hin
  | .fb i, hin =>
    have hpos : 0 < f.pitchWords := by
      have := hf.textFits.width_le
      have := hf.width_ge
      omega
    rw [Nat.mul_div_assoc _ hf.pitch_dvd]
    exact ⟨lt_of_row_lt hpos hin.1, hin.2⟩

/-- A framebuffer of two characters. -/
def twoCells : Framebuffer := ⟨16, 9, 64⟩

theorem console_in_bounds_two_cells :
    let s := ((boot fun _ => 0).init twoCells).puts [0x1B, 0x5B, 0x33, 0x31, 0x6D, 0x41, 0x42]
    s.curCol < s.fbCols ∧ s.curRow < s.fbRows ∧ ∀ a ∈ s.accesses, match a with
      | .param i => i < 8
      | .palette i => i < 16
      | .fb i => i < 9 * 64 / 4 ∧ i % (64 / 4) < 16 :=
  console_in_bounds (f := twoCells)
    ⟨by decide, by decide, by decide, by decide, by decide⟩ (fun _ => 0)
    [0x1B, 0x5B, 0x33, 0x31, 0x6D, 0x41, 0x42]

end Console

end Jeos.Kconsole
