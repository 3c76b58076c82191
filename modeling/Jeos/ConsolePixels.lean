import Jeos.Console
import Jeos.Lib.Loop
import Jeos.Lib.Raster

/-!
# What the functions of the console change

A glyph, a scroll and a cleared screen change the framebuffer only (`Paints`), and the lemmas say
what every word of it is afterwards, by its row and its column : `withGlyph`, `scrolled` and
`paints_clear`. A sequence for colours changes the colours and the parameters only (`Recolors`).
Both come with the words and elements that are accessed.
-/

set_option linter.unusedSectionVars false

namespace Jeos.Kconsole

open Raster

/-- An access to `esc_params` or `ansi_palette` that is inside. -/
def Access.Small : Access → Prop
  | .fb _ => False
  | .param i => i < 8
  | .palette i => i < 16

namespace Console

variable {s s' s'' : Console} {fb fb' : ℕ → U32} {A : Set ℕ} {P b n : ℕ}

/-- From `s` to `s'` only the framebuffer has changed, to `fb`, with accesses to words of `A`. -/
structure Paints (A : Set ℕ) (fb : ℕ → U32) (s s' : Console) : Prop where
  eq : s' = { s with fb := fb, accesses := s'.accesses }
  accesses : ∀ a ∈ s'.accesses, a ∈ s.accesses ∨ ∃ i ∈ A, a = .fb i

theorem Paints.refl (A : Set ℕ) (s : Console) : Paints A s.fb s s := ⟨rfl, fun _ h => Or.inl h⟩

theorem Paints.trans (h : Paints A fb s s') (h' : Paints A fb' s' s'') : Paints A fb' s s'' := by
  refine ⟨?_, fun a ha => (h'.accesses a ha).elim (h.accesses a) Or.inr⟩
  rw [h'.eq, h.eq]

theorem Paints.fb_eq (h : Paints A fb s s') : s'.fb = fb := congrArg Console.fb h.eq

theorem Paints.congr (h : Paints A fb s s') (hfb : fb = fb') : Paints A fb' s s' := hfb ▸ h

theorem paints_store (s : Console) {i : U32} (hi : i.toNat ∈ A) (v : U32) :
    Paints A (Function.update s.fb i.toNat v) s (s.store i v) := by
  refine ⟨rfl, fun a ha => ?_⟩
  rcases List.mem_cons.mp ha with rfl | ha
  · exact Or.inr ⟨_, hi, rfl⟩
  · exact Or.inl ha

theorem paints_copyWord (s : Console) {dst src : U32} (hd : dst.toNat ∈ A) (hs : src.toNat ∈ A) :
    Paints A (Function.update s.fb dst.toNat (s.fb src.toNat)) s (s.copyWord dst src) := by
  refine ⟨rfl, fun a ha => ?_⟩
  rcases List.mem_cons.mp ha with rfl | ha
  · exact Or.inr ⟨_, hd, rfl⟩
  · rcases List.mem_cons.mp ha with rfl | ha
    · exact Or.inr ⟨_, hs, rfl⟩
    · exact Or.inl ha

/-- The word behind `x` words from `b` on, if 32 bits are enough. -/
theorem toNat_add_ofNat {x : ℕ} (h : b + x < 2 ^ 32) :
    (BitVec.ofNat 32 b + BitVec.ofNat 32 x).toNat = b + x := by
  rw [← BitVec.ofNat_add, BitVec.toNat_ofNat, Nat.mod_eq_of_lt h]

/-- A row of words. -/
theorem paints_storeRow (s : Console) (hb : b + n ≤ 2 ^ 32) (hA : ∀ x < n, b + x ∈ A)
    (v : ℕ → U32) : Paints A (fun i => if b ≤ i ∧ i < b + n then v (i - b) else s.fb i) s
      (s.storeRow (BitVec.ofNat 32 b) n v) := by
  refine (Loop.foldl_range_spec (I := fun k => Paints A
    (fun i => if b ≤ i ∧ i < b + k then v (i - b) else s.fb i) s) (fun k hk t ht => ?_) ?_)
  · have hidx := toNat_add_ofNat (b := b) (x := k) (by omega)
    refine (ht.trans (paints_store t (hidx ▸ hA k hk) (v k))).congr (funext fun i => ?_)
    rw [hidx, ht.fb_eq]
    by_cases hi : i = b + k
    · subst hi
      rw [Function.update_self, if_pos ⟨by omega, by omega⟩, Nat.add_sub_cancel_left]
    · rw [Function.update_of_ne hi]
      exact if_congr ⟨fun h => ⟨h.1, by omega⟩, fun h => ⟨h.1, by omega⟩⟩ rfl rfl
  · refine (Paints.refl A s).congr (funext fun i => (if_neg ?_).symm)
    omega

/-- A row of words copied to a lower place. -/
theorem paints_copyRow (s : Console) {d : ℕ} (hb : b + n ≤ 2 ^ 32) (hd : d + n ≤ b)
    (hA : ∀ x < n, d + x ∈ A ∧ b + x ∈ A) :
    Paints A (fun i => if d ≤ i ∧ i < d + n then s.fb (b + (i - d)) else s.fb i) s
      (s.copyRow (BitVec.ofNat 32 d) (BitVec.ofNat 32 b) n) := by
  refine (Loop.foldl_range_spec (I := fun k => Paints A
    (fun i => if d ≤ i ∧ i < d + k then s.fb (b + (i - d)) else s.fb i) s)
    (fun k hk t ht => ?_) ?_)
  · have hsrc := toNat_add_ofNat (b := b) (x := k) (by omega)
    have hdst := toNat_add_ofNat (b := d) (x := k) (by omega)
    refine (ht.trans (paints_copyWord t (hdst ▸ (hA k hk).1) (hsrc ▸ (hA k hk).2))).congr
      (funext fun i => ?_)
    rw [hsrc, hdst, ht.fb_eq]
    by_cases hi : i = d + k
    · subst hi
      rw [Function.update_self,
        if_pos (show d ≤ d + k ∧ d + k < d + (k + 1) by omega), Nat.add_sub_cancel_left]
      exact if_neg (by omega)
    · rw [Function.update_of_ne hi]
      exact if_congr ⟨fun h => ⟨h.1, by omega⟩, fun h => ⟨h.1, by omega⟩⟩ rfl rfl
  · refine (Paints.refl A s).congr (funext fun i => (if_neg ?_).symm)
    omega

/-! ## Coordinates -/

theorem ofNat_mul_add (row : U32) (k y : ℕ) :
    row * BitVec.ofNat 32 k + BitVec.ofNat 32 y = BitVec.ofNat 32 (row.toNat * k + y) := by
  conv_lhs => rw [← BitVec.setWidth_eq row, ← BitVec.ofNat_toNat]
  rw [← BitVec.ofNat_mul, ← BitVec.ofNat_add]

theorem ofNat_mul (col : U32) (k : ℕ) :
    col * BitVec.ofNat 32 k = BitVec.ofNat 32 (col.toNat * k) :=
  (BitVec.add_zero _).symm.trans (ofNat_mul_add col k 0)

theorem ofNat_index {pitch : U32} (hp : pitch.toNat = P) (x y : ℕ) :
    BitVec.ofNat 32 y * pitch + BitVec.ofNat 32 x = BitVec.ofNat 32 (index P x y) := by
  rw [BitVec.mul_comm]
  conv_lhs => rw [← BitVec.setWidth_eq pitch, ← BitVec.ofNat_toNat, hp]
  rw [← BitVec.ofNat_mul, ← BitVec.ofNat_add, index, Nat.mul_comm]

theorem ofNat_row {pitch : U32} (hp : pitch.toNat = P) (y : ℕ) :
    BitVec.ofNat 32 y * pitch = BitVec.ofNat 32 (index P 0 y) :=
  (BitVec.add_zero _).symm.trans (ofNat_index hp 0 y)

/-- A row of words by the row and the columns it takes. -/
theorem paints_rasterRow (s : Console) {x y : ℕ} (hn : x + n ≤ P) (hfit : index P x y + n ≤ 2 ^ 32)
    (hA : ∀ i, i / P = y → x ≤ i % P → i % P < x + n → i ∈ A) (v : ℕ → U32) :
    Paints A (fun i => if i / P = y ∧ x ≤ i % P ∧ i % P < x + n then v (i % P - x) else s.fb i) s
      (s.storeRow (BitVec.ofNat 32 (index P x y)) n v) := by
  have hrun := fun i => mem_run_iff (i := i) (y := y) hn
  refine (paints_storeRow s hfit (fun k hk => ?_) v).congr (funext fun i => ?_)
  · obtain ⟨h1, h2, h3⟩ := (hrun (index P x y + k)).mp ⟨by omega, by omega⟩
    exact hA _ h1 h2 h3
  · by_cases h : i / P = y ∧ x ≤ i % P ∧ i % P < x + n
    · rw [if_pos h, if_pos ((hrun i).mpr h), sub_index h.1]
    · rw [if_neg h, if_neg fun hr => h ((hrun i).mp hr)]

/-! ## Glyphs -/

/-- The framebuffer after the first rows of a glyph at `(col, row)`, by the row and the column of
each word. -/
def withGlyph (P col row : ℕ) (fg bg : U32) (ch : U8) (rows : ℕ) (fb : ℕ → U32) (i : ℕ) : U32 :=
  if row * 9 ≤ i / P ∧ i / P < row * 9 + rows ∧ col * 8 ≤ i % P ∧ i % P < col * 8 + 8 then
    if i / P - row * 9 < 8 then
      glyphPixel fg bg (glyphRow ch (i / P - row * 9)) (i % P - col * 8)
    else bg
  else fb i

/-- One more row of a glyph. -/
theorem withGlyph_succ {col row : ℕ} {fg bg : U32} {ch : U8} {k : ℕ} {v : ℕ → U32}
    (hv : ∀ x, v x = if k < 8 then glyphPixel fg bg (glyphRow ch k) x else bg) (i : ℕ) :
    (if i / P = row * 9 + k ∧ col * 8 ≤ i % P ∧ i % P < col * 8 + 8 then v (i % P - col * 8)
      else withGlyph P col row fg bg ch k fb i) = withGlyph P col row fg bg ch (k + 1) fb i := by
  unfold withGlyph
  by_cases hcol : col * 8 ≤ i % P ∧ i % P < col * 8 + 8
  · by_cases hk : i / P = row * 9 + k
    · rw [if_pos ⟨hk, hcol⟩, if_pos ⟨by omega, by omega, hcol⟩, hv, hk, Nat.add_sub_cancel_left]
    · rw [if_neg fun h => hk h.1]
      exact if_congr ⟨fun h => ⟨h.1, by omega, h.2.2⟩, fun h => ⟨h.1, by omega, h.2.2⟩⟩ rfl rfl
  · rw [if_neg fun h => hcol h.2, if_neg fun h => hcol h.2.2, if_neg fun h => hcol h.2.2]

theorem paints_drawGlyph (s : Console) (col row : U32) (ch : U8) (hp : s.fbPitchU32.toNat = P)
    (hcol : col.toNat * 8 + 8 ≤ P)
    (hfit : index P (col.toNat * 8) (row.toNat * 9 + 8) + 8 ≤ 2 ^ 32)
    (hA : ∀ i, row.toNat * 9 ≤ i / P → i / P < row.toNat * 9 + 9 → col.toNat * 8 ≤ i % P →
      i % P < col.toNat * 8 + 8 → i ∈ A) :
    Paints A (withGlyph P col.toNat row.toNat s.fgColor s.bgColor ch 9 s.fb) s
      (s.drawGlyph col row ch) := by
  -- the row `k` of the glyph, in a state that differs from `s` in the rows before it
  have hrow : ∀ k < 9, ∀ t, Paints A
      (withGlyph P col.toNat row.toNat s.fgColor s.bgColor ch k s.fb) s t → ∀ v : ℕ → U32,
      (∀ x, v x = if k < 8 then glyphPixel t.fgColor t.bgColor (glyphRow ch k) x
        else t.bgColor) →
      Paints A (withGlyph P col.toNat row.toNat s.fgColor s.bgColor ch (k + 1) s.fb) s
        (t.storeRow ((row * 9 + BitVec.ofNat 32 k) * t.fbPitchU32 + col * 8) 8 v) := by
    intro k hk t ht v hv
    have hfg : t.fgColor = s.fgColor := by rw [ht.eq]
    have hbg : t.bgColor = s.bgColor := by rw [ht.eq]
    have hpitch : t.fbPitchU32.toNat = P := by rw [ht.eq, hp]
    have hbase : (row * 9 + BitVec.ofNat 32 k) * t.fbPitchU32 + col * 8 =
        BitVec.ofNat 32 (index P (col.toNat * 8) (row.toNat * 9 + k)) := by
      rw [show row * 9 + BitVec.ofNat 32 k = BitVec.ofNat 32 (row.toNat * 9 + k) from
        ofNat_mul_add row 9 k, show col * 8 = BitVec.ofNat 32 (col.toNat * 8) from ofNat_mul col 8,
        ofNat_index hpitch]
    have hle : index P (col.toNat * 8) (row.toNat * 9 + k) ≤
        index P (col.toNat * 8) (row.toNat * 9 + 8) :=
      Nat.add_le_add_right (Nat.mul_le_mul_right P (by omega)) _
    rw [hbase]
    refine (ht.trans (paints_rasterRow t hcol (by omega) (fun i h1 h2 h3 => hA i (by omega)
      (by omega) h2 h3) v)).congr (funext fun i => ?_)
    rw [ht.fb_eq]
    rw [hfg, hbg] at hv
    exact withGlyph_succ hv i
  have hloop := Loop.foldl_range_spec (n := 8) (s := s)
    (I := fun k => Paints A (withGlyph P col.toNat row.toNat s.fgColor s.bgColor ch k s.fb) s)
    (g := fun t y => t.storeRow ((row * 9 + BitVec.ofNat 32 y) * t.fbPitchU32 + col * 8) 8
      (glyphPixel t.fgColor t.bgColor (glyphRow ch y)))
    (fun k hk t ht => hrow k (by omega) t ht _ fun x => (if_pos hk).symm)
    ((Paints.refl A s).congr (funext fun i => (if_neg (by omega)).symm))
  exact hrow 8 (by omega) _ hloop _ fun x => rfl

/-! ## Scrolling -/

/-- A row of words copied from nine rows below. -/
theorem paints_rasterCopy (s : Console) {y : ℕ} (hn : n ≤ P)
    (hfit : index P 0 (y + 9) + n ≤ 2 ^ 32)
    (hA : ∀ i, i / P = y ∨ i / P = y + 9 → i % P < n → i ∈ A) :
    Paints A (fun i => if i / P = y ∧ i % P < n then s.fb (i + 9 * P) else s.fb i) s
      (s.copyRow (BitVec.ofNat 32 (index P 0 y)) (BitVec.ofNat 32 (index P 0 (y + 9))) n) := by
  have hrun : ∀ y i, index P 0 y ≤ i ∧ i < index P 0 y + n ↔
      i / P = y ∧ 0 ≤ i % P ∧ i % P < 0 + n := fun _ _ => mem_run_iff (by omega)
  have hrows : index P 0 (y + 9) = index P 0 y + 9 * P := by
    unfold index
    ring
  refine (paints_copyRow s hfit (by omega) fun k hk => ⟨?_, ?_⟩).congr (funext fun i => ?_)
  · obtain ⟨h1, -, h2⟩ := (hrun y (index P 0 y + k)).mp ⟨by omega, by omega⟩
    exact hA _ (Or.inl h1) (by omega)
  · obtain ⟨h1, -, h2⟩ := (hrun (y + 9) (index P 0 (y + 9) + k)).mp ⟨by omega, by omega⟩
    exact hA _ (Or.inr h1) (by omega)
  · by_cases h : i / P = y ∧ i % P < n
    · have hr := (hrun y i).mpr ⟨h.1, Nat.zero_le _, by omega⟩
      rw [if_pos h, if_pos hr, hrows]
      congr 1
      omega
    · rw [if_neg h, if_neg fun hr => h ⟨((hrun y i).mp hr).1, by
        have := ((hrun y i).mp hr).2.2
        omega⟩]

/-- The first `m` rows of the text area replaced by those nine rows below. -/
def moved (P C m : ℕ) (fb : ℕ → U32) (i : ℕ) : U32 :=
  if i % P < C * 8 ∧ i / P < m then fb (i + 9 * P) else fb i

/-- The framebuffer after `fb_scroll`. -/
def scrolled (P C R : ℕ) (bg : U32) (fb : ℕ → U32) (i : ℕ) : U32 :=
  if i % P < C * 8 ∧ i / P < R * 9 then
    if i / P + 9 < R * 9 then fb (i + 9 * P) else bg
  else fb i

/-- One more row moved up. -/
theorem moved_succ {C m : ℕ} (hP : 0 < P) (i : ℕ) :
    (if i / P = m ∧ i % P < C * 8 then moved P C m fb (i + 9 * P) else moved P C m fb i) =
      moved P C (m + 1) fb i := by
  have hrow := row_add_rows hP i 9
  unfold moved
  by_cases hcol : i % P < C * 8
  · by_cases hm : i / P = m
    · rw [if_pos ⟨hm, hcol⟩, if_neg (by omega), if_pos ⟨hcol, by omega⟩]
    · rw [if_neg fun h => hm h.1]
      exact if_congr ⟨fun h => ⟨h.1, by omega⟩, fun h => ⟨h.1, by omega⟩⟩ rfl rfl
  · rw [if_neg fun h => hcol h.2, if_neg fun h => hcol h.1, if_neg fun h => hcol h.1]

/-- The rows of `fb_scroll` that are moved up. -/
theorem paints_moved (s : Console) {C R : ℕ} (hp : s.fbPitchU32.toNat = P)
    (hc : (s.fbCols * 8).toNat = C * 8) (hP : 0 < P) (hR : R < 2 ^ 32) (hcol : C * 8 ≤ P)
    (hfit : index P 0 (R * 9 - 1) + C * 8 ≤ 2 ^ 32)
    (hA : ∀ i, i / P < R * 9 → i % P < C * 8 → i ∈ A) :
    Paints A (moved P C ((R - 1) * 9) s.fb) s
      ((List.range' 1 (R - 1)).foldl (fun s r => (List.range 9).foldl (fun s y =>
        let r := BitVec.ofNat 32 r
        let y := BitVec.ofNat 32 y
        s.copyRow (((r - 1) * 9 + y) * s.fbPitchU32) ((r * 9 + y) * s.fbPitchU32)
          (s.fbCols * 8).toNat) s) s) := by
  have hrow : ∀ k < R - 1, ∀ y < 9, ∀ t, Paints A (moved P C (k * 9 + y) s.fb) s t →
      Paints A (moved P C (k * 9 + (y + 1)) s.fb) s (t.copyRow
        (((BitVec.ofNat 32 (1 + k) - 1) * 9 + BitVec.ofNat 32 y) * t.fbPitchU32)
        ((BitVec.ofNat 32 (1 + k) * 9 + BitVec.ofNat 32 y) * t.fbPitchU32)
        (t.fbCols * 8).toNat) := by
    intro k hk y hy t ht
    have hpitch : t.fbPitchU32.toNat = P := by rw [ht.eq, hp]
    have hcols : (t.fbCols * 8).toNat = C * 8 := by rw [ht.eq, hc]
    have hdst : (BitVec.ofNat 32 (1 + k) - 1) * 9 + BitVec.ofNat 32 y =
        BitVec.ofNat 32 (k * 9 + y) := by
      rw [Nat.add_comm 1 k, BitVec.ofNat_add k 1, BitVec.ofNat_add (k * 9) y, BitVec.ofNat_mul]
      exact congrArg (· * 9 + BitVec.ofNat 32 y) (BitVec.add_sub_cancel _ _)
    have hsrc : BitVec.ofNat 32 (1 + k) * 9 + BitVec.ofNat 32 y =
        BitVec.ofNat 32 (k * 9 + y + 9) := by
      rw [show k * 9 + y + 9 = (1 + k) * 9 + y by ring, BitVec.ofNat_add (_ * _), BitVec.ofNat_mul]
      rfl
    have hle : index P 0 (k * 9 + y + 9) + C * 8 ≤ 2 ^ 32 := by
      have := Nat.mul_le_mul_right P (show k * 9 + y + 9 ≤ R * 9 - 1 by omega)
      unfold index at *
      omega
    rw [hdst, hsrc, hcols, ofNat_row hpitch, ofNat_row hpitch]
    refine (ht.trans (paints_rasterCopy t hcol hle fun i hi hC => ?_)).congr (funext fun i => ?_)
    · exact hA i (by omega) hC
    · rw [ht.fb_eq]
      exact moved_succ hP i
  rw [List.range'_eq_map_range, List.foldl_map]
  refine Loop.foldl_range_spec (I := fun k => Paints A (moved P C (k * 9) s.fb) s)
    (fun k hk t ht => ?_) ?_
  · rw [Nat.add_mul, Nat.one_mul]
    exact Loop.foldl_range_spec (I := fun y => Paints A (moved P C (k * 9 + y) s.fb) s)
      (fun y hy t ht => hrow k hk y hy t ht) ht
  · exact (Paints.refl A s).congr
      (funext fun i => (if_neg fun h => absurd h.2 (by simp)).symm)

theorem paints_scroll (s : Console) {C R : ℕ} (hp : s.fbPitchU32.toNat = P)
    (hc : s.fbCols.toNat = C) (hr : s.fbRows.toNat = R) (hP : 0 < P) (hR : 0 < R)
    (hcol : C * 8 ≤ P) (hfit : index P 0 (R * 9 - 1) + C * 8 ≤ 2 ^ 32)
    (hA : ∀ i, i / P < R * 9 → i % P < C * 8 → i ∈ A) :
    Paints A (scrolled P C R s.bgColor s.fb) s s.scroll := by
  have hPlt := s.fbPitchU32.isLt
  have hRlt := s.fbRows.isLt
  have hwidth : (s.fbCols * 8).toNat = C * 8 := by
    rw [show s.fbCols * 8 = BitVec.ofNat 32 (s.fbCols.toNat * 8) from ofNat_mul _ 8, hc,
      BitVec.toNat_ofNat, Nat.mod_eq_of_lt (by omega)]
  have hmoved := paints_moved s hp hwidth hP (by omega) hcol hfit hA
  unfold scroll
  rw [hr]
  revert hmoved
  generalize (List.range' 1 (R - 1)).foldl _ s = t
  intro ht
  -- the framebuffer after the first `k` of the last nine rows
  have hclear := Loop.foldl_range_spec (n := 9) (s := t)
    (I := fun k => Paints A (fun i => if i % P < C * 8 ∧ (R - 1) * 9 ≤ i / P ∧
      i / P < (R - 1) * 9 + k then s.bgColor else moved P C ((R - 1) * 9) s.fb i) s)
    (g := fun u y => u.storeRow (((t.fbRows - 1) * 9 + BitVec.ofNat 32 y) * u.fbPitchU32)
      (u.fbCols * 8).toNat fun _ => u.bgColor)
    (fun k hk u hu => ?_) ?_
  · refine hclear.congr (funext fun i => ?_)
    unfold scrolled moved
    by_cases hcol : i % P < C * 8
    · by_cases hlast : i / P + 9 < R * 9
      · rw [if_neg (by omega), if_pos ⟨hcol, by omega⟩, if_pos ⟨hcol, by omega⟩, if_pos hlast]
      · by_cases hin : i / P < R * 9
        · rw [if_pos ⟨hcol, by omega, by omega⟩, if_pos ⟨hcol, hin⟩, if_neg hlast]
        · rw [if_neg (by omega), if_neg (by omega), if_neg fun h => hin h.2]
    · rw [if_neg fun h => hcol h.1, if_neg fun h => hcol h.1, if_neg fun h => hcol h.1]
  · have hpitch : u.fbPitchU32.toNat = P := by rw [hu.eq, hp]
    have hcols : (u.fbCols * 8).toNat = C * 8 := by rw [hu.eq, hwidth]
    have hbg : u.bgColor = s.bgColor := by rw [hu.eq]
    have hrows : (t.fbRows - 1).toNat = R - 1 := by
      rw [show t.fbRows = s.fbRows by rw [ht.eq], BitVec.toNat_sub_of_le, hr]
      · rfl
      · exact BitVec.le_def.mpr (by rw [hr]; exact hR)
    have hbase : (t.fbRows - 1) * 9 + BitVec.ofNat 32 k = BitVec.ofNat 32 ((R - 1) * 9 + k) := by
      rw [← hrows]
      exact ofNat_mul_add _ 9 k
    have hle : index P 0 ((R - 1) * 9 + k) + C * 8 ≤ 2 ^ 32 := by
      have := Nat.mul_le_mul_right P (show (R - 1) * 9 + k ≤ R * 9 - 1 by omega)
      unfold index at *
      omega
    rw [hbase, hcols, ofNat_row hpitch, hbg]
    refine (hu.trans (paints_rasterRow u (by omega) hle (fun i h1 h2 h3 => hA i (by omega)
      (by omega)) _)).congr (funext fun i => ?_)
    rw [hu.fb_eq]
    by_cases hcol : i % P < C * 8
    · by_cases hk : i / P = (R - 1) * 9 + k
      · rw [if_pos ⟨hk, Nat.zero_le _, by omega⟩, if_pos ⟨hcol, by omega, by omega⟩]
      · rw [if_neg fun h => hk h.1]
        exact if_congr ⟨fun h => ⟨h.1, h.2.1, by omega⟩, fun h => ⟨h.1, h.2.1, by omega⟩⟩ rfl rfl
    · rw [if_neg (by omega)]
      exact if_congr (iff_of_false (fun h => hcol h.1) fun h => hcol h.1) rfl rfl
  · exact ht.congr (funext fun i => (if_neg (by omega)).symm)

/-! ## Clearing -/

/-- A row of words of one colour, also where the indices wrap. -/
theorem paints_storeRow_const (s : Console) (base : U32) (n : ℕ) (c : U32)
    (hA : ∀ x < n, (base + BitVec.ofNat 32 x).toNat ∈ A) :
    ∃ fb', Paints A fb' s (s.storeRow base n fun _ => c) ∧
      (∀ x < n, fb' (base + BitVec.ofNat 32 x).toNat = c) ∧ ∀ i, s.fb i = c → fb' i = c := by
  refine Loop.foldl_range_spec (I := fun k t => ∃ fb', Paints A fb' s t ∧
    (∀ x < k, fb' (base + BitVec.ofNat 32 x).toNat = c) ∧ ∀ i, s.fb i = c → fb' i = c)
    (fun k hk t ht => ?_) ⟨s.fb, Paints.refl A s, fun _ h => absurd h (Nat.not_lt_zero _),
      fun _ h => h⟩
  obtain ⟨fb', hp, hdone, hkeep⟩ := ht
  have hset : ∀ i, fb' i = c → Function.update t.fb (base + BitVec.ofNat 32 k).toNat c i = c := by
    intro i hi
    rw [hp.fb_eq, Function.update_apply]
    split
    · rfl
    · exact hi
  refine ⟨_, hp.trans (paints_store t (hA k hk) c), fun x hx => ?_, fun i hi => hset i (hkeep i hi)⟩
  by_cases hxk : x = k
  · rw [hxk, Function.update_self]
  · exact hset _ (hdone x (by omega))

/-- `kconsole_clear` writes the background to every word of the screen that has an index. -/
theorem paints_clear (s : Console) {W H : ℕ} (hready : s.fbReady = true)
    (hp : s.fbPitchU32.toNat = P) (hw : s.fbWidth.toNat = W) (hh : s.fbHeight.toNat = H)
    (hA : ∀ y < H, ∀ x < W, (BitVec.ofNat 32 (index P x y)).toNat ∈ A) :
    ∃ fb' t, Paints A fb' s t ∧ s.clear = { t with curCol := 0, curRow := 0 } ∧
      ∀ y < H, ∀ x < W, fb' (BitVec.ofNat 32 (index P x y)).toNat = s.bgColor := by
  have hidx : ∀ t : Console, t.fbPitchU32 = s.fbPitchU32 → ∀ x y,
      BitVec.ofNat 32 y * t.fbPitchU32 + BitVec.ofNat 32 x = BitVec.ofNat 32 (index P x y) :=
    fun t ht x y => ofNat_index (by rw [ht, hp]) x y
  have hloop := Loop.foldl_range_spec (n := H) (s := s)
    (I := fun k t => ∃ fb', Paints A fb' s t ∧
      ∀ y < k, ∀ x < W, fb' (BitVec.ofNat 32 (index P x y)).toNat = s.bgColor)
    (g := fun t y => t.storeRow (BitVec.ofNat 32 y * t.fbPitchU32) t.fbWidth.toNat
      fun _ => t.bgColor)
    (fun k hk t ht => ?_) ⟨s.fb, Paints.refl A s, fun _ h => absurd h (Nat.not_lt_zero _)⟩
  · obtain ⟨fb', hpaint, hbg⟩ := hloop
    refine ⟨fb', _, hpaint, ?_, hbg⟩
    unfold clear
    rw [if_pos hready, hh]
  · obtain ⟨fb', hpaint, hbg⟩ := ht
    have hpitch : t.fbPitchU32 = s.fbPitchU32 := by rw [hpaint.eq]
    have hwidth : t.fbWidth.toNat = W := by rw [hpaint.eq, hw]
    have hcolor : t.bgColor = s.bgColor := by rw [hpaint.eq]
    obtain ⟨fb'', hpaint', hrow, hkeep⟩ := paints_storeRow_const (A := A) t
      (BitVec.ofNat 32 k * t.fbPitchU32) W s.bgColor fun x hx => by
        rw [hidx t hpitch]
        exact hA k hk x hx
    rw [hwidth, hcolor]
    refine ⟨fb'', hpaint.trans hpaint', fun y hy x hx => ?_⟩
    by_cases hyk : y = k
    · have := hrow x hx
      rwa [hidx t hpitch, ← hyk] at this
    · refine hkeep _ ?_
      rw [hpaint.fb_eq]
      exact hbg y (by omega) x hx

/-! ## Colours -/

/-- From `s` to `s'` only the colours and the parameters have changed. -/
structure Recolors (s s' : Console) : Prop where
  eq : s' = { s with
    fgColor := s'.fgColor
    bgColor := s'.bgColor
    escParams := s'.escParams
    escNparam := s'.escNparam
    accesses := s'.accesses }
  accesses : ∀ a ∈ s'.accesses, a ∈ s.accesses ∨ a.Small

theorem Recolors.refl (s : Console) : Recolors s s := ⟨rfl, fun _ h => Or.inl h⟩

theorem Recolors.trans (h : Recolors s s') (h' : Recolors s' s'') : Recolors s s'' := by
  refine ⟨?_, fun a ha => (h'.accesses a ha).elim (h.accesses a) Or.inr⟩
  rw [h'.eq, h.eq]

theorem recolors_touch (s : Console) {a : Access} (ha : a.Small) : Recolors s (s.touch a) :=
  ⟨rfl, fun _ hb => (List.mem_cons.mp hb).elim (fun h => Or.inr (h ▸ ha)) Or.inl⟩

theorem recolors_set (s : Console) (fg bg : U32) {a : Access} (ha : a.Small) :
    Recolors s { s.touch a with fgColor := fg, bgColor := bg } :=
  ⟨rfl, (recolors_touch s ha).accesses⟩

theorem recolors_setParam (s : Console) {i : ℕ} (hi : i < 8) (v : U32) :
    Recolors s (s.setParam i v) := ⟨rfl, (recolors_touch s (a := .param i) hi).accesses⟩

theorem recolors_brighten : ∀ (js : List ℕ) (s : Console), (∀ j ∈ js, j < 8) →
    Recolors s (s.brighten js)
  | [], s, _ => Recolors.refl s
  | j :: js, s, h => by
    have hj := h j List.mem_cons_self
    have htouch := recolors_touch s (a := .palette j) (show j < 16 by omega)
    unfold brighten
    dsimp only
    split
    · exact htouch.trans (recolors_set _ _ _ (a := .palette (j + 8)) (show j + 8 < 16 by omega))
    · exact htouch.trans (recolors_brighten js _ fun k hk => h k (List.mem_cons_of_mem _ hk))

/-- The index of a colour, for a parameter from `lo` to `lo + 7`. -/
theorem toNat_sub_of_mem {p lo hi : U32} (h : lo ≤ p ∧ p ≤ hi) (hhi : hi.toNat = lo.toNat + 7) :
    (p - lo).toNat = p.toNat - lo.toNat ∧ (p - lo + 8).toNat = p.toNat - lo.toNat + 8 ∧
      p.toNat - lo.toNat < 8 := by
  have hlo := BitVec.le_def.mp h.1
  have hle := BitVec.le_def.mp h.2
  have hsub : (p - lo).toNat = p.toNat - lo.toNat := BitVec.toNat_sub_of_le h.1
  refine ⟨hsub, ?_, by omega⟩
  rw [BitVec.toNat_add, hsub]
  exact Nat.mod_eq_of_lt (show p.toNat - lo.toNat + 8 < 2 ^ 32 by omega)

theorem recolors_applyParam (s : Console) (p : U32) : Recolors s (s.applyParam p) := by
  unfold applyParam
  split_ifs with h0 h1 h30 h90 h40 h100
  · exact ⟨rfl, fun _ h => Or.inl h⟩
  · exact recolors_brighten _ s fun j hj => List.mem_range.mp hj
  · obtain ⟨h, -, hlt⟩ := toNat_sub_of_mem h30 rfl
    exact recolors_set s _ s.bgColor (a := .palette _) (by rw [h]; exact hlt.trans (by decide))
  · obtain ⟨-, h, hlt⟩ := toNat_sub_of_mem h90 rfl
    exact recolors_set s _ s.bgColor (a := .palette _) (by rw [h]; exact Nat.add_lt_add_right hlt 8)
  · obtain ⟨h, -, hlt⟩ := toNat_sub_of_mem h40 rfl
    exact recolors_set s s.fgColor _ (a := .palette _) (by rw [h]; exact hlt.trans (by decide))
  · obtain ⟨-, h, hlt⟩ := toNat_sub_of_mem h100 rfl
    exact recolors_set s s.fgColor _ (a := .palette _)
      (by rw [h]; exact Nat.add_lt_add_right hlt 8)
  · exact Recolors.refl s

theorem recolors_applySgr (s : Console) (hn : s.escNparam.toNat ≤ 8) : Recolors s s.applySgr := by
  set t := if s.escNparam = 0 then { s.setParam 0 0 with escNparam := 1 } else s with ht
  have hstart : Recolors s t ∧ t.escNparam.toNat ≤ 8 := by
    rw [ht]
    split
    · exact ⟨⟨rfl, (recolors_setParam s (show 0 < 8 by decide) 0).accesses⟩,
        show (1 : U8).toNat ≤ 8 by decide⟩
    · exact ⟨Recolors.refl s, hn⟩
  refine Loop.foldl_range_spec (I := fun _ u => Recolors s u) (fun k hk u hu => ?_) hstart.1
  have hsmall : Access.Small (.param k) := Nat.lt_of_lt_of_le hk hstart.2
  exact hu.trans ((recolors_touch u hsmall).trans (recolors_applyParam _ _))

end Console

end Jeos.Kconsole
