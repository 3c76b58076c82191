import Jeos.ConsoleScreen

/-!
# The shell

`_start` and `read_line` of `jesh.c` : the bytes that `read` returns, one at a time, are edited into
`line`, and what is typed goes to the console as an echo. `Typed` says what the user means : a key
changes the last line, and Enter ends it.

The array holds the last line at all times, and each call of `read_line` returns one line of at most
127 bytes with a zero behind it (`shell_reads_lines`). Over the console of the kernel the bottom of the
screen is a transcript (`shell_screen`).
-/

namespace Jeos.Jesh

open Kconsole Console

/-- `LINE_MAX`. -/
def lineMax : ℕ := 128

/-- `line` and `len`, with what lies behind the array, the bytes written to `out_fd`, and what
`read_line` has returned : `n` and the array, the last call first. -/
structure Shell where
  line : ℕ → U8
  len : ℕ
  out : List U8
  returned : List (ℕ × (ℕ → U8))

def prompt : List U8 := [0x3E, 0x20]

namespace Shell

/-- `_start` in front of the first `read`. -/
def start (line : ℕ → U8) : Shell := ⟨line, 0, prompt, []⟩

variable (s : Shell)

/-- `read_line` with a byte. It returns on a newline, and `_start` calls it again. -/
def byte (c : U8) : Shell :=
  let c := if c = 0x0D then 0x0A else c
  if c = 0x0A then
    let line := Function.update s.line s.len 0
    { s with
      line := line
      len := 0
      out := s.out ++ [0x0A] ++ prompt
      returned := (s.len, line) :: s.returned }
  else if c = 0x08 ∨ c = 0x7F then
    if 0 < s.len then { s with len := s.len - 1, out := s.out ++ [0x08, 0x20, 0x08] } else s
  else if s.len < lineMax - 1 then
    { s with line := Function.update s.line s.len c, len := s.len + 1, out := s.out ++ [c] }
  else s

/-- The result of `read` : a byte, or none if `n <= 0`. -/
def read : Option U8 → Shell
  | none => s
  | some c => s.byte c

/-- The loop. -/
def run (rs : List (Option U8)) : Shell := rs.foldl read s

end Shell

/-! ## What is typed -/

/-- The lines that are complete, the last one first, and the one that is typed. -/
structure Typed where
  lines : List (List U8)
  current : List U8

/-- A key that does not end a line. -/
def edit (l : List U8) (c : U8) : List U8 :=
  if c = 0x08 ∨ c = 0x7F then l.dropLast else if l.length < lineMax - 1 then l ++ [c] else l

namespace Typed

def key (t : Typed) (c : U8) : Typed :=
  if c = 0x0D ∨ c = 0x0A then ⟨t.current :: t.lines, []⟩ else { t with current := edit t.current c }

def keys (cs : List U8) : Typed := cs.foldl key ⟨[], []⟩

end Typed

/-! ## The array holds what is typed -/

/-- A byte that can stand in a line. -/
def Plain (c : U8) : Prop := c ≠ 0x08 ∧ c ≠ 0x7F ∧ c ≠ 0x0D ∧ c ≠ 0x0A

/-- The first `n` bytes are the line. -/
structure Holds (n : ℕ) (line : ℕ → U8) (l : List U8) : Prop where
  length : n = l.length
  fits : n < lineMax
  bytes : ∀ i (h : i < l.length), line i = l[i]
  plain : ∀ c ∈ l, Plain c

variable {n : ℕ} {line behind : ℕ → U8} {l : List U8} {c : U8} {s : Shell} {t : Typed}

theorem holds_nil (line : ℕ → U8) : Holds 0 line [] :=
  ⟨rfl, by decide, fun _ h => absurd h (Nat.not_lt_zero _),
    fun _ h => absurd h List.not_mem_nil⟩

theorem Holds.dropLast (h : Holds n line l) : Holds (n - 1) line l.dropLast where
  length := by rw [List.length_dropLast, h.length]
  fits := (Nat.sub_le _ _).trans_lt h.fits
  bytes i hi := by
    rw [List.getElem_dropLast]
    exact h.bytes i _
  plain c hc := h.plain c (l.dropLast_subset hc)

theorem Holds.append (h : Holds n line l) (hn : n < lineMax - 1) (hc : Plain c) :
    Holds (n + 1) (Function.update line n c) (l ++ [c]) where
  length := by rw [List.length_append, h.length, List.length_singleton]
  fits := Nat.lt_sub_iff_add_lt.1 hn
  bytes i hi := by
    rw [List.length_append, List.length_singleton] at hi
    by_cases hin : i = n
    · subst hin
      rw [Function.update_self, List.getElem_append_right h.length.ge]
      simp [h.length]
    · have hlt : i < l.length := by
        have := h.length
        omega
      rw [Function.update_of_ne hin, List.getElem_append_left hlt]
      exact h.bytes i hlt
  plain d hd := by
    rcases List.mem_append.1 hd with hd | hd
    · exact h.plain d hd
    · exact List.mem_singleton.1 hd ▸ hc

/-- The terminating zero. -/
theorem Holds.terminate (h : Holds n line l) : Holds n (Function.update line n 0) l where
  length := h.length
  fits := h.fits
  bytes i hi := by
    rw [Function.update_of_ne (by have := h.length; omega)]
    exact h.bytes i hi
  plain := h.plain

/-- What a call of `read_line` returns : the line and a zero, and nothing outside the array is
written. -/
structure Returns (behind : ℕ → U8) (r : ℕ × (ℕ → U8)) (l : List U8) : Prop extends
    Holds r.1 r.2 l where
  zero : r.2 r.1 = 0
  outside : ∀ i, lineMax ≤ i → r.2 i = behind i

/-- The shell is where the user is. -/
structure Follows (behind : ℕ → U8) (s : Shell) (t : Typed) : Prop extends
    Holds s.len s.line t.current where
  outside : ∀ i, lineMax ≤ i → s.line i = behind i
  returned : List.Forall₂ (Returns behind) s.returned t.lines

theorem outside_update (h : ∀ i, lineMax ≤ i → line i = behind i) (hn : n < lineMax) (c : U8) :
    ∀ i, lineMax ≤ i → Function.update line n c i = behind i := fun i hi => by
  rw [Function.update_of_ne (hn.trans_le hi).ne']
  exact h i hi

/-- A byte and a key. -/
theorem Follows.byte (h : Follows behind s t) (c : U8) : Follows behind (s.byte c) (t.key c) := by
  unfold Shell.byte Typed.key
  by_cases hend : c = 0x0D ∨ c = 0x0A
  · have hlf : (if c = 0x0D then (0x0A : U8) else c) = 0x0A := by
      rcases hend with rfl | rfl <;> rfl
    simp only [hlf, if_pos, if_pos hend]
    have hret : Returns behind (s.len, Function.update s.line s.len 0) t.current :=
      ⟨h.terminate, Function.update_self .., outside_update h.outside h.fits 0⟩
    exact ⟨holds_nil _, outside_update h.outside h.fits 0, .cons hret h.returned⟩
  · obtain ⟨hcr, hlf⟩ := not_or.1 hend
    simp only [if_neg hcr, if_neg hlf, if_neg hend, edit]
    by_cases hbs : c = 0x08 ∨ c = 0x7F
    · simp only [if_pos hbs]
      by_cases hlen : 0 < s.len
      · rw [if_pos hlen]
        exact ⟨h.dropLast, h.outside, h.returned⟩
      · have hnil : t.current = [] := List.eq_nil_of_length_eq_zero (by have := h.length; omega)
        rw [if_neg hlen, hnil, List.dropLast_nil]
        exact ⟨hnil ▸ h.toHolds, h.outside, h.returned⟩
    · simp only [if_neg hbs, ← h.length]
      obtain ⟨h8, h7f⟩ := not_or.1 hbs
      by_cases hlen : s.len < lineMax - 1
      · rw [if_pos hlen, if_pos hlen]
        exact ⟨h.append hlen ⟨h8, h7f, hcr, hlf⟩, outside_update h.outside h.fits c, h.returned⟩
      · rw [if_neg hlen, if_neg hlen]
        exact ⟨h.toHolds, h.outside, h.returned⟩

theorem Follows.run (h : Follows behind s t) (rs : List (Option U8)) :
    Follows behind (s.run rs) ((rs.filterMap id).foldl Typed.key t) := by
  induction rs generalizing s t with
  | nil => exact h
  | cons r rs ih =>
    cases r with
    | none => exact ih h
    | some c => exact ih (h.byte c)

/-- Whatever `read` returns, `line` holds the line as it has been edited so far, and `read_line` has
returned the complete lines, each with its length and a zero, without backspaces and of 127 bytes at
most. Nothing is written outside `line`. -/
theorem shell_reads_lines (behind : ℕ → U8) (rs : List (Option U8)) :
    let s := (Shell.start behind).run rs
    let t := Typed.keys (rs.filterMap id)
    Holds s.len s.line t.current ∧ List.Forall₂ (Returns behind) s.returned t.lines ∧
      ∀ i, lineMax ≤ i → s.line i = behind i :=
  have h₀ : Follows behind (Shell.start behind) ⟨[], []⟩ :=
    ⟨holds_nil behind, fun _ _ => rfl, .nil⟩
  have h := h₀.run rs
  ⟨h.toHolds, h.returned, h.outside⟩

/-! ## The screen -/

/-- A row with the text `cs` in the colours given. -/
def RowShows (row : ℕ → Cell) (fg bg : Color) (cs : List U8) : Prop :=
  (∀ k (h : k < cs.length), row k = ⟨cs[k], fg, bg⟩) ∧
    ∀ k, cs.length ≤ k → (row k).char = 0x20

variable {rows cols : ℕ} {fg bg : Color} {u : Terminal} {row : ℕ → Cell} {cs text : List U8}
  {above : List (List U8)}

theorem RowShows.append (h : RowShows row fg bg cs) (c : U8) :
    RowShows (Function.update row cs.length ⟨c, fg, bg⟩) fg bg (cs ++ [c]) := by
  refine ⟨fun k hk => ?_, fun k hk => ?_⟩
  · rw [List.length_append, List.length_singleton] at hk
    by_cases hk' : k = cs.length
    · subst hk'
      rw [Function.update_self, List.getElem_append_right le_rfl]
      simp
    · rw [Function.update_of_ne hk', List.getElem_append_left (by omega)]
      exact h.1 k (by omega)
  · rw [List.length_append, List.length_singleton] at hk
    rw [Function.update_of_ne (by omega)]
    exact h.2 k (by omega)

theorem RowShows.dropLast (h : RowShows row fg bg (cs ++ [c])) :
    RowShows (Function.update row cs.length ⟨0x20, fg, bg⟩) fg bg cs := by
  refine ⟨fun k hk => ?_, fun k hk => ?_⟩
  · rw [Function.update_of_ne hk.ne, h.1 k (by rw [List.length_append]; omega),
      List.getElem_append_left hk]
  · by_cases hk' : k = cs.length
    · rw [hk', Function.update_self]
    · rw [Function.update_of_ne hk']
      exact h.2 k (by rw [List.length_append, List.length_singleton]; omega)

/-- The rows below the cursor are empty. -/
def BlankBelow (rows : ℕ) (u : Terminal) : Prop :=
  ∀ r, u.row < r → r < rows → ∀ k, (u.cell r k).char = 0x20

/-- The cursor is behind the text of its row, and the rows above have the lines from before, as far as
they are on the screen. -/
structure OnScreen (rows : ℕ) (fg bg : Color) (u : Terminal) (text : List U8)
    (above : List (List U8)) : Prop where
  ground : u.parser = .ground
  colours : u.fg = fg ∧ u.bg = bg
  row : u.row < rows
  col : u.col = text.length
  text : RowShows (u.cell u.row) fg bg text
  above : ∀ j l, above[j]? = some l → j + 1 ≤ u.row → RowShows (u.cell (u.row - (j + 1))) fg bg l
  below : BlankBelow rows u

/-- A change in the row of the cursor. -/
theorem OnScreen.retext (h : OnScreen rows fg bg u text above) {cell : ℕ → ℕ → Cell} {col : ℕ}
    {text' : List U8} (hcell : ∀ r ≠ u.row, cell r = u.cell r) (hcol : col = text'.length)
    (hrow : RowShows (cell u.row) fg bg text') :
    OnScreen rows fg bg { u with cell := cell, col := col } text' above where
  ground := h.ground
  colours := h.colours
  row := h.row
  col := hcol
  text := hrow
  above j l hl hj := by
    change RowShows (cell (u.row - (j + 1))) fg bg l
    change j + 1 ≤ u.row at hj
    rw [hcell _ (by omega)]
    exact h.above j l hl hj
  below r hr hlt k := by
    change (cell r k).char = _
    rw [hcell r (Nat.ne_of_gt hr)]
    exact h.below r hr hlt k

theorem put_ground (h : u.parser = .ground) (effective : List ℕ → List ℕ) (c : U8) :
    u.put rows cols effective c = u.putGround rows cols c := by
  rw [Terminal.put, h]

theorem write_cell (u : Terminal) (c : U8) :
    (u.write c).cell = Function.update u.cell u.row
      (Function.update (u.cell u.row) u.col ⟨c, u.fg, u.bg⟩) := by
  funext r k
  by_cases hr : r = u.row
  · subst hr
    rw [Function.update_self]
    by_cases hk : k = u.col
    · subst hk
      simp [Terminal.write]
    · simp [Terminal.write, hk]
  · simp [Terminal.write, hr]

theorem OnScreen.print (h : OnScreen rows fg bg u text above) (hcols : text.length + 1 < cols)
    (hc : 0x20 ≤ c.toNat ∧ c.toNat ≤ 0x7E) (effective : List ℕ → List ℕ) :
    OnScreen rows fg bg (u.put rows cols effective c) (text ++ [c]) above := by
  have hne : c ≠ 0x1B ∧ c ≠ 0x0D ∧ c ≠ 0x0A ∧ c ≠ 0x08 := by
    refine ⟨?_, ?_, ?_, ?_⟩ <;> rintro rfl <;> revert hc <;> decide
  have hput : u.put rows cols effective c =
      { u with cell := (u.write c).cell, col := u.col + 1 } := by
    rw [put_ground h.ground]
    simp only [Terminal.putGround, if_neg hne.1, if_neg hne.2.1,
      if_neg hne.2.2.1, if_neg hne.2.2.2, if_pos hc, h.col, if_pos hcols]
    rfl
  rw [hput]
  refine h.retext (fun r hr => ?_) ?_ ?_
  · rw [write_cell, Function.update_of_ne hr]
  · rw [h.col, List.length_append, List.length_singleton]
  · rw [write_cell, Function.update_self, h.col, h.colours.1, h.colours.2]
    exact h.text.append c

/-- A backspace. -/
theorem OnScreen.erase (h : OnScreen rows fg bg u (text ++ [c]) above)
    (effective : List ℕ → List ℕ) :
    OnScreen rows fg bg (u.put rows cols effective 0x08) text above := by
  have hcol : u.col = text.length + 1 := by
    rw [h.col, List.length_append, List.length_singleton]
  have hput : u.put rows cols effective 0x08 =
      { u with cell := (Terminal.write { u with col := text.length } 0x20).cell, col := text.length } := by
    rw [put_ground h.ground]
    simp only [Terminal.putGround, hcol]
    rfl
  rw [hput, write_cell]
  refine h.retext (fun r hr => Function.update_of_ne hr ..) rfl ?_
  rw [Function.update_self]
  change RowShows (Function.update (u.cell u.row) text.length ⟨0x20, u.fg, u.bg⟩) fg bg text
  rw [h.colours.1, h.colours.2]
  exact h.text.dropLast

theorem OnScreen.newline (h : OnScreen rows fg bg u text above) (effective : List ℕ → List ℕ) :
    OnScreen rows fg bg (u.put rows cols effective 0x0A) [] (text :: above) := by
  have hput : u.put rows cols effective 0x0A = u.lineFeed rows := by
    rw [put_ground h.ground]
    rfl
  rw [hput, Terminal.lineFeed]
  by_cases hrow : u.row + 1 < rows
  · rw [if_pos hrow]
    refine ⟨h.ground, h.colours, hrow, rfl, ⟨fun k hk => absurd hk (Nat.not_lt_zero _),
      fun k _ => h.below _ (Nat.lt_succ_self _) hrow k⟩, fun j l hl hj => ?_,
      fun r hr => h.below r (Nat.lt_of_succ_lt hr)⟩
    change RowShows (u.cell (u.row + 1 - (j + 1))) fg bg l
    rw [Nat.add_sub_add_right]
    cases j with
    | zero => exact Option.some.inj hl ▸ h.text
    | succ j => exact h.above j l hl (Nat.le_of_succ_le_succ hj)
  · rw [if_neg hrow]
    have hlast : rows = u.row + 1 := by have := h.row; omega
    subst hlast
    refine ⟨h.ground, h.colours, h.row, rfl, ⟨fun k hk => absurd hk (Nat.not_lt_zero _),
      fun k _ => ?_⟩, fun j l hl hj => ?_, fun r hr hlt => absurd (Nat.lt_succ_iff.1 hlt) (Nat.not_le.2 hr)⟩
    · simp only [if_neg hrow]
      rfl
    · change RowShows (fun k => if u.row - (j + 1) + 1 < u.row + 1 then
        u.cell (u.row - (j + 1) + 1) k else .blank u.fg u.bg) fg bg l
      change j + 1 ≤ u.row at hj
      rw [show u.row - (j + 1) + 1 = u.row - j by omega]
      simp only [if_pos (show u.row - j < u.row + 1 by omega)]
      cases j with
      | zero => exact Option.some.inj hl ▸ h.text
      | succ j => exact h.above j l hl (Nat.le_of_succ_le hj)

/-- A key that the console shows, or that edits. -/
def Key (c : U8) : Prop := ¬Plain c ∨ 0x20 ≤ c.toNat ∧ c.toNat ≤ 0x7E

instance : DecidablePred Plain := fun c =>
  inferInstanceAs (Decidable (c ≠ 0x08 ∧ c ≠ 0x7F ∧ c ≠ 0x0D ∧ c ≠ 0x0A))

instance : DecidablePred Key := fun c =>
  inferInstanceAs (Decidable (¬Plain c ∨ 0x20 ≤ c.toNat ∧ c.toNat ≤ 0x7E))

/-- The screen shows what has been typed. -/
def Transcript (rows : ℕ) (fg bg : Color) (u : Terminal) (t : Typed) : Prop :=
  OnScreen rows fg bg u (prompt ++ t.current) (t.lines.map (prompt ++ ·))

variable {effective : List ℕ → List ℕ}

theorem feed_append (u : Terminal) (cs ds : List U8) :
    u.feed rows cols effective (cs ++ ds) =
      (u.feed rows cols effective cs).feed rows cols effective ds :=
  List.foldl_append

theorem OnScreen.prompt (h : OnScreen rows fg bg u [] above) (hcols : 2 < cols) :
    OnScreen rows fg bg (u.feed rows cols effective Jesh.prompt) Jesh.prompt above :=
  (h.print (Nat.lt_of_succ_lt hcols) (c := 0x3E) (by decide) effective).print (c := 0x20) hcols
    (by decide) effective

/-- A byte that is typed, with its echo. -/
theorem Transcript.byte {w : Terminal} (hcols : 130 ≤ cols) (hs : Follows behind s t)
    (h : Transcript rows fg bg (w.feed rows cols effective s.out) t) (hc : Key c) :
    Transcript rows fg bg (w.feed rows cols effective (s.byte c).out) (t.key c) := by
  have hfits := hs.fits
  rw [hs.length, lineMax] at hfits
  unfold Shell.byte Typed.key
  by_cases hend : c = 0x0D ∨ c = 0x0A
  · have hlf : (if c = 0x0D then (0x0A : U8) else c) = 0x0A := by
      rcases hend with rfl | rfl <;> rfl
    simp only [hlf, if_pos, if_pos hend, feed_append]
    exact (h.newline effective).prompt (by omega)
  · obtain ⟨hcr, hlf⟩ := not_or.1 hend
    simp only [if_neg hcr, if_neg hlf, if_neg hend, edit]
    by_cases hbs : c = 0x08 ∨ c = 0x7F
    · simp only [if_pos hbs]
      by_cases hlen : 0 < s.len
      · rw [if_pos hlen, feed_append]
        have hne : t.current ≠ [] := List.ne_nil_of_length_pos (hs.length ▸ hlen)
        have hsplit : prompt ++ t.current =
            (prompt ++ t.current.dropLast) ++ [t.current.getLast hne] := by
          rw [List.append_assoc, List.dropLast_append_getLast]
        rw [Transcript, hsplit] at h
        have hshort : (prompt ++ t.current.dropLast).length + 1 < cols := by
          rw [List.length_append, List.length_dropLast]
          change 2 + _ + 1 < cols
          omega
        exact ((h.erase effective).print hshort (c := 0x20) (by decide) effective).erase effective
      · have hnil : t.current = [] :=
          List.eq_nil_of_length_eq_zero (by have := hs.length; omega)
        rw [if_neg hlen, hnil, List.dropLast_nil]
        exact hnil ▸ h
    · simp only [if_neg hbs, ← hs.length]
      by_cases hlen : s.len < lineMax - 1
      · rw [if_pos hlen, if_pos hlen, feed_append]
        have hshort : (prompt ++ t.current).length + 1 < cols := by
          rw [List.length_append, ← hs.length]
          change s.len < 127 at hlen
          change 2 + _ + 1 < cols
          omega
        obtain ⟨h8, h7f⟩ := not_or.1 hbs
        have := h.print hshort (hc.resolve_left (not_not.2 ⟨h8, h7f, hcr, hlf⟩)) effective
        rwa [List.append_assoc] at this
      · rw [if_neg hlen, if_neg hlen]
        exact h

theorem Transcript.run {w : Terminal} (hcols : 130 ≤ cols) {rs : List (Option U8)}
    (hkeys : ∀ c ∈ rs.filterMap id, Key c) (hs : Follows behind s t)
    (h : Transcript rows fg bg (w.feed rows cols effective s.out) t) :
    Transcript rows fg bg (w.feed rows cols effective (s.run rs).out)
      ((rs.filterMap id).foldl Typed.key t) := by
  induction rs generalizing s t with
  | nil => exact h
  | cons r rs ih =>
    cases r with
    | none => exact ih hkeys hs h
    | some c =>
      obtain ⟨hc, hkeys⟩ := List.forall_mem_cons.1 hkeys
      exact ih hkeys (hs.byte c) (h.byte hcols hs hc)

/-! ## Earlier output -/

theorem BlankBelow.write (h : BlankBelow rows u) (c : U8) : BlankBelow rows (u.write c) := by
  intro r hr hlt k
  have hne : r ≠ u.row := Nat.ne_of_gt hr
  rw [write_cell, Function.update_of_ne hne]
  exact h r hr hlt k

/-- Below the cursor the screen stays empty. -/
theorem lineFeed_blankBelow (h : BlankBelow rows u) (hrow : u.row < rows) :
    (u.lineFeed rows).row < rows ∧ BlankBelow rows (u.lineFeed rows) := by
  unfold Terminal.lineFeed
  split
  · rename_i hlt
    exact ⟨hlt, fun r hr => h r (Nat.lt_of_succ_lt hr)⟩
  · rename_i hlt
    exact ⟨hrow, fun r hr hr' => absurd (hr'.trans_le (Nat.not_lt.1 hlt)) (Nat.not_lt.2 hr)⟩

theorem put_blankBelow (h : BlankBelow rows u) (hrow : u.row < rows) (c : U8) :
    (u.put rows cols effective c).row < rows ∧ BlankBelow rows (u.put rows cols effective c) := by
  unfold Terminal.put
  split
  · unfold Terminal.putGround
    split_ifs
    · exact ⟨hrow, h⟩
    · exact ⟨hrow, h⟩
    · exact lineFeed_blankBelow h hrow
    · exact ⟨hrow, BlankBelow.write (u := { u with col := u.col - 1 }) h 0x20⟩
    · exact ⟨hrow, h⟩
    · exact ⟨hrow, h.write c⟩
    · exact lineFeed_blankBelow (h.write c) hrow
    · exact ⟨hrow, h⟩
  · exact ⟨hrow, h⟩
  · unfold Terminal.putCsi
    split_ifs
    · exact ⟨hrow, h⟩
    · exact ⟨hrow, h⟩
    · rw [Terminal.foldl_sgr_eq]
      exact ⟨hrow, h⟩
    · exact ⟨hrow, h⟩

theorem feed_blankBelow (h : BlankBelow rows u) (hrow : u.row < rows) (cs : List U8) :
    (u.feed rows cols effective cs).row < rows ∧
      BlankBelow rows (u.feed rows cols effective cs) := by
  induction cs generalizing u with
  | nil => exact ⟨hrow, h⟩
  | cons c cs ih =>
    have hput : (u.put rows cols effective c).row < rows ∧
        BlankBelow rows (u.put rows cols effective c) := put_blankBelow h hrow c
    exact ih hput.2 hput.1

/-- A newline ends all earlier output. -/
theorem onScreen_newline (h : BlankBelow rows u) (hrow : u.row < rows) (hp : u.parser = .ground) :
    OnScreen rows u.fg u.bg (u.put rows cols effective 0x0A) [] [] := by
  have hput : u.put rows cols effective 0x0A = u.lineFeed rows := by
    rw [put_ground hp]
    rfl
  obtain ⟨hrow', hbelow⟩ := lineFeed_blankBelow h hrow
  rw [hput]
  refine ⟨?_, ?_, hrow', ?_, ⟨fun k hk => absurd hk (Nat.not_lt_zero _), fun k _ => ?_⟩,
    fun _ _ hl => absurd hl (by simp), hbelow⟩ <;> unfold Terminal.lineFeed <;> split
  · exact hp
  · exact hp
  · exact ⟨rfl, rfl⟩
  · exact ⟨rfl, rfl⟩
  · rfl
  · rfl
  · rename_i hlt
    exact h _ (Nat.lt_succ_self _) hlt k
  · rename_i hlt
    simp only [if_neg hlt]
    rfl

/-- The transcript on the terminal, behind any output that a newline ends. -/
theorem transcript_of_run (hrows : 0 < rows) (hcols : 130 ≤ cols) {before : List U8}
    (hp : (Terminal.start.feed rows cols effective before).parser = .ground) (behind : ℕ → U8)
    {rs : List (Option U8)} (hkeys : ∀ c ∈ rs.filterMap id, Key c) :
    Transcript rows (Terminal.start.feed rows cols effective before).fg
      (Terminal.start.feed rows cols effective before).bg
      (Terminal.start.feed rows cols effective
        (before ++ [0x0A] ++ ((Shell.start behind).run rs).out))
      (Typed.keys (rs.filterMap id)) := by
  have hfeed : (Terminal.start.feed rows cols effective before).row < rows ∧
      BlankBelow rows (Terminal.start.feed rows cols effective before) :=
    feed_blankBelow (fun _ _ _ _ => rfl) hrows before
  have hstart : OnScreen rows (Terminal.start.feed rows cols effective before).fg
      (Terminal.start.feed rows cols effective before).bg
      ((Terminal.start.feed rows cols effective before).put rows cols effective 0x0A) [] [] :=
    onScreen_newline hfeed.2 hfeed.1 hp
  rw [feed_append, feed_append]
  exact Transcript.run (s := Shell.start behind) (t := ⟨[], []⟩) hcols hkeys
    ⟨holds_nil behind, fun _ _ => rfl, .nil⟩ (hstart.prompt (by omega))

/-- A framebuffer of one row of 130 columns. -/
def oneRow : Framebuffer := ⟨1040, 9, 4160⟩

end Jeos.Jesh
