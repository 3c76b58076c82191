import Jeos.Vfs

/-!
# The syntax of paths

`vfs_next_component` on the bytes of a string in memory, with its loops over a pointer. Only the
bytes up to the terminating 0 may be read; a read behind them has no result.

Called again and again it yields the maximal runs of bytes without a slash, in order
(`exists_yields`), which are the `components` that the walkers see. A component `.` is passed over
(`walk_filter`), so `vfs_lookup` only depends on the others (`path_is_component_list`).
-/

namespace Jeos

namespace Vfs

set_option linter.unusedSectionVars false

/-! ## The cursor -/

/-- `while (f(*s)) s++;` where `cs` are the bytes from `s` on. -/
def skip (f : U8 → Bool) : List U8 → ℕ → Option ℕ
  | [], _ => none
  | c :: cs, s => if f c then skip f cs (s + 1) else some s

/-- What `vfs_next_component` stores : `*out_s`, `*out_len` and `*p`, as offsets. -/
structure Component where
  start : ℕ
  len : ℕ
  rest : ℕ

/-- `vfs_next_component` at offset `p` of a string. -/
def vfsNextComponent (str : List U8) (p : ℕ) : Option Component := do
  let s ← skip (· == slash) (str.drop p) p
  let c ← str[s]?
  if c = 0 then some ⟨s, 0, s⟩
  else
    let e ← skip isName (str.drop s) s
    let p' ← skip (· == slash) (str.drop e) e
    some ⟨s, e - s, p'⟩

/-- The starts and lengths of the components from `p` on, up to the one of length 0. -/
inductive Yields (str : List U8) : ℕ → List (ℕ × ℕ) → Prop
  | done {p : ℕ} {c : Component} : vfsNextComponent str p = some c → c.len = 0 → Yields str p []
  | more {p : ℕ} {c : Component} {runs : List (ℕ × ℕ)} : vfsNextComponent str p = some c →
      c.len ≠ 0 → Yields str c.rest runs → Yields str p ((c.start, c.len) :: runs)

/-- A maximal run of bytes that are no slashes. -/
structure MaximalRun (path : List U8) (i n : ℕ) : Prop where
  pos : 0 < n
  le : i + n ≤ path.length
  bytes : ∀ j, i ≤ j → j < i + n → path[j]? ≠ some slash
  left : i = 0 ∨ path[i - 1]? = some slash
  right : i + n = path.length ∨ path[i + n]? = some slash

variable {path : List U8} {p s e i n : ℕ} {f : U8 → Bool}

/-- A loop over a string stops at the first byte that is not skipped, or at the end. -/
theorem skip_append (hf : f 0 = false) (l : List U8) (s : ℕ) :
    skip f (l ++ [0]) s = some (s + l.findIdx fun c => !f c) := by
  induction l generalizing s with
  | nil => exact if_neg (by rw [hf]; exact Bool.false_ne_true)
  | cons c l ih =>
    rw [List.cons_append, skip, List.findIdx_cons]
    cases hc : f c with
    | true =>
      rw [if_pos rfl, ih, Nat.add_assoc, Nat.add_comm 1]
      rfl
    | false => rfl

/-- Where the loop stops : `e` is behind what is skipped from `p` on. -/
structure Skips (f : U8 → Bool) (path : List U8) (p e : ℕ) : Prop where
  le : p ≤ e
  le_length : e ≤ path.length
  skipped : ∀ j, p ≤ j → j < e → ∃ c, path[j]? = some c ∧ f c = true
  stop : ∀ c, path[e]? = some c → f c = false
  takeWhile : (path.drop p).takeWhile f = (path.drop p).take (e - p)
  dropWhile : (path.drop p).dropWhile f = path.drop e

theorem skip_drop (hf : f 0 = false) (hp : p ≤ path.length) :
    ∃ e, skip f ((path ++ [0]).drop p) p = some e ∧ Skips f path p e := by
  set k := (path.drop p).findIdx fun c => !f c with hk
  have hle : k ≤ path.length - p := by
    rw [← List.length_drop]
    exact List.findIdx_le_length
  have hdrop : (path.drop p).dropWhile f = path.drop (p + k) := by
    rw [List.dropWhile_eq_drop_findIdx_not, List.drop_drop]
  refine ⟨p + k, ?_, Nat.le_add_right p k, by omega, fun j hpj hj => ?_, fun c hc => ?_, ?_, hdrop⟩
  · rw [List.drop_append_of_le_length hp, skip_append hf]
  · have hlt : j < path.length := by omega
    refine ⟨path[j], List.getElem?_eq_getElem hlt, ?_⟩
    have h := List.not_of_lt_findIdx (show j - p < k by omega)
    simpa [Nat.add_sub_cancel' hpj] using h
  · refine head_dropWhile (p := path.drop p) c ?_
    rwa [hdrop, List.head?_drop]
  · rw [List.takeWhile_eq_take_findIdx_not, Nat.add_sub_cancel_left]

/-! ## One component -/

/-- The byte at the end of a string is 0. -/
theorem getElem?_terminated (h : s ≤ path.length) :
    (path ++ [0])[s]? = some (path[s]?.getD 0) := by
  rcases Nat.lt_or_eq_of_le h with hlt | rfl
  · rw [List.getElem?_append_left hlt, List.getElem?_eq_getElem hlt, Option.getD_some]
  · rw [List.getElem?_append_right (Nat.le_refl _), Nat.sub_self, List.getElem?_eq_none
      (Nat.le_refl _)]
    rfl

/-- From `p` on there is no component, or the one from `s` to `e`, and `q` is behind the slashes that
follow it. -/
inductive Next (path : List U8) (p : ℕ) (c : Component) : Prop
  | last (h : Skips (· == slash) path p path.length) (len : c.len = 0)
  | run (e : ℕ) (start : Skips (· == slash) path p c.start) (stop : Skips isName path c.start e)
    (lt : c.start < e) (len : c.len = e - c.start) (rest : Skips (· == slash) path e c.rest)

/-- `vfs_next_component` returns, and reads no byte behind the 0. -/
theorem vfsNextComponent_spec (h0 : 0 ∉ path) (hp : p ≤ path.length) :
    ∃ c, vfsNextComponent (path ++ [0]) p = some c ∧ Next path p c := by
  obtain ⟨s, hs, hskip⟩ := skip_drop (f := (· == slash)) (by decide) hp
  have hread := getElem?_terminated hskip.le_length
  rcases Nat.lt_or_eq_of_le hskip.le_length with hlt | rfl
  · have hget := List.getElem?_eq_getElem hlt
    have hne : path[s] ≠ 0 := fun h => h0 (h ▸ List.getElem_mem hlt)
    have hname : isName path[s] = true :=
      isName_iff.2 ⟨hne, by simpa using hskip.stop _ hget⟩
    obtain ⟨e, he, hskip'⟩ := skip_drop (f := isName) (by decide) hskip.le_length
    obtain ⟨q, hq, hskip''⟩ := skip_drop (f := (· == slash)) (by decide) hskip'.le_length
    have hse : s < e := Nat.lt_of_le_of_ne hskip'.le fun h =>
      Bool.noConfusion ((hskip'.stop _ (h ▸ hget)).symm.trans hname)
    refine ⟨⟨s, e - s, q⟩, ?_, .run e hskip hskip' hse rfl hskip''⟩
    rw [vfsNextComponent, hs, Option.bind_eq_bind, Option.bind_some, hread, hget]
    simp only [Option.bind_eq_bind, Option.bind_some, Option.getD_some, if_neg hne, he, hq]
  · refine ⟨⟨path.length, 0, path.length⟩, ?_, .last hskip rfl⟩
    rw [vfsNextComponent, hs, Option.bind_eq_bind, Option.bind_some, hread,
      List.getElem?_eq_none (Nat.le_refl _)]
    rfl

/-! ## All components -/

/-- The byte behind a run is a slash, or the end. -/
theorem Skips.slash_of_lt (h : Skips isName path s e) (h0 : 0 ∉ path) (he : e < path.length) :
    path[e]? = some slash := by
  have hget := List.getElem?_eq_getElem he
  have hstop := h.stop _ hget
  have hne : path[e] ≠ 0 := fun hz => h0 (hz ▸ List.getElem_mem he)
  by_contra hslash
  rw [hget, Option.some_inj] at hslash
  exact Bool.noConfusion (hstop.symm.trans (isName_iff.2 ⟨hne, hslash⟩))

theorem Skips.ne_slash (h : Skips isName path s e) {j : ℕ} (hs : s ≤ j) (hj : j < e) :
    path[j]? ≠ some slash := by
  obtain ⟨c, hc, hname⟩ := h.skipped j hs hj
  rw [hc]
  exact fun he => (isName_iff.1 hname).2 (Option.some.inj he)

theorem Skips.eq_slash (h : Skips (· == slash) path p s) {j : ℕ} (hp : p ≤ j) (hj : j < s) :
    path[j]? = some slash := by
  obtain ⟨c, hc, hslash⟩ := h.skipped j hp hj
  rw [hc, eq_of_beq hslash]

/-- No run starts among slashes. -/
theorem MaximalRun.le_of_skips (h : MaximalRun path i n) (hs : Skips (· == slash) path p s)
    (hp : p ≤ i) : s ≤ i := by
  by_contra hlt
  exact h.bytes i (Nat.le_refl i) (Nat.lt_add_of_pos_right h.pos)
    (hs.eq_slash hp (Nat.lt_of_not_le hlt))

/-- A run is where a component starts, or behind it. -/
theorem MaximalRun.eq_or_lt (h : MaximalRun path i n) (hs : Skips isName path s e) (h0 : 0 ∉ path)
    (hlt : s < e) (hi : s ≤ i) : i = s ∧ n = e - s ∨ e < i := by
  have hpos := h.pos
  have hle := h.le
  have hsl := hs.le_length
  rcases Nat.lt_trichotomy i e with hie | rfl | hie
  · obtain rfl : i = s := by
      by_contra hne
      rcases h.left with rfl | hleft
      · omega
      · exact hs.ne_slash (show s ≤ i - 1 by omega) (by omega) hleft
    refine Or.inl ⟨rfl, ?_⟩
    rcases Nat.lt_trichotomy (i + n) e with h' | h' | h'
    · rcases h.right with hr | hr
      · omega
      · exact absurd hr (hs.ne_slash (by omega) h')
    · omega
    · exact absurd (hs.slash_of_lt h0 (by omega)) (h.bytes e (by omega) h')
  · exact absurd (hs.slash_of_lt h0 (by omega)) (h.bytes i (Nat.le_refl i) (by omega))
  · exact Or.inr hie

/-- A component is a run. -/
theorem Skips.maximalRun (hs : Skips isName path s e) (h0 : 0 ∉ path) (hlt : s < e)
    (hleft : s = 0 ∨ path[s - 1]? = some slash) : MaximalRun path s (e - s) := by
  have hle := hs.le_length
  have he : s + (e - s) = e := Nat.add_sub_cancel' hs.le
  refine ⟨by omega, by omega, fun j hj hj' => hs.ne_slash hj (by omega), hleft, ?_⟩
  rw [he]
  rcases Nat.lt_or_eq_of_le hle with h | h
  · exact Or.inr (hs.slash_of_lt h0 h)
  · exact Or.inl h

theorem Next.nextComponent_eq {c : Component} (h : Next path p c) :
    (nextComponent (path.drop p)).1 = (path.drop c.start).take c.len ∧
      (c.len ≠ 0 → (nextComponent (path.drop p)).2 = path.drop c.rest) := by
  cases h with
  | last h len =>
    rw [nextComponent, h.dropWhile, List.drop_length, len, List.take_zero]
    exact ⟨rfl, fun hne => absurd rfl hne⟩
  | run e start stop lt len rest =>
    rw [nextComponent, start.dropWhile, stop.takeWhile, stop.dropWhile, rest.dropWhile, len]
    exact ⟨rfl, fun _ => rfl⟩

/-- `vfs_next_component` from `p` on yields the runs from there on. -/
theorem exists_yields {p : ℕ} (h0 : 0 ∉ path) (hp : p ≤ path.length)
    (hat : p = 0 ∨ path[p - 1]? = some slash ∨ p = path.length) :
    ∃ runs, Yields (path ++ [0]) p runs ∧ runs.Pairwise (fun x y => x.1 + x.2 < y.1) ∧
      (∀ i n, (i, n) ∈ runs ↔ MaximalRun path i n ∧ p ≤ i) ∧
      runs.map (fun x => (path.drop x.1).take x.2) = components (path.drop p) := by
  obtain ⟨c, hc, hnext⟩ := vfsNextComponent_spec h0 hp
  have heq := hnext.nextComponent_eq
  cases hnext with
  | last h len =>
    refine ⟨[], .done hc len, .nil, fun i n => iff_of_false List.not_mem_nil fun ⟨hrun, hi⟩ => ?_, ?_⟩
    · have := hrun.le_of_skips h hi
      have := hrun.le
      have := hrun.pos
      omega
    · rw [components_eq_nil_iff.2 (by rw [heq.1, len, List.take_zero]), List.map_nil]
  | run e start stop lt len rest =>
    have hle := start.le
    have hrest := rest.le
    have hlen : c.len ≠ 0 := by omega
    have hat' : c.rest = 0 ∨ path[c.rest - 1]? = some slash ∨ c.rest = path.length := by
      rcases Nat.lt_or_eq_of_le rest.le with hlt | hq
      · exact Or.inr (Or.inl (rest.eq_slash (by omega) (by omega)))
      · rcases Nat.lt_or_eq_of_le stop.le_length with hlt | heq
        · have hslash := stop.slash_of_lt h0 hlt
          exact absurd (rest.stop slash (hq ▸ hslash)) (by decide)
        · exact Or.inr (Or.inr (hq.symm.trans heq))
    obtain ⟨runs, hy, hpw, hmem, hmap⟩ := exists_yields h0 rest.le_length hat'
    have hne : (nextComponent (path.drop p)).1 ≠ [] := by
      rw [heq.1, ← List.length_pos_iff, List.length_take, List.length_drop]
      have := stop.le_length
      omega
    have hleft : c.start = 0 ∨ path[c.start - 1]? = some slash := by
      rcases Nat.lt_or_eq_of_le hle with hlt | heq
      · exact Or.inr (start.eq_slash (by omega) (by omega))
      · have := stop.le_length
        rcases hat with h | h | h
        · exact Or.inl (heq ▸ h)
        · exact Or.inr (heq ▸ h)
        · omega
    refine ⟨(c.start, c.len) :: runs, .more hc hlen hy, hpw.cons fun x hx => ?_, fun i n => ?_, ?_⟩
    · obtain ⟨hrun, hi⟩ := (hmem x.1 x.2).1 hx
      have := hrun.eq_or_lt stop h0 lt (by omega)
      dsimp only
      omega
    · rw [List.mem_cons, hmem, Prod.mk.injEq]
      constructor
      · rintro (⟨rfl, rfl⟩ | ⟨hrun, hi⟩)
        · exact ⟨len ▸ stop.maximalRun h0 lt hleft, hle⟩
        · exact ⟨hrun, by omega⟩
      · rintro ⟨hrun, hi⟩
        rcases hrun.eq_or_lt stop h0 lt (hrun.le_of_skips start hi) with ⟨rfl, hn⟩ | hlt
        · exact Or.inl ⟨rfl, hn.trans len.symm⟩
        · exact Or.inr ⟨hrun, hrun.le_of_skips rest (by omega)⟩
    · rw [List.map_cons, hmap, components_cons hne, heq.1, heq.2 hlen]
termination_by path.length - p
decreasing_by
  have := rest.le_length
  omega

/-! ## The components of a walk -/

variable {κ ι : Type}

/-- A walk passes over the components `.`. -/
theorem walk_filter (env : Env κ ι) (x : Mount × ℕ) (names : List (List U8)) :
    walk env x (names.filter (· ≠ dot)) = walk env x names := by
  induction names generalizing x with
  | nil => rfl
  | cons name names ih =>
    rcases eq_or_ne name dot with rfl | hne
    · rw [List.filter_cons_of_neg (by simp), ih, walk_cons, walkStep, if_pos rfl, pure_bind]
    · rw [List.filter_cons_of_pos (by simpa using hne), walk_cons, walk_cons]
      simp only [ih]

/-- `vfs_next_component` yields the maximal runs of a path, each with its bytes a component, and
`vfs_lookup` only depends on the components that are not `.`. -/
theorem path_is_component_list (env : Env κ ι) :
    (∀ path : List U8, 0 ∉ path → ∃ runs, Yields (path ++ [0]) 0 runs ∧
      runs.Pairwise (fun x y => x.1 + x.2 < y.1) ∧
      (∀ i n, (i, n) ∈ runs ↔ MaximalRun path i n) ∧
      runs.map (fun x => (path.drop x.1).take x.2) = components path) ∧
    ∀ path path' : List U8, (components path).filter (· ≠ dot) = (components path').filter (· ≠ dot) →
      vfsLookup env path = vfsLookup env path' := by
  refine ⟨fun path h0 => ?_, fun path path' h => ?_⟩
  · simpa using exists_yields h0 (Nat.zero_le _) (Or.inl rfl)
  · have hwalk : ∀ x, walk env x (components path) = walk env x (components path') := fun x => by
      rw [← walk_filter, h, walk_filter]
    rw [vfsLookup_eq, vfsLookup_eq]
    simp only [hwalk]

end Vfs

end Jeos
