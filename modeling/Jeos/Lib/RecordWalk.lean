import Mathlib.Data.List.Infix
import Mathlib.Order.Interval.Finset.Nat
import Mathlib.Tactic.Common

/-!
# Walking over records of different lengths

A table has records one behind the other, each of which says how long it is. A walk goes from the first
record on until it passes the end of the table or a record makes it stop. It notes what it reads.

Every walk meets the records at the same places (`Records.pos`), so of any two walks that return one
has met a first part of what the other has met (`visited_comparable`). A walk returns just if every
record it meets is longer than 0 or makes it stop, and stays in the table just if what it reads of every
record it meets does (`safe_iff`). It meets the records that have none before them that makes it
stop (`meets_iff`).
-/

namespace RecordWalk

variable {σ τ : Type*}

/-- A table : the length of a record at a place, the place of the first record, and the end. -/
structure Records where
  size : ℕ → ℕ
  start : ℕ
  stop : ℕ

/-- What a walk does at a record : the places it reads, whether it stops there, and its state. -/
structure Visitor (σ : Type*) where
  reads : ℕ → List ℕ
  stops : ℕ → Bool
  update : ℕ → σ → σ

/-- The places read so far, the records met, and the state. -/
structure Trace (σ : Type*) where
  reads : List ℕ
  visited : List ℕ
  state : σ

/-- A round at `p`. -/
def Visitor.visit (V : Visitor σ) (p : ℕ) (t : Trace σ) : Trace σ :=
  ⟨t.reads ++ V.reads p, t.visited ++ [p], V.update p t.state⟩

/-- The loop, with at most the given number of tests. -/
def walk (R : Records) (V : Visitor σ) : ℕ → ℕ → Trace σ → Option (Trace σ)
  | 0, _, _ => none
  | n + 1, p, t =>
    if p < R.stop then
      if V.stops p then some (V.visit p t) else walk R V n (p + R.size p) (V.visit p t)
    else some t

namespace Records

variable (R : Records)

/-- The place of record `k`. -/
def pos : ℕ → ℕ
  | 0 => R.start
  | k + 1 => pos k + R.size (pos k)

variable {R}

theorem pos_le {i j : ℕ} (h : i ≤ j) : R.pos i ≤ R.pos j := by
  induction h with
  | refl => exact Nat.le_refl _
  | step _ ih => exact ih.trans (Nat.le_add_right _ _)

theorem pos_of_stuck {k : ℕ} (h : R.size (R.pos k) = 0) (n : ℕ) : R.pos (k + n) = R.pos k := by
  induction n with
  | zero => rfl
  | succ n ih => rw [Nat.add_succ, pos, ih, h, Nat.add_zero]

end Records

variable {R : Records} {V : Visitor σ} {W : Visitor τ} {s : σ} {k m n fuel : ℕ} {t t' : Trace σ}

/-- The walk meets record `k`. -/
def Reached (R : Records) (V : Visitor σ) (k : ℕ) : Prop :=
  R.pos k < R.stop ∧ ∀ i < k, V.stops (R.pos i) = false

/-- The walk returns at record `m`. -/
def HaltsAt (R : Records) (V : Visitor σ) (m : ℕ) : Prop :=
  (∀ i < m, Reached R V i ∧ V.stops (R.pos i) = false) ∧
    (R.stop ≤ R.pos m ∨ V.stops (R.pos m) = true)

/-- The number of records met by a walk that returns at record `m`. -/
def count (R : Records) (m : ℕ) : ℕ := if R.pos m < R.stop then m + 1 else m

/-- The walk from record `k` on. -/
theorem walk_of_haltsAt (h : HaltsAt R V m) : ∀ {fuel k t}, k ≤ m → m - k < fuel →
    ∃ t', walk R V fuel (R.pos k) t = some t' ∧
      t'.visited = t.visited ++ (List.range' k (count R m - k)).map R.pos ∧
      t'.reads = t.reads ++ (List.range' k (count R m - k)).flatMap fun i => V.reads (R.pos i)
  | fuel + 1, k, t, hk, hf => by
    rcases Nat.eq_or_lt_of_le hk with rfl | hlt
    · rw [walk, count]
      by_cases hp : R.pos k < R.stop
      · have hstop := h.2.resolve_left (Nat.not_le.2 hp)
        rw [if_pos hp, if_pos hp, if_pos hstop, Nat.add_sub_cancel_left]
        exact ⟨_, rfl, rfl, by simp [Visitor.visit]⟩
      · rw [if_neg hp, if_neg hp, Nat.sub_self]
        exact ⟨t, rfl, by simp, by simp⟩
    · obtain ⟨⟨hp, -⟩, hgo⟩ := h.1 k hlt
      obtain ⟨t', ht', hv, hr⟩ := walk_of_haltsAt h (t := V.visit (R.pos k) t)
        (Nat.succ_le_of_lt hlt) (show m - (k + 1) < fuel by omega)
      have hcount : count R m - k = count R m - (k + 1) + 1 := by
        have : m ≤ count R m := by
          rw [count]
          split_ifs <;> omega
        omega
      refine ⟨t', ?_, ?_, ?_⟩
      · rw [walk, if_pos hp, hgo]
        exact ht'
      · rw [hv, hcount, List.range'_succ, List.map_cons]
        simp [Visitor.visit]
      · rw [hr, hcount, List.range'_succ, List.flatMap_cons]
        simp [Visitor.visit]

/-- A walk that returns does so at some record. -/
theorem exists_haltsAt (hr : walk R V fuel (R.pos k) t = some t')
    (hk : ∀ i < k, Reached R V i ∧ V.stops (R.pos i) = false) : ∃ m, HaltsAt R V m := by
  induction fuel generalizing k t with
  | zero => cases hr
  | succ fuel ih =>
    rw [walk] at hr
    by_cases hp : R.pos k < R.stop
    · by_cases hs : V.stops (R.pos k) = true
      · exact ⟨k, hk, Or.inr hs⟩
      · rw [if_pos hp, if_neg hs] at hr
        refine ih (k := k + 1) hr fun i hi => ?_
        rcases Nat.lt_succ_iff_lt_or_eq.1 hi with hi | rfl
        · exact hk i hi
        · exact ⟨⟨hp, fun j hj => (hk j hj).2⟩, Bool.eq_false_iff.2 hs⟩
    · exact ⟨k, hk, Or.inl (Nat.le_of_not_lt hp)⟩

/-- A walk that returns at record `m` has met the records before, and that one if it is in the
table. -/
theorem HaltsAt.reached_iff (h : HaltsAt R V m) : Reached R V k ↔ k < count R m := by
  have hm : R.pos m < R.stop → count R m = m + 1 := fun hp => if_pos hp
  have hle : m ≤ count R m := by
    rw [count]
    split_ifs <;> omega
  constructor
  · rintro ⟨hp, hgo⟩
    rcases Nat.lt_trichotomy k m with hlt | rfl | hgt
    · omega
    · rw [hm hp]
      exact Nat.lt_succ_self _
    · rcases h.2 with hend | hstop
      · exact absurd (hend.trans (Records.pos_le hgt.le)) (Nat.not_le.2 hp)
      · rw [hgo m hgt] at hstop
        cases hstop
  · intro hk
    by_cases hlt : k < m
    · exact (h.1 k hlt).1
    · have hp : R.pos m < R.stop := by
        by_contra hno
        rw [count, if_neg hno] at hk
        exact hlt hk
      rw [hm hp] at hk
      obtain rfl : k = m := by omega
      exact ⟨hp, fun i hi => (h.1 i hi).2⟩

/-- Every record the walk meets lets it go on, or makes it stop. -/
def Progress (R : Records) (V : Visitor σ) : Prop :=
  ∀ k, Reached R V k → R.size (R.pos k) = 0 → V.stops (R.pos k) = true

theorem HaltsAt.progress (h : HaltsAt R V m) : Progress R V := by
  intro k hk hsize
  by_contra hgo
  have hp := hk.1
  have hkm : k ≤ m := by
    have hlt := h.reached_iff.1 hk
    rw [count] at hlt
    split_ifs at hlt <;> omega
  have hpos : R.pos m = R.pos k := by
    rw [← Nat.add_sub_cancel' hkm]
    exact Records.pos_of_stuck hsize _
  rcases h.2 with hend | hstop
  · omega
  · exact hgo (hpos ▸ hstop)

theorem exists_haltsAt_iff : (∃ m, HaltsAt R V m) ↔ Progress R V := by
  refine ⟨fun ⟨m, h⟩ => h.progress, fun h => ?_⟩
  have hex : ∃ m, R.stop ≤ R.pos m ∨ V.stops (R.pos m) = true := by
    by_contra hno
    push Not at hno
    have hgo : ∀ i, V.stops (R.pos i) = false := fun i => Bool.eq_false_iff.2 (hno i).2
    have hup : ∀ i, i ≤ R.pos i := fun i => by
      induction i with
      | zero => exact Nat.zero_le _
      | succ i ih =>
        have hpos : R.size (R.pos i) ≠ 0 := fun h0 =>
          (hno i).2 (h i ⟨(hno i).1, fun j _ => hgo j⟩ h0)
        rw [Records.pos]
        omega
    exact absurd (hno R.stop).1 (Nat.not_lt.2 (hup _))
  classical
  refine ⟨Nat.find hex, fun i hi => ?_, Nat.find_spec hex⟩
  have hbefore : ∀ j < Nat.find hex, R.pos j < R.stop ∧ V.stops (R.pos j) = false := fun j hj => by
    have := Nat.find_min hex hj
    push Not at this
    exact ⟨this.1, Bool.eq_false_iff.2 this.2⟩
  exact ⟨⟨(hbefore i hi).1, fun j hj => (hbefore j (hj.trans hi)).2⟩, (hbefore i hi).2⟩

/-- The walk returns, with enough tests, with this trace. -/
def Returns (R : Records) (V : Visitor σ) (s : σ) (t : Trace σ) : Prop :=
  ∃ N, ∀ fuel ≥ N, walk R V fuel R.start ⟨[], [], s⟩ = some t

/-- More tests than needed change nothing. -/
theorem walk_mono : ∀ {n n' p : ℕ} {t : Trace σ}, walk R V n p t = some t' → n ≤ n' →
    walk R V n' p t = some t'
  | n + 1, n' + 1, p, t, h, hn => by
    rw [walk] at h ⊢
    split_ifs at h ⊢
    · exact h
    · exact walk_mono h (by omega)
    · exact h

theorem HaltsAt.returns (h : HaltsAt R V m) (s : σ) : ∃ t, Returns R V s t ∧
    t.visited = (List.range' 0 (count R m)).map R.pos ∧
    t.reads = (List.range' 0 (count R m)).flatMap fun i => V.reads (R.pos i) := by
  obtain ⟨t, ht, hv, hr⟩ := walk_of_haltsAt h (t := ⟨[], [], s⟩) (Nat.zero_le m) (Nat.lt_succ_self _)
  exact ⟨t, ⟨_, fun fuel hf => walk_mono ht hf⟩, hv, hr⟩

/-- A walk that returns is one of these. -/
theorem Returns.exists_haltsAt (h : Returns R V s t) : ∃ m, HaltsAt R V m ∧
    t.visited = (List.range' 0 (count R m)).map R.pos ∧
    t.reads = (List.range' 0 (count R m)).flatMap fun i => V.reads (R.pos i) := by
  obtain ⟨N, hN⟩ := h
  have hwalk := hN N (Nat.le_refl N)
  obtain ⟨m, hm⟩ := RecordWalk.exists_haltsAt (k := 0) hwalk fun i hi => absurd hi (Nat.not_lt_zero i)
  obtain ⟨t', ⟨N', hN'⟩, hv, hr⟩ := hm.returns s
  have heq := (hN _ (Nat.le_max_left N N')).symm.trans (hN' _ (Nat.le_max_right N N'))
  obtain rfl := Option.some.inj heq
  exact ⟨m, hm, hv, hr⟩

/-- The state is updated at each record met. -/
theorem walk_state : ∀ {n p : ℕ} {t : Trace σ}, walk R V n p t = some t' →
    ∃ ps, t'.visited = t.visited ++ ps ∧ t'.state = ps.foldl (fun s p => V.update p s) t.state
  | n + 1, p, t, h => by
    rw [walk] at h
    split_ifs at h
    · obtain rfl := Option.some.inj h
      exact ⟨[p], rfl, rfl⟩
    · obtain ⟨ps, hv, hs⟩ := walk_state h
      exact ⟨p :: ps, by rw [hv, Visitor.visit, List.append_assoc]; rfl, hs⟩
    · obtain rfl := Option.some.inj h
      exact ⟨[], (List.append_nil _).symm, rfl⟩

theorem Returns.state_eq (h : Returns R V s t) :
    t.state = t.visited.foldl (fun s p => V.update p s) s := by
  obtain ⟨N, hN⟩ := h
  obtain ⟨ps, hv, hs⟩ := walk_state (hN N (Nat.le_refl N))
  rw [hs, hv]
  rfl

/-- The records met, in order. -/
theorem Returns.visited_pairwise (h : Returns R V s t) : t.visited.Pairwise (· ≤ ·) := by
  obtain ⟨m, -, hv, -⟩ := h.exists_haltsAt
  rw [hv, List.pairwise_map]
  exact List.pairwise_le_range'.imp Records.pos_le

/-- The walk returns, and has read nothing behind the end of the table. -/
def Safe (R : Records) (V : Visitor σ) (s : σ) : Prop :=
  ∃ t, Returns R V s t ∧ ∀ x ∈ t.reads, x < R.stop

/-- A record starts at this place of the table. -/
inductive Entry (R : Records) : ℕ → Prop
  | first : R.start < R.stop → Entry R R.start
  | next {p : ℕ} : Entry R p → p + R.size p < R.stop → Entry R (p + R.size p)

theorem entry_iff {p : ℕ} : Entry R p ↔ p < R.stop ∧ ∃ k, R.pos k = p := by
  constructor
  · intro h
    induction h with
    | first h => exact ⟨h, 0, rfl⟩
    | next _ h ih =>
      obtain ⟨-, k, rfl⟩ := ih
      exact ⟨h, k + 1, rfl⟩
  · rintro ⟨hp, k, rfl⟩
    induction k with
    | zero => exact .first hp
    | succ k ih => exact .next (ih (lt_of_le_of_lt (Records.pos_le (Nat.le_succ k)) hp)) hp

/-- A record that others come behind has a length. -/
theorem Entry.size_ne_zero {p q : ℕ} (hp : Entry R p) (hq : Entry R q) (hlt : q < p) :
    R.size q ≠ 0 := by
  obtain ⟨-, k, rfl⟩ := entry_iff.1 hp
  obtain ⟨-, j, rfl⟩ := entry_iff.1 hq
  intro h0
  rcases Nat.le_total k j with hkj | hjk
  · exact absurd (Records.pos_le hkj) (Nat.not_le.2 hlt)
  · rw [← Nat.add_sub_cancel' hjk, Records.pos_of_stuck h0] at hlt
    exact lt_irrefl _ hlt

/-- The walk meets the record at `p`. -/
def Meets (R : Records) (V : Visitor σ) (p : ℕ) : Prop := ∃ k, Reached R V k ∧ R.pos k = p

/-- A walk meets the records that have none before them that makes it stop. -/
theorem meets_iff {p : ℕ} :
    Meets R V p ↔ Entry R p ∧ ∀ q < p, Entry R q → V.stops q = false := by
  constructor
  · rintro ⟨k, ⟨hp, hgo⟩, rfl⟩
    refine ⟨entry_iff.2 ⟨hp, k, rfl⟩, fun q hq he => ?_⟩
    obtain ⟨-, j, rfl⟩ := entry_iff.1 he
    refine hgo j (Nat.lt_of_not_le fun hkj => ?_)
    exact absurd (Records.pos_le hkj) (Nat.not_le.2 hq)
  · rintro ⟨he, hgo⟩
    obtain ⟨hp, hex⟩ := entry_iff.1 he
    classical
    refine ⟨Nat.find hex, ⟨?_, fun i hi => ?_⟩, Nat.find_spec hex⟩
    · rwa [Nat.find_spec hex]
    · have hle := Records.pos_le (R := R) hi.le
      rw [Nat.find_spec hex] at hle
      have hlt := lt_of_le_of_ne hle (Nat.find_min hex hi)
      exact hgo _ hlt (entry_iff.2 ⟨hlt.trans hp, i, rfl⟩)

theorem Returns.mem_visited (h : Returns R V s t) {p : ℕ} : p ∈ t.visited ↔ Meets R V p := by
  obtain ⟨m, hm, hv, -⟩ := h.exists_haltsAt
  rw [hv, List.mem_map]
  refine exists_congr fun k => and_congr_left fun _ => ?_
  rw [hm.reached_iff, List.mem_range'_1]
  omega

/-- A walk is safe just if it does not get stuck at a record it meets, and what it reads of each
of them is in the table. -/
theorem safe_iff (s : σ) : Safe R V s ↔ (∀ p, Meets R V p → R.size p = 0 → V.stops p = true) ∧
    ∀ p, Meets R V p → ∀ x ∈ V.reads p, x < R.stop := by
  have hmeets : ∀ {P : ℕ → Prop}, (∀ p, Meets R V p → P p) ↔ ∀ k, Reached R V k → P (R.pos k) :=
    fun {P} => ⟨fun h k hk => h _ ⟨k, hk, rfl⟩, fun h p ⟨k, hk, he⟩ => he ▸ h k hk⟩
  rw [hmeets, hmeets]
  constructor
  · rintro ⟨t, ht, hsafe⟩
    obtain ⟨m, hm, -, hr⟩ := ht.exists_haltsAt
    refine ⟨hm.progress, fun k hk x hx => hsafe x ?_⟩
    rw [hr, List.mem_flatMap]
    exact ⟨k, List.mem_range'_1.2 ⟨Nat.zero_le k, by simpa using hm.reached_iff.1 hk⟩, hx⟩
  · rintro ⟨hprogress, hreads⟩
    obtain ⟨m, hm⟩ := exists_haltsAt_iff.2 hprogress
    obtain ⟨t, ht, -, hr⟩ := hm.returns s
    refine ⟨t, ht, fun x hx => ?_⟩
    rw [hr, List.mem_flatMap] at hx
    obtain ⟨k, hk, hx⟩ := hx
    exact hreads k (hm.reached_iff.2 (by simpa using (List.mem_range'_1.1 hk).2)) x hx

/-- Of two walks over one table one has met a first part of what the other has met. -/
theorem visited_comparable {u : τ} {t' : Trace τ} (h : Returns R V s t) (h' : Returns R W u t') :
    t.visited <+: t'.visited ∨ t'.visited <+: t.visited := by
  obtain ⟨m, -, hv, -⟩ := h.exists_haltsAt
  obtain ⟨m', -, hv', -⟩ := h'.exists_haltsAt
  have hpre : ∀ {a b : ℕ}, a ≤ b → (List.range' 0 a).map R.pos <+: (List.range' 0 b).map R.pos := by
    intro a b hab
    refine List.IsPrefix.map R.pos ?_
    obtain ⟨c, rfl⟩ := Nat.exists_eq_add_of_le hab
    exact ⟨List.range' a c, by simpa using List.range'_append_1 (s := 0) (m := a) (n := c)⟩
  rw [hv, hv']
  exact (Nat.le_total _ _).imp hpre hpre

end RecordWalk
