import Jeos.Acpi
import Jeos.Lib.RecordWalk

/-!
# The walks over the MADT

`lapic_init`, `ioapic_init` and `irq_to_gsi` of `apic.c` walk over the entries of one table, with a copy
of the loop each. An entry has a type and its length. The first and the last leave the loop at an entry
of length 0, "prevent infinite loop", and the second does not. None of them looks whether an entry ends
before the table does.

`WellFormed` says which tables the three walks get through without reading behind the end : that is
just when they do (`madt_walks_safe_iff`). With a table of one entry of length 0 `ioapic_init` does not
return, and with one that ends after a type the length is read behind its end (`broken_tables`).
-/

set_option linter.unusedSectionVars false

namespace Jeos.Madt

open RecordWalk

/-- `MADT_ENTRIES_OFFSET`. -/
def entriesOffset : ℕ := 44

/-- `MADT_IOAPIC`. -/
def madtIoapic : U8 := 1

/-- `MADT_ISO`. -/
def madtIso : U8 := 2

/-- `MADT_LAPIC_OVERRIDE`. -/
def madtLapicOverride : U8 := 5

/-- The bytes of a table, by their distance from its start. -/
abbrev Bytes := ℕ → U8

/-- `*(u32 *)(ptr + p)`. -/
def read32 (b : Bytes) (p : ℕ) : U32 := b (p + 3) ++ b (p + 2) ++ b (p + 1) ++ b p

/-- `*(u64 *)(ptr + p)`. -/
def read64 (b : Bytes) (p : ℕ) : U64 := read32 b (p + 4) ++ read32 b p

/-- `h.length`. -/
def tableLength (b : Bytes) : ℕ := (read32 b 4).toNat

/-- `ptr[4] | (ptr[5] << 8) | (ptr[6] << 16) | (ptr[7] << 24)`. -/
def ioapicAddr (b : Bytes) (p : ℕ) : U32 :=
  (b (p + 4)).setWidth 32 ||| (b (p + 5)).setWidth 32 <<< 8 ||| (b (p + 6)).setWidth 32 <<< 16 |||
    (b (p + 7)).setWidth 32 <<< 24

/-- The entries of the table. -/
def entries (b : Bytes) : Records where
  size p := (b (p + 1)).toNat
  start := entriesOffset
  stop := tableLength b

/-- The places of the `n` bytes from `p` on. -/
def places (p n : ℕ) : List ℕ := List.range' p n

/-- A round of the loop of `lapic_init`. The state is `lapic_base`. -/
def lapicVisit (b : Bytes) (hhdmOffset : U64) : Visitor U64 where
  reads p := places p 2 ++
    if b (p + 1) = 0 then [] else if b p = madtLapicOverride then places (p + 4) 8 else []
  stops p := b (p + 1) = 0
  update p base :=
    if b (p + 1) = 0 then base
    else if b p = madtLapicOverride then Acpi.physToVirt hhdmOffset (read64 b (p + 4)) else base

/-- A round of the loop of `ioapic_init`. The state is `ioapic_base`, 0 until it is found. -/
def ioapicVisit (b : Bytes) (hhdmOffset : U64) : Visitor U64 where
  reads p := places p 2 ++ if b p = madtIoapic then places (p + 4) 4 else []
  stops p := b p = madtIoapic
  update p base :=
    if b p = madtIoapic then Acpi.physToVirt hhdmOffset ((ioapicAddr b p).setWidth 64) else base

/-- A round of the loop of `irq_to_gsi`. The state is the value returned. -/
def irqVisit (b : Bytes) (irq : U8) : Visitor U32 where
  reads p := places p 2 ++
    if b (p + 1) = 0 then [] else if b p = madtIso then places (p + 3) 1 ++ places (p + 4) 4 else []
  stops p := b (p + 1) = 0 ∨ b p = madtIso ∧ b (p + 3) = irq
  update p gsi :=
    if b (p + 1) = 0 then gsi
    else if b p = madtIso ∧ b (p + 3) = irq then read32 b (p + 4) else gsi

/-- The loop of `lapic_init`, which starts with `local_apic_addr`. -/
def lapicWalk (b : Bytes) (hhdmOffset : U64) (fuel : ℕ) : Option (Trace U64) :=
  walk (entries b) (lapicVisit b hhdmOffset) fuel entriesOffset
    ⟨[], [], Acpi.physToVirt hhdmOffset ((read32 b 36).setWidth 64)⟩

/-- The loop of `ioapic_init`. -/
def ioapicWalk (b : Bytes) (hhdmOffset : U64) (fuel : ℕ) : Option (Trace U64) :=
  walk (entries b) (ioapicVisit b hhdmOffset) fuel entriesOffset ⟨[], [], 0⟩

/-- The loop of `irq_to_gsi`. -/
def irqWalk (b : Bytes) (irq : U8) (fuel : ℕ) : Option (Trace U32) :=
  walk (entries b) (irqVisit b irq) fuel entriesOffset ⟨[], [], irq.setWidth 32⟩

/-! ## Tables that are walked safely -/

/-- A loop returns with this trace, given enough tests. -/
def Finishes {σ : Type} (loop : ℕ → Option (Trace σ)) (t : Trace σ) : Prop :=
  ∃ N, ∀ fuel ≥ N, loop fuel = some t

/-- The types and lengths of the entries met. -/
def entriesMet {σ : Type} (b : Bytes) (t : Trace σ) : List (U8 × U8) :=
  t.visited.map fun p => (b p, b (p + 1))

/-- One is a first part of the other. -/
def Comparable {α : Type} (l l' : List α) : Prop := l <+: l' ∨ l' <+: l

/-- The three walks return, read nothing from the end of the table on, and meet the same entries as
far as they go. -/
def WalksSafe (b : Bytes) (hhdmOffset : U64) (irq : U8) : Prop :=
  ∃ t₁ t₂ t₃, Finishes (lapicWalk b hhdmOffset) t₁ ∧ Finishes (ioapicWalk b hhdmOffset) t₂ ∧
    Finishes (irqWalk b irq) t₃ ∧ (∀ x ∈ t₁.reads ++ t₂.reads ++ t₃.reads, x < tableLength b) ∧
    Comparable (entriesMet b t₁) (entriesMet b t₂) ∧
    Comparable (entriesMet b t₁) (entriesMet b t₃) ∧
    Comparable (entriesMet b t₂) (entriesMet b t₃)

/-- An entry starts at `p`. -/
def EntryAt (b : Bytes) (p : ℕ) : Prop := Entry (entries b) p

/-- What the walks need of a table. -/
structure WellFormed (b : Bytes) (irq : U8) : Prop where
  /-- every entry has its type and its length -/
  header : ∀ p, EntryAt b p → p + 2 ≤ tableLength b
  /-- an entry of length 0 is that of an I/O APIC or comes behind one -/
  progress : ∀ p, EntryAt b p → b (p + 1) = 0 →
    b p = madtIoapic ∨ ∃ q < p, EntryAt b q ∧ b q = madtIoapic
  /-- every override of the local APIC has its address -/
  lapic : ∀ p, EntryAt b p → b p = madtLapicOverride → b (p + 1) ≠ 0 → p + 12 ≤ tableLength b
  /-- the first I/O APIC has its address -/
  ioapic : ∀ p, EntryAt b p → b p = madtIoapic → (∀ q < p, EntryAt b q → b q ≠ madtIoapic) →
    p + 8 ≤ tableLength b
  /-- every override of an interrupt up to that of the given one has its number -/
  iso : ∀ p, EntryAt b p → b p = madtIso → b (p + 1) ≠ 0 →
    (∀ q < p, EntryAt b q → ¬(b q = madtIso ∧ b (q + 3) = irq)) → p + 8 ≤ tableLength b

variable {b : Bytes} {hhdmOffset : U64} {irq : U8} {p n : ℕ}

theorem size_eq_zero_iff : (entries b).size p = 0 ↔ b (p + 1) = 0 :=
  ⟨fun h => BitVec.eq_of_toNat_eq h, fun h => congrArg BitVec.toNat h⟩

theorem places_lt (hn : 0 < n) {stop : ℕ} : (∀ x ∈ places p n, x < stop) ↔ p + n ≤ stop := by
  simp only [places, List.mem_range'_1]
  constructor
  · intro h
    have := h (p + n - 1) (by omega)
    omega
  · intro h x hx
    omega

theorem reads_lt {l : List ℕ} {stop : ℕ} : (∀ x ∈ places p 2 ++ l, x < stop) ↔
    p + 2 ≤ stop ∧ ∀ x ∈ l, x < stop := by
  rw [List.forall_mem_append, places_lt Nat.two_pos]

/-- No length is 0 before an entry. -/
theorem length_ne_zero {q : ℕ} (hp : EntryAt b p) (hq : EntryAt b q) (h : q < p) :
    b (q + 1) ≠ 0 := fun h0 => hp.size_ne_zero hq h (size_eq_zero_iff.2 h0)

theorem lapic_meets_iff : Meets (entries b) (lapicVisit b hhdmOffset) p ↔ EntryAt b p :=
  meets_iff.trans (and_iff_left_of_imp fun hp _ hlt hq =>
    decide_eq_false (length_ne_zero hp hq hlt))

theorem ioapic_meets_iff : Meets (entries b) (ioapicVisit b hhdmOffset) p ↔
    EntryAt b p ∧ ∀ q < p, EntryAt b q → b q ≠ madtIoapic := by
  simp only [meets_iff, ioapicVisit, decide_eq_false_iff_not]
  exact Iff.rfl

theorem irq_meets_iff : Meets (entries b) (irqVisit b irq) p ↔
    EntryAt b p ∧ ∀ q < p, EntryAt b q → ¬(b q = madtIso ∧ b (q + 3) = irq) := by
  simp only [meets_iff, irqVisit, decide_eq_false_iff_not, not_or]
  refine and_congr_right fun hp => forall₃_congr fun q hlt hq => ?_
  exact and_iff_right (length_ne_zero hp hq hlt)

theorem lapic_safe_iff (base : U64) : Safe (entries b) (lapicVisit b hhdmOffset) base ↔
    ∀ p, EntryAt b p → p + 2 ≤ tableLength b ∧
      (b p = madtLapicOverride → b (p + 1) ≠ 0 → p + 12 ≤ tableLength b) := by
  have hstops : ∀ p, Meets (entries b) (lapicVisit b hhdmOffset) p → (entries b).size p = 0 →
      (lapicVisit b hhdmOffset).stops p = true := fun p _ h0 =>
    decide_eq_true (size_eq_zero_iff.1 h0)
  rw [safe_iff, and_iff_right hstops]
  simp only [lapic_meets_iff]
  refine forall₂_congr fun p _ => reads_lt.trans (and_congr_right fun _ => ?_)
  split_ifs with h0 h5
  · exact iff_of_true (by simp) fun _ hne => absurd h0 hne
  · rw [places_lt (by norm_num)]
    exact ⟨fun h _ _ => h, fun h => h h5 h0⟩
  · exact iff_of_true (by simp) fun h => absurd h h5

theorem ioapic_safe_iff (base : U64) : Safe (entries b) (ioapicVisit b hhdmOffset) base ↔
    ∀ p, EntryAt b p → (∀ q < p, EntryAt b q → b q ≠ madtIoapic) →
      (b (p + 1) = 0 → b p = madtIoapic) ∧ p + 2 ≤ tableLength b ∧
        (b p = madtIoapic → p + 8 ≤ tableLength b) := by
  rw [safe_iff, ← forall₂_and]
  simp only [ioapic_meets_iff, and_imp]
  refine forall₃_congr fun p _ _ => and_congr ?_ (reads_lt.trans (and_congr_right fun _ => ?_))
  · rw [size_eq_zero_iff]
    exact forall_congr' fun _ => decide_eq_true_iff
  · split_ifs with h1
    · rw [places_lt (by norm_num)]
      exact ⟨fun h _ => h, fun h => h h1⟩
    · exact iff_of_true (by simp) fun h => absurd h h1

theorem irq_safe_iff (gsi : U32) : Safe (entries b) (irqVisit b irq) gsi ↔
    ∀ p, EntryAt b p → (∀ q < p, EntryAt b q → ¬(b q = madtIso ∧ b (q + 3) = irq)) →
      p + 2 ≤ tableLength b ∧ (b p = madtIso → b (p + 1) ≠ 0 → p + 8 ≤ tableLength b) := by
  have hstops : ∀ p, Meets (entries b) (irqVisit b irq) p → (entries b).size p = 0 →
      (irqVisit b irq).stops p = true := fun p _ h0 =>
    decide_eq_true (Or.inl (size_eq_zero_iff.1 h0))
  rw [safe_iff, and_iff_right hstops]
  simp only [irq_meets_iff, and_imp]
  refine forall₃_congr fun p _ _ => reads_lt.trans (and_congr_right fun _ => ?_)
  split_ifs with h0 h2
  · exact iff_of_true (by simp) fun _ hne => absurd h0 hne
  · rw [List.forall_mem_append, places_lt (by norm_num), places_lt (by norm_num)]
    refine ⟨fun h _ _ => h.2, fun h => ?_⟩
    have h8 : p + 4 + 4 ≤ (entries b).stop := h h2 h0
    exact ⟨by omega, h8⟩
  · exact iff_of_true (by simp) fun h => absurd h h2

theorem wellFormed_iff (base₁ base₂ : U64) (gsi : U32) : WellFormed b irq ↔
    Safe (entries b) (lapicVisit b hhdmOffset) base₁ ∧
      Safe (entries b) (ioapicVisit b hhdmOffset) base₂ ∧ Safe (entries b) (irqVisit b irq) gsi := by
  rw [lapic_safe_iff, ioapic_safe_iff, irq_safe_iff]
  constructor
  · intro h
    refine ⟨fun p hp => ⟨h.header p hp, h.lapic p hp⟩, fun p hp hfirst =>
      ⟨fun h0 => ?_, h.header p hp, fun h1 => h.ioapic p hp h1 hfirst⟩, fun p hp hfirst =>
      ⟨h.header p hp, fun h2 h0 => h.iso p hp h2 h0 hfirst⟩⟩
    rcases h.progress p hp h0 with h1 | ⟨q, hlt, hq, h1⟩
    · exact h1
    · exact absurd h1 (hfirst q hlt hq)
  · rintro ⟨hlapic, hioapic, hirq⟩
    refine ⟨fun p hp => (hlapic p hp).1, fun p hp h0 => ?_, fun p hp => (hlapic p hp).2,
      fun p hp h1 hfirst => (hioapic p hp hfirst).2.2 h1, fun p hp h2 h0 hfirst =>
      (hirq p hp hfirst).2 h2 h0⟩
    by_cases hbefore : ∃ q < p, EntryAt b q ∧ b q = madtIoapic
    · exact Or.inr hbefore
    · exact Or.inl ((hioapic p hp fun q hlt hq h1 => hbefore ⟨q, hlt, hq, h1⟩).1 h0)

/-- The three walks are safe on a table just if it is well formed. -/
theorem madt_walks_safe_iff (b : Bytes) (hhdmOffset : U64) (irq : U8) :
    WalksSafe b hhdmOffset irq ↔ WellFormed b irq := by
  rw [wellFormed_iff]
  constructor
  · rintro ⟨t₁, t₂, t₃, h₁, h₂, h₃, hreads, -⟩
    simp only [List.forall_mem_append] at hreads
    exact ⟨⟨t₁, h₁, hreads.1.1⟩, ⟨t₂, h₂, hreads.1.2⟩, ⟨t₃, h₃, hreads.2⟩⟩
  · rintro ⟨⟨t₁, h₁, hr₁⟩, ⟨t₂, h₂, hr₂⟩, ⟨t₃, h₃, hr₃⟩⟩
    refine ⟨t₁, t₂, t₃, h₁, h₂, h₃, ?_, ?_, ?_, ?_⟩
    · simp only [List.forall_mem_append]
      exact ⟨⟨hr₁, hr₂⟩, hr₃⟩
    · exact (visited_comparable h₁ h₂).imp (·.map _) (·.map _)
    · exact (visited_comparable h₁ h₃).imp (·.map _) (·.map _)
    · exact (visited_comparable h₂ h₃).imp (·.map _) (·.map _)

/-- One entry, of type 0 and length 0. -/
def stuckTable : Bytes := fun p => if p = 4 then 46 else 0

/-- One entry that ends after its type. -/
def cutTable : Bytes := fun p => if p = 4 then 45 else 0

theorem ioapicWalk_stuck : ∀ (fuel : ℕ) (t : Trace U64),
    walk (entries stuckTable) (ioapicVisit stuckTable 0) fuel entriesOffset t = none
  | 0, _ => rfl
  | fuel + 1, t => by
    have hin : entriesOffset < (entries stuckTable).stop := by decide
    have hgo : ¬(ioapicVisit stuckTable 0).stops entriesOffset = true := by decide
    rw [walk, if_pos hin, if_neg hgo]
    exact ioapicWalk_stuck fuel _

/-- `ioapic_init` does not get past an entry of length 0, and `lapic_init` reads the byte behind a
table that ends after a type. -/
theorem broken_tables :
    (tableLength stuckTable = 46 ∧ (∀ fuel, ioapicWalk stuckTable 0 fuel = none) ∧
      ¬WalksSafe stuckTable 0 0) ∧
    (tableLength cutTable = 45 ∧ (lapicWalk cutTable 0 2).map Trace.reads = some [44, 45] ∧
      ¬WalksSafe cutTable 0 0) := by
  have hcut : lapicWalk cutTable 0 2 = some ⟨[44, 45], [44], 0⟩ := by rfl
  refine ⟨⟨rfl, fun fuel => ioapicWalk_stuck fuel _, ?_⟩, ⟨rfl, by rw [hcut]; rfl, ?_⟩⟩
  · rintro ⟨_, t, _, _, ⟨N, hN⟩, _⟩
    exact nomatch (ioapicWalk_stuck N _).symm.trans (hN N (Nat.le_refl N))
  · rintro ⟨t, _, _, ⟨N, hN⟩, _, _, hreads, _⟩
    have hrun := walk_mono hcut (Nat.le_max_right N 2)
    obtain rfl := Option.some.inj (hrun.symm.trans (hN _ (Nat.le_max_left N 2)))
    exact absurd (hreads 45 (by simp)) (by decide)

end Jeos.Madt
