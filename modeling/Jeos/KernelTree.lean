import Jeos.Mmio

/-!
# The active page tables

`KernelTree` says what is assumed of the tables of the boot loader. A table or an entry that
`map_page` adds leaves the walks of the processor for all other pages (`KernelTree.addTable`,
`KernelTree.setLeaf`), and `MapsOnly` collects what a call leaves. Where no large page maps the
address, the walk of the page ends in the new entry (`mapPage_spec`).
-/

set_option linter.unusedSectionVars false

namespace Jeos

open ByteMemory TreeWalk

section Entries

/-! ## Entries -/

theorem and_frameBits_toNat (a : U64) : (a &&& frameBits).toNat = pageOf a % 2 ^ 40 * 4096 := by
  have hf : frameBits = pageFrameMask &&& (2 ^ 52 - 1 : U64) := by decide
  rw [hf, ← BitVec.and_assoc, BitVec.toNat_and, and_pageFrameMask_toNat,
    show ((2 ^ 52 - 1 : U64)).toNat = 2 ^ 52 - 1 from rfl, Nat.and_two_pow_sub_one_eq_mod]
  omega

/-- The table of an entry with an address in the direct map. -/
theorem tableBelow_or {h : Heap} {v f : U64} (hh : PageAligned h.hhdmOffset) (hv : PageAligned v)
    (hf : FlagBits f) (hlt : (h.virtToPhys v).toNat < 2 ^ 52) :
    h.tableBelow (h.virtToPhys v ||| f) = v := by
  have hp : PageAligned (h.virtToPhys v) := hv.sub hh
  have hmask : (h.virtToPhys v ||| f) &&& frameBits = h.virtToPhys v := by
    have hb : frameBits = pageFrameMask &&& frameBits := by decide
    rw [hb, ← BitVec.and_assoc, or_and_pageFrameMask hp hf]
    refine BitVec.eq_of_toNat_eq ?_
    rw [and_frameBits_toNat]
    have := hp.toNat_eq
    omega
  rw [Heap.tableBelow, hmask, Heap.virtToPhys, Heap.physToVirt, BitVec.sub_add_cancel]

theorem pageAligned_tableBelow {h : Heap} (hh : PageAligned h.hhdmOffset) (e : U64) :
    PageAligned (h.tableBelow e) := by
  refine PageAligned.add ?_ hh
  rw [PageAligned, and_frameBits_toNat]
  exact Nat.dvd_mul_left _ _

theorem tableBelow_congr {h h' : Heap} (hh : h'.hhdmOffset = h.hhdmOffset) (e : U64) :
    h'.tableBelow e = h.tableBelow e := by
  rw [Heap.tableBelow, Heap.tableBelow, Heap.physToVirt, Heap.physToVirt, hh]

/-- The rights of an entry that grants reads and writes. -/
theorem and_three_of_bits {e : U64} (hp : Present e) (hw : e &&& pteWrite ≠ 0) :
    e &&& 3 = 3 := by
  have hbit : ∀ i, e &&& BitVec.twoPow 64 i ≠ 0 → e &&& BitVec.twoPow 64 i = BitVec.twoPow 64 i :=
    fun i h => by
      rw [BitVec.and_twoPow] at h ⊢
      split_ifs at h ⊢
      · rfl
      · exact absurd rfl h
  have h0 : e &&& ptePresent = ptePresent := hbit 0 hp
  have h1 : e &&& pteWrite = pteWrite := hbit 1 hw
  rw [show (3 : U64) = ptePresent ||| pteWrite by decide, BitVec.and_or_distrib_left, h0, h1]

theorem or_and_of_flags {p f m : U64} (hp : PageAligned p) (hm : FlagBits m) :
    (p ||| f) &&& m = f &&& m := by
  have h0 : p &&& m = 0 := by
    rw [← and_pageFrameMask_of_aligned hp, BitVec.and_assoc, BitVec.and_comm pageFrameMask, hm]
    exact BitVec.and_zero
  rw [BitVec.and_comm, BitVec.and_or_distrib_left, BitVec.and_comm m p, h0, BitVec.and_comm m f]
  exact BitVec.zero_or

theorem and_ptePs_of_flags {p f : U64} (hp : PageAligned p) (hf : FlagBits f) :
    (p ||| f) &&& ptePs = f &&& ptePs := by
  have h : ∀ e : U64, e &&& ptePs = pteFlags e &&& ptePs := fun e => by
    rw [pteFlags, BitVec.and_assoc]
    rfl
  rw [h, pteFlags_or hp hf]

end Entries

section Tree

variable {h h' h'' : Heap} {root : U64} {n n₀ n' : Table} {p p₀ q is : List ℕ} {i i₀ : ℕ}
  {Q Q' : Set (List ℕ)}

/-! ## The tables -/

theorem nextOf_eq_some : nextOf h n i = some n' ↔ 1 < n.level ∧ i < 512 ∧
    Present (h.entry n.addr i) ∧ ¬IsLeaf (h.entry n.addr i) (n.level - 1) ∧
      n' = ⟨n.level - 1, h.tableBelow (h.entry n.addr i)⟩ := by
  unfold nextOf
  split
  case isTrue hc => simp only [hc, Option.some.injEq, true_and, eq_comm, not_false_eq_true]
  case isFalse hc =>
    simp only [reduceCtorEq, false_iff]
    exact fun h => hc ⟨h.1, h.2.1, h.2.2.1, h.2.2.2.1⟩

theorem tableAt_nil : tableAt h root [] = some ⟨4, root⟩ := rfl

theorem tableAt_concat (hn : tableAt h root p = some n) (i : ℕ) :
    tableAt h root (p ++ [i]) = nextOf h n i := walk_concat_of hn i

theorem tableAt_level (hn : tableAt h root p = some n) : n.level + p.length = 4 ∧ 1 ≤ n.level := by
  refine walk_induction (P := fun p n => n.level + p.length = 4 ∧ 1 ≤ n.level)
    ⟨rfl, (by decide : 1 ≤ 4)⟩
    (fun p n i n' _ ih hc => ?_) hn
  obtain ⟨hl, -, -, -, rfl⟩ := nextOf_eq_some.1 hc
  rw [List.length_append, List.length_singleton]
  exact ⟨by change n.level - 1 + _ = 4; omega, by change 1 ≤ n.level - 1; omega⟩

theorem nextOf_congr (hh : h'.hhdmOffset = h.hhdmOffset)
    (he : i < 512 → h'.entry n.addr i = h.entry n.addr i) : nextOf h' n i = nextOf h n i := by
  unfold nextOf
  by_cases hi : i < 512
  · rw [he hi, tableBelow_congr hh]
  · rw [if_neg fun hc => hi hc.2.1, if_neg fun hc => hi hc.2.1]

theorem KernelTree.aligned (hk : KernelTree h root) (hn : tableAt h root p = some n) :
    PageAligned n.addr := by
  refine walk_induction (P := fun _ n => PageAligned n.addr) hk.root_aligned
    (fun p n i n' _ _ hc => ?_) hn
  obtain ⟨-, -, -, -, rfl⟩ := nextOf_eq_some.1 hc
  exact pageAligned_tableBelow hk.sound.hhdm _

theorem KernelTree.unique (hk : KernelTree h root) (hn : tableAt h root p = some n)
    (hn' : tableAt h root q = some n') (hp : pageOf n.addr = pageOf n'.addr) : p = q ∧ n = n' := by
  have he := eq_of_pageOf_eq (hk.aligned hn) (hk.aligned hn') hp
  obtain rfl := hk.unshared p q n n' hn hn' he
  exact ⟨rfl, Option.some.inj (hn.symm.trans hn')⟩

theorem KernelTree.not_free (hk : KernelTree h root) {k : ℕ} (hmem : k ∈ rootPages h root) :
    k ∉ h.freePages := by
  obtain ⟨p, n, hn, rfl⟩ := hmem
  exact hk.held p n hn

/-- `h'` differs from `h` in the tables at most in entry `i₀` of the table at `p₀`. -/
structure TableUpdate (h h' : Heap) (root : U64) (p₀ : List ℕ) (n₀ : Table) (i₀ : ℕ) : Prop where
  node : tableAt h root p₀ = some n₀
  index : i₀ < 512
  hhdm : h'.hhdmOffset = h.hhdmOffset
  same : ∀ x, pageOf x ∈ rootPages h root → ¬Within x (entryAddr n₀.addr i₀) 8 → h'.mem x = h.mem x

theorem KernelTree.entry_of_update (hk : KernelTree h root) (U : TableUpdate h h' root p₀ n₀ i₀)
    (hn : tableAt h root p = some n) (hi : i < 512) (hne : ¬(n = n₀ ∧ i = i₀)) :
    h'.entry n.addr i = h.entry n.addr i := by
  refine load64_congr fun x hx => ?_
  have hx' := pageOf_of_within_entry (hk.aligned hn) hi hx
  refine U.same x ⟨p, n, hn, hx'.symm⟩ fun hx₀ => ?_
  have hx₀' := pageOf_of_within_entry (hk.aligned U.node) U.index hx₀
  obtain ⟨-, rfl⟩ := hk.unique hn U.node (hx'.symm.trans hx₀')
  exact not_within_entry_of_ne hi U.index (fun e => hne ⟨rfl, e⟩) hx hx₀

theorem KernelTree.nextOf_of_update (hk : KernelTree h root) (U : TableUpdate h h' root p₀ n₀ i₀)
    (hn : tableAt h root p = some n) (hne : ¬(n = n₀ ∧ i = i₀)) : nextOf h' n i = nextOf h n i :=
  nextOf_congr U.hhdm fun hi => hk.entry_of_update U hn hi hne

/-- An entry without a table below gets none, or one that was free and is empty. -/
theorem KernelTree.update (hk : KernelTree h root) (U : TableUpdate h h' root p₀ n₀ i₀)
    (hs : h'.Sound) (hf : h'.freePages ⊆ h.freePages) (hold : nextOf h n₀ i₀ = none)
    (hnew : ∀ n, nextOf h' n₀ i₀ = some n → pageOf n.addr ∈ h.freePages ∧
      pageOf n.addr ∉ h'.freePages ∧ (∀ j, nextOf h' n j = none) ∧
      h'.entry n₀.addr i₀ &&& pteWrite ≠ 0 ∧ h'.pteAddr (h'.entry n₀.addr i₀) = n.addr) :
    KernelTree h' root ∧ (∀ p n, tableAt h root p = some n → tableAt h' root p = some n) ∧
      rootPages h' root ⊆ h.freePages ∪ rootPages h root := by
  have hcases : ∀ {p n}, tableAt h' root p = some n →
      tableAt h root p = some n ∨ p = p₀ ++ [i₀] ∧ nextOf h' n₀ i₀ = some n := by
    refine walk_induction (P := fun p n => tableAt h root p = some n ∨
      p = p₀ ++ [i₀] ∧ nextOf h' n₀ i₀ = some n) (Or.inl rfl) fun p n i n' _ ih hc => ?_
    rcases ih with hn | ⟨-, hn⟩
    · by_cases hx : n = n₀ ∧ i = i₀
      · obtain ⟨rfl, rfl⟩ := hx
        exact Or.inr ⟨by rw [hk.unshared p p₀ n n hn U.node rfl], hc⟩
      · rw [hk.nextOf_of_update U hn hx] at hc
        exact Or.inl ((tableAt_concat hn i).trans hc)
    · rw [(hnew n hn).2.2.1] at hc
      exact absurd hc.symm (Option.some_ne_none n')
  have hkeep : ∀ {p n}, tableAt h root p = some n → tableAt h' root p = some n := by
    refine walk_induction (P := fun p n => tableAt h' root p = some n) rfl
      fun p n i n' hn ih hc => ?_
    rw [tableAt_concat ih, hk.nextOf_of_update U hn ?_, hc]
    rintro ⟨rfl, rfl⟩
    exact absurd (hc.symm.trans hold) (Option.some_ne_none n')
  refine ⟨⟨hs, U.hhdm.symm ▸ hk.higher, fun k hmem => U.hhdm.symm ▸ hk.direct k (hf hmem),
    hk.root_aligned, fun p n hn => ?_, fun p q n n' hn hn' ha => ?_, fun p n i n' hn hc => ?_⟩,
    fun p n => hkeep, ?_⟩
  · rcases hcases hn with hn | ⟨-, hn⟩
    · exact fun hmem => hk.held p n hn (hf hmem)
    · exact (hnew n hn).2.1
  · rcases hcases hn with hn | ⟨rfl, hx⟩ <;> rcases hcases hn' with hn' | ⟨rfl, hx'⟩
    · exact hk.unshared p q n n' hn hn' ha
    · exact absurd (ha ▸ (hnew n' hx').1) (hk.held p n hn)
    · exact absurd (ha ▸ (hnew n hx).1) (hk.held q n' hn')
    · rfl
  · rcases hcases hn with hn | ⟨-, hn⟩
    · by_cases hx : n = n₀ ∧ i = i₀
      · obtain ⟨rfl, rfl⟩ := hx
        exact (hnew n' hc).2.2.2
      · have hi := (nextOf_eq_some.1 hc).2.1
        rw [hk.nextOf_of_update U hn hx] at hc
        rw [hk.entry_of_update U hn hi hx, pteAddr_congr U.hhdm]
        exact hk.entries p n i n' hn hc
    · rw [(hnew n hn).2.2.1] at hc
      exact absurd hc.symm (Option.some_ne_none n')
  · rintro k ⟨p, n, hn, rfl⟩
    rcases hcases hn with hn | ⟨-, hn⟩
    · exact Or.inr ⟨p, n, hn, rfl⟩
    · exact Or.inl (hnew n hn).1

/-! ## Walks -/

theorem walkFrom_cons {rights t : U64} (hp : Present (h.entry t i))
    (hl : ¬IsLeaf (h.entry t i) is.length) : walkFrom h (i :: is) t rights =
      walkFrom h is (h.tableBelow (h.entry t i)) (rights &&& h.entry t i) := by
  rw [walkFrom, if_neg (not_not.2 hp), if_neg hl]

/-- Only the walks for the paths in `Q` see the changed entry. -/
theorem KernelTree.walkFrom_update (hk : KernelTree h root) (U : TableUpdate h h' root p₀ n₀ i₀)
    (hspecial : ∀ is rights, p₀ ++ i₀ :: is ∉ Q → is.length + 1 = n₀.level →
      (∀ j ∈ is, j < 512) →
        walkFrom h' (i₀ :: is) n₀.addr rights = walkFrom h (i₀ :: is) n₀.addr rights)
    (rights : U64) (hn : tableAt h root p = some n) (hl : n.level = is.length)
    (hlt : ∀ i ∈ is, i < 512) (hq : p ++ is ∉ Q) :
    walkFrom h' is n.addr rights = walkFrom h is n.addr rights := by
  induction is generalizing p n rights with
  | nil => rfl
  | cons i is ih =>
    by_cases hx : n = n₀ ∧ i = i₀
    · obtain ⟨rfl, rfl⟩ := hx
      obtain rfl := hk.unshared p p₀ n n hn U.node rfl
      exact hspecial is rights hq hl.symm fun j hj => hlt j (List.mem_cons_of_mem i hj)
    have hi := hlt i List.mem_cons_self
    have he := hk.entry_of_update U hn hi hx
    by_cases hp : Present (h.entry n.addr i)
    · by_cases hleaf : IsLeaf (h.entry n.addr i) is.length
      · simp only [walkFrom, he, if_neg (not_not.2 hp), if_pos hleaf]
      · rw [walkFrom_cons (he.symm ▸ hp) (he.symm ▸ hleaf), walkFrom_cons hp hleaf, he,
          tableBelow_congr U.hhdm]
        have hlen : n.level - 1 = is.length := by rw [hl, List.length_cons, Nat.add_sub_cancel]
        have hpos : 1 < n.level := by
          rw [hl, List.length_cons]
          exact Nat.succ_lt_succ (Nat.pos_of_ne_zero fun h0 => hleaf (Or.inl h0))
        have hnext : tableAt h root (p ++ [i]) =
            some ⟨n.level - 1, h.tableBelow (h.entry n.addr i)⟩ := by
          rw [tableAt_concat hn]
          exact nextOf_eq_some.2 ⟨hpos, hi, hp, hlen.symm ▸ hleaf, rfl⟩
        exact ih (rights &&& h.entry n.addr i) hnext hlen
          (fun j hj => hlt j (List.mem_cons_of_mem i hj)) (by simpa using hq)
    · simp only [walkFrom, he, if_pos hp]

/-- The walk goes through the tables of the tree, which grant reads and writes. -/
theorem KernelTree.walkFrom_split (hk : KernelTree h root) (hn : tableAt h root p = some n)
    (rights : U64) : ∃ rights', rights' &&& 3 = rights &&& 3 ∧ ∀ is, is.length = n.level →
      walkFrom h (p ++ is) root rights = walkFrom h is n.addr rights' := by
  refine walk_induction (P := fun p n => ∃ rights', rights' &&& 3 = rights &&& 3 ∧
    ∀ is, is.length = n.level → walkFrom h (p ++ is) root rights = walkFrom h is n.addr rights')
    ⟨rights, rfl, fun is _ => rfl⟩ (fun p n i n' hn ih hc => ?_) hn
  obtain ⟨rights', hr, hw⟩ := ih
  obtain ⟨hwrite, -⟩ := hk.entries p n i n' hn hc
  obtain ⟨hl, hi, hp, hleaf, rfl⟩ := nextOf_eq_some.1 hc
  refine ⟨rights' &&& h.entry n.addr i, ?_, fun is his => ?_⟩
  · rw [BitVec.and_assoc, and_three_of_bits hp hwrite, hr]
  · have his' : is.length = n.level - 1 := his
    rw [List.append_assoc, List.singleton_append, hw (i :: is) (by rw [List.length_cons]; omega),
      walkFrom_cons hp (his'.symm ▸ hleaf)]

/-! ## Changes of the tables -/

/-- What mapping the pages with the paths in `Q` may do. -/
structure MapsOnly (Q : Set (List ℕ)) (root : U64) (h h' : Heap) : Prop where
  tree : KernelTree h' root
  free : h'.freePages ⊆ h.freePages
  agree : h.AgreeOutside (h.freePages ∪ rootPages h root) h'
  pages : rootPages h' root ⊆ h.freePages ∪ rootPages h root
  walks : ∀ is, is.length = 4 → (∀ i ∈ is, i < 512) → is ∉ Q →
    walkFrom h' is root (-1) = walkFrom h is root (-1)

theorem MapsOnly.refl (hk : KernelTree h root) : MapsOnly Q root h h :=
  ⟨hk, subset_rfl, .refl _ _, Set.subset_union_right, fun _ _ _ _ => rfl⟩

theorem MapsOnly.mono (m : MapsOnly Q root h h') (hQ : Q ⊆ Q') : MapsOnly Q' root h h' :=
  ⟨m.tree, m.free, m.agree, m.pages, fun is hl hlt hn => m.walks is hl hlt fun hQ' => hn (hQ hQ')⟩

theorem MapsOnly.trans (m : MapsOnly Q root h h') (m' : MapsOnly Q root h' h'') :
    MapsOnly Q root h h'' := by
  have hsub : h'.freePages ∪ rootPages h' root ⊆ h.freePages ∪ rootPages h root :=
    Set.union_subset (m.free.trans Set.subset_union_left) m.pages
  exact ⟨m'.tree, m'.free.trans m.free, m.agree.trans (m'.agree.mono hsub), m'.pages.trans hsub,
    fun is hl hlt hQ => (m'.walks is hl hlt hQ).trans (m.walks is hl hlt hQ)⟩

/-- A page that was free becomes the table below a missing entry. No walk changes. -/
theorem KernelTree.addTable {v : U64} {h₁ : Heap} (hk : KernelTree h root)
    (hn : tableAt h root p = some n) (hl : 2 ≤ n.level) (hi : i < 512)
    (habs : ¬Present (h.entry n.addr i)) (ht : TakesPage h h₁ v)
    (hh' : h' = (h₁.zeroPage v).setEntry n.addr i (h.virtToPhys v ||| (ptePresent ||| pteWrite))) :
    MapsOnly ∅ root h h' ∧ h.freePages ⊆ h'.freePages ∪ {pageOf v} ∧
      tableAt h' root (p ++ [i]) = some ⟨n.level - 1, v⟩ := by
  have hna := hk.aligned hn
  have hva := ht.aligned
  obtain ⟨hs', hfree', hhd, hmem, hentry, hzero⟩ := ht.link hna (hk.held p n hn) hi hh'
  have hsub : h'.freePages ⊆ h.freePages := hfree' ▸ Set.sdiff_subset
  have hpres : Present (h'.entry n.addr i) := hentry ▸ and_bit_ne_zero_of_or (by decide)
  have hleaf : ¬IsLeaf (h'.entry n.addr i) (n.level - 1) := by
    rintro (h0 | ⟨-, hps⟩)
    · omega
    · have hflags : FlagBits (ptePresent ||| pteWrite) := by decide
      rw [hentry, Heap.virtToPhys, and_ptePs_of_flags (hva.sub hk.sound.hhdm) hflags] at hps
      exact hps (by decide)
  have hbelow : h'.tableBelow (h'.entry n.addr i) = v := by
    rw [hentry, tableBelow_congr hhd]
    refine tableBelow_or hk.sound.hhdm hva (by decide) ?_
    have h1 := hk.direct _ ht.mem_free
    have h2 := hk.higher
    have h3 := v.isLt
    rw [Heap.virtToPhys, BitVec.toNat_sub]
    have h4 := hva.toNat_eq
    omega
  have hnext : nextOf h' n i = some ⟨n.level - 1, v⟩ :=
    nextOf_eq_some.2 ⟨hl, hi, hpres, hleaf, by rw [hbelow]⟩
  have hnone : nextOf h n i = none := if_neg fun hc => habs hc.2.2.1
  have hempty : ∀ j < 512, ¬Present (h'.entry v j) := fun j hj hp =>
    hp (by rw [hzero j hj]; exact BitVec.zero_and)
  have U : TableUpdate h h' root p n i := ⟨hn, hi, hhd, fun x hx => hmem x (hk.not_free hx)⟩
  obtain ⟨hk', hkeep, hpages⟩ := hk.update U hs' hsub hnone fun n' hn' => by
    obtain rfl := Option.some.inj (hnext.symm.trans hn')
    refine ⟨ht.mem_free, hfree' ▸ fun hx => hx.2 rfl, fun j => ?_, ?_, ?_⟩
    · exact if_neg fun hc => hempty j hc.2.1 hc.2.2.1
    · exact hentry ▸ and_bit_ne_zero_of_or (by decide)
    · rw [hentry, pteAddr_congr hhd, pteAddr_or hk.sound.hhdm hva (by decide)]
  refine ⟨⟨hk', hsub, ⟨hhd, fun x hx => ?_⟩, hpages, fun is hlen hlt _ => ?_⟩, ?_,
    (tableAt_concat (hkeep p n hn) i).trans hnext⟩
  · rw [Set.mem_union, not_or] at hx
    refine hmem x hx.1 fun hx' => hx.2 ⟨p, n, hn, ?_⟩
    exact (pageOf_of_within_entry hna hi hx').symm
  · refine hk.walkFrom_update (Q := ∅) U (fun is rights _ hlen hlt => ?_) (-1) tableAt_nil
      hlen.symm hlt (Set.notMem_empty _)
    cases is with
    | nil =>
      change 0 + 1 = n.level at hlen
      omega
    | cons j is =>
      have hlen' : n.level - 1 = (j :: is).length := by omega
      rw [walkFrom_cons hpres (hlen' ▸ hleaf), hbelow]
      simp only [walkFrom, if_pos habs, if_pos (hempty j (hlt j List.mem_cons_self))]
  · rw [hfree', Set.sdiff_union_self]
    exact Set.subset_union_left

/-- An entry of a last-level table changes only its own walk, which ends in it. -/
theorem KernelTree.setLeaf {e : U64} (hk : KernelTree h root) (hn : tableAt h root p = some n)
    (hl : n.level = 1) (hi : i < 512) (he : Present e) :
    MapsOnly {p ++ [i]} root h (h.setEntry n.addr i e) ∧
      ∃ rights, walkFrom (h.setEntry n.addr i e) (p ++ [i]) root (-1) = some (0, e, rights) ∧
        rights &&& 3 = e &&& 3 := by
  have hna := hk.aligned hn
  obtain ⟨hs', hfree'⟩ := hk.sound.setEntry hna (hk.held p n hn) hi e
  have hnone : ∀ h : Heap, nextOf h n i = none := fun h => if_neg fun hc => by
    have := hc.1
    omega
  have U : TableUpdate h (h.setEntry n.addr i e) root p n i :=
    ⟨hn, hi, rfl, fun x _ => setEntry_mem_of_not_within⟩
  obtain ⟨hk', hkeep, hpages⟩ := hk.update U hs' hfree'.subset (hnone h) fun n' hn' =>
    absurd ((hnone _).symm.trans hn').symm (Option.some_ne_none n')
  refine ⟨⟨hk', hfree'.subset, ⟨rfl, fun x hx => ?_⟩, hpages, fun is hlen hlt hQ => ?_⟩, ?_⟩
  · rw [Set.mem_union, not_or] at hx
    refine setEntry_mem_of_not_within fun hx' => hx.2 ⟨p, n, hn, ?_⟩
    exact (pageOf_of_within_entry hna hi hx').symm
  · refine hk.walkFrom_update U (fun is rights hQ hlen _ => ?_) (-1) tableAt_nil hlen.symm hlt hQ
    rw [hl, Nat.add_eq_right, List.length_eq_zero_iff] at hlen
    obtain rfl := hlen
    exact absurd rfl hQ
  · obtain ⟨rights, hr, hw⟩ := hk'.walkFrom_split (hkeep p n hn) (-1)
    have hleaf : IsLeaf e ([] : List ℕ).length := Or.inl rfl
    refine ⟨rights &&& e, ?_, ?_⟩
    · rw [hw [i] hl.symm, walkFrom, entry_setEntry_self, if_neg (not_not.2 he), if_pos hleaf]
      rfl
    · rw [BitVec.and_assoc, BitVec.and_comm e, ← BitVec.and_assoc, hr,
        show (-1 : U64) &&& 3 = 3 by decide, BitVec.and_comm]

end Tree

/-! ## One page -/

namespace PagingState

variable {s s' : PagingState} {root cr3 t t' va phys flags : U64} {n : Table} {p is : List ℕ} {i : ℕ}

theorem exists_nextTable (s : PagingState) (t : U64) (i : ℕ) : ∃ r, s.nextTable t i = some r := by
  unfold nextTable
  split
  · exact ⟨_, rfl⟩
  · obtain ⟨r, hr⟩ := s.exists_kallocPage
    rw [hr]
    exact ⟨_, rfl⟩

theorem nextTable_mono (hr : s.nextTable t i = some (s', t')) (hok : s'.ok = true) :
    s.ok = true := by
  unfold nextTable at hr
  split at hr
  · rw [(Prod.mk.inj (Option.some.inj hr)).1]
    exact hok
  · obtain ⟨⟨s₁, v⟩, hk, he⟩ := Option.map_eq_some_iff.1 hr
    rw [← (Prod.mk.inj he).1] at hok
    obtain ⟨⟨h, w⟩, -, he'⟩ := Option.map_eq_some_iff.1 hk
    rw [← (Prod.mk.inj he').1] at hok
    exact (Bool.and_eq_true_iff.1 hok).1

/-- `nextTable` finds the table, or it takes a page for it. -/
theorem nextTable_cases (hs : s.heap.Sound) (hr : s.nextTable t i = some (s', t'))
    (hok : s'.ok = true) :
    Present (s.heap.entry t i) ∧ s' = s ∧ t' = s.heap.pteAddr (s.heap.entry t i) ∨
      ¬Present (s.heap.entry t i) ∧ ∃ h₁, TakesPage s.heap h₁ t' ∧
        s'.heap = (h₁.zeroPage t').setEntry t i
          (s.heap.virtToPhys t' ||| (ptePresent ||| pteWrite)) := by
  unfold nextTable at hr
  split at hr
  case isTrue hp =>
    obtain ⟨rfl, rfl⟩ := Prod.mk.inj (Option.some.inj hr)
    exact Or.inl ⟨hp, rfl, rfl⟩
  case isFalse hp =>
    obtain ⟨⟨s₁, v⟩, hk, he⟩ := Option.map_eq_some_iff.1 hr
    obtain ⟨-, -, ht⟩ := kallocPage_spec hs hk (by rw [← (Prod.mk.inj he).1] at hok; exact hok)
    obtain ⟨rfl, rfl⟩ := Prod.mk.inj he
    have hback : s₁.heap.physToVirt (s₁.heap.virtToPhys v) = v := BitVec.sub_add_cancel _ _
    have hor : s₁.heap.virtToPhys v ||| ptePresent ||| pteWrite =
        s.heap.virtToPhys v ||| (ptePresent ||| pteWrite) := by
      rw [Heap.virtToPhys, Heap.virtToPhys, ht.agree.hhdm, BitVec.or_assoc]
    have hv : ((s₁.heap.zeroPage v).setEntry t i
        (s.heap.virtToPhys v ||| (ptePresent ||| pteWrite))).pteAddr
          (s.heap.virtToPhys v ||| (ptePresent ||| pteWrite)) = v :=
      (pteAddr_congr (h := s.heap) ht.agree.hhdm _).trans (pteAddr_or hs.hhdm ht.aligned (by decide))
    simp only [hback, hor, entry_setEntry_self, hv]
    exact Or.inr ⟨hp, s₁.heap, ht, rfl⟩

/-- `nextTable` finds the table of the tree, or it makes one. -/
theorem nextTable_spec (hk : KernelTree s.heap root) (hn : tableAt s.heap root p = some n)
    (hl : 2 ≤ n.level) (hi : i < 512)
    (hsmall : Present (s.heap.entry n.addr i) → ¬IsLeaf (s.heap.entry n.addr i) (n.level - 1))
    (hr : s.nextTable n.addr i = some (s', t)) (hok : s'.ok = true) :
    MapsOnly ∅ root s.heap s'.heap ∧ s.heap.freePages ⊆ s'.heap.freePages ∪ {pageOf t} ∧
      tableAt s'.heap root (p ++ [i]) = some ⟨n.level - 1, t⟩ := by
  rcases nextTable_cases hk.sound hr hok with ⟨hp, rfl, rfl⟩ | ⟨hp, h₁, ht, hs'⟩
  · have hnext : nextOf s'.heap n i =
        some ⟨n.level - 1, s'.heap.tableBelow (s'.heap.entry n.addr i)⟩ :=
      nextOf_eq_some.2 ⟨hl, hi, hp, hsmall hp, rfl⟩
    refine ⟨.refl hk, Set.subset_union_left, ?_⟩
    rw [(hk.entries p n i _ hn hnext).2]
    exact (tableAt_concat hn i).trans hnext
  · exact hk.addTable hn hl hi hp ht hs'

/-- `nextTable` only fails when no page is free. -/
theorem nextTable_ok (hs : s.heap.Sound) (hr : s.nextTable t i = some (s', t')) (hok : s.ok = true)
    (hf : s.heap.freePages.Nonempty) : s'.ok = true := by
  unfold nextTable at hr
  split at hr
  · obtain ⟨rfl, -⟩ := Prod.mk.inj (Option.some.inj hr)
    exact hok
  · obtain ⟨⟨s₁, v⟩, hk, he⟩ := Option.map_eq_some_iff.1 hr
    obtain ⟨rfl, -⟩ := Prod.mk.inj he
    have hok' := kallocPage_ok hs hk hok hf
    exact hok'

/-- No large page is on the way to `va`. -/
theorem not_isLeaf_of_small (is : List ℕ) (hk : KernelTree s.heap root)
    (hsmall : SmallAt s.heap root va) (hpath : p ++ i :: is = vaPath va) (his : is ≠ [])
    (hn : tableAt s.heap root p = some n) (hl : n.level - 1 = is.length)
    (hp : Present (s.heap.entry n.addr i)) :
    ¬IsLeaf (s.heap.entry n.addr i) (n.level - 1) := by
  intro hleaf
  obtain ⟨rights, -, hw⟩ := hk.walkFrom_split hn (-1)
  have hlevel := (tableAt_level hn).2
  have hwalk := hw (i :: is) (by rw [List.length_cons]; omega)
  rw [hl] at hleaf
  rw [hpath, walkFrom, if_neg (not_not.2 hp), if_pos hleaf] at hwalk
  exact his (List.length_eq_zero_iff.1 (hsmall _ _ _ hwalk))

theorem exists_mapPage (s : PagingState) (cr3 virt phys flags : U64) :
    ∃ s', s.mapPage cr3 virt phys flags = some s' := by
  obtain ⟨⟨s₁, pdpt⟩, h₁⟩ := s.exists_nextTable (s.heap.pteAddr cr3) (pml4Index virt)
  obtain ⟨⟨s₂, pd⟩, h₂⟩ := s₁.exists_nextTable pdpt (pdptIndex virt)
  obtain ⟨⟨s₃, pt⟩, h₃⟩ := s₂.exists_nextTable pd (pdIndex virt)
  simp only [mapPage, h₁, h₂, h₃, Option.bind_some, Option.map_some]
  exact ⟨_, rfl⟩

/-- The calls `mapPage` makes. -/
theorem mapPage_eq_some {virt : U64} (hr : s.mapPage cr3 virt phys flags = some s') :
    ∃ s₁ pdpt s₂ pd s₃ pt,
      s.nextTable (s.heap.pteAddr cr3) (pml4Index virt) = some (s₁, pdpt) ∧
      s₁.nextTable pdpt (pdptIndex virt) = some (s₂, pd) ∧
      s₂.nextTable pd (pdIndex virt) = some (s₃, pt) ∧
      s' = ⟨s₃.heap.setEntry pt (ptIndex virt) (phys &&& pageFrameMask ||| flags ||| ptePresent),
        s₃.ok⟩ := by
  obtain ⟨⟨s₁, pdpt⟩, h₁, hr⟩ := Option.bind_eq_some_iff.1 hr
  obtain ⟨⟨s₂, pd⟩, h₂, hr⟩ := Option.bind_eq_some_iff.1 hr
  obtain ⟨⟨s₃, pt⟩, h₃, he⟩ := Option.map_eq_some_iff.1 hr
  exact ⟨s₁, pdpt, s₂, pd, s₃, pt, h₁, h₂, h₃, he.symm⟩

theorem mapPage_mono {virt : U64} (hr : s.mapPage cr3 virt phys flags = some s')
    (hok : s'.ok = true) : s.ok = true := by
  obtain ⟨s₁, pdpt, s₂, pd, s₃, pt, h₁, h₂, h₃, rfl⟩ := mapPage_eq_some hr
  exact nextTable_mono h₁ (nextTable_mono h₂ (nextTable_mono h₃ hok))

/-- `map_page` at an address without a large page. -/
theorem mapPage_spec (hroot : s.heap.pteAddr cr3 = root) (hk : KernelTree s.heap root)
    (hsmall : SmallAt s.heap root va) (hr : s.mapPage cr3 va phys flags = some s')
    (hok : s'.ok = true) :
    MapsOnly {vaPath va} root s.heap s'.heap ∧
      ∃ rights, walkFrom s'.heap (vaPath va) root (-1) =
          some (0, phys &&& pageFrameMask ||| flags ||| ptePresent, rights) ∧
        rights &&& 3 = (phys &&& pageFrameMask ||| flags ||| ptePresent) &&& 3 := by
  obtain ⟨s₁, pdpt, s₂, pd, s₃, pt, h₁, h₂, h₃, rfl⟩ := mapPage_eq_some hr
  rw [hroot] at h₁
  have hok₂ := nextTable_mono h₃ hok
  have hok₁ := nextTable_mono h₂ hok₂
  have hlt : ∀ i ∈ vaPath va, i < 512 := fun i => index_lt_of_mem_vaPath
  have hstep : ∀ {h'}, MapsOnly ∅ root s.heap h' → SmallAt h' root va := fun m below e rights hw =>
    hsmall below e rights ((m.walks (vaPath va) rfl hlt (Set.notMem_empty _)).symm.trans hw)
  obtain ⟨m₁, -, n₁⟩ := nextTable_spec hk tableAt_nil (Nat.le_add_left 2 2) (index_lt va 39)
    (not_isLeaf_of_small [pdptIndex va, pdIndex va, ptIndex va] hk hsmall rfl
      (List.cons_ne_nil _ _) tableAt_nil rfl) h₁ hok₁
  obtain ⟨m₂, -, n₂⟩ := nextTable_spec m₁.tree n₁ (Nat.le_succ 2) (index_lt va 30)
    (not_isLeaf_of_small [pdIndex va, ptIndex va] m₁.tree (hstep m₁) rfl
      (List.cons_ne_nil _ _) n₁ rfl) h₂ hok₂
  obtain ⟨m₃, -, n₃⟩ := nextTable_spec m₂.tree n₂ le_rfl (index_lt va 21)
    (not_isLeaf_of_small [ptIndex va] m₂.tree (hstep (m₁.trans m₂)) rfl
      (List.cons_ne_nil _ _) n₂ rfl) h₃ hok
  have m := (m₁.trans m₂).trans m₃
  obtain ⟨m₄, hw⟩ := m₃.tree.setLeaf n₃ rfl (index_lt va 12)
    (present_or (phys &&& pageFrameMask ||| flags))
  exact ⟨(m.mono (Set.empty_subset _)).trans m₄, hw⟩

end PagingState

end Jeos
