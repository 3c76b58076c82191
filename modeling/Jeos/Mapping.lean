import Jeos.PagingSpec

/-!
# Mapping a page into a tree of tables

`map_page_pml4` takes the frame from its caller, who may give it any page, also one that is free or a
table. `Grows` is what a call does to the tables for all of them : it makes tables of free pages and
changes no other node than the one at its path, and no entry of the kernel half
(`mapPagePml4_grows`).
-/

set_option linter.unusedSectionVars false

namespace Jeos

open ByteMemory TreeWalk

/-- The flags `map_page_pml4` gives the entries of the upper levels. -/
def tableFlags : U64 := ptePresent ||| pteWrite ||| pteUser

/-- What mapping a page at the path `q` may do to the tables. -/
structure Grows (q : List ℕ) (pml4 : U64) (h h' : Heap) : Prop where
  tree : TableTree h' pml4
  free : h'.freePages ⊆ h.freePages
  agree : h.AgreeOutside (h.freePages ∪ tablePages h pml4) h'
  keeps : ∀ p n, p ≠ q → nodeAt h pml4 p = some n → nodeAt h' pml4 p = some n
  nodes : ∀ p n, nodeAt h' pml4 p = some n → nodeAt h pml4 p = some n ∨
    n.level ≠ 0 ∧ pageOf n.addr ∈ h.freePages ∧ pteFlags n.pte = tableFlags ∨ n.level = 0 ∧ p = q
  kernel : ∀ j, KernelIndex j → h'.entry pml4 j = h.entry pml4 j

section Grows

variable {h h' h'' : Heap} {pml4 : U64} {n n₁ : Node} {p q : List ℕ} {i : ℕ}

theorem Grows.refl (hu : TableTree h pml4) : Grows q pml4 h h :=
  ⟨hu, subset_rfl, .refl _ _, fun _ _ _ hn => hn, fun _ _ hn => Or.inl hn, fun _ _ => rfl⟩

theorem Grows.tablePages_subset (g : Grows q pml4 h h') :
    tablePages h' pml4 ⊆ h.freePages ∪ tablePages h pml4 := by
  rintro k ⟨p, n, hn, hl, rfl⟩
  rcases g.nodes p n hn with hn | ⟨-, hf, -⟩ | ⟨h0, -⟩
  · exact Or.inr ⟨p, n, hn, hl, rfl⟩
  · exact Or.inl hf
  · exact absurd h0 hl

theorem Grows.trans (g : Grows q pml4 h h') (g' : Grows q pml4 h' h'') : Grows q pml4 h h'' := by
  refine ⟨g'.tree, g'.free.trans g.free, g.agree.trans (g'.agree.mono ?_),
    fun p n hp hn => g'.keeps p n hp (g.keeps p n hp hn), fun p n hn => ?_,
    fun j hj => (g'.kernel j hj).trans (g.kernel j hj)⟩
  · exact Set.union_subset (g.free.trans Set.subset_union_left) g.tablePages_subset
  · rcases g'.nodes p n hn with hn | ⟨hl, hf, hfl⟩ | h0
    · exact g.nodes p n hn
    · exact Or.inr (Or.inl ⟨hl, g.free hf, hfl⟩)
    · exact Or.inr (Or.inr h0)

/-- The tables with one node more. -/
theorem TableTree.update (hu : TableTree h pml4) (hs : h'.Sound)
    (hnodes : ∀ p, nodeAt h' pml4 p = if p = q then some n₁ else nodeAt h pml4 p)
    (hf : h'.freePages ⊆ h.freePages)
    (hnew : n₁.level ≠ 0 → pageOf n₁.addr ∉ h'.freePages ∧ pageOf n₁.addr ∉ tablePages h pml4) :
    TableTree h' pml4 := by
  have hcases : ∀ p n, nodeAt h' pml4 p = some n → p = q ∧ n = n₁ ∨ nodeAt h pml4 p = some n :=
    fun p n hn => by
      rw [hnodes] at hn
      split at hn
      · exact Or.inl ⟨‹_›, (Option.some.inj hn).symm⟩
      · exact Or.inr hn
  refine ⟨hs, hu.root_aligned, fun p n hn hl => ?_, fun p q' n n' hn hn' hl hl' ha => ?_⟩
  · rcases hcases p n hn with ⟨-, rfl⟩ | hn
    · exact (hnew hl).1
    · exact fun hfree => hu.held p n hn hl (hf hfree)
  · rcases hcases p n hn with ⟨rfl, rfl⟩ | hn <;> rcases hcases q' n' hn' with ⟨rfl, rfl⟩ | hn'
    · rfl
    · exact absurd ⟨q', n', hn', hl', by rw [ha]⟩ (hnew hl).2
    · exact absurd ⟨p, n, hn, hl, by rw [ha]⟩ (hnew hl').2
    · exact hu.unshared p q' n n' hn hn' hl hl' ha

/-- The entries of the kernel half are apart from those of the user half. -/
theorem TableTree.entry_kernel_setEntry (hu : TableTree h pml4) (hn : nodeAt h pml4 p = some n)
    (hl : n.level ≠ 0) (hi : i < n.fanout) (h' : Heap) (e : U64) {j : ℕ} (hj : KernelIndex j) :
    (h'.setEntry n.addr i e).entry pml4 j = h'.entry pml4 j := by
  have hi' := hi.trans_le n.fanout_le
  refine load64_congr fun x hx => ?_
  by_cases hp : pageOf n.addr = pageOf pml4
  · obtain ⟨-, rfl⟩ := hu.unique hn nodeAt_nil hl (Nat.succ_ne_zero 3) hp
    have hij : j ≠ i := by
      have : i < 256 := hi
      have := hj.1
      omega
    exact setEntry_mem_of_not_within (not_within_entry_of_ne hj.2 hi' hij hx)
  · refine setEntry_mem_of_pageOf_ne (hu.aligned hn) hi' fun he => hp ?_
    rw [← he, pageOf_of_within_entry hu.root_aligned hj.2 hx]

/-- A page that was free becomes the table below a missing entry. -/
theorem TableTree.addTable {v : U64} {h₁ : Heap} (hu : TableTree h pml4)
    (hn : nodeAt h pml4 p = some n) (hl : 2 ≤ n.level) (hi : i < n.fanout)
    (habs : ¬Present (h.entry n.addr i)) (ht : TakesPage h h₁ v)
    (hh' : h' = (h₁.zeroPage v).setEntry n.addr i (h.virtToPhys v ||| tableFlags)) :
    Grows q pml4 h h' ∧
      nodeAt h' pml4 (p ++ [i]) = some ⟨n.level - 1, h.virtToPhys v ||| tableFlags, v⟩ := by
  obtain ⟨hs', hfree', hag, hnodes⟩ :=
    hu.addTable_nodes hn hl hi habs ht (by decide) (by decide) hh'
  have hroot := hu.held [] _ nodeAt_nil (Nat.succ_ne_zero 3)
  refine ⟨⟨?_, hfree' ▸ Set.sdiff_subset, hag, fun p' n' _ hn' => ?_, fun p' n' hn' => ?_,
    fun j hj => ?_⟩, by rw [hnodes, if_pos rfl]⟩
  · refine hu.update hs' hnodes (hfree' ▸ Set.sdiff_subset) fun _ => ⟨?_, ?_⟩
    · rw [hfree']
      exact fun hv => hv.2 rfl
    · exact fun hv => hu.not_free hv ht.mem_free
  · rw [hnodes, if_neg, hn']
    rintro rfl
    have hc := (walk_concat_of hn i).symm.trans hn'
    exact habs (child_eq_some.1 hc).2.2.1
  · rw [hnodes] at hn'
    split at hn'
    · obtain rfl := Option.some.inj hn'
      have hlevel : n.level - 1 ≠ 0 := by omega
      exact Or.inr (Or.inl ⟨hlevel, ht.mem_free,
        pteFlags_or (ht.aligned.sub hu.sound.hhdm) (by decide)⟩)
    · exact Or.inl hn'
  · rw [hh', hu.entry_kernel_setEntry hn (by omega) hi _ _ hj]
    refine entry_congr hu.root_aligned hj.2 fun x hx => ?_
    rw [zeroPage_mem_of_pageOf_ne ht.aligned fun he => hroot ?_, ht.agree.mem x (hx ▸ hroot)]
    rw [Node.root, ← hx, he]
    exact ht.mem_free

/-- An entry of a last-level table gets a frame. -/
theorem TableTree.setLeaf {e : U64} (hu : TableTree h pml4) (hn : nodeAt h pml4 p = some n)
    (hl : n.level = 1) (hi : i < n.fanout) (he : Present e) :
    Grows (p ++ [i]) pml4 h (h.setEntry n.addr i e) ∧
      nodeAt (h.setEntry n.addr i e) pml4 (p ++ [i]) = some ⟨0, e, h.pteAddr e⟩ := by
  obtain ⟨hs', hfree', hag, hnodes⟩ := hu.setLeaf_nodes hn hl hi he
  refine ⟨⟨?_, hfree'.subset, hag, fun p' n' hp hn' => ?_, fun p' n' hn' => ?_, fun j hj => ?_⟩,
    by rw [hnodes, if_pos rfl]⟩
  · exact hu.update hs' hnodes hfree'.subset fun h0 => absurd rfl h0
  · rw [hnodes, if_neg hp, hn']
  · rw [hnodes] at hn'
    split at hn'
    case isTrue hp =>
      obtain rfl := Option.some.inj hn'
      exact Or.inr (Or.inr ⟨rfl, hp⟩)
    case isFalse => exact Or.inl hn'
  · exact hu.entry_kernel_setEntry hn (by omega) hi h e hj

end Grows

namespace PagingState

variable {s s' : PagingState} {pml4 t virt phys flags : U64} {n : Node} {p q : List ℕ} {i : ℕ}

theorem getTable_grows (hu : TableTree s.heap pml4) (hn : nodeAt s.heap pml4 p = some n)
    (hl : 2 ≤ n.level) (hi : i < n.fanout) (hr : s.getTable n.addr i = some (s', t))
    (hok : s'.ok = true) :
    Grows q pml4 s.heap s'.heap ∧
      ∃ e, nodeAt s'.heap pml4 (p ++ [i]) = some ⟨n.level - 1, e, t⟩ := by
  rcases getTable_cases hu.sound hr hok with ⟨hp, rfl, rfl⟩ | ⟨hp, h₁, ht, hs'⟩
  · refine ⟨.refl hu, s'.heap.entry n.addr i, (walk_concat_of hn i).trans ?_⟩
    exact child_eq_some.2 ⟨by omega, hi, hp, rfl⟩
  · obtain ⟨hx, hnode⟩ := hu.addTable (q := q) hn hl hi hp ht hs'
    exact ⟨hx, _, hnode⟩

/-- `map_page_pml4` makes `virt` lead to the frame of `phys`, whatever page that is. -/
theorem mapPagePml4_grows (hu : TableTree s.heap pml4) (hi : pml4Index virt < 256)
    (hf : FlagBits flags) (hr : s.mapPagePml4 pml4 virt phys flags = some s') (hok : s'.ok = true) :
    Grows (vaPath virt) pml4 s.heap s'.heap ∧
      nodeAt s'.heap pml4 (vaPath virt) =
        some ⟨0, phys &&& pageFrameMask ||| flags ||| ptePresent, s.heap.pteAddr phys⟩ := by
  obtain ⟨s₁, pdpt, s₂, pd, s₃, pt, h₁, h₂, h₃, rfl⟩ := mapPagePml4_eq_some hr
  have hok₂ := getTable_mono h₃ hok
  have hok₁ := getTable_mono h₂ hok₂
  obtain ⟨g₁, e₁, n₁⟩ := getTable_grows (q := vaPath virt) hu nodeAt_nil (Nat.le_add_left 2 2)
    (show _ < (Node.root pml4).fanout from hi) h₁ hok₁
  obtain ⟨g₂, e₂, n₂⟩ := getTable_grows (q := vaPath virt) g₁.tree n₁ (Nat.le_succ 2)
    (show _ < (512 : ℕ) from index_lt virt 30) h₂ hok₂
  obtain ⟨g₃, e₃, n₃⟩ := getTable_grows (q := vaPath virt) g₂.tree n₂ le_rfl
    (show _ < (512 : ℕ) from index_lt virt 21) h₃ hok
  have g := (g₁.trans g₂).trans g₃
  have hpa : s₃.heap.pteAddr (phys &&& pageFrameMask ||| flags ||| ptePresent) =
      s.heap.pteAddr phys := by
    rw [pteAddr_congr g.agree.hhdm, Heap.pteAddr, BitVec.or_assoc,
      or_and_pageFrameMask (pageAligned_and _) (hf.or (by decide)), Heap.pteAddr]
  obtain ⟨g₄, hnode⟩ := g₃.tree.setLeaf n₃ rfl (show _ < (512 : ℕ) from index_lt virt 12)
    (present_or (phys &&& pageFrameMask ||| flags))
  rw [hpa] at hnode
  exact ⟨g.trans g₄, hnode⟩

end PagingState

end Jeos
