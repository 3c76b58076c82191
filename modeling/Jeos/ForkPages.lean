import Jeos.Exhaustion

/-!
# The pages a copy takes

`copy_user_pml4` makes a tree with the user pages of another one and the tables on the
way to them, and takes one page for each node. `copySize` is the number of these nodes,
with the top table.

`copyUserPml4_outcome` is what happens with any number of free pages. With `copySize` of
them no `kalloc` fails and the copy is complete. With fewer one fails, after which every
other one fails too and the memory stays as it is, and some page is not mapped : the
copy of the page could not be allocated, or one of the tables on the way to it is the
null pointer.
-/

set_option linter.unusedSectionVars false

namespace Jeos

open ByteMemory TreeWalk PagingState

/-! ## The nodes of a tree -/

/-- The paths at which the tree has a node. -/
def nodePaths (h : Heap) (pml4 : U64) : Set (List ℕ) := {p | ∃ n, nodeAt h pml4 p = some n}

/-- The paths of a tree with the user pages `D` of another one. -/
def copyPaths (h : Heap) (pml4 : U64) (D : Set (List ℕ)) : Set (List ℕ) :=
  {p | p = [] ∨ ∃ q ∈ D, UserLeaf h pml4 q ∧ p <+: q}

/-- The number of pages `create_user_pml4` and `copy_user_pml4` need. -/
noncomputable def copySize (h : Heap) (pml4 : U64) : ℕ := (copyPaths h pml4 Set.univ).ncard

/-- The free pages and those that became nodes. -/
noncomputable def budget (h : Heap) (pml4 : U64) : ℕ :=
  h.freePages.ncard + (nodePaths h pml4).ncard

section Nodes

variable {h h' : Heap} {pml4 t : U64} {n : Node} {p q : List ℕ} {i : ℕ} {D : Set (List ℕ)}
  {s s' : PagingState}

theorem lt_of_mem_path (hn : nodeAt h pml4 p = some n) : ∀ i ∈ p, i < 512 := by
  refine walk_induction (P := fun p _ => ∀ i ∈ p, i < 512) (by simp)
    (fun p n i n' _ hp hc => ?_) hn
  rw [List.forall_mem_append, List.forall_mem_singleton]
  exact ⟨hp, (child_eq_some.1 hc).2.1.trans_le n.fanout_le⟩

theorem length_le_of_node (hn : nodeAt h pml4 p = some n) : p.length ≤ 4 := by
  have := nodeAt_level hn
  omega

theorem UserLeaf.length_eq (hq : UserLeaf h pml4 q) : q.length = 4 := by
  obtain ⟨n, hn, hl, -⟩ := hq
  have := nodeAt_level hn
  omega

/-- The paths a tree can have. -/
def paths : Set (List ℕ) := {p | p.length ≤ 4 ∧ ∀ i ∈ p, i < 512}

theorem paths_finite : paths.Finite := by
  refine ((List.finite_length_le (Fin 512) 4).image (List.map Fin.val)).subset ?_
  rintro p ⟨hlen, hlt⟩
  refine ⟨p.pmap Fin.mk hlt, ?_, ?_⟩
  · change (p.pmap Fin.mk hlt).length ≤ 4
    rw [List.length_pmap]
    exact hlen
  · rw [List.map_pmap, List.pmap_eq_map, List.map_id']

theorem nodePaths_finite (h : Heap) (pml4 : U64) : (nodePaths h pml4).Finite :=
  paths_finite.subset fun _ ⟨_, hn⟩ => ⟨length_le_of_node hn, lt_of_mem_path hn⟩

theorem copyPaths_finite (h : Heap) (pml4 : U64) (D : Set (List ℕ)) :
    (copyPaths h pml4 D).Finite := by
  refine paths_finite.subset ?_
  rintro p (rfl | ⟨q, -, ⟨n, hn, -⟩, hp⟩)
  · exact ⟨Nat.zero_le 4, fun i hi => absurd hi List.not_mem_nil⟩
  · exact ⟨hp.length_le.trans (length_le_of_node hn), fun i hi =>
      lt_of_mem_path hn i (hp.subset hi)⟩

theorem copyPaths_congr (hn : ∀ p, nodeAt h' pml4 p = nodeAt h pml4 p) :
    copyPaths h' pml4 D = copyPaths h pml4 D := by
  ext p
  simp only [copyPaths, UserLeaf, hn]

theorem copySize_congr (hn : ∀ p, nodeAt h' pml4 p = nodeAt h pml4 p) :
    copySize h' pml4 = copySize h pml4 := congrArg Set.ncard (copyPaths_congr hn)

theorem copyPaths_mono {D' : Set (List ℕ)} (hD : D ⊆ D') :
    copyPaths h pml4 D ⊆ copyPaths h pml4 D' :=
  fun _ hp => hp.imp_right fun ⟨q, hq, hr⟩ => ⟨q, hD hq, hr⟩

/-- One more page adds the nodes on the way to it. -/
theorem copyPaths_insert (hq : UserLeaf h pml4 q) :
    copyPaths h pml4 (D ∪ {q}) = copyPaths h pml4 D ∪ {p | p <+: q} := by
  ext p
  constructor
  · rintro (rfl | ⟨q', hq' | rfl, hl, hp⟩)
    · exact Or.inl (Or.inl rfl)
    · exact Or.inl (Or.inr ⟨q', hq', hl, hp⟩)
    · exact Or.inr hp
  · rintro (hp | hp)
    · exact copyPaths_mono Set.subset_union_left hp
    · exact Or.inr ⟨q, Or.inr rfl, hq, hp⟩

/-- A page that is not copied is not a node yet. -/
theorem UserLeaf.not_mem_copyPaths (hq : UserLeaf h pml4 q) (hD : q ∉ D) :
    q ∉ copyPaths h pml4 D := by
  have hlen := hq.length_eq
  rintro (rfl | ⟨q', hq', hl, hp⟩)
  · exact absurd hlen (by simp)
  · exact hD (hp.eq_of_length (hlen.trans hl.length_eq.symm) ▸ hq')

theorem Heap.Sound.finite (hs : h.Sound) : h.freePages.Finite := by
  obtain ⟨L, hL⟩ := hs.lists
  rw [hL.freePages_eq]
  refine (Set.finite_Iio (2 ^ 52)).subset fun k hk => ?_
  obtain ⟨b, ⟨ho, a, ha, hb⟩, hkb⟩ := DyadicBlock.mem_cover.1 hk
  have hal := hL.aligned _ ho a ha
  have hle := hal.add_le ho
  have hidx := hal.toNat_eq
  rw [← hb] at hidx
  obtain ⟨-, hlt⟩ := DyadicBlock.mem_pages_iff_le_lt.1 hkb
  have hmul : (b.index + 1) * 2 ^ b.order * 4096 ≤ 2 ^ 64 := by
    have he : (b.index + 1) * 2 ^ b.order * 4096 =
        b.index * (4096 * 2 ^ b.order) + 4096 * 2 ^ b.order := by ring
    rw [he, ← hidx]
    exact hle
  have : k * 4096 < 2 ^ 64 := by
    have := Nat.mul_lt_mul_of_pos_right hlt (show 0 < 4096 by norm_num)
    omega
  rw [Set.mem_Iio]
  omega

end Nodes

/-! ## Tables and frames -/

section Steps

variable {h h' : Heap} {pml4 t virt phys flags : U64} {n : Node} {p q : List ℕ} {i : ℕ}
  {s s' : PagingState}

/-- A table step takes a page exactly when it adds a node. -/
theorem getTable_budget (hu : UserSpace s.heap pml4) (hn : nodeAt s.heap pml4 p = some n)
    (hl : 2 ≤ n.level) (hi : i < n.fanout) (hr : s.getTable n.addr i = some (s', t))
    (hok : s'.ok = true) :
    nodePaths s'.heap pml4 = insert (p ++ [i]) (nodePaths s.heap pml4) ∧
      budget s'.heap pml4 = budget s.heap pml4 := by
  obtain ⟨x, ht, e, hn'⟩ := getTable_spec (q := []) hu hn hl hi hr hok
  have hl' : (⟨n.level - 1, e, t⟩ : Node).level ≠ 0 := by
    change n.level - 1 ≠ 0
    omega
  have hkeep : nodePaths s.heap pml4 ⊆ nodePaths s'.heap pml4 := by
    rintro p' ⟨n', hp'⟩
    by_cases h0 : p' = []
    · exact ⟨_, h0 ▸ nodeAt_nil⟩
    · exact ⟨n', x.keeps p' n' h0 hp'⟩
  have hpaths : nodePaths s'.heap pml4 = insert (p ++ [i]) (nodePaths s.heap pml4) := by
    refine Set.Subset.antisymm ?_ (Set.insert_subset
      (show p ++ [i] ∈ nodePaths s'.heap pml4 from ⟨_, hn'⟩) hkeep)
    rintro p' ⟨n', hp'⟩
    rcases x.nodes p' n' hp' with hold | ⟨hn0, hf⟩ | ⟨hn0, rfl⟩
    · exact Or.inr ⟨n', hold⟩
    · rcases ht hf with hf' | hpage
      · exact absurd hf' (x.space.held p' n' hp')
      · exact Or.inl (x.space.unique hp' hn' hn0 hpage).1
    · have := nodeAt_level hp'
      rw [hn0] at this
      exact absurd this (by simp)
  refine ⟨hpaths, ?_⟩
  have htfree : pageOf t ∉ s'.heap.freePages := x.space.held _ _ hn'
  rw [budget, budget, hpaths]
  by_cases hmem : p ++ [i] ∈ nodePaths s.heap pml4
  · have hmem' := hmem
    obtain ⟨n₀, hn₀⟩ := hmem'
    have hsame := Option.some.inj ((x.keeps _ n₀ (by simp) hn₀).symm.trans hn')
    have htold : pageOf t ∉ s.heap.freePages := fun hf => hu.held _ n₀ hn₀ (hsame ▸ hf)
    have hfree : s'.heap.freePages = s.heap.freePages := by
      refine x.free.antisymm fun k hk => (ht hk).resolve_right ?_
      rintro rfl
      exact htold hk
    rw [hfree, Set.insert_eq_of_mem hmem]
  · have hft : pageOf t ∈ s.heap.freePages := by
      rcases x.nodes _ _ hn' with hold | ⟨-, hf⟩ | ⟨hn0, -⟩
      · exact absurd ⟨_, hold⟩ hmem
      · exact hf
      · exact absurd hn0 hl'
    have hfree : s'.heap.freePages = s.heap.freePages \ {pageOf t} := by
      refine Set.Subset.antisymm (fun k hk => ⟨x.free hk, ?_⟩) fun k hk =>
        (ht hk.1).resolve_right hk.2
      rintro rfl
      exact htfree hk
    have hone := Set.ncard_sdiff_singleton_add_one hft hu.sound.finite
    rw [← hfree] at hone
    rw [Set.ncard_insert_of_notMem hmem (nodePaths_finite _ _)]
    omega

theorem ncard_nodePaths (h : s.heap.freePages = ∅) :
    budget s.heap pml4 = (nodePaths s.heap pml4).ncard := by
  rw [budget, h, Set.ncard_empty, zero_add]

/-- No page is left, and the path `p` leads to the null pointer, whatever is written to pages
that are not in `W`. -/
structure NullPath (W : Set ℕ) (pml4 : U64) (p : List ℕ) (h : Heap) : Prop where
  sound : h.Sound
  empty : h.freePages = ∅
  leads : ∀ h', h.AgreeOutside Wᶜ h' → ∃ n, nodeAt h' pml4 p = some n ∧ n.addr = 0

/-- And the null page, which the kernel takes for a table, leads nowhere but to itself. -/
structure NullTable (W : Set ℕ) (pml4 : U64) (p : List ℕ) (h : Heap) : Prop
    extends NullPath W pml4 p h where
  null : ∀ j < 512, Present (h.entry 0 j) → h.pteAddr (h.entry 0 j) = 0

variable {W : Set ℕ} {t' : U64}

theorem pageAligned_null : PageAligned (0 : U64) := by decide

theorem pageOf_null : pageOf (0 : U64) = 0 := by decide

/-- A write to the null page changes nothing that is said to stay. -/
theorem NullPath.write (hN : NullPath W pml4 p h) (h0 : 0 ∉ W) (hl : h'.freeLists = h.freeLists)
    (hh : h'.hhdmOffset = h.hhdmOffset) (hm : ∀ x, pageOf x ≠ 0 → h'.mem x = h.mem x) :
    NullPath W pml4 p h' := by
  obtain ⟨hs, hf⟩ := hN.sound.of_empty hN.empty h' hl hh
  have hag : h.AgreeOutside Wᶜ h' := ⟨hh, fun x hx => hm x fun hx0 => h0 (hx0 ▸ not_not.1 hx)⟩
  exact ⟨hs, hf, fun h'' hg => hN.leads h'' (hag.trans hg)⟩

/-- What `getTable` leaves at the null page when it takes it for a table. -/
theorem entry_null (hh : PageAligned h.hhdmOffset) (hi : i < 512) (h' : Heap)
    (he : h' = (h.zeroPage 0).setEntry 0 i
      (h.virtToPhys 0 ||| (ptePresent ||| pteWrite ||| pteUser))) :
    ∀ j < 512, Present (h'.entry 0 j) → h'.pteAddr (h'.entry 0 j) = 0 := by
  intro j hj hp
  rw [he] at hp ⊢
  by_cases hji : j = i
  · rw [hji, entry_setEntry_self]
    exact (pteAddr_congr (h := h) rfl _).trans (pteAddr_or hh pageAligned_null (by decide))
  · refine absurd hp (not_present_of_zero ((load64_congr fun x hx => ?_).trans
      (entry_zeroPage h 0 hj)))
    exact setEntry_mem_of_not_within (not_within_entry_of_ne hj hi hji hx)

/-- The null page is taken for a table once more. -/
theorem NullTable.getTable (hN : NullTable W pml4 p s.heap) (h0 : 0 ∉ W) (hi : i < 512)
    (hr : s.getTable 0 i = some (s', t')) : t' = 0 ∧ NullTable W pml4 p s'.heap := by
  by_cases hp : Present (s.heap.entry 0 i)
  · rw [PagingState.getTable, if_pos hp] at hr
    obtain ⟨rfl, rfl⟩ := Prod.mk.inj (Option.some.inj hr)
    exact ⟨hN.null i hi hp, hN⟩
  · obtain ⟨rfl, he⟩ := getTable_empty hN.sound hN.empty hp hr
    refine ⟨rfl, hN.write h0 (by rw [he]; rfl) (by rw [he]; rfl) (fun x hx => ?_),
      entry_null hN.sound.hhdm hi _ he⟩
    rw [he, setEntry_mem_of_pageOf_ne pageAligned_null hi (pageOf_null ▸ hx),
      zeroPage_mem_of_pageOf_ne pageAligned_null (pageOf_null ▸ hx)]

/-- A table that is missing when no page is left becomes the null page. -/
theorem getTable_null (hu : UserSpace s.heap pml4) (hW : tablePages s.heap pml4 ⊆ W) (h0 : 0 ∉ W)
    (hn : nodeAt s.heap pml4 p = some n) (hl : 2 ≤ n.level) (hi : i < n.fanout)
    (hr : s.getTable n.addr i = some (s', t)) (hok : s.ok = true) (hok' : s'.ok = false) :
    t = 0 ∧ NullTable W pml4 (p ++ [i]) s'.heap ∧ s.heap.freePages = ∅ ∧
      p ++ [i] ∉ nodePaths s.heap pml4 := by
  have hi' := hi.trans_le n.fanout_le
  have hfree : s.heap.freePages = ∅ := Set.not_nonempty_iff_eq_empty.1 fun hf =>
    Bool.false_ne_true (hok'.symm.trans (getTable_ok hu.sound hr hok hf))
  have hp : ¬Present (s.heap.entry n.addr i) := fun hp => by
    rw [getTable, if_pos hp] at hr
    obtain ⟨rfl, -⟩ := Prod.mk.inj (Option.some.inj hr)
    exact Bool.false_ne_true (hok'.symm.trans hok)
  have hnone : p ++ [i] ∉ nodePaths s.heap pml4 := by
    rintro ⟨n', hn'⟩
    exact hp (child_eq_some.1 ((walk_concat_of hn i).symm.trans hn')).2.2.1
  obtain ⟨rfl, he⟩ := getTable_empty hu.sound hfree hp hr
  set e := s.heap.virtToPhys 0 ||| (ptePresent ||| pteWrite ||| pteUser) with hedef
  have hna := hu.aligned hn
  have hnW : pageOf n.addr ∈ W := hW ⟨p, n, hn, by omega, rfl⟩
  have hne : ∀ {k}, k ∈ W → k ≠ pageOf (0 : U64) := fun hk h =>
    h0 (pageOf_null ▸ h ▸ hk)
  obtain ⟨hs', hf'⟩ := hu.sound.of_empty hfree s'.heap (by rw [he]; rfl) (by rw [he]; rfl)
  refine ⟨rfl, ⟨⟨hs', hf', fun g hg => ?_⟩, fun j hj hpj => ?_⟩, hfree, hnone⟩
  · have hmem : ∀ x, pageOf x ∈ W → ¬Within x (entryAddr n.addr i) 8 → g.mem x = s.heap.mem x :=
      fun x hx hx' => by
        rw [hg.mem x (not_not.2 hx), he, setEntry_mem_of_not_within hx',
          zeroPage_mem_of_pageOf_ne pageAligned_null (hne hx)]
    have hhd : g.hhdmOffset = s.heap.hhdmOffset := hg.hhdm.trans (by rw [he]; rfl)
    have U : EntryUpdate s.heap g pml4 p n i := ⟨hn, by omega, hi, hhd, fun x hx => hmem x (hW hx)⟩
    have hpath : nodeAt g pml4 p = some n := by
      rw [← hn]
      refine walk_update (fun p' hp' => hu.unshared p' p n n hp' hn (by omega) rfl)
        (fun p' n' j => hu.tables.child_of_update U) fun h => ?_
      have := h.length_le
      simp at this
    have hentry : g.entry n.addr i = e := by
      refine (entry_congr hna hi' fun x hx => hg.mem x (not_not.2 (hx ▸ hnW))).trans ?_
      rw [he, entry_setEntry_self]
    have haddr : g.pteAddr e = 0 :=
      (pteAddr_congr hhd e).trans (pteAddr_or hu.sound.hhdm pageAligned_null (by decide))
    have hphys : PageAligned (s.heap.virtToPhys 0) := pageAligned_null.sub hu.sound.hhdm
    have hpres : Present e := by
      rw [present_iff_flags, hedef, pteFlags_or hphys (by decide)]
      decide
    refine ⟨⟨n.level - 1, e, 0⟩, (walk_concat_of hpath i).trans ?_, rfl⟩
    exact child_eq_some.2 ⟨by omega, hi, hentry.symm ▸ hpres, by rw [hentry, haddr]⟩
  · -- The entry that was set is in another page.
    refine absurd hpj (not_present_of_zero ?_)
    rw [he]
    refine (entry_congr pageAligned_null hj fun x hx => ?_).trans (entry_zeroPage s.heap 0 hj)
    exact setEntry_mem_of_pageOf_ne hna hi' (hx ▸ (hne hnW).symm)

theorem prefix_four {a b c d : ℕ} : p <+: [a, b, c, d] ↔
    p = [] ∨ p = [a] ∨ p = [a, b] ∨ p = [a, b, c] ∨ p = [a, b, c, d] := by
  simp only [List.prefix_cons_iff, List.prefix_nil]
  constructor
  · rintro (rfl | ⟨_, rfl, rfl | ⟨_, rfl, rfl | ⟨_, rfl, rfl | ⟨_, rfl, rfl⟩⟩⟩⟩)
    all_goals simp
  · rintro (rfl | rfl | rfl | rfl | rfl)
    all_goals simp

/-- A complete `map_page_pml4` to a new place takes a page for each node it adds but the frame. -/
theorem mapPagePml4_budget (hu : UserSpace s.heap pml4) (hi : pml4Index virt < 256)
    (hf : FlagBits flags) (hfree : pageOf (s.heap.pteAddr phys) ∉ s.heap.freePages)
    (htab : pageOf (s.heap.pteAddr phys) ∉ tablePages s.heap pml4)
    (hnew : vaPath virt ∉ nodePaths s.heap pml4)
    (hr : s.mapPagePml4 pml4 virt phys flags = some s') (hok : s'.ok = true) :
    nodePaths s'.heap pml4 = nodePaths s.heap pml4 ∪ {p | p <+: vaPath virt} ∧
      budget s'.heap pml4 = budget s.heap pml4 + 1 := by
  obtain ⟨s₁, pdpt, s₂, pd, s₃, pt, h₁, h₂, h₃, rfl⟩ := mapPagePml4_eq_some hr
  have hok₂ : s₂.ok = true := getTable_mono h₃ hok
  have hok₁ := getTable_mono h₂ hok₂
  obtain ⟨x₁, -, e₁, n₁⟩ := getTable_spec (q := []) hu nodeAt_nil (Nat.le_add_left 2 2)
    (show _ < (Node.root pml4).fanout from hi) h₁ hok₁
  obtain ⟨x₂, -, e₂, n₂⟩ := getTable_spec (q := []) x₁.space n₁ (Nat.le_succ 2)
    (show _ < (512 : ℕ) from index_lt virt 30) h₂ hok₂
  obtain ⟨x₃, -, e₃, n₃⟩ := getTable_spec (q := []) x₂.space n₂ le_rfl
    (show _ < (512 : ℕ) from index_lt virt 21) h₃ hok
  obtain ⟨p₁, b₁⟩ := getTable_budget hu nodeAt_nil (Nat.le_add_left 2 2)
    (show _ < (Node.root pml4).fanout from hi) h₁ hok₁
  obtain ⟨p₂, b₂⟩ := getTable_budget x₁.space n₁ (Nat.le_succ 2)
    (show _ < (512 : ℕ) from index_lt virt 30) h₂ hok₂
  obtain ⟨p₃, b₃⟩ := getTable_budget x₂.space n₂ le_rfl
    (show _ < (512 : ℕ) from index_lt virt 21) h₃ hok
  obtain ⟨x', hf', hq⟩ := setFrame_spec hu hi hf hfree htab h₁ h₂ h₃ hok
  simp only [List.nil_append, List.cons_append] at p₁ p₂ p₃
  have hnew₃ : vaPath virt ∉ nodePaths s₃.heap pml4 := by
    rw [p₃, p₂, p₁]
    simpa [vaPath] using hnew
  have hpaths : nodePaths (s₃.heap.setEntry pt (ptIndex virt)
      (phys &&& pageFrameMask ||| flags ||| ptePresent)) pml4 =
      insert (vaPath virt) (nodePaths s₃.heap pml4) := by
    ext p
    constructor
    · rintro ⟨n, hn⟩
      rcases x'.nodes p n hn with hn' | ⟨-, hfn⟩ | ⟨-, rfl⟩
      · exact Or.inr ⟨n, hn'⟩
      · exact absurd (hf' ▸ hfn) (x'.space.held p n hn)
      · exact Or.inl rfl
    · rintro (rfl | ⟨n, hn⟩)
      · exact ⟨_, hq⟩
      · exact ⟨n, x'.keeps p n (fun h => hnew₃ (h ▸ ⟨n, hn⟩)) hn⟩
  constructor
  · rw [hpaths, p₃, p₂, p₁]
    ext p
    have hroot : [] ∈ nodePaths s.heap pml4 := ⟨_, nodeAt_nil⟩
    simp only [Set.mem_insert_iff, Set.mem_union, Set.mem_ofPred_eq, vaPath, prefix_four]
    constructor
    · rintro (h | h | h | h | h)
      · exact Or.inr (Or.inr (Or.inr (Or.inr (Or.inr h))))
      · exact Or.inr (Or.inr (Or.inr (Or.inr (Or.inl h))))
      · exact Or.inr (Or.inr (Or.inr (Or.inl h)))
      · exact Or.inr (Or.inr (Or.inl h))
      · exact Or.inl h
    · rintro (h | rfl | h | h | h | h)
      · exact Or.inr (Or.inr (Or.inr (Or.inr h)))
      · exact Or.inr (Or.inr (Or.inr (Or.inr hroot)))
      · exact Or.inr (Or.inr (Or.inr (Or.inl h)))
      · exact Or.inr (Or.inr (Or.inl h))
      · exact Or.inr (Or.inl h)
      · exact Or.inl h
  · rw [← b₁, ← b₂, ← b₃, budget, budget, hpaths,
      Set.ncard_insert_of_notMem hnew₃ (nodePaths_finite _ _), hf', Nat.add_assoc]

theorem NullPath.setEntry {e : U64} (hN : NullPath W pml4 p h) (h0 : 0 ∉ W) (hi : i < 512) :
    NullPath W pml4 p (h.setEntry 0 i e) :=
  hN.write h0 rfl rfl fun _ hx =>
    setEntry_mem_of_pageOf_ne pageAligned_null hi (pageOf_null ▸ hx)

/-- A `map_page_pml4` that runs out of pages. Its tables are the null page from the first one
missing on, and the nodes `N` before it took all pages there were. -/
theorem mapPagePml4_fails (hu : UserSpace s.heap pml4)
    (hW : s.heap.freePages ∪ tablePages s.heap pml4 ⊆ W) (h0 : 0 ∉ W)
    (hi : pml4Index virt < 256) (hr : s.mapPagePml4 pml4 virt phys flags = some s')
    (hok : s.ok = true) (hok' : s'.ok = false) :
    ∃ p N, p <+: vaPath virt ∧ p ≠ vaPath virt ∧ NullPath W pml4 p s'.heap ∧ p ∉ N ∧
      N ⊆ nodePaths s.heap pml4 ∪ {r | r <+: p} ∧ budget s.heap pml4 = N.ncard := by
  obtain ⟨s₁, pdpt, s₂, pd, s₃, pt, h₁, h₂, h₃, rfl⟩ := mapPagePml4_eq_some hr
  have hi₂ := index_lt virt 30
  have hi₃ := index_lt virt 21
  have hi₄ := index_lt virt 12
  have ht : tablePages s.heap pml4 ⊆ W := Set.subset_union_right.trans hW
  rcases Bool.eq_false_or_eq_true s₁.ok with hok₁ | hok₁
  · obtain ⟨x₁, -, e₁, n₁⟩ := getTable_spec (q := []) hu nodeAt_nil (Nat.le_add_left 2 2)
      (show _ < (Node.root pml4).fanout from hi) h₁ hok₁
    obtain ⟨p₁, b₁⟩ := getTable_budget hu nodeAt_nil (Nat.le_add_left 2 2)
      (show _ < (Node.root pml4).fanout from hi) h₁ hok₁
    have ht₁ := x₁.tablePages_subset.trans hW
    rcases Bool.eq_false_or_eq_true s₂.ok with hok₂ | hok₂
    · obtain ⟨x₂, -, e₂, n₂⟩ := getTable_spec (q := []) x₁.space n₁ (Nat.le_succ 2)
        (show _ < (512 : ℕ) from hi₂) h₂ hok₂
      obtain ⟨p₂, b₂⟩ := getTable_budget x₁.space n₁ (Nat.le_succ 2)
        (show _ < (512 : ℕ) from hi₂) h₂ hok₂
      have ht₂ := (x₁.trans x₂).tablePages_subset.trans hW
      -- The last table is missing.
      obtain ⟨rfl, hN, hfree, hnone⟩ := getTable_null x₂.space ht₂ h0 n₂ le_rfl
        (show _ < (512 : ℕ) from hi₃) h₃ hok₂ hok'
      refine ⟨_, nodePaths s₂.heap pml4, ⟨[ptIndex virt], rfl⟩, by simp [vaPath],
        hN.setEntry h0 hi₄, hnone, ?_, ?_⟩
      · rw [p₂, p₁]
        rintro r (rfl | rfl | hr)
        · exact Or.inr ⟨[pdIndex virt], rfl⟩
        · exact Or.inr ⟨[pdptIndex virt, pdIndex virt], rfl⟩
        · exact Or.inl hr
      · rw [← b₁, ← b₂, ncard_nodePaths hfree]
    · obtain ⟨rfl, hN, hfree, hnone⟩ := getTable_null x₁.space ht₁ h0 n₁ (Nat.le_succ 2)
        (show _ < (512 : ℕ) from hi₂) h₂ hok₁ hok₂
      obtain ⟨rfl, hN₃⟩ := hN.getTable h0 hi₃ h₃
      refine ⟨_, nodePaths s₁.heap pml4, ⟨[pdIndex virt, ptIndex virt], rfl⟩, by simp [vaPath],
        hN₃.setEntry h0 hi₄, hnone, ?_, ?_⟩
      · rw [p₁]
        rintro r (rfl | hr)
        · exact Or.inr ⟨[pdptIndex virt], rfl⟩
        · exact Or.inl hr
      · rw [← b₁, ncard_nodePaths hfree]
  · obtain ⟨rfl, hN, hfree, hnone⟩ := getTable_null hu ht h0 nodeAt_nil (Nat.le_add_left 2 2)
      (show _ < (Node.root pml4).fanout from hi) h₁ hok hok₁
    obtain ⟨rfl, hN₂⟩ := hN.getTable h0 hi₂ h₂
    obtain ⟨rfl, hN₃⟩ := hN₂.getTable h0 hi₃ h₃
    exact ⟨_, nodePaths s.heap pml4, ⟨[pdptIndex virt, pdIndex virt, ptIndex virt], rfl⟩,
      by simp [vaPath], hN₃.setEntry h0 hi₄, hnone, Set.subset_union_left,
      ncard_nodePaths hfree⟩

end Steps

/-! ## The copy -/

/-- The pages the nodes of a copy can be. -/
def copyWrites (h₀ : Heap) (newPml4 : U64) : Set ℕ := h₀.freePages ∪ {pageOf newPml4}

/-- A copy that is through with the pages `D` and has taken one page for each node. -/
structure Counted (h₀ : Heap) (newPml4 oldPml4 : U64) (D : Set (List ℕ)) (h : Heap) : Prop where
  copying : Copying h₀ newPml4 oldPml4 D h
  paths : nodePaths h newPml4 = copyPaths h₀ oldPml4 D
  count : budget h newPml4 = h₀.freePages.ncard + 1

/-- A copy that ran out of pages, of which there were too few, and has not mapped some page. -/
structure Starved (h₀ : Heap) (newPml4 oldPml4 : U64) (h : Heap) : Prop where
  sound : h.Sound
  empty : h.freePages = ∅
  short : h₀.freePages.ncard + 1 < copySize h₀ oldPml4
  missing : ∃ q, UserLeaf h₀ oldPml4 q ∧ ∀ h', h.AgreeOutside (copyWrites h₀ newPml4)ᶜ h' →
    nodeAt h' newPml4 q = none ∨ ∃ p, p <+: q ∧ ∃ n, nodeAt h' newPml4 p = some n ∧ n.addr = 0

section Copy

variable {h₀ h h₁ : Heap} {newPml4 oldPml4 v : U64} {D N : Set (List ℕ)} {s s' : PagingState}
  {q : List ℕ} {i4 i3 i2 i1 : ℕ} {n : Node}

/-- More nodes are needed than there are before a page that is not copied. -/
theorem ncard_lt_copySize (hN : N ⊆ copyPaths h₀ oldPml4 Set.univ) (hq : UserLeaf h₀ oldPml4 q)
    (hqN : q ∉ N) : N.ncard < copySize h₀ oldPml4 :=
  Set.ncard_lt_ncard ⟨hN, fun h => hqN (h (Or.inr ⟨q, Set.mem_univ q, hq, List.prefix_rfl⟩))⟩
    (copyPaths_finite _ _ _)

/-- The nodes of a copy are in pages it may write. -/
theorem Copying.tablePages_subset (hc : Copying h₀ newPml4 oldPml4 D h) :
    h.freePages ∪ tablePages h newPml4 ⊆ copyWrites h₀ newPml4 :=
  Set.union_subset (hc.free.trans Set.subset_union_left) (Jeos.tablePages_subset.trans hc.fresh)

/-- When there is no page for the copy of a user page, the copy is starved. -/
theorem Counted.starved_of_empty (hc : Counted h₀ newPml4 oldPml4 D s.heap)
    (hq : UserLeaf h₀ oldPml4 q) (hqD : q ∉ D) (hfree : s.heap.freePages = ∅) :
    Starved h₀ newPml4 oldPml4 s.heap := by
  have hqN := hq.not_mem_copyPaths hqD
  refine ⟨hc.copying.space.sound, hfree, ?_, q, hq, fun h' hg => Or.inl ?_⟩
  · rw [← hc.count, ncard_nodePaths hfree, hc.paths]
    exact ncard_lt_copySize (copyPaths_mono (Set.subset_univ D)) hq hqN
  · rw [hc.copying.space.nodeAt_of_agree hg (Set.disjoint_left.2 fun k hk hk' =>
      hk' (hc.copying.tablePages_subset (Or.inr hk)))]
    refine Option.eq_none_iff_forall_ne_some.2 fun m hm => hqN ?_
    rw [← hc.paths]
    exact ⟨m, hm⟩

/-- When a table on the way to a user page is missing, the copy is starved too. -/
theorem Counted.starved_of_fails {va phys flags : U64} (h' : Heap)
    (hc : Counted h₀ newPml4 oldPml4 D h) (h0 : 0 ∉ copyWrites h₀ newPml4)
    (hq : UserLeaf h₀ oldPml4 q) (hqD : q ∉ D) (hi : pml4Index va < 256) (hva : vaPath va = q)
    (ht : TakesPage h h₁ v) (hl : h'.freeLists = h₁.freeLists)
    (hh : h'.hhdmOffset = h₁.hhdmOffset) (hm : ∀ x, pageOf x ≠ pageOf v → h'.mem x = h₁.mem x)
    (hr : mapPagePml4 ⟨h', true⟩ newPml4 va phys flags = some s') (hok : s'.ok = false) :
    Starved h₀ newPml4 oldPml4 s'.heap := by
  obtain ⟨hsp, hfree, -, hnodes⟩ := hc.copying.space.of_take ht h' hl hh hm
  have hpaths : nodePaths h' newPml4 = copyPaths h₀ oldPml4 D := by
    rw [← hc.paths]
    ext p
    simp only [nodePaths, hnodes]
  have htab : tablePages h' newPml4 ⊆ tablePages h newPml4 := by
    rintro k ⟨p, m, hm', hml, hk⟩
    exact ⟨p, m, (hnodes p).symm.trans hm', hml, hk⟩
  have hW : h'.freePages ∪ tablePages h' newPml4 ⊆ copyWrites h₀ newPml4 :=
    (Set.union_subset_union (hfree ▸ Set.sdiff_subset) htab).trans hc.copying.tablePages_subset
  obtain ⟨p, N, hp, hpne, hnull, hpN, hN, hb⟩ :=
    mapPagePml4_fails (s := ⟨h', true⟩) hsp hW h0 hi hr rfl hok
  rw [hva] at hp hpne
  have hqN : q ∉ insert p N := by
    rintro (rfl | hqN)
    · exact hpne rfl
    rcases hN hqN with hqN | hqN
    · rw [hpaths] at hqN
      exact hq.not_mem_copyPaths hqD hqN
    · exact hpne (hp.eq_of_length_le hqN.length_le)
  have hsub : insert p N ⊆ copyPaths h₀ oldPml4 Set.univ := by
    refine Set.insert_subset (Or.inr ⟨q, Set.mem_univ q, hq, hp⟩) fun r hr => ?_
    rcases hN hr with hr | hr
    · rw [hpaths] at hr
      exact copyPaths_mono (Set.subset_univ D) hr
    · exact Or.inr ⟨q, Set.mem_univ q, hq, hr.trans hp⟩
  refine ⟨hnull.sound, hnull.empty, ?_, q, hq, fun g hg => Or.inr ⟨p, hp, hnull.leads g hg⟩⟩
  -- The page for the frame was taken, and is not a node.
  have hlt := ncard_lt_copySize hsub hq hqN
  have hfin : N.Finite := (copyPaths_finite _ _ _).subset ((Set.subset_insert p N).trans hsub)
  rw [Set.ncard_insert_of_notMem hpN hfin] at hlt
  have hone := Set.ncard_sdiff_singleton_add_one ht.mem_free hc.copying.space.sound.finite
  have hbudget := hc.count
  change budget h' newPml4 = N.ncard at hb
  rw [budget, hc.paths] at hbudget
  rw [budget, hpaths, hfree] at hb
  omega

/-- While no `kalloc` fails each page is counted, and afterwards the copy stays starved. -/
theorem copyRule_counted (hs : CopySource h₀ newPml4 oldPml4) (h0 : 0 ∉ copyWrites h₀ newPml4) :
    CopyRule h₀ newPml4 oldPml4 (fun D s => Counted h₀ newPml4 oldPml4 D s.heap)
      fun s => Starved h₀ newPml4 oldPml4 s.heap where
  failed := by
    intro s s' table i4 i3 i2 i1 hS _ hr
    rcases copyPage_eq_some hr with ⟨rfl, -⟩ | ⟨-, -, s₁, v, hk, hcopy⟩
    · exact hS
    obtain ⟨⟨h₁, w⟩, hk', he⟩ := Option.map_eq_some_iff.1 hk
    obtain ⟨rfl, rfl⟩ := Prod.mk.inj he
    rcases kalloc_one hS.sound with ⟨hk₀, -⟩ | ⟨_, _, -, ht⟩
    · obtain ⟨rfl, rfl⟩ := Prod.mk.inj (Option.some.inj (hk'.symm.trans hk₀))
      rcases hcopy with ⟨-, rfl⟩ | ⟨hv, -⟩
      · exact hS
      · exact absurd rfl hv
    · exact absurd ht.mem_free (by rw [hS.empty]; exact Set.notMem_empty _)
  hhdm h _ := h.copying.agree.hhdm
  tables h _ _ _ hn _ _ hi := h.copying.entry_old hs hn hi
  skip := by
    intro D D' s h hD hno
    refine ⟨(copyInvariant_copying hs).skip (s := ⟨s.heap, true⟩) (fun _ => h.copying) hD hno rfl, ?_, h.count⟩
    · rw [h.paths]
      refine (copyPaths_mono hD).antisymm fun p hp => hp.imp_right ?_
      rintro ⟨q, hq, hl, hp⟩
      exact ⟨q, not_not.1 fun hqD => hno q hq hqD hl, hl, hp⟩
  page := by
    intro D s s' i4 i3 i2 i1 n h hok hn h4 h3 h2 h1 hqD hleaf hr
    obtain ⟨-, -, hp, hu, hm⟩ := UserLeaf.entry (q := [i4, i3, i2]) hleaf hn
    rcases h.copying.copyPage_call hs hn h4 h3 h2 h1 hleaf hr hok with
      ⟨hfree, he, hno⟩ | ⟨h₁, v, va, h', ht, hva, rfl, hpa, hvf, hvt, hmap⟩
    · exact ⟨fun hok' => absurd hok' (by simp [hno]), fun _ =>
        he ▸ h.starved_of_empty hleaf hqD hfree⟩
    obtain ⟨hva4, -⟩ := List.cons.inj hva
    have hmem : ∀ x, pageOf x ≠ pageOf v →
        (h₁.copyPage v (h₀.pteAddr (h₀.entry n.addr i1))).mem x = h₁.mem x :=
      fun _ hx => copyPage_mem_of_pageOf_ne ht.aligned hx
    refine ⟨fun hok' => ?_, fun hok' => h.starved_of_fails (h₁.copyPage v _) h0 hleaf hqD
      (by rw [hva4]; exact h4) hva ht rfl rfl hmem hmap hok'⟩
    obtain ⟨hsp, hfree, -, hnodes⟩ := h.copying.space.of_take ht
      (h₁.copyPage v (h₀.pteAddr (h₀.entry n.addr i1))) rfl rfl hmem
    have hpaths : nodePaths (h₁.copyPage v (h₀.pteAddr (h₀.entry n.addr i1))) newPml4 =
        copyPaths h₀ oldPml4 D := by
      rw [← h.paths]
      ext p
      simp only [nodePaths, hnodes]
    obtain ⟨hp', hb⟩ := mapPagePml4_budget (s := ⟨h₁.copyPage v _, true⟩) hsp
      (by rw [hva4]; exact h4) ((flagBits_pteFlags _).and _) (by rw [hpa]; exact hvf)
      (by rw [hpa]; exact hvt)
      (fun hx => hleaf.not_mem_copyPaths hqD (hva ▸ hpaths ▸ hx)) hmap hok'
    refine ⟨(h.copying.page_step hs hn h4 h3 h2 h1 hleaf hr hok').1, ?_, ?_⟩
    · rw [hp', copyPaths_insert hleaf, hva]
      exact congrArg (· ∪ _) hpaths
    · have hone := Set.ncard_sdiff_singleton_add_one ht.mem_free h.copying.space.sound.finite
      have hcount := h.count
      rw [budget, h.paths] at hcount
      rw [hb, budget, hfree, hpaths]
      omega

theorem copyWrites_eq (hn : NewSpace newPml4 h h₁) : copyWrites h₁ newPml4 = h.freePages := by
  rw [copyWrites, hn.free]
  exact Set.sdiff_union_of_subset (Set.singleton_subset_iff.2 hn.mem_free)

/-- A new address space has one node. -/
theorem NewSpace.counted (hn : NewSpace newPml4 h h₁) :
    Counted h₁ newPml4 oldPml4 ∅ h₁ := by
  have hpaths : nodePaths h₁ newPml4 = {[]} := by
    refine Set.Subset.antisymm (fun p ⟨n, hp⟩ => (hn.empty p n hp).1) ?_
    rintro p rfl
    exact ⟨_, nodeAt_nil⟩
  refine ⟨hn.copying, hpaths.trans ?_, by rw [budget, hpaths, Set.ncard_singleton]⟩
  refine Set.Subset.antisymm (fun p hp => Or.inl hp) fun p hp => hp.resolve_right ?_
  rintro ⟨q, hq, -⟩
  exact Set.notMem_empty q hq

/-- The address of a user page. -/
theorem UserLeaf.exists_va (hq : UserLeaf h oldPml4 q) : ∃ va : U64,
    va.toNat < 2 ^ 47 ∧ vaPath va = q := by
  have hlen := hq.length_eq
  obtain ⟨n, hn, -, -⟩ := hq
  have hlt := lt_of_mem_path hn
  obtain ⟨i4, i3, i2, i1, rfl⟩ : ∃ i4 i3 i2 i1, q = [i4, i3, i2, i1] := List.length_eq_four.1 hlen
  obtain ⟨m, hc, -⟩ := Option.bind_eq_some_iff.1 hn
  have h4 : i4 < 256 := (child_eq_some.1 hc).2.1
  have h3 := hlt i3 (by simp)
  have h2 := hlt i2 (by simp)
  have h1 := hlt i1 (by simp)
  have hva : (BitVec.ofNat 64 ((((i4 * 512 + i3) * 512 + i2) * 512 + i1) * 4096)).toNat =
      (((i4 * 512 + i3) * 512 + i2) * 512 + i1) * 4096 := by
    rw [BitVec.toNat_ofNat, Nat.mod_eq_of_lt (by omega)]
  refine ⟨BitVec.ofNat 64 ((((i4 * 512 + i3) * 512 + i2) * 512 + i1) * 4096), ?_, ?_⟩
  · rw [hva]
    omega
  · rw [vaPath, pml4Index, pdptIndex, pdIndex, ptIndex, index_toNat, index_toNat, index_toNat,
      index_toNat, hva]
    simp only [List.cons.injEq, and_true]
    omega

/-- Every user page of the old space in `h` is mapped by the new one in `h'`, with the same bytes,
through tables that are in memory. -/
def MapsCopies (h h' : Heap) (oldPml4 newPml4 : U64) : Prop :=
  ∀ va, va.toNat < 2 ^ 47 → ∀ e, userPte h oldPml4 va = some e →
    ∃ e', userPte h' newPml4 va = some e' ∧ SameBytes h h' (h.pteAddr e) (h'.pteAddr e') ∧
      ∀ p n, p <+: vaPath va → nodeAt h' newPml4 p = some n → n.addr ≠ 0

/-- A complete copy maps the pages, whatever is written outside the pages that were free. -/
theorem Copying.mapsCopies {g : Heap} (hn : NewSpace newPml4 h h₁) (hu : UserSpace h oldPml4)
    (hc : Copying h₁ newPml4 oldPml4 Set.univ s.heap)
    (hg : s.heap.AgreeOutside h.freePagesᶜ g) : MapsCopies h g oldPml4 newPml4 := by
  have hW := copyWrites_eq hn
  have hpages : spacePages s.heap newPml4 ⊆ h.freePages := hW ▸ hc.fresh
  have hmem : ∀ x, pageOf x ∈ spacePages s.heap newPml4 → g.mem x = s.heap.mem x :=
    fun x hx => hg.mem x (not_not.2 (hpages hx))
  have hnodes := hc.space.nodeAt_of_agree hg (Set.disjoint_left.2 fun k hk hk' =>
    hk' (hpages (Jeos.tablePages_subset hk)))
  intro va hva e he
  obtain ⟨e', he', -, hb⟩ := (hc.forkCopy hn hu).copied va hva e he
  refine ⟨e', ?_, fun i hi => ?_, fun p n _ hp h0 => ?_⟩
  · rw [hc.space.userPte_congr ⟨hg.hhdm, fun x hx => hmem x (Jeos.tablePages_subset hx)⟩, he']
  · obtain ⟨m, hm, -, rfl⟩ := hc.space.userPte_eq_some.1 he'
    rw [pteAddr_congr hg.hhdm, ← hb i hi, ← nodeAt_addr hm (vaPath_ne_nil va)]
    refine hmem _ ?_
    rw [pageOf_add (hc.space.aligned hm) hi]
    exact ⟨_, m, hm, rfl⟩
  · rw [hnodes] at hp
    exact hu.sound.zero_not_mem (hpages ⟨p, n, hp, by rw [h0, pageOf_null]⟩)

/-- A starved copy does not. -/
theorem Starved.not_mapsCopies {g h' : Heap} (hn : NewSpace newPml4 h h₁) (hu : UserSpace h oldPml4)
    (hS : Starved h₁ newPml4 oldPml4 h') (hg : h'.AgreeOutside h.freePagesᶜ g) :
    ¬MapsCopies h g oldPml4 newPml4 := by
  intro hmaps
  obtain ⟨q, hq, hmiss⟩ := hS.missing
  obtain ⟨va, hva, rfl⟩ := hq.exists_va
  obtain ⟨n, hp, -, hun⟩ := hq
  rw [(hn.copySource hu).2] at hp
  obtain ⟨e', he', -, hnull⟩ := hmaps va hva n.pte (hu.userPte_eq_some.2 ⟨n, hp, hun, rfl⟩)
  rcases hmiss g (copyWrites_eq hn ▸ hg) with hnone | ⟨p, hp, m, hm, h0⟩
  · obtain ⟨m, hm, -⟩ := Option.map_eq_some_iff.1 he'
    rw [nodeAt_of_walk_userChild hm] at hnone
    exact absurd hnone (by simp)
  · exact hnull p m hp hm h0

/-- A fork copies the address space exactly when there are enough pages. -/
theorem copyUserPml4_outcome {cr3 : U64} (hu : UserSpace h oldPml4)
    (hr : createUserPml4 ⟨h, true⟩ cr3 = some (s, newPml4)) (hok : s.ok = true)
    (hcopy : s.copyUserPml4 newPml4 oldPml4 = some s') {g : Heap}
    (hg : s'.heap.AgreeOutside h.freePagesᶜ g) :
    MapsCopies h g oldPml4 newPml4 ↔ copySize h oldPml4 ≤ h.freePages.ncard := by
  have hn := createUserPml4_spec (s := ⟨h, true⟩) hu.sound hr hok
  obtain ⟨hs, hnodes⟩ := hn.copySource hu
  have h0 : 0 ∉ copyWrites s.heap newPml4 := copyWrites_eq hn ▸ hu.sound.zero_not_mem
  have hone := Set.ncard_sdiff_singleton_add_one hn.mem_free hu.sound.finite
  rw [← hn.free] at hone
  change s.heap.freePages.ncard + 1 = h.freePages.ncard at hone
  have hend := (copyRule_counted hs h0).copyUserPml4
    ⟨fun _ => hn.counted, fun hf => absurd hok (by simp [hf])⟩ hcopy
  rcases Bool.eq_false_or_eq_true s'.ok with hok' | hok'
  · have hc := hend.1 hok'
    have hcount := hc.count
    rw [budget, hc.paths, hone] at hcount
    refine ⟨fun _ => ?_, fun _ => hc.copying.mapsCopies hn hu hg⟩
    rw [← copySize_congr hnodes, ← hcount]
    exact Nat.le_add_left _ _
  · have hS := hend.2 hok'
    refine ⟨fun hm => absurd hm (hS.not_mapsCopies hn hu hg), fun hle => ?_⟩
    have hshort := hS.short
    rw [hone, copySize_congr hnodes] at hshort
    exact absurd hle (Nat.not_le.2 hshort)

end Copy

end Jeos
