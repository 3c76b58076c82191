import Jeos.KernelHalf

/-!
# The mapping law

`BuiltTree` are the trees that `create_user_pml4` and calls of `map_page_pml4` for user addresses make,
with anything between two calls that leaves their tables alone. The frames may be any pages.

After one more call the walk of its address ends in the given frame with the given flags, with all
rights granted by the upper levels, the walk of every other page in both halves gives what it gave
before, and still no two entries of the user half share a table (`mapping_law`).
-/

set_option linter.unusedSectionVars false

namespace Jeos

open ByteMemory TreeWalk

/-- The entries of the upper levels of the user half grant everything and have no other flag. -/
def TableFlags (h : Heap) (pml4 : U64) : Prop :=
  ∀ p n, nodeAt h pml4 p = some n → p ≠ [] → n.level ≠ 0 → pteFlags n.pte = tableFlags

/-- The tables of the kernel half are in use, and no tables of the user half. -/
def KernelApart (h : Heap) (pml4 : U64) : Prop :=
  ∀ va, KernelIndex (pml4Index va) → ∀ t ∈ tablesBelow h (vaPath va) pml4,
    pageOf t ∉ h.freePages ∪ tablePages h pml4

/-- What may happen between two calls : the tables of the tree stay as they are and in use, and the
kernel does not take them for its own. -/
structure Elsewhere (pml4 : U64) (h h' : Heap) : Prop where
  sound : h'.Sound
  hhdm : h'.hhdmOffset = h.hhdmOffset
  mem : ∀ x, pageOf x ∈ tablePages h pml4 → h'.mem x = h.mem x
  used : ∀ k ∈ tablePages h pml4, k ∉ h'.freePages
  kernel : KernelApart h' pml4

/-- A tree built by `create_user_pml4` and calls of `map_page_pml4`, where every `kalloc` gave a page
and no table of the kernel half was free. -/
inductive BuiltTree (pml4 : U64) : Heap → Prop where
  | create {h : Heap} {s' : PagingState} {cr3 : U64} (hs : h.Sound)
      (hc : pageOf (h.pteAddr cr3) ∉ h.freePages)
      (ht : ∀ va, KernelIndex (pml4Index va) →
        ∀ t ∈ tablesBelow h (vaPath va) (h.pteAddr cr3), pageOf t ∉ h.freePages)
      (hr : PagingState.createUserPml4 ⟨h, true⟩ cr3 = some (s', pml4)) (hok : s'.ok = true) :
      BuiltTree pml4 s'.heap
  | map {h : Heap} {s' : PagingState} {va phys flags : U64} (hb : BuiltTree pml4 h)
      (hva : va.toNat < 2 ^ 47) (hf : FlagBits flags)
      (hr : PagingState.mapPagePml4 ⟨h, true⟩ pml4 va phys flags = some s') (hok : s'.ok = true) :
      BuiltTree pml4 s'.heap
  | other {h h' : Heap} (hb : BuiltTree pml4 h) (ho : Elsewhere pml4 h h') : BuiltTree pml4 h'

/-- The addresses the processor accepts. -/
def Canonical (va : U64) : Prop := va.toNat < 2 ^ 47 ∨ 2 ^ 64 - 2 ^ 47 ≤ va.toNat

/-- What holds of a tree that was built. -/
structure TreeOk (pml4 : U64) (h : Heap) : Prop where
  tree : TableTree h pml4
  flags : TableFlags h pml4
  kernel : KernelApart h pml4

section Walk

variable {h h' : Heap} {pml4 va va' : U64} {n leaf : Node} {p is : List ℕ}

/-! ## Addresses and paths -/

theorem pml4Index_lt_iff (hva : Canonical va) : pml4Index va < 256 ↔ va.toNat < 2 ^ 47 := by
  have hlt := va.isLt
  rw [pml4Index, index_toNat]
  rcases hva with h | h <;> omega

/-- Different pages have different paths. -/
theorem vaPath_ne (hva : Canonical va) (hva' : Canonical va') (hne : pageOf va' ≠ pageOf va) :
    vaPath va' ≠ vaPath va := by
  intro h
  simp only [vaPath, List.cons.injEq, pml4Index, pdptIndex, pdIndex, ptIndex, index_toNat] at h
  obtain ⟨h4, h3, h2, h1, -⟩ := h
  have hlt := va.isLt
  have hlt' := va'.isLt
  unfold pageOf at hne
  rcases hva with hv | hv <;> rcases hva' with hv' | hv' <;> omega

/-! ## The walk of the processor and the nodes -/

/-- A table that is not a leaf of the walk. -/
theorem not_isLeaf (hu : TableFlags h pml4) (hn : nodeAt h pml4 p = some n) (hp : p ≠ [])
    (hl : n.level ≠ 0) : ¬IsLeaf n.pte n.level := by
  have hps : n.pte &&& ptePs = pteFlags n.pte &&& ptePs := by
    rw [pteFlags, BitVec.and_assoc]
    rfl
  rintro (h0 | ⟨-, hps'⟩)
  · exact hl h0
  · rw [hps, hu p n hn hp hl] at hps'
    exact hps' rfl

/-- The tables on the way to a user address have its indices. -/
theorem index_on_path {i : ℕ} (hi : pml4Index va < 256) (hpath : p ++ i :: is = vaPath va)
    (hn : nodeAt h pml4 p = some n) : n.level = is.length + 1 ∧ i < n.fanout := by
  have hlen := congrArg List.length hpath
  rw [List.length_append, List.length_cons] at hlen
  change p.length + (is.length + 1) = 4 at hlen
  have hlevel := nodeAt_level hn
  refine ⟨by omega, ?_⟩
  rw [Node.fanout]
  cases p with
  | nil =>
    obtain rfl := (List.cons.inj hpath).1
    split_ifs
    · exact hi
    · exact index_lt va 39
  | cons j p =>
    rw [List.length_cons] at hlen hlevel
    rw [if_neg (by omega)]
    exact index_lt_of_mem_vaPath (hpath ▸ List.mem_append_right _ List.mem_cons_self)

/-- One step of the walk. -/
theorem nodeAt_step {i : ℕ} (hi : pml4Index va < 256) (hpath : p ++ i :: is = vaPath va)
    (hn : nodeAt h pml4 p = some n) (hp : Present (h.entry n.addr i)) :
    nodeAt h pml4 (p ++ [i]) =
      some ⟨is.length, h.entry n.addr i, h.pteAddr (h.entry n.addr i)⟩ := by
  obtain ⟨hl, hlt⟩ := index_on_path hi hpath hn
  rw [nodeAt, walk_concat_of hn]
  refine child_eq_some.2 ⟨by omega, hlt, hp, ?_⟩
  rw [hl]
  rfl

theorem nodeAt_step_none {i : ℕ} (hn : nodeAt h pml4 p = some n) (hp : ¬Present (h.entry n.addr i)) :
    nodeAt h pml4 (p ++ i :: is) = none := by
  rw [← List.singleton_append, ← List.append_assoc, nodeAt, walk_append, walk_concat_of hn,
    child, if_neg fun hc => hp hc.2.2, Option.bind_none]

/-- Without a node at the end of the path the walk finds nothing. -/
theorem translateFrom_eq_none (hu : TableFlags h pml4) (hi : pml4Index va < 256) (rights : U64)
    (hpath : p ++ is = vaPath va) (hn : nodeAt h pml4 p = some n)
    (hnone : nodeAt h pml4 (vaPath va) = none) : translateFrom h is n.addr rights = none := by
  induction is generalizing p n rights with
  | nil => rfl
  | cons i is ih =>
    rw [translateFrom]
    by_cases hp : Present (h.entry n.addr i)
    · have hnext := nodeAt_step hi hpath hn hp
      have happ : p ++ [i] ++ is = vaPath va := by
        rw [List.append_assoc, List.singleton_append, hpath]
      rw [if_neg (not_not.2 hp)]
      cases is with
      | nil =>
        rw [List.append_nil] at happ
        rw [← happ, hnext] at hnone
        cases hnone
      | cons j is =>
        have hrest := ih (rights &&& h.entry n.addr i) happ hnext
        rw [if_neg (not_isLeaf hu hnext (by simp) (Nat.succ_ne_zero _))]
        exact hrest
    · rw [if_pos hp]

/-- With a node there the walk finds its entry, with all its rights. -/
theorem translateFrom_eq_some (hu : TableFlags h pml4) (hi : pml4Index va < 256) (rights : U64)
    (hpath : p ++ is = vaPath va) (his : is ≠ []) (hn : nodeAt h pml4 p = some n)
    (hleaf : nodeAt h pml4 (vaPath va) = some leaf) :
    ∃ r, translateFrom h is n.addr rights = some (0, leaf.pte, r) ∧
      r &&& tableFlags = rights &&& leaf.pte &&& tableFlags := by
  induction is generalizing p n rights with
  | nil => exact absurd rfl his
  | cons i is ih =>
    rw [translateFrom]
    have hp : Present (h.entry n.addr i) := by
      by_contra hp
      rw [← hpath, nodeAt_step_none hn hp] at hleaf
      cases hleaf
    have hnext := nodeAt_step hi hpath hn hp
    have happ : p ++ [i] ++ is = vaPath va := by
      rw [List.append_assoc, List.singleton_append, hpath]
    rw [if_neg (not_not.2 hp)]
    cases is with
    | nil =>
      rw [List.append_nil] at happ
      rw [happ, hleaf] at hnext
      obtain rfl := Option.some.inj hnext
      exact ⟨_, if_pos (Or.inl rfl), rfl⟩
    | cons j is =>
      rw [if_neg (not_isLeaf hu hnext (by simp) (Nat.succ_ne_zero _))]
      obtain ⟨r, hr, hrights⟩ := ih (rights &&& h.entry n.addr i) happ (List.cons_ne_nil j is) hnext
      refine ⟨r, hr, hrights.trans ?_⟩
      -- The entry on the way has all the rights.
      have hall : h.entry n.addr i &&& tableFlags = tableFlags := by
        have hfl := hu _ _ hnext (by simp) (Nat.succ_ne_zero _)
        rw [pteFlags] at hfl
        rw [← hfl, ← BitVec.and_assoc, BitVec.and_self]
      rw [BitVec.and_assoc rights, BitVec.and_comm (h.entry n.addr i), ← BitVec.and_assoc,
        BitVec.and_assoc, hall]

/-- The walk depends on the nodes of its path. -/
theorem translateFrom_congr (hu : TableFlags h' pml4) (hu₀ : TableFlags h pml4)
    (hi : pml4Index va < 256) (rights : U64)
    (hkeep : ∀ q m, nodeAt h pml4 q = some m → q <+: vaPath va → nodeAt h' pml4 q = some m)
    (hback : nodeAt h pml4 (vaPath va) = none → nodeAt h' pml4 (vaPath va) = none)
    (hpath : p ++ is = vaPath va) (hn : nodeAt h pml4 p = some n) :
    translateFrom h' is n.addr rights = translateFrom h is n.addr rights := by
  have hn' := hkeep p n hn ⟨is, hpath⟩
  cases hend : nodeAt h pml4 (vaPath va) with
  | none =>
    rw [translateFrom_eq_none hu₀ hi rights hpath hn hend,
      translateFrom_eq_none hu hi rights hpath hn' (hback hend)]
  | some leaf =>
    clear hback
    induction is generalizing p n rights with
    | nil => rfl
    | cons i is ih =>
      have hp : Present (h.entry n.addr i) := by
        by_contra hp
        rw [← hpath, nodeAt_step_none hn hp] at hend
        cases hend
      have hnext := nodeAt_step hi hpath hn hp
      have happ : p ++ [i] ++ is = vaPath va := by
        rw [List.append_assoc, List.singleton_append, hpath]
      have hnext' := hkeep _ _ hnext ⟨is, happ⟩
      have he : h'.entry n.addr i = h.entry n.addr i := by
        rw [nodeAt, walk_concat_of hn'] at hnext'
        exact (congrArg Node.pte (child_eq_some.1 hnext').2.2.2).symm
      have haddr : h'.pteAddr (h.entry n.addr i) = h.pteAddr (h.entry n.addr i) := by
        rw [nodeAt, walk_concat_of hn'] at hnext'
        rw [← he]
        exact (congrArg Node.addr (child_eq_some.1 hnext').2.2.2).symm.trans (by rw [he])
      have hrest := ih (rights &&& h.entry n.addr i) happ hnext hnext'
      rw [translateFrom, translateFrom, he, haddr]
      split_ifs
      · rfl
      · exact hrest

end Walk

/-! ## What a step keeps -/

section Steps

variable {h h' : Heap} {pml4 va phys flags : U64} {s' : PagingState}

/-- The walks of the kernel half do not see what happens to free pages and to the user half. -/
theorem KernelApart.same (hk : KernelApart h pml4) (hh : PageAligned h.hhdmOffset)
    (hag : h.AgreeOutside (h.freePages ∪ tablePages h pml4) h')
    (hent : ∀ j, KernelIndex j → h'.entry pml4 j = h.entry pml4 j) {va : U64}
    (hva : KernelIndex (pml4Index va)) :
    translation h' pml4 va = translation h pml4 va ∧
      tablesBelow h' (vaPath va) pml4 = tablesBelow h (vaPath va) pml4 := by
  refine walk_congr_below hh hag.hhdm (vaPath va) pml4 pml4 _ (fun i => index_lt_of_mem_vaPath)
    (fun i hi => ?_) fun u hu x hx => hag.mem x (hx ▸ hk va hva u hu)
  obtain rfl := Option.some.inj hi
  exact hent _ hva

theorem TreeOk.create {cr3 : U64} (hs : h.Sound) (hc : pageOf (h.pteAddr cr3) ∉ h.freePages)
    (ht : ∀ va, KernelIndex (pml4Index va) →
      ∀ t ∈ tablesBelow h (vaPath va) (h.pteAddr cr3), pageOf t ∉ h.freePages)
    (hr : PagingState.createUserPml4 ⟨h, true⟩ cr3 = some (s', pml4)) (hok : s'.ok = true) :
    TreeOk pml4 s'.heap := by
  have hnew := PagingState.createUserPml4_spec (s := ⟨h, true⟩) hs hr hok
  obtain ⟨hk, -⟩ := PagingState.createUserPml4_kernelHalf (s := ⟨h, true⟩) hs hc ht hr hok
  refine ⟨hnew.space.tables, fun p n hn hp _ => absurd (hnew.empty p n hn).1 hp, fun va hva t hmem => ?_⟩
  exact fun hx => hk.tables va hva t hmem (Set.union_subset_union_right _ tablePages_subset hx)

/-- One call of `map_page_pml4`. -/
theorem TreeOk.map (ho : TreeOk pml4 h) (hva : pml4Index va < 256) (hf : FlagBits flags)
    (hr : PagingState.mapPagePml4 ⟨h, true⟩ pml4 va phys flags = some s') (hok : s'.ok = true) :
    TreeOk pml4 s'.heap := by
  obtain ⟨hg, hleaf⟩ := PagingState.mapPagePml4_grows (s := ⟨h, true⟩) ho.tree hva hf hr hok
  refine ⟨hg.tree, fun p n hn hp hl => ?_, fun va' hva' t ht hx => ?_⟩
  · rcases hg.nodes p n hn with hn | ⟨-, -, hfl⟩ | ⟨h0, -⟩
    · exact ho.flags p n hn hp hl
    · exact hfl
    · exact absurd h0 hl
  · rw [(ho.kernel.same ho.tree.sound.hhdm hg.agree hg.kernel hva').2] at ht
    exact ho.kernel va' hva' t ht
      (Set.union_subset (hg.free.trans Set.subset_union_left) hg.tablePages_subset hx)

theorem TreeOk.other (ho : TreeOk pml4 h) (he : Elsewhere pml4 h h') : TreeOk pml4 h' := by
  have hnodes : ∀ p, nodeAt h' pml4 p = nodeAt h pml4 p := nodeAt_congr he.hhdm
    fun p n hn hl i hi => entry_congr (ho.tree.aligned hn) (hi.trans_le n.fanout_le)
      fun x hx => he.mem x ⟨p, n, hn, hl, hx.symm⟩
  refine ⟨⟨he.sound, ho.tree.root_aligned, fun p n hn hl => ?_, fun p q n n' hn hn' => ?_⟩,
    fun p n hn => ?_, he.kernel⟩
  · exact he.used _ ⟨p, n, (hnodes p).symm.trans hn, hl, rfl⟩
  · exact ho.tree.unshared p q n n' ((hnodes p).symm.trans hn) ((hnodes q).symm.trans hn')
  · exact ho.flags p n ((hnodes p).symm.trans hn)

theorem BuiltTree.ok (hb : BuiltTree pml4 h) : TreeOk pml4 h := by
  induction hb with
  | create hs hc ht hr hok => exact .create hs hc ht hr hok
  | map hb hva hf hr hok ih => exact ih.map ((pml4Index_lt_iff (Or.inl hva)).2 hva) hf hr hok
  | other hb ho ih => exact ih.other ho

/-- `map_page_pml4` in a tree that was built : the walk of `va` ends in the frame of `phys` with the
flags, and with the rights the flags grant. Other pages keep their walks. -/
theorem mapping_law (hb : BuiltTree pml4 h) (hva : va.toNat < 2 ^ 47) (hf : FlagBits flags)
    (phys : U64) :
    ∃ s', PagingState.mapPagePml4 ⟨h, true⟩ pml4 va phys flags = some s' ∧ (s'.ok = true →
      (∃ rights, translation s'.heap pml4 va =
          some (0, phys &&& pageFrameMask ||| (flags ||| ptePresent), rights) ∧
        rights &&& tableFlags = (flags ||| ptePresent) &&& tableFlags) ∧
      (∀ va', Canonical va' → pageOf va' ≠ pageOf va →
        translation s'.heap pml4 va' = translation h pml4 va') ∧
      ∀ p q n n', nodeAt s'.heap pml4 p = some n → nodeAt s'.heap pml4 q = some n' →
        n.level ≠ 0 → n'.level ≠ 0 → pageOf n.addr = pageOf n'.addr → p = q) := by
  obtain ⟨s', hr⟩ := PagingState.exists_mapPagePml4 ⟨h, true⟩ pml4 va phys flags
  refine ⟨s', hr, fun hok => ?_⟩
  have ho := hb.ok
  have hi := (pml4Index_lt_iff (Or.inl hva)).2 hva
  have ho' := ho.map hi hf hr hok
  obtain ⟨hg, hleaf⟩ := PagingState.mapPagePml4_grows (s := ⟨h, true⟩) ho.tree hi hf hr hok
  rw [BitVec.or_assoc] at hleaf
  have hall : (-1 : U64) &&& (phys &&& pageFrameMask ||| (flags ||| ptePresent)) &&& tableFlags =
      (flags ||| ptePresent) &&& tableFlags := by
    have hm : pageFrameMask &&& tableFlags = 0 := by decide
    rw [show (-1 : U64) = BitVec.allOnes 64 from rfl, BitVec.allOnes_and, BitVec.and_comm,
      BitVec.and_or_distrib_left, BitVec.and_comm _ (phys &&& _), BitVec.and_assoc, hm,
      show phys &&& 0 = 0 from BitVec.and_zero, BitVec.and_comm]
    exact BitVec.zero_or
  refine ⟨?_, fun va' hc hne => ?_, fun p q n n' hn hn' hl hl' hp => ?_⟩
  · obtain ⟨r, hw, hrights⟩ := translateFrom_eq_some ho'.flags hi (-1)
      (List.nil_append (vaPath va)) (List.cons_ne_nil _ _) nodeAt_nil hleaf
    exact ⟨r, hw, hrights.trans hall⟩
  · by_cases hi' : pml4Index va' < 256
    · have hpath := vaPath_ne (Or.inl hva) hc hne
      refine translateFrom_congr ho'.flags ho.flags hi' (-1) (fun q m hm hq => ?_) (fun hnone => ?_)
        (p := []) rfl nodeAt_nil
      · refine hg.keeps q m ?_ hm
        rintro rfl
        exact hpath (hq.eq_of_length rfl).symm
      · cases hx : nodeAt s'.heap pml4 (vaPath va') with
        | none => rfl
        | some m =>
          have hlevel := nodeAt_level hx
          rcases hg.nodes _ m hx with hm | ⟨hl, -⟩ | ⟨-, hq⟩
          · exact absurd (hm.symm.trans hnone) (Option.some_ne_none m)
          · change m.level + 4 = 4 at hlevel
            exact absurd hlevel (by omega)
          · exact absurd hq hpath
    · have hk : KernelIndex (pml4Index va') := ⟨Nat.not_lt.1 hi', index_lt va' 39⟩
      exact (ho.kernel.same ho.tree.sound.hhdm hg.agree hg.kernel hk).1
  · exact (ho'.tree.unique hn hn' hl hl' hp).1

end Steps

/-- The first page of a new address space after boot. -/
theorem mapping_law_boot : ∃ h pml4 s', BuiltTree pml4 h ∧
    PagingState.mapPagePml4 ⟨h, true⟩ pml4 0x400000 0x200000 pteUser = some s' ∧ s'.ok = true ∧
      ∃ rights, translation s'.heap pml4 0x400000 =
          some (0, 0x200000 &&& pageFrameMask ||| (pteUser ||| ptePresent), rights) ∧
        rights &&& tableFlags = (pteUser ||| ptePresent) &&& tableFlags := by
  obtain ⟨h₀, t, pml4, hboot, hnew, hok, hn, hcard, -⟩ := exists_new_space (n := 3) (by norm_num)
  obtain ⟨hs, hpage, hzero⟩ := cr3_of_boot (by norm_num) hboot
  have hbuilt : BuiltTree pml4 t.heap := by
    refine .create hs hpage (fun va hva u hu => ?_) hnew hok
    rw [vaPath, tablesBelow, hzero _ hva.2, if_neg fun hp => hp.1 BitVec.zero_and] at hu
    exact absurd hu List.not_mem_nil
  obtain ⟨s', hr, hlaw⟩ := mapping_law hbuilt (show (0x400000 : U64).toNat < 2 ^ 47 by decide)
    (show FlagBits pteUser by decide) 0x200000
  have hok' := PagingState.mapPagePml4_ok (s := ⟨t.heap, true⟩) hn.space (by decide) hr rfl hcard.ge
  exact ⟨t.heap, pml4, s', hbuilt, hr, hok', (hlaw hok').1⟩

end Jeos
