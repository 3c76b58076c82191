import Jeos.ForkIsolation

/-!
# Tearing down an address space

`free_user_pml4` walks the user half of the tables and passes every frame and every
table to `kfree`, a table after what is below it. Each freed page is overwritten at
once, and the loops go on in tables that are not free yet. `freed` and `read` record
the calls of `kfree` and the entries looked at; no function reads them.

`Freed` is the state of the walk when the paths of a set are through, and
`freeUserPml4_spec` what the whole walk does to a tree in which no two nodes share a
page. `Owning` says that such a tree has exactly the pages taken from the allocator
since some earlier moment. Mapping pages keeps it, and so does copying another address
space, so the teardown gives back what the construction took (`teardown_exact`).
-/

set_option linter.unusedSectionVars false

namespace Jeos

open ByteMemory DyadicBlock TreeWalk

/-! ## The functions -/

/-- The allocator and the memory, the pages passed to `kfree` and the entries read, last first. -/
structure FreeState where
  heap : Heap
  freed : List U64
  read : List (U64 × ℕ)

namespace FreeState

/-- Entry `i` of `table` is looked at. -/
def look (s : FreeState) (table : U64) (i : ℕ) : FreeState :=
  { s with read := (table, i) :: s.read }

/-- `kfree(p, 1)`. -/
def kfreePage (s : FreeState) (p : U64) : Option FreeState :=
  (kfree s.heap p 1).map fun h => { s with heap := h, freed := p :: s.freed }

/-- `table[i] = 0;` -/
def clear (s : FreeState) (table : U64) (i : ℕ) : FreeState :=
  { s with heap := s.heap.setEntry table i 0 }

/-- The loop over `i1` of `free_user_pml4`, one round. -/
def freePage (pt : U64) (s : FreeState) (i1 : ℕ) : Option FreeState :=
  let pte := s.heap.entry pt i1
  let s := s.look pt i1
  if Present pte ∧ User pte then s.kfreePage (s.heap.pteAddr pte) else some s

/-- The loop over `i2` of `free_user_pml4`, one round. -/
def freePt (pd : U64) (s : FreeState) (i2 : ℕ) : Option FreeState :=
  let pde := s.heap.entry pd i2
  let s := s.look pd i2
  if ¬Present pde then some s
  else
    let pt := s.heap.pteAddr pde
    ((List.range 512).foldlM (freePage pt) s).bind fun s => s.kfreePage pt

/-- The loop over `i3` of `free_user_pml4`, one round. -/
def freePd (pdpt : U64) (s : FreeState) (i3 : ℕ) : Option FreeState :=
  let pdpte := s.heap.entry pdpt i3
  let s := s.look pdpt i3
  if ¬Present pdpte then some s
  else
    let pd := s.heap.pteAddr pdpte
    ((List.range 512).foldlM (freePt pd) s).bind fun s => s.kfreePage pd

/-- The loop over `i4` of `free_user_pml4`, one round. -/
def freePdpt (pml4 : U64) (s : FreeState) (i4 : ℕ) : Option FreeState :=
  let pml4e := s.heap.entry pml4 i4
  let s := s.look pml4 i4
  if ¬Present pml4e then some s
  else
    let pdpt := s.heap.pteAddr pml4e
    ((List.range 512).foldlM (freePd pdpt) s).bind fun s =>
      (s.kfreePage pdpt).map fun s => s.clear pml4 i4

/-- `free_user_pml4`. -/
def freeUserPml4 (s : FreeState) (pml4 : U64) : Option FreeState :=
  (List.range 256).foldlM (freePdpt pml4) s

/-- `free_user_pml4(pml4); kfree(pml4, 1);` -/
def teardown (s : FreeState) (pml4 : U64) : Option FreeState :=
  (s.freeUserPml4 pml4).bind fun s => s.kfreePage pml4

end FreeState

/-! ## One page -/

/-- `kfree(v, 1)` of an allocated page. -/
theorem kfree_one {h : Heap} {v : U64} (hs : h.Sound) (hv : PageAligned v) (h0 : v ≠ 0)
    (hf : pageOf v ∉ h.freePages) :
    ∃ h', kfree h v 1 = some h' ∧ h'.Sound ∧ h'.freePages = h.freePages ∪ {pageOf v} ∧
      h.AgreeOutside (h.freePages ∪ {pageOf v}) h' := by
  obtain ⟨L, hL⟩ := hs.lists
  rw [hL.freePages_eq] at hf ⊢
  have hd : Disjoint (blockAt 0 v).pages (cover (blocks L)) := by
    rwa [pages_blockAt_zero, Set.disjoint_singleton_left]
  have ha : OrderAligned 0 v := by rwa [OrderAligned, pow_zero, mul_one]
  obtain ⟨h', L', hk, hL', hb, hag⟩ := kfree_spec hL (show (1 : U64) ≠ 0 by decide)
    (show orderFor 1 = some 0 by decide) (by omega) ha h0 hd
  rw [pages_blockAt_zero] at hag
  refine ⟨h', hk, ⟨⟨L', hL'⟩, hag.hhdm ▸ hs.hhdm⟩, ?_, hag⟩
  rw [hL'.freePages_eq, hb, cover_release, pages_blockAt_zero]

/-- The null page is never free. -/
theorem Heap.Sound.zero_not_mem {h : Heap} (hs : h.Sound) : 0 ∉ h.freePages := by
  obtain ⟨L, hL⟩ := hs.lists
  rw [hL.freePages_eq]
  intro hmem
  obtain ⟨b, ⟨hb, a, ha, he⟩, h0⟩ := mem_cover.1 hmem
  have hi : (blockAt b.order a).index = 0 := by
    rw [← he, ← mem_pages.1 h0, Nat.zero_div]
  refine hL.ne_zero hb ha (BitVec.eq_of_toNat_eq ?_)
  rw [(hL.aligned _ hb a ha).toNat_eq, hi, Nat.zero_mul]
  rfl

/-- What is below a table is below one of its entries. -/
theorem mem_below_of_nodeAt {h : Heap} {pml4 : U64} {p q : List ℕ} {n m : Node}
    (hm : nodeAt h pml4 q = some m) (hn : nodeAt h pml4 p = some n) (hp : q ∈ cone p)
    (hne : q ≠ p) : q ∈ below p n.fanout := by
  obtain ⟨r, rfl⟩ := hp
  rcases r with _ | ⟨i, r⟩
  · exact absurd (List.append_nil p) hne
  · rw [nodeAt, walk_append, show walk (child h) (.root pml4) p = some n from hn, Option.bind_some,
      walk_cons] at hm
    obtain ⟨n', hc, -⟩ := Option.bind_eq_some_iff.1 hm
    exact ⟨i, (child_eq_some.1 hc).2.1, r, by simp⟩

/-- Nothing is below a missing entry. -/
theorem nodeAt_eq_none_of_cone {h : Heap} {pml4 : U64} {p q : List ℕ} (hn : nodeAt h pml4 p = none)
    (hp : q ∈ cone p) : nodeAt h pml4 q = none := by
  obtain ⟨r, rfl⟩ := hp
  rw [nodeAt, walk_append, show walk (child h) (.root pml4) p = none from hn, Option.bind_none]

/-! ## The walk -/

/-- A user half in which no two nodes share a page, and every frame is open to user accesses. -/
structure OwnTree (h : Heap) (pml4 : U64) : Prop where
  space : UserSpace h pml4
  apart : ∀ p q n n', nodeAt h pml4 p = some n → nodeAt h pml4 q = some n' →
    pageOf n.addr = pageOf n'.addr → p = q
  user : ∀ p n, nodeAt h pml4 p = some n → n.level = 0 → User n.pte
  ne_zero : ∀ p n, nodeAt h pml4 p = some n → n.addr ≠ 0

/-- The pages of the nodes at the paths of `D`. -/
def pagesAt (h : Heap) (pml4 : U64) (D : Set (List ℕ)) : Set ℕ :=
  {k | ∃ p ∈ D, ∃ n, nodeAt h pml4 p = some n ∧ pageOf n.addr = k}

/-- The walk over the tree of `h₁` is through with the paths `D`. -/
structure Freed (h₁ : Heap) (pml4 : U64) (D : Set (List ℕ)) (s : FreeState) : Prop where
  sound : s.heap.Sound
  hhdm : s.heap.hhdmOffset = h₁.hhdmOffset
  root : [] ∉ D
  free : s.heap.freePages = h₁.freePages ∪ pagesAt h₁ pml4 D
  mem : ∀ x, pageOf x ∉ s.heap.freePages → pageOf x ≠ pageOf pml4 → s.heap.mem x = h₁.mem x
  top : ∀ i < 256, [i] ∉ D → s.heap.entry pml4 i = h₁.entry pml4 i
  kernel : ∀ i, KernelIndex i → s.heap.entry pml4 i = h₁.entry pml4 i
  freed : ∀ v, v ∈ s.freed ↔ ∃ p ∈ D, ∃ n, nodeAt h₁ pml4 p = some n ∧ n.addr = v
  nodup : s.freed.Nodup
  read : ∀ t i, (t, i) ∈ s.read →
    ∃ p n, nodeAt h₁ pml4 p = some n ∧ n.level ≠ 0 ∧ i < n.fanout ∧ n.addr = t

section Walk

variable {h₁ : Heap} {pml4 : U64} {D D' : Set (List ℕ)} {s : FreeState} {p q : List ℕ} {n : Node}
  {i : ℕ}

/-- Paths without a node do not matter. -/
theorem Freed.congr (hf : Freed h₁ pml4 D s) (hD : D ⊆ D')
    (hno : ∀ p ∈ D', p ∉ D → nodeAt h₁ pml4 p = none) : Freed h₁ pml4 D' s := by
  have hmem : ∀ {p n}, nodeAt h₁ pml4 p = some n → (p ∈ D ↔ p ∈ D') := fun {p n} hn => by
    refine ⟨fun h => hD h, fun h => ?_⟩
    by_contra hp
    exact absurd (hn.symm.trans (hno p h hp)) (by simp)
  have hpages : pagesAt h₁ pml4 D' = pagesAt h₁ pml4 D := by
    ext k
    constructor
    · rintro ⟨p, hp, n, hn, hk⟩
      exact ⟨p, (hmem hn).2 hp, n, hn, hk⟩
    · rintro ⟨p, hp, n, hn, hk⟩
      exact ⟨p, hD hp, n, hn, hk⟩
  refine { hf with
    root := fun h => hf.root ((hmem nodeAt_nil).2 h)
    free := hpages ▸ hf.free
    top := fun i hi hp => hf.top i hi fun h => hp (hD h)
    freed := fun v => (hf.freed v).trans ⟨?_, ?_⟩ }
  · rintro ⟨p, hp, n, hn, hv⟩
    exact ⟨p, hD hp, n, hn, hv⟩
  · rintro ⟨p, hp, n, hn, hv⟩
    exact ⟨p, (hmem hn).2 hp, n, hn, hv⟩

theorem Freed.look (hf : Freed h₁ pml4 D s) (hn : nodeAt h₁ pml4 p = some n) (hl : n.level ≠ 0)
    (hi : i < n.fanout) : Freed h₁ pml4 D (s.look n.addr i) :=
  { hf with
    read := fun t j hj => by
      rcases List.mem_cons.1 hj with he | hj
      · obtain ⟨rfl, rfl⟩ := Prod.mk.inj he
        exact ⟨p, n, hn, hl, hi, rfl⟩
      · exact hf.read t j hj }

/-- A node that is not freed yet is not on a free page. -/
theorem Freed.not_free (ho : OwnTree h₁ pml4) (hf : Freed h₁ pml4 D s)
    (hn : nodeAt h₁ pml4 p = some n) (hp : p ∉ D) : pageOf n.addr ∉ s.heap.freePages := by
  rw [hf.free]
  rintro (h | ⟨q, hq, m, hm, he⟩)
  · exact ho.space.held p n hn h
  · exact hp (ho.apart q p m n hm hn he ▸ hq)

/-- The entries of a table that is not freed yet. -/
theorem Freed.entry_eq (ho : OwnTree h₁ pml4) (hf : Freed h₁ pml4 D s)
    (hn : nodeAt h₁ pml4 p = some n) (hp : p ∉ D) (hi : i < n.fanout) (hip : p ++ [i] ∉ D) :
    s.heap.entry n.addr i = h₁.entry n.addr i := by
  rcases eq_or_ne p [] with rfl | hne
  · obtain rfl := Option.some.inj hn
    exact hf.top i hi hip
  · refine entry_congr (ho.space.aligned hn) (hi.trans_le n.fanout_le) fun x hx => hf.mem x ?_ ?_
    · exact hx ▸ hf.not_free ho hn hp
    · exact fun he => hne (ho.apart p [] n _ hn nodeAt_nil (hx.symm.trans he))

/-- One node is passed to `kfree`. -/
theorem Freed.kfreePage (ho : OwnTree h₁ pml4) (hf : Freed h₁ pml4 D s)
    (hn : nodeAt h₁ pml4 p = some n) (hp : p ∉ D) (hne : p ≠ []) :
    ∃ s', s.kfreePage n.addr = some s' ∧ Freed h₁ pml4 (D ∪ {p}) s' := by
  have hnf := hf.not_free ho hn hp
  obtain ⟨h', hk, hs', hfree, hag⟩ :=
    kfree_one hf.sound (ho.space.aligned hn) (ho.ne_zero p n hn) hnf
  have hpages : pagesAt h₁ pml4 (D ∪ {p}) = pagesAt h₁ pml4 D ∪ {pageOf n.addr} := by
    ext k
    constructor
    · rintro ⟨q, hq | rfl, m, hm, hk⟩
      · exact Or.inl ⟨q, hq, m, hm, hk⟩
      · obtain rfl := Option.some.inj (hn.symm.trans hm)
        exact Or.inr hk.symm
    · rintro (⟨q, hq, m, hm, hk⟩ | rfl)
      · exact ⟨q, Or.inl hq, m, hm, hk⟩
      · exact ⟨p, Or.inr rfl, n, hn, rfl⟩
  have hroot : pageOf n.addr ≠ pageOf pml4 := fun he => hne (ho.apart p [] n _ hn nodeAt_nil he)
  have hpml4 : pageOf pml4 ∉ s.heap.freePages := hf.not_free ho nodeAt_nil hf.root
  have hroot_eq : ∀ i < 512, h'.entry pml4 i = s.heap.entry pml4 i := fun i hi => by
    refine entry_congr ho.space.root_aligned hi fun x hx => hag.mem x ?_
    rw [hx]
    rintro (h | h)
    · exact hpml4 h
    · exact hroot h.symm
  refine ⟨_, Option.map_eq_some_iff.2 ⟨h', hk, rfl⟩, hs', hag.hhdm.trans hf.hhdm, ?_, ?_,
    fun x hx hx' => ?_,
    fun i hi hid => (hroot_eq i (by omega)).trans (hf.top i hi fun h => hid (Or.inl h)),
    fun i hi => (hroot_eq i hi.2).trans (hf.kernel i hi), fun v => ?_,
    List.nodup_cons.2 ⟨fun hv => ?_, hf.nodup⟩, hf.read⟩
  · rintro (h | h)
    · exact hf.root h
    · exact hne h.symm
  · rw [hpages, ← Set.union_assoc, ← hf.free]
    exact hfree
  · change pageOf x ∉ h'.freePages at hx
    rw [hfree] at hx
    exact (hag.mem x hx).trans (hf.mem x (fun h => hx (Or.inl h)) hx')
  · refine List.mem_cons.trans ?_
    rw [hf.freed]
    constructor
    · rintro (rfl | ⟨q, hq, m, hm, hv⟩)
      · exact ⟨p, Or.inr rfl, n, hn, rfl⟩
      · exact ⟨q, Or.inl hq, m, hm, hv⟩
    · rintro ⟨q, hq | rfl, m, hm, hv⟩
      · exact Or.inr ⟨q, hq, m, hm, hv⟩
      · obtain rfl := Option.some.inj (hn.symm.trans hm)
        exact Or.inl hv.symm
  · obtain ⟨q, hq, m, hm, he⟩ := (hf.freed _).1 hv
    exact hp (ho.apart q p m n hm hn (congrArg pageOf he) ▸ hq)

/-- The loop over a table : what each round frees below its entry, the loop frees below
the table. -/
theorem Freed.loop {f : FreeState → ℕ → Option FreeState}
    (hround : ∀ i < n.fanout, ∀ D s, Freed h₁ pml4 D s → p ∉ D → Disjoint D (cone (p ++ [i])) →
      ∃ s', f s i = some s' ∧ Freed h₁ pml4 (D ∪ cone (p ++ [i])) s')
    (hf : Freed h₁ pml4 D s) (hp : p ∉ D) (hd : ∀ i < n.fanout, Disjoint D (cone (p ++ [i]))) :
    ∃ s', (List.range n.fanout).foldlM f s = some s' ∧
      Freed h₁ pml4 (D ∪ below p n.fanout) s' := by
  refine Run.exists_foldlM_range (I := fun i s => Freed h₁ pml4 (D ∪ below p i) s)
    (fun i hi s hs => ?_) (by rwa [below_zero, Set.union_empty])
  rw [below_succ, ← Set.union_assoc]
  refine hround i hi _ s hs ?_ (Set.disjoint_union_left.2 ⟨hd i hi, disjoint_below_cone p i⟩)
  rintro (h | ⟨j, -, h⟩)
  · exact hp h
  · have := h.length_le
    simp only [List.length_append, List.length_singleton] at this
    omega

/-- A round that finds no entry. -/
theorem Freed.skip (hf : Freed h₁ pml4 D s) (hn : nodeAt h₁ pml4 p = none) :
    Freed h₁ pml4 (D ∪ cone p) s :=
  hf.congr Set.subset_union_left fun _ hq hqD =>
    nodeAt_eq_none_of_cone hn (hq.resolve_left hqD)

/-- A round over an entry that points to a table : the loop over the table, then the table. -/
theorem Freed.table (ho : OwnTree h₁ pml4) {f : FreeState → ℕ → Option FreeState}
    (hround : ∀ i < n.fanout, ∀ D s, Freed h₁ pml4 D s → p ∉ D → Disjoint D (cone (p ++ [i])) →
      ∃ s', f s i = some s' ∧ Freed h₁ pml4 (D ∪ cone (p ++ [i])) s')
    (hn : nodeAt h₁ pml4 p = some n) (hne : p ≠ []) (hf : Freed h₁ pml4 D s)
    (hd : Disjoint D (cone p)) :
    ∃ s', ((List.range n.fanout).foldlM f s).bind (fun s => s.kfreePage n.addr) = some s' ∧
      Freed h₁ pml4 (D ∪ cone p) s' := by
  have hp : p ∉ D := fun h => Set.disjoint_left.1 hd h List.prefix_rfl
  obtain ⟨s₁, hr₁, hf₁⟩ := hf.loop hround hp fun i _ =>
    hd.mono_right fun q hq => (List.prefix_append p [i]).trans hq
  have hp₁ : p ∉ D ∪ below p n.fanout := by
    rintro (h | ⟨i, -, h⟩)
    · exact hp h
    · have := h.length_le
      simp only [List.length_append, List.length_singleton] at this
      omega
  obtain ⟨s₂, hr₂, hf₂⟩ := hf₁.kfreePage ho hn hp₁ hne
  refine ⟨s₂, Option.bind_eq_some_iff.2 ⟨s₁, hr₁, hr₂⟩, hf₂.congr ?_ fun q hq hqD => ?_⟩
  · rintro q ((h | h) | rfl)
    · exact Or.inl h
    · exact Or.inr (below_subset_cone _ _ h)
    · exact Or.inr List.prefix_rfl
  · rcases hq with hq | hq
    · exact absurd (Or.inl (Or.inl hq)) hqD
    · refine Option.eq_none_iff_forall_ne_some.2 fun m hm => hqD ?_
      rcases eq_or_ne q p with rfl | hqp
      · exact Or.inr rfl
      · exact Or.inl (Or.inr (mem_below_of_nodeAt hm hn hq hqp))

/-- The entry a round looks at : it is missing in the tree too, or leads to the same node. -/
theorem Freed.entry_cases (ho : OwnTree h₁ pml4) (hf : Freed h₁ pml4 D s)
    (hn : nodeAt h₁ pml4 p = some n) (hl : n.level ≠ 0) (hi : i < n.fanout) (hp : p ∉ D)
    (hd : Disjoint D (cone (p ++ [i]))) :
    ¬Present (s.heap.entry n.addr i) ∧ nodeAt h₁ pml4 (p ++ [i]) = none ∨
      Present (s.heap.entry n.addr i) ∧ nodeAt h₁ pml4 (p ++ [i]) =
        some ⟨n.level - 1, s.heap.entry n.addr i, s.heap.pteAddr (s.heap.entry n.addr i)⟩ := by
  have hc : nodeAt h₁ pml4 (p ++ [i]) = child h₁ n i := walk_concat_of hn i
  rw [hf.entry_eq ho hn hp hi fun h => Set.disjoint_left.1 hd h List.prefix_rfl,
    pteAddr_congr hf.hhdm, hc]
  by_cases hpres : Present (h₁.entry n.addr i)
  · exact Or.inr ⟨hpres, child_eq_some.2 ⟨hl, hi, hpres, rfl⟩⟩
  · exact Or.inl ⟨hpres, if_neg fun h => hpres h.2.2⟩

open FreeState

theorem fanout_of_ne_nil (hn : nodeAt h₁ pml4 p = some n) (hp : p ≠ []) : n.fanout = 512 := by
  have := nodeAt_level hn
  have := List.length_pos_iff.2 hp
  rw [Node.fanout, if_neg (by omega)]

/-- A frame is freed. -/
theorem Freed.freePage (ho : OwnTree h₁ pml4) (hn : nodeAt h₁ pml4 p = some n) (hl : n.level = 1)
    (hi : i < n.fanout) (hf : Freed h₁ pml4 D s) (hp : p ∉ D) (hd : Disjoint D (cone (p ++ [i]))) :
    ∃ s', freePage n.addr s i = some s' ∧ Freed h₁ pml4 (D ∪ cone (p ++ [i])) s' := by
  have hf' := hf.look hn (by omega) hi
  rcases hf.entry_cases ho hn (by omega) hi hp hd with ⟨hpres, hc⟩ | ⟨hpres, hc⟩
  · refine ⟨_, ?_, hf'.skip hc⟩
    rw [FreeState.freePage, if_neg fun h => hpres h.1]
  · have hu := ho.user _ _ hc (show n.level - 1 = 0 by omega)
    have hpi : p ++ [i] ∉ D := fun h => Set.disjoint_left.1 hd h List.prefix_rfl
    obtain ⟨s', hr, hs'⟩ := hf'.kfreePage ho hc hpi (by simp)
    refine ⟨s', ?_, hs'.congr (Set.union_subset_union_right _ ?_) fun q hq hqD => ?_⟩
    · rw [FreeState.freePage, if_pos ⟨hpres, hu⟩]
      exact hr
    · rintro q rfl
      exact List.prefix_rfl
    · rcases hq with hq | ⟨r, rfl⟩
      · exact absurd (Or.inl hq) hqD
      · refine nodeAt_append_of_level_zero hc (show n.level - 1 = 0 by omega) ?_
        rintro rfl
        exact hqD (Or.inr (List.append_nil _))

/-- A last-level table is freed with its frames. -/
theorem Freed.freePt (ho : OwnTree h₁ pml4) (hn : nodeAt h₁ pml4 p = some n) (hl : n.level = 2)
    (hi : i < n.fanout) (hf : Freed h₁ pml4 D s) (hp : p ∉ D) (hd : Disjoint D (cone (p ++ [i]))) :
    ∃ s', freePt n.addr s i = some s' ∧ Freed h₁ pml4 (D ∪ cone (p ++ [i])) s' := by
  have hf' := hf.look hn (by omega) hi
  rcases hf.entry_cases ho hn (by omega) hi hp hd with ⟨hpres, hc⟩ | ⟨hpres, hc⟩
  · refine ⟨_, ?_, hf'.skip hc⟩
    rw [FreeState.freePt, if_pos hpres]
  · obtain ⟨s', hr, hs'⟩ := hf'.table ho (f := FreeState.freePage _)
      (fun j hj D s hf hp hd => hf.freePage ho hc (by change n.level - 1 = 1; omega) hj hp hd)
      hc (by simp) hd
    refine ⟨s', ?_, hs'⟩
    rw [fanout_of_ne_nil hc (by simp)] at hr
    rw [FreeState.freePt, if_neg (not_not.2 hpres)]
    exact hr

/-- A second-level table is freed with all below it. -/
theorem Freed.freePd (ho : OwnTree h₁ pml4) (hn : nodeAt h₁ pml4 p = some n) (hl : n.level = 3)
    (hi : i < n.fanout) (hf : Freed h₁ pml4 D s) (hp : p ∉ D) (hd : Disjoint D (cone (p ++ [i]))) :
    ∃ s', freePd n.addr s i = some s' ∧ Freed h₁ pml4 (D ∪ cone (p ++ [i])) s' := by
  have hf' := hf.look hn (by omega) hi
  rcases hf.entry_cases ho hn (by omega) hi hp hd with ⟨hpres, hc⟩ | ⟨hpres, hc⟩
  · refine ⟨_, ?_, hf'.skip hc⟩
    rw [FreeState.freePd, if_pos hpres]
  · obtain ⟨s', hr, hs'⟩ := hf'.table ho (f := FreeState.freePt _)
      (fun j hj D s hf hp hd => hf.freePt ho hc (by change n.level - 1 = 2; omega) hj hp hd)
      hc (by simp) hd
    refine ⟨s', ?_, hs'⟩
    rw [fanout_of_ne_nil hc (by simp)] at hr
    rw [FreeState.freePd, if_neg (not_not.2 hpres)]
    exact hr

/-- `pml4[i4] = 0;` after everything below the entry is freed. -/
theorem Freed.clear (ho : OwnTree h₁ pml4) (hf : Freed h₁ pml4 D s) (hi : i < 256) (hiD : [i] ∈ D) :
    Freed h₁ pml4 D (s.clear pml4 i) := by
  have hpml4 : pageOf pml4 ∉ s.heap.freePages := hf.not_free ho nodeAt_nil hf.root
  have hal := ho.space.root_aligned
  obtain ⟨hs', hfree⟩ := hf.sound.congr (s.heap.setEntry pml4 i 0) rfl rfl fun x hx =>
    setEntry_mem_of_pageOf_ne hal (by omega) fun he => hpml4 (he ▸ hx)
  have hkeep : ∀ j < 512, j ≠ i → (s.heap.setEntry pml4 i 0).entry pml4 j = s.heap.entry pml4 j :=
    fun j hj hne => load64_congr fun x hx =>
      setEntry_mem_of_not_within (not_within_entry_of_ne hj (by omega) hne hx)
  refine { hf with
    sound := hs'
    hhdm := hf.hhdm
    free := hfree.trans hf.free
    mem := fun x hx hx' => ?_
    top := fun j hj hjD => (hkeep j (by omega) ?_).trans (hf.top j hj hjD)
    kernel := fun j hj => (hkeep j hj.2 (by have := hj.1; omega)).trans (hf.kernel j hj) }
  · change pageOf x ∉ (s.heap.setEntry pml4 i 0).freePages at hx
    rw [hfree] at hx
    exact (setEntry_mem_of_pageOf_ne hal (by omega) hx').trans (hf.mem x hx hx')
  · rintro rfl
    exact hjD hiD

/-- An entry of the top table is freed with all below it, and cleared. -/
theorem Freed.freePdpt (ho : OwnTree h₁ pml4) (hi : i < 256) (hf : Freed h₁ pml4 D s)
    (hd : Disjoint D (cone [i])) :
    ∃ s', freePdpt pml4 s i = some s' ∧ Freed h₁ pml4 (D ∪ cone [i]) s' := by
  have hn : nodeAt h₁ pml4 [] = some (.root pml4) := nodeAt_nil
  have hf' := hf.look hn (Nat.succ_ne_zero 3) hi
  rcases hf.entry_cases ho hn (Nat.succ_ne_zero 3) hi hf.root hd with ⟨hpres, hc⟩ | ⟨hpres, hc⟩
  · refine ⟨_, ?_, hf'.skip hc⟩
    exact if_pos hpres
  · obtain ⟨s', hr, hs'⟩ := hf'.table ho (f := FreeState.freePd _)
      (fun j hj D s hf hp hd => hf.freePd ho hc rfl hj hp hd) hc (by simp) hd
    refine ⟨s'.clear pml4 i, ?_, hs'.clear ho hi (Or.inr List.prefix_rfl)⟩
    rw [fanout_of_ne_nil hc (by simp)] at hr
    obtain ⟨s₁, hr₁, hr₂⟩ := Option.bind_eq_some_iff.1 hr
    refine (if_neg (not_not.2 hpres)).trans (Option.bind_eq_some_iff.2 ⟨s₁, hr₁, ?_⟩)
    exact Option.map_eq_some_iff.2 ⟨s', hr₂, rfl⟩

/-- `free_user_pml4` on a tree without sharing. -/
theorem freeUserPml4_spec (ho : OwnTree h₁ pml4) :
    ∃ s, freeUserPml4 ⟨h₁, [], []⟩ pml4 = some s ∧ Freed h₁ pml4 {p | p ≠ []} s := by
  have hempty : pagesAt h₁ pml4 ∅ = ∅ := by
    ext k
    simp [pagesAt]
  have h0 : Freed h₁ pml4 ∅ ⟨h₁, [], []⟩ := ⟨ho.space.sound, rfl, Set.notMem_empty _,
    by rw [hempty, Set.union_empty], fun _ _ _ => rfl, fun _ _ _ => rfl, fun _ _ => rfl,
    fun v => by simp,
    List.nodup_nil, fun t i hi => absurd hi (by simp)⟩
  obtain ⟨s, hr, hs⟩ := Freed.loop (n := .root pml4) (p := []) (f := FreeState.freePdpt pml4)
    (fun i hi D s hf _ hd => hf.freePdpt ho hi hd) h0 (Set.notMem_empty _)
    fun i _ => Set.empty_disjoint _
  refine ⟨s, hr, hs.congr ?_ fun p hp hpD => ?_⟩
  · rintro p (h | ⟨i, -, h⟩) rfl
    · exact h
    · exact absurd h (by simp)
  · refine Option.eq_none_iff_forall_ne_some.2 fun m hm => hpD (Or.inr ?_)
    exact mem_below_of_nodeAt hm nodeAt_nil List.nil_prefix hp

end Walk

/-! ## Who owns the pages -/

/-- Since the heap was `h₀`, exactly the nodes of the tree and the pages `V` were taken from the
allocator, one page for each node. -/
structure Owning (h₀ h : Heap) (pml4 : U64) (V : Set ℕ) : Prop where
  own : OwnTree h pml4
  fresh : Disjoint V (spacePages h pml4)
  pages : h.freePages ∪ spacePages h pml4 ∪ V = h₀.freePages

section Owning

variable {h₀ h h' h₁ : Heap} {pml4 v e : U64} {V : Set ℕ} {q : List ℕ}

theorem NewSpace.ownTree (hn : NewSpace pml4 h₀ h) : OwnTree h pml4 := by
  refine ⟨hn.space, fun p q n n' hp hq _ => ?_, fun p n hp hl => ?_, fun p n hp => ?_⟩
  · rw [(hn.empty p n hp).1, (hn.empty q n' hq).1]
  · obtain ⟨-, rfl⟩ := hn.empty p n hp
    exact absurd hl (Nat.succ_ne_zero 3)
  · obtain ⟨-, rfl⟩ := hn.empty p n hp
    exact hn.ne_zero

/-- A new address space has one page. -/
theorem NewSpace.owning (hn : NewSpace pml4 h₀ h) : Owning h₀ h pml4 ∅ := by
  refine ⟨hn.ownTree, Set.empty_disjoint _, ?_⟩
  have hs : spacePages h pml4 = {pageOf pml4} := by
    ext k
    constructor
    · rintro ⟨p, n, hp, rfl⟩
      obtain ⟨-, rfl⟩ := hn.empty p n hp
      rfl
    · rintro rfl
      exact ⟨[], _, nodeAt_nil, rfl⟩
  rw [hs, hn.free, Set.sdiff_union_self, Set.union_empty]
  exact Set.union_eq_left.2 (Set.singleton_subset_iff.2 hn.mem_free)

/-- Another page is taken, and written. -/
theorem OwnTree.take (ho : OwnTree h pml4) (ht : TakesPage h h₁ v) (h' : Heap)
    (hl : h'.freeLists = h₁.freeLists) (hh : h'.hhdmOffset = h₁.hhdmOffset)
    (hm : ∀ x, pageOf x ≠ pageOf v → h'.mem x = h₁.mem x) : OwnTree h' pml4 := by
  obtain ⟨hsp, -, -, hnodes⟩ := ho.space.of_take ht h' hl hh hm
  refine ⟨hsp, fun p q n n' hp hq => ?_, fun p n hp => ?_, fun p n hp => ?_⟩
  · rw [hnodes] at hp hq
    exact ho.apart p q n n' hp hq
  · rw [hnodes] at hp
    exact ho.user p n hp
  · rw [hnodes] at hp
    exact ho.ne_zero p n hp

theorem Owning.take (ho : Owning h₀ h pml4 ∅) (ht : TakesPage h h₁ v) (h' : Heap)
    (hl : h'.freeLists = h₁.freeLists) (hh : h'.hhdmOffset = h₁.hhdmOffset)
    (hm : ∀ x, pageOf x ≠ pageOf v → h'.mem x = h₁.mem x) : Owning h₀ h' pml4 {pageOf v} := by
  obtain ⟨-, hfree, -, hnodes⟩ := ho.own.space.of_take ht h' hl hh hm
  have hs : spacePages h' pml4 = spacePages h pml4 := by
    simp only [spacePages, hnodes]
  refine ⟨ho.own.take ht h' hl hh hm, ?_, ?_⟩
  · rw [hs, Set.disjoint_singleton_left]
    exact fun hv => ho.own.space.not_free hv ht.mem_free
  · rw [hs, hfree, ← ho.pages, Set.union_empty, Set.union_right_comm, Set.sdiff_union_self,
      Set.union_eq_left.2 (Set.singleton_subset_iff.2 ht.mem_free)]

/-- What others do to the memory does not matter. -/
theorem OwnTree.undisturbed (ho : OwnTree h pml4) (hd : Undisturbed pml4 h h') :
    OwnTree h' pml4 := by
  refine ⟨hd.space ho.space, fun p q n' m' hn' hm' hk => ?_, fun p n' hn' hl => ?_,
    fun p n' hn' => ?_⟩
  · obtain ⟨n, hn, -, ha, -⟩ := hd.exists_old hn'
    obtain ⟨m, hm, -, hb, -⟩ := hd.exists_old hm'
    exact ho.apart p q n m hn hm (by rw [ha, hb, hk])
  · obtain ⟨n, hn, hln, -, he⟩ := hd.exists_old hn'
    exact he.user_iff.2 (ho.user p n hn (hln.trans hl))
  · obtain ⟨n, hn, -, ha, -⟩ := hd.exists_old hn'
    exact ha ▸ ho.ne_zero p n hn

theorem Undisturbed.spacePages_eq (hd : Undisturbed pml4 h h') :
    spacePages h' pml4 = spacePages h pml4 := by
  ext k
  constructor
  · rintro ⟨p, n', hn', rfl⟩
    obtain ⟨n, hn, -, ha, -⟩ := hd.exists_old hn'
    exact ⟨p, n, hn, by rw [ha]⟩
  · rintro ⟨p, n, hn, rfl⟩
    obtain ⟨n', hn', -, ha, -⟩ := hd.exists_new hn
    exact ⟨p, n', hn', by rw [ha]⟩

theorem Owning.undisturbed (ho : Owning h₀ h pml4 V) (hd : Undisturbed pml4 h h')
    (hfree : h'.freePages = h.freePages) : Owning h₀ h' pml4 V := by
  refine ⟨ho.own.undisturbed hd, ?_, ?_⟩
  · rw [hd.spacePages_eq]
    exact ho.fresh
  · rw [hd.spacePages_eq, hfree]
    exact ho.pages

/-- A page that is not in the tree is mapped. -/
theorem OwnTree.map (ho : OwnTree h pml4) (hx : Extends q pml4 h h')
    (hq : nodeAt h' pml4 q = some ⟨0, e, v⟩) (hu : User e) (h0 : v ≠ 0)
    (hv : pageOf v ∉ spacePages h pml4) : OwnTree h' pml4 := by
  have hcases : ∀ p n, nodeAt h' pml4 p = some n → n.level = 0 →
      nodeAt h pml4 p = some n ∨ p = q ∧ n = ⟨0, e, v⟩ := fun p n hn hl => by
    rcases hx.nodes p n hn with hn' | ⟨hl', -⟩ | ⟨-, rfl⟩
    · exact Or.inl hn'
    · exact absurd hl hl'
    · exact Or.inr ⟨rfl, Option.some.inj (hn.symm.trans hq)⟩
  have hvnot : ∀ p n, nodeAt h pml4 p = some n → pageOf n.addr ≠ pageOf v := fun p n hn he =>
    hv ⟨p, n, hn, he⟩
  refine ⟨hx.space, fun p p' n n' hn hn' hk => ?_, fun p n hn hl => ?_, fun p n hn => ?_⟩
  · rcases eq_or_ne n.level 0 with hl | hl
    · rcases eq_or_ne n'.level 0 with hl' | hl'
      · rcases hcases p n hn hl with hn | ⟨rfl, rfl⟩ <;>
          rcases hcases p' n' hn' hl' with hn' | ⟨rfl, rfl⟩
        · exact ho.apart p p' n n' hn hn' hk
        · exact absurd hk (hvnot p n hn)
        · exact absurd hk.symm (hvnot p' n' hn')
        · rfl
      · exact (hx.space.unique hn' hn hl' hk.symm).1.symm
    · exact (hx.space.unique hn hn' hl hk).1
  · rcases hcases p n hn hl with hn | ⟨-, rfl⟩
    · exact ho.user p n hn hl
    · exact hu
  · rcases hx.nodes p n hn with hn' | ⟨-, hf⟩ | ⟨-, rfl⟩
    · exact ho.ne_zero p n hn'
    · exact fun hz => ho.space.sound.zero_not_mem (by rw [hz] at hf; exact hf)
    · obtain rfl := Option.some.inj (hn.symm.trans hq)
      exact h0

/-- The page that was taken is mapped where nothing was. -/
theorem Owning.map (ho : Owning h₀ h pml4 {pageOf v}) (hx : Extends q pml4 h h')
    (ht : h.freePages ⊆ h'.freePages ∪ tablePages h' pml4)
    (hq : nodeAt h' pml4 q = some ⟨0, e, v⟩) (hu : User e) (h0 : v ≠ 0)
    (hnew : nodeAt h pml4 q = none) : Owning h₀ h' pml4 ∅ := by
  refine ⟨ho.own.map hx hq hu h0 (Set.disjoint_singleton_left.1 ho.fresh), Set.empty_disjoint _, ?_⟩
  rw [Set.union_empty, ← ho.pages]
  refine Set.Subset.antisymm (Set.union_subset ?_ ?_)
    (Set.union_subset (Set.union_subset ?_ ?_) ?_)
  · exact hx.free.trans (Set.subset_union_left.trans Set.subset_union_left)
  · rintro k ⟨p, n, hn, rfl⟩
    rcases hx.nodes p n hn with hn' | ⟨-, hf⟩ | ⟨-, rfl⟩
    · exact Or.inl (Or.inr ⟨p, n, hn', rfl⟩)
    · exact Or.inl (Or.inl hf)
    · obtain rfl := Option.some.inj (hq.symm.trans hn)
      exact Or.inr rfl
  · exact ht.trans (Set.union_subset_union_right _ tablePages_subset)
  · rintro k ⟨p, n, hn, hk⟩
    refine Or.inr ⟨p, n, hx.keeps p n ?_ hn, hk⟩
    rintro rfl
    exact absurd (hn.symm.trans hnew) (by simp)
  · rintro k rfl
    exact Or.inr ⟨q, _, hq, rfl⟩

end Owning

/-! ## Teardown gives back what was taken -/

/-- What `free_user_pml4` and `kfree(pml4, 1)` do to an address space whose pages were taken
since the heap was `h₀`. -/
structure ExactTeardown (h₀ h : Heap) (pml4 : U64) (s : FreeState) : Prop where
  nodup : s.freed.Nodup
  freed : ∀ v, v ∈ s.freed ↔ ∃ p n, nodeAt h pml4 p = some n ∧ n.addr = v
  taken : {k | ∃ v ∈ s.freed, PageAligned v ∧ pageOf v = k} = h₀.freePages \ h.freePages
  read : ∀ t i, (t, i) ∈ s.read → pageOf t ∈ tablePages h pml4 ∧ (t = pml4 → i < 256)
  sound : s.heap.Sound
  free : s.heap.freePages = h₀.freePages

/-- Tearing down an address space frees the pages of its tables and frames, each once. -/
theorem OwnTree.teardown {h : Heap} {pml4 : U64} (ho : OwnTree h pml4) :
    ∃ s, FreeState.teardown ⟨h, [], []⟩ pml4 = some s ∧ s.heap.Sound ∧
      s.heap.freePages = h.freePages ∪ spacePages h pml4 ∧
      h.AgreeOutside (h.freePages ∪ spacePages h pml4) s.heap ∧ s.freed.Nodup ∧
      (∀ v, v ∈ s.freed ↔ ∃ p n, nodeAt h pml4 p = some n ∧ n.addr = v) ∧
      ∀ t i, (t, i) ∈ s.read → pageOf t ∈ tablePages h pml4 ∧ (t = pml4 → i < 256) := by
  obtain ⟨s, hr, hf⟩ := freeUserPml4_spec ho
  have hroot : nodeAt h pml4 [] = some (.root pml4) := nodeAt_nil
  obtain ⟨h', hk, hs', hfree, hag⟩ := kfree_one hf.sound ho.space.root_aligned
    (ho.ne_zero [] _ hroot) (hf.not_free ho hroot hf.root)
  have hpages : pagesAt h pml4 {p | p ≠ []} ∪ {pageOf pml4} = spacePages h pml4 := by
    ext k
    constructor
    · rintro (⟨p, -, n, hn, hk⟩ | rfl)
      · exact ⟨p, n, hn, hk⟩
      · exact ⟨[], _, hroot, rfl⟩
    · rintro ⟨p, n, hn, hk⟩
      rcases eq_or_ne p [] with rfl | hp
      · obtain rfl := Option.some.inj (hroot.symm.trans hn)
        exact Or.inr hk.symm
      · exact Or.inl ⟨p, hp, n, hn, hk⟩
  have hall : s.heap.freePages ∪ {pageOf pml4} = h.freePages ∪ spacePages h pml4 := by
    rw [hf.free, Set.union_assoc, hpages]
  have hfreed : ∀ v, v ∈ pml4 :: s.freed ↔ ∃ p n, nodeAt h pml4 p = some n ∧ n.addr = v := by
    intro v
    rw [List.mem_cons, hf.freed]
    constructor
    · rintro (rfl | ⟨p, -, n, hn, hv⟩)
      · exact ⟨[], _, hroot, rfl⟩
      · exact ⟨p, n, hn, hv⟩
    · rintro ⟨p, n, hn, hv⟩
      rcases eq_or_ne p [] with rfl | hp
      · obtain rfl := Option.some.inj (hroot.symm.trans hn)
        exact Or.inl hv.symm
      · exact Or.inr ⟨p, hp, n, hn, hv⟩
  rw [hall] at hfree hag
  refine ⟨_, Option.bind_eq_some_iff.2 ⟨s, hr, Option.map_eq_some_iff.2 ⟨h', hk, rfl⟩⟩, hs', hfree,
    ⟨hag.hhdm.trans hf.hhdm, fun x hx => ?_⟩, List.nodup_cons.2 ⟨fun hv => ?_, hf.nodup⟩, hfreed,
    fun t i hi => ?_⟩
  · rw [← hall] at hx
    exact (hag.mem x (hall ▸ hx)).trans
      (hf.mem x (fun h => hx (Or.inl h)) fun h => hx (Or.inr h))
  · obtain ⟨p, hp, n, hn, he⟩ := (hf.freed _).1 hv
    exact hp (ho.apart p [] n _ hn hroot (congrArg pageOf he))
  · obtain ⟨p, n, hn, hl, hi', rfl⟩ := hf.read t i hi
    refine ⟨⟨p, n, hn, hl, rfl⟩, fun he => ?_⟩
    obtain rfl := ho.apart p [] n _ hn hroot (congrArg pageOf he)
    obtain rfl := Option.some.inj (hroot.symm.trans hn)
    exact hi'

theorem Owning.exactTeardown {h₀ h : Heap} {pml4 : U64} (ho : Owning h₀ h pml4 ∅) :
    ∃ s, FreeState.teardown ⟨h, [], []⟩ pml4 = some s ∧ ExactTeardown h₀ h pml4 s := by
  have ht := ho.own
  obtain ⟨s, hr, hs', hfree, -, hnodup, hfreed, hread⟩ := ht.teardown
  have hspace : spacePages h pml4 = h₀.freePages \ h.freePages := by
    rw [← ho.pages, Set.union_empty, Set.union_sdiff_left]
    exact (sdiff_eq_left.2 (Set.disjoint_left.2 fun k hk => ht.space.not_free hk)).symm
  refine ⟨s, hr, hnodup, hfreed, ?_, hread, hs', ?_⟩
  · rw [← hspace]
    ext k
    constructor
    · rintro ⟨v, hv, -, hk⟩
      obtain ⟨p, n, hn, rfl⟩ := (hfreed v).1 hv
      exact ⟨p, n, hn, hk⟩
    · rintro ⟨p, n, hn, hk⟩
      exact ⟨n.addr, (hfreed _).2 ⟨p, n, hn, rfl⟩, ht.space.aligned hn, hk⟩
  · rw [hfree, ← ho.pages, Set.union_empty]

/-! ## The address spaces of the kernel -/

/-- An address space to which `vas` were mapped one after the other : `create_user_pml4`, and for
each address a page from `kalloc(1)`, written by its owner, and `map_page_pml4` with `PTE_USER`.
No two addresses are in one page, and no `kalloc` fails. -/
inductive Filled (h₀ : Heap) (pml4 : U64) : Heap → List U64 → Prop
  | create {s : PagingState} {cr3 : U64} (sound : h₀.Sound)
      (run : PagingState.createUserPml4 ⟨h₀, true⟩ cr3 = some (s, pml4)) (ok : s.ok = true) :
      Filled h₀ pml4 s.heap []
  | map {h h' : Heap} {vas : List U64} {s s' : PagingState} {va page flags : U64}
      (filled : Filled h₀ pml4 h vas) (user : va.toNat < 2 ^ 47)
      (new : ∀ va' ∈ vas, pageOf va' ≠ pageOf va) (flagBits : FlagBits flags)
      (userFlag : User flags) (alloc : PagingState.kallocPage ⟨h, true⟩ = some (s, page))
      (und : Undisturbed pml4 s.heap h') (free : h'.freePages = s.heap.freePages)
      (run : PagingState.mapPagePml4 ⟨h', s.ok⟩ pml4 va (h'.virtToPhys page) flags = some s')
      (ok : s'.ok = true) : Filled h₀ pml4 s'.heap (va :: vas)
  | other {h h' : Heap} {vas : List U64} (filled : Filled h₀ pml4 h vas)
      (und : Undisturbed pml4 h h') (free : h'.freePages = h.freePages) : Filled h₀ pml4 h' vas

/-- An address space made of single pages, or as a copy of another one. -/
inductive Constructed (h₀ : Heap) (pml4 : U64) : Heap → Prop
  | filled {h : Heap} {vas : List U64} (filled : Filled h₀ pml4 h vas) : Constructed h₀ pml4 h
  | copied {s s' : PagingState} {cr3 oldPml4 : U64} (old : UserSpace h₀ oldPml4)
      (run : PagingState.createUserPml4 ⟨h₀, true⟩ cr3 = some (s, pml4))
      (copy : PagingState.copyUserPml4 s pml4 oldPml4 = some s') (ok : s'.ok = true) :
      Constructed h₀ pml4 s'.heap
  | other {h h' : Heap} (made : Constructed h₀ pml4 h) (und : Undisturbed pml4 h h')
      (free : h'.freePages = h.freePages) : Constructed h₀ pml4 h'

section Constructed

variable {h₀ h h' : Heap} {pml4 va va' : U64} {vas : List U64}

/-- The indices of an address below `2 ^ 48` determine its page. -/
theorem pageOf_eq_of_vaPath_eq (hva : va.toNat < 2 ^ 48) (hva' : va'.toNat < 2 ^ 48)
    (h : vaPath va = vaPath va') : pageOf va = pageOf va' := by
  simp only [vaPath, pml4Index, pdptIndex, pdIndex, ptIndex, index_toNat, List.cons.injEq,
    and_true] at h
  unfold pageOf
  omega

theorem pml4Index_lt (hva : va.toNat < 2 ^ 47) : pml4Index va < 256 := by
  rw [pml4Index, index_toNat]
  omega

/-- The frames of such an address space are at the addresses mapped. -/
theorem Filled.owning (hf : Filled h₀ pml4 h vas) : Owning h₀ h pml4 ∅ ∧
    (∀ va ∈ vas, va.toNat < 2 ^ 47) ∧
    ∀ q n, nodeAt h pml4 q = some n → n.level = 0 → ∃ va ∈ vas, vaPath va = q := by
  induction hf with
  | create sound run ok =>
    have hn := PagingState.createUserPml4_spec (s := ⟨h₀, true⟩) sound run ok
    refine ⟨hn.owning, by simp, fun q n hq hl => ?_⟩
    obtain ⟨-, rfl⟩ := hn.empty q n hq
    exact absurd hl (Nat.succ_ne_zero 3)
  | @map h h' vas s s' va page flags filled user new flagBits userFlag alloc und free run ok ih =>
    obtain ⟨ho, hlt, hleaf⟩ := ih
    have hok := PagingState.mapPagePml4_mono run ok
    obtain ⟨-, -, ht⟩ := PagingState.kallocPage_spec ho.own.space.sound alloc hok
    have ho₁ := (ho.take ht s.heap rfl rfl fun _ _ => rfl).undisturbed und free
    have hpa : h'.pteAddr (h'.virtToPhys page) = page :=
      pteAddr_virtToPhys ho₁.own.space.sound.hhdm ht.aligned
    have hnf : pageOf page ∉ h'.freePages := by
      rw [free, ht.free]
      exact fun hx => hx.2 rfl
    have hnt : pageOf page ∉ tablePages h' pml4 := fun hx =>
      Set.disjoint_left.1 ho₁.fresh rfl (tablePages_subset hx)
    obtain ⟨hx, -, htaken, hq⟩ := PagingState.mapPagePml4_effect (s := ⟨h', s.ok⟩) ho₁.own.space
      (pml4Index_lt user) flagBits (by rw [hpa]; exact hnf) (by rw [hpa]; exact hnt) run ok
    rw [hpa] at hq
    have hleaf₁ : ∀ q n, nodeAt h' pml4 q = some n → n.level = 0 → ∃ va ∈ vas, vaPath va = q := by
      intro q n' hn' hl
      obtain ⟨n, hn, hln, -⟩ := und.exists_old hn'
      obtain ⟨-, -, -, hnodes⟩ := ho.own.space.of_take ht s.heap rfl rfl fun _ _ => rfl
      exact hleaf q n ((hnodes q).symm.trans hn) (hln.trans hl)
    have hu : User (h'.virtToPhys page &&& pageFrameMask ||| flags ||| ptePresent) := by
      rw [BitVec.or_assoc]
      refine and_bit_ne_zero_of_or ?_
      rw [BitVec.or_comm]
      exact and_bit_ne_zero_of_or userFlag
    refine ⟨ho₁.map hx htaken hq hu ht.ne_zero ?_, ?_, fun q n hn hl => ?_⟩
    · -- Nothing is mapped there, since no earlier address is in the same page.
      refine Option.eq_none_iff_forall_ne_some.2 fun n hn => ?_
      obtain ⟨va', hva', he⟩ := hleaf₁ _ n hn (nodeAt_vaPath_level hn)
      have := hlt va' hva'
      exact new va' hva' (pageOf_eq_of_vaPath_eq (by omega) (by omega) he)
    · rw [List.forall_mem_cons]
      exact ⟨user, hlt⟩
    · rcases hx.nodes q n hn with hn | ⟨hl', -⟩ | ⟨-, rfl⟩
      · obtain ⟨va', hva', he⟩ := hleaf₁ q n hn hl
        exact ⟨va', List.mem_cons_of_mem _ hva', he⟩
      · exact absurd hl hl'
      · exact ⟨va, List.mem_cons_self, rfl⟩
  | other filled und free ih =>
    obtain ⟨ho, hlt, hleaf⟩ := ih
    refine ⟨ho.undisturbed und free, hlt, fun q n' hn' hl => ?_⟩
    obtain ⟨n, hn, hln, -⟩ := und.exists_old hn'
    exact hleaf q n hn (hln.trans hl)

open PagingState

/-- While every `kalloc` succeeds, the copy owns the pages it takes. -/
theorem copyInvariant_owning (h₀ : Heap) {h₁ : Heap} {oldPml4 : U64} (hs : CopySource h₁ pml4 oldPml4) :
    CopyInvariant h₁ pml4 oldPml4 fun D s =>
      s.ok = true → Copying h₁ pml4 oldPml4 D s.heap ∧ Owning h₀ s.heap pml4 ∅ where
  failed _ _ h' hok := absurd hok (by simp [h'])
  hhdm hc hok := (hc hok).1.agree.hhdm
  tables hc hok _ _ hn _ _ hi := (hc hok).1.entry_old hs hn hi
  skip hc hD hno hok :=
    ⟨(copyInvariant_copying hs).skip (fun hok => (hc hok).1) hD hno hok, (hc hok).2⟩
  page := by
    intro D s s' i4 i3 i2 i1 n hc hn h4 h3 h2 h1 hD hleaf hr hok
    obtain ⟨hc, ho⟩ := hc (copyPage_mono hr hok)
    refine ⟨(hc.page_step hs hn h4 h3 h2 h1 hleaf hr hok).1, ?_⟩
    obtain ⟨h', v, e, ht, hx, -, htaken, hq, he⟩ := hc.copyPage_maps hs hn h4 h3 h2 h1 hleaf hr hok
    obtain ⟨-, -, -, hu, -⟩ := UserLeaf.entry (q := [i4, i3, i2]) hleaf hn
    have ho' := ho.take ht (h'.copyPage v (h₁.pteAddr (h₁.entry n.addr i1))) rfl rfl
      fun _ hx => copyPage_mem_of_pageOf_ne ht.aligned hx
    obtain ⟨-, -, -, hnodes⟩ := hc.space.of_take ht
      (h'.copyPage v (h₁.pteAddr (h₁.entry n.addr i1))) rfl rfl
      fun _ hx => copyPage_mem_of_pageOf_ne ht.aligned hx
    refine ho'.map hx htaken hq ((user_iff_flags e).2 (he ▸ (user_iff_flags _).1 hu)) ht.ne_zero ?_
    refine Option.eq_none_iff_forall_ne_some.2 fun m hm => hD ?_
    rw [hnodes] at hm
    have hl := nodeAt_level hm
    exact (hc.only _ m hm (by simpa using hl)).1

theorem Constructed.owning (hc : Constructed h₀ pml4 h) : Owning h₀ h pml4 ∅ := by
  induction hc with
  | filled hf => exact hf.owning.1
  | @copied s s' cr3 oldPml4 old run copy ok =>
    have hok := foldlM_mono (fun _ _ _ => copyPdpt_mono) copy ok
    have hn := createUserPml4_spec (s := ⟨h₀, true⟩) old.sound run hok
    exact (copyUserPml4_induction (copyInvariant_owning h₀ (hn.copySource old).1)
      (fun _ => ⟨hn.copying, hn.owning⟩) copy ok).2
  | other _ und free ih => exact ih.undisturbed und free

/-- Tearing down an address space the kernel made frees each of its pages once and nothing
else, and the allocator has the pages back it had before `create_user_pml4`. -/
theorem teardown_exact (hc : Constructed h₀ pml4 h) :
    ∃ s, FreeState.teardown ⟨h, [], []⟩ pml4 = some s ∧ ExactTeardown h₀ h pml4 s :=
  hc.owning.exactTeardown

/-- An address space with one page at `0x400000`. -/
theorem exists_filled_boot : ∃ h₀ pml4 h, Filled h₀ pml4 h [0x400000] := by
  have hne : ∀ {h : Heap}, 1 ≤ h.freePages.ncard → h.freePages.Nonempty := fun hc =>
    Set.nonempty_of_ncard_ne_zero (by omega)
  -- `create_user_pml4`
  obtain ⟨h₀, -, hs₀, hc₀⟩ := exists_boot_heap
  obtain ⟨⟨s₁, pml4⟩, hr₁⟩ := exists_createUserPml4 ⟨h₀, true⟩ 0
  have hok₁ := createUserPml4_ok (s := ⟨h₀, true⟩) hs₀ hr₁ rfl
    (hne (show 1 ≤ h₀.freePages.ncard by omega))
  have hn := createUserPml4_spec (s := ⟨h₀, true⟩) hs₀ hr₁ hok₁
  have hc₁ := Set.ncard_sdiff_singleton_of_mem hn.mem_free
  rw [← hn.free] at hc₁
  change s₁.heap.freePages.ncard = h₀.freePages.ncard - 1 at hc₁
  have hf₁ : Filled h₀ pml4 s₁.heap [] := .create hs₀ hr₁ hok₁
  -- `kalloc(1)`
  obtain ⟨⟨s₂, v⟩, hr₂⟩ := exists_kallocPage ⟨s₁.heap, true⟩
  have hok₂ := kallocPage_ok (s := ⟨s₁.heap, true⟩) hn.space.sound hr₂ rfl
    (hne (show 1 ≤ s₁.heap.freePages.ncard by omega))
  obtain ⟨-, -, ht⟩ := kallocPage_spec (s := ⟨s₁.heap, true⟩) hn.space.sound hr₂ hok₂
  have hc₂ := Set.ncard_sdiff_singleton_of_mem ht.mem_free
  rw [← ht.free] at hc₂
  change s₂.heap.freePages.ncard = s₁.heap.freePages.ncard - 1 at hc₂
  have ho₂ := hn.owning.take ht s₂.heap rfl rfl fun _ _ => rfl
  -- `map_page_pml4`
  obtain ⟨s₃, hr₃⟩ := exists_mapPagePml4 s₂ pml4 0x400000 (s₂.heap.virtToPhys v)
    (pteUser ||| pteWrite)
  have hok₃ := mapPagePml4_ok ho₂.own.space (by decide) hr₃ hok₂ (by omega)
  refine ⟨h₀, pml4, s₃.heap, .map hf₁ (by decide) (by simp) (by decide) (by decide) hr₂
    ⟨ho₂.own.space.sound, rfl, fun _ _ _ _ _ _ => rfl, fun k hk => ho₂.own.space.not_free hk⟩ rfl hr₃ hok₃⟩

theorem teardown_exact_boot : ∃ h₀ pml4 h s, Filled h₀ pml4 h [0x400000] ∧
    FreeState.teardown ⟨h, [], []⟩ pml4 = some s ∧ ExactTeardown h₀ h pml4 s := by
  obtain ⟨h₀, pml4, h, hf⟩ := exists_filled_boot
  obtain ⟨s, hr, hs⟩ := teardown_exact (.filled hf)
  exact ⟨h₀, pml4, h, s, hf, hr, hs⟩

end Constructed

end Jeos
