import Mathlib.Data.Set.Card
import Mathlib.Tactic.Ring
import Jeos.BuddySpec
import Jeos.Lib.WordMemory
import Jeos.Paging

/-!
# The page tables as a tree
-/

namespace Jeos

open ByteMemory DyadicBlock TreeWalk

/-! ## Entries -/

theorem and_pageFrameMask_of_aligned {a : U64} (h : PageAligned a) : a &&& pageFrameMask = a :=
  BitVec.eq_of_toNat_eq (by rw [and_pageFrameMask_toNat, h.toNat_eq])

theorem pageAligned_and (a : U64) : PageAligned (a &&& pageFrameMask) := by
  rw [PageAligned, and_pageFrameMask_toNat]
  exact Nat.dvd_mul_left _ _

theorem PageAligned.add {a b : U64} (ha : PageAligned a) (hb : PageAligned b) :
    PageAligned (a + b) := by
  unfold PageAligned at *
  rw [BitVec.toNat_add]
  omega

theorem PageAligned.sub {a b : U64} (ha : PageAligned a) (hb : PageAligned b) :
    PageAligned (a - b) := by
  unfold PageAligned at *
  rw [BitVec.toNat_sub]
  omega

/-- The low twelve bits of an entry. -/
def pteFlags (e : U64) : U64 := e &&& ~~~pageFrameMask

/-- Only the low twelve bits are set. -/
def FlagBits (f : U64) : Prop := f &&& pageFrameMask = 0

instance (f : U64) : Decidable (FlagBits f) := inferInstanceAs (Decidable (_ = _))

theorem flagBits_pteFlags (e : U64) : FlagBits (pteFlags e) := by
  rw [FlagBits, pteFlags, BitVec.and_assoc, show ~~~pageFrameMask &&& pageFrameMask = 0 by decide]
  exact BitVec.and_zero

theorem FlagBits.or {f g : U64} (hf : FlagBits f) (hg : FlagBits g) : FlagBits (f ||| g) := by
  rw [FlagBits, BitVec.and_comm, BitVec.and_or_distrib_left, BitVec.and_comm, hf, BitVec.and_comm,
    hg]
  rfl

theorem FlagBits.and {f : U64} (hf : FlagBits f) (g : U64) : FlagBits (f &&& g) := by
  rw [FlagBits, BitVec.and_assoc, BitVec.and_comm g, ← BitVec.and_assoc, hf]
  exact BitVec.zero_and

/-- The frame of an entry. -/
theorem or_and_pageFrameMask {p f : U64} (hp : PageAligned p) (hf : FlagBits f) :
    (p ||| f) &&& pageFrameMask = p := by
  rw [BitVec.and_comm, BitVec.and_or_distrib_left, BitVec.and_comm _ f, hf, BitVec.and_comm,
    and_pageFrameMask_of_aligned hp]
  exact BitVec.or_zero

/-- The flags of an entry. -/
theorem pteFlags_or {p f : U64} (hp : PageAligned p) (hf : FlagBits f) :
    pteFlags (p ||| f) = f := by
  have hp' := and_pageFrameMask_of_aligned hp
  unfold pteFlags
  unfold FlagBits at hf
  ext i hi
  have hpi := congrArg (fun x : U64 => x[i]) hp'
  have hfi := congrArg (fun x : U64 => x[i]) hf
  simp only [BitVec.getElem_and, BitVec.ofNat_eq_ofNat, BitVec.getElem_zero] at hpi hfi
  simp only [BitVec.getElem_and, BitVec.getElem_or, BitVec.getElem_not]
  cases hm : pageFrameMask[i] <;> simp_all

theorem present_iff_flags (e : U64) : Present e ↔ Present (pteFlags e) := by
  rw [Present, Present, pteFlags, BitVec.and_assoc,
    show ~~~pageFrameMask &&& ptePresent = ptePresent by decide]

theorem user_iff_flags (e : U64) : User e ↔ User (pteFlags e) := by
  rw [User, User, pteFlags, BitVec.and_assoc, show ~~~pageFrameMask &&& pteUser = pteUser by decide]

theorem and_bit_ne_zero_of_or {e f b : U64} (h : f &&& b ≠ 0) : (e ||| f) &&& b ≠ 0 := by
  intro h0
  rw [BitVec.and_comm, BitVec.and_or_distrib_left, BitVec.and_comm b f] at h0
  exact h (BitVec.or_eq_zero_iff.1 h0).2

theorem present_or (e : U64) : Present (e ||| ptePresent) :=
  and_bit_ne_zero_of_or (by decide)

/-- Clearing the present bit and setting it again. -/
theorem pteFlags_restore {e : U64} (h : Present e) :
    pteFlags e &&& ~~~ptePresent ||| ptePresent = pteFlags e := by
  have h' := (present_iff_flags e).1 h
  generalize pteFlags e = f at h'
  have hbit : ∀ i (hi : i < 64), ptePresent[i] = decide (i = 0) := fun i hi => BitVec.getElem_one hi
  have h0 : f[0] = true := by
    by_contra hf
    refine h' (BitVec.eq_of_getElem_eq fun i hi => ?_)
    rw [BitVec.getElem_and, hbit]
    cases i <;> simp_all
  ext i hi
  rw [BitVec.getElem_or, BitVec.getElem_and, BitVec.getElem_not, hbit]
  cases i <;> simp_all

/-! ## Pages and the words in them -/

theorem within_page_iff {x a : U64} (ha : PageAligned a) :
    Within x a 4096 ↔ pageOf x = pageOf a := by
  have h1 := ha.toNat_eq
  have h2 := a.isLt
  rw [within_iff (by omega)]
  unfold pageOf at *
  omega

theorem within_page_of_within_entry {x t : U64} {i : ℕ} (hi : i < 512)
    (hx : Within x (entryAddr t i) 8) : Within x t 4096 :=
  hx.of_add (by omega) (by norm_num)

theorem pageOf_of_within_entry {x t : U64} {i : ℕ} (ht : PageAligned t) (hi : i < 512)
    (hx : Within x (entryAddr t i) 8) : pageOf x = pageOf t :=
  (within_page_iff ht).1 (within_page_of_within_entry hi hx)

/-- The entries of a table only depend on its page. -/
theorem entry_congr {h h' : Heap} {t : U64} {i : ℕ} (ht : PageAligned t) (hi : i < 512)
    (hm : ∀ x, pageOf x = pageOf t → h'.mem x = h.mem x) : h'.entry t i = h.entry t i :=
  load64_congr fun x hx => hm x (pageOf_of_within_entry ht hi hx)

theorem entry_setEntry_self (h : Heap) (t : U64) (i : ℕ) (e : U64) :
    (h.setEntry t i e).entry t i = e :=
  load64_store64_self (by norm_num) _ _ _

theorem setEntry_mem_of_not_within {h : Heap} {t e x : U64} {i : ℕ}
    (hx : ¬Within x (entryAddr t i) 8) : (h.setEntry t i e).mem x = h.mem x :=
  store64_of_not_within hx

theorem setEntry_mem_of_pageOf_ne {h : Heap} {t e x : U64} {i : ℕ} (ht : PageAligned t)
    (hi : i < 512) (hx : pageOf x ≠ pageOf t) : (h.setEntry t i e).mem x = h.mem x :=
  setEntry_mem_of_not_within fun hw => hx (pageOf_of_within_entry ht hi hw)

theorem not_within_entry_of_ne {x t : U64} {i j : ℕ} (hi : i < 512) (hj : j < 512) (hij : i ≠ j)
    (hx : Within x (entryAddr t i) 8) : ¬Within x (entryAddr t j) 8 :=
  apart_add t (by omega) (by omega) (by omega) x hx

theorem zeroPage_mem_of_pageOf_ne {h : Heap} {p x : U64} (hp : PageAligned p)
    (hx : pageOf x ≠ pageOf p) : (h.zeroPage p).mem x = h.mem x :=
  fill_of_not_within fun hw => hx ((within_page_iff hp).1 hw)

theorem entry_zeroPage (h : Heap) (p : U64) {i : ℕ} (hi : i < 512) : (h.zeroPage p).entry p i = 0 :=
  load64_fill_zero (by omega) (by norm_num)

theorem pageOf_add {a : U64} (ha : PageAligned a) {i : ℕ} (hi : i < 4096) :
    pageOf (a + BitVec.ofNat 64 i) = pageOf a :=
  (within_page_iff ha).1 (within_add a hi (by norm_num))

theorem copyPage_mem_of_pageOf_ne {h : Heap} {v a x : U64} (hv : PageAligned v)
    (hx : pageOf x ≠ pageOf v) : (h.copyPage v a).mem x = h.mem x := by
  simp only [Heap.copyPage]
  refine copy_of_not_within (by norm_num) ?_
  exact fun hw => hx ((within_page_iff hv).1 hw)

theorem copyPage_mem_add {h : Heap} {v a : U64} (hv : PageAligned v) (ha : PageAligned a)
    (hne : pageOf v ≠ pageOf a) {i : ℕ} (hi : i < 4096) :
    (h.copyPage v a).mem (v + BitVec.ofNat 64 i) = h.mem (a + BitVec.ofNat 64 i) := by
  simp only [Heap.copyPage]
  refine copy_add (by norm_num) ?_ hi
  exact fun _ hxv hxa => hne (((within_page_iff hv).1 hxv).symm.trans ((within_page_iff ha).1 hxa))

/-- The entry that points to the page `v`. -/
theorem pteAddr_or {h : Heap} {v f : U64} (hh : PageAligned h.hhdmOffset) (hv : PageAligned v)
    (hf : FlagBits f) : h.pteAddr (h.virtToPhys v ||| f) = v := by
  rw [Heap.pteAddr, Heap.virtToPhys, or_and_pageFrameMask (hv.sub hh) hf, Heap.physToVirt,
    BitVec.sub_add_cancel]

theorem pteAddr_virtToPhys {h : Heap} {v : U64} (hh : PageAligned h.hhdmOffset)
    (hv : PageAligned v) : h.pteAddr (h.virtToPhys v) = v := by
  rw [Heap.pteAddr, Heap.virtToPhys, and_pageFrameMask_of_aligned (hv.sub hh), Heap.physToVirt,
    BitVec.sub_add_cancel]

theorem pageAligned_pteAddr {h : Heap} (hh : PageAligned h.hhdmOffset) (e : U64) :
    PageAligned (h.pteAddr e) :=
  (pageAligned_and e).add hh

theorem pteAddr_congr {h h' : Heap} (hh : h'.hhdmOffset = h.hhdmOffset) (e : U64) :
    h'.pteAddr e = h.pteAddr e := by
  rw [Heap.pteAddr, Heap.pteAddr, Heap.physToVirt, Heap.physToVirt, hh]

/-! ## One page of the allocator -/

/-- The pages on the free lists. -/
def Heap.freePages (h : Heap) : Set ℕ := {k | ∃ L, FreeLists h L ∧ k ∈ cover (blocks L)}

/-- The free lists are intact, and the direct map keeps pages. -/
structure Heap.Sound (h : Heap) : Prop where
  lists : ∃ L, FreeLists h L
  hhdm : PageAligned h.hhdmOffset

theorem FreeLists.freePages_eq {h : Heap} {L : ℕ → List U64} (hL : FreeLists h L) :
    h.freePages = cover (blocks L) := by
  ext k
  refine ⟨?_, fun hk => ⟨L, hL, hk⟩⟩
  rintro ⟨L', hL', hk⟩
  obtain ⟨b, ⟨hb, a, ha, he⟩, hkb⟩ := mem_cover.1 hk
  exact mem_cover.2 ⟨b, ⟨hb, a, (hL'.chain _ hb).eq (hL.chain _ hb) ▸ ha, he⟩, hkb⟩

/-- A change outside the free pages leaves the free lists. -/
theorem Heap.Sound.congr {h : Heap} (hs : h.Sound) (h' : Heap) (hl : h'.freeLists = h.freeLists)
    (hh : h'.hhdmOffset = h.hhdmOffset) (hm : ∀ x, pageOf x ∈ h.freePages → h'.mem x = h.mem x) :
    h'.Sound ∧ h'.freePages = h.freePages := by
  obtain ⟨L, hL⟩ := hs.lists
  rw [hL.freePages_eq] at hm ⊢
  have hL' := hL.congr hl hm
  exact ⟨⟨⟨L, hL'⟩, hh ▸ hs.hhdm⟩, hL'.freePages_eq⟩

theorem pages_blockAt_zero (a : U64) : (blockAt 0 a).pages = {pageOf a} := by
  ext k
  simp [mem_pages, blockAt]

/-- What a successful `kalloc(1)` does : the page `v` was free and no longer is. -/
structure TakesPage (h h' : Heap) (v : U64) : Prop where
  ne_zero : v ≠ 0
  aligned : PageAligned v
  mem_free : pageOf v ∈ h.freePages
  sound : h'.Sound
  free : h'.freePages = h.freePages \ {pageOf v}
  agree : h.AgreeOutside h.freePages h'

theorem kalloc_one {h : Heap} (hs : h.Sound) :
    (kalloc h 1 = some (h, 0) ∧ h.freePages = ∅) ∨
      ∃ h' v, kalloc h 1 = some (h', v) ∧ TakesPage h h' v := by
  obtain ⟨L, hL⟩ := hs.lists
  rcases kalloc_spec hL (show (1 : U64) ≠ 0 by decide) (show orderFor 1 = some 0 by decide)
      (by omega) with
    ⟨hk, hnil⟩ | ⟨h', L', v, hk, hv, hal, hL', hd, hcov, hag⟩
  · refine Or.inl ⟨hk, ?_⟩
    rw [hL.freePages_eq]
    refine Set.eq_empty_of_forall_notMem fun k hmem => ?_
    obtain ⟨b, ⟨hb, a, ha, -⟩, -⟩ := mem_cover.1 hmem
    rw [hnil _ (Nat.zero_le _) hb] at ha
    exact absurd ha List.not_mem_nil
  · rw [pages_blockAt_zero] at hd hcov
    refine Or.inr ⟨h', v, hk, hv, hal.pageAligned, ?_, ⟨⟨L', hL'⟩, hag.hhdm ▸ hs.hhdm⟩, ?_, ?_⟩
    · rw [hL.freePages_eq, ← hcov]
      exact Or.inr rfl
    · rw [hL'.freePages_eq, hL.freePages_eq, ← hcov, Set.union_sdiff_right,
        (Set.disjoint_singleton_left.1 hd |> Set.sdiff_singleton_eq_self)]
    · rwa [hL.freePages_eq]

namespace PagingState

variable {s s' : PagingState} {v : U64}

theorem exists_kallocPage (s : PagingState) : ∃ r, s.kallocPage = some r := by
  have ho : orderFor 1 = some 0 := by decide
  refine Option.isSome_iff_exists.1 ?_
  rw [kallocPage, Option.isSome_map, kalloc, if_neg (by decide), Option.isSome_map, ho]
  rfl

theorem kallocPage_spec (hs : s.heap.Sound) (hr : s.kallocPage = some (s', v))
    (hok : s'.ok = true) : s.ok = true ∧ v ≠ 0 ∧ TakesPage s.heap s'.heap v := by
  obtain ⟨⟨h, w⟩, hk, he⟩ := Option.map_eq_some_iff.1 hr
  obtain ⟨rfl, rfl⟩ := Prod.mk.inj he
  simp only [Bool.and_eq_true, decide_eq_true_eq] at hok
  rcases kalloc_one hs with ⟨hk', -⟩ | ⟨h', v', hk', ht⟩
  · obtain ⟨-, rfl⟩ := Prod.mk.inj (Option.some.inj (hk.symm.trans hk'))
    exact absurd rfl hok.2
  · obtain ⟨rfl, rfl⟩ := Prod.mk.inj (Option.some.inj (hk.symm.trans hk'))
    exact ⟨hok.1, hok.2, ht⟩

/-- `kalloc(1)` only fails when no page is free. -/
theorem kallocPage_ok (hs : s.heap.Sound) (hr : s.kallocPage = some (s', v)) (hok : s.ok = true)
    (hf : s.heap.freePages.Nonempty) : s'.ok = true := by
  obtain ⟨⟨h, w⟩, hk, he⟩ := Option.map_eq_some_iff.1 hr
  obtain ⟨rfl, rfl⟩ := Prod.mk.inj he
  rcases kalloc_one hs with ⟨-, hf'⟩ | ⟨h', v', hk', ht⟩
  · exact absurd hf' hf.ne_empty
  · obtain ⟨rfl, rfl⟩ := Prod.mk.inj (Option.some.inj (hk.symm.trans hk'))
    exact Bool.and_eq_true_iff.2 ⟨hok, decide_eq_true ht.ne_zero⟩

end PagingState

/-! ## The tree of an address space -/

section Tree

variable {h h' : Heap} {pml4 : U64} {n n' n₀ n₁ : Node} {p p₀ q : List ℕ} {i i₀ : ℕ}

theorem Node.fanout_le (n : Node) : n.fanout ≤ 512 := by
  unfold fanout
  split <;> omega

theorem child_eq_some : child h n i = some n' ↔ n.level ≠ 0 ∧ i < n.fanout ∧
    Present (h.entry n.addr i) ∧
      n' = ⟨n.level - 1, h.entry n.addr i, h.pteAddr (h.entry n.addr i)⟩ := by
  unfold child
  split
  case isTrue hc => simp [hc.1, hc.2.1, hc.2.2, eq_comm]
  case isFalse hc => simp only [reduceCtorEq, false_iff]; tauto

theorem child_congr (hh : h'.hhdmOffset = h.hhdmOffset)
    (he : n.level ≠ 0 → i < n.fanout → h'.entry n.addr i = h.entry n.addr i) :
    child h' n i = child h n i := by
  unfold child
  by_cases hc : n.level ≠ 0 ∧ i < n.fanout
  · rw [he hc.1 hc.2, pteAddr_congr hh]
  · rw [if_neg fun hc' => hc ⟨hc'.1, hc'.2.1⟩, if_neg fun hc' => hc ⟨hc'.1, hc'.2.1⟩]

theorem nodeAt_nil : nodeAt h pml4 [] = some (.root pml4) := rfl

theorem nodeAt_level (hn : nodeAt h pml4 p = some n) : n.level + p.length = 4 :=
  walk_induction (P := fun p n => n.level + p.length = 4) rfl (fun p n i n' _ hl hc => by
    obtain ⟨hl', -, -, rfl⟩ := child_eq_some.1 hc
    rw [List.length_append, List.length_singleton]
    change n.level - 1 + _ = 4
    omega) hn

/-- Nothing is below a frame. -/
theorem nodeAt_append_of_level_zero (hn : nodeAt h pml4 p = some n) (hl : n.level = 0)
    (hq : q ≠ []) : nodeAt h pml4 (p ++ q) = none := by
  cases hx : nodeAt h pml4 (p ++ q) with
  | none => rfl
  | some n' =>
    have h1 := nodeAt_level hn
    have h2 := nodeAt_level hx
    have h3 := List.length_pos_iff.2 hq
    rw [List.length_append] at h2
    omega

theorem aligned_of_nodeAt (hh : PageAligned h.hhdmOffset) (hr : PageAligned pml4)
    (hn : nodeAt h pml4 p = some n) : PageAligned n.addr := by
  refine walk_induction (P := fun _ n => PageAligned n.addr) hr (fun p n i n' _ _ hc => ?_) hn
  obtain ⟨-, -, -, rfl⟩ := child_eq_some.1 hc
  exact pageAligned_pteAddr hh _

/-- The tables of the user half are not free, and each is on one path only. The frames may be any
pages. -/
structure TableTree (h : Heap) (pml4 : U64) : Prop where
  sound : h.Sound
  root_aligned : PageAligned pml4
  held : ∀ p n, nodeAt h pml4 p = some n → n.level ≠ 0 → pageOf n.addr ∉ h.freePages
  unshared : ∀ p q n n', nodeAt h pml4 p = some n → nodeAt h pml4 q = some n' → n.level ≠ 0 →
    n'.level ≠ 0 → n.addr = n'.addr → p = q

theorem TableTree.aligned (hu : TableTree h pml4) (hn : nodeAt h pml4 p = some n) :
    PageAligned n.addr :=
  aligned_of_nodeAt hu.sound.hhdm hu.root_aligned hn

theorem TableTree.unique (hu : TableTree h pml4) (hn : nodeAt h pml4 p = some n)
    (hn' : nodeAt h pml4 q = some n') (hl : n.level ≠ 0) (hl' : n'.level ≠ 0)
    (hp : pageOf n.addr = pageOf n'.addr) : p = q ∧ n = n' := by
  have he := eq_of_pageOf_eq (hu.aligned hn) (hu.aligned hn') hp
  obtain rfl := hu.unshared p q n n' hn hn' hl hl' he
  exact ⟨rfl, Option.some.inj (hn.symm.trans hn')⟩

theorem TableTree.not_free (hu : TableTree h pml4) {k : ℕ} (hk : k ∈ tablePages h pml4) :
    k ∉ h.freePages := by
  obtain ⟨p, n, hn, hl, rfl⟩ := hk
  exact hu.held p n hn hl

/-- The user half of an address space : tables and frames are not free, a table is on one
path only and is not a frame as well, and its entries let user accesses through. -/
structure UserSpace (h : Heap) (pml4 : U64) : Prop where
  sound : h.Sound
  root_aligned : PageAligned pml4
  held : ∀ p n, nodeAt h pml4 p = some n → pageOf n.addr ∉ h.freePages
  unshared : ∀ p q n n', nodeAt h pml4 p = some n → nodeAt h pml4 q = some n' → n.level ≠ 0 →
    n.addr = n'.addr → p = q
  user : ∀ p n, nodeAt h pml4 p = some n → p ≠ [] → n.level ≠ 0 → User n.pte

theorem UserSpace.tables (hu : UserSpace h pml4) : TableTree h pml4 :=
  ⟨hu.sound, hu.root_aligned, fun p n hn _ => hu.held p n hn,
    fun p q n n' hn hn' hl _ => hu.unshared p q n n' hn hn' hl⟩

theorem UserSpace.aligned (hu : UserSpace h pml4) (hn : nodeAt h pml4 p = some n) :
    PageAligned n.addr :=
  aligned_of_nodeAt hu.sound.hhdm hu.root_aligned hn

theorem UserSpace.unique (hu : UserSpace h pml4) (hn : nodeAt h pml4 p = some n)
    (hn' : nodeAt h pml4 q = some n') (hl : n.level ≠ 0) (hp : pageOf n.addr = pageOf n'.addr) :
    p = q ∧ n = n' := by
  have he := eq_of_pageOf_eq (hu.aligned hn) (hu.aligned hn') hp
  obtain rfl := hu.unshared p q n n' hn hn' hl he
  exact ⟨rfl, Option.some.inj (hn.symm.trans hn')⟩

theorem UserSpace.not_free (hu : UserSpace h pml4) {k : ℕ} (hk : k ∈ spacePages h pml4) :
    k ∉ h.freePages := by
  obtain ⟨p, n, hn, rfl⟩ := hk
  exact hu.held p n hn

theorem tablePages_subset : tablePages h pml4 ⊆ spacePages h pml4 := by
  rintro k ⟨p, n, hn, -, hk⟩
  exact ⟨p, n, hn, hk⟩

/-- A space whose nodes were there before is still one. -/
theorem UserSpace.of_nodes (hu : UserSpace h pml4) (hs : h'.Sound)
    (hr : ∀ p n', nodeAt h' pml4 p = some n' → ∃ n, nodeAt h pml4 p = some n ∧
      n.level = n'.level ∧ n.addr = n'.addr ∧ (User n.pte → User n'.pte))
    (hf : ∀ k ∈ spacePages h pml4, k ∉ h'.freePages) : UserSpace h' pml4 := by
  refine ⟨hs, hu.root_aligned, fun p n' hn' => ?_, fun p q n' m' hn' hm' hl ha => ?_,
    fun p n' hn' hp hl => ?_⟩
  · obtain ⟨n, hn, -, ha, -⟩ := hr p n' hn'
    exact hf _ ⟨p, n, hn, by rw [ha]⟩
  · obtain ⟨n, hn, hln, han, -⟩ := hr p n' hn'
    obtain ⟨m, hm, -, ham, -⟩ := hr q m' hm'
    exact hu.unshared p q n m hn hm (by rwa [hln]) (by rw [han, ham, ha])
  · obtain ⟨n, hn, hln, -, hun⟩ := hr p n' hn'
    exact hun (hu.user p n hn hp (by rwa [hln]))

/-- The nodes depend on the words of the tables. -/
theorem nodeAt_congr (hh : h'.hhdmOffset = h.hhdmOffset)
    (he : ∀ p n, nodeAt h pml4 p = some n → n.level ≠ 0 → ∀ i < n.fanout,
      h'.entry n.addr i = h.entry n.addr i) (p : List ℕ) :
    nodeAt h' pml4 p = nodeAt h pml4 p :=
  walk_congr (fun p n hn i => child_congr hh fun hl hi => he p n hn hl i hi) p

theorem UserSpace.nodeAt_of_agree (hu : UserSpace h pml4) {U : Set ℕ} (hag : h.AgreeOutside U h')
    (hd : Disjoint (tablePages h pml4) U) (p : List ℕ) : nodeAt h' pml4 p = nodeAt h pml4 p := by
  refine nodeAt_congr hag.hhdm (fun p n hn hl i hi => ?_) p
  refine entry_congr (hu.aligned hn) (hi.trans_le n.fanout_le) fun x hx => hag.mem x ?_
  exact hx ▸ Set.disjoint_left.1 hd ⟨p, n, hn, hl, rfl⟩

/-- What is done with free pages leaves the tree alone. -/
theorem UserSpace.of_agree (hu : UserSpace h pml4) (hs : h'.Sound)
    (hag : h.AgreeOutside h.freePages h') (hsub : h'.freePages ⊆ h.freePages) :
    UserSpace h' pml4 ∧ ∀ p, nodeAt h' pml4 p = nodeAt h pml4 p := by
  have hnodes := hu.nodeAt_of_agree hag
    (Set.disjoint_left.2 fun k hk => hu.not_free (tablePages_subset hk))
  exact ⟨hu.of_nodes hs (fun p n hn => ⟨n, (hnodes p).symm.trans hn, rfl, rfl, id⟩)
    fun k hk hf => hu.not_free hk (hsub hf), hnodes⟩

/-- A page is taken from the allocator and written : the space stays as it is. -/
theorem UserSpace.of_take {h₁ : Heap} {v : U64} (hu : UserSpace h pml4) (ht : TakesPage h h₁ v)
    (h' : Heap) (hl : h'.freeLists = h₁.freeLists) (hh : h'.hhdmOffset = h₁.hhdmOffset)
    (hm : ∀ x, pageOf x ≠ pageOf v → h'.mem x = h₁.mem x) :
    UserSpace h' pml4 ∧ h'.freePages = h.freePages \ {pageOf v} ∧
      h.AgreeOutside h.freePages h' ∧ ∀ p, nodeAt h' pml4 p = nodeAt h pml4 p := by
  obtain ⟨hs', hfree⟩ := ht.sound.congr h' hl hh fun x hx => hm x fun e => by
    rw [ht.free] at hx
    exact hx.2 e
  rw [ht.free] at hfree
  have hag : h.AgreeOutside h.freePages h' := ⟨hh.trans ht.agree.hhdm, fun x hx =>
    (hm x fun e => hx (e ▸ ht.mem_free)).trans (ht.agree.mem x hx)⟩
  obtain ⟨hsp, hnodes⟩ := hu.of_agree hs' hag (hfree ▸ Set.sdiff_subset)
  exact ⟨hsp, hfree, hag, hnodes⟩

/-! ## Changing one entry -/

/-- `h'` differs from `h` in the tables at most in entry `i₀` of the table at `p₀`. -/
structure EntryUpdate (h h' : Heap) (pml4 : U64) (p₀ : List ℕ) (n₀ : Node) (i₀ : ℕ) : Prop where
  node : nodeAt h pml4 p₀ = some n₀
  level : n₀.level ≠ 0
  index : i₀ < n₀.fanout
  hhdm : h'.hhdmOffset = h.hhdmOffset
  same : ∀ x, pageOf x ∈ tablePages h pml4 → ¬Within x (entryAddr n₀.addr i₀) 8 →
    h'.mem x = h.mem x

theorem TableTree.child_of_update (hu : TableTree h pml4) (U : EntryUpdate h h' pml4 p₀ n₀ i₀)
    (hn : nodeAt h pml4 p = some n) (hne : ¬(n = n₀ ∧ i = i₀)) : child h' n i = child h n i := by
  refine child_congr U.hhdm fun hl hi => load64_congr fun x hx => ?_
  have hi' := hi.trans_le n.fanout_le
  have hx' := pageOf_of_within_entry (hu.aligned hn) hi' hx
  refine U.same x ⟨p, n, hn, hl, hx'.symm⟩ fun hx₀ => ?_
  have hi₀ := U.index.trans_le n₀.fanout_le
  have hx₀' := pageOf_of_within_entry (hu.aligned U.node) hi₀ hx₀
  obtain ⟨-, rfl⟩ := hu.unique hn U.node hl U.level (hx'.symm.trans hx₀')
  exact not_within_entry_of_ne hi' hi₀ (fun e => hne ⟨rfl, e⟩) hx hx₀

/-- An entry that gets its first table, or a new frame, adds one node to the tree. -/
theorem TableTree.nodeAt_update (hu : TableTree h pml4) (U : EntryUpdate h h' pml4 p₀ n₀ i₀)
    (hc : child h' n₀ i₀ = some n₁) (hleaf : ∀ j, child h' n₁ j = none)
    (hold : ∀ n, child h n₀ i₀ = some n → n.level = 0) (p : List ℕ) :
    nodeAt h' pml4 p = if p = p₀ ++ [i₀] then some n₁ else nodeAt h pml4 p := by
  have hun : ∀ p, nodeAt h pml4 p = some n₀ → p = p₀ := fun p hp =>
    hu.unshared p p₀ n₀ n₀ hp U.node U.level U.level rfl
  have hs : ∀ p n i, nodeAt h pml4 p = some n → ¬(n = n₀ ∧ i = i₀) →
      child h' n i = child h n i := fun p n i => hu.child_of_update U
  exact walk_insert U.node hun hs hc hleaf (fun n hn j => if_neg fun h => h.1 (hold n hn)) p

/-- A zeroed page that was free is put below an entry of a page in use. -/
theorem TakesPage.link {t v e : U64} {h₁ : Heap} (ht : TakesPage h h₁ v) (hta : PageAligned t)
    (htf : pageOf t ∉ h.freePages) (hi : i < 512)
    (hh' : h' = (h₁.zeroPage v).setEntry t i e) :
    h'.Sound ∧ h'.freePages = h.freePages \ {pageOf v} ∧ h'.hhdmOffset = h.hhdmOffset ∧
      (∀ x, pageOf x ∉ h.freePages → ¬Within x (entryAddr t i) 8 → h'.mem x = h.mem x) ∧
      h'.entry t i = e ∧ ∀ j < 512, h'.entry v j = 0 := by
  have hvn : pageOf v ≠ pageOf t := fun e => htf (e ▸ ht.mem_free)
  have hmem : ∀ x, pageOf x ≠ pageOf v → ¬Within x (entryAddr t i) 8 →
      h'.mem x = h₁.mem x := fun x hx hx' => by
    rw [hh', setEntry_mem_of_not_within hx', zeroPage_mem_of_pageOf_ne ht.aligned hx]
  obtain ⟨hs', hfree'⟩ := ht.sound.congr h' (by rw [hh']; rfl) (by rw [hh']; rfl)
    fun x hx => by
      rw [ht.free] at hx
      refine hmem x hx.2 fun hx' => htf ?_
      rw [← pageOf_of_within_entry hta hi hx']
      exact hx.1
  rw [ht.free] at hfree'
  refine ⟨hs', hfree', by rw [hh', ← ht.agree.hhdm]; rfl, fun x hx hx' => ?_,
    by rw [hh', entry_setEntry_self], fun j hj => ?_⟩
  · exact (hmem x (fun e => hx (e ▸ ht.mem_free)) hx').trans (ht.agree.mem x hx)
  · -- The new table is zero, and the store is in another page.
    rw [hh', entry_congr ht.aligned hj fun x hx => setEntry_mem_of_pageOf_ne hta hi (hx ▸ hvn),
      entry_zeroPage _ _ hj]

/-- A store to an entry of a page in use. -/
theorem Heap.Sound.setEntry {t : U64} (hs : h.Sound) (hta : PageAligned t)
    (htf : pageOf t ∉ h.freePages) (hi : i < 512) (e : U64) :
    (h.setEntry t i e).Sound ∧ (h.setEntry t i e).freePages = h.freePages := by
  refine hs.congr _ rfl rfl fun x hx => setEntry_mem_of_not_within fun hx' => htf ?_
  rwa [← pageOf_of_within_entry hta hi hx']

/-- A zeroed page that was free is put below a missing entry : the tree gets one node. -/
theorem TableTree.addTable_nodes {v f : U64} {h₁ : Heap} (hu : TableTree h pml4)
    (hn : nodeAt h pml4 p = some n) (hl : 2 ≤ n.level) (hi : i < n.fanout)
    (habs : ¬Present (h.entry n.addr i)) (ht : TakesPage h h₁ v) (hf : FlagBits f) (hfp : Present f)
    (hh' : h' = (h₁.zeroPage v).setEntry n.addr i (h.virtToPhys v ||| f)) :
    h'.Sound ∧ h'.freePages = h.freePages \ {pageOf v} ∧
      h.AgreeOutside (h.freePages ∪ tablePages h pml4) h' ∧
      ∀ p', nodeAt h' pml4 p' = if p' = p ++ [i] then some ⟨n.level - 1, h.virtToPhys v ||| f, v⟩
        else nodeAt h pml4 p' := by
  have hi' := hi.trans_le n.fanout_le
  have hl' : n.level ≠ 0 := by omega
  have hna := hu.aligned hn
  obtain ⟨hs', hfree', hhd, hmem, hentry, hzero⟩ := ht.link hna (hu.held p n hn hl') hi' hh'
  refine ⟨hs', hfree', ⟨hhd, fun x hx => ?_⟩, ?_⟩
  · rw [Set.mem_union, not_or] at hx
    refine hmem x hx.1 fun hx' => hx.2 ⟨p, n, hn, hl', ?_⟩
    exact (pageOf_of_within_entry hna hi' hx').symm
  refine hu.nodeAt_update ⟨hn, hl', hi, hhd, fun x hx => hmem x (hu.not_free hx)⟩ ?_ (fun j => ?_) ?_
  · refine child_eq_some.2 ⟨hl', hi, ?_, ?_⟩
    · rw [hentry]
      exact and_bit_ne_zero_of_or hfp
    · rw [hentry, pteAddr_congr hhd, pteAddr_or hu.sound.hhdm ht.aligned hf]
  · rw [child, if_neg]
    rintro ⟨-, hj, hpres⟩
    refine hpres ?_
    rw [hzero j (hj.trans_le (Node.fanout_le _))]
    exact BitVec.zero_and
  · intro n' hn'
    exact absurd (child_eq_some.1 hn').2.2.1 habs

/-- A present entry is stored to a last-level table : the tree gets this frame. -/
theorem TableTree.setLeaf_nodes {e : U64} (hu : TableTree h pml4) (hn : nodeAt h pml4 p = some n)
    (hl : n.level = 1) (hi : i < n.fanout) (he : Present e) :
    (h.setEntry n.addr i e).Sound ∧ (h.setEntry n.addr i e).freePages = h.freePages ∧
      h.AgreeOutside (h.freePages ∪ tablePages h pml4) (h.setEntry n.addr i e) ∧
      ∀ p', nodeAt (h.setEntry n.addr i e) pml4 p' =
        if p' = p ++ [i] then some ⟨0, e, h.pteAddr e⟩ else nodeAt h pml4 p' := by
  have hi' := hi.trans_le n.fanout_le
  have hl' : n.level ≠ 0 := by omega
  have hna := hu.aligned hn
  obtain ⟨hs', hfree'⟩ := hu.sound.setEntry hna (hu.held p n hn hl') hi' e
  refine ⟨hs', hfree', ⟨rfl, fun x hx => ?_⟩, ?_⟩
  · rw [Set.mem_union, not_or] at hx
    refine setEntry_mem_of_not_within fun hx' => hx.2 ⟨p, n, hn, hl', ?_⟩
    exact (pageOf_of_within_entry hna hi' hx').symm
  refine hu.nodeAt_update ⟨hn, hl', hi, rfl, fun x _ => setEntry_mem_of_not_within⟩ ?_ (fun j => ?_)
    fun n' hn' => ?_
  · refine child_eq_some.2 ⟨hl', hi, ?_, ?_⟩
    · rwa [entry_setEntry_self]
    · rw [entry_setEntry_self, hl]
      rfl
  · rw [child, if_neg fun hc => hc.1 rfl]
  · obtain ⟨-, -, -, rfl⟩ := child_eq_some.1 hn'
    change n.level - 1 = 0
    omega

/-- The space with the new node. -/
theorem UserSpace.update (hu : UserSpace h pml4) (hs : h'.Sound)
    (hnodes : ∀ p, nodeAt h' pml4 p = if p = q ++ [i₀] then some n₁ else nodeAt h pml4 p)
    (hf : h'.freePages ⊆ h.freePages) (hf₁ : pageOf n₁.addr ∉ h'.freePages)
    (ht : pageOf n₁.addr ∉ tablePages h pml4)
    (hnew : n₁.level ≠ 0 → User n₁.pte ∧ pageOf n₁.addr ∉ spacePages h pml4) :
    UserSpace h' pml4 := by
  have hcases : ∀ p n, nodeAt h' pml4 p = some n →
      p = q ++ [i₀] ∧ n = n₁ ∨ nodeAt h pml4 p = some n := fun p n hn => by
    rw [hnodes] at hn
    split at hn
    · exact Or.inl ⟨‹_›, (Option.some.inj hn).symm⟩
    · exact Or.inr hn
  refine ⟨hs, hu.root_aligned, fun p n hn => ?_, fun p q' n n' hn hn' hl ha => ?_,
    fun p n hn hp hl => ?_⟩
  · rcases hcases p n hn with ⟨-, rfl⟩ | hn
    · exact hf₁
    · exact fun hfree => hu.held p n hn (hf hfree)
  · rcases hcases p n hn with ⟨rfl, rfl⟩ | hn <;> rcases hcases q' n' hn' with ⟨rfl, rfl⟩ | hn'
    · rfl
    · exact absurd ⟨q', n', hn', by rw [ha]⟩ (hnew hl).2
    · exact absurd ⟨p, n, hn, hl, by rw [ha]⟩ ht
    · exact hu.unshared p q' n n' hn hn' hl ha
  · rcases hcases p n hn with ⟨-, rfl⟩ | hn
    · exact (hnew hl).1
    · exact hu.user p n hn hp hl

/-- What mapping a page at the path `q` may do to a space : it takes free pages for new tables
and writes to the tables, and no node but the one at `q` is lost or gets another entry. -/
structure Extends (q : List ℕ) (pml4 : U64) (h h' : Heap) : Prop where
  space : UserSpace h' pml4
  free : h'.freePages ⊆ h.freePages
  agree : h.AgreeOutside (h.freePages ∪ tablePages h pml4) h'
  keeps : ∀ p n, p ≠ q → nodeAt h pml4 p = some n → nodeAt h' pml4 p = some n
  nodes : ∀ p n, nodeAt h' pml4 p = some n → nodeAt h pml4 p = some n ∨
    n.level ≠ 0 ∧ pageOf n.addr ∈ h.freePages ∨ n.level = 0 ∧ p = q

theorem Extends.refl (hu : UserSpace h pml4) : Extends q pml4 h h :=
  ⟨hu, subset_rfl, .refl _ _, fun _ _ _ hn => hn, fun _ _ hn => Or.inl hn⟩

theorem Extends.tablePages_subset (e : Extends q pml4 h h') :
    tablePages h' pml4 ⊆ h.freePages ∪ tablePages h pml4 := by
  rintro k ⟨p, n, hn, hl, rfl⟩
  rcases e.nodes p n hn with hn | ⟨-, hf⟩ | ⟨h0, -⟩
  · exact Or.inr ⟨p, n, hn, hl, rfl⟩
  · exact Or.inl hf
  · exact absurd h0 hl

/-- Mapping a page keeps the tables. -/
theorem Extends.tablePages_mono (e : Extends q pml4 h h') (hq : q.length = 4) :
    tablePages h pml4 ⊆ tablePages h' pml4 := by
  rintro k ⟨p, n, hn, hl, hk⟩
  refine ⟨p, n, e.keeps p n ?_ hn, hl, hk⟩
  rintro rfl
  have := nodeAt_level hn
  omega

theorem Extends.trans {h'' : Heap} (e : Extends q pml4 h h') (e' : Extends q pml4 h' h'') :
    Extends q pml4 h h'' := by
  refine ⟨e'.space, e'.free.trans e.free, e.agree.trans (e'.agree.mono ?_),
    fun p n hp hn => e'.keeps p n hp (e.keeps p n hp hn), fun p n hn => ?_⟩
  · exact Set.union_subset (e.free.trans Set.subset_union_left) e.tablePages_subset
  · rcases e'.nodes p n hn with hn | ⟨hl, hf⟩ | h0
    · exact e.nodes p n hn
    · exact Or.inr (Or.inl ⟨hl, e.free hf⟩)
    · exact Or.inr (Or.inr h0)

/-- A zeroed page that was free becomes the table below a missing entry. -/
theorem UserSpace.addTable {v f : U64} {h₁ : Heap} (hu : UserSpace h pml4)
    (hn : nodeAt h pml4 p = some n) (hl : 2 ≤ n.level) (hi : i < n.fanout)
    (habs : ¬Present (h.entry n.addr i)) (ht : TakesPage h h₁ v) (hf : FlagBits f)
    (hfp : Present f) (hfu : User f)
    (hh' : h' = (h₁.zeroPage v).setEntry n.addr i (h.virtToPhys v ||| f)) :
    Extends q pml4 h h' ∧ h'.freePages = h.freePages \ {pageOf v} ∧
      nodeAt h' pml4 (p ++ [i]) = some ⟨n.level - 1, h.virtToPhys v ||| f, v⟩ := by
  obtain ⟨hs', hfree', hag, hnodes⟩ := hu.tables.addTable_nodes hn hl hi habs ht hf hfp hh'
  refine ⟨⟨?_, hfree' ▸ Set.sdiff_subset, hag, fun p' n' _ hn' => ?_, fun p' n' hn' => ?_⟩,
    hfree', by rw [hnodes, if_pos rfl]⟩
  · refine hu.update hs' hnodes (hfree' ▸ Set.sdiff_subset) ?_ ?_ fun _ => ⟨?_, ?_⟩
    · rw [hfree']
      exact fun hv => hv.2 rfl
    · exact fun hv => hu.not_free (Jeos.tablePages_subset hv) ht.mem_free
    · exact and_bit_ne_zero_of_or hfu
    · exact fun hv => hu.not_free hv ht.mem_free
  · rw [hnodes, if_neg, hn']
    rintro rfl
    have hc := (walk_concat_of hn i).symm.trans hn'
    exact habs (child_eq_some.1 hc).2.2.1
  · rw [hnodes] at hn'
    split at hn'
    · obtain rfl := Option.some.inj hn'
      exact Or.inr (Or.inl ⟨by change n.level - 1 ≠ 0; omega, ht.mem_free⟩)
    · exact Or.inl hn'

/-- An entry of a last-level table gets a frame. -/
theorem UserSpace.setLeaf {e : U64} (hu : UserSpace h pml4) (hn : nodeAt h pml4 p = some n)
    (hl : n.level = 1) (hi : i < n.fanout) (he : Present e)
    (hfree : pageOf (h.pteAddr e) ∉ h.freePages) (htab : pageOf (h.pteAddr e) ∉ tablePages h pml4) :
    Extends (p ++ [i]) pml4 h (h.setEntry n.addr i e) ∧
      (h.setEntry n.addr i e).freePages = h.freePages ∧
      nodeAt (h.setEntry n.addr i e) pml4 (p ++ [i]) = some ⟨0, e, h.pteAddr e⟩ := by
  obtain ⟨hs', hfree', hag, hnodes⟩ := hu.tables.setLeaf_nodes hn hl hi he
  refine ⟨⟨?_, hfree'.subset, hag, fun p' n' hp hn' => ?_, fun p' n' hn' => ?_⟩,
    hfree', by rw [hnodes, if_pos rfl]⟩
  · exact hu.update hs' hnodes hfree'.subset (hfree' ▸ hfree) htab fun h0 => absurd rfl h0
  · rw [hnodes, if_neg hp, hn']
  · rw [hnodes] at hn'
    split at hn'
    case isTrue hp =>
      obtain rfl := Option.some.inj hn'
      exact Or.inr (Or.inr ⟨rfl, hp⟩)
    case isFalse => exact Or.inl hn'

end Tree

/-! ## `map_page_pml4` -/

theorem index_toNat (va : U64) (k : ℕ) :
    ((va >>> k) &&& 0x1FF).toNat = va.toNat / 2 ^ k % 512 := by
  rw [BitVec.toNat_and, BitVec.toNat_ushiftRight, Nat.shiftRight_eq_div_pow]
  exact Nat.and_two_pow_sub_one_eq_mod _ 9

theorem index_lt (va : U64) (k : ℕ) : ((va >>> k) &&& 0x1FF).toNat < 512 := by
  rw [index_toNat]
  exact Nat.mod_lt _ (by norm_num)

/-- The address `copy_user_pml4` builds from four indices has these indices. -/
theorem vaPath_of_indices {i4 i3 i2 i1 : ℕ} (h4 : i4 < 256) (h3 : i3 < 512) (h2 : i2 < 512)
    (h1 : i1 < 512) :
    vaPath (BitVec.ofNat 64 i4 <<< 39 ||| BitVec.ofNat 64 i3 <<< 30 |||
      BitVec.ofNat 64 i2 <<< 21 ||| BitVec.ofNat 64 i1 <<< 12) = [i4, i3, i2, i1] := by
  have hs : ∀ {i k : ℕ}, i < 512 → k ≤ 39 → (BitVec.ofNat 64 i <<< k).toNat = i <<< k :=
    fun {i k} hi hk => by
      have hpow : 2 ^ k ≤ 2 ^ 39 := Nat.pow_le_pow_right (by norm_num) hk
      have hmul : i * 2 ^ k ≤ 512 * 2 ^ 39 := Nat.mul_le_mul hi.le hpow
      rw [BitVec.toNat_shiftLeft, BitVec.toNat_ofNat, Nat.mod_eq_of_lt (show i < 2 ^ 64 by omega),
        Nat.shiftLeft_eq, Nat.mod_eq_of_lt (by omega)]
  have hva : (BitVec.ofNat 64 i4 <<< 39 ||| BitVec.ofNat 64 i3 <<< 30 |||
      BitVec.ofNat 64 i2 <<< 21 ||| BitVec.ofNat 64 i1 <<< 12).toNat =
      (((i4 * 512 + i3) * 512 + i2) * 512 + i1) * 4096 := by
    have hor : ∀ {a b k : ℕ}, b < 2 ^ k → a <<< k ||| b = a * 2 ^ k + b := fun hb => by
      rw [← Nat.shiftLeft_add_eq_or_of_lt hb, Nat.shiftLeft_eq]
    have e3 : i4 <<< 39 ||| i3 <<< 30 = (i4 * 512 + i3) <<< 30 := by
      rw [hor (by rw [Nat.shiftLeft_eq]; omega), Nat.shiftLeft_eq, Nat.shiftLeft_eq]
      ring
    have e2 : (i4 * 512 + i3) <<< 30 ||| i2 <<< 21 = ((i4 * 512 + i3) * 512 + i2) <<< 21 := by
      rw [hor (by rw [Nat.shiftLeft_eq]; omega), Nat.shiftLeft_eq, Nat.shiftLeft_eq]
      ring
    rw [BitVec.toNat_or, BitVec.toNat_or, BitVec.toNat_or, hs (by omega) le_rfl,
      hs h3 (by norm_num), hs h2 (by norm_num), hs h1 (by norm_num), e3, e2,
      hor (by rw [Nat.shiftLeft_eq]; omega), Nat.shiftLeft_eq]
    ring
  rw [vaPath, pml4Index, pdptIndex, pdIndex, ptIndex, index_toNat, index_toNat, index_toNat,
    index_toNat, hva]
  congr 1
  · omega
  congr 1
  · omega
  congr 1
  · omega
  congr 1
  omega

namespace PagingState

variable {s s' : PagingState} {pml4 t virt phys flags : U64} {n : Node} {p q : List ℕ} {i : ℕ}

theorem kallocPage_mono {v : U64} (hr : s.kallocPage = some (s', v)) (hok : s'.ok = true) :
    s.ok = true := by
  obtain ⟨⟨h, w⟩, -, he⟩ := Option.map_eq_some_iff.1 hr
  obtain ⟨rfl, rfl⟩ := Prod.mk.inj he
  exact (Bool.and_eq_true_iff.1 hok).1

theorem exists_getTable (s : PagingState) (t : U64) (i : ℕ) : ∃ r, s.getTable t i = some r := by
  unfold getTable
  split
  · exact ⟨_, rfl⟩
  · obtain ⟨r, hr⟩ := s.exists_kallocPage
    rw [hr]
    exact ⟨_, rfl⟩

theorem getTable_mono {t' : U64} (hr : s.getTable t i = some (s', t')) (hok : s'.ok = true) :
    s.ok = true := by
  unfold getTable at hr
  split at hr
  · obtain ⟨rfl, -⟩ := Prod.mk.inj (Option.some.inj hr)
    exact hok
  · obtain ⟨⟨s₁, v⟩, hk, he⟩ := Option.map_eq_some_iff.1 hr
    obtain ⟨rfl, -⟩ := Prod.mk.inj he
    exact kallocPage_mono hk hok

theorem getTable_ok (hs : s.heap.Sound) (hr : s.getTable t i = some (s', t')) (hok : s.ok = true)
    (hf : s.heap.freePages.Nonempty) : s'.ok = true := by
  unfold getTable at hr
  split at hr
  · obtain ⟨rfl, -⟩ := Prod.mk.inj (Option.some.inj hr)
    exact hok
  · obtain ⟨⟨s₁, v⟩, hk, he⟩ := Option.map_eq_some_iff.1 hr
    obtain ⟨rfl, -⟩ := Prod.mk.inj he
    have hok' := kallocPage_ok hs hk hok hf
    exact hok'

/-- `getTable` finds the table, or it takes a page for it. -/
theorem getTable_cases (hs : s.heap.Sound) (hr : s.getTable t i = some (s', t')) (hok : s'.ok = true) :
    Present (s.heap.entry t i) ∧ s' = s ∧ t' = s.heap.pteAddr (s.heap.entry t i) ∨
      ¬Present (s.heap.entry t i) ∧ ∃ h₁, TakesPage s.heap h₁ t' ∧
        s'.heap = (h₁.zeroPage t').setEntry t i
          (s.heap.virtToPhys t' ||| (ptePresent ||| pteWrite ||| pteUser)) := by
  unfold getTable at hr
  split at hr
  case isTrue hp =>
    obtain ⟨rfl, rfl⟩ := Prod.mk.inj (Option.some.inj hr)
    exact Or.inl ⟨hp, rfl, rfl⟩
  case isFalse hp =>
    obtain ⟨⟨s₁, v⟩, hk, he⟩ := Option.map_eq_some_iff.1 hr
    obtain ⟨-, -, ht⟩ := kallocPage_spec hs hk (by rw [← (Prod.mk.inj he).1] at hok; exact hok)
    obtain ⟨rfl, rfl⟩ := Prod.mk.inj he
    have hback : s₁.heap.physToVirt (s₁.heap.virtToPhys v) = v := BitVec.sub_add_cancel _ _
    have hor : s₁.heap.virtToPhys v ||| ptePresent ||| pteWrite ||| pteUser =
        s.heap.virtToPhys v ||| (ptePresent ||| pteWrite ||| pteUser) := by
      rw [Heap.virtToPhys, Heap.virtToPhys, ht.agree.hhdm, BitVec.or_assoc, BitVec.or_assoc,
        BitVec.or_assoc]
    have hv : ((s₁.heap.zeroPage v).setEntry t i
        (s.heap.virtToPhys v ||| (ptePresent ||| pteWrite ||| pteUser))).pteAddr
          (s.heap.virtToPhys v ||| (ptePresent ||| pteWrite ||| pteUser)) = v :=
      (pteAddr_congr (h := s.heap) ht.agree.hhdm _).trans (pteAddr_or hs.hhdm ht.aligned (by decide))
    simp only [hback, hor, entry_setEntry_self, hv]
    exact Or.inr ⟨hp, s₁.heap, ht, rfl⟩

/-- `getTable` finds or makes the table at entry `i` of the node at `p`. -/
theorem getTable_spec (hu : UserSpace s.heap pml4) (hn : nodeAt s.heap pml4 p = some n)
    (hl : 2 ≤ n.level) (hi : i < n.fanout) (hr : s.getTable n.addr i = some (s', t))
    (hok : s'.ok = true) :
    Extends q pml4 s.heap s'.heap ∧ s.heap.freePages ⊆ s'.heap.freePages ∪ {pageOf t} ∧
      ∃ e, nodeAt s'.heap pml4 (p ++ [i]) = some ⟨n.level - 1, e, t⟩ := by
  rcases getTable_cases hu.sound hr hok with ⟨hp, rfl, rfl⟩ | ⟨hp, h₁, ht, hs'⟩
  · refine ⟨.refl hu, Set.subset_union_left, s'.heap.entry n.addr i,
      (walk_concat_of hn i).trans ?_⟩
    exact child_eq_some.2 ⟨by omega, hi, hp, rfl⟩
  · obtain ⟨hx, hfree, hnode⟩ := hu.addTable (q := q) hn hl hi hp ht (by decide) (by decide)
      (by decide) hs'
    refine ⟨hx, ?_, _, hnode⟩
    rw [hfree, Set.sdiff_union_self]
    exact Set.subset_union_left

/-- A step takes at most one page. -/
theorem ncard_le_of_taken {F F' : Set ℕ} {k : ℕ} (hsub : F' ⊆ F) (htaken : F ⊆ F' ∪ {k}) :
    F.ncard ≤ F'.ncard + 1 := by
  rcases F.finite_or_infinite with hfin | hinf
  · refine (Set.ncard_le_ncard htaken ((hfin.subset hsub).union (Set.finite_singleton k))).trans ?_
    exact (Set.ncard_union_le _ _).trans_eq (by rw [Set.ncard_singleton])
  · rw [hinf.ncard]
    exact Nat.zero_le _

theorem exists_mapPagePml4 (s : PagingState) (pml4 virt phys flags : U64) :
    ∃ s', s.mapPagePml4 pml4 virt phys flags = some s' := by
  obtain ⟨⟨s₁, pdpt⟩, h₁⟩ := s.exists_getTable pml4 (pml4Index virt)
  obtain ⟨⟨s₂, pd⟩, h₂⟩ := s₁.exists_getTable pdpt (pdptIndex virt)
  obtain ⟨⟨s₃, pt⟩, h₃⟩ := s₂.exists_getTable pd (pdIndex virt)
  simp only [mapPagePml4, h₁, h₂, h₃, Option.bind_some, Option.map_some]
  exact ⟨_, rfl⟩

/-- The calls `mapPagePml4` makes. -/
theorem mapPagePml4_eq_some (hr : s.mapPagePml4 pml4 virt phys flags = some s') :
    ∃ s₁ pdpt s₂ pd s₃ pt, s.getTable pml4 (pml4Index virt) = some (s₁, pdpt) ∧
      s₁.getTable pdpt (pdptIndex virt) = some (s₂, pd) ∧
      s₂.getTable pd (pdIndex virt) = some (s₃, pt) ∧
      s' = ⟨s₃.heap.setEntry pt (ptIndex virt) (phys &&& pageFrameMask ||| flags ||| ptePresent),
        s₃.ok⟩ := by
  obtain ⟨⟨s₁, pdpt⟩, h₁, hr⟩ := Option.bind_eq_some_iff.1 hr
  obtain ⟨⟨s₂, pd⟩, h₂, hr⟩ := Option.bind_eq_some_iff.1 hr
  obtain ⟨⟨s₃, pt⟩, h₃, he⟩ := Option.map_eq_some_iff.1 hr
  exact ⟨s₁, pdpt, s₂, pd, s₃, pt, h₁, h₂, h₃, he.symm⟩

theorem mapPagePml4_mono (hr : s.mapPagePml4 pml4 virt phys flags = some s')
    (hok : s'.ok = true) : s.ok = true := by
  obtain ⟨s₁, pdpt, s₂, pd, s₃, pt, h₁, h₂, h₃, rfl⟩ := mapPagePml4_eq_some hr
  exact getTable_mono h₁ (getTable_mono h₂ (getTable_mono h₃ hok))

/-- The table walk of `mapPagePml4` : three `getTable` steps from the top table to the last one. -/
theorem walkTables_spec {s₁ s₂ s₃ : PagingState} {pdpt pd pt : U64} (hu : UserSpace s.heap pml4)
    (hi : pml4Index virt < 256) (h₁ : s.getTable pml4 (pml4Index virt) = some (s₁, pdpt))
    (h₂ : s₁.getTable pdpt (pdptIndex virt) = some (s₂, pd))
    (h₃ : s₂.getTable pd (pdIndex virt) = some (s₃, pt)) (hok : s₃.ok = true) :
    Extends (vaPath virt) pml4 s.heap s₃.heap ∧
      s.heap.freePages.ncard ≤ s₃.heap.freePages.ncard + 3 ∧
      s.heap.freePages ⊆ s₃.heap.freePages ∪ tablePages s₃.heap pml4 ∧
      ∃ e, nodeAt s₃.heap pml4 [pml4Index virt, pdptIndex virt, pdIndex virt] =
        some ⟨1, e, pt⟩ := by
  have hok₂ := getTable_mono h₃ hok
  have hok₁ := getTable_mono h₂ hok₂
  obtain ⟨x₁, t₁, e₁, n₁⟩ := getTable_spec (q := vaPath virt) hu nodeAt_nil (Nat.le_add_left 2 2)
    (show _ < (Node.root pml4).fanout from hi) h₁ hok₁
  obtain ⟨x₂, t₂, e₂, n₂⟩ := getTable_spec (q := vaPath virt) x₁.space n₁ (Nat.le_succ 2)
    (show _ < (512 : ℕ) from index_lt virt 30) h₂ hok₂
  obtain ⟨x₃, t₃, e₃, n₃⟩ := getTable_spec (q := vaPath virt) x₂.space n₂ le_rfl
    (show _ < (512 : ℕ) from index_lt virt 21) h₃ hok
  have c₁ := ncard_le_of_taken x₁.free t₁
  have c₂ := ncard_le_of_taken x₂.free t₂
  have c₃ := ncard_le_of_taken x₃.free t₃
  have m₂ := x₂.tablePages_mono rfl
  have m₃ := x₃.tablePages_mono rfl
  refine ⟨(x₁.trans x₂).trans x₃, by omega, fun k hk => ?_, e₃, n₃⟩
  rcases t₁ hk with hk | rfl
  · rcases t₂ hk with hk | rfl
    · rcases t₃ hk with hk | rfl
      · exact Or.inl hk
      · exact Or.inr ⟨_, _, n₃, Nat.succ_ne_zero 0, rfl⟩
    · exact Or.inr (m₃ ⟨_, _, n₂, Nat.succ_ne_zero 1, rfl⟩)
  · exact Or.inr (m₃ (m₂ ⟨_, _, n₁, Nat.succ_ne_zero 2, rfl⟩))

/-- The last store of `map_page_pml4`, after the table walk. -/
theorem setFrame_spec {s₁ s₂ s₃ : PagingState} {pdpt pd pt : U64} (hu : UserSpace s.heap pml4)
    (hi : pml4Index virt < 256) (hf : FlagBits flags)
    (hfree : pageOf (s.heap.pteAddr phys) ∉ s.heap.freePages)
    (htab : pageOf (s.heap.pteAddr phys) ∉ tablePages s.heap pml4)
    (h₁ : s.getTable pml4 (pml4Index virt) = some (s₁, pdpt))
    (h₂ : s₁.getTable pdpt (pdptIndex virt) = some (s₂, pd))
    (h₃ : s₂.getTable pd (pdIndex virt) = some (s₃, pt)) (hok : s₃.ok = true) :
    let h' := s₃.heap.setEntry pt (ptIndex virt) (phys &&& pageFrameMask ||| flags ||| ptePresent)
    Extends (vaPath virt) pml4 s₃.heap h' ∧ h'.freePages = s₃.heap.freePages ∧
      nodeAt h' pml4 (vaPath virt) =
        some ⟨0, phys &&& pageFrameMask ||| flags ||| ptePresent, s.heap.pteAddr phys⟩ := by
  obtain ⟨x, -, -, e, hn⟩ := walkTables_spec hu hi h₁ h₂ h₃ hok
  have hpa : s₃.heap.pteAddr (phys &&& pageFrameMask ||| flags ||| ptePresent) =
      s.heap.pteAddr phys := by
    rw [pteAddr_congr x.agree.hhdm, Heap.pteAddr, BitVec.or_assoc,
      or_and_pageFrameMask (pageAligned_and _) (hf.or (by decide)), Heap.pteAddr]
  have hfree' : pageOf (s₃.heap.pteAddr (phys &&& pageFrameMask ||| flags ||| ptePresent)) ∉
      s₃.heap.freePages := fun hx => hfree (hpa ▸ x.free hx)
  have htab' : pageOf (s₃.heap.pteAddr (phys &&& pageFrameMask ||| flags ||| ptePresent)) ∉
      tablePages s₃.heap pml4 := fun hx => by
    rcases x.tablePages_subset hx with hx | hx
    · exact hfree (hpa ▸ hx)
    · exact htab (hpa ▸ hx)
  have h := x.space.setLeaf hn rfl (show _ < (512 : ℕ) from index_lt virt 12) (present_or _)
    hfree' htab'
  rwa [hpa] at h

/-- `map_page_pml4` makes `virt` lead to the frame of `phys` and changes no other leaf. Every page
it takes becomes a table. -/
theorem mapPagePml4_effect (hu : UserSpace s.heap pml4) (hi : pml4Index virt < 256)
    (hf : FlagBits flags) (hfree : pageOf (s.heap.pteAddr phys) ∉ s.heap.freePages)
    (htab : pageOf (s.heap.pteAddr phys) ∉ tablePages s.heap pml4)
    (hr : s.mapPagePml4 pml4 virt phys flags = some s') (hok : s'.ok = true) :
    Extends (vaPath virt) pml4 s.heap s'.heap ∧
      s.heap.freePages.ncard ≤ s'.heap.freePages.ncard + 3 ∧
      s.heap.freePages ⊆ s'.heap.freePages ∪ tablePages s'.heap pml4 ∧
      nodeAt s'.heap pml4 (vaPath virt) =
        some ⟨0, phys &&& pageFrameMask ||| flags ||| ptePresent, s.heap.pteAddr phys⟩ := by
  obtain ⟨s₁, pdpt, s₂, pd, s₃, pt, h₁, h₂, h₃, rfl⟩ := mapPagePml4_eq_some hr
  obtain ⟨x, c, t, -⟩ := walkTables_spec hu hi h₁ h₂ h₃ hok
  obtain ⟨x', hf', hn'⟩ := setFrame_spec hu hi hf hfree htab h₁ h₂ h₃ hok
  refine ⟨x.trans x', c.trans_eq (congrArg (fun F => Set.ncard F + 3) hf'.symm),
    t.trans (Set.union_subset_union hf'.superset (x'.tablePages_mono rfl)), hn'⟩

theorem mapPagePml4_spec (hu : UserSpace s.heap pml4) (hi : pml4Index virt < 256)
    (hf : FlagBits flags) (hfree : pageOf (s.heap.pteAddr phys) ∉ s.heap.freePages)
    (htab : pageOf (s.heap.pteAddr phys) ∉ tablePages s.heap pml4)
    (hr : s.mapPagePml4 pml4 virt phys flags = some s') (hok : s'.ok = true) :
    Extends (vaPath virt) pml4 s.heap s'.heap ∧
      s.heap.freePages.ncard ≤ s'.heap.freePages.ncard + 3 ∧
      nodeAt s'.heap pml4 (vaPath virt) =
        some ⟨0, phys &&& pageFrameMask ||| flags ||| ptePresent, s.heap.pteAddr phys⟩ := by
  obtain ⟨x, c, -, hq⟩ := mapPagePml4_effect hu hi hf hfree htab hr hok
  exact ⟨x, c, hq⟩

/-- Three free pages are enough for `map_page_pml4`. -/
theorem mapPagePml4_ok (hu : UserSpace s.heap pml4) (hi : pml4Index virt < 256)
    (hr : s.mapPagePml4 pml4 virt phys flags = some s') (hok : s.ok = true)
    (hc : 3 ≤ s.heap.freePages.ncard) : s'.ok = true := by
  obtain ⟨s₁, pdpt, s₂, pd, s₃, pt, h₁, h₂, h₃, rfl⟩ := mapPagePml4_eq_some hr
  have hne : ∀ {h : Heap}, 1 ≤ h.freePages.ncard → h.freePages.Nonempty := fun hc =>
    Set.nonempty_of_ncard_ne_zero (by omega)
  have hok₁ := getTable_ok hu.sound h₁ hok (hne (by omega))
  obtain ⟨x₁, t₁, e₁, n₁⟩ := getTable_spec (q := []) hu nodeAt_nil (Nat.le_add_left 2 2)
    (show _ < (Node.root pml4).fanout from hi) h₁ hok₁
  have c₁ := ncard_le_of_taken x₁.free t₁
  have hok₂ := getTable_ok x₁.space.sound h₂ hok₁ (hne (by omega))
  obtain ⟨x₂, t₂, -, -⟩ := getTable_spec (q := []) x₁.space n₁ (Nat.le_succ 2)
    (show _ < (512 : ℕ) from index_lt virt 30) h₂ hok₂
  have c₂ := ncard_le_of_taken x₂.free t₂
  have hok₃ := getTable_ok x₂.space.sound h₃ hok₂ (hne (by omega))
  exact hok₃

end PagingState

/-! ## `create_user_pml4` -/

/-- An entry above the user half. -/
def KernelIndex (i : ℕ) : Prop := 256 ≤ i ∧ i < 512

/-- The loop that copies the kernel half leaves the user half and all other pages. -/
theorem copyKernelHalf_spec {v k : U64} (hv : PageAligned v) : ∀ (l : List ℕ) (h : Heap),
    (∀ i ∈ l, KernelIndex i) → ∀ h',
    l.foldl (fun h i => h.setEntry v i (h.entry k i)) h = h' →
      h'.freeLists = h.freeLists ∧ h'.hhdmOffset = h.hhdmOffset ∧
        (∀ x, pageOf x ≠ pageOf v → h'.mem x = h.mem x) ∧ ∀ i < 256, h'.entry v i = h.entry v i
  | [], _, _, _, rfl => ⟨rfl, rfl, fun _ _ => rfl, fun _ _ => rfl⟩
  | j :: l, h, hl, h', he => by
    obtain ⟨hj, hj'⟩ := hl j List.mem_cons_self
    obtain ⟨h1, h2, h3, h4⟩ := copyKernelHalf_spec hv l (h.setEntry v j (h.entry k j))
      (fun i hi => hl i (List.mem_cons_of_mem _ hi)) h' he
    refine ⟨h1, h2, fun x hx => (h3 x hx).trans (setEntry_mem_of_pageOf_ne hv hj' hx),
      fun i hi => (h4 i hi).trans (load64_congr fun x hx => ?_)⟩
    exact setEntry_mem_of_not_within (not_within_entry_of_ne (by omega) hj' (by omega) hx)

/-- A new address space : a page that was free, with nothing in its user half. -/
structure NewSpace (pml4 : U64) (h h' : Heap) : Prop where
  ne_zero : pml4 ≠ 0
  mem_free : pageOf pml4 ∈ h.freePages
  free : h'.freePages = h.freePages \ {pageOf pml4}
  agree : h.AgreeOutside h.freePages h'
  space : UserSpace h' pml4
  empty : ∀ p n, nodeAt h' pml4 p = some n → p = [] ∧ n = .root pml4

theorem nodeAt_of_no_entry {h : Heap} {pml4 : U64} (he : ∀ i < 256, h.entry pml4 i = 0)
    {p : List ℕ} {n : Node} (hn : nodeAt h pml4 p = some n) : p = [] ∧ n = .root pml4 := by
  cases p with
  | nil => exact ⟨rfl, (Option.some.inj hn).symm⟩
  | cons i p =>
    obtain ⟨n', hc, -⟩ := Option.bind_eq_some_iff.1 hn
    obtain ⟨-, hi, hp, -⟩ := child_eq_some.1 hc
    rw [Node.root, he i hi] at hp
    exact absurd BitVec.zero_and hp

namespace PagingState

variable {s s' : PagingState} {cr3 pml4 : U64}

theorem exists_createUserPml4 (s : PagingState) (cr3 : U64) :
    ∃ r, s.createUserPml4 cr3 = some r := by
  obtain ⟨r, hr⟩ := s.exists_kallocPage
  rw [createUserPml4, hr]
  exact ⟨_, rfl⟩

theorem createUserPml4_ok (hs : s.heap.Sound) (hr : s.createUserPml4 cr3 = some (s', pml4))
    (hok : s.ok = true) (hf : s.heap.freePages.Nonempty) : s'.ok = true := by
  obtain ⟨⟨s₁, v⟩, hk, he⟩ := Option.map_eq_some_iff.1 hr
  have hok₁ := kallocPage_ok hs hk hok hf
  simp only at he
  split at he <;> obtain ⟨rfl, -⟩ := Prod.mk.inj he <;> exact hok₁

theorem createUserPml4_spec (hs : s.heap.Sound) (hr : s.createUserPml4 cr3 = some (s', pml4))
    (hok : s'.ok = true) : NewSpace pml4 s.heap s'.heap := by
  obtain ⟨⟨s₁, v⟩, hk, he⟩ := Option.map_eq_some_iff.1 hr
  have hok₁ : s₁.ok = true := by
    simp only at he
    split at he <;> obtain ⟨rfl, -⟩ := Prod.mk.inj he <;> exact hok
  obtain ⟨-, hv, ht⟩ := kallocPage_spec hs hk hok₁
  simp only [if_neg hv] at he
  generalize hfold : (List.range' 256 256).foldl _ (s₁.heap.zeroPage v) = h' at he
  obtain ⟨rfl, rfl⟩ := Prod.mk.inj he
  obtain ⟨hl, hh, hm, hent⟩ := copyKernelHalf_spec (k := s₁.heap.pteAddr cr3) ht.aligned
    (List.range' 256 256) (s₁.heap.zeroPage v)
    (fun i hi => by rw [List.mem_range'_1] at hi; exact ⟨hi.1, by omega⟩) h' hfold
  have hmem : ∀ x, pageOf x ≠ pageOf v → h'.mem x = s₁.heap.mem x := fun x hx =>
    (hm x hx).trans (zeroPage_mem_of_pageOf_ne ht.aligned hx)
  obtain ⟨hs', hfree⟩ := ht.sound.congr h' hl hh fun x hx => hmem x fun e => by
    rw [ht.free] at hx
    exact hx.2 e
  have hempty : ∀ p n, nodeAt h' v p = some n → p = [] ∧ n = .root v := fun p n =>
    nodeAt_of_no_entry fun i hi => (hent i hi).trans (entry_zeroPage _ _ (by omega))
  rw [ht.free] at hfree
  refine ⟨hv, ht.mem_free, hfree, ⟨hh.trans ht.agree.hhdm, fun x hx => ?_⟩,
    ⟨hs', ht.aligned, fun p n hn => ?_, fun p q n n' hn hn' _ _ => ?_, fun p n hn hp => ?_⟩, hempty⟩
  · exact (hmem x fun e => hx (e ▸ ht.mem_free)).trans (ht.agree.mem x hx)
  · obtain ⟨-, rfl⟩ := hempty p n hn
    rw [hfree]
    exact fun hx => hx.2 rfl
  · rw [(hempty p n hn).1, (hempty q n' hn').1]
  · exact absurd (hempty p n hn).1 hp

end PagingState

end Jeos
