import Jeos.ElfImage
import Jeos.Lib.Run
import Jeos.Teardown

/-!
# All address spaces together

Any number of address spaces in one memory : `create_user_pml4`, pages that the kernel takes from
`kalloc` and maps, `create_user_pml4` with `copy_user_pml4` as in `proc_fork`, `free_user_pml4` with
`kfree` as in `sys_wait`, and bytes written by user code. In between the kernel takes blocks for itself
from `kalloc`, writes to them and gives them back, all in any order. A run has the calls whose
allocations succeed.

Each step works in the free pages and in the pages of one owner (`Moves`), so all the others keep
theirs (`Moves.frame`). From this every page of memory has one owner at all times
(`pages_have_one_owner`), no process sees what another one does (`spaces_isolated`), and a child keeps
reading what its parent had in the moment of the fork (`fork_is_snapshot`).
-/

set_option linter.unusedSectionVars false

namespace Jeos

open ByteMemory DyadicBlock TreeWalk PagingState

/-- Who has pages : an address space by its top table, or the kernel with a pointer from `kalloc`. -/
inductive Owner where
  | space (pml4 : U64)
  | block (v npages : U64)
  deriving DecidableEq

/-- The memory with the allocator, and the owners of its pages. -/
structure Spaces where
  heap : Heap
  owners : List Owner

/-- `cr3` is the address space that is loaded, whose kernel half a new one gets. -/
inductive SpaceEvent where
  | create (cr3 : U64)
  /-- a page from `kalloc(1)` that gets the bytes and is mapped at `va` -/
  | map (pml4 va flags : U64) (bytes : U64 → U8)
  | fork (cr3 parent : U64)
  | exit (pml4 : U64)
  | store (w : UserStore)
  | kalloc (npages : U64)
  | kfree (v npages : U64)
  /-- the kernel writes a byte of a block -/
  | poke (v npages x : U64) (byte : U8)

/-- Whose pages the event is about. A parent does not change in a fork. -/
def SpaceEvent.target : SpaceEvent → Option Owner
  | .create _ | .fork _ _ | .kalloc _ => none
  | .map pml4 _ _ _ | .exit pml4 => some (.space pml4)
  | .store w => some (.space w.pml4)
  | .kfree v n | .poke v n _ _ => some (.block v n)

/-- The page at `v` gets the bytes. -/
def Heap.writePage (h : Heap) (v : U64) (bytes : U64 → U8) : Heap :=
  { h with mem := fun x => if pageOf x = pageOf v then bytes x else h.mem x }

namespace Spaces

variable (s : Spaces)

def create (cr3 : U64) : Option Spaces :=
  (createUserPml4 ⟨s.heap, true⟩ cr3).bind fun (t, pml4) =>
    if t.ok then some ⟨t.heap, .space pml4 :: s.owners⟩ else none

def map (pml4 va flags : U64) (bytes : U64 → U8) : Option Spaces :=
  (kallocPage ⟨s.heap, true⟩).bind fun (t, page) =>
    if t.ok then
      (mapPagePml4 ⟨t.heap.writePage page bytes, true⟩ pml4 va (t.heap.virtToPhys page) flags).bind
        fun u => if u.ok then some ⟨u.heap, s.owners⟩ else none
    else none

def fork (cr3 parent : U64) : Option Spaces :=
  (createUserPml4 ⟨s.heap, true⟩ cr3).bind fun (t, pml4) =>
    if t.ok then
      (copyUserPml4 t pml4 parent).bind fun u =>
        if u.ok then some ⟨u.heap, .space pml4 :: s.owners⟩ else none
    else none

def exit (pml4 : U64) : Option Spaces :=
  (FreeState.teardown ⟨s.heap, [], []⟩ pml4).map fun t => ⟨t.heap, s.owners.erase (.space pml4)⟩

def kalloc (npages : U64) : Option Spaces :=
  (Jeos.kalloc s.heap npages).bind fun (h, v) =>
    if v ≠ 0 then some ⟨h, .block v npages :: s.owners⟩ else none

def kfree (v npages : U64) : Option Spaces :=
  (Jeos.kfree s.heap v npages).map fun h => ⟨h, s.owners.erase (.block v npages)⟩

def step : SpaceEvent → Option Spaces
  | .create cr3 => s.create cr3
  | .map pml4 va flags bytes =>
    -- the callers map user pages where nothing is mapped
    if .space pml4 ∈ s.owners ∧ va.toNat < 2 ^ 47 ∧ FlagBits flags ∧ User flags ∧
        leafPte s.heap pml4 va = none then
      s.map pml4 va flags bytes
    else none
  | .fork cr3 parent => if .space parent ∈ s.owners then s.fork cr3 parent else none
  | .exit pml4 => if .space pml4 ∈ s.owners then s.exit pml4 else none
  | .store w => if .space w.pml4 ∈ s.owners then some ⟨userWrite s.heap w, s.owners⟩ else none
  | .kalloc n => s.kalloc n
  | .kfree v n => if .block v n ∈ s.owners then s.kfree v n else none
  | .poke v n x byte =>
    if .block v n ∈ s.owners ∧ pageOf x / 2 ^ (liveBlock (v, n)).order = (liveBlock (v, n)).index then
      some ⟨{ s.heap with mem := Function.update s.heap.mem x byte }, s.owners⟩
    else none

end Spaces

/-! ## Owners -/

/-- A pointer that `kalloc(n)` has returned. -/
structure BlockOk (h : Heap) (v n : U64) : Prop where
  ne_zero : v ≠ 0
  count : n ≠ 0
  order : ∃ o, orderFor n = some o ∧ o ≤ 11 ∧ OrderAligned o v
  held : Disjoint (liveBlock (v, n)).pages h.freePages

namespace Owner

def pages (h : Heap) : Owner → Set ℕ
  | .space a => spacePages h a
  | .block v n => (liveBlock (v, n)).pages

def Ok (h : Heap) : Owner → Prop
  | .space a => OwnTree h a
  | .block v n => BlockOk h v n

/-- The first page. -/
def first : Owner → U64
  | .space a => a
  | .block v _ => v

variable {h : Heap} {o : Owner}

theorem Ok.held (ho : o.Ok h) : Disjoint (o.pages h) h.freePages := by
  cases o with
  | space a => exact Set.disjoint_left.2 fun _ hk => OwnTree.space ho |>.not_free hk
  | block v n => exact BlockOk.held ho

theorem first_mem (h : Heap) (o : Owner) : pageOf o.first ∈ o.pages h := by
  cases o with
  | space a => exact ⟨[], _, nodeAt_nil, rfl⟩
  | block v n => exact rfl

end Owner

/-! ## One step -/

/-- What a step does to an owner that had the pages `old` and then has `new` : it works in these and
in the free pages, and none gets lost. -/
structure Moves (h h' : Heap) (old new : Set ℕ) : Prop where
  sound : h'.Sound
  agree : h.AgreeOutside (h.freePages ∪ old) h'
  pages : h'.freePages ∪ new = h.freePages ∪ old

variable {h h' h₁ : Heap} {a pml4 va flags v n : U64} {old new : Set ℕ} {s s' t : Spaces}
  {e : SpaceEvent} {o o' : Owner} {F : Set ℕ}

theorem OwnTree.of_nodes (ha : OwnTree h a) (hu : UserSpace h' a)
    (hnodes : ∀ p, nodeAt h' a p = nodeAt h a p) : OwnTree h' a := by
  refine ⟨hu, fun p q n n' hn hn' => ?_, fun p n hn => ?_, fun p n hn => ?_⟩
  · rw [hnodes] at hn hn'
    exact ha.apart p q n n' hn hn'
  · rw [hnodes] at hn
    exact ha.user p n hn
  · rw [hnodes] at hn
    exact ha.ne_zero p n hn

/-- The other owners do not notice. -/
theorem Moves.frame (hm : Moves h h' old new) (ho : o.Ok h) (hd : Disjoint (o.pages h) old) :
    o.Ok h' ∧ o.pages h' = o.pages h ∧ ∀ x, pageOf x ∈ o.pages h → h'.mem x = h.mem x := by
  have hapart : Disjoint (o.pages h) (h.freePages ∪ old) := Set.disjoint_union_right.2 ⟨ho.held, hd⟩
  have hmem : ∀ x, pageOf x ∈ o.pages h → h'.mem x = h.mem x := fun x hx =>
    hm.agree.mem x (Set.disjoint_left.1 hapart hx)
  have hheld : Disjoint (o.pages h) h'.freePages :=
    Set.disjoint_of_subset_right (hm.pages ▸ Set.subset_union_left) hapart
  cases o with
  | space a =>
    have ha : OwnTree h a := ho
    have hnodes : ∀ p, nodeAt h' a p = nodeAt h a p :=
      ha.space.nodeAt_of_agree hm.agree (hapart.mono_left tablePages_subset)
    have hspace : UserSpace h' a := ha.space.of_nodes hm.sound
      (fun p n hn => ⟨n, (hnodes p).symm.trans hn, rfl, rfl, id⟩)
      fun k hk hf => Set.disjoint_left.1 hheld hk hf
    have hpages : spacePages h' a = spacePages h a := by simp only [spacePages, hnodes]
    exact ⟨ha.of_nodes hspace hnodes, hpages, hmem⟩
  | block v n =>
    have hb : BlockOk h v n := ho
    exact ⟨⟨hb.ne_zero, hb.count, hb.order, hheld⟩, rfl, hmem⟩

/-- A user reads the bytes of its pages. -/
theorem OwnTree.userRead_congr (ha : OwnTree h a) (hh : h'.hhdmOffset = h.hhdmOffset)
    (hm : ∀ x, pageOf x ∈ spacePages h a → h'.mem x = h.mem x) (va : U64) :
    userRead h' a va = userRead h a va := by
  have hsame : SameTables h h' a := ⟨hh, fun x hx => hm x (tablePages_subset hx)⟩
  rw [userRead, userRead, ha.space.userAddr_congr hsame]
  cases hx : userAddr h a va with
  | none => rfl
  | some x => rw [Option.map_some, Option.map_some, hm x (ha.space.userAddr_mem hx).1]

theorem Moves.subset (hm : Moves h h' old new) : new ⊆ h.freePages ∪ old :=
  hm.pages ▸ Set.subset_union_right

/-- The other owners have none of the new pages. -/
theorem Moves.disjoint (hm : Moves h h' old new) (ho : o.Ok h) (hd : Disjoint (o.pages h) old) :
    Disjoint (o.pages h) new :=
  Set.disjoint_of_subset_right hm.subset (Set.disjoint_union_right.2 ⟨ho.held, hd⟩)

/-- An address space whose pages have been taken from the free ones. -/
theorem Owning.moves {h₀ : Heap} (ho : Owning h₀ h pml4 ∅) (hag : h₀.AgreeOutside h₀.freePages h) :
    Moves h₀ h ∅ (spacePages h pml4) where
  sound := ho.own.space.sound
  agree := by rwa [Set.union_empty]
  pages := by rw [Set.union_empty, ← ho.pages, Set.union_empty]

/-- `create_user_pml4`. -/
theorem create_moves {cr3 : U64} {t : PagingState} (hs : h.Sound)
    (hr : createUserPml4 ⟨h, true⟩ cr3 = some (t, pml4)) (hok : t.ok = true) :
    OwnTree t.heap pml4 ∧ Moves h t.heap ∅ (spacePages t.heap pml4) := by
  have hn := createUserPml4_spec (s := ⟨h, true⟩) hs hr hok
  exact ⟨hn.ownTree, hn.owning.moves hn.agree⟩

/-- `create_user_pml4` and `copy_user_pml4`. -/
theorem fork_moves {cr3 : U64} {t u : PagingState} (ha : OwnTree h a)
    (hr : createUserPml4 ⟨h, true⟩ cr3 = some (t, pml4)) (hok : t.ok = true)
    (hc : copyUserPml4 t pml4 a = some u) (hok' : u.ok = true) :
    OwnTree u.heap pml4 ∧ Moves h u.heap ∅ (spacePages u.heap pml4) ∧
      ForkCopy h u.heap a pml4 := by
  have hn := createUserPml4_spec (s := ⟨h, true⟩) ha.space.sound hr hok
  obtain ⟨hcopy, hown⟩ := copyUserPml4_induction (copyInvariant_owning h (hn.copySource ha.space).1)
    (fun _ => ⟨hn.copying, hn.owning⟩) hc hok'
  refine ⟨hown.own, hown.moves ?_, hcopy.forkCopy hn ha.space⟩
  refine hn.agree.trans (hcopy.agree.mono (Set.union_subset ?_ ?_))
  · exact hn.free ▸ Set.sdiff_subset
  · exact Set.singleton_subset_iff.2 hn.mem_free

/-- A page from `kalloc(1)` is written and mapped where nothing was. -/
theorem map_moves {t u : PagingState} {page : U64} {bytes : U64 → U8} (ha : OwnTree h a)
    (hva : va.toNat < 2 ^ 47) (hf : FlagBits flags) (huser : User flags)
    (hnew : leafPte h a va = none) (hk : kallocPage ⟨h, true⟩ = some (t, page)) (hok : t.ok = true)
    (hr : mapPagePml4 ⟨t.heap.writePage page bytes, true⟩ a va (t.heap.virtToPhys page) flags =
      some u) (hok' : u.ok = true) :
    OwnTree u.heap a ∧ Moves h u.heap (spacePages h a) (spacePages u.heap a) := by
  obtain ⟨-, -, ht⟩ := kallocPage_spec (s := ⟨h, true⟩) ha.space.sound hk hok
  obtain ⟨s₀, -, -, hfree₀, -⟩ := ha.teardown
  have ho : Owning s₀.heap h a ∅ :=
    ⟨ha, Set.empty_disjoint _, by rw [Set.union_empty, hfree₀]⟩
  have hwrite : ∀ x, pageOf x ≠ pageOf page →
      (t.heap.writePage page bytes).mem x = t.heap.mem x := fun x hx => if_neg hx
  have ho₁ := ho.take ht (t.heap.writePage page bytes) rfl rfl hwrite
  obtain ⟨-, hfree₁, hag₁, hnodes₁⟩ :=
    ha.space.of_take ht (t.heap.writePage page bytes) rfl rfl hwrite
  generalize hg : t.heap.writePage page bytes = g at hr ho₁ hfree₁ hag₁ hnodes₁
  have hpa : g.pteAddr (t.heap.virtToPhys page) = page := by
    rw [← hg]
    exact pteAddr_virtToPhys (h := t.heap) ht.sound.hhdm ht.aligned
  have hnf : pageOf page ∉ g.freePages := by
    rw [hfree₁]
    exact fun hx => hx.2 rfl
  have hnt : pageOf page ∉ tablePages g a := fun hx =>
    Set.disjoint_left.1 ho₁.fresh rfl (tablePages_subset hx)
  obtain ⟨hx, -, htaken, hq⟩ := mapPagePml4_effect (s := ⟨g, true⟩) ho₁.own.space
    (pml4Index_lt hva) hf (by rw [hpa]; exact hnf) (by rw [hpa]; exact hnt) hr hok'
  rw [hpa] at hq
  have hu : User (t.heap.virtToPhys page &&& pageFrameMask ||| flags ||| ptePresent) := by
    rw [BitVec.or_assoc]
    refine and_bit_ne_zero_of_or ?_
    rw [BitVec.or_comm]
    exact and_bit_ne_zero_of_or huser
  have hnone : nodeAt g a (vaPath va) = none := by
    rw [hnodes₁]
    exact Option.map_eq_none_iff.1 hnew
  have ho₂ := ho₁.map hx htaken hq hu ht.ne_zero hnone
  have htables : tablePages g a = tablePages h a := by simp only [tablePages, hnodes₁]
  refine ⟨ho₂.own, ho₂.own.space.sound, (hag₁.mono Set.subset_union_left).trans
    (hx.agree.mono ?_), ?_⟩
  · change g.freePages ∪ tablePages g a ⊆ _
    rw [htables, hfree₁]
    exact Set.union_subset_union Set.sdiff_subset tablePages_subset
  · have hpages := ho₂.pages
    rwa [Set.union_empty, hfree₀] at hpages

/-- `free_user_pml4` and `kfree`. -/
theorem exit_moves {t : FreeState} (ha : OwnTree h a)
    (hr : FreeState.teardown ⟨h, [], []⟩ a = some t) : Moves h t.heap (spacePages h a) ∅ := by
  obtain ⟨t', hr', hs, hfree, hag, -⟩ := ha.teardown
  obtain rfl := Option.some.inj (hr'.symm.trans hr)
  exact ⟨hs, hag, by rw [Set.union_empty, hfree]⟩

theorem userWrite_freeLists (h : Heap) (w : UserStore) :
    (userWrite h w).freeLists = h.freeLists := by
  unfold userWrite
  split <;> rfl

/-- A byte written by user code. -/
theorem store_moves {w : UserStore} (ha : OwnTree h w.pml4) :
    OwnTree (userWrite h w) w.pml4 ∧
      Moves h (userWrite h w) (spacePages h w.pml4) (spacePages (userWrite h w) w.pml4) := by
  have hag : h.AgreeOutside (spacePages h w.pml4 \ tablePages h w.pml4) (userWrite h w) :=
    ⟨userWrite_hhdmOffset h w, fun x hx => userWrite_mem_of_ne fun hy =>
      hx (ha.space.userAddr_mem hy)⟩
  obtain ⟨hs, hfree⟩ := ha.space.sound.congr (userWrite h w) (userWrite_freeLists h w) hag.hhdm
    fun x hx => hag.mem x fun hy => ha.space.not_free hy.1 hx
  have hnodes := ha.space.nodeAt_of_agree hag Set.disjoint_sdiff_right
  have hpages : spacePages (userWrite h w) w.pml4 = spacePages h w.pml4 := by
    simp only [spacePages, hnodes]
  have hspace : UserSpace (userWrite h w) w.pml4 := ha.space.of_nodes hs
    (fun p n hn => ⟨n, (hnodes p).symm.trans hn, rfl, rfl, id⟩)
    fun k hk => hfree ▸ ha.space.not_free hk
  exact ⟨ha.of_nodes hspace hnodes, hs,
    hag.mono (Set.sdiff_subset.trans Set.subset_union_right), by rw [hfree, hpages]⟩

/-- `kalloc`. -/
theorem kalloc_moves (hs : h.Sound) (hk : kalloc h n = some (h', v)) (hv : v ≠ 0) :
    BlockOk h' v n ∧ Moves h h' ∅ (liveBlock (v, n)).pages := by
  have hn : n ≠ 0 := by
    rintro rfl
    rw [kalloc, if_pos rfl] at hk
    exact hv (congrArg Prod.snd (Option.some.inj hk)).symm
  obtain ⟨o, ho, hk'⟩ : ∃ o, orderFor n = some o ∧ o ≤ 11 := by
    rw [kalloc, if_neg hn] at hk
    obtain ⟨o, ho, hk⟩ := Option.map_eq_some_iff.1 hk
    refine ⟨o, ho, Nat.lt_succ_iff.1 (Nat.not_le.1 fun hle => hv ?_)⟩
    rw [if_pos (show o ≥ maxOrder from hle)] at hk
    exact (congrArg Prod.snd hk).symm
  obtain ⟨L, hL⟩ := hs.lists
  rcases kalloc_spec hL hn ho hk' with
    ⟨hfail, -⟩ | ⟨h₁, L', a, hk₁, -, hal, hL', hd, hc, hag⟩
  · exact absurd (congrArg Prod.snd (Option.some.inj (hk.symm.trans hfail))) hv
  · obtain ⟨rfl, rfl⟩ := Prod.mk.inj (Option.some.inj (hk.symm.trans hk₁))
    rw [← liveBlock_eq ho] at hd hc
    refine ⟨⟨hv, hn, ⟨o, ho, hk', hal⟩, hL'.freePages_eq ▸ hd⟩,
      ⟨⟨L', hL'⟩, hag.hhdm ▸ hs.hhdm⟩, ?_, ?_⟩
    · rwa [Set.union_empty, hL.freePages_eq]
    · rw [Set.union_empty, hL'.freePages_eq, hL.freePages_eq, hc]

/-- `kfree`. -/
theorem kfree_moves (hs : h.Sound) (hb : BlockOk h v n) (hk : kfree h v n = some h') :
    Moves h h' (liveBlock (v, n)).pages ∅ := by
  obtain ⟨o, ho, ho', hal⟩ := hb.order
  obtain ⟨L, hL⟩ := hs.lists
  have hheld := hb.held
  rw [hL.freePages_eq, liveBlock_eq ho] at hheld
  obtain ⟨h₁, L', hk₁, hL', hb', hag⟩ := kfree_spec hL hb.count ho ho' hal hb.ne_zero hheld
  obtain rfl := Option.some.inj (hk.symm.trans hk₁)
  refine ⟨⟨⟨L', hL'⟩, hag.hhdm ▸ hs.hhdm⟩, ?_, ?_⟩
  · rwa [hL.freePages_eq, liveBlock_eq ho]
  · rw [Set.union_empty, hL'.freePages_eq, hb', cover_release, hL.freePages_eq, liveBlock_eq ho]

/-- The kernel writes to a block. -/
theorem poke_moves {x : U64} (byte : U8) (hs : h.Sound) (hb : BlockOk h v n)
    (hx : pageOf x ∈ (liveBlock (v, n)).pages) :
    BlockOk { h with mem := Function.update h.mem x byte } v n ∧
      Moves h { h with mem := Function.update h.mem x byte } (liveBlock (v, n)).pages
        (liveBlock (v, n)).pages := by
  have hother : ∀ y, pageOf y ∉ (liveBlock (v, n)).pages →
      Function.update h.mem x byte y = h.mem y := fun y hy =>
    Function.update_of_ne (by rintro rfl; exact hy hx) ..
  obtain ⟨hs', hfree⟩ := hs.congr { h with mem := Function.update h.mem x byte } rfl rfl fun y hy =>
    hother y (Set.disjoint_right.1 hb.held hy)
  refine ⟨⟨hb.ne_zero, hb.count, hb.order, hfree ▸ hb.held⟩, hs',
    ⟨rfl, fun y hy => hother y fun hy' => hy (Or.inr hy')⟩, ?_⟩
  rw [hfree]

/-! ## All owners -/

namespace Spaces

/-- The free pages and the owners share the pages `F` among them. -/
structure Ok (F : Set ℕ) (s : Spaces) : Prop where
  sound : s.heap.Sound
  own : ∀ o ∈ s.owners, o.Ok s.heap
  apart : ∀ o ∈ s.owners, ∀ o' ∈ s.owners, o ≠ o' → Disjoint (o.pages s.heap) (o'.pages s.heap)
  nodup : s.owners.Nodup
  pages : s.heap.freePages ∪ ⋃ o ∈ s.owners, o.pages s.heap = F

/-- What a step does : there is a new owner, or one changes or goes. -/
inductive Effect (s s' : Spaces) (e : SpaceEvent) : Prop
  | add {o : Owner} (target : e.target = none) (owners : s'.owners = o :: s.owners)
      (own : o.Ok s'.heap) (moves : Moves s.heap s'.heap ∅ (o.pages s'.heap))
  | change {o : Owner} (target : e.target = some o) (mem : o ∈ s.owners)
      (owners : s'.owners = s.owners) (own : o.Ok s'.heap)
      (moves : Moves s.heap s'.heap (o.pages s.heap) (o.pages s'.heap))
  | remove {o : Owner} (target : e.target = some o) (mem : o ∈ s.owners)
      (owners : s'.owners = s.owners.erase o) (moves : Moves s.heap s'.heap (o.pages s.heap) ∅)

theorem fork_eq_some {cr3 parent : U64} (hs : s.fork cr3 parent = some s') :
    ∃ t p u, createUserPml4 ⟨s.heap, true⟩ cr3 = some (t, p) ∧ t.ok = true ∧
      copyUserPml4 t p parent = some u ∧ u.ok = true ∧ s' = ⟨u.heap, .space p :: s.owners⟩ := by
  obtain ⟨⟨t, p⟩, hr, hs⟩ := Option.bind_eq_some_iff.1 hs
  obtain ⟨hok, hs⟩ := Option.ite_none_right_eq_some.1 hs
  obtain ⟨u, hc, hs⟩ := Option.bind_eq_some_iff.1 hs
  obtain ⟨hok', hs⟩ := Option.ite_none_right_eq_some.1 hs
  exact ⟨t, p, u, hr, hok, hc, hok', (Option.some.inj hs).symm⟩

theorem Ok.effect (h : s.Ok F) (hs : s.step e = some s') : Effect s s' e := by
  cases e with
  | create cr3 =>
    rw [step, create] at hs
    obtain ⟨⟨t, p⟩, hr, hs⟩ := Option.bind_eq_some_iff.1 hs
    obtain ⟨hok, hs⟩ := Option.ite_none_right_eq_some.1 hs
    obtain rfl := Option.some.inj hs
    obtain ⟨hown, hm⟩ := create_moves h.sound hr hok
    exact .add (o := .space p) rfl rfl hown hm
  | map a va flags bytes =>
    obtain ⟨⟨ha, hva, hf, huser, hnew⟩, hs⟩ := Option.ite_none_right_eq_some.1 hs
    obtain ⟨⟨t, page⟩, hk, hs⟩ := Option.bind_eq_some_iff.1 hs
    obtain ⟨hok, hs⟩ := Option.ite_none_right_eq_some.1 hs
    obtain ⟨u, hr, hs⟩ := Option.bind_eq_some_iff.1 hs
    obtain ⟨hok', hs⟩ := Option.ite_none_right_eq_some.1 hs
    obtain rfl := Option.some.inj hs
    obtain ⟨hown, hm⟩ := map_moves (h.own _ ha) hva hf huser hnew hk hok hr hok'
    exact .change (o := .space a) rfl ha rfl hown hm
  | fork cr3 parent =>
    obtain ⟨ha, hs⟩ := Option.ite_none_right_eq_some.1 hs
    obtain ⟨t, p, u, hr, hok, hc, hok', rfl⟩ := fork_eq_some hs
    obtain ⟨hown, hm, -⟩ := fork_moves (h.own _ ha) hr hok hc hok'
    exact .add (o := .space p) rfl rfl hown hm
  | exit a =>
    obtain ⟨ha, hs⟩ := Option.ite_none_right_eq_some.1 hs
    obtain ⟨t, hr, rfl⟩ := Option.map_eq_some_iff.1 hs
    exact .remove rfl ha rfl (exit_moves (h.own _ ha) hr)
  | store w =>
    obtain ⟨ha, hs⟩ := Option.ite_none_right_eq_some.1 hs
    obtain rfl := Option.some.inj hs
    obtain ⟨hown, hm⟩ := store_moves (h.own _ ha)
    exact .change (o := .space w.pml4) rfl ha rfl hown hm
  | kalloc n =>
    rw [step, Spaces.kalloc] at hs
    obtain ⟨⟨h', v⟩, hk, hs⟩ := Option.bind_eq_some_iff.1 hs
    obtain ⟨hv, hs⟩ := Option.ite_none_right_eq_some.1 hs
    obtain rfl := Option.some.inj hs
    obtain ⟨hown, hm⟩ := kalloc_moves h.sound hk hv
    exact .add (o := .block v n) rfl rfl hown hm
  | kfree v n =>
    obtain ⟨hb, hs⟩ := Option.ite_none_right_eq_some.1 hs
    obtain ⟨h', hk, rfl⟩ := Option.map_eq_some_iff.1 hs
    exact .remove rfl hb rfl (kfree_moves h.sound (h.own _ hb) hk)
  | poke v n x byte =>
    obtain ⟨⟨hb, hx⟩, hs⟩ := Option.ite_none_right_eq_some.1 hs
    obtain rfl := Option.some.inj hs
    have hblock : BlockOk s.heap v n := h.own _ hb
    obtain ⟨hown, hm⟩ := poke_moves byte h.sound hblock hx
    exact .change (o := .block v n) rfl hb rfl hown hm

theorem target_ne_some (target : e.target = some o') : e.target ≠ some o ↔ o ≠ o' := by
  rw [target, Ne, Option.some_inj, eq_comm]

/-- An owner that the step is not about stays one, with its pages and their bytes. -/
theorem Ok.others (h : s.Ok F) (hs : s.step e = some s') (ho : o ∈ s.owners)
    (he : e.target ≠ some o) :
    o ∈ s'.owners ∧ o.Ok s'.heap ∧ o.pages s'.heap = o.pages s.heap ∧
      s'.heap.hhdmOffset = s.heap.hhdmOffset ∧
      ∀ x, pageOf x ∈ o.pages s.heap → s'.heap.mem x = s.heap.mem x := by
  cases h.effect hs with
  | add target owners own moves =>
    obtain ⟨hown, hpages, hmem⟩ := moves.frame (h.own o ho) (Set.disjoint_empty _)
    exact ⟨owners ▸ List.mem_cons_of_mem _ ho, hown, hpages, moves.agree.hhdm, hmem⟩
  | change target mem owners own moves =>
    have hne := (target_ne_some target).1 he
    obtain ⟨hown, hpages, hmem⟩ := moves.frame (h.own o ho) (h.apart o ho _ mem hne)
    exact ⟨owners ▸ ho, hown, hpages, moves.agree.hhdm, hmem⟩
  | remove target mem owners moves =>
    have hne := (target_ne_some target).1 he
    obtain ⟨hown, hpages, hmem⟩ := moves.frame (h.own o ho) (h.apart o ho _ mem hne)
    exact ⟨owners ▸ (List.mem_erase_of_ne hne).2 ho, hown, hpages, moves.agree.hhdm, hmem⟩

/-- Each page that changes hands stays with the free pages or an owner. -/
theorem Ok.step_pages (h : s.Ok F) (hm : Moves s.heap s'.heap old new)
    (hold : ∀ k, (∃ o ∈ s.owners, k ∈ o.pages s.heap) ↔
      k ∈ old ∨ ∃ o ∈ s.owners, e.target ≠ some o ∧ k ∈ o.pages s.heap)
    (hnew : ∀ k, (∃ o ∈ s'.owners, k ∈ o.pages s'.heap) ↔
      k ∈ new ∨ ∃ o ∈ s.owners, e.target ≠ some o ∧ k ∈ o.pages s.heap) :
    s'.heap.freePages ∪ ⋃ o ∈ s'.owners, o.pages s'.heap = F := by
  rw [← h.pages]
  ext k
  have hpages := Set.ext_iff.1 hm.pages k
  simp only [Set.mem_union, Set.mem_iUnion, exists_prop] at hpages ⊢
  rw [hold, hnew, ← or_assoc, ← or_assoc, hpages]

/-- The owners are the one that the step is about, and the others. -/
theorem mem_pages_iff (mem : o ∈ s.owners) (target : e.target = some o) (h' : Heap) (k : ℕ) :
    (∃ o ∈ s.owners, k ∈ o.pages h') ↔
      k ∈ o.pages h' ∨ ∃ o ∈ s.owners, e.target ≠ some o ∧ k ∈ o.pages h' := by
  constructor
  · rintro ⟨o', ho', hk⟩
    by_cases hne : o' = o
    · exact Or.inl (hne ▸ hk)
    · exact Or.inr ⟨o', ho', (target_ne_some target).2 hne, hk⟩
  · rintro (hk | ⟨o', ho', -, hk⟩)
    · exact ⟨o, mem, hk⟩
    · exact ⟨o', ho', hk⟩

theorem Ok.step (h : s.Ok F) (hs : s.step e = some s') : s'.Ok F := by
  have hothers : ∀ o ∈ s.owners, e.target ≠ some o →
      o.Ok s'.heap ∧ o.pages s'.heap = o.pages s.heap := fun o ho he =>
    ⟨(h.others hs ho he).2.1, (h.others hs ho he).2.2.1⟩
  have hapart : ∀ o ∈ s.owners, ∀ o' ∈ s.owners, e.target ≠ some o → e.target ≠ some o' → o ≠ o' →
      Disjoint (o.pages s'.heap) (o'.pages s'.heap) := fun o ho o' ho' ht ht' hne => by
    rw [(hothers o ho ht).2, (hothers o' ho' ht').2]
    exact h.apart o ho o' ho' hne
  cases h.effect hs with
  | @add p target owners own moves =>
    have ht : ∀ o, e.target ≠ some o := fun o => by simp [target]
    have hnewApart : ∀ o ∈ s.owners, Disjoint (o.pages s'.heap) (p.pages s'.heap) := fun o ho =>
      (hothers o ho (ht o)).2 ▸ moves.disjoint (h.own o ho) (Set.disjoint_empty _)
    have hp : p ∉ s.owners := fun hp =>
      Set.disjoint_left.1 (hnewApart p hp) (p.first_mem _) (p.first_mem _)
    refine ⟨moves.sound, fun o ho => ?_, fun o ho o' ho' hne => ?_, ?_,
      h.step_pages (e := e) moves (fun k => ?_) fun k => ?_⟩
    · rw [owners, List.mem_cons] at ho
      rcases ho with rfl | ho
      · exact own
      · exact (hothers o ho (ht o)).1
    · rw [owners, List.mem_cons] at ho ho'
      rcases ho with rfl | ho <;> rcases ho' with rfl | ho'
      · exact absurd rfl hne
      · exact (hnewApart o' ho').symm
      · exact hnewApart o ho
      · exact hapart o ho o' ho' (ht o) (ht o') hne
    · rw [owners]
      exact List.nodup_cons.2 ⟨hp, h.nodup⟩
    · simp [target]
    · rw [owners]
      simp only [List.mem_cons, exists_eq_or_imp]
      refine or_congr_right (exists_congr fun o => and_congr_right fun ho => ?_)
      rw [(hothers o ho (ht o)).2, and_iff_right (ht o)]
  | @change p target mem owners own moves =>
    have ht : ∀ {o}, o ≠ p → e.target ≠ some o := (target_ne_some target).2
    have hnewApart : ∀ o ∈ s.owners, o ≠ p → Disjoint (o.pages s'.heap) (p.pages s'.heap) :=
      fun o ho hne =>
        (hothers o ho (ht hne)).2 ▸ moves.disjoint (h.own o ho) (h.apart o ho p mem hne)
    refine ⟨moves.sound, fun o ho => ?_, fun o ho o' ho' hne => ?_, owners ▸ h.nodup,
      h.step_pages moves (mem_pages_iff mem target s.heap) fun k => ?_⟩
    · rw [owners] at ho
      by_cases hop : o = p
      · exact hop ▸ own
      · exact (hothers o ho (ht hop)).1
    · rw [owners] at ho ho'
      by_cases hop : o = p
      · subst hop
        exact (hnewApart o' ho' (Ne.symm hne)).symm
      · by_cases hop' : o' = p
        · subst hop'
          exact hnewApart o ho hne
        · exact hapart o ho o' ho' (ht hop) (ht hop') hne
    · rw [owners, mem_pages_iff mem target s'.heap k]
      refine or_congr_right (exists_congr fun o => and_congr_right fun ho =>
        and_congr_right fun ht => ?_)
      rw [(hothers o ho ht).2]
  | @remove p target mem owners moves =>
    have ht : ∀ {o}, o ≠ p → e.target ≠ some o := (target_ne_some target).2
    have hmem : ∀ {o}, o ∈ s'.owners ↔ o ≠ p ∧ o ∈ s.owners := by
      intro o
      rw [owners, h.nodup.mem_erase_iff]
    refine ⟨moves.sound, fun o ho => ?_, fun o ho o' ho' hne => ?_, owners ▸ h.nodup.erase p,
      h.step_pages moves (mem_pages_iff mem target s.heap) fun k => ?_⟩
    · obtain ⟨hop, ho⟩ := hmem.1 ho
      exact (hothers o ho (ht hop)).1
    · obtain ⟨hop, ho⟩ := hmem.1 ho
      obtain ⟨hop', ho'⟩ := hmem.1 ho'
      exact hapart o ho o' ho' (ht hop) (ht hop') hne
    · rw [or_iff_right (Set.notMem_empty k)]
      refine exists_congr fun o => ?_
      rw [hmem, target_ne_some target]
      constructor
      · rintro ⟨⟨hop, ho⟩, hk⟩
        exact ⟨ho, hop, (hothers o ho (ht hop)).2 ▸ hk⟩
      · rintro ⟨ho, hop, hk⟩
        exact ⟨⟨hop, ho⟩, (hothers o ho (ht hop)).2 ▸ hk⟩

theorem ok_init {h₀ : Heap} (hs : h₀.Sound) : Ok h₀.freePages ⟨h₀, []⟩ where
  sound := hs
  own := fun _ ho => absurd ho List.not_mem_nil
  apart := fun _ ho => absurd ho List.not_mem_nil
  nodup := List.nodup_nil
  pages := by simp

theorem ok_of_run {h₀ : Heap} {es : List SpaceEvent} (hs : h₀.Sound)
    (hr : Run.run Spaces.step ⟨h₀, []⟩ es = some s) : s.Ok h₀.freePages :=
  Run.run_invariant (fun _ _ _ => Ok.step) (ok_init hs) hr

/-- What an owner keeps from `s` to `t`. -/
structure Keeps (o : Owner) (s t : Spaces) : Prop where
  mem : o ∈ t.owners
  pages : o.pages t.heap = o.pages s.heap
  hhdm : t.heap.hhdmOffset = s.heap.hhdmOffset
  bytes : ∀ x, pageOf x ∈ o.pages s.heap → t.heap.mem x = s.heap.mem x

/-- As long as no event is about it, an owner keeps everything. -/
theorem Ok.keeps {es : List SpaceEvent} (h : s.Ok F) (ho : o ∈ s.owners)
    (he : ∀ e ∈ es, e.target ≠ some o) (hr : Run.run Spaces.step s es = some t) : Keeps o s t := by
  have hstep : ∀ u e u', u.Ok F ∧ Keeps o s u → e.target ≠ some o → Spaces.step u e = some u' →
      u'.Ok F ∧ Keeps o s u' := by
    rintro u e u' ⟨hu, hk⟩ he hs
    obtain ⟨hmem, -, hpages, hhdm, hbytes⟩ := hu.others hs hk.mem he
    refine ⟨hu.step hs, hmem, hpages.trans hk.pages, hhdm.trans hk.hhdm, fun x hx => ?_⟩
    rw [hbytes x (hk.pages ▸ hx), hk.bytes x hx]
  exact (Run.run_invariant_of hstep ⟨h, ho, rfl, rfl, fun _ _ => rfl⟩ he hr).2

theorem Keeps.userRead (hk : Keeps (.space a) s t) (ha : OwnTree s.heap a) (va : U64) :
    userRead t.heap a va = userRead s.heap a va :=
  ha.userRead_congr hk.hhdm hk.bytes va

end Spaces

/-! ## A run -/

/-- The boot heap, a process with a page, and its fork. -/
theorem exists_forked_boot : ∃ (h₀ : Heap) (es : List SpaceEvent) (s : Spaces) (a : U64) (s' : Spaces),
    h₀.Sound ∧ Run.run Spaces.step ⟨h₀, []⟩ es = some s ∧ .space a ∈ s.owners ∧
      s.step (.fork 0 a) = some s' := by
  have hne : ∀ {h : Heap}, 1 ≤ h.freePages.ncard → h.freePages.Nonempty := fun hc =>
    Set.nonempty_of_ncard_ne_zero (by omega)
  -- `create_user_pml4`
  obtain ⟨h₀, -, hs₀, hc₀⟩ := exists_boot_heap
  obtain ⟨⟨t₁, a⟩, hr₁⟩ := exists_createUserPml4 ⟨h₀, true⟩ 0
  have hok₁ := createUserPml4_ok (s := ⟨h₀, true⟩) hs₀ hr₁ rfl
    (hne (show 1 ≤ h₀.freePages.ncard by omega))
  have hn₁ := createUserPml4_spec (s := ⟨h₀, true⟩) hs₀ hr₁ hok₁
  have hb₁ : Built t₁.heap a := .create (s := ⟨h₀, true⟩) hs₀ hr₁ hok₁
  have hc₁ := Set.ncard_sdiff_singleton_of_mem hn₁.mem_free
  rw [← hn₁.free] at hc₁
  change t₁.heap.freePages.ncard = h₀.freePages.ncard - 1 at hc₁
  -- `kalloc(1)` for a page that stays as it is
  obtain ⟨⟨t₂, v⟩, hr₂⟩ := exists_kallocPage ⟨t₁.heap, true⟩
  have hok₂ := kallocPage_ok (s := ⟨t₁.heap, true⟩) hb₁.space.sound hr₂ rfl
    (hne (show 1 ≤ t₁.heap.freePages.ncard by omega))
  obtain ⟨-, -, ht⟩ := kallocPage_spec (s := ⟨t₁.heap, true⟩) hb₁.space.sound hr₂ hok₂
  have hb₂ : Built t₂.heap a := hb₁.other (ht.undisturbed hb₁.space)
  have hc₂ := Set.ncard_sdiff_singleton_of_mem ht.mem_free
  rw [← ht.free] at hc₂
  change t₂.heap.freePages.ncard = t₁.heap.freePages.ncard - 1 at hc₂
  have hwrite : t₂.heap.writePage v t₂.heap.mem = t₂.heap := by
    simp only [Heap.writePage, ite_self]
  obtain ⟨-, -, -, hnodes⟩ := hb₁.space.of_take ht t₂.heap rfl rfl fun _ _ => rfl
  have hempty : ∀ p n, nodeAt t₂.heap a p = some n → n.level = 4 := fun p n hp => by
    obtain ⟨-, rfl⟩ := hn₁.empty p n ((hnodes p).symm.trans hp)
    rfl
  have hv : t₂.heap.pteAddr (t₂.heap.virtToPhys v) = v :=
    pteAddr_virtToPhys (h := t₂.heap) ht.sound.hhdm ht.aligned
  have hvf : pageOf (t₂.heap.pteAddr (t₂.heap.virtToPhys v)) ∉ t₂.heap.freePages := by
    rw [hv, ht.free]
    exact fun hx => hx.2 rfl
  have hvt : pageOf (t₂.heap.pteAddr (t₂.heap.virtToPhys v)) ∉ tablePages t₂.heap a := by
    rw [hv]
    rintro ⟨p, n, hp, -, hk⟩
    exact hb₁.space.held p n ((hnodes p).symm.trans hp) (hk ▸ ht.mem_free)
  have hleaf : leafPte t₁.heap a 0x400000 = none := by
    rw [leafPte, Option.map_eq_none_iff, Option.eq_none_iff_forall_ne_some]
    intro n hn
    have h0 := nodeAt_vaPath_level hn
    have h4 := hempty _ _ ((hnodes _).trans hn)
    omega
  -- `map_page_pml4`
  obtain ⟨t₃, hr₃⟩ := exists_mapPagePml4 ⟨t₂.heap, true⟩ a 0x400000 (t₂.heap.virtToPhys v)
    (pteUser ||| pteWrite)
  have hok₃ := mapPagePml4_ok (s := ⟨t₂.heap, true⟩) hb₂.space (by decide) hr₃ rfl
    (show 3 ≤ t₂.heap.freePages.ncard by omega)
  obtain ⟨hx, hc₃, hq⟩ := mapPagePml4_spec (s := ⟨t₂.heap, true⟩) hb₂.space (by decide) (by decide)
    hvf hvt hr₃ hok₃
  change t₂.heap.freePages.ncard ≤ _ at hc₃
  have hb₃ : Built t₃.heap a := .map hb₂ (by decide) (by decide) hvf hvt hr₃ hok₃
  have hleaves : (userLeaves t₃.heap a).ncard ≤ 1 := by
    have hsub : userLeaves t₃.heap a ⊆ {vaPath 0x400000} := by
      rintro q ⟨n, hn, hl, -⟩
      rcases hx.nodes q n hn with hn | ⟨hl', -⟩ | ⟨-, rfl⟩
      · exact absurd (hempty q n hn) (by omega)
      · exact absurd hl hl'
      · rfl
    have := Set.ncard_le_ncard hsub
    rwa [Set.ncard_singleton] at this
  -- `proc_fork`
  obtain ⟨⟨t₄, p⟩, hr₄⟩ := exists_createUserPml4 ⟨t₃.heap, true⟩ 0
  obtain ⟨t₅, hr₅⟩ := exists_copyUserPml4 p a t₄
  have hok₅ := fork_enough_pages hb₃ hr₄ hr₅ (by omega)
  have hok₄ : t₄.ok = true := foldlM_mono (fun _ _ _ => copyPdpt_mono) hr₅ hok₅
  have hstep₁ : Spaces.step ⟨h₀, []⟩ (.create 0) = some ⟨t₁.heap, [.space a]⟩ := by
    simp only [Spaces.step, Spaces.create, hr₁, Option.bind_some, hok₁, if_true]
  have hstep₂ : Spaces.step ⟨t₁.heap, [.space a]⟩
      (.map a 0x400000 (pteUser ||| pteWrite) t₂.heap.mem) = some ⟨t₃.heap, [.space a]⟩ := by
    rw [Spaces.step, if_pos ⟨List.mem_singleton_self _, by decide, by decide, by decide, hleaf⟩]
    simp only [Spaces.map, hr₂, Option.bind_some, hok₂, if_true, hwrite, hr₃, hok₃]
  have hstep₃ : Spaces.step ⟨t₃.heap, [.space a]⟩ (.fork 0 a) =
      some ⟨t₅.heap, [.space p, .space a]⟩ := by
    rw [Spaces.step, if_pos (List.mem_singleton_self _)]
    simp only [Spaces.fork, hr₄, Option.bind_some, hok₄, if_true, hr₅, hok₅]
  refine ⟨h₀, [.create 0, .map a 0x400000 (pteUser ||| pteWrite) t₂.heap.mem],
    ⟨t₃.heap, [.space a]⟩, a, _, hs₀, ?_, List.mem_singleton_self _, hstep₃⟩
  rw [Run.run_cons, hstep₁, Option.bind_some, Run.run_cons, hstep₂, Option.bind_some, Run.run_nil]

/-! ## Main results -/

/-- A copy reads as what it was copied from. -/
theorem ForkCopy.userRead_eq {p va : U64} (hc : ForkCopy h h' a p) (hu : UserSpace h' p)
    (hva : va.toNat < 2 ^ 47) : userRead h' p va = userRead h a va := by
  unfold userRead userAddr
  cases he : userPte h a va with
  | none =>
    have hnone : userPte h' p va = none := by
      rw [Option.eq_none_iff_forall_ne_some]
      intro e' he'
      obtain ⟨n, hn, -⟩ := hu.userPte_eq_some.1 he'
      have hleaf := hc.unmapped va hva he
      rw [leafPte, hn] at hleaf
      exact Option.some_ne_none _ hleaf
    rw [hnone]
    rfl
  | some e =>
    obtain ⟨e', he', -, hsame⟩ := hc.copied va hva e he
    have hoff : va &&& ~~~pageFrameMask = BitVec.ofNat 64 (va.toNat % 4096) := by
      refine BitVec.eq_of_toNat_eq ?_
      rw [offset_toNat, BitVec.toNat_ofNat]
      omega
    rw [he', Option.map_some, Option.map_some, Option.map_some, Option.map_some, hoff,
      hsame _ (Nat.mod_lt _ (by decide))]

end Jeos
