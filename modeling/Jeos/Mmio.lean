import Jeos.MappingLaw

/-!
# `map_mmio`

`map_page` of `mem.c` works on the active page tables, which the boot loader has built, and
`map_mmio` calls it for each page of a physical range. `nextTable` is the step it makes three times.

The second part is what the processor does with these tables. In an entry the physical address has
the bits 12 to 51, and an entry of level 3 or 2 with bit 7 set maps a large page, so it has no table
below. The code looks at bit 0 alone.
-/

namespace Jeos

open ByteMemory

/-- `PTE_PWT`. -/
def ptePwt : U64 := 8

/-- `PTE_PCD`. -/
def ptePcd : U64 := 16

/-- The flags of `map_mmio`. -/
def mmioFlags : U64 := ptePresent ||| pteWrite ||| ptePcd ||| ptePwt

namespace PagingState

/-- Get or create the table below entry `i` of `table`. -/
def nextTable (s : PagingState) (table : U64) (i : ℕ) : Option (PagingState × U64) :=
  if Present (s.heap.entry table i) then some (s, s.heap.pteAddr (s.heap.entry table i))
  else s.kallocPage.map fun (s, v) =>
    let newTable := s.heap.virtToPhys v
    let h := (s.heap.zeroPage (s.heap.physToVirt newTable)).setEntry table i
      (newTable ||| ptePresent ||| pteWrite)
    ({ s with heap := h }, h.pteAddr (h.entry table i))

/-- `map_page` with the value of CR3. -/
def mapPage (s : PagingState) (cr3 virt phys flags : U64) : Option PagingState :=
  -- `get_pml4()`
  let pml4 := s.heap.pteAddr cr3
  (s.nextTable pml4 (pml4Index virt)).bind fun (s, pdpt) =>
    (s.nextTable pdpt (pdptIndex virt)).bind fun (s, pd) =>
      (s.nextTable pd (pdIndex virt)).map fun (s, pt) =>
        { s with heap := s.heap.setEntry pt (ptIndex virt)
                  (phys &&& pageFrameMask ||| flags ||| ptePresent) }

/-- The loop of `map_mmio`. -/
def mapMmioLoop (cr3 stop : U64) : ℕ → PagingState → U64 → Option PagingState
  | 0, _, _ => none
  | fuel + 1, s, p =>
    if p < stop then
      (s.mapPage cr3 (s.heap.physToVirt p) p mmioFlags).bind fun s =>
        mapMmioLoop cr3 stop fuel s (p + pageSize)
    else some s

/-- `map_mmio`. -/
def mapMmio (s : PagingState) (cr3 phys size : U64) : Option PagingState :=
  mapMmioLoop cr3 ((phys + size + pageSize - 1) &&& pageFrameMask) loopFuel s (phys &&& pageFrameMask)

end PagingState

/-! ## The processor -/

/-- The bits of the physical address in an entry. -/
def frameBits : U64 := 0x000ffffffffff000

/-- The table an entry points to. -/
def Heap.tableBelow (h : Heap) (e : U64) : U64 := h.physToVirt (e &&& frameBits)

/-- The walk from the table `t` for the indices `is` : how many levels are left at the entry that
maps the page, the entry, and the rights all entries of the walk grant. -/
def walkFrom (h : Heap) : List ℕ → U64 → U64 → Option (ℕ × U64 × U64)
  | [], _, _ => none
  | i :: is, t, rights =>
    let e := h.entry t i
    if ¬Present e then none
    else if IsLeaf e is.length then some (is.length, e, rights &&& e)
    else walkFrom h is (h.tableBelow e) (rights &&& e)

instance (va : U64) : Decidable (Canonical va) := inferInstanceAs (Decidable (_ ∨ _))

/-- The bits of an address that are the offset in a page, where `below` levels are left. -/
def offsetBits (below : ℕ) : U64 := (1 <<< (12 + 9 * below)) - 1

/-- The physical address, the rights and the mapping entry of a virtual address. -/
def translate (h : Heap) (root va : U64) : Option (U64 × U64 × U64) :=
  if Canonical va then
    (walkFrom h (vaPath va) root (-1)).map fun (below, e, rights) =>
      (e &&& frameBits &&& ~~~offsetBits below ||| va &&& offsetBits below, rights, e)
  else none

/-- A table of level 1 to 4. -/
structure Table where
  level : ℕ
  addr : U64
  deriving DecidableEq

/-- The table below entry `i`, if there is one. -/
def nextOf (h : Heap) (n : Table) (i : ℕ) : Option Table :=
  if 1 < n.level ∧ i < 512 ∧ Present (h.entry n.addr i) ∧ ¬IsLeaf (h.entry n.addr i) (n.level - 1)
  then some ⟨n.level - 1, h.tableBelow (h.entry n.addr i)⟩ else none

/-- The table at a path of indices. -/
def tableAt (h : Heap) (root : U64) (p : List ℕ) : Option Table :=
  TreeWalk.walk (nextOf h) ⟨4, root⟩ p

/-- The pages of the tables. -/
def rootPages (h : Heap) (root : U64) : Set ℕ :=
  {k | ∃ p n, tableAt h root p = some n ∧ pageOf n.addr = k}

/-- Page tables as the boot loader hands them over, with the direct map in the higher half : the
tables are in use and make a tree, their entries grant writes and have the address of a table in the
direct map. The free pages are in the direct map as well. -/
structure KernelTree (h : Heap) (root : U64) : Prop where
  sound : h.Sound
  higher : 2 ^ 64 - 2 ^ 47 ≤ h.hhdmOffset.toNat
  direct : ∀ k ∈ h.freePages, h.hhdmOffset.toNat ≤ 4096 * k
  root_aligned : PageAligned root
  held : ∀ p n, tableAt h root p = some n → pageOf n.addr ∉ h.freePages
  unshared : ∀ p q n n', tableAt h root p = some n → tableAt h root q = some n' →
    n.addr = n'.addr → p = q
  entries : ∀ p n i n', tableAt h root p = some n → nextOf h n i = some n' →
    h.entry n.addr i &&& pteWrite ≠ 0 ∧ h.pteAddr (h.entry n.addr i) = n'.addr

/-- The pages `map_mmio` goes through. -/
def Touched (phys size p : U64) : Prop :=
  PageAligned p ∧ phys &&& pageFrameMask ≤ p ∧ p < (phys + size + pageSize - 1) &&& pageFrameMask

/-- What `map_mmio` is for : the bytes of the range are writable and not cached at their addresses
in the direct map, other pages keep their translation, and no byte outside the tables and the free
pages changes. -/
structure MmioMapped (h h' : Heap) (root phys size : U64) : Prop where
  range : ∀ b : U64, phys.toNat ≤ b.toNat → b.toNat < phys.toNat + size.toNat →
    ∃ rights e, translate h' root (h.physToVirt b) = some (b, rights, e) ∧ Present rights ∧
      rights &&& pteWrite ≠ 0 ∧ e &&& ptePcd ≠ 0
  others : ∀ va, (∀ p, Touched phys size p → pageOf va ≠ pageOf (h.physToVirt p)) →
    translate h' root va = translate h root va
  data : h.AgreeOutside (h.freePages ∪ rootPages h root) h'

/-- No large page maps `va`. -/
def SmallAt (h : Heap) (root va : U64) : Prop :=
  ∀ below e rights, walkFrom h (vaPath va) root (-1) = some (below, e, rights) → below = 0

end Jeos
