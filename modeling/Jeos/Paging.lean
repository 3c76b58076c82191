import Jeos.Buddy
import Jeos.Lib.TreeWalk

/-!
# The user page tables of `mem.c`

A page table is 512 words in a page of the memory, and an entry points to the next
table, or to a frame in the last one, by its physical address. The functions reach
tables and frames through the direct map.

`getTable` is the step `map_page_pml4` makes three times, with the names of the two
tables changed. `copy_user_pml4` has one definition for each of its four loops. The
functions do not test the pointer of every `kalloc`; `ok` records whether all of
them were non-null, and no function reads it.

The second part is the tree these words make. A node is a table or a frame with the
entry that points to it, and only the user half of the top table has children, the
entries 0 to 255.
-/

namespace Jeos

open ByteMemory

/-! ## Entries -/

/-- `PTE_PRESENT`. -/
def ptePresent : U64 := 1

/-- `PTE_WRITE`. -/
def pteWrite : U64 := 2

/-- `PTE_USER`. -/
def pteUser : U64 := 4

/-- `pte & PTE_PRESENT`. -/
def Present (e : U64) : Prop := e &&& ptePresent ≠ 0

/-- `pte & PTE_USER`. -/
def User (e : U64) : Prop := e &&& pteUser ≠ 0

instance (e : U64) : Decidable (Present e) := inferInstanceAs (Decidable (_ ≠ _))

instance (e : U64) : Decidable (User e) := inferInstanceAs (Decidable (_ ≠ _))

/-- `PML4_INDEX`. -/
def pml4Index (va : U64) : ℕ := ((va >>> 39) &&& 0x1FF).toNat

/-- `PDPT_INDEX`. -/
def pdptIndex (va : U64) : ℕ := ((va >>> 30) &&& 0x1FF).toNat

/-- `PD_INDEX`. -/
def pdIndex (va : U64) : ℕ := ((va >>> 21) &&& 0x1FF).toNat

/-- `PT_INDEX`. -/
def ptIndex (va : U64) : ℕ := ((va >>> 12) &&& 0x1FF).toNat

/-- `&table[i]`. -/
def entryAddr (t : U64) (i : ℕ) : U64 := t + BitVec.ofNat 64 (8 * i)

/-- `table[i]`. -/
def Heap.entry (h : Heap) (t : U64) (i : ℕ) : U64 := load64 h.mem (entryAddr t i)

/-- `table[i] = e;` -/
def Heap.setEntry (h : Heap) (t : U64) (i : ℕ) (e : U64) : Heap :=
  { h with mem := store64 h.mem (entryAddr t i) e }

/-- `PHYS_TO_VIRT(pte & PAGE_FRAME_MASK)`. -/
def Heap.pteAddr (h : Heap) (e : U64) : U64 := h.physToVirt (e &&& pageFrameMask)

/-- `memset(p, 0, PAGE_SIZE)`. -/
def Heap.zeroPage (h : Heap) (p : U64) : Heap := { h with mem := fill h.mem p 0 4096 }

/-- `memcpy(dst, src, PAGE_SIZE)`. -/
def Heap.copyPage (h : Heap) (dst src : U64) : Heap := { h with mem := copy h.mem dst src 4096 }

/-! ## The functions -/

/-- The allocator and the memory, and whether every `kalloc` so far gave a block. -/
structure PagingState where
  heap : Heap
  ok : Bool

namespace PagingState

/-- `kalloc(1)`. -/
def kallocPage (s : PagingState) : Option (PagingState × U64) :=
  (kalloc s.heap 1).map fun (h, v) => (⟨h, s.ok && decide (v ≠ 0)⟩, v)

/-- Get or create the table below entry `i` of `table`. -/
def getTable (s : PagingState) (table : U64) (i : ℕ) : Option (PagingState × U64) :=
  if Present (s.heap.entry table i) then some (s, s.heap.pteAddr (s.heap.entry table i))
  else s.kallocPage.map fun (s, v) =>
    let newTable := s.heap.virtToPhys v
    let h := (s.heap.zeroPage (s.heap.physToVirt newTable)).setEntry table i
      (newTable ||| ptePresent ||| pteWrite ||| pteUser)
    ({ s with heap := h }, h.pteAddr (h.entry table i))

/-- `map_page_pml4`. -/
def mapPagePml4 (s : PagingState) (pml4 virt phys flags : U64) : Option PagingState :=
  (s.getTable pml4 (pml4Index virt)).bind fun (s, pdpt) =>
    (s.getTable pdpt (pdptIndex virt)).bind fun (s, pd) =>
      (s.getTable pd (pdIndex virt)).map fun (s, pt) =>
        { s with heap := s.heap.setEntry pt (ptIndex virt)
                  (phys &&& pageFrameMask ||| flags ||| ptePresent) }

/-- `create_user_pml4` with the value of CR3. -/
def createUserPml4 (s : PagingState) (cr3 : U64) : Option (PagingState × U64) :=
  s.kallocPage.map fun (s, newPml4) =>
    if newPml4 = 0 then (s, 0)
    else
      -- `get_pml4()`
      let kernelPml4 := s.heap.pteAddr cr3
      let h := (List.range' 256 256).foldl
        (fun h i => h.setEntry newPml4 i (h.entry kernelPml4 i)) (s.heap.zeroPage newPml4)
      ({ s with heap := h }, newPml4)

/-- The loop over `i1` of `copy_user_pml4`, one round. -/
def copyPage (newPml4 oldPt : U64) (i4 i3 i2 : ℕ) (s : PagingState) (i1 : ℕ) :
    Option PagingState :=
  let pte := s.heap.entry oldPt i1
  if ¬Present pte ∨ ¬User pte then some s
  else
    let va : U64 := BitVec.ofNat 64 i4 <<< 39 ||| BitVec.ofNat 64 i3 <<< 30 |||
      BitVec.ofNat 64 i2 <<< 21 ||| BitVec.ofNat 64 i1 <<< 12
    s.kallocPage.bind fun (s, newPage) =>
      if newPage = 0 then some s
      else
        let h := s.heap.copyPage newPage (s.heap.pteAddr pte)
        let flags := pte &&& ~~~pageFrameMask &&& ~~~ptePresent
        mapPagePml4 { s with heap := h } newPml4 va (h.virtToPhys newPage) flags

/-- The loop over `i2` of `copy_user_pml4`, one round. -/
def copyPt (newPml4 oldPd : U64) (i4 i3 : ℕ) (s : PagingState) (i2 : ℕ) : Option PagingState :=
  if ¬Present (s.heap.entry oldPd i2) then some s
  else
    let oldPt := s.heap.pteAddr (s.heap.entry oldPd i2)
    (List.range 512).foldlM (copyPage newPml4 oldPt i4 i3 i2) s

/-- The loop over `i3` of `copy_user_pml4`, one round. -/
def copyPd (newPml4 oldPdpt : U64) (i4 : ℕ) (s : PagingState) (i3 : ℕ) : Option PagingState :=
  if ¬Present (s.heap.entry oldPdpt i3) then some s
  else
    let oldPd := s.heap.pteAddr (s.heap.entry oldPdpt i3)
    (List.range 512).foldlM (copyPt newPml4 oldPd i4 i3) s

/-- The loop over `i4` of `copy_user_pml4`, one round. -/
def copyPdpt (newPml4 oldPml4 : U64) (s : PagingState) (i4 : ℕ) : Option PagingState :=
  if ¬Present (s.heap.entry oldPml4 i4) then some s
  else
    let oldPdpt := s.heap.pteAddr (s.heap.entry oldPml4 i4)
    (List.range 512).foldlM (copyPd newPml4 oldPdpt i4) s

/-- `copy_user_pml4`. -/
def copyUserPml4 (s : PagingState) (newPml4 oldPml4 : U64) : Option PagingState :=
  (List.range 256).foldlM (copyPdpt newPml4 oldPml4) s

end PagingState

/-! ## The tree -/

/-- A table of level 1 to 4 or a frame (level 0), with the entry that points to it. -/
structure Node where
  level : ℕ
  pte : U64
  addr : U64
  deriving DecidableEq

namespace Node

/-- The top table. Nothing in the tree points to it. -/
def root (pml4 : U64) : Node := ⟨4, 0, pml4⟩

/-- The number of entries of the table in the user half. -/
def fanout (n : Node) : ℕ := if n.level = 4 then 256 else 512

end Node

/-- What entry `i` of a table points to. -/
def child (h : Heap) (n : Node) (i : ℕ) : Option Node :=
  if n.level ≠ 0 ∧ i < n.fanout ∧ Present (h.entry n.addr i) then
    some ⟨n.level - 1, h.entry n.addr i, h.pteAddr (h.entry n.addr i)⟩
  else none

/-- The node at a path of indices. -/
def nodeAt (h : Heap) (pml4 : U64) (p : List ℕ) : Option Node :=
  TreeWalk.walk (child h) (.root pml4) p

/-- The indices of a virtual address. -/
def vaPath (va : U64) : List ℕ := [pml4Index va, pdptIndex va, pdIndex va, ptIndex va]

/-- The entry that maps `va`, with all four levels present. -/
def leafPte (h : Heap) (pml4 va : U64) : Option U64 := (nodeAt h pml4 (vaPath va)).map Node.pte

/-- A step of the processor for a user access : the entry must have `PTE_USER`. -/
def userChild (h : Heap) (n : Node) (i : ℕ) : Option Node :=
  (child h n i).filter fun n' => decide (User n'.pte)

/-- The entry through which a user access reaches `va`. -/
def userPte (h : Heap) (pml4 va : U64) : Option U64 :=
  (TreeWalk.walk (userChild h) (.root pml4) (vaPath va)).map Node.pte

/-- The pages of the tables of the user half. -/
def tablePages (h : Heap) (pml4 : U64) : Set ℕ :=
  {k | ∃ p n, nodeAt h pml4 p = some n ∧ n.level ≠ 0 ∧ pageOf n.addr = k}

/-- The pages of the tables and frames of the user half. -/
def spacePages (h : Heap) (pml4 : U64) : Set ℕ :=
  {k | ∃ p n, nodeAt h pml4 p = some n ∧ pageOf n.addr = k}

end Jeos
