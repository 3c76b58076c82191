import Jeos.Lib.LinkedCells
import Jeos.Types

/-!
# The buddy allocator of `mem.c`

Twelve intrusive lists hold the free blocks : list `o` has the blocks of `2 ^ o`
pages, and the first eight bytes of a free block are its `next` pointer. The heads
are the array `buddy.free_lists`, everything else is in the memory, so a write
through a wrong pointer can break a list here as it can in the kernel.

The functions follow `mem.c` statement by statement. The loops of `order_for`,
`buddy_remove` and `freerange` need not end on every state, so these functions
return `none` when the loop is still running after as many steps as there are
values of its variable. The spinlock is left out : each call runs under it, or
before any second CPU does (`use_lock`), and the two `memset` calls outside the
lock only touch the block of the caller.
-/

namespace Jeos

open ByteMemory

/-- `MAX_ORDER`. -/
def maxOrder : ℕ := 12

/-- The heads of `buddy.free_lists`, the memory with the list nodes, and
`hhdm_offset`. -/
structure Heap where
  mem : Mem
  freeLists : ℕ → U64
  hhdmOffset : U64

/-- `PHYS_TO_VIRT`. -/
def Heap.physToVirt (h : Heap) (p : U64) : U64 := p + h.hhdmOffset

/-- `VIRT_TO_PHYS`. -/
def Heap.virtToPhys (h : Heap) (v : U64) : U64 := v - h.hhdmOffset

/-- The places that hold a `struct run *`. -/
inductive RunCell where
  /-- `&buddy.free_lists[o]` -/
  | head (o : ℕ)
  /-- `&r->next` -/
  | next (r : U64)

namespace Heap

def load (h : Heap) : RunCell → U64
  | .head o => h.freeLists o
  | .next r => load64 h.mem r

def store (h : Heap) : RunCell → U64 → Heap
  | .head o, v => { h with freeLists := Function.update h.freeLists o v }
  | .next r, v => { h with mem := store64 h.mem r v }

@[simp] theorem load_head (h : Heap) (o : ℕ) : h.load (.head o) = h.freeLists o := rfl

@[simp] theorem load_next (h : Heap) (r : U64) : h.load (.next r) = load64 h.mem r := rfl

@[simp] theorem store_head (h : Heap) (o : ℕ) (v : U64) :
    h.store (.head o) v = { h with freeLists := Function.update h.freeLists o v } := rfl

@[simp] theorem store_next (h : Heap) (r v : U64) :
    h.store (.next r) v = { h with mem := store64 h.mem r v } := rfl

end Heap

/-- Two cells that no single store can touch both. -/
def RunCell.Apart : RunCell → RunCell → Prop
  | .head o, .head o' => o ≠ o'
  | .next r, .next r' => ByteMemory.Apart r 8 r' 8
  | _, _ => True

/-- The lists of `struct run`. -/
def runList : LinkStore Heap RunCell U64 where
  load := Heap.load
  store := Heap.store
  next := .next
  null := 0
  Apart := RunCell.Apart
  apart_symm {c d} h := by
    cases c <;> cases d
    · exact Ne.symm h
    · trivial
    · trivial
    · exact ByteMemory.Apart.symm h
  load_store_self h c v := by
    cases c
    · simp
    · simp [load64_store64_self]
  load_store_of_apart h c d v hcd := by
    cases c <;> cases d
    · simp [Function.update_of_ne (Ne.symm hcd)]
    · simp
    · simp
    · rw [Heap.store_next, Heap.load_next, load64_store64_of_apart (ByteMemory.Apart.symm hcd),
        Heap.load_next]

/-- More steps than a loop over 64-bit values can take without repeating one. -/
def loopFuel : ℕ := 2 ^ 64

/-- The loop of `order_for`. -/
def orderForLoop (n : U64) : ℕ → U64 → ℕ → Option ℕ
  | 0, _, _ => none
  | fuel + 1, size, o =>
    if size < n then orderForLoop n fuel (size <<< 1) (o + 1) else some o

/-- `order_for` : the smallest `o` with `2 ^ o ≥ n`. For `n > 2 ^ 63` the shift
drops the only bit of `size` and the loop does not end. -/
def orderFor (n : U64) : Option ℕ := orderForLoop n 65 1 0

/-- `kinit`. -/
def kinit (m : Mem) (hhdm : U64) : Heap := ⟨m, fun _ => 0, hhdm⟩

/-- `buddy_remove`. -/
def buddyRemove (h : Heap) (addr : U64) (order : ℕ) : Option (Heap × Bool) :=
  runList.unlink loopFuel h (.head order) addr

/-- `r->next = free_lists[order]; free_lists[order] = r;` -/
def pushRun (h : Heap) (order : ℕ) (r : U64) : Heap := runList.push h (.head order) r

/-- The loop of `kfree` and `freerange` that merges a block with its buddies. The
first argument is `MAX_ORDER - 1 - order`, the number of rounds left. -/
def coalesce : ℕ → Heap → U64 → ℕ → Option (Heap × U64 × ℕ)
  | 0, h, addr, order => some (h, addr, order)
  | n + 1, h, addr, order =>
    let buddyAddr := addr ^^^ (pageSize <<< order)
    match buddyRemove h buddyAddr order with
    | none => none
    | some (h', false) => some (h', addr, order)
    | some (h', true) =>
      coalesce n h' (if buddyAddr < addr then buddyAddr else addr) (order + 1)

/-- Merge a block with its buddies and put the result on its list. -/
def insertBlock (h : Heap) (addr : U64) (order : ℕ) : Option Heap :=
  (coalesce (maxOrder - 1 - order) h addr order).map fun (h', addr', order') =>
    pushRun h' order' addr'

/-- `kfree`. -/
def kfree (h : Heap) (v npages : U64) : Option Heap :=
  if v % pageSize ≠ 0 ∨ npages = 0 then some h
  else (orderFor npages).bind fun o =>
    let order := if o ≥ maxOrder then maxOrder - 1 else o
    let blockPages : U64 := 1 <<< order
    -- `memset(v, MEM_FREE_PATTERN, block_pages * PAGE_SIZE)`
    insertBlock { h with mem := fill h.mem v 1 (blockPages * pageSize).toNat } v order

/-- `while (k < MAX_ORDER && !buddy.free_lists[k]) k++;` with `MAX_ORDER - k` rounds
left. -/
def findOrder (h : Heap) : ℕ → ℕ → ℕ
  | 0, k => k
  | n + 1, k => if h.freeLists k = 0 then findOrder h n (k + 1) else k

/-- The loop of `kalloc` that puts the upper halves of `block` back, from order
`order + n` down to `order`. -/
def splitDown (block : U64) (order : ℕ) : ℕ → Heap → Heap
  | 0, h => h
  | n + 1, h =>
    splitDown block order n
      (pushRun h (order + n) (block + (pageSize <<< (order + n))))

/-- `kalloc`. -/
def kalloc (h : Heap) (npages : U64) : Option (Heap × U64) :=
  if npages = 0 then some (h, 0)
  else (orderFor npages).map fun order =>
    if order ≥ maxOrder then (h, 0)
    else
      let k := findOrder h (maxOrder - order) order
      if k = maxOrder then (h, 0)
      else
        let block := h.freeLists k
        let h₁ := splitDown block order (k - order) (runList.pop h (.head k) block)
        -- `memset(block, MEM_ALLOC_PATTERN, npages * PAGE_SIZE)`
        ({ h₁ with mem := fill h₁.mem block 5 (npages * pageSize).toNat }, block)

/-- `__builtin_ctzll` of a non-zero word, counting at most `n` bits. -/
def ctz : ℕ → ℕ → ℕ
  | 0, _ => 0
  | n + 1, x => if x % 2 = 0 then ctz n (x / 2) + 1 else 0

/-- The largest order the alignment of `p` allows. -/
def alignOrder (p : U64) : ℕ :=
  let pageIdx := p / pageSize
  let order := if pageIdx = 0 then maxOrder - 1 else ctz 64 pageIdx.toNat
  if order ≥ maxOrder then maxOrder - 1 else order

/-- `while (max_order > 0 && p + (PAGE_SIZE << max_order) > phys_end) max_order--;` -/
def shrinkOrder (p physEnd : U64) : ℕ → ℕ
  | 0 => 0
  | o + 1 => if p + (pageSize <<< (o + 1)) > physEnd then shrinkOrder p physEnd o else o + 1

/-- The loop of `freerange`. -/
def freerangeLoop (physEnd : U64) : ℕ → Heap → U64 → Option Heap
  | 0, _, _ => none
  | fuel + 1, h, p =>
    if p + pageSize ≤ physEnd then
      let order := shrinkOrder p physEnd (alignOrder p)
      (insertBlock h (h.physToVirt p) order).bind fun h' =>
        freerangeLoop physEnd fuel h' (p + (pageSize <<< order))
    else some h

/-- `freerange`. -/
def freerange (h : Heap) (physStart physEnd : U64) : Option Heap :=
  freerangeLoop physEnd loopFuel h ((physStart + pageSize - 1) &&& pageFrameMask)

end Jeos
