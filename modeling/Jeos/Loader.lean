import Jeos.Lib.Extent
import Jeos.Lib.Loop
import Jeos.Paging

/-!
# Filling an address space

`elf_load_segments` and `sys_brk` take pages one at a time, fill them and map them with
`map_page_pml4`. Both test the pointer of their own `kalloc` and return when it is null.
`mapNewPage` is that common step, with what the caller writes to the page.

The file is read through `const u8 *elf_buf` only, so it is a memory of its own here,
addressed by the offset from `elf_buf`; what lies behind its end may be anything.

`pagesOk`, `tablesOk`, `reads` and `copies` record whether every `kalloc` of a page and
every `kalloc` inside `map_page_pml4` gave a block, which bytes of the file were read, and
which bytes of a page `memcpy` wrote, by their offset in the page. No function reads them.
-/

namespace Jeos

open ByteMemory

/-! ## Pages -/

/-- The allocator and the memory, and whether every page and every table asked for was there. -/
structure MapState where
  heap : Heap
  pagesOk : Bool
  tablesOk : Bool

/-- `page = kalloc(1); if (!page) return; memset(page, 0, PAGE_SIZE); ...`
`map_page_pml4(pml4, va, VIRT_TO_PHYS(page), flags);` where `write` is what is left out. -/
def MapState.mapNewPage (s : MapState) (pml4 va flags : U64) (write : U64 → Heap → Heap) :
    Option (MapState × Bool) :=
  (kalloc s.heap 1).bind fun (h, page) =>
    if page = 0 then some ({ s with heap := h, pagesOk := false }, false)
    else
      let h := write page (h.zeroPage page)
      (PagingState.mapPagePml4 ⟨h, true⟩ pml4 va (h.virtToPhys page) flags).map fun p =>
        ({ s with heap := p.heap, tablesOk := s.tablesOk && p.ok }, true)

/-- `for (u64 va = start; va < stop; va += PAGE_SIZE)`. -/
def forPages {σ : Type} (f : σ → U64 → Option (σ × Bool)) (start stop : U64) (s : σ) :
    Option (σ × Bool) :=
  Loop.forUp f stop pageSize loopFuel start s

/-- `(a + PAGE_SIZE - 1) & ~(PAGE_SIZE - 1)`. -/
def pageUp (a : U64) : U64 := (a + pageSize - 1) &&& ~~~(pageSize - 1)

/-- `a & ~(PAGE_SIZE - 1)`. -/
def pageDown (a : U64) : U64 := a &&& ~~~(pageSize - 1)

/-! ## `elf.h` -/

namespace Elf

open CType in
/-- `Elf64_Ehdr`. -/
def ehdr : List CType :=
  [u32, u8, u8, u8, u8, u64, u16, u16, u32, u64, u64, u64, u32, u16, u16, u16, u16, u16, u16]

open CType in
/-- `Elf64_Phdr`. -/
def phdr : List CType := [u32, u32, u64, u64, u64, u64, u64, u64]

/-- The bytes of field `k` of a packed structure at the offset `p` of the file. -/
def field (fs : List CType) (p : U64) (k : ℕ) : Extent 64 :=
  ⟨p + BitVec.ofNat 64 (CType.packedOffset fs k), ((fs[k]?).map CType.size).getD 0⟩

section Fields

variable (elf : Mem) (i : ℕ)

/-- `ehdr->e_magic`. -/
def eMagic : U32 := load32 elf (field ehdr 0 0).start

/-- `ehdr->e_class`. -/
def eClass : U8 := elf (field ehdr 0 1).start

/-- `ehdr->e_machine`. -/
def eMachine : U16 := load16 elf (field ehdr 0 7).start

/-- `ehdr->e_entry`. -/
def eEntry : U64 := load64 elf (field ehdr 0 9).start

/-- `ehdr->e_phoff`. -/
def ePhoff : U64 := load64 elf (field ehdr 0 10).start

/-- `ehdr->e_phnum`. -/
def ePhnum : U16 := load16 elf (field ehdr 0 15).start

/-- Field `k` of `phdr[i]`. -/
def phdrField (k : ℕ) : Extent 64 :=
  field phdr (ePhoff elf + BitVec.ofNat 64 (i * CType.packedOffset phdr phdr.length)) k

/-- `phdr[i].p_type`. -/
def pType : U32 := load32 elf (phdrField elf i 0).start

/-- `phdr[i].p_flags`. -/
def pFlags : U32 := load32 elf (phdrField elf i 1).start

/-- `phdr[i].p_offset`. -/
def pOffset : U64 := load64 elf (phdrField elf i 2).start

/-- `phdr[i].p_vaddr`. -/
def pVaddr : U64 := load64 elf (phdrField elf i 3).start

/-- `phdr[i].p_filesz`. -/
def pFilesz : U64 := load64 elf (phdrField elf i 5).start

/-- `phdr[i].p_memsz`. -/
def pMemsz : U64 := load64 elf (phdrField elf i 6).start

end Fields

/-- `ELF_MAGIC`. -/
def magic : U32 := 0x464C457F

/-- `ELFCLASS64`. -/
def class64 : U8 := 2

/-- `EM_X86_64`. -/
def machineX8664 : U16 := 62

/-- `PT_LOAD`. -/
def ptLoad : U32 := 1

/-- `PF_W`. -/
def pfW : U32 := 2

end Elf

/-! ## `elf_load_segments` -/

/-- `USER_STACK_TOP`. -/
def userStackTop : U64 := 0x7FFFFFF000

/-- `USER_STACK_BASE`. -/
def userStackBase : U64 := 0x7FFFFFE000

/-- The state of the loader, with the bytes read from the file and written to the pages. -/
structure LoadState where
  map : MapState
  reads : List (Extent 64)
  copies : List (Extent 64)

namespace LoadState

open Elf

section Page

variable (elf : Mem) (i : ℕ) (va : U64)

/-- `seg_start + phdr[i].p_filesz`. -/
def segFileEnd : U64 := pVaddr elf i + pFilesz elf i

/-- `va + PAGE_SIZE > seg_start && va < seg_file_end`. -/
def HasFileBytes : Prop := va + pageSize > pVaddr elf i ∧ va < segFileEnd elf i

instance : Decidable (HasFileBytes elf i va) := inferInstanceAs (Decidable (_ ∧ _))

/-- `copy_start`. -/
def copyStart : U64 := if va > pVaddr elf i then va else pVaddr elf i

/-- `copy_end`. -/
def copyEnd : U64 :=
  if va + pageSize < segFileEnd elf i then va + pageSize else segFileEnd elf i

/-- The source of `memcpy`, by the offset in the file. -/
def copySource : Extent 64 :=
  ⟨pOffset elf i + (copyStart elf i va - pVaddr elf i),
    (copyEnd elf i va - copyStart elf i va).toNat⟩

/-- The destination of `memcpy`, by the offset in the page. -/
def copyTarget : Extent 64 :=
  ⟨copyStart elf i va - va, (copyEnd elf i va - copyStart elf i va).toNat⟩

/-- What is copied from the file into the page for `va`. -/
def copyFile (page : U64) (h : Heap) : Heap :=
  if HasFileBytes elf i va then
    { h with mem := paste h.mem (page + (copyTarget elf i va).start) elf
              (copySource elf i va).start (copySource elf i va).length }
  else h

/-- One page of segment `i`. -/
def loadPage (pml4 flags : U64) (s : LoadState) : Option (LoadState × Bool) :=
  (s.map.mapNewPage pml4 va flags (copyFile elf i va)).map fun (m, go) =>
    if go then
      let s := { s with map := m, reads := phdrField elf i 3 :: phdrField elf i 5 :: s.reads }
      if HasFileBytes elf i va then
        ({ s with reads := phdrField elf i 2 :: copySource elf i va :: s.reads,
                  copies := copyTarget elf i va :: s.copies }, true)
      else (s, true)
    else ({ s with map := m }, false)

end Page

/-- The round for `phdr[i]`. -/
def loadSegment (pml4 : U64) (elf : Mem) (s : LoadState) (i : ℕ) : Option (LoadState × Bool) :=
  let s := { s with reads := field ehdr 0 15 :: phdrField elf i 0 :: s.reads }
  if pType elf i ≠ ptLoad then some (s, true)
  else
    let vaStart := pageDown (pVaddr elf i)
    let vaEnd := pageUp (pVaddr elf i + pMemsz elf i)
    let flags := pteUser ||| if pFlags elf i &&& pfW ≠ 0 then pteWrite else 0
    let s := { s with
      reads := phdrField elf i 3 :: phdrField elf i 6 :: phdrField elf i 1 :: s.reads }
    forPages (fun s va => loadPage elf i va pml4 flags s) vaStart vaEnd s

/-- The loop for the user stack, one round. -/
def mapStackPage (pml4 : U64) (s : LoadState) (va : U64) : Option (LoadState × Bool) :=
  (s.map.mapNewPage pml4 va (pteUser ||| pteWrite) fun _ h => h).map fun (m, go) =>
    ({ s with map := m }, go)

/-- `elf_load_segments` : `some e` is the return value 0 with `*entry_out = e`, and `none` is -1.
The length of the file is not used. -/
def elfLoadSegments (s : LoadState) (pml4 : U64) (elf : Mem) (_elfSize : U64) :
    Option (LoadState × Option U64) :=
  let s := { s with reads := field ehdr 0 0 :: s.reads }
  if eMagic elf ≠ magic then some (s, none)
  else
    let s := { s with reads := field ehdr 0 1 :: s.reads }
    if eClass elf ≠ class64 then some (s, none)
    else
      let s := { s with reads := field ehdr 0 7 :: s.reads }
      if eMachine elf ≠ machineX8664 then some (s, none)
      else
        let s := { s with reads := field ehdr 0 10 :: s.reads }
        (Loop.each (loadSegment pml4 elf) (List.range (ePhnum elf).toNat) s).bind fun (s, go) =>
          if ¬go then some (s, none)
          else
            let s := { s with reads := field ehdr 0 15 :: s.reads }
            (forPages (mapStackPage pml4) userStackBase (userStackTop + pageSize) s).map
              fun (s, go) =>
                if go then ({ s with reads := field ehdr 0 9 :: s.reads }, some (eEntry elf))
                else (s, none)

end LoadState

/-! ## `sys_brk` -/

/-- `USER_HEAP_BASE`. -/
def userHeapBase : U64 := 0x40000000

/-- The fields of `struct proc` that `sys_brk` uses. -/
structure ProcMem where
  pml4 : U64
  brk : U64

/-- `sys_brk` of the current process : the return value and the process after the call. -/
def sysBrk (s : MapState) (p : Option ProcMem) (newBrk : U64) :
    Option (MapState × Option ProcMem × U64) :=
  match p with
  | none => some (s, none, -1)
  | some p =>
    if newBrk = 0 then some (s, some p, p.brk)
    else if newBrk < userHeapBase ∨ newBrk > 0x400000000 then some (s, some p, p.brk)
    else if newBrk > p.brk then
      (forPages (fun s va => s.mapNewPage p.pml4 va (pteUser ||| pteWrite) fun _ h => h)
        (pageUp p.brk) (pageUp newBrk) s).map fun (s, go) =>
          if go then (s, some { p with brk := newBrk }, newBrk) else (s, some p, p.brk)
    else some (s, some { p with brk := newBrk }, newBrk)

end Jeos
