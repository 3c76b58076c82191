import Mathlib.Algebra.BigOperators.Intervals
import Mathlib.Algebra.Order.BigOperators.Group.Finset
import Jeos.ElfImage

/-!
# The argument vector on the user stack

`setup_user_stack` copies the strings of `argv` to the top of the page at `USER_STACK_BASE`,
each below the one before, aligns the pointer and pushes two null words, the addresses of the
strings and their number. It writes through the direct map, and takes a page of its own for the
addresses of the strings.

`um` is the memory of the program that calls `exec`, as the kernel reads it through the old
tables. It is a memory of its own here : neither the new stack page nor the buffer is mapped in
it. `argc` is a number and does not overflow. `str_bytes` is left out, since nothing reads it.

`writes` records the ranges that were written, by their addresses in the direct map. No function
reads it.

A vector that fits the page is there when the function returns (`setupUserStack_argv`), with
nothing written outside the page and the buffer (`setupUserStack_fits`). The pointer it returns is
a multiple of 16 for an odd number of strings only (`setupUserStack_aligned_iff`).
-/

set_option linter.unusedSectionVars false

namespace Jeos

open ByteMemory TreeWalk

/-- The byte the kernel reads at `va` with the tables of `pml4` : in the user half through the four
levels, in the kernel half where `mem` has it. An address without a page counts as 0. -/
def Heap.view (h : Heap) (pml4 : U64) : Mem := fun va =>
  if va.toNat < 2 ^ 47 then
    match nodeAt h pml4 (vaPath va) with
    | some n => h.mem (n.addr + (va &&& ~~~pageFrameMask))
    | none => 0
  else h.mem va

section View

variable {h h' : Heap} {pml4 va : U64} {n : Node} {o : ℕ}

theorem add_toNat_of_page (h47 : va.toNat + 4096 ≤ 2 ^ 47) (ho : o < 4096) :
    (va + BitVec.ofNat 64 o).toNat = va.toNat + o := by
  rw [BitVec.toNat_add, BitVec.toNat_ofNat]
  omega

/-- The addresses of a page have one path. -/
theorem vaPath_add (hva : PageAligned va) (h47 : va.toNat + 4096 ≤ 2 ^ 47) (ho : o < 4096) :
    vaPath (va + BitVec.ofNat 64 o) = vaPath va := by
  have hal : va.toNat % 4096 = 0 := Nat.mod_eq_zero_of_dvd hva
  simp only [vaPath, pml4Index, pdptIndex, pdIndex, ptIndex, index_toNat, add_toNat_of_page h47 ho,
    List.cons.injEq, and_true]
  omega

/-- What is read in a page of the user half. -/
theorem view_page (hva : PageAligned va) (h47 : va.toNat + 4096 ≤ 2 ^ 47)
    (hn : nodeAt h pml4 (vaPath va) = some n) (ho : o < 4096) :
    h.view pml4 (va + BitVec.ofNat 64 o) = h.mem (n.addr + BitVec.ofNat 64 o) := by
  have hal : va.toNat % 4096 = 0 := Nat.mod_eq_zero_of_dvd hva
  have hsum := add_toNat_of_page h47 ho
  have hoff : (va + BitVec.ofNat 64 o) &&& ~~~pageFrameMask = BitVec.ofNat 64 o :=
    BitVec.eq_of_toNat_eq (by
      rw [offset_toNat, hsum, BitVec.toNat_ofNat]
      omega)
  rw [Heap.view, if_pos (by omega), vaPath_add hva h47 ho, hn, hoff]

/-- A page that is shown is read through the tables. -/
theorem Shows.view {f : U64} {c : ℕ → U8} (hs : Shows h pml4 (vaPath va) f c)
    (hva : PageAligned va) (h47 : va.toNat + 4096 ≤ 2 ^ 47) (ho : o < 4096) :
    h.view pml4 (va + BitVec.ofNat 64 o) = c o := by
  obtain ⟨n, hn, -, -, hb⟩ := hs
  rw [view_page hva h47 hn ho, hb o ho]

/-- A user access reads what the kernel reads. -/
theorem view_of_userRead {b : U8} (h47 : va.toNat < 2 ^ 47) (hr : userRead h pml4 va = some b) :
    h.view pml4 va = b := by
  obtain ⟨x, hx, rfl⟩ := Option.map_eq_some_iff.1 hr
  obtain ⟨e, he, rfl⟩ := Option.map_eq_some_iff.1 hx
  obtain ⟨n, hn, rfl⟩ := Option.map_eq_some_iff.1 he
  have hn' := nodeAt_of_walk_userChild hn
  rw [Heap.view, if_pos h47, hn', ← nodeAt_addr hn' (vaPath_ne_nil va)]

/-- What is not written in the pages of an address space, is read through it as before. -/
theorem UserSpace.view_of_agree (hu : UserSpace h pml4) {U : Set ℕ} (hag : h.AgreeOutside U h')
    (hd : Disjoint (spacePages h pml4) U) (h47 : va.toNat < 2 ^ 47) :
    h'.view pml4 va = h.view pml4 va := by
  rw [Heap.view, Heap.view, if_pos h47, if_pos h47,
    hu.nodeAt_of_agree hag (hd.mono_left tablePages_subset)]
  cases hn : nodeAt h pml4 (vaPath va) with
  | none => rfl
  | some n =>
    refine hag.mem _ ?_
    have hoff : va &&& ~~~pageFrameMask = BitVec.ofNat 64 (va.toNat % 4096) :=
      BitVec.eq_of_toNat_eq (by
        rw [offset_toNat, BitVec.toNat_ofNat]
        omega)
    rw [hoff, pageOf_add (hu.aligned hn) (Nat.mod_lt _ (by norm_num))]
    exact Set.disjoint_left.1 hd ⟨_, n, hn, rfl⟩

end View

namespace UserStack

/-! ## `setup_user_stack` -/

/-- `argv[i]`. -/
def argAt (um : Mem) (argv : U64) (i : ℕ) : U64 := load64 um (argv + BitVec.ofNat 64 (8 * i))

/-- `argc`. -/
def argCount (um : Mem) (argv : U64) : ℕ := if argv = 0 then 0 else (words um (2 ^ 64) argv).length

/-- `l` : the length of `argv[i]` with its NUL. -/
def argSize (um : Mem) (argv : U64) (i : ℕ) : ℕ := (stringAt um (argAt um argv i)).length + 1

/-- `phys`, unless a level is missing. -/
def stackPhys (h : Heap) (pml4 : U64) : Option U64 :=
  let va := userStackBase
  let p4 := pml4
  if ¬Present (h.entry p4 (pml4Index va)) then none
  else
    let p3 := h.pteAddr (h.entry p4 (pml4Index va))
    if ¬Present (h.entry p3 (pdptIndex va)) then none
    else
      let p2 := h.pteAddr (h.entry p3 (pdptIndex va))
      if ¬Present (h.entry p2 (pdIndex va)) then none
      else
        let p1 := h.pteAddr (h.entry p2 (pdIndex va))
        if ¬Present (h.entry p1 (ptIndex va)) then none
        else some (h.entry p1 (ptIndex va) &&& pageFrameMask)

/-- The memory, the pointer that moves down the page (`str_ptr`, and then `sp`), and the ranges
that were written. -/
structure StackState where
  heap : Heap
  ptr : U64
  writes : List (Extent 64)

namespace StackState

/-- `*(u64 *)a = v;` -/
def storeWord (s : StackState) (a v : U64) : StackState :=
  { s with heap := { s.heap with mem := store64 s.heap.mem a v }, writes := ⟨a, 8⟩ :: s.writes }

/-- `sp--; *sp = v;` -/
def pushWord (s : StackState) (v : U64) : StackState :=
  let sp := s.ptr - BitVec.ofNat 64 8
  storeWord { s with ptr := sp } sp v

/-- The loop over the strings, one round. -/
def copyArg (um : Mem) (argv kpage argvUvas : U64) (i : ℕ) (s : StackState) : StackState :=
  let l := argSize um argv i
  let strPtr := s.ptr - BitVec.ofNat 64 l
  let mem := paste s.heap.mem strPtr um (argAt um argv i) l
  storeWord { heap := { s.heap with mem := mem }, ptr := strPtr, writes := ⟨strPtr, l⟩ :: s.writes }
    (argvUvas + BitVec.ofNat 64 (8 * i)) (userStackBase + (strPtr - kpage))

/-- `rsp &= ~(u64)15`, and `sp` at the place of `rsp`. -/
def align (kpage : U64) (s : StackState) : StackState :=
  let rsp := (userStackBase + (s.ptr - kpage)) &&& ~~~15
  { s with ptr := kpage + (rsp - userStackBase) }

/-- The loop that pushes the addresses of the strings, one round. -/
def pushArg (argvUvas : U64) (i : ℕ) (s : StackState) : StackState :=
  s.pushWord (load64 s.heap.mem (argvUvas + BitVec.ofNat 64 (8 * i)))

/-- From the loop over the strings to `argc`. -/
def fillStack (um : Mem) (argv kpage argvUvas : U64) (s : StackState) : StackState :=
  let argc := argCount um argv
  let s := (List.range argc).foldr (copyArg um argv kpage argvUvas) s
  let s := ((s.align kpage).pushWord 0).pushWord 0
  let s := (List.range argc).foldr (pushArg argvUvas) s
  s.pushWord (BitVec.ofNat 64 argc)

end StackState

/-- `setup_user_stack` : the state at the end, and the new stack pointer. -/
def setupUserStack (h : Heap) (pml4 : U64) (um : Mem) (argv : U64) : Option (StackState × U64) :=
  match stackPhys h pml4 with
  | none => some (⟨h, 0, []⟩, userStackTop)
  | some phys =>
    let kpage := h.physToVirt phys
    (kalloc h 1).bind fun (h, argvUvas) =>
      if argvUvas = 0 then some (⟨h, kpage + pageSize, []⟩, userStackTop)
      else
        let s := StackState.fillStack um argv kpage argvUvas ⟨h, kpage + pageSize, []⟩
        (kfree s.heap argvUvas 1).map fun h =>
          ({ s with heap := h }, userStackBase + (s.ptr - kpage))

/-! ## The page of the stack -/

section Page

variable {h h' : Heap} {pml4 : U64} {n : Node}

theorem child_bind {β : Type} {l i : ℕ} {e t : U64} (f : Node → Option β)
    (hi : i < (⟨l + 1, e, t⟩ : Node).fanout) : (child h ⟨l + 1, e, t⟩ i).bind f =
      if ¬Present (h.entry t i) then none else f ⟨l, h.entry t i, h.pteAddr (h.entry t i)⟩ := by
  rw [child]
  by_cases hp : Present (h.entry t i)
  · rw [if_pos ⟨l.succ_ne_zero, hi, hp⟩, if_neg (not_not.2 hp), Option.bind_some]
    rfl
  · rw [if_neg fun hc => hp hc.2.2, if_pos hp, Option.bind_none]

/-- The walk of `setup_user_stack` is the walk over the tree. -/
theorem stackPhys_eq (h : Heap) (pml4 : U64) :
    stackPhys h pml4 = (leafPte h pml4 userStackBase).map (· &&& pageFrameMask) := by
  simp only [stackPhys, leafPte, nodeAt, vaPath, walk_cons, walk_nil, Node.root]
  rw [child_bind _ (show pml4Index userStackBase < 256 by decide)]
  by_cases p4 : ¬Present (h.entry pml4 (pml4Index userStackBase))
  · rw [if_pos p4, if_pos p4]
    rfl
  rw [if_neg p4, if_neg p4, child_bind _ (show pdptIndex userStackBase < 512 from index_lt _ _)]
  generalize h.pteAddr (h.entry pml4 (pml4Index userStackBase)) = t3
  by_cases p3 : ¬Present (h.entry t3 (pdptIndex userStackBase))
  · rw [if_pos p3, if_pos p3]
    rfl
  rw [if_neg p3, if_neg p3, child_bind _ (show pdIndex userStackBase < 512 from index_lt _ _)]
  generalize h.pteAddr (h.entry t3 (pdptIndex userStackBase)) = t2
  by_cases p2 : ¬Present (h.entry t2 (pdIndex userStackBase))
  · rw [if_pos p2, if_pos p2]
    rfl
  rw [if_neg p2, if_neg p2, child_bind _ (show ptIndex userStackBase < 512 from index_lt _ _)]
  generalize h.pteAddr (h.entry t2 (pdIndex userStackBase)) = t1
  by_cases p1 : ¬Present (h.entry t1 (ptIndex userStackBase))
  · rw [if_pos p1, if_pos p1]
    rfl
  · rw [if_neg p1, if_neg p1]
    rfl

end Page

/-! ## The layout of the page -/

section Layout

variable {um : Mem} {argv kpage argvUvas : U64} {i j : ℕ}

/-- The bytes of the strings from `argv[i]` on, with their NULs. -/
def bytesFrom (um : Mem) (argv : U64) (i : ℕ) : ℕ :=
  ∑ k ∈ Finset.Ico i (argCount um argv), argSize um argv k

/-- The place of the copy of `argv[i]` in the page. -/
def argOffset (um : Mem) (argv : U64) (i : ℕ) : ℕ := 4096 - bytesFrom um argv i

/-- The bytes of all strings, rounded up to a multiple of 16. -/
def stringBytes (um : Mem) (argv : U64) : ℕ := (bytesFrom um argv 0 + 15) / 16 * 16

/-- The strings and the words behind them fit the page. -/
def Fits (um : Mem) (argv : U64) : Prop :=
  stringBytes um argv + 8 * (argCount um argv + 3) ≤ 4096

instance (um : Mem) (argv : U64) : Decidable (Fits um argv) :=
  inferInstanceAs (Decidable (_ ≤ _))

/-- The range lies in the page or in the buffer. -/
def Inside (kpage argvUvas : U64) (e : Extent 64) : Prop :=
  ∀ x, Within x e.start e.length → Within x kpage 4096 ∨ Within x argvUvas 4096

theorem bytesFrom_eq (hi : i < argCount um argv) :
    bytesFrom um argv i = argSize um argv i + bytesFrom um argv (i + 1) :=
  Finset.sum_eq_sum_Ico_succ_bot hi _

theorem bytesFrom_anti (um : Mem) (argv : U64) (h : i ≤ j) : bytesFrom um argv j ≤ bytesFrom um argv i :=
  Finset.sum_le_sum_of_subset (Finset.Ico_subset_Ico_left h)

theorem bytesFrom_count (um : Mem) (argv : U64) : bytesFrom um argv (argCount um argv) = 0 := by
  rw [bytesFrom, Finset.Ico_self, Finset.sum_empty]

theorem Fits.bytesFrom_le (hf : Fits um argv) (i : ℕ) : bytesFrom um argv i ≤ 4096 := by
  have := bytesFrom_anti um argv (Nat.zero_le i)
  unfold Fits stringBytes at hf
  omega

theorem Fits.count_le (hf : Fits um argv) : argCount um argv ≤ 509 := by
  unfold Fits at hf
  omega

/-- A string ends where the next one starts. -/
theorem Fits.argOffset_add (hf : Fits um argv) (hi : i < argCount um argv) :
    argOffset um argv i + argSize um argv i = argOffset um argv (i + 1) := by
  have := bytesFrom_eq hi
  have := hf.bytesFrom_le i
  unfold argOffset
  omega

theorem argOffset_mono (um : Mem) (argv : U64) (h : i ≤ j) :
    argOffset um argv i ≤ argOffset um argv j :=
  Nat.sub_le_sub_left (bytesFrom_anti um argv h) _

theorem Fits.argOffset_add_le (hf : Fits um argv) (hi : i < argCount um argv) :
    argOffset um argv i + argSize um argv i ≤ 4096 := by
  rw [hf.argOffset_add hi]
  exact Nat.sub_le _ _

theorem inside_page {o l : ℕ} (h : o + l ≤ 4096) :
    Inside kpage argvUvas ⟨kpage + BitVec.ofNat 64 o, l⟩ :=
  fun _ hx => Or.inl (hx.of_add h (by norm_num))

theorem inside_buffer {o l : ℕ} (h : o + l ≤ 4096) :
    Inside kpage argvUvas ⟨argvUvas + BitVec.ofNat 64 o, l⟩ :=
  fun _ hx => Or.inr (hx.of_add h (by norm_num))

end Layout

/-! ## The strings -/

section Fill

variable {um : Mem} {argv kpage argvUvas v : U64} {i : ℕ} {g : Heap} {s s₀ : StackState}

/-- The strings from `argv[i]` on are in the page, and their addresses in the buffer. -/
structure Copied (um : Mem) (argv kpage argvUvas : U64) (g : Heap) (i : ℕ) (s : StackState) :
    Prop where
  ptr : s.ptr = kpage + BitVec.ofNat 64 (argOffset um argv i)
  freeLists : s.heap.freeLists = g.freeLists
  hhdm : s.heap.hhdmOffset = g.hhdmOffset
  outside : ∀ x, ¬Within x (kpage + BitVec.ofNat 64 (argOffset um argv i)) (bytesFrom um argv i) →
    ¬Within x argvUvas 4096 → s.heap.mem x = g.mem x
  strings : ∀ k, i ≤ k → k < argCount um argv → ∀ j < argSize um argv k,
    s.heap.mem (kpage + BitVec.ofNat 64 (argOffset um argv k + j)) =
      um (argAt um argv k + BitVec.ofNat 64 j)
  buffer : ∀ k, i ≤ k → k < argCount um argv →
    load64 s.heap.mem (argvUvas + BitVec.ofNat 64 (8 * k)) =
      userStackBase + BitVec.ofNat 64 (argOffset um argv k)
  writes : ∀ e ∈ s.writes, Inside kpage argvUvas e

/-- The pointer is at `o` in the page, and everything was written in the page or the buffer. -/
structure Placed (kpage argvUvas : U64) (o : ℕ) (s : StackState) : Prop where
  ptr : s.ptr = kpage + BitVec.ofNat 64 o
  writes : ∀ e ∈ s.writes, Inside kpage argvUvas e

theorem Placed.copyArg (hf : Fits um argv) (hi : i < argCount um argv)
    (h : Placed kpage argvUvas (argOffset um argv (i + 1)) s) :
    Placed kpage argvUvas (argOffset um argv i) (s.copyArg um argv kpage argvUvas i) := by
  have hoff := hf.argOffset_add hi
  have hcount := hf.count_le
  have hptr : s.ptr - BitVec.ofNat 64 (argSize um argv i) =
      kpage + BitVec.ofNat 64 (argOffset um argv i) := by
    rw [h.ptr, ← hoff, add_ofNat_sub _ (Nat.le_add_left _ _), Nat.add_sub_cancel]
  refine ⟨hptr, fun e he => ?_⟩
  rcases List.mem_cons.1 he with rfl | he
  · exact inside_buffer (by omega)
  · rcases List.mem_cons.1 he with rfl | he
    · rw [hptr]
      exact inside_page (hf.argOffset_add_le hi)
    · exact h.writes e he

theorem Placed.pushWord {o : ℕ} (h : Placed kpage argvUvas o s) (h8 : 8 ≤ o) (ho : o ≤ 4096)
    (v : U64) : Placed kpage argvUvas (o - 8) (s.pushWord v) := by
  have hptr : s.ptr - BitVec.ofNat 64 8 = kpage + BitVec.ofNat 64 (o - 8) := by
    rw [h.ptr, add_ofNat_sub _ h8]
  refine ⟨hptr, fun e he => ?_⟩
  rcases List.mem_cons.1 he with rfl | he
  · rw [hptr]
    exact inside_page (by omega)
  · exact h.writes e he

theorem Copied.start (um : Mem) (argv kpage argvUvas : U64) (g : Heap) :
    Copied um argv kpage argvUvas g (argCount um argv) ⟨g, kpage + pageSize, []⟩ where
  ptr := by rw [argOffset, bytesFrom_count]; rfl
  freeLists := rfl
  hhdm := rfl
  outside _ _ _ := rfl
  strings k hk hk' := absurd hk' (Nat.not_lt.2 hk)
  buffer k hk hk' := absurd hk' (Nat.not_lt.2 hk)
  writes e he := absurd he List.not_mem_nil

theorem Copied.copyArg (hf : Fits um argv) (hap : Apart kpage 4096 argvUvas 4096)
    (hi : i < argCount um argv) (hc : Copied um argv kpage argvUvas g (i + 1) s) :
    Copied um argv kpage argvUvas g i (s.copyArg um argv kpage argvUvas i) := by
  have hoff := hf.argOffset_add hi
  have hle := hf.argOffset_add_le hi
  have hcount := hf.count_le
  have hbytes := bytesFrom_eq hi
  have hmax := hf.bytesFrom_le i
  have hplaced := Placed.copyArg hf hi ⟨hc.ptr, hc.writes⟩
  have hptr : s.ptr - BitVec.ofNat 64 (argSize um argv i) =
      kpage + BitVec.ofNat 64 (argOffset um argv i) := hplaced.ptr
  -- where the round writes
  have hpaste : ∀ x, ¬Within x (kpage + BitVec.ofNat 64 (argOffset um argv i)) (argSize um argv i) →
      ¬Within x (argvUvas + BitVec.ofNat 64 (8 * i)) 8 →
      (s.copyArg um argv kpage argvUvas i).heap.mem x = s.heap.mem x := fun x hx hx' => by
    rw [StackState.copyArg, hptr]
    exact (store64_of_not_within hx').trans (paste_of_not_within hx)
  have hbuf : ∀ k, k < argCount um argv → ∀ x, Within x (argvUvas + BitVec.ofNat 64 (8 * k)) 8 →
      Within x argvUvas 4096 := fun k hk x hx => hx.of_add (by omega) (by norm_num)
  have hpage : ∀ o l, o + l ≤ 4096 → ∀ x, Within x (kpage + BitVec.ofNat 64 o) l →
      ¬Within x argvUvas 4096 := fun o l hol x hx => hap x (hx.of_add hol (by norm_num))
  refine ⟨hptr, hc.freeLists, hc.hhdm, fun x hx hx' => ?_, fun k hk hk' j hj => ?_,
    fun k hk hk' => ?_, hplaced.writes⟩
  · rw [hpaste x (fun h => hx (lt_of_lt_of_le h (by omega))) fun h => hx' (hbuf i hi x h)]
    refine hc.outside x (fun h => hx ?_) hx'
    rw [← hoff, add_ofNat_add] at h
    exact h.of_add (by omega) (by omega)
  · rcases Nat.eq_or_lt_of_le hk with rfl | hlt
    · -- a byte of this string
      have hin : Within (kpage + BitVec.ofNat 64 (argOffset um argv i + j)) kpage 4096 :=
        within_add _ (by omega) (by norm_num)
      rw [StackState.copyArg, hptr]
      refine (store64_of_not_within fun h => hap _ hin (hbuf i hi _ h)).trans ?_
      rw [add_ofNat_add]
      exact paste_add hj (by omega)
    · have hmono := argOffset_mono um argv (show i + 1 ≤ k from hlt)
      have hk4 := hf.argOffset_add_le hk'
      rw [← hc.strings k hlt hk' j hj]
      have hself : Within (kpage + BitVec.ofNat 64 (argOffset um argv k + j))
          (kpage + BitVec.ofNat 64 (argOffset um argv k + j)) 1 := within_self _ Nat.one_pos
      refine hpaste _ ?_ fun h => hpage _ 1 (by omega) _ hself (hbuf i hi _ h)
      exact apart_add kpage (by omega) (by omega) (Or.inr (by omega)) _ hself
  · rcases Nat.eq_or_lt_of_le hk with rfl | hlt
    · rw [StackState.copyArg, hptr]
      refine (load64_store64_self (by decide) _ _ _).trans ?_
      rw [BitVec.add_comm kpage, BitVec.add_sub_cancel]
    · rw [← hc.buffer k hlt hk']
      refine load64_congr fun x hx => hpaste x (fun h => ?_) ?_
      · exact hpage _ _ hle x h (hbuf k hk' x hx)
      · exact apart_add argvUvas (by omega) (by omega) (by omega) x hx

theorem copied (hf : Fits um argv) (hap : Apart kpage 4096 argvUvas 4096) :
    Copied um argv kpage argvUvas g 0 ((List.range (argCount um argv)).foldr
      (StackState.copyArg um argv kpage argvUvas) ⟨g, kpage + pageSize, []⟩) :=
  Loop.foldr_range_spec (I := fun i s => Copied um argv kpage argvUvas g i s)
    (fun _ hi _ hc => hc.copyArg hf hap hi) (Copied.start um argv kpage argvUvas g)

/-! ## The words -/

/-- The words `ws` are on the stack that was empty in the state `s₀`, with the top at `o`. -/
structure PushedOn (kpage argvUvas : U64) (o : ℕ) (s₀ : StackState) (ws : List U64)
    (s : StackState) : Prop where
  ptr : s.ptr = kpage + BitVec.ofNat 64 (o - 8 * ws.length)
  words : WordsAt s.heap.mem s.ptr ws
  freeLists : s.heap.freeLists = s₀.heap.freeLists
  hhdm : s.heap.hhdmOffset = s₀.heap.hhdmOffset
  outside : ∀ x, ¬Within x s.ptr (8 * ws.length) → s.heap.mem x = s₀.heap.mem x
  writes : ∀ e ∈ s.writes, e ∈ s₀.writes ∨ Inside kpage argvUvas e

theorem PushedOn.start (argvUvas : U64) {o : ℕ} (h : s₀.ptr = kpage + BitVec.ofNat 64 o) :
    PushedOn kpage argvUvas o s₀ [] s₀ where
  ptr := h
  words := wordsAt_nil
  freeLists := rfl
  hhdm := rfl
  outside _ _ := rfl
  writes _ he := Or.inl he

theorem PushedOn.push {o : ℕ} {ws : List U64} (h : PushedOn kpage argvUvas o s₀ ws s)
    (ho : o ≤ 4096) (hlen : 8 * (ws.length + 1) ≤ o) (v : U64) :
    PushedOn kpage argvUvas o s₀ (v :: ws) (s.pushWord v) := by
  have hptr : s.ptr - BitVec.ofNat 64 8 = kpage + BitVec.ofNat 64 (o - 8 * (ws.length + 1)) := by
    rw [h.ptr, add_ofNat_sub _ (by omega)]
    congr 2
  have hnext : s.ptr = s.ptr - BitVec.ofNat 64 8 + BitVec.ofNat 64 8 :=
    (BitVec.sub_add_cancel _ _).symm
  refine ⟨hptr, h.words.store_prev (by decide) (by omega), h.freeLists, h.hhdm, fun x hx => ?_,
    fun e he => ?_⟩
  · have hx' : ¬Within x (s.ptr - BitVec.ofNat 64 8) (8 * (ws.length + 1)) := hx
    refine (store64_of_not_within fun hw => hx' (lt_of_lt_of_le hw (by omega))).trans ?_
    refine h.outside x fun hw => hx' ?_
    rw [hnext] at hw
    exact hw.of_add (by omega) (by omega)
  · rcases List.mem_cons.1 he with rfl | he
    · rw [hptr]
      exact Or.inr (inside_page (by omega))
    · exact h.writes e he

/-- Where the words end : the copies of the strings start at or above this place. -/
def tableEnd (um : Mem) (argv : U64) : ℕ := 4096 - stringBytes um argv

/-- `argc`, the addresses of the strings and the two null words. -/
def tableWords (um : Mem) (argv : U64) : List U64 :=
  BitVec.ofNat 64 (argCount um argv) :: ((List.range (argCount um argv)).map
    fun i => userStackBase + BitVec.ofNat 64 (argOffset um argv i)) ++ [0, 0]

@[simp] theorem tableWords_length (um : Mem) (argv : U64) :
    (tableWords um argv).length = argCount um argv + 3 := by simp [tableWords]

theorem align_ptr (hf : Fits um argv) (hs : s.ptr = kpage + BitVec.ofNat 64 (argOffset um argv 0)) :
    (s.align kpage).ptr = kpage + BitVec.ofNat 64 (tableEnd um argv) := by
  have hle := hf.bytesFrom_le 0
  have hbase : userStackBase.toNat = 0x7FFFFFE000 := rfl
  have hsum : userStackBase + (s.ptr - kpage) =
      userStackBase + BitVec.ofNat 64 (argOffset um argv 0) := by
    rw [hs, BitVec.add_comm kpage, BitVec.add_sub_cancel]
  have hrsp : (userStackBase + BitVec.ofNat 64 (argOffset um argv 0)).toNat =
      0x7FFFFFE000 + argOffset um argv 0 := by
    rw [BitVec.toNat_add, BitVec.toNat_ofNat, hbase, argOffset]
    omega
  rw [StackState.align, hsum]
  refine congrArg (kpage + ·) (BitVec.eq_of_toNat_eq ?_)
  have hand := and_not_fifteen_toNat (userStackBase + BitVec.ofNat 64 (argOffset um argv 0))
  rw [hrsp] at hand
  have hge : userStackBase.toNat ≤
      ((userStackBase + BitVec.ofNat 64 (argOffset um argv 0)) &&& ~~~15).toNat := by
    rw [hand, hbase]
    omega
  rw [BitVec.toNat_sub_of_le (BitVec.le_def.2 hge), hand, hbase, BitVec.toNat_ofNat, tableEnd]
  unfold argOffset stringBytes
  omega

/-- The page and the buffer after `fillStack`. -/
structure StackFilled (um : Mem) (argv kpage argvUvas : U64) (g : Heap) (s : StackState) : Prop where
  ptr : s.ptr = kpage + BitVec.ofNat 64 (tableEnd um argv - 8 * (argCount um argv + 3))
  words : WordsAt s.heap.mem s.ptr (tableWords um argv)
  strings : ∀ i < argCount um argv, ∀ j < argSize um argv i,
    s.heap.mem (kpage + BitVec.ofNat 64 (argOffset um argv i + j)) =
      um (argAt um argv i + BitVec.ofNat 64 j)
  freeLists : s.heap.freeLists = g.freeLists
  hhdm : s.heap.hhdmOffset = g.hhdmOffset
  outside : ∀ x, ¬Within x argvUvas 4096 → ¬Within x s.ptr (8 * (argCount um argv + 3)) →
    ¬Within x (kpage + BitVec.ofNat 64 (argOffset um argv 0)) (bytesFrom um argv 0) →
    s.heap.mem x = g.mem x
  writes : ∀ e ∈ s.writes, Inside kpage argvUvas e

theorem Fits.tableEnd_le (hf : Fits um argv) : tableEnd um argv ≤ argOffset um argv 0 ∧
    8 * (argCount um argv + 3) ≤ tableEnd um argv := by
  unfold Fits at hf
  unfold tableEnd argOffset stringBytes at *
  omega

/-- The loop that pushes the addresses. -/
theorem PushedOn.pushArgs (hf : Fits um argv) (hap : Apart kpage 4096 argvUvas 4096)
    (hbuf : ∀ k < argCount um argv, load64 s₀.heap.mem (argvUvas + BitVec.ofNat 64 (8 * k)) =
      userStackBase + BitVec.ofNat 64 (argOffset um argv k))
    (h : PushedOn kpage argvUvas (tableEnd um argv) s₀ [0, 0] s) :
    PushedOn kpage argvUvas (tableEnd um argv) s₀ (tableWords um argv).tail
      ((List.range (argCount um argv)).foldr (StackState.pushArg argvUvas) s) := by
  let uvas := (List.range (argCount um argv)).map
    fun i => userStackBase + BitVec.ofNat 64 (argOffset um argv i)
  have hlen : uvas.length = argCount um argv := by simp [uvas]
  have hcount := hf.count_le
  have hend := hf.tableEnd_le.2
  have h4 : tableEnd um argv ≤ 4096 := Nat.sub_le _ _
  refine Loop.foldr_range_spec
    (I := fun i s => PushedOn kpage argvUvas (tableEnd um argv) s₀ (uvas.drop i ++ [0, 0]) s)
    (fun i hi s hs => ?_) ?_
  · have hrest : (uvas.drop (i + 1) ++ [0, 0]).length = argCount um argv - (i + 1) + 2 := by
      rw [List.length_append, List.length_drop, hlen]
      rfl
    -- the pushes leave the buffer alone
    have hload : load64 s.heap.mem (argvUvas + BitVec.ofNat 64 (8 * i)) =
        userStackBase + BitVec.ofNat 64 (argOffset um argv i) := by
      rw [← hbuf i hi]
      refine load64_congr fun x hx => hs.outside x fun hx' => ?_
      rw [hs.ptr] at hx'
      exact hap x (hx'.of_add (by omega) (by norm_num)) (hx.of_add (by omega) (by norm_num))
    have hdrop : uvas.drop i =
        (userStackBase + BitVec.ofNat 64 (argOffset um argv i)) :: uvas.drop (i + 1) := by
      rw [List.drop_eq_getElem_cons (by omega)]
      simp [uvas]
    rw [hdrop, StackState.pushArg, hload]
    exact hs.push h4 (by omega) _
  · rw [List.drop_eq_nil_of_le hlen.le]
    exact h

theorem stackFilled (hf : Fits um argv) (hap : Apart kpage 4096 argvUvas 4096) :
    StackFilled um argv kpage argvUvas g
      (StackState.fillStack um argv kpage argvUvas ⟨g, kpage + pageSize, []⟩) := by
  have hc := copied (g := g) hf hap
  have hcount := hf.count_le
  obtain ⟨hoff, hend⟩ := hf.tableEnd_le
  have h4 : tableEnd um argv ≤ 4096 := Nat.sub_le _ _
  rw [StackState.fillStack]
  generalize hs₀ : (List.range (argCount um argv)).foldr
    (StackState.copyArg um argv kpage argvUvas) ⟨g, kpage + pageSize, []⟩ = s₀ at hc ⊢
  have hbuf : ∀ k < argCount um argv,
      load64 (s₀.align kpage).heap.mem (argvUvas + BitVec.ofNat 64 (8 * k)) =
        userStackBase + BitVec.ofNat 64 (argOffset um argv k) :=
    fun k hk => hc.buffer k (Nat.zero_le k) hk
  have hp := PushedOn.start argvUvas (align_ptr hf hc.ptr)
  have hp := (hp.push h4 (by rw [List.length_nil]; omega) 0).push h4
    (by rw [List.length_singleton]; omega) 0
  have hp := hp.pushArgs hf hap hbuf
  have hlen : (tableWords um argv).tail.length = argCount um argv + 2 := by simp
  have hp := hp.push h4 (by omega) (BitVec.ofNat 64 (argCount um argv))
  generalize StackState.pushWord _ (BitVec.ofNat 64 (argCount um argv)) = t at hp
  have hcons : BitVec.ofNat 64 (argCount um argv) :: (tableWords um argv).tail =
      tableWords um argv := rfl
  rw [hcons] at hp
  have hptr := hp.ptr
  have hout := hp.outside
  rw [tableWords_length] at hptr hout
  have hmem : (s₀.align kpage).heap.mem = s₀.heap.mem := rfl
  refine ⟨hptr, hp.words, fun i hi j hj => ?_, hp.freeLists.trans hc.freeLists,
    hp.hhdm.trans hc.hhdm, fun x hx hx' hx'' => ?_, fun e he => ?_⟩
  · rw [← hc.strings i (Nat.zero_le i) hi j hj, hout, hmem]
    have hmono := argOffset_mono um argv (Nat.zero_le i)
    have hk4 := hf.argOffset_add_le hi
    rw [hptr]
    exact apart_add kpage (by omega) (by omega) (Or.inr (by omega)) _ (within_self _ Nat.one_pos)
  · rw [hout x hx', hmem]
    exact hc.outside x hx'' hx
  · exact (hp.writes e he).elim (hc.writes e) id

/-- A vector that fits is written in the page and the buffer, whatever they are. -/
theorem fillStack_inside (hf : Fits um argv) : ∀ e ∈ (StackState.fillStack um argv kpage argvUvas
    ⟨g, kpage + pageSize, []⟩).writes, Inside kpage argvUvas e := by
  obtain ⟨-, hend⟩ := hf.tableEnd_le
  have h4 : tableEnd um argv ≤ 4096 := Nat.sub_le _ _
  have hcopy : Placed kpage argvUvas (argOffset um argv 0) ((List.range (argCount um argv)).foldr
      (StackState.copyArg um argv kpage argvUvas) ⟨g, kpage + pageSize, []⟩) :=
    Loop.foldr_range_spec (I := fun i s => Placed kpage argvUvas (argOffset um argv i) s)
      (fun _ hi _ hs => hs.copyArg hf hi)
      ⟨(Copied.start um argv kpage argvUvas g).ptr, fun _ he => absurd he List.not_mem_nil⟩
  rw [StackState.fillStack]
  generalize (List.range (argCount um argv)).foldr (StackState.copyArg um argv kpage argvUvas)
    ⟨g, kpage + pageSize, []⟩ = s₀ at hcopy
  have halign : Placed kpage argvUvas (tableEnd um argv) (s₀.align kpage) :=
    ⟨align_ptr hf hcopy.ptr, hcopy.writes⟩
  have hnulls := (halign.pushWord (by omega) h4 0).pushWord (by omega) (by omega) 0
  generalize ((s₀.align kpage).pushWord 0).pushWord 0 = s₁ at hnulls
  have hargs : Placed kpage argvUvas (tableEnd um argv - 16 - 8 * (argCount um argv - 0))
      ((List.range (argCount um argv)).foldr (StackState.pushArg argvUvas) s₁) := by
    refine Loop.foldr_range_spec (I := fun i s =>
      Placed kpage argvUvas (tableEnd um argv - 16 - 8 * (argCount um argv - i)) s)
      (fun i hi s hs => ?_) ?_
    · have h := hs.pushWord (by omega) (by omega)
        (load64 s.heap.mem (argvUvas + BitVec.ofNat 64 (8 * i)))
      rwa [show tableEnd um argv - 16 - 8 * (argCount um argv - (i + 1)) - 8 =
        tableEnd um argv - 16 - 8 * (argCount um argv - i) by omega] at h
    · rwa [Nat.sub_self, Nat.mul_zero, Nat.sub_zero]
  exact (hargs.pushWord (by omega) (by omega) _).writes

end Fill

/-! ## The call -/

section Call

variable {h : Heap} {pml4 : U64} {um : Mem} {argv : U64} {n : Node}

/-- What a call leaves that finds the page `kpage` and gets the buffer `v`. -/
structure Built (um : Mem) (argv : U64) (h : Heap) (kpage v : U64) (s : StackState) : Prop where
  sound : s.heap.Sound
  free : s.heap.freePages = h.freePages
  agree : h.AgreeOutside (h.freePages ∪ {pageOf kpage}) s.heap
  buffer : pageOf v ∈ h.freePages
  ptr : s.ptr = kpage + BitVec.ofNat 64 (tableEnd um argv - 8 * (argCount um argv + 3))
  words : WordsAt s.heap.mem s.ptr (tableWords um argv)
  strings : ∀ i < argCount um argv, ∀ j < argSize um argv i,
    s.heap.mem (kpage + BitVec.ofNat 64 (argOffset um argv i + j)) =
      um (argAt um argv i + BitVec.ofNat 64 j)
  outside : ∀ x, Within x kpage 4096 → ¬Within x s.ptr (8 * (argCount um argv + 3)) →
    ¬Within x (kpage + BitVec.ofNat 64 (argOffset um argv 0)) (bytesFrom um argv 0) →
    s.heap.mem x = h.mem x
  writes : ∀ e ∈ s.writes, Inside kpage v e

/-- A vector that fits, in an address space with the stack page, when a page is free. -/
theorem setupUserStack_fits (hu : UserSpace h pml4) (hf : Fits um argv)
    (hn : nodeAt h pml4 (vaPath userStackBase) = some n) (hfree : h.freePages.Nonempty) :
    ∃ s v, setupUserStack h pml4 um argv = some (s, userStackBase + (s.ptr - n.addr)) ∧
      Built um argv h n.addr v s := by
  have hphys : stackPhys h pml4 = some (n.pte &&& pageFrameMask) := by
    rw [stackPhys_eq, leafPte, hn]
    rfl
  have hkpage : h.physToVirt (n.pte &&& pageFrameMask) = n.addr :=
    (nodeAt_addr hn (vaPath_ne_nil _)).symm
  have hal := hu.aligned hn
  have hheld := hu.held _ n hn
  obtain ⟨-, hnone⟩ | ⟨g, v, hk, ht⟩ := kalloc_one hu.sound
  · exact absurd hnone hfree.ne_empty
  -- the page and the buffer are two pages
  have hne : pageOf n.addr ≠ pageOf v := fun e => hheld (e ▸ ht.mem_free)
  have hap : Apart n.addr 4096 v 4096 := fun x hx hx' =>
    hne (((within_page_iff hal).1 hx).symm.trans ((within_page_iff ht.aligned).1 hx'))
  have hS := stackFilled (g := g) hf hap
  generalize hs : StackState.fillStack um argv n.addr v ⟨g, n.addr + pageSize, []⟩ = s at hS
  obtain ⟨hoff, hend⟩ := hf.tableEnd_le
  have h4 : tableEnd um argv ≤ 4096 := Nat.sub_le _ _
  have hbytes := hf.bytesFrom_le 0
  have htab : ∀ x, Within x s.ptr (8 * (argCount um argv + 3)) → Within x n.addr 4096 :=
    fun x hx => by
      rw [hS.ptr] at hx
      exact hx.of_add (by omega) (by norm_num)
  have hstr : ∀ x, Within x (n.addr + BitVec.ofNat 64 (argOffset um argv 0)) (bytesFrom um argv 0) →
      Within x n.addr 4096 := fun x hx =>
    hx.of_add (by unfold argOffset; omega) (by norm_num)
  have hmem : ∀ x, pageOf x ≠ pageOf n.addr → pageOf x ≠ pageOf v → s.heap.mem x = g.mem x :=
    fun x hx hx' => hS.outside x (fun hw => hx' ((within_page_iff ht.aligned).1 hw))
      (fun hw => hx ((within_page_iff hal).1 (htab x hw)))
      fun hw => hx ((within_page_iff hal).1 (hstr x hw))
  -- the lists are intact when the buffer is freed
  obtain ⟨hsound, hsfree⟩ := ht.sound.congr s.heap hS.freeLists hS.hhdm fun x hx => by
    rw [ht.free] at hx
    exact hmem x (fun e => hheld (e ▸ hx.1)) hx.2
  rw [ht.free] at hsfree
  have hvs : pageOf v ∉ s.heap.freePages := hsfree ▸ fun hv => hv.2 rfl
  obtain ⟨h', hkf, hsound', hfree', hag'⟩ := kfree_one hsound ht.aligned ht.ne_zero hvs
  have hback : s.heap.freePages ∪ {pageOf v} = h.freePages := by
    rw [hsfree, Set.sdiff_union_self, Set.union_eq_left, Set.singleton_subset_iff]
    exact ht.mem_free
  rw [hback] at hfree' hag'
  have hpage : ∀ x, Within x n.addr 4096 → h'.mem x = s.heap.mem x := fun x hx => hag'.mem x (by
    rw [(within_page_iff hal).1 hx]
    exact hheld)
  refine ⟨{ s with heap := h' }, v, ?_, hsound', hfree', ⟨hag'.hhdm.trans (hS.hhdm.trans
    ht.agree.hhdm), fun x hx => ?_⟩, ht.mem_free, hS.ptr, ?_, fun i hi j hj => ?_,
    fun x hx hx' hx'' => ?_, hS.writes⟩
  · rw [setupUserStack, hphys]
    dsimp only
    rw [hk, Option.bind_some, hkpage]
    dsimp only
    rw [if_neg ht.ne_zero, hs, hkf]
    rfl
  · rw [Set.mem_union, not_or, Set.mem_singleton_iff] at hx
    rw [hag'.mem x hx.1, hmem x hx.2 fun e => hx.1 (e ▸ ht.mem_free), ht.agree.mem x hx.1]
  · refine hS.words.congr (by rw [tableWords_length]; omega) fun x hx => hpage x (htab x ?_)
    rwa [tableWords_length] at hx
  · have hle := hf.argOffset_add_le hi
    rw [← hS.strings i hi j hj]
    exact hpage _ (within_add _ (by omega) (by norm_num))
  · have hxv : ¬Within x v 4096 := hap x hx
    rw [hpage x hx, hS.outside x hxv hx' hx'']
    exact ht.agree.mem x fun hx0 => hheld ((within_page_iff hal).1 hx ▸ hx0)

/-! ## What the program finds -/

/-- The range lies in the page at `USER_STACK_BASE`. -/
def OnStackPage (a : U64) (l : ℕ) : Prop :=
  userStackBase.toNat ≤ a.toNat ∧ a.toNat + l ≤ userStackBase.toNat + 4096

/-- In the memory `after`, `rsp` points to the number of strings, their addresses `ptrs` and two
null words, and each address to a copy of its string. Otherwise the page is as in `before`. -/
structure ArgvOnStack (um : Mem) (argv : U64) (before after : Mem) (rsp : U64) (ptrs : List U64) :
    Prop where
  count : ptrs.length = argCount um argv
  words : WordsAt after rsp (BitVec.ofNat 64 ptrs.length :: ptrs ++ [0, 0])
  table : OnStackPage rsp (8 * (ptrs.length + 3))
  copy : ∀ i p, ptrs[i]? = some p → stringAt after p = stringAt um (argAt um argv i)
  nul : ∀ i p, ptrs[i]? = some p →
    after (p + BitVec.ofNat 64 (stringAt um (argAt um argv i)).length) = 0
  inside : ∀ i p, ptrs[i]? = some p → OnStackPage p (argSize um argv i)
  table_apart : ∀ i p, ptrs[i]? = some p → Apart p (argSize um argv i) rsp (8 * (ptrs.length + 3))
  apart : ∀ i j p q, i ≠ j → ptrs[i]? = some p → ptrs[j]? = some q →
    Apart p (argSize um argv i) q (argSize um argv j)
  unchanged : ∀ x, Within x userStackBase 4096 → ¬Within x rsp (8 * (ptrs.length + 3)) →
    (∀ i p, ptrs[i]? = some p → ¬Within x p (argSize um argv i)) → after x = before x

/-- The strings fill the top of the page. -/
theorem Fits.exists_string {o : ℕ} (hf : Fits um argv) (h0 : argOffset um argv 0 ≤ o)
    (ho : o < 4096) : ∃ i < argCount um argv, argOffset um argv i ≤ o ∧
      o < argOffset um argv i + argSize um argv i := by
  obtain ⟨i, hi⟩ : ∃ i, i = Nat.findGreatest (fun i => argOffset um argv i ≤ o) (argCount um argv) :=
    ⟨_, rfl⟩
  have hle : i ≤ argCount um argv := hi ▸ Nat.findGreatest_le _
  have hspec : argOffset um argv i ≤ o :=
    hi ▸ Nat.findGreatest_spec (P := fun i => argOffset um argv i ≤ o) (Nat.zero_le _) h0
  have hlast : argOffset um argv (argCount um argv) = 4096 := by
    rw [argOffset, bytesFrom_count, Nat.sub_zero]
  have hlt : i < argCount um argv := lt_of_le_of_ne hle fun e => by
    rw [e, hlast] at hspec
    omega
  refine ⟨i, hlt, hspec, ?_⟩
  rw [hf.argOffset_add hlt]
  exact Nat.lt_of_not_le (Nat.findGreatest_is_greatest (P := fun i => argOffset um argv i ≤ o)
    (hi ▸ Nat.lt_succ_self i) hlt)

theorem stackBase_add {o : ℕ} (ho : o ≤ 4096) :
    (userStackBase + BitVec.ofNat 64 o).toNat = userStackBase.toNat + o := by
  have hbase : userStackBase.toNat = 0x7FFFFFE000 := rfl
  rw [BitVec.toNat_add, BitVec.toNat_ofNat, hbase]
  omega

theorem onStackPage_add {o l : ℕ} (h : o + l ≤ 4096) :
    OnStackPage (userStackBase + BitVec.ofNat 64 o) l := by
  unfold OnStackPage
  rw [stackBase_add (by omega)]
  omega

/-- The addresses of the copies. -/
def argPtrs (um : Mem) (argv : U64) : List U64 :=
  (List.range (argCount um argv)).map fun i => userStackBase + BitVec.ofNat 64 (argOffset um argv i)

theorem argPtrs_eq_some {i : ℕ} {p : U64} : (argPtrs um argv)[i]? = some p ↔
    i < argCount um argv ∧ p = userStackBase + BitVec.ofNat 64 (argOffset um argv i) := by
  rw [argPtrs, List.getElem?_map, Option.map_eq_some_iff]
  constructor
  · rintro ⟨k, hk, rfl⟩
    obtain ⟨hi, rfl⟩ := List.getElem?_eq_some_iff.1 hk
    rw [List.length_range] at hi
    rw [List.getElem_range]
    exact ⟨hi, rfl⟩
  · rintro ⟨hi, rfl⟩
    exact ⟨i, List.getElem?_range hi, rfl⟩

theorem Built.argvOnStack {v : U64} {s : StackState} (hu : UserSpace h pml4) (hf : Fits um argv)
    (hn : nodeAt h pml4 (vaPath userStackBase) = some n) (hb : Built um argv h n.addr v s) :
    ArgvOnStack um argv (h.view pml4) (s.heap.view pml4) (userStackBase + (s.ptr - n.addr))
      (argPtrs um argv) := by
  obtain ⟨hoff, hend⟩ := hf.tableEnd_le
  have h4 : tableEnd um argv ≤ 4096 := Nat.sub_le _ _
  have hlen : (argPtrs um argv).length = argCount um argv := by simp [argPtrs]
  obtain ⟨o, ho⟩ : ∃ o, o = tableEnd um argv - 8 * (argCount um argv + 3) := ⟨_, rfl⟩
  have hptr : s.ptr = n.addr + BitVec.ofNat 64 o := by rw [ho, hb.ptr]
  have hrsp : userStackBase + (s.ptr - n.addr) = userStackBase + BitVec.ofNat 64 o := by
    rw [hptr, BitVec.add_comm n.addr, BitVec.add_sub_cancel]
  -- the page is where it was
  have hn' : nodeAt s.heap pml4 (vaPath userStackBase) = some n := by
    rw [hu.nodeAt_of_agree hb.agree, hn]
    refine Set.disjoint_left.2 fun k hk => ?_
    rintro (hk' | rfl)
    · exact hu.not_free (tablePages_subset hk) hk'
    · exact hu.frame_not_table hn (nodeAt_vaPath_level hn) hk
  have hal : PageAligned userStackBase := by decide
  have h47 : userStackBase.toNat + 4096 ≤ 2 ^ 47 := by decide
  have hview : ∀ o < 4096, s.heap.view pml4 (userStackBase + BitVec.ofNat 64 o) =
      s.heap.mem (n.addr + BitVec.ofNat 64 o) := fun o ho => view_page hal h47 hn' ho
  have hload : ∀ o, o + 8 ≤ 4096 → load64 (s.heap.view pml4) (userStackBase + BitVec.ofNat 64 o) =
      load64 s.heap.mem (n.addr + BitVec.ofNat 64 o) := fun o ho => by
    rw [load64, load64]
    refine congrArg (BitVec.ofNat 64) (readLE_congr_add fun i hi => ?_)
    rw [← add_ofNat_add, ← add_ofNat_add, hview _ (by omega)]
  have hbyte : ∀ i < argCount um argv, ∀ j < argSize um argv i,
      s.heap.view pml4 (userStackBase + BitVec.ofNat 64 (argOffset um argv i) + BitVec.ofNat 64 j) =
        um (argAt um argv i + BitVec.ofNat 64 j) := fun i hi j hj => by
    have hle := hf.argOffset_add_le hi
    rw [← add_ofNat_add, hview _ (by omega), hb.strings i hi j hj]
  rw [hrsp]
  refine ⟨hlen, fun k w hk => ?_, ?_, fun i p hp => ?_, fun i p hp => ?_, fun i p hp => ?_,
    fun i p hp => ?_, fun i j p q hij hp hq => ?_, fun x hx hx' hx'' => ?_⟩
  · rw [hlen] at hk
    obtain ⟨hk', -⟩ := List.getElem?_eq_some_iff.1 hk
    rw [List.length_append, List.length_cons, hlen] at hk'
    rw [← add_ofNat_add, hload _ (by simp only [List.length_cons, List.length_nil] at hk'; omega),
      add_ofNat_add, ← hptr]
    exact hb.words k w hk
  · rw [hlen]
    exact onStackPage_add (by omega)
  · obtain ⟨hi, rfl⟩ := argPtrs_eq_some.1 hp
    exact cstring_congr fun j hj => hbyte i hi j (Nat.lt_succ_of_le hj)
  · obtain ⟨hi, rfl⟩ := argPtrs_eq_some.1 hp
    rw [hbyte i hi _ (Nat.lt_succ_self _)]
    have hle := hf.argOffset_add_le hi
    exact cstring_end (by unfold argSize stringAt at hle; omega)
  · obtain ⟨hi, rfl⟩ := argPtrs_eq_some.1 hp
    exact onStackPage_add (hf.argOffset_add_le hi)
  · obtain ⟨hi, rfl⟩ := argPtrs_eq_some.1 hp
    have hle := hf.argOffset_add_le hi
    have hmono := argOffset_mono um argv (Nat.zero_le i)
    rw [hlen]
    exact apart_add _ (by omega) (by omega) (Or.inr (by omega))
  · obtain ⟨hi, rfl⟩ := argPtrs_eq_some.1 hp
    obtain ⟨hj, rfl⟩ := argPtrs_eq_some.1 hq
    have hlei := hf.argOffset_add_le hi
    have hlej := hf.argOffset_add_le hj
    have hni := hf.argOffset_add hi
    have hnj := hf.argOffset_add hj
    rcases Nat.lt_or_gt_of_ne hij with hlt | hlt
    · have hmono := argOffset_mono um argv (show i + 1 ≤ j from hlt)
      exact apart_add _ (by omega) (by omega) (Or.inl (by omega))
    · have hmono := argOffset_mono um argv (show j + 1 ≤ i from hlt)
      exact apart_add _ (by omega) (by omega) (Or.inr (by omega))
  · rw [hlen] at hx'
    obtain ⟨k, hk⟩ : ∃ k, k = (x - userStackBase).toNat := ⟨_, rfl⟩
    have hk4 : k < 4096 := hk ▸ hx
    obtain rfl : x = userStackBase + BitVec.ofNat 64 k := by
      rw [hk, BitVec.ofNat_toNat, BitVec.setWidth_eq, BitVec.add_comm, BitVec.sub_add_cancel]
    rw [hview k hk4, view_page hal h47 hn hk4]
    refine hb.outside _ (within_add _ hk4 (by norm_num)) (fun h => hx' ?_) fun h => ?_
    · rw [hptr, within_add_add _ (by omega) (by omega) (by omega)] at h
      exact (within_add_add _ (by omega) (by omega) (by omega)).2 h
    · -- a byte of the strings is a byte of one of them
      have hpos : 0 < bytesFrom um argv 0 := Nat.zero_lt_of_lt h
      have hle := hf.bytesFrom_le 0
      rw [within_add_add _ (by omega) (by unfold argOffset; omega) hpos] at h
      obtain ⟨i, hi, hik⟩ := hf.exists_string h.1 hk4
      have hlei := hf.argOffset_add_le hi
      refine hx'' i _ (argPtrs_eq_some.2 ⟨hi, rfl⟩) ?_
      exact (within_add_add _ (by omega) (by omega)
        (show 0 < argSize um argv i from Nat.succ_pos _)).2 hik

/-- An argument vector that fits is on the new stack. -/
theorem setupUserStack_argv {e v : U64} {g : Heap} (hu : UserSpace h pml4)
    (hm : leafPte h pml4 userStackBase = some e) (hf : Fits um argv)
    (hk : kalloc h 1 = some (g, v)) (hv : v ≠ 0) :
    ∃ s rsp ptrs, setupUserStack h pml4 um argv = some (s, rsp) ∧
      ArgvOnStack um argv (h.view pml4) (s.heap.view pml4) rsp ptrs := by
  obtain ⟨n, hn, -⟩ := Option.map_eq_some_iff.1 hm
  obtain ⟨hk', -⟩ | ⟨g', v', -, ht⟩ := kalloc_one hu.sound
  · exact absurd (Prod.mk.inj (Option.some.inj (hk.symm.trans hk'))).2 hv
  obtain ⟨s, b, hr, hb⟩ := setupUserStack_fits hu hf hn ⟨_, ht.mem_free⟩
  exact ⟨s, _, _, hr, hb.argvOnStack hu hf hn⟩

/-- The program at a vector with the string "a". -/
def oneArg : Mem := fun a =>
  if a = 0x1001 then 0x20 else if a = 0x2000 then 0x61 else 0

theorem exists_stack_space {k : ℕ} (hk : k + 5 < 256) : ∃ h pml4 n, OwnTree h pml4 ∧
    nodeAt h pml4 (vaPath userStackBase) = some n ∧ k < h.freePages.ncard := by
  obtain ⟨h₀, t, pml4, -, -, -, hn, hcard, -⟩ := exists_new_space hk
  have hp : (Elf.zeroReq userStackBase).Ok := Elf.zeroReq_ok (by decide)
  obtain ⟨⟨m, go⟩, hr⟩ := MapState.exists_mapNewPage ⟨t.heap, true, true⟩ pml4 userStackBase
    (pteUser ||| pteWrite) fun _ h => h
  obtain ⟨rfl, -, htab⟩ := MapState.mapNewPage_ok (p := Elf.zeroReq userStackBase) hn.ownTree.space
    hp hr (by change 4 ≤ t.heap.freePages.ncard; omega)
  obtain ⟨-, hfree, hm⟩ := (Mapped.refl hn.ownTree).mapNewPage hp.user hp.flagBits hp.userFlag
    hp.fills hr htab
  obtain ⟨n, hn', -⟩ := Mapped.shows hm _ _ _ (Function.update_self _ _ _)
  refine ⟨m.heap, pml4, n, Mapped.own hm, hn', ?_⟩
  change t.heap.freePages.ncard ≤ _ at hfree
  omega

theorem setupUserStack_argv_one : ∃ h pml4 s rsp ptrs,
    setupUserStack h pml4 oneArg 0x1000 = some (s, rsp) ∧ argCount oneArg 0x1000 = 1 ∧
      ArgvOnStack oneArg 0x1000 (h.view pml4) (s.heap.view pml4) rsp ptrs := by
  obtain ⟨h, pml4, n, ho, hn, hfree⟩ := exists_stack_space (k := 0) (by norm_num)
  obtain ⟨-, hnone⟩ | ⟨g, v, hk, ht⟩ := kalloc_one ho.space.sound
  · rw [hnone, Set.ncard_empty] at hfree
    exact absurd hfree (lt_irrefl 0)
  obtain ⟨s, rsp, ptrs, hr, ha⟩ := setupUserStack_argv (e := n.pte) ho.space
    (by rw [leafPte, hn]; rfl) (show Fits oneArg 0x1000 by decide +kernel) hk ht.ne_zero
  exact ⟨h, pml4, s, rsp, ptrs, hr, by decide +kernel, ha⟩

/-! ## The alignment of the stack pointer -/

theorem setupUserStack_unmapped (h : Heap) (pml4 : U64) (um : Mem) (argv : U64)
    (hm : leafPte h pml4 userStackBase = none) :
    setupUserStack h pml4 um argv = some (⟨h, 0, []⟩, userStackTop) := by
  rw [setupUserStack, stackPhys_eq, hm]
  rfl

/-- Without a page for the buffer nothing is written. -/
theorem setupUserStack_exhausted {e : U64} (hu : UserSpace h pml4) (um : Mem) (argv : U64)
    (hm : leafPte h pml4 userStackBase = some e) (hfree : h.freePages = ∅) :
    ∃ sp, setupUserStack h pml4 um argv = some (⟨h, sp, []⟩, userStackTop) := by
  obtain ⟨hk, -⟩ | ⟨g, v, -, ht⟩ := kalloc_one hu.sound
  · refine ⟨h.physToVirt (e &&& pageFrameMask) + pageSize, ?_⟩
    rw [setupUserStack, stackPhys_eq, hm]
    dsimp only [Option.map_some]
    rw [hk]
    rfl
  · exact absurd (hfree ▸ ht.mem_free) (Set.notMem_empty _)

theorem Built.rsp_toNat {v : U64} {s : StackState} (hf : Fits um argv)
    (hb : Built um argv h n.addr v s) : (userStackBase + (s.ptr - n.addr)).toNat =
      userStackBase.toNat + 4096 - stringBytes um argv - 8 * (argCount um argv + 3) := by
  obtain ⟨-, hend⟩ := hf.tableEnd_le
  have h4 : tableEnd um argv ≤ 4096 := Nat.sub_le _ _
  rw [hb.ptr, BitVec.add_comm n.addr, BitVec.add_sub_cancel, stackBase_add (by omega)]
  unfold tableEnd at *
  omega

/-- The pointer that `setup_user_stack` returns is a multiple of 16 if the number of strings is
odd, or if it wrote nothing. -/
theorem setupUserStack_aligned_iff (hu : UserSpace h pml4) (hf : Fits um argv) :
    ∃ s rsp, setupUserStack h pml4 um argv = some (s, rsp) ∧
      (16 ∣ rsp.toNat ↔ Odd (argCount um argv) ∨ leafPte h pml4 userStackBase = none ∨
        h.freePages = ∅) := by
  have htop : 16 ∣ userStackTop.toNat := by decide
  cases hm : leafPte h pml4 userStackBase with
  | none =>
    exact ⟨_, _, setupUserStack_unmapped h pml4 um argv hm, iff_of_true htop (Or.inr (Or.inl rfl))⟩
  | some e =>
    rcases h.freePages.eq_empty_or_nonempty with hfree | hfree
    · obtain ⟨sp, hr⟩ := setupUserStack_exhausted hu um argv hm hfree
      exact ⟨_, _, hr, iff_of_true htop (Or.inr (Or.inr hfree))⟩
    · obtain ⟨n, hn, -⟩ := Option.map_eq_some_iff.1 hm
      obtain ⟨s, v, hr, hb⟩ := setupUserStack_fits hu hf hn hfree
      have hbase : userStackBase.toNat = 0x7FFFFFE000 := rfl
      have hrsp := hb.rsp_toNat hf
      -- the strings take a multiple of 16 bytes
      have hstr : 16 ∣ stringBytes um argv := Nat.dvd_mul_left _ _
      have hle : stringBytes um argv + 8 * (argCount um argv + 3) ≤ 4096 := hf
      refine ⟨s, _, hr, ?_⟩
      rw [hrsp, hbase, Nat.odd_iff]
      simp only [reduceCtorEq, hfree.ne_empty, or_false]
      omega

theorem setupUserStack_aligned_iff_one : ∃ h pml4 s rsp,
    setupUserStack h pml4 oneArg 0x1000 = some (s, rsp) ∧
      (16 ∣ rsp.toNat ↔ Odd (argCount oneArg 0x1000) ∨ leafPte h pml4 userStackBase = none ∨
        h.freePages = ∅) := by
  obtain ⟨h, pml4, n, ho, -, -⟩ := exists_stack_space (k := 0) (by norm_num)
  obtain ⟨s, rsp, hr, hiff⟩ := setupUserStack_aligned_iff ho.space
    (show Fits oneArg 0x1000 by decide +kernel)
  exact ⟨h, pml4, s, rsp, hr, hiff⟩

/-- With no string the program starts with a stack pointer that is 8 off. -/
theorem setupUserStack_unaligned : ∃ h pml4 s rsp, OwnTree h pml4 ∧ Fits (fun _ => 0) 0 ∧
    setupUserStack h pml4 (fun _ => 0) 0 = some (s, rsp) ∧ rsp = 0x7FFFFFEFE8 ∧
      ¬16 ∣ rsp.toNat := by
  obtain ⟨h, pml4, n, ho, hn, hfree⟩ := exists_stack_space (k := 0) (by norm_num)
  have hf : Fits (fun _ => 0) 0 := by decide
  obtain ⟨s, v, hr, hb⟩ := setupUserStack_fits ho.space hf hn
    (Set.nonempty_of_ncard_ne_zero hfree.ne')
  have hrsp : userStackBase + (s.ptr - n.addr) = 0x7FFFFFEFE8 := BitVec.eq_of_toNat_eq (by
    rw [hb.rsp_toNat hf, show stringBytes (fun _ => 0) 0 = 0 by decide,
      show argCount (fun _ => 0) 0 = 0 from rfl]
    rfl)
  exact ⟨h, pml4, s, _, ho, hf, hr, hrsp, by rw [hrsp]; decide⟩

end Call

end UserStack

end Jeos
