import Mathlib.Data.List.DropRight
import Jeos.Fork
import Jeos.ReadElf
import Jeos.UserStack

/-!
# `proc_exec`

The current process gets the program of a file. `proc_exec` reads the file, builds the new address
space next to the old one, writes the argument vector to its stack, patches the saved registers of
the system call, tears the old address space down and takes the name of the process from the path.
`path` and `argv` are addresses of the caller, which the kernel reads through CR3. Where no page is
mapped the kernel stops.

The bytes of the file are those of the buffer when the segments are loaded. The calls of `klog` are
left out. `events` records what is read for the caller, the calls of `kfree`, those of
`setup_user_stack` apart, and the loads of CR3, the last first. No function reads it.
-/

set_option linter.unusedSectionVars false

namespace Jeos

open ByteMemory UserStack

/-! ## The name of a path -/

/-- The loop that moves `name` behind each slash, from `s` on. -/
def afterSlash (name : List U8) : List U8 → List U8
  | [] => name
  | c :: s => afterSlash (if c = 0x2F then s else name) s

/-- The place `name` has in `path` after the loop. -/
def baseName (path : List U8) : List U8 := afterSlash path path

/-- The last part of a path, behind the last slash. -/
def lastComponent (path : List U8) : List U8 := path.rtakeWhile fun c => c != 0x2F

/-- The name is copied to `p->name`, with its 0. What is behind stays. -/
def copyName (old : Fin 16 → U8) (name : List U8) : Fin 16 → U8 := fun i =>
  if i.val < min name.length 15 then name.getD i 0
  else if i.val = min name.length 15 then 0
  else old i

/-- The name as a string. -/
def nameString (name : Fin 16 → U8) : List U8 := (List.ofFn name).takeWhile fun c => c != 0

section Name

variable {c : U8} {name path s : List U8}

theorem afterSlash_eq (pre : List U8) (h : name = lastComponent pre ++ s) :
    afterSlash name s = lastComponent (pre ++ s) := by
  induction s generalizing pre name with
  | nil => rw [afterSlash, h, List.append_nil, List.append_nil]
  | cons c s ih =>
    have happ : pre ++ c :: s = pre ++ [c] ++ s := List.append_cons _ _ _
    rw [afterSlash, happ]
    refine ih _ ?_
    split_ifs with hc
    · rw [lastComponent, List.rtakeWhile_concat_neg _ _ _ (by simp [hc]), List.nil_append]
    · rw [lastComponent, List.rtakeWhile_concat_pos _ _ _ (by simpa using hc), h, List.append_assoc]
      rfl

theorem baseName_eq (path : List U8) : baseName path = lastComponent path :=
  afterSlash_eq [] rfl

/-- The name of a process is the copied one, cut at 15 bytes. -/
theorem nameString_copyName (old : Fin 16 → U8) (h0 : 0 ∉ name) :
    nameString (copyName old name) = name.take 15 := by
  have hlen : (List.ofFn (copyName old name)).length = 16 := List.length_ofFn
  have hk : min name.length 15 < (List.ofFn (copyName old name)).length := by omega
  have hget : ∀ i (hi : i < (List.ofFn (copyName old name)).length),
      (List.ofFn (copyName old name))[i] = copyName old name ⟨i, hlen ▸ hi⟩ := fun i hi =>
    List.getElem_ofFn hi
  have hlow : ∀ i (hi : i < min name.length 15) (hi' : i < (List.ofFn (copyName old name)).length),
      (List.ofFn (copyName old name))[i] = name[i] := fun i hi hi' => by
    rw [hget, copyName, if_pos hi, List.getD_eq_getElem]
  have hfind : (List.ofFn (copyName old name)).findIdx (fun c => !(c != 0)) =
      min name.length 15 := by
    refine (List.findIdx_eq hk).2 ⟨?_, fun i hi => ?_⟩
    · rw [hget, copyName, if_neg (lt_irrefl _), if_pos rfl]
      rfl
    · have hne : name[i] ≠ 0 := fun he => h0 (he ▸ List.getElem_mem _)
      rw [hlow i hi (hi.trans hk)]
      simpa using hne
  rw [nameString, List.takeWhile_eq_take_findIdx_not, hfind]
  refine List.ext_getElem (by rw [List.length_take, List.length_take]; omega) fun i hi hi' => ?_
  rw [List.length_take] at hi'
  rw [List.getElem_take, List.getElem_take, hlow i (by omega) (by omega)]

end Name

/-! ## The functions -/

/-- What `proc_exec` does to the memory of others : a range is read through CR3, a block is passed
to `kfree`, or CR3 gets a value. -/
inductive ExecEvent
  | read (e : Extent 64)
  | free (p : U64)
  | loadCr3 (v : U64)

/-- The processes with the allocator and the files, CR3, whether no page of a table was missing, and
the events since the call. -/
structure ExecState extends ForkState where
  cr3 : U64
  tablesOk : Bool
  events : List ExecEvent

/-- The ranges `setup_user_stack` reads : the words of `argv` with the null word, and the strings. -/
def argReads (um : Mem) (argv : U64) : List (Extent 64) :=
  if argv = 0 then []
  else ⟨argv, 8 * (argCount um argv + 1)⟩ ::
    (List.range (argCount um argv)).map fun i => stringExtent um (argAt um argv i)

namespace ExecState

variable (s : ExecState)

/-- The memory the kernel sees in the user half. -/
def userMem : Mem := s.heap.view (s.heap.physToVirt s.cr3)

/-- Every page of the range is mapped. -/
def CanRead (e : Extent 64) : Prop := ∀ i < e.length, (e.start + BitVec.ofNat 64 i).toNat < 2 ^ 47 →
  (nodeAt s.heap (s.heap.physToVirt s.cr3) (vaPath (e.start + BitVec.ofNat 64 i))).isSome

instance (e : Extent 64) : Decidable (s.CanRead e) := inferInstanceAs (Decidable (∀ i < _, _ → _))

/-- The ranges are read. On a page fault the kernel stops. -/
def readUser (es : List (Extent 64)) : Option ExecState :=
  if ∀ e ∈ es, s.CanRead e then some { s with events := es.map .read ++ s.events } else none

def setProc (k : Fin maxProcs) (p : ProcRecord) : ExecState :=
  { s with entry := Function.update s.entry k p }

/-- `kfree(p, npages)`. -/
def kfree (p npages : U64) : Option ExecState :=
  (Jeos.kfree s.heap p npages).map fun h => { s with heap := h, events := .free p :: s.events }

/-- `free_user_pml4(pml4); kfree(pml4, 1);` -/
def teardown (pml4 : U64) : Option ExecState :=
  (FreeState.teardown ⟨s.heap, [], []⟩ pml4).map fun f =>
    { s with heap := f.heap, events := f.freed.map .free ++ s.events }

/-- `lcr3(v)`. -/
def lcr3 (v : U64) : ExecState := { s with cr3 := v, events := .loadCr3 v :: s.events }

/-- `create_user_pml4`, `elf_load_segments` and the frees up to `kfree(elf_buf, elf_pages)` : the
new table, and the entry point unless one of them failed. -/
def loadImage (buf : U64) (pages : U32) : Option (ExecState × U64 × Option U64) :=
  (PagingState.createUserPml4 ⟨s.heap, true⟩ s.cr3).bind fun (t, pml4) =>
    let s := { s with heap := t.heap }
    if pml4 = 0 then (s.kfree buf (pages.setWidth 64)).map fun s => (s, pml4, none)
    else
      let elf : Mem := fun o => s.heap.mem (buf + o)
      (LoadState.elfLoadSegments ⟨⟨s.heap, true, s.tablesOk⟩, [], []⟩ pml4 elf
        (pages.setWidth 64 * pageSize)).bind fun (l, entry) =>
          let s := { s with heap := l.map.heap, tablesOk := l.map.tablesOk }
          match entry with
          | none =>
            (s.teardown pml4).bind fun s =>
              (s.kfree buf (pages.setWidth 64)).map fun s => (s, pml4, none)
          | some entry => (s.kfree buf (pages.setWidth 64)).map fun s => (s, pml4, some entry)

/-- `proc_exec` up to `kfree(elf_buf, elf_pages)` : the new table and the entry point, unless it
returns -1. `fs` is what the file system does for a path. -/
def execLoad (fs : List U8 → ProgramFile) (path : U64) : Option (ExecState × Option (U64 × U64)) :=
  (({ s with events := [] } : ExecState).readUser [stringExtent s.userMem path]).bind fun s =>
    ((fs (stringAt s.userMem path)).readElf s.heap s.files).bind fun r =>
      let s := { s with
        heap := r.heap
        files := r.files
        events := r.freed.map .free ++ s.events }
      match r.result with
      | none => some (s, none)
      | some (buf, pages) =>
        (s.loadImage buf pages).map fun (s, pml4, entry) => (s, entry.map fun entry => (pml4, entry))

/-- The heap break, the three words at the top of the kernel stack and the trap frame. -/
def redirect (k : Fin maxProcs) (entry userRsp : U64) : ExecState :=
  let p := s.entry k
  let kstop := p.kstack + kstackSize
  let m := store64 s.heap.mem (kstop - BitVec.ofNat 64 8) userRsp
  let m := store64 m (kstop - BitVec.ofNat 64 16) entry
  let m := store64 m (kstop - BitVec.ofNat 64 24) 0x202
  let tf := Function.update (Function.update (Function.update (Function.update (Function.update p.tf
    .rip entry) .rsp userRsp) .rflags 0x202) .cs userCs) .ss userDs
  ({ s with heap := { s.heap with mem := m } } : ExecState).setProc k
    { p with brk := userHeapBase, tf := tf }

/-- `proc_exec` from the tear-down of the old address space on. -/
def switchSpace (k : Fin maxProcs) (newPml4 path : U64) : Option ExecState :=
  let oldPml4 := (s.entry k).pml4
  ((s.setProc k { s.entry k with pml4 := newPml4 }).teardown oldPml4).bind fun s =>
    let s := s.lcr3 (s.heap.virtToPhys newPml4)
    (s.readUser [stringExtent s.userMem path]).map fun s =>
      s.setProc k { s.entry k with
        name := copyName (s.entry k).name (baseName (stringAt s.userMem path)) }

/-- `proc_exec` by the process `current`. -/
def procExec (current : Option (Fin maxProcs)) (fs : List U8 → ProgramFile) (path argv : U64) :
    Option (ExecState × U32) :=
  match current with
  | none => some (s, -1)
  | some k =>
    (s.execLoad fs path).bind fun
      | (s, none) => some (s, -1)
      | (s, some (newPml4, entry)) =>
        (s.readUser (argReads s.userMem argv)).bind fun s =>
          (setupUserStack s.heap newPml4 s.userMem argv).bind fun (t, userRsp) =>
            let s := ({ s with heap := t.heap } : ExecState).redirect k entry userRsp
            (s.switchSpace k newPml4 path).map fun s => (s, 0)

/-! ## What the parts leave alone -/

section Parts

variable {s s' s₁ : ExecState} {k : Fin maxProcs} {fs : List U8 → ProgramFile}
  {path argv p n buf entry userRsp : U64} {pages : U32} {es : List (Extent 64)}
  {e : U64 × Option U64} {r : Option (U64 × U64)}

theorem readUser_eq (h : s.readUser es = some s') :
    s' = { s with events := es.map .read ++ s.events } := by
  rw [readUser] at h
  split_ifs at h
  exact (Option.some.inj h).symm

/-- The processes and CR3 are the same. -/
def SameProcs (s s' : ExecState) : Prop := s'.entry = s.entry ∧ s'.cr3 = s.cr3

theorem SameProcs.trans (h : SameProcs s s₁) (h' : SameProcs s₁ s') : SameProcs s s' :=
  ⟨h'.1.trans h.1, h'.2.trans h.2⟩

theorem readUser_same (h : s.readUser es = some s') : SameProcs s s' := by
  rw [readUser_eq h]
  exact ⟨rfl, rfl⟩

theorem kfree_same (h : s.kfree p n = some s') : SameProcs s s' := by
  obtain ⟨g, -, rfl⟩ := Option.map_eq_some_iff.1 h
  exact ⟨rfl, rfl⟩

theorem teardown_same (h : s.teardown p = some s') : SameProcs s s' := by
  obtain ⟨f, -, rfl⟩ := Option.map_eq_some_iff.1 h
  exact ⟨rfl, rfl⟩

/-- The top table is passed to `kfree`. -/
theorem free_mem_teardown (h : s.teardown p = some s') : .free p ∈ s'.events := by
  obtain ⟨f, hf, rfl⟩ := Option.map_eq_some_iff.1 h
  obtain ⟨f₁, -, hk⟩ := Option.bind_eq_some_iff.1 hf
  obtain ⟨g, -, rfl⟩ := Option.map_eq_some_iff.1 hk
  exact List.mem_append_left _ (List.mem_map_of_mem List.mem_cons_self)

theorem loadImage_same (h : s.loadImage buf pages = some (s', e)) : SameProcs s s' := by
  obtain ⟨⟨t, pml4⟩, -, h⟩ := Option.bind_eq_some_iff.1 h
  dsimp only at h
  split_ifs at h with h0
  · obtain ⟨s₁, hk, h⟩ := Option.map_eq_some_iff.1 h
    obtain ⟨rfl, -⟩ := Prod.mk.inj h
    have hsame := kfree_same hk
    exact hsame
  · obtain ⟨⟨l, entry⟩, -, h⟩ := Option.bind_eq_some_iff.1 h
    cases entry with
    | none =>
      obtain ⟨s₁, ht, h⟩ := Option.bind_eq_some_iff.1 h
      obtain ⟨s₂, hk, h⟩ := Option.map_eq_some_iff.1 h
      obtain ⟨rfl, -⟩ := Prod.mk.inj h
      have hsame := (teardown_same ht).trans (kfree_same hk)
      exact hsame
    | some entry =>
      obtain ⟨s₁, hk, h⟩ := Option.map_eq_some_iff.1 h
      obtain ⟨rfl, -⟩ := Prod.mk.inj h
      have hsame := kfree_same hk
      exact hsame

theorem execLoad_same (h : s.execLoad fs path = some (s', r)) : SameProcs s s' := by
  obtain ⟨s₁, hread, h⟩ := Option.bind_eq_some_iff.1 h
  obtain ⟨b, -, h⟩ := Option.bind_eq_some_iff.1 h
  have hsame := readUser_same hread
  have hs : SameProcs s s₁ := hsame
  dsimp only at h
  cases hres : b.result with
  | none =>
    rw [hres] at h
    obtain ⟨rfl, -⟩ := Prod.mk.inj (Option.some.inj h)
    exact hs
  | some bp =>
    rw [hres] at h
    obtain ⟨⟨s₂, e⟩, hl, h⟩ := Option.map_eq_some_iff.1 h
    obtain ⟨rfl, -⟩ := Prod.mk.inj h
    have hsame := loadImage_same hl
    exact hs.trans hsame

end Parts

end ExecState

end Jeos
