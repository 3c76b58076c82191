import Jeos.ExecSuccess

/-!
# The strings of `proc_exec`

A vector that does not fit the stack page does not make the call fail (`exec_contained_iff`). The
path is read once more at the end, through the new tables and when the old ones are free, so the
name is the one the new image has at that address (`exec_rereads_path`).
-/

set_option linter.unusedSectionVars false

namespace Jeos

open ByteMemory UserStack

namespace UserStack

variable {um : Mem} {argv kpage argvUvas : U64} {g : Heap} {s : StackState} {i : ℕ} {e : Extent 64}

theorem mem_foldr_pushArg (is : List ℕ) (he : e ∈ s.writes) :
    e ∈ (is.foldr (StackState.pushArg argvUvas) s).writes := by
  induction is with
  | nil => exact he
  | cons i is ih => exact List.mem_cons_of_mem _ ih

/-- The strings from `argv[i]` on were written one below the other, from `top` on. -/
structure ArgsWritten (um : Mem) (argv top : U64) (i : ℕ) (s : StackState) : Prop where
  ptr : s.ptr = top - BitVec.ofNat 64 (bytesFrom um argv i)
  writes : ∀ j, i ≤ j → j < argCount um argv →
    ⟨top - BitVec.ofNat 64 (bytesFrom um argv j), argSize um argv j⟩ ∈ s.writes

theorem ArgsWritten.copyArg {top : U64} (h : ArgsWritten um argv top (i + 1) s)
    (hi : i < argCount um argv) : ArgsWritten um argv top i (s.copyArg um argv kpage argvUvas i) := by
  have hptr : s.ptr - BitVec.ofNat 64 (argSize um argv i) =
      top - BitVec.ofNat 64 (bytesFrom um argv i) := by
    rw [h.ptr, bytesFrom_eq hi, Nat.add_comm, BitVec.ofNat_add]
    refine BitVec.eq_of_toNat_eq ?_
    simp only [BitVec.toNat_sub, BitVec.toNat_add]
    omega
  refine ⟨hptr, fun j hj hj' => ?_⟩
  rcases Nat.eq_or_lt_of_le hj with rfl | hlt
  · rw [← hptr]
    exact List.mem_cons_of_mem _ List.mem_cons_self
  · exact List.mem_cons_of_mem _ (List.mem_cons_of_mem _ (h.writes j hlt hj'))

/-- The place where `argv[i]` goes, whether it is in the page or not. -/
theorem mem_fillStack_writes (g : Heap) (kpage argvUvas : U64) (hi : i < argCount um argv) :
    ⟨kpage + pageSize - BitVec.ofNat 64 (bytesFrom um argv i), argSize um argv i⟩ ∈
      (StackState.fillStack um argv kpage argvUvas ⟨g, kpage + pageSize, []⟩).writes := by
  have hstart : ArgsWritten um argv (kpage + pageSize) (argCount um argv)
      ⟨g, kpage + pageSize, []⟩ := by
    refine ⟨?_, fun j hj hj' => absurd hj' hj.not_gt⟩
    rw [bytesFrom_count]
    exact (BitVec.sub_zero _).symm
  have hall : ArgsWritten um argv (kpage + pageSize) 0 ((List.range (argCount um argv)).foldr
      (StackState.copyArg um argv kpage argvUvas) ⟨g, kpage + pageSize, []⟩) :=
    Loop.foldr_range_spec (fun _ hi _ h => h.copyArg hi) hstart
  refine List.mem_cons_of_mem _ (mem_foldr_pushArg _ ?_)
  exact List.mem_cons_of_mem _ (List.mem_cons_of_mem _ (hall.writes i (Nat.zero_le _) hi))

end UserStack

namespace ExecState

/-! ## The argument vector -/

/-- Whatever `setup_user_stack` writes, is in the stack page or in the buffer. -/
def StackContained (s : ExecState) (r : Option (U64 × U64)) (argv : U64) : Prop :=
  ∀ newPml4 entry, r = some (newPml4, entry) → ∀ phys h argvUvas,
    stackPhys s.heap newPml4 = some phys → kalloc s.heap 1 = some (h, argvUvas) → argvUvas ≠ 0 →
      ∀ e ∈ (StackState.fillStack s.userMem argv (s.heap.physToVirt phys) argvUvas
        ⟨h, s.heap.physToVirt phys + pageSize, []⟩).writes,
        Inside (s.heap.physToVirt phys) argvUvas e

/-- The stack is written in its page and the buffer, and the call fails if the vector does not
fit. -/
def ArgvContained (s s₁ : ExecState) (k : Fin maxProcs) (fs : List U8 → ProgramFile)
    (path argv : U64) (r : Option (U64 × U64)) : Prop :=
  StackContained s₁ r argv ∧
    (¬Fits s₁.userMem argv → ∃ s', s.procExec (some k) fs path argv = some (s', -1))

/-- `proc_exec` never fails behind `setup_user_stack`, so the vector is contained exactly if it fits
or the call fails before. `s₁` is the state in which the program is loaded. -/
theorem exec_contained_iff {s s₁ : ExecState} {k : Fin maxProcs} {fs : List U8 → ProgramFile}
    {path argv : U64} {r : Option (U64 × U64)} (hl : s.execLoad fs path = some (s₁, r)) :
    ArgvContained s s₁ k fs path argv r ↔ Fits s₁.userMem argv ∨ r = none := by
  cases r with
  | none =>
    refine iff_of_true ⟨fun _ _ h => absurd h (by simp), fun _ => ⟨s₁, ?_⟩⟩ (Or.inr rfl)
    rw [procExec, hl]
    rfl
  | some r =>
    constructor
    · rintro ⟨-, hfail⟩
      by_contra hno
      obtain ⟨s', hr⟩ := hfail fun hf => hno (Or.inl hf)
      exact procExec_ne_neg hl hr
    · rintro (hf | hr)
      · exact ⟨fun _ _ _ _ _ _ _ _ _ => fillStack_inside hf, fun hno => absurd hf hno⟩
      · exact absurd hr (by simp)

/-- A page with the path "/b", three pointers to one string behind it, and the string with 3999
letters. -/
def threeArgs (i : ℕ) : U8 :=
  if i = 0 then 0x2F else if i = 1 then 0x62
  else if 8 ≤ i ∧ i < 32 then if i % 8 = 0 then 0x28 else if i % 8 = 2 then 0x40 else 0
  else if 40 ≤ i ∧ i < 4039 then 0x61 else 0

theorem threeArgs_eq : stringAt (pageMem threeArgs) 0x400000 = [0x2F, 0x62] ∧
    argCount (pageMem threeArgs) (0x400000 + BitVec.ofNat 64 8) = 3 ∧
      (∀ i < 3, argAt (pageMem threeArgs) (0x400000 + BitVec.ofNat 64 8) i =
        0x400000 + BitVec.ofNat 64 40) ∧
      (stringAt (pageMem threeArgs) (0x400000 + BitVec.ofNat 64 40)).length = 3999 := by
  decide +kernel

theorem threeArgs_path : (stringAt (pageMem threeArgs) 0x400000).length < 4096 := by
  rw [threeArgs_eq.1]
  decide

/-- The three strings take 12000 bytes. -/
theorem threeArgs_bytes {um : Mem}
    (hum : ∀ i < 4096, um (0x400000 + BitVec.ofNat 64 i) = threeArgs i) :
    argCount um 0x400008 = 3 ∧ argSize um 0x400008 0 = 4000 ∧ bytesFrom um 0x400008 0 = 12000 := by
  obtain ⟨-, hargs, hptr, hlen⟩ := threeArgs_eq
  have hcount : argCount um (0x400000 + BitVec.ofNat 64 8) = 3 :=
    (argCount_page hum (by rw [hargs]; decide)).trans hargs
  have hsize : ∀ i < 3, argSize um (0x400000 + BitVec.ofNat 64 8) i = 4000 := fun i hi => by
    rw [argSize, argAt_page hum (by omega), hptr i hi, stringAt_page hum (by rw [hlen]; norm_num),
      hlen]
  refine ⟨hcount, hsize 0 (by norm_num), ?_⟩
  have hall : bytesFrom um (0x400000 + BitVec.ofNat 64 8) 0 = ∑ _k ∈ Finset.Ico 0 3, 4000 := by
    rw [bytesFrom, hcount]
    exact Finset.sum_congr rfl fun i hi => hsize i (Finset.mem_Ico.1 hi).2
  exact hall.trans (by decide)

/-- A range of 4000 bytes across the two pages below a page is not in that page and another one. -/
theorem not_inside_below {kpage v : U64} (hk : PageAligned kpage) (hv : PageAligned v) :
    ¬Inside kpage v ⟨kpage + pageSize - BitVec.ofNat 64 12000, 4000⟩ := fun hin => by
  have hsize : pageSize.toNat = 4096 := pageSize_toNat
  have hkn := hk.toNat_eq
  have hlt := kpage.isLt
  obtain ⟨a, ha⟩ : ∃ a, a = kpage + pageSize - BitVec.ofNat 64 12000 := ⟨_, rfl⟩
  have han : a.toNat = (kpage.toNat + 2 ^ 64 - 7904) % 2 ^ 64 := by
    rw [ha, BitVec.toNat_sub, BitVec.toNat_add, BitVec.toNat_ofNat, hsize]
    omega
  rw [← ha] at hin
  have hend : (a + BitVec.ofNat 64 3999).toNat = (a.toNat + 3999) % 2 ^ 64 := by
    rw [BitVec.toNat_add, BitVec.toNat_ofNat, Nat.mod_eq_of_lt (show 3999 < 2 ^ 64 by norm_num)]
  have hin' : ∀ x, Within x a 4000 → pageOf x = pageOf kpage ∨ pageOf x = pageOf v := fun x hx =>
    (hin x hx).imp (within_page_iff hk).1 (within_page_iff hv).1
  have h1 := hin' a (within_self _ (by norm_num))
  have h2 := hin' (a + BitVec.ofNat 64 3999) (within_add _ (by norm_num) (by norm_num))
  unfold pageOf at *
  rw [hend, han] at h2
  rw [han] at h1
  omega

/-- Three strings of 3999 letters. The call does not fail, and the first of them is written below
the stack page. -/
theorem exec_overflows : ∃ s s₁ k fs path argv r, ExecReady s.heap s k ∧
    s.execLoad fs path = some (s₁, some r) ∧ argCount s₁.userMem argv = 3 ∧
      ¬StackContained s₁ (some r) argv ∧ ¬ArgvContained s s₁ k fs path argv (some r) := by
  obtain ⟨h, old, s₁, newPml4, hl⟩ := exists_launched (c := threeArgs) threeArgs_path
  obtain ⟨hcount, hsize, hbytes⟩ := threeArgs_bytes fun i hi => hl.userMem_eq hi
  have hst := hl.loaded.start
  obtain ⟨n, hn⟩ := hst.stack
  have hno : ¬StackContained s₁ (some (newPml4, 0x400000)) 0x400008 := fun hc => by
    obtain ⟨-, hnone⟩ | ⟨g, v, hk, ht⟩ := kalloc_one hst.new.space.sound
    · exact hst.free.ne_empty hnone
    have hphys : stackPhys s₁.heap newPml4 = some (n.pte &&& pageFrameMask) := by
      rw [stackPhys_eq, leafPte, hn]
      rfl
    have hmem := mem_fillStack_writes g (s₁.heap.physToVirt (n.pte &&& pageFrameMask)) v
      (show 0 < argCount s₁.userMem 0x400008 by omega)
    rw [hbytes, hsize] at hmem
    exact not_inside_below (pageAligned_pteAddr hst.new.space.sound.hhdm n.pte) ht.aligned
      (hc newPml4 0x400000 rfl _ g v hphys hk ht.ne_zero _ hmem)
  exact ⟨caller h old, s₁, 0, launcherFs, 0x400000, 0x400008, (newPml4, 0x400000), hl.ready,
    hl.load, hcount, hno, fun hc => hno hc.1⟩

/-- Without a vector everything is in its place. -/
theorem exec_contained_launcher : ∃ s s₁ k fs path r,
    s.execLoad fs path = some (s₁, some r) ∧ ArgvContained s s₁ k fs path 0 (some r) := by
  obtain ⟨h, old, s₁, newPml4, hl⟩ := exists_launched (c := threeArgs) threeArgs_path
  exact ⟨caller h old, s₁, 0, launcherFs, 0x400000, (newPml4, 0x400000), hl.load,
    (exec_contained_iff hl.load).2 (Or.inl (fits_zero _))⟩

/-! ## The strings of the caller -/

/-- Whatever is read, is read before the old top table is freed and before CR3 is loaded. -/
def ReadsWhileActive (old : U64) (events : List ExecEvent) : Prop :=
  ∀ pre e post, events = pre ++ .read e :: post → .free old ∉ post ∧ ∀ v, .loadCr3 v ∉ post

/-- The strings of the caller are used as they stood in its address space, and the process has the
name of the path. -/
def UsesCallerStrings (s s' : ExecState) (k : Fin maxProcs) (path : U64) : Prop :=
  ReadsWhileActive (s.entry k).pml4 s'.events ∧
    nameString (s'.entry k).name = (lastComponent (stringAt s.userMem path)).take 15

/-- The name of a process is the last part of the path, cut at 15 bytes. -/
theorem nameString_renamed (s : ExecState) (k : Fin maxProcs) (path : U64) :
    nameString ((s.renamed k path).entry k).name =
      (lastComponent (stringAt s.userMem path)).take 15 := by
  have h0 : (0 : U8) ∉ lastComponent (stringAt s.userMem path) := fun h0 =>
    zero_notMem_stringAt _ _ ((List.rtakeWhile_suffix _ _).subset h0)
  simp only [renamed, setProc, Function.update_self, baseName_eq]
  exact nameString_copyName _ h0

/-- A successful `proc_exec` reads the path again when the old tables are freed, and takes the name
of the process from the new image. -/
theorem exec_rereads_path {s s' : ExecState} {k : Fin maxProcs} {fs : List U8 → ProgramFile}
    {path argv : U64} (hr : s.procExec (some k) fs path argv = some (s', 0)) :
    ¬UsesCallerStrings s s' k path ∧
      nameString (s'.entry k).name = (lastComponent (stringAt s'.userMem path)).take 15 := by
  obtain ⟨s₁, newPml4, entry, t, userRsp, s₂, hl, -, htear, rfl⟩ := procExec_eq_zero hr
  have hfree := free_mem_teardown htear
  rw [(execLoad_same hl).1] at hfree
  refine ⟨fun hu => ?_, nameString_renamed _ k path⟩
  exact (hu.1 [] _ _ rfl).1 (List.mem_cons_of_mem _ hfree)

/-- A page with the path "/b". -/
def pathPage (i : ℕ) : U8 := if i = 0 then 0x2F else if i = 1 then 0x62 else 0

theorem pathPage_string : stringAt (pageMem pathPage) 0x400000 = [0x2F, 0x62] := by
  decide

theorem pathPage_path : (stringAt (pageMem pathPage) 0x400000).length < 4096 := by
  rw [pathPage_string]
  decide

/-- The process starts "/b", and is then called "x". -/
theorem exec_takes_wrong_name : ∃ s s' k fs path argv, ExecReady s.heap s k ∧
    s.procExec (some k) fs path argv = some (s', 0) ∧
      (lastComponent (stringAt s.userMem path)).take 15 = [0x62] ∧
      nameString (s'.entry k).name = [0x78] ∧ ¬UsesCallerStrings s s' k path := by
  obtain ⟨h, old, s₁, newPml4, hl⟩ := exists_launched (c := pathPage) pathPage_path
  obtain ⟨n, userRsp, s₂, -, hr, hpath⟩ := hl.exec
  have hold : stringAt (caller h old).userMem 0x400000 = [0x2F, 0x62] := by
    have := stringAt_page (o := 0) hl.page (by rw [BitVec.add_zero]; exact pathPage_path)
    rw [BitVec.add_zero] at this
    exact this.trans pathPage_string
  have hname := nameString_renamed (s₂.lcr3 (s₂.heap.virtToPhys newPml4)) 0 0x400000
  rw [hpath] at hname
  have hname' : nameString (((s₂.lcr3 (s₂.heap.virtToPhys newPml4)).renamed 0
      0x400000).entry 0).name = [0x78] := hname.trans (by decide)
  have hlast : (lastComponent (stringAt (caller h old).userMem 0x400000)).take 15 = [0x62] := by
    rw [hold]
    decide
  refine ⟨caller h old, _, 0, launcherFs, 0x400000, 0, hl.ready, hr, hlast, hname', fun hu => ?_⟩
  exact absurd ((hname'.symm.trans hu.2).trans hlast) (by decide)

theorem exec_rereads_path_launcher : ∃ s s' k fs path argv,
    s.procExec (some k) fs path argv = some (s', 0) ∧ ¬UsesCallerStrings s s' k path ∧
      nameString (s'.entry k).name = (lastComponent (stringAt s'.userMem path)).take 15 := by
  obtain ⟨h, old, s₁, newPml4, hl⟩ := exists_launched (c := pathPage) pathPage_path
  obtain ⟨n, userRsp, s₂, -, hr, -⟩ := hl.exec
  exact ⟨caller h old, _, 0, launcherFs, 0x400000, 0, hr, exec_rereads_path hr⟩

end ExecState

end Jeos
