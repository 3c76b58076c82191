import Jeos.KernelHalf

/-!
# The bounds of the loader

`elf_load_segments` ignores `elf_size` : the ELF header, the program headers and the
segments are read where the fields of the file say. `accesses` collects what it reads from
the file and what `memcpy` writes to a page.

`Inside` says on the fields of the file that the parts they describe lie in the file.
Under it every access is in bounds, and when no page is missing it is needed
(`inBounds_iff_inside`).
-/

set_option linter.unusedSectionVars false

namespace Jeos

open ByteMemory

namespace Elf

open LoadState

/-! ## Accesses -/

/-- A range of the file that is read, or a range of a page that `memcpy` writes. -/
inductive Access where
  | read (e : Extent 64)
  | copy (e : Extent 64)

/-- The access stays in a file of `size` bytes, or in its page. -/
def Access.In (size : U64) : Access → Prop
  | read e => e.Below size
  | copy e => e.Below pageSize

/-- Reads and copies, as accesses. -/
def logOf (reads copies : List (Extent 64)) : Set Access :=
  {a | (∃ e ∈ reads, a = .read e) ∨ ∃ e ∈ copies, a = .copy e}

/-- The accesses of the loader so far. -/
def accesses (s : LoadState) : Set Access := logOf s.reads s.copies

/-- Every access of the loader was in bounds. -/
def InBounds (s : LoadState) (size : U64) : Prop := ∀ a ∈ accesses s, a.In size

/-- The accesses for the page `va` of `phdr[i]`. -/
def pageAccesses (elf : Mem) (i : ℕ) (va : U64) : Set Access :=
  logOf [phdrField elf i 3, phdrField elf i 5] [] ∪
    {a | HasFileBytes elf i va ∧
      a ∈ logOf [phdrField elf i 2, copySource elf i va] [copyTarget elf i va]}

/-- The accesses for `phdr[i]`. -/
def segmentAccesses (elf : Mem) (i : ℕ) : Set Access :=
  logOf [field ehdr 0 15, phdrField elf i 0] [] ∪
    if pType elf i = ptLoad then
      logOf [phdrField elf i 3, phdrField elf i 6, phdrField elf i 1] [] ∪
        {a | ∃ va ∈ segPages elf i, a ∈ pageAccesses elf i va}
    else ∅

/-- The accesses of the loader on a file that passes the header tests. -/
def fileAccesses (elf : Mem) : Set Access :=
  logOf [field ehdr 0 10, field ehdr 0 15, field ehdr 0 9] [] ∪
    {a | ∃ i ∈ List.range (ePhnum elf).toNat, a ∈ segmentAccesses elf i}

/-- The accesses for the tests of the ELF header. -/
def headerAccesses (elf : Mem) : Set Access :=
  if eMagic elf ≠ magic then logOf [field ehdr 0 0] []
  else if eClass elf ≠ class64 then logOf [field ehdr 0 1, field ehdr 0 0] []
  else logOf [field ehdr 0 7, field ehdr 0 1, field ehdr 0 0] []

/-- All accesses of the loader, when no page is missing. -/
def allAccesses (elf : Mem) : Set Access :=
  headerAccesses elf ∪ if IsElf64 elf then fileAccesses elf else ∅

section Accesses

variable {elf : Mem} {pml4 size n : U64} {s s' : LoadState} {i : ℕ} {va : U64} {go : Bool}
  {r : Option U64}

theorem accesses_log (s : LoadState) (m : MapState) (rs cs : List (Extent 64)) :
    accesses ⟨m, rs ++ s.reads, cs ++ s.copies⟩ = accesses s ∪ logOf rs cs := by
  ext a
  simp only [accesses, logOf, List.mem_append, or_and_right, exists_or, Set.mem_union,
    Set.mem_ofPred_eq]
  constructor
  · rintro ((h | h) | h | h)
    · exact Or.inr (Or.inl h)
    · exact Or.inl (Or.inl h)
    · exact Or.inr (Or.inr h)
    · exact Or.inl (Or.inr h)
  · rintro ((h | h) | h | h)
    · exact Or.inl (Or.inr h)
    · exact Or.inr (Or.inr h)
    · exact Or.inl (Or.inl h)
    · exact Or.inr (Or.inl h)

theorem logOf_cons (e : Extent 64) (es cs : List (Extent 64)) :
    logOf (e :: es) cs = {.read e} ∪ logOf es cs := by
  ext a
  simp only [logOf, List.mem_cons, exists_eq_or_imp, or_assoc, Set.mem_union, Set.mem_ofPred_eq,
    Set.mem_singleton_iff]

theorem logOf_nil : logOf [] [] = ∅ := by
  ext a
  simp [logOf]

theorem accesses_congr (h : s'.reads = s.reads) (h' : s'.copies = s.copies) :
    accesses s' = accesses s := by
  rw [accesses, accesses, h, h']

theorem loadPage_accesses (hr : loadPage elf i va pml4 n s = some (s', go)) :
    accesses s' = if go then accesses s ∪ pageAccesses elf i va else accesses s := by
  obtain ⟨⟨m, g⟩, -, he⟩ := Option.map_eq_some_iff.1 hr
  rcases g with _ | _
  · obtain ⟨rfl, rfl⟩ := Prod.mk.inj he
    exact accesses_congr rfl rfl
  · dsimp only at he
    by_cases hf : HasFileBytes elf i va
    · rw [if_pos rfl, if_pos hf] at he
      obtain ⟨rfl, rfl⟩ := Prod.mk.inj he
      have h1 := accesses_log s m [phdrField elf i 3, phdrField elf i 5] []
      have h2 := accesses_log ⟨m, [phdrField elf i 3, phdrField elf i 5] ++ s.reads, s.copies⟩ m
        [phdrField elf i 2, copySource elf i va] [copyTarget elf i va]
      rw [if_pos rfl, pageAccesses, ← Set.union_assoc, ← h1]
      simp only [hf, true_and]
      exact h2
    · rw [if_pos rfl, if_neg hf] at he
      obtain ⟨rfl, rfl⟩ := Prod.mk.inj he
      rw [if_pos rfl, pageAccesses]
      simp only [hf, false_and]
      exact (accesses_log s m [_, _] []).trans (by rw [Set.ofPred_false, Set.union_empty])

theorem loadSegment_accesses (hr : loadSegment pml4 elf s i = some (s', go)) :
    accesses s' ⊆ accesses s ∪ segmentAccesses elf i ∧
      (go = true → accesses s' = accesses s ∪ segmentAccesses elf i) := by
  rw [loadSegment] at hr
  have hfirst := accesses_log s s.map [field ehdr 0 15, phdrField elf i 0] []
  by_cases ht : pType elf i = ptLoad
  · rw [if_neg (not_not.2 ht), forPages_eq _ _ (pageAligned_pageUp _)] at hr
    have hpages : segPages elf i =
        pagesFrom (pageDown (pVaddr elf i)) (pageUp (pVaddr elf i + pMemsz elf i)) := if_pos ht
    rw [← hpages] at hr
    have hsecond := accesses_log
      ⟨s.map, [field ehdr 0 15, phdrField elf i 0] ++ s.reads, [] ++ s.copies⟩ s.map
      [phdrField elf i 3, phdrField elf i 6, phdrField elf i 1] []
    rw [hfirst, Set.union_assoc] at hsecond
    have hlog := Loop.each_log accesses (pageAccesses elf i)
      (fun va _ t t' hr => loadPage_accesses hr)
      (fun va _ t t' hr => (loadPage_accesses hr).subset.trans Set.subset_union_left) hr
    have hstart : ∀ A, accesses { s with
        reads := phdrField elf i 3 :: phdrField elf i 6 :: phdrField elf i 1 ::
          field ehdr 0 15 :: phdrField elf i 0 :: s.reads } ∪ A =
        accesses s ∪ (logOf [field ehdr 0 15, phdrField elf i 0] [] ∪
          (logOf [phdrField elf i 3, phdrField elf i 6, phdrField elf i 1] [] ∪ A)) := fun A =>
      (congrArg (· ∪ A) hsecond).trans (by rw [Set.union_assoc, Set.union_assoc])
    rw [segmentAccesses, if_pos ht, ← hstart]
    exact hlog
  · rw [if_pos ht] at hr
    obtain ⟨rfl, rfl⟩ := Prod.mk.inj (Option.some.inj hr)
    rw [segmentAccesses, if_neg ht, Set.union_empty]
    exact ⟨hfirst.subset, fun _ => hfirst⟩

theorem mapStackPage_accesses (hr : mapStackPage pml4 s va = some (s', go)) :
    accesses s' = accesses s := by
  obtain ⟨⟨m, g⟩, -, he⟩ := Option.map_eq_some_iff.1 hr
  obtain ⟨rfl, -⟩ := Prod.mk.inj he
  exact accesses_congr rfl rfl

/-- The accesses after the header tests. -/
theorem loadFile_accesses (he : IsElf64 elf)
    (hr : elfLoadSegments s pml4 elf n = some (s', r)) :
    accesses s' ⊆ accesses s ∪ allAccesses elf ∧
      (r.isSome → accesses s' = accesses s ∪ allAccesses elf) := by
  obtain ⟨h1, h2, h3⟩ := he
  have hall : allAccesses elf = logOf [field ehdr 0 7, field ehdr 0 1, field ehdr 0 0] [] ∪
      fileAccesses elf := by
    rw [allAccesses, headerAccesses, if_neg (not_not.2 h1), if_neg (not_not.2 h2), if_pos ⟨h1, h2, h3⟩]
  simp only [elfLoadSegments, h1, h2, h3, ne_eq, not_true_eq_false, if_false] at hr
  obtain ⟨⟨s₂, go⟩, hloop, hr⟩ := Option.bind_eq_some_iff.1 hr
  have hlog := Loop.each_log accesses (segmentAccesses elf)
    (fun i _ t t' hr => (loadSegment_accesses hr).2 rfl)
    (fun i _ t t' hr => (loadSegment_accesses hr).1) hloop
  have hstart : accesses ⟨s.map, field ehdr 0 10 :: field ehdr 0 7 :: field ehdr 0 1 ::
      field ehdr 0 0 :: s.reads, s.copies⟩ = accesses s ∪
        logOf [field ehdr 0 10, field ehdr 0 7, field ehdr 0 1, field ehdr 0 0] [] :=
    accesses_log s s.map [_, _, _, _] []
  set L := {a | ∃ i ∈ List.range (ePhnum elf).toNat, a ∈ segmentAccesses elf i} with hL
  have heq : accesses s ∪ allAccesses elf =
      accesses s ∪ logOf [field ehdr 0 10, field ehdr 0 7, field ehdr 0 1, field ehdr 0 0] [] ∪ L ∪
        logOf [field ehdr 0 15] [] ∪ logOf [field ehdr 0 9] [] := by
    rw [hall, fileAccesses, ← hL]
    simp only [logOf_cons, logOf_nil, Set.union_empty]
    ac_rfl
  rw [heq]
  rw [hstart] at hlog
  rcases go with _ | _
  · rw [if_pos Bool.false_ne_true] at hr
    obtain ⟨rfl, rfl⟩ := Prod.mk.inj (Option.some.inj hr)
    exact ⟨(hlog.1.trans Set.subset_union_left).trans Set.subset_union_left,
      fun h => absurd h Bool.false_ne_true⟩
  · rw [if_neg (not_not.2 rfl)] at hr
    obtain ⟨⟨s₃, go⟩, hst, hr⟩ := Option.map_eq_some_iff.1 hr
    rw [forPages_eq _ _ (show PageAligned (userStackTop + pageSize) by decide)] at hst
    have h15 := accesses_log s₂ s₂.map [field ehdr 0 15] []
    rw [hlog.2 rfl] at h15
    have h₃ : accesses s₃ = accesses s ∪
        logOf [field ehdr 0 10, field ehdr 0 7, field ehdr 0 1, field ehdr 0 0] [] ∪ L ∪
          logOf [field ehdr 0 15] [] :=
      (Loop.each_invariant (I := fun t => accesses t = accesses _)
        (fun _ _ t t' g ht hr => (mapStackPage_accesses hr).trans ht) rfl hst).trans h15
    rcases go with _ | _
    · rw [if_neg Bool.false_ne_true] at hr
      obtain ⟨rfl, rfl⟩ := Prod.mk.inj hr
      exact ⟨h₃.subset.trans Set.subset_union_left, fun h => absurd h Bool.false_ne_true⟩
    · rw [if_pos rfl] at hr
      obtain ⟨rfl, rfl⟩ := Prod.mk.inj hr
      have h9 := accesses_log s₃ s₃.map [field ehdr 0 9] []
      rw [h₃] at h9
      exact ⟨h9.subset, fun _ => h9⟩

/-- The accesses of the loader on any file. -/
theorem elfLoadSegments_accesses (hr : elfLoadSegments s pml4 elf n = some (s', r)) :
    accesses s' ⊆ accesses s ∪ allAccesses elf ∧
      ((IsElf64 elf → r.isSome) → accesses s' = accesses s ∪ allAccesses elf) := by
  by_cases he : IsElf64 elf
  · obtain ⟨h1, h2⟩ := loadFile_accesses he hr
    exact ⟨h1, fun h => h2 (h he)⟩
  · suffices h : accesses s' = accesses s ∪ allAccesses elf from ⟨h.subset, fun _ => h⟩
    rw [allAccesses, if_neg he, Set.union_empty, headerAccesses]
    unfold elfLoadSegments at hr
    by_cases h1 : eMagic elf = magic
    · by_cases h2 : eClass elf = class64
      · have h3 : eMachine elf ≠ machineX8664 := fun h3 => he ⟨h1, h2, h3⟩
        simp only [h1, h2, h3, ne_eq, not_true_eq_false, if_false, not_false_eq_true, if_true] at hr
        obtain ⟨rfl, -⟩ := Prod.mk.inj (Option.some.inj hr)
        rw [if_neg (not_not.2 h1), if_neg (not_not.2 h2)]
        exact accesses_log s s.map [field ehdr 0 7, field ehdr 0 1, field ehdr 0 0] []
      · simp only [h1, h2, ne_eq, not_true_eq_false, if_false, not_false_eq_true, if_true] at hr
        obtain ⟨rfl, -⟩ := Prod.mk.inj (Option.some.inj hr)
        rw [if_neg (not_not.2 h1), if_pos h2]
        exact accesses_log s s.map [field ehdr 0 1, field ehdr 0 0] []
    · simp only [h1, ne_eq, not_false_eq_true, if_true] at hr
      obtain ⟨rfl, -⟩ := Prod.mk.inj (Option.some.inj hr)
      rw [if_pos h1]
      exact accesses_log s s.map [field ehdr 0 0] []

end Accesses

/-! ## Files whose parts lie in the file -/

/-- How much of the ELF header is read : up to the first test that fails, or up to `e_phnum`. -/
def headerLength (elf : Mem) : ℕ :=
  if eMagic elf ≠ magic then 4
  else if eClass elf ≠ class64 then 5
  else if eMachine elf ≠ machineX8664 then 20
  else 58

/-- The end of the pages of `phdr[i]`. -/
def segStop (elf : Mem) (i : ℕ) : U64 := pageUp (pVaddr elf i + pMemsz elf i)

/-- A page is mapped for `phdr[i]`. -/
def MapsPages (elf : Mem) (i : ℕ) : Prop :=
  pType elf i = ptLoad ∧ pageDown (pVaddr elf i) < segStop elf i

/-- The first page of `phdr[i]` starts before the end of its bytes of the file. -/
def HasBytes (elf : Mem) (i : ℕ) : Prop :=
  MapsPages elf i ∧ pageDown (pVaddr elf i) < segFileEnd elf i

/-- What `phdr[i]` describes lies in the file : the fields that are used, and the bytes of the
segment in the pages that are mapped. Its end does not wrap into its first page. -/
structure PhdrInside (elf : Mem) (size : U64) (i : ℕ) : Prop where
  type : (phdrField elf i 0).Below size
  fields : pType elf i = ptLoad → ∀ k ∈ [3, 6, 1], (phdrField elf i k).Below size
  filesz : MapsPages elf i → (phdrField elf i 5).Below size
  offset : HasBytes elf i → (phdrField elf i 2).Below size
  noWrap : HasBytes elf i → pVaddr elf i ≤ segFileEnd elf i
  data : HasBytes elf i → pVaddr elf i < segFileEnd elf i →
    (pOffset elf i).toNat + (min (segStop elf i).toNat (segFileEnd elf i).toNat -
      (pVaddr elf i).toNat) ≤ size.toNat

/-- The parts of the file that its fields describe lie in its `size` bytes. -/
structure Inside (elf : Mem) (size : U64) : Prop where
  header : headerLength elf ≤ size.toNat
  phdrs : IsElf64 elf → ∀ i < (ePhnum elf).toNat, PhdrInside elf size i

section Inside

variable {elf : Mem} {size va : U64} {i : ℕ}

theorem forall_mem_logOf {rs cs : List (Extent 64)} : (∀ a ∈ logOf rs cs, a.In size) ↔
    (∀ e ∈ rs, e.Below size) ∧ ∀ e ∈ cs, e.Below pageSize := by
  constructor
  · intro h
    exact ⟨fun e he => h (.read e) (Or.inl ⟨e, he, rfl⟩),
      fun e he => h (.copy e) (Or.inr ⟨e, he, rfl⟩)⟩
  · rintro ⟨hr, hc⟩ a (⟨e, he, rfl⟩ | ⟨e, he, rfl⟩)
    · exact hr e he
    · exact hc e he

/-- The accesses to the header. -/
theorem header_in_iff : ((∀ a ∈ headerAccesses elf, a.In size) ∧
    (IsElf64 elf → ∀ a ∈ logOf [field ehdr 0 10, field ehdr 0 15, field ehdr 0 9] [], a.In size)) ↔
      headerLength elf ≤ size.toNat := by
  have hb : ∀ {e : Extent 64} (a n : ℕ), e = ⟨BitVec.ofNat 64 a, n⟩ → a < 2 ^ 64 → 0 < n →
      (e.Below size ↔ a + n ≤ size.toNat) := fun a n he ha hn => by
    rw [he, Extent.below_iff_of_pos hn, BitVec.toNat_ofNat, Nat.mod_eq_of_lt ha]
  have h0 := hb (e := field ehdr 0 0) 0 4 (by decide) (by norm_num) (by norm_num)
  have h1 := hb (e := field ehdr 0 1) 4 1 (by decide) (by norm_num) (by norm_num)
  have h7 := hb (e := field ehdr 0 7) 18 2 (by decide) (by norm_num) (by norm_num)
  have h9 := hb (e := field ehdr 0 9) 24 8 (by decide) (by norm_num) (by norm_num)
  have h10 := hb (e := field ehdr 0 10) 32 8 (by decide) (by norm_num) (by norm_num)
  have h15 := hb (e := field ehdr 0 15) 56 2 (by decide) (by norm_num) (by norm_num)
  unfold headerAccesses headerLength IsElf64
  by_cases t1 : eMagic elf = magic
  · by_cases t2 : eClass elf = class64
    · by_cases t3 : eMachine elf = machineX8664
      · simp only [t1, t2, t3, ne_eq, not_true_eq_false, if_false, true_imp_iff, and_self,
          forall_mem_logOf, List.forall_mem_cons, h0, h1, h7, h9, h10, h15]
        simp only [List.not_mem_nil, false_imp_iff, implies_true, and_true]
        omega
      · simp only [t1, t2, t3, ne_eq, not_true_eq_false, not_false_eq_true, if_false, if_true,
          and_false, false_imp_iff, and_true, forall_mem_logOf, List.forall_mem_cons, h0, h1, h7]
        simp only [List.not_mem_nil, false_imp_iff, implies_true, and_true]
        omega
    · simp only [t1, t2, ne_eq, not_true_eq_false, not_false_eq_true, if_false, if_true,
        false_and, and_false, false_imp_iff, and_true, forall_mem_logOf, List.forall_mem_cons, h0, h1]
      simp only [List.not_mem_nil, false_imp_iff, implies_true, and_true]
      omega
  · simp only [t1, ne_eq, not_false_eq_true, if_true, false_and, false_imp_iff, and_true,
      forall_mem_logOf, List.forall_mem_cons, h0]
    simp only [List.not_mem_nil, false_imp_iff, implies_true, and_true]

theorem copySource_below_iff (hva : va.toNat + 4096 < 2 ^ 64) (hf : HasFileBytes elf i va)
    (hle : pVaddr elf i ≤ segFileEnd elf i)
    (ho : (pOffset elf i).toNat + (max va.toNat (pVaddr elf i).toNat - (pVaddr elf i).toNat) <
      2 ^ 64) :
    (copySource elf i va).Below size ↔
      min (va.toNat + 4096) (segFileEnd elf i).toNat ≤ max va.toNat (pVaddr elf i).toNat ∨
      (pOffset elf i).toNat +
        (min (va.toNat + 4096) (segFileEnd elf i).toNat - (pVaddr elf i).toNat) ≤ size.toNat := by
  have hle := BitVec.le_def.1 hle
  obtain ⟨-, hlen⟩ := copyTarget_toNat hva hf hle
  have hs := copyStart_toNat elf i va
  have hstart : (copySource elf i va).start.toNat =
      (pOffset elf i).toNat + (max va.toNat (pVaddr elf i).toNat - (pVaddr elf i).toNat) := by
    rw [copySource]
    dsimp only
    rw [BitVec.toNat_add, BitVec.toNat_sub_of_le (BitVec.le_def.2 (by omega)), hs,
      Nat.mod_eq_of_lt ho]
  have hlen' : (copySource elf i va).length = (copyTarget elf i va).length := rfl
  rw [Extent.Below, hstart, hlen', hlen]
  omega

theorem pageDown_le (a : U64) : (pageDown a).toNat ≤ a.toNat ∧
    a.toNat < (pageDown a).toNat + 4096 := by
  rw [pageDown_toNat]
  omega

/-- The pages of a segment, one by one. -/
theorem mem_segPages_iff (ht : pType elf i = ptLoad) : va ∈ segPages elf i ↔
    ∃ k, va.toNat = (pageDown (pVaddr elf i)).toNat + k * 4096 ∧ va < segStop elf i := by
  rw [segPages, if_pos ht, mem_pagesFrom, segStop]

/-- Chunks that follow each other without a gap : if each one ends below `n` unless its start wraps,
then no start wraps. -/
theorem chunks_end {D S e v o n : ℕ}
    (step : ∀ k, D + k * 4096 < S → D + k * 4096 < e → o + (max (D + k * 4096) v - v) < 2 ^ 64 →
      o + (min (D + k * 4096 + 4096) e - v) ≤ n)
    (hv : D ≤ v) (ho : o < 2 ^ 64) (hn : n < 2 ^ 64) (k : ℕ) (hS : D + k * 4096 < S)
    (he : D + k * 4096 < e) : o + (min (D + k * 4096 + 4096) e - v) ≤ n := by
  induction k with
  | zero => exact step 0 hS he (by omega)
  | succ k ih =>
    have hprev : D + k * 4096 + 4096 < S ∧ D + k * 4096 + 4096 < e := by
      clear ih
      omega
    have := ih (Nat.lt_of_add_right_lt hprev.1) (Nat.lt_of_add_right_lt hprev.2)
    exact step (k + 1) hS he (by omega)

/-- The accesses for the pages of a segment. -/
theorem pages_in_iff (ht : pType elf i = ptLoad) :
    (∀ va ∈ segPages elf i, ∀ a ∈ pageAccesses elf i va, a.In size) ↔
      (MapsPages elf i → (phdrField elf i 3).Below size ∧ (phdrField elf i 5).Below size) ∧
      (HasBytes elf i → (phdrField elf i 2).Below size) ∧
      (HasBytes elf i → pVaddr elf i ≤ segFileEnd elf i) ∧
      (HasBytes elf i → pVaddr elf i < segFileEnd elf i →
        (pOffset elf i).toNat + (min (segStop elf i).toNat (segFileEnd elf i).toNat -
          (pVaddr elf i).toNat) ≤ size.toNat) := by
  obtain ⟨hd1, hd2⟩ := pageDown_le (pVaddr elf i)
  have hsize := size.isLt
  constructor
  · intro h
    have hfirst : MapsPages elf i → pageDown (pVaddr elf i) ∈ segPages elf i := fun hm =>
      (mem_segPages_iff ht).2 ⟨0, by simp, hm.2⟩
    have hpage : ∀ va ∈ segPages elf i, (phdrField elf i 3).Below size ∧
        (phdrField elf i 5).Below size ∧ (HasFileBytes elf i va → (phdrField elf i 2).Below size ∧
          (copySource elf i va).Below size ∧ (copyTarget elf i va).Below pageSize) := by
      intro va hva
      have := h va hva
      obtain ⟨hr, -⟩ := forall_mem_logOf.1 fun a ha => this a (Or.inl ha)
      refine ⟨hr _ (by simp), hr _ (by simp), fun hf => ?_⟩
      obtain ⟨hr', hc⟩ := forall_mem_logOf.1 fun a ha => this a (Or.inr ⟨hf, ha⟩)
      exact ⟨hr' _ (by simp), hr' _ (by simp), hc _ (by simp)⟩
    have hbytes : HasBytes elf i → HasFileBytes elf i (pageDown (pVaddr elf i)) := fun hb =>
      (hasFileBytes_iff (lt_of_mem_segPages (hfirst hb.1))).2 ⟨hd2, BitVec.lt_def.1 hb.2⟩
    have hle : HasBytes elf i → pVaddr elf i ≤ segFileEnd elf i := fun hb =>
      BitVec.le_def.2 ((copyTarget_below_iff (lt_of_mem_segPages (hfirst hb.1)) (hbytes hb)).1
        ((hpage _ (hfirst hb.1)).2.2 (hbytes hb)).2.2)
    refine ⟨fun hm => ⟨(hpage _ (hfirst hm)).1, (hpage _ (hfirst hm)).2.1⟩,
      fun hb => ((hpage _ (hfirst hb.1)).2.2 (hbytes hb)).1, hle, fun hb hlt => ?_⟩
    have hlt := BitVec.lt_def.1 hlt
    have hSlt := BitVec.lt_def.1 hb.1.2
    have helt := BitVec.lt_def.1 hb.2
    have ho := (pOffset elf i).isLt
    have step : ∀ k, (pageDown (pVaddr elf i)).toNat + k * 4096 < (segStop elf i).toNat →
        (pageDown (pVaddr elf i)).toNat + k * 4096 < (segFileEnd elf i).toNat →
        (pOffset elf i).toNat + (max ((pageDown (pVaddr elf i)).toNat + k * 4096)
          (pVaddr elf i).toNat - (pVaddr elf i).toNat) < 2 ^ 64 →
        (pOffset elf i).toNat + (min ((pageDown (pVaddr elf i)).toNat + k * 4096 + 4096)
          (segFileEnd elf i).toNat - (pVaddr elf i).toNat) ≤ size.toNat := by
      intro k hS he ho
      have hlt := (segStop elf i).isLt
      have hk : (BitVec.ofNat 64 ((pageDown (pVaddr elf i)).toNat + k * 4096)).toNat =
          (pageDown (pVaddr elf i)).toNat + k * 4096 := by
        rw [BitVec.toNat_ofNat, Nat.mod_eq_of_lt (by omega)]
      have hva := (mem_segPages_iff ht).2 ⟨k, hk, BitVec.lt_def.2 (by rw [hk]; exact hS)⟩
      have hf : HasFileBytes elf i
          (BitVec.ofNat 64 ((pageDown (pVaddr elf i)).toNat + k * 4096)) := by
        rw [hasFileBytes_iff (lt_of_mem_segPages hva), hk]
        exact ⟨by omega, he⟩
      have hsrc := ((hpage _ hva).2.2 hf).2.1
      rw [copySource_below_iff (lt_of_mem_segPages hva) hf (hle hb) (by rw [hk]; exact ho), hk] at hsrc
      omega
    have key := chunks_end (D := (pageDown (pVaddr elf i)).toNat) step hd1 ho hsize
    have := key ((min (segStop elf i).toNat (segFileEnd elf i).toNat - 1 -
      (pageDown (pVaddr elf i)).toNat) / 4096) (by omega) (by omega)
    omega
  · rintro ⟨h35, h2, hw, hdata⟩ va hva
    obtain ⟨k, hk, hlt⟩ := (mem_segPages_iff ht).1 hva
    have hlt := BitVec.lt_def.1 hlt
    have hva' := lt_of_mem_segPages hva
    have hm : MapsPages elf i := ⟨ht, BitVec.lt_def.2 (by omega)⟩
    obtain ⟨h3, h5⟩ := h35 hm
    rintro a (ha | ⟨hf, ha⟩)
    · refine forall_mem_logOf.2 ⟨?_, fun _ h => absurd h List.not_mem_nil⟩ a ha
      simp only [List.forall_mem_cons, h3, h5, true_and]
      exact fun _ h => absurd h List.not_mem_nil
    · obtain ⟨hf1, hf2⟩ := (hasFileBytes_iff hva').1 hf
      have hb : HasBytes elf i := ⟨hm, BitVec.lt_def.2 (by omega)⟩
      have hle := BitVec.le_def.1 (hw hb)
      have hoff := h2 hb
      have htar := (copyTarget_below_iff hva' hf).2 hle
      have hS : (segStop elf i).toNat = pageOf (segStop elf i) * 4096 :=
        (pageAligned_pageUp (pVaddr elf i + pMemsz elf i)).toNat_eq
      have hD := pageDown_toNat (pVaddr elf i)
      have hd : (pVaddr elf i).toNat < (segFileEnd elf i).toNat →
          (pOffset elf i).toNat + (min (segStop elf i).toNat (segFileEnd elf i).toNat -
            (pVaddr elf i).toNat) ≤ size.toNat := fun h => hdata hb (BitVec.lt_def.2 h)
      have ho := (pOffset elf i).isLt
      have hsrc : (copySource elf i va).Below size := by
        rw [copySource_below_iff hva' hf (hw hb) (by omega)]
        omega
      refine forall_mem_logOf.2 ⟨?_, ?_⟩ a ha
      · simp only [List.forall_mem_cons, hoff, hsrc, true_and]
        exact fun _ h => absurd h List.not_mem_nil
      · simp only [List.forall_mem_cons, htar, true_and]
        exact fun _ h => absurd h List.not_mem_nil

/-- The accesses for a program header. -/
theorem phdr_in_iff : (∀ a ∈ segmentAccesses elf i, a.In size) ↔
    (field ehdr 0 15).Below size ∧ PhdrInside elf size i := by
  have hno : ∀ e : Extent 64, e ∈ ([] : List (Extent 64)) → e.Below pageSize :=
    fun _ h => absurd h List.not_mem_nil
  rw [segmentAccesses]
  by_cases ht : pType elf i = ptLoad
  · have hm : MapsPages elf i → (phdrField elf i 3).Below size →
        ((phdrField elf i 3).Below size ∧ (phdrField elf i 5).Below size ↔
          (phdrField elf i 5).Below size) := fun _ h3 => and_iff_right h3
    constructor
    · intro h
      obtain ⟨h0, -⟩ := forall_mem_logOf.1 fun a ha => h a (Or.inl ha)
      obtain ⟨hf, -⟩ := forall_mem_logOf.1 fun a ha =>
        h a (Or.inr (by rw [if_pos ht]; exact Or.inl ha))
      obtain ⟨h35, h2, hw, hd⟩ := (pages_in_iff ht).1 fun va hva a ha =>
        h a (Or.inr (by rw [if_pos ht]; exact Or.inr ⟨va, hva, ha⟩))
      refine ⟨h0 _ (by simp), h0 _ (by simp), fun _ k hk => ?_, fun hm => (h35 hm).2, h2, hw, hd⟩
      simp only [List.mem_cons, List.not_mem_nil, or_false] at hk
      rcases hk with rfl | rfl | rfl <;> exact hf _ (by simp)
    · rintro ⟨h15, hp⟩ a (ha | ha)
      · refine forall_mem_logOf.2 ⟨?_, hno⟩ a ha
        simp only [List.forall_mem_cons, h15, hp.type, true_and]
        exact fun _ h => absurd h List.not_mem_nil
      rw [if_pos ht] at ha
      have h3 := hp.fields ht 3 (by simp)
      rcases ha with ha | ⟨va, hva, ha⟩
      · refine forall_mem_logOf.2 ⟨?_, hno⟩ a ha
        simp only [List.forall_mem_cons, h3, hp.fields ht 6 (by simp), hp.fields ht 1 (by simp),
          true_and]
        exact fun _ h => absurd h List.not_mem_nil
      · exact (pages_in_iff ht).2 ⟨fun hm => ⟨h3, hp.filesz hm⟩, hp.offset, hp.noWrap, hp.data⟩
          va hva a ha
  · have hnm : ¬MapsPages elf i := fun h => ht h.1
    rw [if_neg ht, Set.union_empty, forall_mem_logOf]
    constructor
    · rintro ⟨h, -⟩
      exact ⟨h _ (by simp), h _ (by simp), fun h => absurd h ht, fun h => absurd h hnm,
        fun h => absurd h.1 hnm, fun h => absurd h.1 hnm, fun h => absurd h.1 hnm⟩
    · rintro ⟨h15, hp⟩
      refine ⟨?_, hno⟩
      simp only [List.forall_mem_cons, h15, hp.type, true_and]
      exact fun _ h => absurd h List.not_mem_nil

/-- All accesses are in bounds exactly for files whose parts lie in the file. -/
theorem all_in_iff : (∀ a ∈ allAccesses elf, a.In size) ↔ Inside elf size := by
  have h15 : IsElf64 elf → headerLength elf ≤ size.toNat → (field ehdr 0 15).Below size :=
    fun he h => (forall_mem_logOf.1 ((header_in_iff.2 h).2 he)).1 _ (by simp)
  constructor
  · intro h
    have hheader : headerLength elf ≤ size.toNat := header_in_iff.1
      ⟨fun a ha => h a (Or.inl ha), fun he a ha => h a (Or.inr (by
        rw [if_pos he]
        exact Or.inl ha))⟩
    exact ⟨hheader, fun he i hi => (phdr_in_iff.1 fun a ha => h a (Or.inr (by
      rw [if_pos he]
      exact Or.inr ⟨i, List.mem_range.2 hi, ha⟩))).2⟩
  · rintro ⟨hheader, hp⟩ a (ha | ha)
    · exact (header_in_iff.2 hheader).1 a ha
    · split_ifs at ha with he
      · rcases ha with ha | ⟨i, hi, ha⟩
        · exact (header_in_iff.2 hheader).2 he a ha
        · exact phdr_in_iff.2 ⟨h15 he hheader, hp he i (List.mem_range.1 hi)⟩ a ha
      · exact absurd ha (Set.notMem_empty a)

end Inside

/-- The accesses of the loader are in bounds when the parts of the file lie in the file. When no
page is missing they are in bounds, and files whose parts do not lie in the file are refused, for
no other file. -/
theorem inBounds_iff_inside (elf : Mem) (m : MapState) (pml4 size : U64) :
    ∃ s' r, elfLoadSegments ⟨m, [], []⟩ pml4 elf size = some (s', r) ∧
      (Inside elf size → InBounds s' size) ∧
      (s'.map.pagesOk = true →
        (InBounds s' size ∧ (¬Inside elf size → r = none) ↔ Inside elf size)) := by
  obtain ⟨s', r, hrun⟩ := exists_run elf ⟨m, [], []⟩ pml4 size
  obtain ⟨hsub, heq⟩ := elfLoadSegments_accesses hrun
  have h0 : accesses ⟨m, [], []⟩ = ∅ := logOf_nil
  rw [h0, Set.empty_union] at hsub heq
  have hin : Inside elf size → InBounds s' size := fun hi a ha => all_in_iff.2 hi a (hsub ha)
  refine ⟨s', r, hrun, hin, fun hpages => ⟨fun h => ?_, fun hi => ⟨hin hi, fun h => absurd hi h⟩⟩⟩
  have hall : accesses s' = allAccesses elf := heq fun he => by
    obtain ⟨t, r', hr', hm⟩ := exists_elfLoadSegments he pml4 size ⟨m, [], []⟩
    obtain ⟨rfl, rfl⟩ := Prod.mk.inj (Option.some.inj (hrun.symm.trans hr'))
    exact MapState.mapAll_pagesOk hm hpages
  exact all_in_iff.1 fun a ha => h.1 a (hall ▸ ha)

/-! ## A file that ends after its header -/

/-- An ELF header that announces a program header behind the end of the file. -/
def headerOnly : List U8 := (elfFile [[1, 7, 0, 0, 0, 0, 0, 0]] []).take 64

/-- The loader reads `p_type` of a program header at offset 64 of a file of 64 bytes, and
returns 0. -/
theorem headerOnly_read : ∃ h₀ t pml4 s,
    freerange (kinit (fun _ => 0) 0xffff800000000000) 0x100000 0x111000 = some h₀ ∧
    PagingState.createUserPml4 ⟨h₀, true⟩ 0 = some (t, pml4) ∧ headerOnly.length = 64 ∧
    elfLoadSegments ⟨⟨t.heap, true, true⟩, [], []⟩ pml4 (bufOf headerOnly) 64 =
      some (s, some 0x400000) ∧
    ⟨64, 4⟩ ∈ s.reads ∧ ¬InBounds s 64 ∧ ¬Inside (bufOf headerOnly) 64 := by
  obtain ⟨h₀, t, pml4, hboot, hnew, -, hn, hcard, -⟩ := exists_new_space (n := 16) (by norm_num)
  have he : IsElf64 (bufOf headerOnly) := by decide +kernel
  have hnum : (ePhnum (bufOf headerOnly)).toNat = 1 := by decide +kernel
  have hpages : segPages (bufOf headerOnly) 0 = [] := by decide +kernel
  have hfield : phdrField (bufOf headerOnly) 0 0 = ⟨64, 4⟩ := by decide +kernel
  have ht : Tame (bufOf headerOnly) := by
    refine ⟨fun i hi va hva => ?_, fun i hi va hva => ?_⟩ <;>
    · obtain rfl : i = 0 := by omega
      rw [hpages] at hva
      exact absurd hva List.not_mem_nil
  obtain ⟨s, r, hr, hload⟩ := ht.load (s := ⟨⟨t.heap, true, true⟩, [], []⟩) he hn.ownTree 64
  obtain ⟨hp, hk⟩ := ht.load_ok (s := ⟨⟨t.heap, true, true⟩, [], []⟩) he hn.ownTree
    (hcard.ge.trans' (by decide +kernel)) rfl rfl hr
  obtain ⟨rfl, -⟩ := hload hp hk
  have hall := (elfLoadSegments_accesses hr).2 fun _ => rfl
  have hmem : Access.read ⟨64, 4⟩ ∈ accesses s := by
    rw [hall, allAccesses, if_pos he, ← hfield]
    refine Or.inr (Or.inr (Or.inr ⟨0, by rw [hnum]; exact List.mem_range.2 Nat.one_pos, ?_⟩))
    exact Or.inl (Or.inl ⟨_, .tail _ (.head _), rfl⟩)
  have hout : ¬(Access.read ⟨64, 4⟩).In 64 := by
    unfold Access.In
    decide
  refine ⟨h₀, t, pml4, s, hboot, hnew, by decide, ?_, ?_, fun h => hout (h _ hmem), fun h => hout ?_⟩
  · rw [hr]
    congr 2
    decide +kernel
  · rcases hmem with ⟨e, hmem, he⟩ | ⟨e, -, he⟩
    · obtain rfl := Access.read.inj he
      exact hmem
    · exact absurd he (by simp)
  · exact hfield ▸ (h.phdrs he 0 (by rw [hnum]; exact Nat.one_pos)).type

end Elf

end Jeos
