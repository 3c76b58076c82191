import Mathlib.Data.Fintype.Prod
import Jeos.Files
import Jeos.Lib.SlotTable

/-!
# What the calls on descriptors do

`FilesOk` is the invariant of the reference counts : the count of a file is the number
of slots that hold it, up to the references a call has in its hands. Every operation
has one lemma that says what it does to the table of descriptors, that it keeps the
counts, and that it does not touch a freed file. `SameObjects` and `PipeMade` say what
happens to the files and pipes.

No file has the operation table of a pipe (`FilesOk.fops`), so no call reaches
`pipe_close`, and the pipes only change in `sys_pipe`.
-/

namespace Jeos

open SlotTable

namespace FileSystemState

/-! ## The reference counts -/

/-- The counts of the files agree with the table, if `extra` lists the references that are
on their way into or out of it, and no file has the operation table of a pipe. -/
structure FilesOk (s : FileSystemState) (extra : List ℕ) : Prop where
  counts : ∀ i, (s.file i).refcnt.toNat = refs s.fds i + extra.count i
  live : ∀ i, (s.file i).live = decide ((s.file i).refcnt ≠ 0)
  fops : ∀ i, (s.file i).fops ≠ some .pipeReadOps ∧ (s.file i).fops ≠ some .pipeWriteOps
  fresh : ∀ i, s.nextFile ≤ i → (s.file i).refcnt = 0

/-- The parts that an operation on references leaves alone. -/
structure SameObjects (s s' : FileSystemState) : Prop where
  inode : ∀ i, (s'.file i).inode = (s.file i).inode
  fops : ∀ i, (s'.file i).fops = (s.file i).fops
  nextFile : s'.nextFile = s.nextFile
  pipe : s'.pipe = s.pipe
  nextPipe : s'.nextPipe = s.nextPipe
  procState : s'.procState = s.procState

variable {s s' s₁ s₂ : FileSystemState} {extra : List ℕ} {i j : ℕ} {sl : FdSlot}

theorem SameObjects.refl (s : FileSystemState) : SameObjects s s :=
  ⟨fun _ => rfl, fun _ => rfl, rfl, rfl, rfl, rfl⟩

theorem SameObjects.trans (h : SameObjects s s₁) (h' : SameObjects s₁ s₂) : SameObjects s s₂ :=
  ⟨fun i => (h'.inode i).trans (h.inode i), fun i => (h'.fops i).trans (h.fops i),
    h'.nextFile.trans h.nextFile, h'.pipe.trans h.pipe, h'.nextPipe.trans h.nextPipe,
    h'.procState.trans h.procState⟩

theorem sameObjects_setFd (s : FileSystemState) (sl : FdSlot) (x : Option ℕ) :
    SameObjects s (s.setFd sl x) :=
  ⟨fun _ => rfl, fun _ => rfl, rfl, rfl, rfl, rfl⟩

theorem sameObjects_setFile {f : VfsFile} (h : f.inode = (s.file i).inode)
    (h' : f.fops = (s.file i).fops) : SameObjects s (s.setFile i f) := by
  refine ⟨fun j => ?_, fun j => ?_, rfl, rfl, rfl, rfl⟩ <;> rcases eq_or_ne j i with rfl | hne
  · simp [setFile, h]
  · simp [setFile, hne]
  · simp [setFile, h']
  · simp [setFile, hne]

/-- A referenced file is live. -/
theorem FilesOk.live_of_mem (h : FilesOk s extra) (hi : i ∈ extra) : (s.file i).live = true := by
  have hc := h.counts i
  have hpos := List.count_pos_iff.2 hi
  rw [h.live i]
  refine decide_eq_true fun h0 => ?_
  have hz : (s.file i).refcnt.toNat = 0 := congrArg BitVec.toNat h0
  omega

theorem FilesOk.live_of_fd (h : FilesOk s extra) (hi : s.fds sl = some i) :
    (s.file i).live = true := by
  have hc := h.counts i
  have hpos := refs_pos.2 ⟨sl, hi⟩
  rw [h.live i]
  refine decide_eq_true fun h0 => ?_
  have hz : (s.file i).refcnt.toNat = 0 := congrArg BitVec.toNat h0
  omega

/-- Changing one file's count keeps the invariant if it then fits the table. -/
theorem FilesOk.setRefcnt {extra' : List ℕ} {v : U32} (h : FilesOk s extra)
    (hi : v.toNat = refs s.fds i + extra'.count i)
    (hj : ∀ j, j ≠ i → extra'.count j = extra.count j) (hlt : i < s.nextFile) :
    FilesOk (s.setFile i { s.file i with refcnt := v, live := decide (v ≠ 0) }) extra' := by
  refine ⟨fun j => ?_, fun j => ?_, fun j => ?_, fun j hn => ?_⟩ <;>
    rcases eq_or_ne j i with rfl | hne
  · simpa [setFile] using hi
  · simpa [setFile, hne, hj j hne] using h.counts j
  · simp [setFile]
  · simpa [setFile, hne] using h.live j
  · simpa [setFile] using h.fops j
  · simpa [setFile, hne] using h.fops j
  · exact absurd hn (Nat.not_le_of_lt hlt)
  · simpa [setFile, hne] using h.fresh j hn

theorem FilesOk.lt_of_live (h : FilesOk s extra) (hi : (s.file i).live = true) :
    i < s.nextFile := by
  by_contra hge
  rw [h.live i, h.fresh i (Nat.le_of_not_lt hge)] at hi
  simp at hi

theorem vfsFileGet_spec (h : FilesOk s extra) (hi : (s.file i).live = true)
    (he : extra.length ≤ 2) :
    ∃ s', s.vfsFileGet i = some s' ∧ FilesOk s' (i :: extra) ∧ s'.fds = s.fds ∧
      SameObjects s s' := by
  have hle := refs_le s.fds i
  have hcl := List.count_le_length (a := i) (l := extra)
  have hcard : Fintype.card FdSlot = 2048 := by simp [maxProcs, maxFds]
  have hc := h.counts i
  have hv : ((s.file i).refcnt + 1).toNat = refs s.fds i + (i :: extra).count i := by
    rw [List.count_cons_self]
    bv_omega
  have hne : decide ((s.file i).refcnt + 1 ≠ 0) = true := by
    refine decide_eq_true fun h0 => ?_
    have hz : ((s.file i).refcnt + 1).toNat = 0 := congrArg BitVec.toNat h0
    rw [List.count_cons_self] at hv
    omega
  refine ⟨_, if_pos hi, ?_, rfl, sameObjects_setFile rfl rfl⟩
  have := h.setRefcnt hv (fun j hj => List.count_cons_of_ne (Ne.symm hj)) (h.lt_of_live hi)
  rwa [hne, ← hi] at this

theorem vfsFilePut_spec (h : FilesOk s (i :: extra)) :
    ∃ s', s.vfsFilePut i = some s' ∧ FilesOk s' extra ∧ s'.fds = s.fds ∧ SameObjects s s' := by
  have hi := h.live_of_mem List.mem_cons_self
  have hc := h.counts i
  rw [List.count_cons_self] at hc
  have hv : ((s.file i).refcnt - 1).toNat = refs s.fds i + extra.count i := by bv_omega
  exact ⟨_, if_pos hi, h.setRefcnt hv (fun j hj => (List.count_cons_of_ne (Ne.symm hj)).symm)
    (h.lt_of_live hi), rfl, sameObjects_setFile rfl rfl⟩

/-- No pipe operation is reached from a file. -/
theorem FilesOk.vfsClose_eq (h : FilesOk s extra) (hi : (s.file i).live = true) :
    s.vfsClose i = s.vfsFilePut i := by
  rw [vfsClose, if_pos hi]
  have hf := h.fops i
  split
  · exact absurd ‹_› hf.1
  · exact absurd ‹_› hf.2
  · rfl

theorem vfsClose_spec (h : FilesOk s (i :: extra)) :
    ∃ s', s.vfsClose i = some s' ∧ FilesOk s' extra ∧ s'.fds = s.fds ∧ SameObjects s s' := by
  rw [h.vfsClose_eq (h.live_of_mem List.mem_cons_self)]
  exact vfsFilePut_spec h

theorem FilesOk.clearFd (h : FilesOk s extra) (hi : s.fds sl = some i) :
    FilesOk (s.setFd sl none) (i :: extra) := by
  refine ⟨fun j => ?_, h.live, h.fops, h.fresh⟩
  have hr := refs_clear hi j
  have hc := h.counts j
  simp only [setFd]
  rcases eq_or_ne j i with rfl | hne
  · rw [if_pos rfl] at hr
    rw [List.count_cons_self]
    omega
  · rw [if_neg hne] at hr
    rw [List.count_cons_of_ne (Ne.symm hne)]
    omega

theorem FilesOk.fillFd (h : FilesOk s (i :: extra)) (hi : s.fds sl = none) :
    FilesOk (s.setFd sl (some i)) extra := by
  refine ⟨fun j => ?_, h.live, h.fops, h.fresh⟩
  have hc := h.counts j
  simp only [setFd, refs_set hi i j]
  rcases eq_or_ne j i with rfl | hne
  · rw [List.count_cons_self] at hc
    rw [if_pos rfl]
    omega
  · rw [List.count_cons_of_ne (Ne.symm hne)] at hc
    rw [if_neg hne]
    omega

/-- `vfs_close` does not look at the table. -/
theorem vfsFilePut_setFd (s : FileSystemState) (i : ℕ) (sl : FdSlot) (x : Option ℕ) :
    (s.vfsFilePut i).map (fun s' => s'.setFd sl x) = (s.setFd sl x).vfsFilePut i := by
  unfold vfsFilePut
  by_cases h : (s.file i).live = true
  · rw [if_pos h, if_pos (show ((s.setFd sl x).file i).live = true from h)]
    rfl
  · rw [if_neg h, if_neg (show ¬((s.setFd sl x).file i).live = true from h)]
    rfl

theorem closeSlot_spec (h : FilesOk s extra) (sl : FdSlot) :
    ∃ s', s.closeSlot sl = some s' ∧ FilesOk s' extra ∧ s'.fds = Function.update s.fds sl none ∧
      SameObjects s s' := by
  unfold closeSlot
  cases hi : s.fds sl with
  | none =>
    refine ⟨s, rfl, h, ?_, .refl s⟩
    rw [← hi, Function.update_eq_self]
  | some i =>
    obtain ⟨s', hs', hok, hfds, hsame⟩ := vfsFilePut_spec (h.clearFd hi)
    refine ⟨s', ?_, hok, hfds, (sameObjects_setFd s sl none).trans hsame⟩
    simp only [h.vfsClose_eq (h.live_of_fd hi), vfsFilePut_setFd, hs']

/-! ## The system calls on the table -/

/-- `fd_alloc` takes an empty slot, or there is none. -/
theorem fdAlloc_cases (s : FileSystemState) (k : Fin maxProcs) (i : ℕ) :
    (∃ fd, s.fds (k, fd) = none ∧ s.fdAlloc k i = (s.setFd (k, fd) (some i), some fd)) ∨
      (∀ fd, s.fds (k, fd) ≠ none) ∧ s.fdAlloc k i = (s, none) := by
  unfold fdAlloc
  cases h : (List.finRange maxFds).find? fun fd => decide (s.fds (k, fd) = none) with
  | some fd => exact Or.inl ⟨fd, by simpa using List.find?_some h, rfl⟩
  | none =>
    exact Or.inr ⟨fun fd => by simpa using List.find?_eq_none.1 h fd (List.mem_finRange fd), rfl⟩

theorem fdGet_eq {k : Fin maxProcs} {fd : U64} (hfd : fd.toNat < 2 ^ 32) :
    s.fdGet k (fd.setWidth 32) =
      if h : fd.toNat < maxFds then s.fds (k, ⟨fd.toNat, h⟩) else none := by
  have hw : (fd.setWidth 32).toNat = fd.toNat := by
    rw [BitVec.toNat_setWidth, Nat.mod_eq_of_lt hfd]
  simp only [fdGet, hw]

theorem exists_fd_of_fdGet {k : Fin maxProcs} {fd : BitVec 32} (h : s.fdGet k fd = some i) :
    ∃ fd', fd'.val = fd.toNat ∧ s.fds (k, fd') = some i := by
  unfold fdGet at h
  split_ifs at h with hlt
  exact ⟨⟨fd.toNat, hlt⟩, rfl, h⟩

theorem sysClose_spec (h : FilesOk s []) {k : Fin maxProcs} {fd : U64} (hfd : fd.toNat < 2 ^ 32) :
    ∃ s', s.sysClose k fd = some s' ∧ FilesOk s' [] ∧ SameObjects s s' ∧
      s'.fds = fun sl => if sl.1 = k ∧ sl.2.val = fd.toNat then none else s.fds sl := by
  unfold sysClose
  rw [fdGet_eq hfd]
  split_ifs with hlt
  · have htab : (fun sl : FdSlot => if sl.1 = k ∧ sl.2.val = fd.toNat then none else s.fds sl) =
        Function.update s.fds (k, ⟨fd.toNat, hlt⟩) none := by
      funext sl
      simp [Function.update_apply, Prod.ext_iff, Fin.ext_iff]
    cases hi : s.fds (k, ⟨fd.toNat, hlt⟩) with
    | none => exact ⟨s, rfl, h, .refl s, by rw [htab, ← hi, Function.update_eq_self]⟩
    | some i =>
      obtain ⟨s', hs', hok, hfds, hsame⟩ := vfsClose_spec (h.clearFd hi)
      exact ⟨s', hs', hok, (sameObjects_setFd s _ none).trans hsame, by rw [htab, hfds]; rfl⟩
  · refine ⟨s, rfl, h, .refl s, funext fun sl => ?_⟩
    rw [if_neg]
    rintro ⟨-, he⟩
    exact hlt (he ▸ sl.2.isLt)

theorem sysDup_spec (h : FilesOk s []) (k : Fin maxProcs) (fd : U64) :
    ∃ s', s.sysDup k fd = some s' ∧ FilesOk s' [] ∧ SameObjects s s' ∧
      (s'.fds = s.fds ∨ ∃ i sl fd', s.fds sl = some i ∧ s.fds (k, fd') = none ∧
        s'.fds = Function.update s.fds (k, fd') (some i)) := by
  unfold sysDup
  cases hi : s.fdGet k (fd.setWidth 32) with
  | none => exact ⟨s, rfl, h, .refl s, Or.inl rfl⟩
  | some i =>
    obtain ⟨fd₀, -, hfd₀⟩ := exists_fd_of_fdGet hi
    obtain ⟨s₁, hs₁, hok₁, hfds₁, hsame₁⟩ := vfsFileGet_spec h (h.live_of_fd hfd₀) (by simp)
    simp only [hs₁, Option.bind_some]
    rcases s₁.fdAlloc_cases k i with ⟨fd', hfree, he⟩ | ⟨-, he⟩
    · refine ⟨s₁.setFd (k, fd') (some i), by rw [he], hok₁.fillFd hfree,
        hsame₁.trans (sameObjects_setFd _ _ _), Or.inr ⟨i, _, fd', hfd₀, hfds₁ ▸ hfree, ?_⟩⟩
      rw [← hfds₁]
      rfl
    · obtain ⟨s₂, hs₂, hok₂, hfds₂, hsame₂⟩ := vfsClose_spec hok₁
      exact ⟨s₂, by rw [he]; exact hs₂, hok₂, hsame₁.trans hsame₂, Or.inl (hfds₂.trans hfds₁)⟩

theorem sysDup2_spec (h : FilesOk s []) (k : Fin maxProcs) {oldFd newFd : U64}
    (hfd : oldFd.toNat < 2 ^ 32) :
    ∃ s', s.sysDup2 k oldFd newFd = some s' ∧ FilesOk s' [] ∧ SameObjects s s' ∧
      ((s'.fds = s.fds ∧ (s.fdGet k (oldFd.setWidth 32) = none ∨ oldFd = newFd ∨
          maxFds ≤ newFd.toNat)) ∨
        ∃ (i : ℕ) (fd fd' : Fin maxFds), fd ≠ fd' ∧ oldFd ≠ newFd ∧ fd'.val = newFd.toNat ∧
          s.fdGet k (oldFd.setWidth 32) = some i ∧ s.fds (k, fd) = some i ∧
          s'.fds = Function.update s.fds (k, fd') (some i)) := by
  unfold sysDup2
  by_cases hnew : newFd.toNat < maxFds
  · rw [dif_pos hnew]
    cases hi : s.fdGet k (oldFd.setWidth 32) with
    | none => exact ⟨s, rfl, h, .refl s, Or.inl ⟨rfl, Or.inl rfl⟩⟩
    | some i =>
      dsimp only
      split_ifs with he
      · exact ⟨s, rfl, h, .refl s, Or.inl ⟨rfl, Or.inr (Or.inl he)⟩⟩
      · obtain ⟨fd₀, hval, hfd₀⟩ := exists_fd_of_fdGet hi
        have hne : fd₀ ≠ ⟨newFd.toNat, hnew⟩ := fun e => by
          have hv : fd₀.val = newFd.toNat := congrArg Fin.val e
          rw [hval, BitVec.toNat_setWidth, Nat.mod_eq_of_lt hfd] at hv
          exact he (BitVec.eq_of_toNat_eq hv)
        obtain ⟨s₁, hs₁, hok₁, hfds₁, hsame₁⟩ := closeSlot_spec h (k, ⟨newFd.toNat, hnew⟩)
        have hfd₁ : s₁.fds (k, fd₀) = some i := by
          rw [hfds₁, Function.update_of_ne fun e => hne (congrArg Prod.snd e), hfd₀]
        obtain ⟨s₂, hs₂, hok₂, hfds₂, hsame₂⟩ :=
          vfsFileGet_spec hok₁ (hok₁.live_of_fd hfd₁) (by simp)
        have hfree : s₂.fds (k, ⟨newFd.toNat, hnew⟩) = none := by
          rw [hfds₂, hfds₁, Function.update_self]
        refine ⟨s₂.setFd (k, ⟨newFd.toNat, hnew⟩) (some i), ?_, hok₂.fillFd hfree,
          (hsame₁.trans hsame₂).trans (sameObjects_setFd _ _ _),
          Or.inr ⟨i, fd₀, ⟨newFd.toNat, hnew⟩, hne, he, rfl, rfl, hfd₀, ?_⟩⟩
        · rw [hs₁, Option.bind_some, hs₂, Option.map_some]
        · simp only [setFd, hfds₂, hfds₁, Function.update_idem]
  · rw [dif_neg hnew]
    exact ⟨s, rfl, h, .refl s, Or.inl ⟨rfl, Or.inr (Or.inr (Nat.le_of_not_lt hnew))⟩⟩

/-- Closing the slots `l` of a process clears them. -/
theorem closeSlots_spec {k : Fin maxProcs} : ∀ {l : List (Fin maxFds)} {s : FileSystemState},
    FilesOk s [] →
    ∃ s', l.foldlM (fun s' fd => closeSlot s' (k, fd)) s = some s' ∧ FilesOk s' [] ∧
      SameObjects s s' ∧ s'.fds = fun sl => if sl.1 = k ∧ sl.2 ∈ l then none else s.fds sl
  | [], s, h => ⟨s, rfl, h, .refl s, by simp⟩
  | fd :: l, s, h => by
    obtain ⟨s₁, hs₁, hok₁, hfds₁, hsame₁⟩ := closeSlot_spec h (k, fd)
    obtain ⟨s₂, hs₂, hok₂, hsame₂, hfds₂⟩ := @closeSlots_spec k l s₁ hok₁
    refine ⟨s₂, ?_, hok₂, hsame₁.trans hsame₂, funext fun sl => ?_⟩
    · rw [List.foldlM_cons, hs₁]
      exact hs₂
    · rw [hfds₂, hfds₁]
      simp only [List.mem_cons, Function.update_apply, Prod.ext_iff]
      by_cases h1 : sl.1 = k <;> by_cases h2 : sl.2 = fd <;> simp [h1, h2]

theorem procCloseFds_spec (h : FilesOk s []) (k : Fin maxProcs) :
    ∃ s', s.procCloseFds k = some s' ∧ FilesOk s' [] ∧ SameObjects s s' ∧
      s'.fds = fun sl => if sl.1 = k then none else s.fds sl := by
  obtain ⟨s', hs', hok, hsame, hfds⟩ := @closeSlots_spec k (List.finRange maxFds) s h
  exact ⟨s', hs', hok, hsame, by simpa using hfds⟩

/-- Inheriting the slots `l` copies them to an empty row. -/
theorem inheritFds_spec {k c : Fin maxProcs} (hkc : k ≠ c) :
    ∀ {l : List (Fin maxFds)} {s : FileSystemState}, FilesOk s [] → l.Nodup →
    (∀ fd ∈ l, s.fds (c, fd) = none) →
    ∃ s', l.foldlM (fun s' fd => inheritFd s' k c fd) s = some s' ∧ FilesOk s' [] ∧
      SameObjects s s' ∧
      s'.fds = fun sl => if sl.1 = c ∧ sl.2 ∈ l then s.fds (k, sl.2) else s.fds sl
  | [], s, h, _, _ => ⟨s, rfl, h, .refl s, by simp⟩
  | fd :: l, s, h, hnd, hfree => by
    obtain ⟨hfd, hnd⟩ := List.nodup_cons.1 hnd
    have hfree₀ := hfree fd (by simp)
    have hone : ∃ s₁, s.inheritFd k c fd = some s₁ ∧ FilesOk s₁ [] ∧ SameObjects s s₁ ∧
        s₁.fds = Function.update s.fds (c, fd) (s.fds (k, fd)) := by
      unfold inheritFd
      cases hi : s.fds (k, fd) with
      | none => exact ⟨s, rfl, h, .refl s, by rw [← hfree₀, Function.update_eq_self]⟩
      | some i =>
        obtain ⟨s₁, hs₁, hok₁, hfds₁, hsame₁⟩ := vfsFileGet_spec h (h.live_of_fd hi) (by simp)
        refine ⟨s₁.setFd (c, fd) (some i), ?_, hok₁.fillFd (hfds₁ ▸ hfree₀),
          hsame₁.trans (sameObjects_setFd _ _ _), by rw [← hfds₁]; rfl⟩
        simp only [hs₁, Option.map_some]
    obtain ⟨s₁, hs₁, hok₁, hsame₁, hfds₁⟩ := hone
    obtain ⟨s₂, hs₂, hok₂, hsame₂, hfds₂⟩ := @inheritFds_spec k c hkc l s₁ hok₁ hnd fun fd' hfd' => by
      have hne : fd' ≠ fd := fun e => hfd (e ▸ hfd')
      rw [hfds₁, Function.update_of_ne (by simpa using hne)]
      exact hfree fd' (List.mem_cons_of_mem _ hfd')
    refine ⟨s₂, ?_, hok₂, hsame₁.trans hsame₂, funext fun sl => ?_⟩
    · rw [List.foldlM_cons, hs₁]
      exact hs₂
    · rw [hfds₂, hfds₁]
      obtain ⟨a, b⟩ := sl
      simp only [List.mem_cons, Function.update_apply, Prod.mk.injEq, hkc, false_and, if_false]
      by_cases h1 : a = c <;> by_cases h2 : b = fd <;> simp [h1, h2]

/-! ## New files -/

theorem newFile_spec (h : FilesOk s extra) (inode : VfsInode) {fops : Option FileOps}
    (hf : fops ≠ some .pipeReadOps ∧ fops ≠ some .pipeWriteOps) :
    FilesOk (s.newFile inode fops) (s.nextFile :: extra) := by
  have h0 := h.counts s.nextFile
  rw [h.fresh _ (Nat.le_refl _)] at h0
  have h0' : 0 = refs s.fds s.nextFile + extra.count s.nextFile := h0
  refine ⟨fun j => ?_, fun j => ?_, fun j => ?_, fun j hn => ?_⟩
  · rcases eq_or_ne j s.nextFile with rfl | hne
    · simp only [newFile, setFile, Function.update_self, List.count_cons_self]
      rw [← Nat.add_assoc, ← h0']
      rfl
    · simpa [newFile, setFile, hne, List.count_cons_of_ne (Ne.symm hne)] using h.counts j
  · rcases eq_or_ne j s.nextFile with rfl | hne
    · simp [newFile, setFile]
    · simpa [newFile, setFile, hne] using h.live j
  · rcases eq_or_ne j s.nextFile with rfl | hne
    · simpa [newFile, setFile] using hf
    · simpa [newFile, setFile, hne] using h.fops j
  · have hn' : s.nextFile + 1 ≤ j := hn
    have hne : j ≠ s.nextFile := by omega
    simpa [newFile, setFile, hne] using h.fresh j (by omega)

theorem FilesOk.dropFile (h : FilesOk s (i :: extra)) (hi : refs s.fds i = 0)
    (hc : extra.count i = 0) : FilesOk (s.dropFile (some i)) extra := by
  have hlt := h.lt_of_live (h.live_of_mem List.mem_cons_self)
  exact h.setRefcnt (v := 0) (by rw [hi, hc]; rfl)
    (fun j hj => (List.count_cons_of_ne (Ne.symm hj)).symm) hlt

theorem FilesOk.refs_nextFile (h : FilesOk s extra) : refs s.fds s.nextFile = 0 := by
  have h0 := h.counts s.nextFile
  rw [h.fresh _ (Nat.le_refl _)] at h0
  have h0' : 0 = refs s.fds s.nextFile + extra.count s.nextFile := h0
  omega

theorem FilesOk.lt_of_fd (h : FilesOk s extra) (hi : s.fds sl = some i) : i < s.nextFile :=
  h.lt_of_live (h.live_of_fd hi)

/-- `s'` is `s` with one more pipe, passed to `kfree` `frees` times, and new files that are
ends of it. -/
structure PipeMade (s s' : FileSystemState) (frees : ℕ) : Prop where
  procState : s'.procState = s.procState
  nextPipe : s'.nextPipe = s.nextPipe + 1
  pipe : s'.pipe = Function.update s.pipe s.nextPipe ⟨Pipe.create, frees⟩
  nextFile : s.nextFile ≤ s'.nextFile
  old : ∀ i < s.nextFile,
    (s'.file i).inode = (s.file i).inode ∧ (s'.file i).fops = (s.file i).fops
  new : ∀ i, s.nextFile ≤ i → i < s'.nextFile →
    (s'.file i).inode.priv = some s.nextPipe ∧ (s'.file i).fops = none

theorem PipeMade.trans {frees : ℕ} (h : PipeMade s s₁ frees) (h' : SameObjects s₁ s₂) :
    PipeMade s s₂ frees where
  procState := h'.procState.trans h.procState
  nextPipe := h'.nextPipe.trans h.nextPipe
  pipe := h'.pipe.trans h.pipe
  nextFile := h'.nextFile ▸ h.nextFile
  old i hi := ⟨(h'.inode i).trans (h.old i hi).1, (h'.fops i).trans (h.old i hi).2⟩
  new i hi hi' := by
    rw [h'.inode i, h'.fops i]
    exact h.new i hi (h'.nextFile ▸ hi')

theorem sameObjects_dropFile (s : FileSystemState) (r : Option ℕ) :
    SameObjects s (s.dropFile r) := by
  cases r with
  | none => exact .refl s
  | some i => exact sameObjects_setFile rfl rfl

theorem makePipeEnd_spec (h : FilesOk s extra) (q : ℕ) (ops : FileOps) (endTag : U64)
    (inodeOk fileOk : Bool) :
    (inodeOk && fileOk) = true ∧ s.makePipeEnd q ops endTag inodeOk fileOk =
        (s.newFile ⟨endTag, some ops, some q⟩ none, some s.nextFile) ∧
        FilesOk (s.newFile ⟨endTag, some ops, some q⟩ none) (s.nextFile :: extra) ∨
      (inodeOk && fileOk) = false ∧ s.makePipeEnd q ops endTag inodeOk fileOk = (s, none) := by
  cases hok : inodeOk && fileOk with
  | true =>
    refine Or.inl ⟨rfl, by rw [makePipeEnd, hok]; rfl, newFile_spec h _ ?_⟩
    exact ⟨by simp, by simp⟩
  | false => exact Or.inr ⟨rfl, by rw [makePipeEnd, hok]; rfl⟩

theorem pipeMade_newPipe (s : FileSystemState) : PipeMade s s.newPipe 0 :=
  ⟨rfl, rfl, rfl, Nat.le_refl _, fun _ _ => ⟨rfl, rfl⟩,
    fun _ h h' => absurd h' (Nat.not_lt_of_le h)⟩

theorem PipeMade.newFile {frees : ℕ} (h : PipeMade s s₁ frees) {inode : VfsInode}
    (hi : inode.priv = some s.nextPipe) : PipeMade s (s₁.newFile inode none) frees := by
  have hle := h.nextFile
  refine ⟨h.procState, h.nextPipe, h.pipe, Nat.le_succ_of_le hle, fun i hlt => ?_,
    fun i hge hlt => ?_⟩
  · have hne : i ≠ s₁.nextFile := by omega
    simpa [FileSystemState.newFile, setFile, hne] using h.old i hlt
  · rcases eq_or_ne i s₁.nextFile with rfl | hne
    · simpa [FileSystemState.newFile, setFile] using hi
    · have hlt' : i < s₁.nextFile + 1 := hlt
      simpa [FileSystemState.newFile, setFile, hne] using h.new i hge (by omega)

theorem PipeMade.freePipe (h : PipeMade s s₁ 0) : PipeMade s (s₁.freePipe s.nextPipe) 1 := by
  refine ⟨h.procState, h.nextPipe, ?_, h.nextFile, h.old, h.new⟩
  simp [FileSystemState.freePipe, h.pipe]

theorem FilesOk.freePipe (h : FilesOk s extra) (q : ℕ) : FilesOk (s.freePipe q) extra :=
  ⟨h.counts, h.live, h.fops, h.fresh⟩

/-- `pipe_create` makes a pipe with its two files, or gives the pipe back, or nothing
happens. -/
theorem pipeCreate_spec (h : FilesOk s []) (a : PipeAllocs) :
    (a.all = true ∧ ∃ s', s.pipeCreate a = (s', some (s.nextFile, s.nextFile + 1)) ∧
        FilesOk s' [s.nextFile + 1, s.nextFile] ∧ PipeMade s s' 0 ∧ s'.fds = s.fds ∧
        (s'.file s.nextFile).inode.ino = pipeReadEnd ∧
        (s'.file (s.nextFile + 1)).inode.ino = pipeWriteEnd ∧ s'.nextFile = s.nextFile + 2) ∨
      a.all = false ∧ ∃ s', s.pipeCreate a = (s', none) ∧ FilesOk s' [] ∧ s'.fds = s.fds ∧
        (SameObjects s s' ∨ PipeMade s s' 1) := by
  cases hp : a.pipe with
  | false =>
    exact Or.inr ⟨by simp [PipeAllocs.all, hp], s, by simp [pipeCreate, hp], h, rfl,
      Or.inl (.refl s)⟩
  | true =>
    have h₁ : FilesOk s.newPipe [] := ⟨h.counts, h.live, h.fops, h.fresh⟩
    have hm₁ := pipeMade_newPipe s
    rcases makePipeEnd_spec h₁ s.nextPipe .pipeReadOps pipeReadEnd a.readInode a.readFile with
      ⟨hr, er, h₂⟩ | ⟨hr, er⟩
    · have hm₂ : PipeMade s (s.newPipe.newFile
          ⟨pipeReadEnd, some .pipeReadOps, some s.nextPipe⟩ none) 0 := hm₁.newFile rfl
      rcases makePipeEnd_spec h₂ s.nextPipe .pipeWriteOps pipeWriteEnd a.writeInode a.writeFile with
        ⟨hw, ew, h₃⟩ | ⟨hw, ew⟩
      · refine Or.inl ⟨by simp [PipeAllocs.all, hp, hr, hw], _, ?_, h₃, hm₂.newFile rfl, rfl,
          ?_, ?_, rfl⟩
        · simp only [pipeCreate, hp, er, ew, if_true]
          rfl
        · simp [newPipe, FileSystemState.newFile, setFile]
        · simp [newPipe, FileSystemState.newFile, setFile]
      · refine Or.inr ⟨by simp [PipeAllocs.all, hp, hw], _, ?_,
          (h₂.dropFile h.refs_nextFile rfl).freePipe s.nextPipe, rfl,
          Or.inr (hm₂.trans (sameObjects_dropFile _ _)).freePipe⟩
        simp only [pipeCreate, hp, er, ew, if_true]
        rfl
    · have hm₃ : PipeMade s (s.newPipe.newFile
          ⟨pipeWriteEnd, some .pipeWriteOps, some s.nextPipe⟩ none) 0 := hm₁.newFile rfl
      rcases makePipeEnd_spec h₁ s.nextPipe .pipeWriteOps pipeWriteEnd a.writeInode a.writeFile with
        ⟨hw, ew, h₃⟩ | ⟨hw, ew⟩
      · refine Or.inr ⟨by simp [PipeAllocs.all, hp, hr], _, ?_,
          (h₃.dropFile h.refs_nextFile rfl).freePipe s.nextPipe, rfl,
          Or.inr (hm₃.trans (sameObjects_dropFile _ _)).freePipe⟩
        simp only [pipeCreate, hp, er, ew, if_true]
        rfl
      · refine Or.inr ⟨by simp [PipeAllocs.all, hp, hr], _, ?_, h₁.freePipe s.nextPipe, rfl,
          Or.inr hm₁.freePipe⟩
        simp only [pipeCreate, hp, er, ew, if_true]
        rfl

theorem FilesOk.perm {extra' : List ℕ} (h : FilesOk s extra) (hp : extra.Perm extra') :
    FilesOk s extra' :=
  ⟨fun i => hp.count_eq i ▸ h.counts i, h.live, h.fops, h.fresh⟩

/-- `sys_pipe` : no pipe, a pipe given back, a pipe with two new descriptors, or a pipe for
which there are no two free slots. -/
theorem sysPipe_spec (h : FilesOk s []) (k : Fin maxProcs) (fdsPtr : U64) (a : PipeAllocs) :
    ∃ s' r, s.sysPipe k fdsPtr a = some (s', r) ∧ FilesOk s' [] ∧
      (((validUserPtr fdsPtr && a.all) = false ∧ s'.fds = s.fds ∧
          (SameObjects s s' ∨ PipeMade s s' 1)) ∨
        (validUserPtr fdsPtr && a.all) = true ∧ PipeMade s s' 0 ∧
          ((∃ fd fd', fd ≠ fd' ∧ r = some (fd, fd') ∧
              s.fds (k, fd) = none ∧ s.fds (k, fd') = none ∧
              s'.fds = Function.update (Function.update s.fds (k, fd) (some s.nextFile))
                (k, fd') (some (s.nextFile + 1)) ∧
              (s'.file s.nextFile).inode.ino = pipeReadEnd ∧
              (s'.file (s.nextFile + 1)).inode.ino = pipeWriteEnd ∧
              s'.nextFile = s.nextFile + 2) ∨
            (¬∃ fd fd', fd ≠ fd' ∧ s.fds (k, fd) = none ∧ s.fds (k, fd') = none) ∧
              s'.fds = s.fds)) := by
  unfold sysPipe
  cases hv : validUserPtr fdsPtr with
  | false => exact ⟨s, none, rfl, h, Or.inl ⟨rfl, rfl, Or.inl (.refl s)⟩⟩
  | true =>
    rcases pipeCreate_spec h a with ⟨ha, s₁, e₁, hok₁, hm, hfds₁, hr, hw, hn⟩ |
      ⟨ha, s₁, e₁, hok₁, hfds₁, hm⟩
    · simp only [if_true, e₁]
      have hok₁' := hok₁.perm (List.Perm.swap _ _ _)
      rcases s₁.fdAlloc_cases k s.nextFile with ⟨fd, hfree, e₂⟩ | ⟨hfull, e₂⟩
      · have hok₂ := hok₁'.fillFd hfree
        rcases (s₁.setFd (k, fd) (some s.nextFile)).fdAlloc_cases k (s.nextFile + 1) with
          ⟨fd', hfree', e₃⟩ | ⟨hfull, e₃⟩
        · have hne : fd' ≠ fd := fun e => by simp [e, setFd] at hfree'
          have hfree₁ : s₁.fds (k, fd') = none := by simpa [setFd, hne] using hfree'
          refine ⟨_, some (fd, fd'), by simp only [e₂, e₃], hok₂.fillFd hfree',
            Or.inr ⟨by simp [ha],
            (hm.trans (sameObjects_setFd _ _ _)).trans (sameObjects_setFd _ _ _),
            Or.inl ⟨fd, fd', hne.symm, rfl, hfds₁ ▸ hfree, hfds₁ ▸ hfree₁, ?_, hr, hw, hn⟩⟩⟩
          simp only [setFd, hfds₁]
        · have hmem : (s₁.setFd (k, fd) (some s.nextFile)).fds (k, fd) = some s.nextFile := by
            simp [setFd]
          obtain ⟨s₅, hs₅, hok₅, hfds₅, hsame₅⟩ := vfsClose_spec (hok₂.clearFd hmem)
          obtain ⟨s₆, hs₆, hok₆, hfds₆, hsame₆⟩ := vfsClose_spec hok₅
          refine ⟨s₆, none,
            by simp only [e₂, e₃, hs₅, Option.bind_some, hs₆, Option.map_some], hok₆,
            Or.inr ⟨by simp [ha], hm.trans ?_, Or.inr ⟨?_, ?_⟩⟩⟩
          · exact ((sameObjects_setFd _ _ _).trans (sameObjects_setFd _ _ _)).trans
              (hsame₅.trans hsame₆)
          · rintro ⟨fd₁, fd₂, hne, h₁, h₂⟩
            rw [← hfds₁] at h₁ h₂
            have hall : ∀ fd', s₁.fds (k, fd') = none → fd' = fd := fun fd' hfd' => by
              by_contra hne'
              exact hfull fd' (by simpa [setFd, hne'] using hfd')
            exact hne ((hall _ h₁).trans (hall _ h₂).symm)
          · rw [hfds₆, hfds₅, ← hfds₁]
            simp only [setFd, Function.update_idem]
            rw [← hfree, Function.update_eq_self]
      · have e₃ : s₁.fdAlloc k (s.nextFile + 1) = (s₁, none) := by
          rcases s₁.fdAlloc_cases k (s.nextFile + 1) with ⟨fd, hfree, -⟩ | ⟨-, e⟩
          · exact absurd hfree (hfull fd)
          · exact e
        obtain ⟨s₅, hs₅, hok₅, hfds₅, hsame₅⟩ := vfsClose_spec hok₁'
        obtain ⟨s₆, hs₆, hok₆, hfds₆, hsame₆⟩ := vfsClose_spec hok₅
        refine ⟨s₆, none, by simp only [e₂, e₃, hs₅, Option.bind_some, hs₆, Option.map_some], hok₆,
          Or.inr ⟨by simp [ha], hm.trans (hsame₅.trans hsame₆), Or.inr ⟨?_, ?_⟩⟩⟩
        · rintro ⟨fd₁, -, -, h₁, -⟩
          exact hfull fd₁ (hfds₁ ▸ h₁)
        · rw [hfds₆, hfds₅, hfds₁]
    · refine ⟨s₁, none, by simp only [if_true, e₁], hok₁, Or.inl ⟨by simp [ha], hfds₁, hm⟩⟩

theorem sysOpen_spec (h : FilesOk s []) (k : Fin maxProcs)
    (opened : Option (VfsInode × Bool × Bool)) :
    ∃ s', s.sysOpen k opened = some s' ∧ FilesOk s' [] ∧ s'.pipe = s.pipe ∧
      s'.nextPipe = s.nextPipe ∧ s'.procState = s.procState ∧ s.nextFile ≤ s'.nextFile ∧
      (∀ i < s.nextFile,
        (s'.file i).inode = (s.file i).inode ∧ (s'.file i).fops = (s.file i).fops) ∧
      (∀ i, s.nextFile ≤ i → i < s'.nextFile → (s'.file i).inode.priv = none) ∧
      (s'.fds = s.fds ∨ ∃ fd, s.fds (k, fd) = none ∧ s.nextFile < s'.nextFile ∧
        s'.fds = Function.update s.fds (k, fd) (some s.nextFile)) := by
  cases opened with
  | none =>
    exact ⟨s, rfl, h, rfl, rfl, rfl, Nat.le_refl _, fun _ _ => ⟨rfl, rfl⟩,
      fun _ hge hlt => absurd hlt (Nat.not_lt_of_le hge), Or.inl rfl⟩
  | some o =>
    obtain ⟨inode, read, write⟩ := o
    set s₁ := s.newFile { inode with priv := none } (some (.driver read write)) with hs₁
    have hok₁ : FilesOk s₁ [s.nextFile] := newFile_spec h _ ⟨by simp, by simp⟩
    have hold : ∀ i < s.nextFile,
        (s₁.file i).inode = (s.file i).inode ∧ (s₁.file i).fops = (s.file i).fops := fun i hi => by
      simp [hs₁, newFile, setFile, Nat.ne_of_lt hi]
    have hnew : ∀ i, s.nextFile ≤ i → i < s.nextFile + 1 → (s₁.file i).inode.priv = none :=
      fun i hge hlt => by
        obtain rfl : i = s.nextFile := by omega
        simp [hs₁, newFile, setFile]
    unfold sysOpen
    simp only [← hs₁]
    rcases s₁.fdAlloc_cases k s.nextFile with ⟨fd, hfree, e⟩ | ⟨-, e⟩
    · exact ⟨_, by rw [e], hok₁.fillFd hfree, rfl, rfl, rfl, Nat.le_succ _, hold, hnew,
        Or.inr ⟨fd, hfree, Nat.lt_succ_self _, rfl⟩⟩
    · obtain ⟨s₂, hs₂, hok₂, hfds₂, hsame⟩ := vfsClose_spec hok₁
      refine ⟨s₂, by rw [e]; exact hs₂, hok₂, hsame.pipe, hsame.nextPipe, hsame.procState,
        hsame.nextFile ▸ Nat.le_succ _,
        fun i hi => ⟨(hsame.inode i).trans (hold i hi).1, (hsame.fops i).trans (hold i hi).2⟩,
        fun i hge hlt => ?_, Or.inl hfds₂⟩
      rw [hsame.inode i]
      rw [hsame.nextFile] at hlt
      exact hnew i hge hlt

theorem FilesOk.setProcState (h : FilesOk s extra) (k : Fin maxProcs) (st : ProcState) :
    FilesOk (s.setProcState k st) extra :=
  ⟨h.counts, h.live, h.fops, h.fresh⟩

/-- `proc_fork` does nothing, or copies the caller's row of the table to that of an unused
process. -/
theorem procFork_spec (h : FilesOk s []) {k : Fin maxProcs} (hk : s.procState k ≠ .unused)
    (hidle : ∀ c, s.procState c = .unused → ∀ fd, s.fds (c, fd) = none) (kstackOk pml4Ok : Bool) :
    s.procFork k kstackOk pml4Ok = some s ∨
      ∃ c s₁, s.procState c = .unused ∧
        s.procFork k kstackOk pml4Ok = some (s₁.setProcState c .runnable) ∧ FilesOk s₁ [] ∧
        SameObjects (s.setProcState c .embryo) s₁ ∧
        s₁.fds = fun sl => if sl.1 = c then s.fds (k, sl.2) else s.fds sl := by
  unfold procFork
  cases hc : s.unusedProc with
  | none => exact Or.inl rfl
  | some c =>
    have hcu : s.procState c = .unused := by simpa using List.find?_some hc
    cases hok : kstackOk && pml4Ok with
    | false => exact Or.inl rfl
    | true =>
      have hkc : k ≠ c := fun e => hk (by rw [e, hcu])
      obtain ⟨s₁, hs₁, hok₁, hsame₁, hfds₁⟩ := inheritFds_spec hkc
        (h.setProcState c .embryo) (List.nodup_finRange maxFds) fun fd _ => hidle c hcu fd
      refine Or.inr ⟨c, s₁, hcu, ?_, hok₁, hsame₁,
        by simpa [FileSystemState.setProcState] using hfds₁⟩
      simp only [if_true, hs₁, Option.map_some]

end FileSystemState

end Jeos
