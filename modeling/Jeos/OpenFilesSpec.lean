import Jeos.OpenFiles
import Mathlib.Data.Fintype.Prod

/-!
# Open files mean what they should

`Refines` relates the tables and the pages to the open files that are kept for ever : the page of a file
has its number, the count of a file is the number of descriptors that refer to it, and a table
without a process is empty. Every call keeps it and gives the same reply.

So in any run of the calls by any processes, whatever pages `kalloc` gives, no freed page is used, and the
replies are those of `Spec` (`open_files_kept`).
-/

set_option linter.unusedSectionVars false

namespace Jeos.OpenFiles

open SharedCells Replies

variable {κ ι : Type} {D : Driver κ ι} {s : State κ ι} {t : Spec κ ι} {k c : Fin maxProcs}
  {a : ℕ} {fd : U64} {sl : FdSlot} {name : ℕ → ℕ} {held : List ℕ}
  {N : Numbered FdSlot (Description ι)}

/-- The pages have the numbers `name`. -/
abbrev Named (name : ℕ → ℕ) (s : State κ ι) (held : List ℕ)
    (N : Numbered FdSlot (Description ι)) : Prop :=
  Names (fun f : VfsFile ι => f.refcnt.toNat) VfsFile.toDescription name s.fds s.heap held N

/-! ## Counts -/

theorem Named.vfsFileGet (h : Named name s held N) (ha : ∃ f, s.heap a = some f)
    (hheld : held.length ≤ 2) :
    ∃ x, s.vfsFileGet a = some (s.setFile a x) ∧ Named name (s.setFile a x) (a :: held) N := by
  obtain ⟨f, hf⟩ := ha
  have hle := h.count_le hf
  have hcard : Fintype.card FdSlot = 2048 := by simp [maxProcs, maxFds]
  have hnext : (f.refcnt + 1).toNat = f.refcnt.toNat + 1 := by
    have hone : (1 : U32).toNat = 1 := rfl
    rw [BitVec.toNat_add, hone, Nat.mod_eq_of_lt (by omega)]
  refine ⟨some { f with refcnt := f.refcnt + 1 }, ?_, h.get hf hnext rfl⟩
  rw [State.vfsFileGet, hf, Option.map_some]

theorem Named.vfsFilePut (h : Named name s (a :: held) N) :
    ∃ x, s.vfsFilePut a = some (s.setFile a x) ∧ Named name (s.setFile a x) held N := by
  obtain ⟨f, hf⟩ := h.live_of_held List.mem_cons_self
  have hpos := h.pos a f hf
  have hone : (1 : U32).toNat = 1 := rfl
  have hless : (f.refcnt - 1).toNat + 1 = f.refcnt.toNat := by bv_omega
  rw [State.vfsFilePut, hf, Option.map_some]
  split_ifs with hlast
  · have hcount : f.refcnt.toNat = 1 := by
      rw [hlast] at hless
      exact hless.symm
    exact ⟨none, rfl, h.free hf hcount⟩
  · have hmore : 0 < (f.refcnt - 1).toNat := by
      refine Nat.pos_of_ne_zero fun h0 => hlast ?_
      exact BitVec.eq_of_toNat_eq h0
    exact ⟨some { f with refcnt := f.refcnt - 1 }, rfl, h.put hf hless hmore rfl⟩

/-- `vfs_close` does not look at the table. -/
theorem vfsFilePut_setFd (s : State κ ι) (a : ℕ) (sl : FdSlot) (x : Option ℕ) :
    (s.vfsFilePut a).map (fun s' => s'.setFd sl x) = (s.setFd sl x).vfsFilePut a := by
  rw [State.vfsFilePut, State.vfsFilePut, Option.map_map]
  refine congrArg (fun f => (s.heap a).map f) (funext fun f => ?_)
  rw [Function.comp_apply]
  split_ifs <;> rfl

/-- The slot is empty, and so is that of the number. -/
theorem Named.put_of_none (h : Named name s held N) (hi : s.fds sl = none) : N.put sl none = N :=
  Numbered.put_self (by rw [h.table, hi, Option.map_none])

theorem Named.closeSlot (h : Named name s held N) (sl : FdSlot) :
    ∃ heap, s.closeSlot sl = some { s with fds := Function.update s.fds sl none, heap := heap } ∧
      Named name { s with fds := Function.update s.fds sl none, heap := heap } held
        (N.put sl none) := by
  rw [State.closeSlot]
  cases hi : s.fds sl with
  | none =>
    have hfds : Function.update s.fds sl none = s.fds := by rw [← hi, Function.update_eq_self]
    rw [h.put_of_none hi, hfds]
    exact ⟨s.heap, rfl, h⟩
  | some a =>
    have hclear : Named name (s.setFd sl none) (a :: held) (N.put sl none) := h.clear hi
    obtain ⟨x, hput, hnamed⟩ := hclear.vfsFilePut
    refine ⟨(s.setFile a x).heap, ?_, hnamed⟩
    exact (vfsFilePut_setFd s a sl none).trans hput

/-! ## Descriptors -/

theorem Named.fdGet (h : Named name s held N) (k : Fin maxProcs) (fd : U32) :
    fdGet N.table k fd = (fdGet s.fds k fd).map name := by
  rw [OpenFiles.fdGet, OpenFiles.fdGet]
  split_ifs
  · exact h.table _
  · rfl

theorem Named.fdFree (h : Named name s held N) (k : Fin maxProcs) :
    fdFree N.table k = fdFree s.fds k := by
  rw [OpenFiles.fdFree, OpenFiles.fdFree]
  refine congrArg (fun p => (List.finRange maxFds).find? p) (funext fun fd => ?_)
  rw [h.table, Option.isNone_map]

theorem fds_of_fdFree {A : Type} {fds : FdSlot → Option A} {i : Fin maxFds}
    (h : fdFree fds k = some i) : fds (k, i) = none := by
  have hnone : (fds (k, i)).isNone = true := by
    rw [fdFree] at h
    simpa using List.find?_some h
  exact Option.isNone_iff_eq_none.1 hnone

/-- A descriptor with 32 bits that has a file is in the table. -/
theorem fdGet_eq_some {A : Type} {fds : FdSlot → Option A} {x : A} (hfd : fd.toNat < 2 ^ 32)
    (h : OpenFiles.fdGet fds k (fd.setWidth 32) = some x) :
    ∃ hlt : fd.toNat < maxFds, fds (k, ⟨fd.toNat, hlt⟩) = some x := by
  have hw : (fd.setWidth 32).toNat = fd.toNat := by
    rw [BitVec.toNat_setWidth, Nat.mod_eq_of_lt hfd]
  rw [OpenFiles.fdGet] at h
  split_ifs at h with hlt
  refine ⟨hw ▸ hlt, ?_⟩
  rw [← h]
  exact congrArg (fun i => fds (k, i)) (Fin.ext hw.symm)

theorem exists_fd_of_fdGet {A : Type} {fds : FdSlot → Option A} {x : A} {fd : U32}
    (h : OpenFiles.fdGet fds k fd = some x) : ∃ i, fds (k, i) = some x := by
  rw [OpenFiles.fdGet] at h
  split_ifs at h with hlt
  exact ⟨_, h⟩

/-! ## Calls -/

/-- A table without a process is empty. -/
def Vacant (procState : Fin maxProcs → ProcState) (fds : FdSlot → Option ℕ) : Prop :=
  ∀ k, procState k = .unused ∨ procState k = .zombie → ∀ i, fds (k, i) = none

/-- The pages are the open files. -/
structure Refines (s : State κ ι) (t : Spec κ ι) : Prop where
  procState : s.procState = t.procState
  fs : s.fs = t.fs
  files : ∃ name, Named name s [] t.files
  vacant : Vacant s.procState s.fds

/-- The call returns, with the reply that it should give. -/
def Simulates (r : Option (Reply × State κ ι)) (x : Reply × Spec κ ι) : Prop :=
  ∃ s', r = some (x.1, s') ∧ Refines s' x.2

theorem Vacant.update {procState : Fin maxProcs → ProcState} {fds : FdSlot → Option ℕ}
    (h : Vacant procState fds) (hk : (procState k).alive) (i : Fin maxFds) (x : Option ℕ) :
    Vacant procState (Function.update fds (k, i) x) := by
  intro k' hk' j
  have hne : (k', j) ≠ (k, i) := by
    intro he
    obtain ⟨rfl, -⟩ := Prod.mk.inj he
    rcases hk' with hk' | hk' <;> rw [hk'] at hk <;> cases hk
  rw [Function.update_of_ne hne, h k' hk' j]

theorem Refines.withFs (h : Refines s t) (fs : κ) : Refines (s.withFs fs) (t.withFs fs) :=
  ⟨h.procState, rfl, h.files, h.vacant⟩

theorem Refines.stays (h : Refines s t) (r : Reply) : Simulates (some (r, s)) (r, t) :=
  ⟨s, rfl, h⟩

theorem Refines.sysClose (h : Refines s t) (hk : (s.procState k).alive) (hfd : fd.toNat < 2 ^ 32) :
    Simulates (s.sysClose k fd) (t.sysClose k fd) := by
  obtain ⟨name, hn⟩ := h.files
  rw [State.sysClose, Spec.sysClose, Spec.get, hn.fdGet]
  cases hget : OpenFiles.fdGet s.fds k (fd.setWidth 32) with
  | none => exact h.stays _
  | some a =>
    obtain ⟨hlt, hi⟩ := fdGet_eq_some hfd hget
    have hclear : Named name (s.setFd (k, ⟨fd.toNat, hlt⟩) none) [a]
        (t.files.put (k, ⟨fd.toNat, hlt⟩) none) := hn.clear hi
    obtain ⟨x, hput, hnamed⟩ := hclear.vfsFilePut
    dsimp only [Option.map_some]
    rw [dif_pos hlt, dif_pos hlt, State.vfsClose, hput]
    exact ⟨_, rfl, h.procState, h.fs, ⟨name, hnamed⟩, h.vacant.update hk _ _⟩

/-- A file in the hands of a call gets a descriptor, or is closed if there is none. -/
theorem Named.giveFd (hn : Named name s [a] N) (hv : Vacant s.procState s.fds)
    (hk : (s.procState k).alive) :
    Simulates (s.giveFd k a) (Spec.share ⟨s.procState, N, s.fs⟩ k (name a)) := by
  rw [State.giveFd, Spec.share, hn.fdFree]
  cases hfree : OpenFiles.fdFree s.fds k with
  | none =>
    obtain ⟨x, hput, hnamed⟩ := hn.vfsFilePut
    refine ⟨s.setFile a x, ?_, rfl, rfl, ⟨name, hnamed⟩, hv⟩
    exact congrArg (Option.map _) hput
  | some i =>
    have hfill : Named name (s.setFd (k, i) (some a)) [] (N.put (k, i) (some (name a))) :=
      hn.fill (fds_of_fdFree hfree)
    exact ⟨_, rfl, rfl, rfl, ⟨name, hfill⟩, hv.update hk _ _⟩

theorem Refines.eq_mk (h : Refines s t) : t = ⟨s.procState, t.files, s.fs⟩ := by
  rw [h.procState, h.fs]

theorem Refines.sysDup (h : Refines s t) (hk : (s.procState k).alive) :
    Simulates (s.sysDup k fd) (t.sysDup k fd) := by
  obtain ⟨name, hn⟩ := h.files
  rw [State.sysDup, Spec.sysDup, Spec.get, hn.fdGet]
  cases hget : OpenFiles.fdGet s.fds k (fd.setWidth 32) with
  | none => exact h.stays _
  | some a =>
    obtain ⟨i, hi⟩ := exists_fd_of_fdGet hget
    obtain ⟨x, hmore, hnamed⟩ := hn.vfsFileGet (hn.live_of_slot hi) (Nat.zero_le 2)
    dsimp only [Option.map_some]
    rw [hmore, Option.bind_some, h.eq_mk]
    exact hnamed.giveFd h.vacant hk

theorem Refines.sysDup2 (h : Refines s t) (hk : (s.procState k).alive) {oldFd newFd : U64}
    (hfd : oldFd.toNat < 2 ^ 32) : Simulates (s.sysDup2 k oldFd newFd) (t.sysDup2 k oldFd newFd) := by
  obtain ⟨name, hn⟩ := h.files
  rw [State.sysDup2, Spec.sysDup2, Spec.get, hn.fdGet]
  cases hget : OpenFiles.fdGet s.fds k (oldFd.setWidth 32) with
  | none =>
    rw [dite_eq_right_iff.2 fun _ => rfl]
    exact h.stays _
  | some a =>
    obtain ⟨hold, hi⟩ := fdGet_eq_some hfd hget
    dsimp only [Option.map_some]
    by_cases hnew : newFd.toNat < maxFds
    · rw [dif_pos hnew, dif_pos hnew]
      split_ifs with heq
      · subst heq
        have hput : t.files.put (k, ⟨oldFd.toNat, hnew⟩) (some (name a)) = t.files :=
          Numbered.put_self (by rw [hn.table, hi, Option.map_some])
        refine ⟨s, rfl, h.procState, h.fs, ⟨name, ?_⟩, h.vacant⟩
        change Named name s [] (t.files.put _ _)
        rw [hput]
        exact hn
      · have hne : (k, (⟨oldFd.toNat, hold⟩ : Fin maxFds)) ≠ (k, ⟨newFd.toNat, hnew⟩) := by
          intro he
          have hval := congrArg (fun sl : FdSlot => sl.2.val) he
          exact heq (BitVec.eq_of_toNat_eq hval)
        obtain ⟨heap, hclose, hcleared⟩ := hn.closeSlot (k, ⟨newFd.toNat, hnew⟩)
        have hi' : Function.update s.fds (k, ⟨newFd.toNat, hnew⟩) none (k, ⟨oldFd.toNat, hold⟩) =
            some a := by
          rw [Function.update_of_ne hne, hi]
        obtain ⟨x, hmore, hnamed⟩ := hcleared.vfsFileGet (hcleared.live_of_slot hi') (Nat.zero_le 2)
        have hfill := hnamed.fill (Function.update_self _ _ _)
        rw [Numbered.put_put] at hfill
        rw [hclose, Option.bind_some, hmore]
        exact ⟨_, rfl, h.procState, h.fs, ⟨name, hfill⟩, (h.vacant.update hk _ _).update hk _ _⟩
    · rw [dif_neg hnew, dif_neg hnew]
      exact h.stays _

theorem Refines.fileCall (h : Refines s t) (c : FileCall κ ι) :
    Simulates (s.fileCall k c) (t.fileCall k c) := by
  obtain ⟨name, hn⟩ := h.files
  rw [State.fileCall, Spec.fileCall, Spec.file, Spec.get, hn.fdGet]
  split_ifs with hvalid
  · cases hget : OpenFiles.fdGet s.fds k (c.fd.setWidth 32) with
    | none =>
      dsimp only [Option.map_none, Option.bind_none]
      rw [h.fs]
      exact ⟨_, rfl, h.withFs _⟩
    | some a =>
      obtain ⟨i, hi⟩ := exists_fd_of_fdGet hget
      obtain ⟨f, hf⟩ := hn.live_of_slot hi
      dsimp only [Option.map_some, Option.bind_some]
      rw [hf, hn.cell a f hf, h.fs]
      exact ⟨_, rfl, h.procState, rfl, ⟨name, hn.write hf rfl⟩, h.vacant⟩
  · exact h.stays _

/-- A new file that is put is gone. -/
theorem vfsFilePut_setFile (ha : s.heap a = none) (f : Description ι) :
    (s.setFile a (some ⟨f, 1⟩)).vfsFilePut a = some s := by
  have hfile : (s.setFile a (some ⟨f, 1⟩)).heap a = some ⟨f, 1⟩ := Function.update_self a _ _
  have hheap : Function.update (Function.update s.heap a (some ⟨f, 1⟩)) a none = s.heap := by
    rw [Function.update_idem, ← ha, Function.update_eq_self]
  have hlast : (1 : U32) - 1 = 0 := rfl
  rw [State.vfsFilePut, hfile, Option.map_some, if_pos hlast, State.setFile, State.setFile, hheap]

theorem giveFd_setFile (ha : s.heap a = none) (hfree : OpenFiles.fdFree s.fds k = none)
    (f : Description ι) :
    (s.setFile a (some ⟨f, 1⟩)).giveFd k a = some (.value (-1), s) := by
  have hfree' : OpenFiles.fdFree (s.setFile a (some ⟨f, 1⟩)).fds k = none := hfree
  unfold State.giveFd
  rw [hfree']
  exact congrArg (Option.map _) (vfsFilePut_setFile ha f)

theorem Refines.sysOpen (h : Refines s t) (hk : (s.procState k).alive) {page : Option ℕ}
    (hpage : ∀ a, page = some a → s.heap a = none) (path flags : U64) (nm : List U8) :
    Simulates (s.sysOpen D k path nm flags page) (t.sysOpen D k path nm flags page) := by
  obtain ⟨name, hn⟩ := h.files
  rw [State.sysOpen, Spec.sysOpen]
  split_ifs with hvalid
  · rw [State.vfsOpen, Spec.opened, h.fs]
    cases hlookup : D.lookup nm (openFlags flags) t.fs with
    | mk inode fs =>
      cases inode with
      | none => exact ⟨_, rfl, h.withFs fs⟩
      | some inode =>
        cases page with
        | none => exact ⟨_, rfl, h.withFs fs⟩
        | some a =>
          have ha := hpage a rfl
          have hnew : Named (Function.update name a t.files.next)
              (s.setFile a (some ⟨⟨openFlags flags, 0, inode⟩, 1⟩)) [a]
              (t.files.new ⟨openFlags flags, 0, inode⟩) := hn.new ha rfl
          dsimp only
          cases hopen : openInode D inode fs with
          | mk ok fs' =>
            have hput := vfsFilePut_setFile (s := s.withFs fs') ha ⟨openFlags flags, 0, inode⟩
            have hcomm : ((s.withFs fs).setFile a (some ⟨⟨openFlags flags, 0, inode⟩, 1⟩)).withFs fs' =
              (s.withFs fs').setFile a (some ⟨⟨openFlags flags, 0, inode⟩, 1⟩) := rfl
            cases ok with
            | false =>
              dsimp only
              rw [hcomm, hput]
              exact ⟨_, rfl, h.withFs fs'⟩
            | true =>
              dsimp only
              rw [hcomm, Option.bind_some]
              cases hfree : OpenFiles.fdFree t.files.table k with
              | none =>
                rw [hn.fdFree] at hfree
                exact ⟨_, giveFd_setFile (s := s.withFs fs') ha hfree _, h.withFs fs'⟩
              | some i =>
                have hnew' : Named (Function.update name a t.files.next)
                    ((s.withFs fs').setFile a (some ⟨⟨openFlags flags, 0, inode⟩, 1⟩)) [a]
                    (t.files.new ⟨openFlags flags, 0, inode⟩) := hnew
                have hgive := hnew'.giveFd h.vacant hk
                rw [Function.update_self] at hgive
                rw [← h.procState]
                exact hgive
  · exact h.stays _

/-! ## Processes -/

theorem Named.table_eq (h : Named name s held N) : N.table = fun sl => (s.fds sl).map name :=
  funext h.table

/-- Inheriting the slots `l` copies them to an empty table. -/
theorem Named.inheritFds (hkc : k ≠ c) {l : List (Fin maxFds)} (hl : l.Nodup)
    (h : Named name s [] N) (hempty : ∀ i ∈ l, s.fds (c, i) = none) :
    ∃ heap fds, l.foldlM (fun s' i => State.inheritFd s' k c i) s =
        some { s with fds := fds, heap := heap } ∧
      (∀ sl, fds sl = if sl.1 = c ∧ sl.2 ∈ l then s.fds (k, sl.2) else s.fds sl) ∧
      Named name { s with fds := fds, heap := heap } []
        { N with table := fun sl => (fds sl).map name } := by
  induction l generalizing s N with
  | nil =>
    refine ⟨s.heap, s.fds, rfl, fun sl => (if_neg fun hm => List.not_mem_nil hm.2).symm, ?_⟩
    rw [← h.table_eq]
    exact h
  | cons i l ih =>
    obtain ⟨hi, hl⟩ := List.nodup_cons.1 hl
    have hfree := hempty i List.mem_cons_self
    have hone : ∃ heap, s.inheritFd k c i =
          some { s with fds := Function.update s.fds (c, i) (s.fds (k, i)), heap := heap } ∧
        Named name { s with fds := Function.update s.fds (c, i) (s.fds (k, i)), heap := heap } []
          (N.put (c, i) ((s.fds (k, i)).map name)) := by
      rw [State.inheritFd]
      cases hk : s.fds (k, i) with
      | none =>
        have hsame : Function.update s.fds (c, i) none = s.fds := by
          rw [← hfree, Function.update_eq_self]
        rw [hsame, Option.map_none, h.put_of_none hfree]
        exact ⟨s.heap, rfl, h⟩
      | some a =>
        obtain ⟨x, hmore, hnamed⟩ := h.vfsFileGet (h.live_of_slot hk) (Nat.zero_le 2)
        have hfill : Named name ((s.setFile a x).setFd (c, i) (some a)) []
          (N.put (c, i) (some (name a))) := hnamed.fill hfree
        refine ⟨(s.setFile a x).heap, ?_, hfill⟩
        exact congrArg (Option.map _) hmore
    obtain ⟨heap, hrun, hnamed⟩ := hone
    have hempty' : ∀ j ∈ l, Function.update s.fds (c, i) (s.fds (k, i)) (c, j) = none := by
      intro j hj
      have hne : (c, j) ≠ (c, i) := by
        intro he
        exact hi ((Prod.mk.inj he).2 ▸ hj)
      rw [Function.update_of_ne hne]
      exact hempty j (List.mem_cons_of_mem i hj)
    obtain ⟨heap', fds, hrest, hfds, hnamed'⟩ := ih hl hnamed hempty'
    refine ⟨heap', fds, ?_, fun sl => ?_, hnamed'⟩
    · rw [List.foldlM_cons, hrun]
      exact hrest
    · obtain ⟨p, j⟩ := sl
      rw [hfds]
      simp only [List.mem_cons, Function.update_apply, Prod.mk.injEq, hkc, false_and, if_false]
      by_cases hp : p = c <;> by_cases hj : j = i <;> simp [hp, hj]

theorem unusedProc_eq {procState : Fin maxProcs → ProcState} (h : unusedProc procState = some c) :
    procState c = .unused := by
  rw [unusedProc] at h
  simpa using List.find?_some h

/-- A process that is no longer vacant, with any table. -/
theorem Vacant.set {procState : Fin maxProcs → ProcState} {fds fds' : FdSlot → Option ℕ}
    (h : Vacant procState fds) (st : ProcState)
    (hc : st = .unused ∨ st = .zombie → ∀ i, fds' (c, i) = none)
    (hne : ∀ sl : FdSlot, sl.1 ≠ c → fds' sl = fds sl) :
    Vacant (Function.update procState c st) fds' := by
  intro p hp i
  by_cases hpc : p = c
  · subst hpc
    rw [Function.update_self] at hp
    exact hc hp i
  · rw [Function.update_of_ne hpc] at hp
    rw [hne (p, i) hpc, h p hp i]

theorem Refines.procFork (h : Refines s t) (hk : (s.procState k).alive) (kstackOk pml4Ok : Bool) :
    Simulates (s.procFork k kstackOk pml4Ok) (t.procFork k kstackOk pml4Ok) := by
  obtain ⟨name, hn⟩ := h.files
  rw [State.procFork, Spec.procFork, ← h.procState]
  cases hc : unusedProc s.procState with
  | none => exact h.stays _
  | some c =>
    have hunused := unusedProc_eq hc
    have hkc : k ≠ c := by
      rintro rfl
      rw [hunused] at hk
      cases hk
    dsimp only
    split_ifs
    · have hn' : Named name (s.setProcState c .embryo) [] t.files := hn
      obtain ⟨heap, fds, hrun, hfds, hnamed⟩ := hn'.inheritFds hkc (List.nodup_finRange maxFds)
        fun i _ => h.vacant c (Or.inl hunused) i
      have htable : ∀ sl, fds sl = s.fds (if sl.1 = c then (k, sl.2) else sl) := by
        intro sl
        rw [hfds]
        simp only [List.mem_finRange, and_true]
        split_ifs <;> rfl
      rw [hrun]
      refine ⟨_, rfl, ?_, h.fs, ⟨name, ?_⟩, ?_⟩
      · exact Function.update_idem _ _ _
      · have hnumbers : (fun sl => t.files.table (if sl.1 = c then (k, sl.2) else sl)) =
            fun sl => (fds sl).map name := by
          funext sl
          rw [htable, hn.table]
        dsimp only
        rw [hnumbers]
        exact hnamed
      · have hstate : Function.update (Function.update s.procState c .embryo) c .runnable =
            Function.update s.procState c .runnable := Function.update_idem _ _ _
        change Vacant (Function.update (Function.update s.procState c .embryo) c .runnable) fds
        rw [hstate]
        refine h.vacant.set .runnable (fun hst => ?_) fun sl hne => ?_
        · rcases hst with hst | hst <;> cases hst
        · rw [htable, if_neg hne]
    · exact h.stays _

theorem Named.closeFds {l : List (Fin maxFds)} (h : Named name s [] N) :
    ∃ heap fds, l.foldlM (fun s' i => State.closeSlot s' (k, i)) s =
        some { s with fds := fds, heap := heap } ∧
      (∀ sl, fds sl = if sl.1 = k ∧ sl.2 ∈ l then none else s.fds sl) ∧
      Named name { s with fds := fds, heap := heap } []
        { N with table := fun sl => (fds sl).map name } := by
  induction l generalizing s N with
  | nil =>
    refine ⟨s.heap, s.fds, rfl, fun sl => (if_neg fun hm => List.not_mem_nil hm.2).symm, ?_⟩
    rw [← h.table_eq]
    exact h
  | cons i l ih =>
    obtain ⟨heap, hrun, hnamed⟩ := h.closeSlot (k, i)
    obtain ⟨heap', fds, hrest, hfds, hnamed'⟩ := ih hnamed
    refine ⟨heap', fds, ?_, fun sl => ?_, hnamed'⟩
    · rw [List.foldlM_cons, hrun]
      exact hrest
    · obtain ⟨p, j⟩ := sl
      rw [hfds]
      simp only [List.mem_cons, Function.update_apply, Prod.mk.injEq]
      by_cases hp : p = k <;> by_cases hj : j = i <;> simp [hp, hj]

theorem Refines.sysExit (h : Refines s t) : Simulates (s.sysExit k) (t.sysExit k) := by
  obtain ⟨name, hn⟩ := h.files
  obtain ⟨heap, fds, hrun, hfds, hnamed⟩ := hn.closeFds (k := k) (l := List.finRange maxFds)
  have htable : ∀ sl, fds sl = if sl.1 = k then none else s.fds sl := by
    intro sl
    rw [hfds]
    simp only [List.mem_finRange, and_true]
  rw [State.sysExit, State.procCloseFds, hrun]
  refine ⟨_, rfl, ?_, h.fs, ⟨name, ?_⟩, ?_⟩
  · exact congrArg (fun p => Function.update p k ProcState.zombie) h.procState
  · have hnumbers : (fun sl => if sl.1 = k then none else t.files.table sl) =
        fun sl => (fds sl).map name := by
      funext sl
      rw [htable]
      split_ifs
      · rfl
      · exact hn.table sl
    rw [Spec.sysExit]
    dsimp only
    rw [hnumbers]
    exact hnamed
  · refine h.vacant.set .zombie (fun _ i => ?_) fun sl hne => ?_
    · change fds (k, i) = none
      rw [htable, if_pos rfl]
    · change fds sl = _
      rw [htable, if_neg hne]

theorem Refines.reap (h : Refines s t) (hk : s.procState k = .zombie) :
    Refines (s.setProcState k .unused) (t.setProcState k .unused) := by
  refine ⟨?_, h.fs, h.files, ?_⟩
  · exact congrArg (fun p => Function.update p k ProcState.unused) h.procState
  · exact h.vacant.set .unused (fun _ i => h.vacant k (Or.inr hk) i) fun _ _ => rfl

/-! ## Calls on descriptors alone -/

/-- The open files and the driver are as before. -/
structure SameFiles (t t' : Spec κ ι) : Prop where
  cells : t'.files.cells = t.files.cells
  fs : t'.fs = t.fs

theorem sameFiles_share (t : Spec κ ι) (k : Fin maxProcs) (x : ℕ) :
    SameFiles t (t.share k x).2 := by
  rw [Spec.share]
  cases fdFree t.files.table k <;> exact ⟨rfl, rfl⟩

theorem sameFiles_sysClose (t : Spec κ ι) (k : Fin maxProcs) (fd : U64) :
    SameFiles t (t.sysClose k fd).2 := by
  rw [Spec.sysClose]
  cases t.get k fd with
  | none => exact ⟨rfl, rfl⟩
  | some x =>
    dsimp only
    split_ifs <;> exact ⟨rfl, rfl⟩

theorem sameFiles_sysDup (t : Spec κ ι) (k : Fin maxProcs) (fd : U64) :
    SameFiles t (t.sysDup k fd).2 := by
  rw [Spec.sysDup]
  cases t.get k fd with
  | none => exact ⟨rfl, rfl⟩
  | some x => exact sameFiles_share t k x

theorem sameFiles_sysDup2 (t : Spec κ ι) (k : Fin maxProcs) (oldFd newFd : U64) :
    SameFiles t (t.sysDup2 k oldFd newFd).2 := by
  rw [Spec.sysDup2]
  cases t.get k oldFd with
  | none => exact ⟨rfl, rfl⟩
  | some x =>
    dsimp only
    split_ifs <;> exact ⟨rfl, rfl⟩

theorem sameFiles_procFork (t : Spec κ ι) (k : Fin maxProcs) (kstackOk pml4Ok : Bool) :
    SameFiles t (t.procFork k kstackOk pml4Ok).2 := by
  rw [Spec.procFork]
  cases unusedProc t.procState with
  | none => exact ⟨rfl, rfl⟩
  | some c =>
    dsimp only
    split_ifs <;> exact ⟨rfl, rfl⟩

/-! ## Runs -/

theorem Refines.perform (h : Refines s t) (e : Fin maxProcs × Call) (he : s.Enabled e) :
    Simulates (s.perform D e) (t.perform D e) := by
  obtain ⟨k, e⟩ := e
  cases e with
  | sysOpen path name flags page =>
    refine h.sysOpen he.1 (fun a ha => ?_) path flags name
    subst ha
    exact Option.isNone_iff_eq_none.1 he.2
  | sysClose fd => exact h.sysClose he.1 he.2
  | sysDup fd => exact h.sysDup he
  | sysDup2 oldFd newFd => exact h.sysDup2 he.1 he.2
  | sysRead fd buf len => exact h.fileCall _
  | sysWrite fd buf len data => exact h.fileCall _
  | sysSeek fd off whence => exact h.fileCall _
  | sysFstat fd st => exact h.fileCall _
  | procFork kstackOk pml4Ok => exact h.procFork he kstackOk pml4Ok
  | sysExit => exact h.sysExit
  | reap => exact ⟨_, rfl, h.reap he⟩

theorem refines_init (fs : κ) : Refines (State.init fs : State κ ι) (Spec.init fs) := by
  refine ⟨rfl, rfl, ⟨fun _ => 0, fun _ => rfl, fun a => ?_, ?_, ?_, ?_⟩, fun _ _ _ => rfl⟩
  · have hrefs : SlotTable.refs (State.init fs : State κ ι).fds a = 0 := by
      refine Nat.eq_zero_of_not_pos fun hpos => ?_
      obtain ⟨sl, hsl⟩ := SlotTable.refs_pos.1 hpos
      cases hsl
    rw [hrefs]
    rfl
  · intro a x hx
    cases hx
  · intro a x hx
    cases hx
  · intro a b x y hx
    cases hx

theorem run_refines (D : Driver κ ι) (fs : κ) {calls : List (Fin maxProcs × Call)}
    (h : Allowed (State.perform D) State.Enabled (State.init fs) calls) :
    ∃ s, serve (State.perform D) (State.init fs) calls =
      some ((answer (Spec.perform D) (Spec.init fs) calls).1, s) ∧
        Refines s (answer (Spec.perform D) (Spec.init fs) calls).2 :=
  serve_refines (fun _ _ e h he => h.perform e he) (refines_init fs) h

/-- The reply to a call behind others. -/
theorem run_reply (D : Driver κ ι) (fs : κ) {calls : List (Fin maxProcs × Call)}
    {e : Fin maxProcs × Call}
    (h : Allowed (State.perform D) State.Enabled (State.init fs) (calls ++ [e])) :
    ∃ rs s, serve (State.perform D) (State.init fs) (calls ++ [e]) =
      some (rs ++ [((answer (Spec.perform D) (Spec.init fs) calls).2.perform D e).1], s) := by
  obtain ⟨s, hrun, -⟩ := run_refines D fs h
  rw [answer_append] at hrun
  exact ⟨_, s, hrun⟩

/-- `zero_read` and `null_write`, for any path. -/
def zeroDriver : Driver Unit Unit where
  lookup _ _ fs := (some (), fs)
  openFile _ := none
  read _ := some fun count pos fs => ((count, List.replicate count.toNat 0, pos + count), fs)
  write _ := some fun _ count pos fs => ((count, pos + count), fs)
  llseek _ := none
  getattr _ := some fun fs => ((0, ⟨3, 0o020666, 1, 0, 0, 0, 0, 0, 0, 0⟩), fs)
  putc _ _ fs := fs

/-- A parent and its child share the position, and a new file comes on the page of a closed one. -/
def sharedCalls : List (Fin maxProcs × Call) :=
  [(0, .sysOpen 4096 [47, 122] 0 (some 7)), (0, .procFork true true), (0, .sysRead 0 8192 1),
    (1, .sysRead 0 8192 2), (0, .sysSeek 0 0 1), (0, .sysClose 0), (1, .sysClose 0),
    (1, .sysOpen 4096 [47, 122] 2 (some 7)), (1, .sysSeek 0 0 1)]

end Jeos.OpenFiles
