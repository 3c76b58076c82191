import Jeos.Files
import Jeos.Lib.StateRun
import Mathlib.Data.Finset.Basic

/-!
# The pages of a failing `sys_pipe`

`sys_pipe` takes five pages, for `struct pipe` and for the inode and the file of each end, and two
descriptors. Here every page is an object of its own, numbered in the order of allocation; `outcome`
tells which calls of `kalloc` succeed, and `frees` counts the `kfree` of each page. A function that
uses a page that does not hold its object has no result.

`Spent` tells which pages of a call are still live. Where `pipe_create` fails it has freed what it
took (`pipeCreate_spec`). Where a descriptor is missing, `vfs_close` of the two ends frees the files
only : `f->fops` is null, so `pipe_close` is not called, and `vfs_inode_put` frees no inode. So a
failing call leaves no trace exactly if it is not the descriptors that are missing
(`sys_pipe_leaves_no_trace_iff`).
-/

namespace Jeos

namespace PipePages

set_option linter.unusedSectionVars false

/-- What a page holds. The inode of an end has its table of operations, its pipe and its tag. -/
inductive Object where
  | pipe (p : Pipe)
  | inode (fops : FileOps) (priv : ℕ) (ino : U64) (refcnt : U32)
  | file (inode : ℕ) (fops : Option FileOps) (refcnt : U32)

/-- The descriptor table of the calling process, the pages, and the results of `kalloc`. -/
structure State where
  files : Fin maxFds → Option ℕ
  page : ℕ → Option Object
  next : ℕ
  frees : ℕ → ℕ
  outcome : ℕ → Bool
  calls : ℕ

abbrev PageM := StateT State Option

/-! ## The functions -/

/-- The state after a `kalloc` that gives a page. -/
def State.taken (s : State) : State := { s with calls := s.calls + 1, next := s.next + 1 }

/-- The state after a `kalloc` that gives none. -/
def State.refused (s : State) : State := { s with calls := s.calls + 1 }

/-- `kalloc(1)`. -/
def kalloc : PageM (Option ℕ) := fun s =>
  if s.outcome s.calls then some (some s.next, s.taken) else some (none, s.refused)

/-- The state with page `a` freed. -/
def State.free (s : State) (a : ℕ) : State :=
  { s with
    page := Function.update s.page a none
    frees := Function.update s.frees a (s.frees a + 1) }

/-- The state with page `a` filled. -/
def State.fill (s : State) (a : ℕ) (o : Object) : State :=
  { s with page := Function.update s.page a (some o) }

/-- `kfree(a, 1)` of a page in use. -/
def kfree (a : ℕ) : PageM Unit := fun s => (s.page a).map fun _ => ((), s.free a)

def setPage (a : ℕ) (o : Object) : PageM Unit := fun s => some ((), s.fill a o)

def getPage (a : ℕ) : PageM Object := fun s => (s.page a).map fun o => (o, s)

def setFile (fd : Fin maxFds) (f : Option ℕ) : PageM Unit := fun s =>
  some ((), { s with files := Function.update s.files fd f })

/-- `make_pipe_end` : the operations go to the inode. -/
def makePipeEnd (p : ℕ) (ops : FileOps) (endTag : U64) : PageM (Option ℕ) := do
  match ← kalloc with
  | none => pure none
  | some ino =>
    setPage ino (.inode ops p endTag 1)
    match ← kalloc with
    | none =>
      kfree ino
      pure none
    | some f =>
      setPage f (.file ino none 1)
      pure (some f)

/-- `if (f) { kfree(f->inode, 1); kfree(f, 1); }` -/
def dropEnd : Option ℕ → PageM Unit
  | none => pure ()
  | some f => do
    match ← getPage f with
    | .file ino _ _ =>
      kfree ino
      kfree f
    | _ => failure

/-- `pipe_create`. -/
def pipeCreate : PageM (Option (ℕ × ℕ)) := do
  match ← kalloc with
  | none => pure none
  | some p =>
    setPage p (.pipe Pipe.create)
    let r ← makePipeEnd p .pipeReadOps pipeReadEnd
    let w ← makePipeEnd p .pipeWriteOps pipeWriteEnd
    match r, w with
    | some r, some w => pure (some (r, w))
    | r, w =>
      dropEnd r
      dropEnd w
      kfree p
      pure none

/-- `pipe_close` of the file with inode `ino`. -/
def pipeClose (ino : ℕ) : PageM Unit := do
  match ← getPage ino with
  | .inode _ priv tag _ =>
    match ← getPage priv with
    | .pipe p =>
      setPage priv (.pipe (p.closeSection (tag = pipeWriteEnd)).1)
      if (p.closeSection (tag = pipeWriteEnd)).2 then kfree priv else pure ()
    | _ => failure
  | _ => failure

/-- `vfs_inode_put`, which frees nothing. -/
def vfsInodePut (ino : ℕ) : PageM Unit := do
  match ← getPage ino with
  | .inode fops priv tag refcnt => setPage ino (.inode fops priv tag (refcnt - 1))
  | _ => failure

/-- `vfs_file_put`. -/
def vfsFilePut (f : ℕ) : PageM Unit := do
  match ← getPage f with
  | .file ino fops refcnt =>
    setPage f (.file ino fops (refcnt - 1))
    if refcnt - 1 = 0 then do
      vfsInodePut ino
      kfree f
    else pure ()
  | _ => failure

/-- `vfs_close` of a pipe end. -/
def vfsClose (f : ℕ) : PageM Unit := do
  match ← getPage f with
  | .file ino fops _ =>
    match fops with
    | some _ => pipeClose ino
    | none => pure ()
    vfsFilePut f
  | _ => failure

/-- `fd_alloc`. -/
def fdAlloc (f : ℕ) : PageM (Option (Fin maxFds)) := fun s =>
  match (List.finRange maxFds).find? fun fd => s.files fd = none with
  | some fd => some (some fd, { s with files := Function.update s.files fd (some f) })
  | none => some (none, s)

/-- `vfs_close(r); vfs_close(w); return -1;` -/
def closeEnds (r w : ℕ) : PageM (Option (Fin maxFds × Fin maxFds)) := do
  vfsClose r
  vfsClose w
  pure none

/-- The descriptors of `sys_pipe`. -/
def allocFds (r w : ℕ) : PageM (Option (Fin maxFds × Fin maxFds)) := do
  match ← fdAlloc r, ← fdAlloc w with
  | some rfd, some wfd => pure (some (rfd, wfd))
  | some rfd, none =>
    setFile rfd none
    closeEnds r w
  | none, _ => closeEnds r w

/-- `sys_pipe`, where `current` tells whether there is a current process : the two descriptors it
stores for the caller, or none where it returns -1. -/
def sysPipe (current : Bool) (fdsPtr : U64) : PageM (Option (Fin maxFds × Fin maxFds)) := do
  if validUserPtr fdsPtr && current then
    match ← pipeCreate with
    | none => pure none
    | some (r, w) => allocFds r w
  else pure none

open StateRun

variable {s t u : State} {live : Finset ℕ} {a b f ino : ℕ} {o : Object}

/-! ## Live pages -/

@[simp] theorem fill_page_self : (t.fill a o).page a = some o := Function.update_self ..

theorem fill_page_of_ne (h : b ≠ a) : (t.fill a o).page b = t.page b := Function.update_of_ne h ..

theorem free_page_of_ne (h : b ≠ a) : (t.free a).page b = t.page b := Function.update_of_ne h ..

theorem free_frees_self : (t.free a).frees a = t.frees a + 1 := Function.update_self ..

theorem free_frees_of_ne (h : b ≠ a) : (t.free a).frees b = t.frees b :=
  Function.update_of_ne h ..

/-- Of the pages allocated between two states those of `live` are in use, and the others have been
freed once. -/
structure Spent (s t : State) (live : Finset ℕ) : Prop where
  le : s.next ≤ t.next
  outcome : t.outcome = s.outcome
  fresh : ∀ a ∈ live, s.next ≤ a ∧ a < t.next
  held : ∀ a ∈ live, (t.page a).isSome
  page : ∀ a < s.next, t.page a = s.page a
  frees : ∀ a, t.frees a = s.frees a + if s.next ≤ a ∧ a < t.next ∧ a ∉ live then 1 else 0

theorem Spent.refl (s : State) : Spent s s ∅ :=
  ⟨Nat.le_refl _, rfl, by simp, by simp, fun _ _ => rfl, fun a => by
    rw [if_neg (by omega), Nat.add_zero]⟩

/-- A state with the pages of `t` and other descriptors or results. -/
theorem Spent.of_pages (h : Spent s t live) (hn : u.next = t.next) (ho : u.outcome = t.outcome)
    (hp : u.page = t.page) (hf : u.frees = t.frees) : Spent s u live :=
  ⟨hn ▸ h.le, ho.trans h.outcome, hn ▸ h.fresh, hp ▸ h.held, hp ▸ h.page, by
    rw [hn, hf]
    exact h.frees⟩

/-- A live page keeps its place when it is filled again. -/
theorem Spent.fill (h : Spent s t live) (ha : a ∈ live) : Spent s (t.fill a o) live := by
  refine ⟨h.le, h.outcome, h.fresh, fun b hb => ?_, fun b hb => ?_, h.frees⟩
  · rcases eq_or_ne b a with rfl | hne
    · rw [fill_page_self, Option.isSome_some]
    · rw [fill_page_of_ne hne]
      exact h.held b hb
  · have hne : b ≠ a := fun he => absurd (h.fresh a ha).1 (by omega)
    exact (fill_page_of_ne hne).trans (h.page b hb)

/-- A page allocated and filled. -/
theorem Spent.alloc (h : Spent s t live) :
    Spent s (t.taken.fill t.next o) (insert t.next live) := by
  have hle := h.le
  refine ⟨Nat.le_succ_of_le hle, h.outcome, fun b hb => ?_, fun b hb => ?_, fun b hb => ?_,
    fun b => ?_⟩
  · rcases Finset.mem_insert.1 hb with rfl | hb
    · exact ⟨hle, Nat.lt_succ_self _⟩
    · exact ⟨(h.fresh b hb).1, Nat.lt_succ_of_lt (h.fresh b hb).2⟩
  · rcases Finset.mem_insert.1 hb with rfl | hb
    · rw [fill_page_self, Option.isSome_some]
    · rw [fill_page_of_ne (Nat.ne_of_lt (h.fresh b hb).2)]
      exact h.held b hb
  · exact (fill_page_of_ne (by omega)).trans (h.page b hb)
  · refine (h.frees b).trans (congrArg _ (if_congr ?_ rfl rfl))
    rw [Finset.mem_insert]
    have hnext : (t.taken.fill t.next o).next = t.next + 1 := rfl
    rw [hnext]
    constructor
    · rintro ⟨h1, h2, h3⟩
      exact ⟨h1, by omega, by rintro (he | he) <;> [omega; exact h3 he]⟩
    · rintro ⟨h1, h2, h3⟩
      have : b ≠ t.next := fun he => h3 (Or.inl he)
      exact ⟨h1, by omega, fun he => h3 (Or.inr he)⟩

/-- A live page freed. -/
theorem Spent.kfree (h : Spent s t live) (ha : a ∈ live) :
    kfree a t = some ((), t.free a) ∧ Spent s (t.free a) (live.erase a) := by
  obtain ⟨o, ho⟩ := Option.isSome_iff_exists.1 (h.held a ha)
  refine ⟨by rw [PipePages.kfree, ho, Option.map_some], ⟨h.le, h.outcome, fun b hb => ?_,
    fun b hb => ?_, fun b hb => ?_, fun b => ?_⟩⟩
  · exact h.fresh b (Finset.mem_of_mem_erase hb)
  · rw [free_page_of_ne (Finset.ne_of_mem_erase hb)]
    exact h.held b (Finset.mem_of_mem_erase hb)
  · have hne : b ≠ a := fun he => absurd (h.fresh a ha).1 (by omega)
    exact (free_page_of_ne hne).trans (h.page b hb)
  · rcases eq_or_ne b a with rfl | hne
    · have hfresh := h.fresh b ha
      rw [free_frees_self, h.frees, if_neg fun hc => hc.2.2 ha,
        if_pos ⟨hfresh.1, hfresh.2, Finset.notMem_erase b live⟩]
    · rw [free_frees_of_ne hne, h.frees]
      refine congrArg _ (if_congr (and_congr_right fun _ => and_congr_right fun _ => ?_) rfl rfl)
      rw [Finset.mem_erase, not_and]
      exact ⟨fun hb _ => hb, fun hb => hb hne⟩

/-! ## Pipe ends -/

theorem kalloc_of (h : t.outcome t.calls = true) : kalloc t = some (some t.next, t.taken) := by
  rw [kalloc, if_pos h]

theorem kalloc_of_not (h : t.outcome t.calls = false) : kalloc t = some (none, t.refused) := by
  rw [kalloc, if_neg (by simp [h])]

theorem getPage_of (h : t.page a = some o) : getPage a t = some (o, t) := by
  rw [getPage, h, Option.map_some]

theorem setPage_apply (a : ℕ) (o : Object) (t : State) : setPage a o t = some ((), t.fill a o) :=
  rfl

theorem Spent.refused (h : Spent s t live) : Spent s t.refused live :=
  h.of_pages rfl rfl rfl rfl

theorem Spent.next_notMem (h : Spent s t live) : t.next ∉ live := fun hm =>
  absurd (h.fresh t.next hm).2 (Nat.lt_irrefl _)

/-- `f` is the file of a pipe end and `ino` its inode, as `make_pipe_end` leaves them. -/
structure IsEnd (t : State) (p f ino : ℕ) : Prop where
  file : t.page f = some (.file ino none 1)
  inode : ∃ ops tag, t.page ino = some (.inode ops p tag 1)

theorem IsEnd.of_pages {p n : ℕ} (h : IsEnd t p f ino) (hp : ∀ a < n, u.page a = t.page a)
    (hf : f < n) (hi : ino < n) : IsEnd u p f ino :=
  ⟨(hp f hf).trans h.file, h.inode.imp fun _ => Exists.imp fun _ => (hp ino hi).trans⟩

/-- What `make_pipe_end` gives : the end, in two new pages, or nothing. -/
structure MadeEnd (s t u : State) (live : Finset ℕ) (p f : ℕ) : Prop where
  eq : f = t.next + 1
  isEnd : IsEnd u p (t.next + 1) t.next
  spent : Spent s u (insert (t.next + 1) (insert t.next live))
  next : u.next = t.next + 2
  calls : u.calls = t.calls + 2
  outcome : ∀ j < 2, t.outcome (t.calls + j) = true

variable {p : ℕ}

theorem makePipeEnd_spec (p : ℕ) (ops : FileOps) (tag : U64) (h : Spent s t live) :
    Leads (makePipeEnd p ops tag) t fun r u => u.files = t.files ∧
      (∀ a < t.next, u.page a = t.page a) ∧
      ((r = none ∧ Spent s u live ∧ ∃ j < 2, t.outcome (t.calls + j) = false) ∨
        ∃ f, r = some f ∧ MadeEnd s t u live p f) := by
  cases h0 : t.outcome t.calls with
  | false =>
    refine ⟨none, t.refused, by rw [makePipeEnd, bind_of (kalloc_of_not h0)]; rfl, rfl,
      fun _ _ => rfl, Or.inl ⟨rfl, h.refused, 0, by decide, h0⟩⟩
  | true =>
    set t₁ := t.taken.fill t.next (.inode ops p tag 1) with ht₁
    have hs₁ : Spent s t₁ (insert t.next live) := h.alloc
    have hcalls : t₁.calls = t.calls + 1 := rfl
    have hrun : makePipeEnd p ops tag t = _ := bind_of (kalloc_of h0)
    cases h1 : t₁.outcome t₁.calls with
    | false =>
      obtain ⟨hk, hsk⟩ := hs₁.refused.kfree (Finset.mem_insert_self t.next live)
      rw [Finset.erase_insert h.next_notMem] at hsk
      refine ⟨none, t₁.refused.free t.next, ?_, rfl, fun a ha => ?_,
        Or.inl ⟨rfl, hsk, 1, by decide, h1⟩⟩
      · rw [hrun]
        dsimp only
        rw [bind_of (setPage_apply ..), bind_of (kalloc_of_not h1)]
        dsimp only
        rw [bind_of hk, pure_apply]
      · rw [free_page_of_ne (Nat.ne_of_lt ha)]
        exact fill_page_of_ne (Nat.ne_of_lt ha)
    | true =>
      refine ⟨some (t.next + 1), t₁.taken.fill (t.next + 1) (.file t.next none 1), ?_, rfl,
        fun a ha => ?_, Or.inr ⟨_, rfl, rfl, ⟨fill_page_self, ops, tag, ?_⟩, hs₁.alloc, rfl, rfl,
        fun j hj => ?_⟩⟩
      · rw [hrun]
        dsimp only
        rw [bind_of (setPage_apply ..), bind_of (kalloc_of h1)]
        rfl
      · rw [fill_page_of_ne (by omega)]
        exact fill_page_of_ne (Nat.ne_of_lt ha)
      · rw [fill_page_of_ne (Nat.ne_of_lt (Nat.lt_succ_self _))]
        exact fill_page_self
      · obtain rfl | rfl : j = 0 ∨ j = 1 := by omega
        · exact h0
        · exact h1

theorem dropEnd_none (t : State) : dropEnd none t = some ((), t) := rfl

theorem dropEnd_spec (h : Spent s t (insert f (insert ino live))) (he : IsEnd t p f ino)
    (hino : ino ∉ live) (hf : f ∉ insert ino live) :
    Leads (dropEnd (some f)) t fun _ u => u.files = t.files ∧ Spent s u live := by
  obtain ⟨hk, hsk⟩ := h.kfree (Finset.mem_insert_of_mem (Finset.mem_insert_self ino live))
  rw [Finset.insert_comm, Finset.erase_insert] at hsk
  · obtain ⟨hk', hsk'⟩ := hsk.kfree (Finset.mem_insert_self f live)
    rw [Finset.erase_insert fun hm => hf (Finset.mem_insert_of_mem hm)] at hsk'
    refine ⟨(), (t.free ino).free f, ?_, rfl, hsk'⟩
    rw [dropEnd, bind_of (getPage_of he.file)]
    dsimp only
    rw [bind_of hk, hk']
  · rw [Finset.mem_insert, not_or]
    exact ⟨fun he => hf (he ▸ Finset.mem_insert_self ino live), hino⟩

/-- Freeing the last page. -/
theorem Spent.kfree_last (h : Spent s t {a}) :
    PipePages.kfree a t = some ((), t.free a) ∧ Spent s (t.free a) ∅ := by
  obtain ⟨hk, hs⟩ := h.kfree (Finset.mem_singleton_self a)
  rw [Finset.erase_singleton] at hs
  exact ⟨hk, hs⟩

/-- The five calls of `kalloc` in `pipe_create` succeed. -/
def AllFive (s : State) : Prop := ∀ j < 5, s.outcome (s.calls + j) = true

/-- The pipe that `pipe_create` makes, and its two ends. -/
structure Created (s u : State) (r w : ℕ) : Prop where
  r_eq : r = s.next + 2
  w_eq : w = s.next + 4
  readEnd : IsEnd u s.next (s.next + 2) (s.next + 1)
  writeEnd : IsEnd u s.next (s.next + 4) (s.next + 3)
  spent : Spent s u
    (insert (s.next + 4) (insert (s.next + 3) (insert (s.next + 2) (insert (s.next + 1) {s.next}))))
  next : u.next = s.next + 5

theorem Spent.notMem_end (ht : Spent s t live) :
    t.next ∉ live ∧ t.next + 1 ∉ insert t.next live := by
  refine ⟨ht.next_notMem, fun hm => ?_⟩
  rcases Finset.mem_insert.1 hm with he | hm
  · omega
  · exact absurd (ht.fresh _ hm).2 (by omega)

/-- A `pipe_create` that fails has freed the pages it took. -/
theorem pipeCreate_spec (s : State) :
    Leads pipeCreate s fun x u => u.files = s.files ∧
      ((x = none ∧ Spent s u ∅ ∧ ¬AllFive s) ∨
        ∃ r w, x = some (r, w) ∧ Created s u r w ∧ AllFive s) := by
  cases h0 : s.outcome s.calls with
  | false =>
    refine ⟨none, s.refused, by rw [pipeCreate, bind_of (kalloc_of_not h0)]; rfl, rfl,
      Or.inl ⟨rfl, (Spent.refl s).refused, fun h => ?_⟩⟩
    exact Bool.noConfusion (h0.symm.trans (h 0 (by decide)))
  | true =>
    set t₁ := s.taken.fill s.next (.pipe Pipe.create)
    have hs₁ : Spent s t₁ {s.next} := (Spent.refl s).alloc
    have hnot : ∀ {j}, j < 5 → s.outcome (s.calls + j) = false → ¬AllFive s := fun hj hfail h =>
      Bool.noConfusion (hfail.symm.trans (h _ hj))
    obtain ⟨r, t₂, hr, hfiles₂, hpage₂, hcase₂⟩ :=
      makePipeEnd_spec s.next .pipeReadOps pipeReadEnd hs₁
    rw [Leads, pipeCreate, bind_of (kalloc_of h0)]
    dsimp only
    rw [bind_of (setPage_apply ..), bind_of hr]
    rcases hcase₂ with ⟨rfl, hs₂, j, hj, hfail⟩ | ⟨rf, rfl, hmade₂⟩
    · have hbad : ¬AllFive s := hnot (j := 1 + j) (by omega) (Nat.add_assoc s.calls 1 j ▸ hfail)
      obtain ⟨w, t₃, hw, hfiles₃, hpage₃, ⟨rfl, hs₃, -⟩ | ⟨wf, rfl, hmade₃⟩⟩ :=
        makePipeEnd_spec s.next .pipeWriteOps pipeWriteEnd hs₂
      · obtain ⟨hk, hs₄⟩ := hs₃.kfree_last
        refine ⟨none, t₃.free s.next, ?_, hfiles₃.trans hfiles₂, Or.inl ⟨rfl, hs₄, hbad⟩⟩
        rw [bind_of hw]
        dsimp only
        rw [bind_of (dropEnd_none t₃), bind_of (dropEnd_none t₃), bind_of hk, pure_apply]
      · obtain ⟨hno, hno'⟩ := hs₂.notMem_end
        obtain ⟨_, t₄, hd, hfiles₄, hs₄⟩ := dropEnd_spec hmade₃.spent hmade₃.isEnd hno hno'
        obtain ⟨hk, hs₅⟩ := hs₄.kfree_last
        refine ⟨none, t₄.free s.next, ?_, hfiles₄.trans (hfiles₃.trans hfiles₂), Or.inl ⟨rfl, hs₅, hbad⟩⟩
        rw [bind_of hw, hmade₃.eq]
        dsimp only
        rw [bind_of (dropEnd_none t₃), bind_of hd, bind_of hk, pure_apply]
    · obtain ⟨hno, hno'⟩ := hs₁.notMem_end
      obtain ⟨w, t₃, hw, hfiles₃, hpage₃, ⟨rfl, hs₃, j, hj, hfail⟩ | ⟨wf, rfl, hmade₃⟩⟩ :=
        makePipeEnd_spec s.next .pipeWriteOps pipeWriteEnd hmade₂.spent
      · have hend : IsEnd t₃ s.next (t₁.next + 1) t₁.next :=
          hmade₂.isEnd.of_pages hpage₃ (by rw [hmade₂.next]; omega) (by rw [hmade₂.next]; omega)
        obtain ⟨_, t₄, hd, hfiles₄, hs₄⟩ := dropEnd_spec hs₃ hend hno hno'
        obtain ⟨hk, hs₅⟩ := hs₄.kfree_last
        refine ⟨none, t₄.free s.next, ?_, hfiles₄.trans (hfiles₃.trans hfiles₂),
          Or.inl ⟨rfl, hs₅, ?_⟩⟩
        · rw [bind_of hw, hmade₂.eq]
          dsimp only
          rw [bind_of hd, bind_of (dropEnd_none t₄), bind_of hk, pure_apply]
        · rw [hmade₂.calls, hmade₂.spent.outcome] at hfail
          refine hnot (j := 3 + j) (by omega) (hfail ▸ congrArg s.outcome ?_)
          exact (by omega : s.calls + (3 + j) = s.calls + 1 + 2 + j)
      · have hnext : t₂.next = s.next + 3 := hmade₂.next
        have hend := hmade₃.isEnd
        have hs₃ := hmade₃.spent
        rw [hnext] at hend hs₃
        refine ⟨some (rf, wf), t₃, by rw [bind_of hw]; rfl, hfiles₃.trans hfiles₂,
          Or.inr ⟨rf, wf, rfl, ⟨hmade₂.eq, by rw [hmade₃.eq, hnext], ?_, hend, hs₃,
            by rw [hmade₃.next, hnext]⟩, fun j hj => ?_⟩⟩
        · exact hmade₂.isEnd.of_pages hpage₃ (by rw [hmade₂.next]; omega)
            (by rw [hmade₂.next]; omega)
        · have hcalls₂ : t₂.calls = s.calls + 3 := hmade₂.calls
          rcases Nat.lt_or_ge j 3 with hlt | hge
          · rcases Nat.eq_zero_or_pos j with rfl | hpos
            · exact h0
            · have := hmade₂.outcome (j - 1) (by omega)
              exact (congrArg s.outcome (by omega : s.calls + j = s.calls + 1 + (j - 1))).trans this
          · have := hmade₃.outcome (j - 3) (by omega)
            rw [hcalls₂, hmade₂.spent.outcome] at this
            exact (congrArg s.outcome (by omega : s.calls + j = s.calls + 3 + (j - 3))).trans this

/-! ## Closing the ends -/

/-- `vfs_close` frees the file of an end, and neither its inode nor the pipe. -/
theorem vfsClose_spec (h : Spent s t live) (he : IsEnd t p f ino) (hf : f ∈ live) (hi : ino ∈ live)
    (hne : ino ≠ f) :
    Leads (vfsClose f) t fun _ u => u.files = t.files ∧ u.next = t.next ∧
      Spent s u (live.erase f) ∧ ∀ a, a ≠ f → a ≠ ino → u.page a = t.page a := by
  obtain ⟨ops, tag, hino⟩ := he.inode
  set t₁ := t.fill f (.file ino none 0)
  set t₂ := t₁.fill ino (.inode ops p tag 0)
  have hino₁ : t₁.page ino = some (.inode ops p tag 1) := (fill_page_of_ne hne).trans hino
  obtain ⟨hk, hs⟩ := ((h.fill hf (o := .file ino none 0)).fill hi
    (o := .inode ops p tag 0)).kfree hf
  refine ⟨(), t₂.free f, ?_, rfl, rfl, hs, fun a haf hai => ?_⟩
  · rw [vfsClose, bind_of (getPage_of he.file)]
    dsimp only
    rw [vfsFilePut, bind_of (getPage_of he.file)]
    dsimp only
    rw [bind_of (setPage_apply ..), if_pos (by decide), vfsInodePut]
    have hput : ((getPage ino >>= fun x => match x with
        | .inode fops priv tag refcnt => setPage ino (.inode fops priv tag (refcnt - 1))
        | _ => failure) : PageM Unit) t₁ = some ((), t₂) := by
      rw [bind_of (getPage_of hino₁)]
      rfl
    exact (bind_of hput).trans hk
  · rw [free_page_of_ne haf, fill_page_of_ne hai]
    exact fill_page_of_ne haf

/-! ## The call -/

/-- Two slots of the descriptor table are free. -/
def TwoFree (s : State) : Prop := ∃ fd fd', fd ≠ fd' ∧ s.files fd = none ∧ s.files fd' = none

theorem fdAlloc_cases (t : State) (f : ℕ) :
    (∃ fd, t.files fd = none ∧
      fdAlloc f t = some (some fd, { t with files := Function.update t.files fd (some f) })) ∨
    (∀ fd, t.files fd ≠ none) ∧ fdAlloc f t = some (none, t) := by
  unfold fdAlloc
  cases h : (List.finRange maxFds).find? fun fd => decide (t.files fd = none) with
  | some fd => exact Or.inl ⟨fd, by simpa using List.find?_some h, rfl⟩
  | none =>
    exact Or.inr ⟨fun fd => by simpa using List.find?_eq_none.1 h fd (List.mem_finRange fd), rfl⟩

/-- Closing both ends leaves the shared structure and the two inodes. -/
theorem closeEnds_spec {r w : ℕ} (h : Created s t r w) :
    Leads (closeEnds r w) t fun x u => x = none ∧ u.files = t.files ∧ u.next = s.next + 5 ∧
      Spent s u {s.next + 3, s.next + 1, s.next} := by
  obtain ⟨rfl, rfl, hr, hw, hs, hnext⟩ := h
  refine (vfsClose_spec hs hr (by simp) (by simp) (by omega)).bind fun _ t₁ ⟨hf₁, hn₁, hs₁, hp₁⟩ => ?_
  have hw₁ : IsEnd t₁ s.next (s.next + 4) (s.next + 3) :=
    ⟨(hp₁ _ (by omega) (by omega)).trans hw.file, hw.inode.imp fun _ => Exists.imp fun _ =>
      (hp₁ _ (by omega) (by omega)).trans⟩
  refine (vfsClose_spec hs₁ hw₁ (by simp) (by simp) (by omega)).bind
    fun _ u ⟨hf₂, hn₂, hs₂, _⟩ => .pure ⟨rfl, hf₂.trans hf₁, hn₂.trans (hn₁.trans hnext), ?_⟩
  rw [Finset.erase_insert_of_ne (by omega : s.next + 4 ≠ s.next + 2),
    Finset.erase_insert_of_ne (by omega : s.next + 3 ≠ s.next + 2), Finset.erase_insert (by simp),
    Finset.erase_insert (by simp)] at hs₂
  exact hs₂

/-- How a `sys_pipe` ends that gets to `pipe_create`. -/
inductive Outcome (s t : State) : Option (Fin maxFds × Fin maxFds) → Prop where
  | failed (files : t.files = s.files) (spent : Spent s t ∅) (h : ¬AllFive s) : Outcome s t none
  | noSlot (files : t.files = s.files) (next : t.next = s.next + 5)
    (spent : Spent s t {s.next + 3, s.next + 1, s.next}) (h : AllFive s) (h' : ¬TwoFree s) :
    Outcome s t none
  | made (x : Fin maxFds × Fin maxFds) (h : TwoFree s) : Outcome s t (some x)

theorem Created.of_files {r w : ℕ} (h : Created s t r w) (files : Fin maxFds → Option ℕ) :
    Created s { t with files := files } r w :=
  ⟨h.r_eq, h.w_eq, ⟨h.readEnd.file, h.readEnd.inode⟩, ⟨h.writeEnd.file, h.writeEnd.inode⟩,
    h.spent.of_pages rfl rfl rfl rfl, h.next⟩

theorem allocFds_spec {r w : ℕ} (h : Created s t r w) (hfiles : t.files = s.files)
    (hall : AllFive s) : Leads (allocFds r w) t fun x u => Outcome s u x := by
  have hclose : ∀ {t' : State}, Created s t' r w → t'.files = s.files → ¬TwoFree s →
      Leads (closeEnds r w) t' fun x u => Outcome s u x := fun h' hf hno =>
    (closeEnds_spec h').mono fun x u ⟨hx, hf', hnext, hs⟩ =>
      hx ▸ .noSlot (hf'.trans hf) hnext hs hall hno
  rcases fdAlloc_cases t r with ⟨fd, hfd, hrun⟩ | ⟨hfull, hrun⟩
  · rcases fdAlloc_cases { t with files := Function.update t.files fd (some r) } w with
      ⟨fd', hfd', hrun'⟩ | ⟨hfull, hrun'⟩
    · refine ⟨some (fd, fd'), _, by rw [allocFds, bind_of hrun, bind_of hrun']; rfl,
        .made _ ⟨fd, fd', ?_⟩⟩
      have hne : fd' ≠ fd := fun he => by
        rw [he] at hfd'
        simp at hfd'
      rw [← hfiles]
      exact ⟨hne.symm, hfd, (Function.update_of_ne hne ..).symm.trans hfd'⟩
    · have hback : Function.update (Function.update t.files fd (some r)) fd none = t.files := by
        rw [Function.update_idem, ← hfd, Function.update_eq_self]
      obtain ⟨x, u, hx, ho⟩ := hclose (h.of_files t.files) hfiles fun ⟨a, b, hab, ha, hb⟩ => by
        have hfd_of : ∀ c, s.files c = none → c = fd := fun c hc => by
          by_contra hne
          exact hfull c ((Function.update_of_ne hne ..).trans (hfiles ▸ hc))
        exact hab ((hfd_of a ha).trans (hfd_of b hb).symm)
      refine ⟨x, u, ?_, ho⟩
      rw [allocFds, bind_of hrun, bind_of hrun']
      dsimp only
      rw [bind_apply, setFile, Option.bind_some]
      dsimp only
      rw [hback]
      exact hx
  · obtain ⟨x, u, hx, ho⟩ := hclose h hfiles fun ⟨a, _, _, ha, _⟩ => hfull a (hfiles ▸ ha)
    refine ⟨x, u, ?_, ho⟩
    rw [allocFds, bind_of hrun]
    rcases fdAlloc_cases t w with ⟨fd', hfd', -⟩ | ⟨-, hrun'⟩
    · exact absurd hfd' (hfull fd')
    · rw [bind_of hrun']
      exact hx

/-- Every `sys_pipe` returns. -/
theorem sysPipe_spec (s : State) (current : Bool) (fdsPtr : U64) :
    Leads (sysPipe current fdsPtr) s fun x t =>
      if validUserPtr fdsPtr && current then Outcome s t x else x = none ∧ t = s := by
  refine Leads.ite (fun h => ?_) fun h => .pure (by rw [if_neg h]; exact ⟨rfl, rfl⟩)
  simp only [if_pos h]
  refine (pipeCreate_spec s).bind fun x t ⟨hfiles, hcase⟩ => ?_
  rcases hcase with ⟨rfl, hs, hno⟩ | ⟨r, w, rfl, hc, hall⟩
  · exact .pure (.failed hfiles hs hno)
  · exact allocFds_spec hc hfiles hall

/-- A call that failed left the descriptors alone, and freed what it took once. -/
structure NoTrace (s t : State) : Prop where
  files : t.files = s.files
  frees : ∀ a, s.next ≤ a → a < t.next → t.frees a = s.frees a + 1

/-- A failing call leaves no trace, except where it gets its pages and not two descriptors. -/
theorem sys_pipe_leaves_no_trace_iff (s : State) (current : Bool) (fdsPtr : U64) :
    Leads (sysPipe current fdsPtr) s fun x t => (x = none → NoTrace s t) ↔
      ¬((validUserPtr fdsPtr && current) = true ∧ AllFive s ∧ ¬TwoFree s) := by
  refine (sysPipe_spec s current fdsPtr).mono fun x t ho => ?_
  split_ifs at ho with hrun
  · cases ho with
    | failed files spent h =>
      refine iff_of_true (fun _ => ⟨files, fun a ha hlt => ?_⟩) fun hc => h hc.2.1
      rw [spent.frees, if_pos ⟨ha, hlt, Finset.notMem_empty a⟩]
    | noSlot files next spent h h' =>
      refine iff_of_false (fun hno => ?_) (not_not_intro ⟨hrun, h, h'⟩)
      have hleak := (hno rfl).frees s.next (Nat.le_refl _) (by omega)
      rw [spent.frees, if_neg (by simp)] at hleak
      omega
    | made x h => exact iff_of_true nofun fun hc => hc.2.2 h
  · obtain ⟨rfl, rfl⟩ := ho
    exact iff_of_true (fun _ => ⟨rfl, fun a ha hlt => absurd ha (Nat.not_le_of_lt hlt)⟩)
      fun hc => hrun hc.1

/-- A process with a full descriptor table, when all allocations succeed. -/
def fullTable : State := ⟨fun _ => some 0, fun _ => none, 1, fun _ => 0, fun _ => true, 0⟩

/-- The call fails, frees the two files, and leaves the shared structure and the inodes. -/
theorem full_table_leaks_pipe :
    ∃ t, sysPipe true 0x1000 fullTable = some (none, t) ∧ ¬NoTrace fullTable t := by
  have hrun : (sysPipe true 0x1000 fullTable).map (fun r => (r.1, r.2.next,
      [1, 2, 3, 4, 5].map r.2.frees)) = some (none, 6, [0, 0, 1, 0, 1]) := by decide
  obtain ⟨⟨x, t⟩, ht, he⟩ := Option.map_eq_some_iff.1 hrun
  simp only [Prod.mk.injEq] at he
  obtain ⟨rfl, hnext, hfrees⟩ := he
  refine ⟨t, ht, fun hno => ?_⟩
  have h1 : t.frees 1 = 0 + 1 := hno.frees 1 (Nat.le_refl _) (by omega)
  have h1' : t.frees 1 = 0 := (List.cons.inj hfrees).1
  omega

end PipePages

end Jeos
