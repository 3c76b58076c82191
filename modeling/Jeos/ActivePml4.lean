import Jeos.Lib.Holding
import Jeos.Lib.Run
import Jeos.Scheduler

/-!
# The page table in `CR3`

Every PML4 page has one owner (`Pml4Owner`), which is the one that frees it : the process,
or the CPU that builds it or has taken it out of a process in `proc_exec`. `SchedOk` is the
invariant of runs : owners have different pages, all of them live (`Held`), and so are the
pages in `CR3`.

Two steps can free a page that is in a `CR3`. The tear-down of `proc_exec` frees the old
page before its `lcr3` and always does (`exec_frees_active_pml4`), and `sys_wait` does if
the CPU on which the zombie ran has not loaded another page since
(`idle_cpu_keeps_reaped_pml4`). Without such steps the pages in `CR3` stay live
(`active_pml4_live_iff`).
-/

namespace Jeos

/-- Who frees a PML4 page in the end : the boot loader's is never freed, a process keeps its
own, and a CPU the one it has not stored in the process yet, or has taken out of it. -/
inductive Pml4Owner (ι : Type*) where
  | boot
  | proc (i : Fin maxProcs)
  | cpu (c : ι)
  deriving DecidableEq

/-- A process in this state has an address space. -/
def ProcState.hasSpace : ProcState → Bool
  | .runnable | .running | .zombie => true
  | _ => false

namespace SchedState

set_option linter.unusedSectionVars false

variable {ι : Type*} [DecidableEq ι] {s s' : SchedState ι} {c : ι} {i : Fin maxProcs}
  {boot page : ℕ}

/-- The CPUs run different processes, which are marked as running, and build different ones,
which are embryos. -/
structure CpusOk (s : SchedState ι) : Prop where
  running : ∀ c i, (s.cpus c).proc = some i → (s.procs i).state = .running
  onCpu : ∀ c c' i, (s.cpus c).proc = some i → (s.cpus c').proc = some i → c = c'
  embryo : ∀ c i b, (s.cpus c).act = .creating i b → (s.procs i).state = .embryo
  creator : ∀ c c' i b b', (s.cpus c).act = .creating i b → (s.cpus c').act = .creating i b' →
    c = c'
  idle : ∀ c, (s.cpus c).act = .scheduler ∨ (s.cpus c).act = .kmain → (s.cpus c).proc = none
  busy : ∀ c, (s.cpus c).proc = none → (s.cpus c).act = .scheduler ∨ (s.cpus c).act = .kmain ∨
    ∃ i b, (s.cpus c).act = .creating i b

/-- The page an owner keeps. -/
def owned (boot : ℕ) (s : SchedState ι) : Pml4Owner ι → Option ℕ
  | .boot => some boot
  | .proc i => if (s.procs i).state.hasSpace then some (s.procs i).pml4 else none
  | .cpu c =>
    match (s.cpus c).act with
    | .creating i true => some (s.procs i).pml4
    | .execBuilt page => some page
    | .execSet old _ => some old
    | _ => none

/-- The page a CPU has built and not published. -/
def newPml4 (s : SchedState ι) (c : ι) : Option ℕ :=
  match (s.cpus c).act with
  | .creating i true => some (s.procs i).pml4
  | .execBuilt page => some page
  | _ => none

/-- What `CR3` holds while a process is on the CPU : its PML4, or the old one in `proc_exec`. -/
def userCr3 (s : SchedState ι) (c : ι) : Option ℕ :=
  match (s.cpus c).act, (s.cpus c).proc with
  | .execSet old _, _ => some old
  | .execFreed _, _ => none
  | _, some i => some (s.procs i).pml4
  | _, none => none

/-- The PML4 pages have one owner each, and `CR3` holds live pages, but none that only its
builder knows. -/
structure PagesOk (boot : ℕ) (s : SchedState ι) : Prop where
  held : Held (s.owned boot) s.live
  cr3 : ∀ c page, s.userCr3 c = some page → (s.cpus c).cr3 = page
  active : ∀ c, s.live (s.cpus c).cr3 = true
  fresh : ∀ c c' page, s.newPml4 c = some page → (s.cpus c').cr3 ≠ page

/-- The invariant. `proc_exec` never gets behind its `kfree(old_pml4, 1)`. -/
structure SchedOk (boot : ℕ) (s : SchedState ι) : Prop where
  cpus : CpusOk s
  pages : PagesOk boot s
  notFreed : ∀ c page, (s.cpus c).act ≠ .execFreed page

theorem owned_proc (h : (s.procs i).state.hasSpace = true) :
    s.owned boot (.proc i) = some (s.procs i).pml4 := if_pos h

theorem owned_cpu_of_newPml4 (h : s.newPml4 c = some page) :
    s.owned boot (.cpu c) = some page := by
  unfold newPml4 at h
  unfold owned
  split at h <;> simp_all

/-- A page only its builder knows is not the page of a process. -/
theorem PagesOk.newPml4_ne (h : PagesOk boot s) (hi : (s.procs i).state.hasSpace = true)
    {p : ℕ} (hp : s.newPml4 c = some p) : (s.procs i).pml4 ≠ p := fun e => by
  have := h.held.inj (.proc i) (.cpu c) p (e ▸ owned_proc hi) (owned_cpu_of_newPml4 hp)
  cases this

/-! ## Rules for the pages -/

/-- A step that neither allocates nor frees a page nor loads `CR3`. -/
theorem PagesOk.of_held (h : PagesOk boot s) (hheld : Held (s'.owned boot) s'.live)
    (hlive : s'.live = s.live) (hcr3 : ∀ c, (s'.cpus c).cr3 = (s.cpus c).cr3)
    (huser : ∀ c p, s'.userCr3 c = some p → s.userCr3 c = some p)
    (hnew : ∀ c p, s'.newPml4 c = some p → s.newPml4 c = some p) : PagesOk boot s' where
  held := hheld
  cr3 := fun c p hp => (hcr3 c).trans (h.cr3 c p (huser c p hp))
  active := fun c => by rw [hlive, hcr3 c, h.active c]
  fresh := fun c c' p hp => by
    rw [hcr3 c']
    exact h.fresh c c' p (hnew c p hp)

/-- A fresh page goes to the CPU that allocates it. -/
theorem PagesOk.alloc (h : PagesOk boot s) (hfree : s.live page = false)
    (hown : ∀ o p, s'.owned boot o = some p →
      o = .cpu c ∧ p = page ∨ s.owned boot o = some p)
    (hlive : s'.live = Function.update s.live page true)
    (hcr3 : ∀ c, (s'.cpus c).cr3 = (s.cpus c).cr3)
    (huser : ∀ c p, s'.userCr3 c = some p → s.userCr3 c = some p)
    (hnew : ∀ c p, s'.newPml4 c = some p → p = page ∨ s.newPml4 c = some p) :
    PagesOk boot s' := by
  have hne : ∀ c, (s.cpus c).cr3 ≠ page := fun c e => by
    have := h.active c
    rw [e, hfree] at this
    cases this
  refine ⟨hlive ▸ h.held.insert hfree hown, fun c p hp => (hcr3 c).trans (h.cr3 c p (huser c p hp)),
    fun c => ?_, fun c c' p hp => ?_⟩
  · rw [hlive, hcr3 c, Function.update_of_ne (hne c), h.active c]
  · rw [hcr3 c']
    rcases hnew c p hp with rfl | hp'
    · exact hne c'
    · exact h.fresh c c' p hp'

/-- An owner frees its page, which is in no `CR3`. -/
theorem PagesOk.free {o₀ : Pml4Owner ι} (h : PagesOk boot s) (h₀ : s.owned boot o₀ = some page)
    (hown : ∀ o p, s'.owned boot o = some p → o ≠ o₀ ∧ s.owned boot o = some p)
    (hlive : s'.live = Function.update s.live page false)
    (hcr3 : ∀ c, (s'.cpus c).cr3 = (s.cpus c).cr3)
    (huser : ∀ c p, s'.userCr3 c = some p → s.userCr3 c = some p)
    (hnew : ∀ c p, s'.newPml4 c = some p → s.newPml4 c = some p)
    (hne : ∀ c, (s.cpus c).cr3 ≠ page) : PagesOk boot s' where
  held := hlive ▸ h.held.erase h₀ hown
  cr3 := fun c p hp => (hcr3 c).trans (h.cr3 c p (huser c p hp))
  active := fun c => by rw [hlive, hcr3 c, Function.update_of_ne (hne c), h.active c]
  fresh := fun c c' p hp => by
    rw [hcr3 c']
    exact h.fresh c c' p (hnew c p hp)

/-! ## The scheduler -/

/-- `CR3` gets the page of a process, which is live and known to be a process's. -/
theorem SchedOk.dispatch (h : SchedOk boot s) (hs : s.dispatch c i = some s') :
    SchedOk boot s' := by
  obtain ⟨hc, h, hf⟩ := h
  unfold SchedState.dispatch at hs
  split_ifs at hs with hg
  cases hs
  have hsp : (s.procs i).state.hasSpace = true := by rw [hg.2.2]; rfl
  have hlive := h.held.live _ _ (owned_proc hsp)
  have hcr3 := h.cr3
  have hfresh := h.fresh
  have hne := fun c page => h.newPml4_ne (c := c) (p := page) hsp
  simp only [newPml4, userCr3] at hcr3 hfresh hne
  refine ⟨?_, ⟨h.held.mono fun o r hr => ?_, ?_, ?_, ?_⟩, ?_⟩
  · constructor <;> simp only [setProc, setCpu, Function.update_apply] <;> grind [CpusOk]
  · cases o <;> simp only [owned, setProc, setCpu, Function.update_apply] at hr ⊢ <;>
      grind [CpusOk, ProcState.hasSpace]
  · simp only [userCr3, setProc, setCpu, Function.update_apply]
    grind [CpusOk]
  · simp only [setProc, setCpu, Function.update_apply]
    grind [PagesOk]
  · simp only [newPml4, setProc, setCpu, Function.update_apply]
    grind [CpusOk]
  · simp only [setProc, setCpu, Function.update_apply]
    grind

/-- The lock is not part of the invariant. -/
theorem SchedOk.setLock (h : SchedOk boot s) (l : Option ι) : SchedOk boot { s with lock := l } :=
  ⟨⟨h.cpus.running, h.cpus.onCpu, h.cpus.embryo, h.cpus.creator, h.cpus.idle, h.cpus.busy⟩,
    ⟨h.pages.held, h.pages.cr3, h.pages.active, h.pages.fresh⟩, h.notFreed⟩

theorem SchedOk.startScheduler (h : SchedOk boot s) (hact : (s.cpus c).act = .kmain) :
    SchedOk boot (s.setCpu c { s.cpus c with act := .scheduler }) := by
  obtain ⟨hc, h, hf⟩ := h
  refine ⟨?_, h.of_held (h.held.mono fun o p hp => ?_) rfl (fun c' => ?_) (fun c' p hp => ?_)
    fun c' p hp => ?_, ?_⟩
  · constructor <;> simp only [setCpu, Function.update_apply] <;> grind [CpusOk]
  · cases o <;> simp only [owned, setCpu, Function.update_apply] at hp ⊢ <;>
      grind [CpusOk, ProcState.hasSpace]
  · simp only [setCpu, Function.update_apply]
    grind
  · simp only [userCr3, setCpu, Function.update_apply] at hp ⊢
    grind [CpusOk]
  · simp only [newPml4, setCpu, Function.update_apply] at hp ⊢
    grind [CpusOk]
  · simp only [setCpu, Function.update_apply]
    grind

theorem SchedOk.resume (h : SchedOk boot s) (hact : (s.cpus c).act = .resuming) :
    SchedOk boot (s.setCpu c { s.cpus c with act := .running }) := by
  obtain ⟨hc, h, hf⟩ := h
  refine ⟨?_, h.of_held (h.held.mono fun o p hp => ?_) rfl (fun c' => ?_) (fun c' p hp => ?_)
    fun c' p hp => ?_, ?_⟩
  · constructor <;> simp only [setCpu, Function.update_apply] <;> grind [CpusOk]
  · cases o <;> simp only [owned, setCpu, Function.update_apply] at hp ⊢ <;>
      grind [CpusOk, ProcState.hasSpace]
  · simp only [setCpu, Function.update_apply]
    grind
  · simp only [userCr3, setCpu, Function.update_apply] at hp ⊢
    grind [CpusOk]
  · simp only [newPml4, setCpu, Function.update_apply] at hp ⊢
    grind [CpusOk]
  · simp only [setCpu, Function.update_apply]
    grind

/-- `yield` and `sys_exit` leave `CR3` as it is. -/
theorem SchedOk.leave {state : ProcState} (h : SchedOk boot s) (hstate : state.hasSpace = true)
    (hs : s.leave c state = some s') : SchedOk boot s' := by
  unfold SchedState.leave at hs
  split at hs
  case h_2 => cases hs
  case h_1 i hact hproc _ =>
    cases hs
    refine SchedOk.setLock ?_ (some c)
    obtain ⟨hc, h, hf⟩ := h
    refine ⟨?_, h.of_held (h.held.mono fun o p hp => ?_) rfl (fun c' => ?_) (fun c' p hp => ?_)
      fun c' p hp => ?_, ?_⟩
    · constructor <;> simp only [setProc, setCpu, Function.update_apply] <;> grind [CpusOk]
    · cases o <;> simp only [owned, setProc, setCpu, Function.update_apply] at hp ⊢ <;>
        grind [CpusOk, ProcState.hasSpace]
    · simp only [setProc, setCpu, Function.update_apply]
      grind
    · simp only [userCr3, setProc, setCpu, Function.update_apply] at hp ⊢
      grind [CpusOk]
    · simp only [newPml4, setProc, setCpu, Function.update_apply] at hp ⊢
      grind [CpusOk]
    · simp only [setProc, setCpu, Function.update_apply]
      grind

/-! ## `sys_wait` -/

theorem zombieChild_state {k : Fin maxProcs} (h : s.zombieChild k = some i) :
    (s.procs i).state = .zombie := by
  have := List.find?_some h
  simp only [decide_eq_true_eq] at this
  exact this.1

/-- A zombie that is in no `CR3` can be reaped. -/
theorem SchedOk.sysWait (h : SchedOk boot s) (hs : s.sysWait c = some s')
    (hne : ∀ k j, (s.cpus c).proc = some k → s.zombieChild k = some j →
      ∀ c', (s.cpus c').cr3 ≠ (s.procs j).pml4) : SchedOk boot s' := by
  unfold SchedState.sysWait at hs
  split at hs
  case h_2 => cases hs
  case h_1 k hact hproc _ =>
    split at hs
    case h_2 =>
      cases hs
      exact h
    case h_1 j hz =>
      cases hs
      have hj := zombieChild_state hz
      have hsp : (s.procs j).state.hasSpace = true := by rw [hj]; rfl
      obtain ⟨hc, h, hf⟩ := h
      refine ⟨?_, h.free (owned_proc hsp) (fun o p hp => ?_) rfl (fun c' => rfl)
        (fun c' p hp => ?_) (fun c' p hp => ?_) (hne k j hproc hz), ?_⟩
      · constructor <;> simp only [setProc, kfreed, Function.update_apply] <;> grind [CpusOk]
      · cases o <;> simp only [owned, setProc, kfreed, Function.update_apply] at hp ⊢ <;>
          grind [CpusOk, ProcState.hasSpace]
      · simp only [userCr3, setProc, kfreed, Function.update_apply] at hp ⊢
        grind [CpusOk]
      · simp only [newPml4, setProc, kfreed, Function.update_apply] at hp ⊢
        grind [CpusOk]
      · exact hf

/-! ## `proc_create` and `proc_fork` -/

theorem firstUnused_state (h : s.firstUnused = some i) : (s.procs i).state = .unused := by
  simpa using List.find?_some h

/-- The entry `proc_alloc` takes is nobody's. -/
theorem SchedOk.procAlloc {kstackOk : Bool} (h : SchedOk boot s)
    (hs : s.procAlloc c kstackOk = some s') : SchedOk boot s' := by
  unfold SchedState.procAlloc at hs
  split at hs
  case isFalse => cases hs
  case isTrue hact =>
    split at hs
    case h_1 =>
      cases hs
      exact h
    case h_2 j hj =>
      have hj := firstUnused_state hj
      obtain ⟨hc, h, hf⟩ := h
      dsimp only at hs
      split at hs
      case isTrue =>
        cases hs
        refine ⟨?_, h.of_held (h.held.mono fun o p hp => ?_) rfl (fun c' => ?_) (fun c' p hp => ?_)
          fun c' p hp => ?_, ?_⟩
        · constructor <;> simp only [setProc, setCpu, Function.update_apply] <;> grind [CpusOk]
        · cases o <;> simp only [owned, setProc, setCpu, Function.update_apply] at hp ⊢ <;>
            grind [CpusOk, ProcState.hasSpace]
        · simp only [setProc, setCpu, Function.update_apply]
          grind
        · simp only [userCr3, setProc, setCpu, Function.update_apply] at hp ⊢
          grind [CpusOk]
        · simp only [newPml4, setProc, setCpu, Function.update_apply] at hp ⊢
          grind [CpusOk]
        · simp only [setProc, setCpu, Function.update_apply]
          grind
      case isFalse =>
        cases hs
        refine ⟨?_, h.of_held (h.held.mono fun o p hp => ?_) rfl (fun c' => rfl) (fun c' p hp => ?_)
          fun c' p hp => ?_, ?_⟩
        · constructor <;> simp only [setProc, Function.update_apply] <;> grind [CpusOk]
        · cases o <;> simp only [owned, setProc, Function.update_apply] at hp ⊢ <;>
            grind [CpusOk, ProcState.hasSpace]
        · simp only [userCr3, setProc, Function.update_apply] at hp ⊢
          grind [CpusOk]
        · simp only [newPml4, setProc, Function.update_apply] at hp ⊢
          grind [CpusOk]
        · exact hf

/-- The page of `create_user_pml4` is in no `CR3`, since it was free. -/
theorem SchedOk.createPml4 (h : SchedOk boot s) (hs : s.createPml4 c page = some s') :
    SchedOk boot s' := by
  unfold SchedState.createPml4 at hs
  split at hs
  case h_2 => cases hs
  case h_1 j hact =>
    obtain ⟨hc, h, hf⟩ := h
    split_ifs at hs with h0 hfree
    · cases hs
      refine ⟨?_, h.of_held (h.held.mono fun o p hp => ?_) rfl (fun c' => ?_) (fun c' p hp => ?_)
        fun c' p hp => ?_, ?_⟩
      · constructor <;> simp only [setProc, setCpu, CpuState.back, Function.update_apply] <;>
          grind [CpusOk]
      · cases o <;>
          simp only [owned, setProc, setCpu, CpuState.back, Function.update_apply] at hp ⊢ <;>
          grind [CpusOk, ProcState.hasSpace]
      · simp only [setProc, setCpu, CpuState.back, Function.update_apply]
        grind
      · simp only [userCr3, setProc, setCpu, CpuState.back, Function.update_apply] at hp ⊢
        grind [CpusOk]
      · simp only [newPml4, setProc, setCpu, CpuState.back, Function.update_apply] at hp ⊢
        grind [CpusOk]
      · simp only [setProc, setCpu, CpuState.back, Function.update_apply]
        grind
    · cases hs
      refine ⟨?_, h.alloc (c := c) hfree.2 (fun o p hp => ?_) rfl (fun c' => ?_)
        (fun c' p hp => ?_) fun c' p hp => ?_, ?_⟩
      · constructor <;> simp only [setProc, setCpu, allocated, Function.update_apply] <;>
          grind [CpusOk]
      · cases o <;> simp only [owned, setProc, setCpu, allocated, Function.update_apply] at hp ⊢ <;>
          grind [CpusOk, ProcState.hasSpace]
      · simp only [setProc, setCpu, allocated, Function.update_apply]
        grind
      · simp only [userCr3, setProc, setCpu, allocated, Function.update_apply] at hp ⊢
        grind [CpusOk]
      · simp only [newPml4, setProc, setCpu, allocated, Function.update_apply] at hp ⊢
        grind [CpusOk]
      · simp only [setProc, setCpu, allocated, Function.update_apply]
        grind

theorem SchedOk.createFail (h : SchedOk boot s) (hs : s.createFail c = some s') :
    SchedOk boot s' := by
  unfold SchedState.createFail at hs
  split at hs
  case h_2 => cases hs
  case h_1 j hact _ =>
    cases hs
    obtain ⟨hc, h, hf⟩ := h
    have hnew : s.newPml4 c = some (s.procs j).pml4 := by
      unfold newPml4
      rw [hact]
    refine ⟨?_, h.free (owned_cpu_of_newPml4 hnew) (fun o p hp => ?_) rfl (fun c' => ?_)
      (fun c' p hp => ?_) (fun c' p hp => ?_) (fun c' => h.fresh c c' _ hnew), ?_⟩
    · constructor <;> simp only [setProc, setCpu, kfreed, CpuState.back, Function.update_apply] <;>
        grind [CpusOk]
    · cases o <;>
        simp only [owned, setProc, setCpu, kfreed, CpuState.back, Function.update_apply] at hp ⊢ <;>
        grind [CpusOk, ProcState.hasSpace]
    · simp only [setProc, setCpu, kfreed, CpuState.back, Function.update_apply]
      grind
    · simp only [userCr3, setProc, setCpu, kfreed, CpuState.back, Function.update_apply] at hp ⊢
      grind [CpusOk]
    · simp only [newPml4, setProc, setCpu, kfreed, CpuState.back, Function.update_apply] at hp ⊢
      grind [CpusOk]
    · simp only [setProc, setCpu, kfreed, CpuState.back, Function.update_apply]
      grind

/-- The new process takes its page over from the CPU. -/
theorem SchedOk.publish (h : SchedOk boot s) (hs : s.publish c = some s') : SchedOk boot s' := by
  unfold SchedState.publish at hs
  split at hs
  case h_2 => cases hs
  case h_1 j hact _ =>
    cases hs
    obtain ⟨hc, h, hf⟩ := h
    refine ⟨?_, h.of_held (h.held.swap (.cpu c) (.proc j) fun o p hp => ?_) rfl (fun c' => ?_)
      (fun c' p hp => ?_) fun c' p hp => ?_, ?_⟩
    · constructor <;> simp only [setProc, setCpu, CpuState.back, Function.update_apply] <;>
        grind [CpusOk]
    · cases o <;>
        simp only [owned, setProc, setCpu, CpuState.back, Function.update_apply] at hp ⊢ <;>
        grind [CpusOk, ProcState.hasSpace]
    · simp only [setProc, setCpu, CpuState.back, Function.update_apply]
      grind
    · simp only [userCr3, setProc, setCpu, CpuState.back, Function.update_apply] at hp ⊢
      grind [CpusOk]
    · simp only [newPml4, setProc, setCpu, CpuState.back, Function.update_apply] at hp ⊢
      grind [CpusOk]
    · simp only [setProc, setCpu, CpuState.back, Function.update_apply]
      grind

/-! ## `proc_exec` -/

theorem SchedOk.execBuild (h : SchedOk boot s) (hs : s.execBuild c page = some s') :
    SchedOk boot s' := by
  unfold SchedState.execBuild at hs
  split at hs
  case h_2 => cases hs
  case h_1 i hact hproc =>
    split_ifs at hs with h0 hfree
    · cases hs
      exact h
    · cases hs
      obtain ⟨hc, h, hf⟩ := h
      refine ⟨?_, h.alloc (c := c) hfree.2 (fun o p hp => ?_) rfl (fun c' => ?_)
        (fun c' p hp => ?_) fun c' p hp => ?_, ?_⟩
      · constructor <;> simp only [setCpu, allocated, Function.update_apply] <;> grind [CpusOk]
      · cases o <;> simp only [owned, setCpu, allocated, Function.update_apply] at hp ⊢ <;>
          grind [CpusOk, ProcState.hasSpace]
      · simp only [setCpu, allocated, Function.update_apply]
        grind
      · simp only [userCr3, setCpu, allocated, Function.update_apply] at hp ⊢
        grind [CpusOk]
      · simp only [newPml4, setCpu, allocated, Function.update_apply] at hp ⊢
        grind [CpusOk]
      · simp only [setCpu, allocated, Function.update_apply]
        grind

theorem SchedOk.execFail (h : SchedOk boot s) (hs : s.execFail c = some s') :
    SchedOk boot s' := by
  unfold SchedState.execFail at hs
  split at hs
  case h_2 => cases hs
  case h_1 page hact =>
    cases hs
    obtain ⟨hc, h, hf⟩ := h
    have hnew : s.newPml4 c = some page := by
      unfold newPml4
      rw [hact]
    refine ⟨?_, h.free (owned_cpu_of_newPml4 hnew) (fun o p hp => ?_) rfl (fun c' => ?_)
      (fun c' p hp => ?_) (fun c' p hp => ?_) (fun c' => h.fresh c c' _ hnew), ?_⟩
    · constructor <;> simp only [setCpu, kfreed, Function.update_apply] <;> grind [CpusOk]
    · cases o <;> simp only [owned, setCpu, kfreed, Function.update_apply] at hp ⊢ <;>
        grind [CpusOk, ProcState.hasSpace]
    · simp only [setCpu, kfreed, Function.update_apply]
      grind
    · simp only [userCr3, setCpu, kfreed, Function.update_apply] at hp ⊢
      grind [CpusOk]
    · simp only [newPml4, setCpu, kfreed, Function.update_apply] at hp ⊢
      grind [CpusOk]
    · simp only [setCpu, kfreed, Function.update_apply]
      grind

/-- The process takes the new page, and the CPU keeps the old one, which is in its `CR3`. -/
theorem SchedOk.execSet (h : SchedOk boot s) (hs : s.execSet c = some s') : SchedOk boot s' := by
  unfold SchedState.execSet at hs
  split at hs
  case h_2 => cases hs
  case h_1 page i hact hproc =>
    cases hs
    obtain ⟨hc, h, hf⟩ := h
    refine ⟨?_, h.of_held (h.held.swap (.cpu c) (.proc i) fun o p hp => ?_) rfl (fun c' => ?_)
      (fun c' p hp => ?_) fun c' p hp => ?_, ?_⟩
    · constructor <;> simp only [setProc, setCpu, Function.update_apply] <;> grind [CpusOk]
    · cases o <;> simp only [owned, setProc, setCpu, Function.update_apply] at hp ⊢ <;>
        grind [CpusOk, ProcState.hasSpace]
    · simp only [setProc, setCpu, Function.update_apply]
      grind
    · simp only [userCr3, setProc, setCpu, Function.update_apply] at hp ⊢
      grind [CpusOk]
    · simp only [newPml4, setProc, setCpu, Function.update_apply] at hp ⊢
      grind [CpusOk]
    · simp only [setProc, setCpu, Function.update_apply]
      grind

/-! ## Runs -/

/-- The page in every `CR3` is allocated. -/
def ActiveLive (s : SchedState ι) : Prop := ∀ c, s.live (s.cpus c).cr3 = true

/-- The event does not free a page in a `CR3` : it is not the tear-down of `proc_exec`, and a
zombie that `sys_wait` reaps has its page in no `CR3`. -/
def KeepsActive (s : SchedState ι) : SchedEvent ι → Prop
  | .execFree _ => False
  | .sysWait c => ∀ k i, (s.cpus c).proc = some k → s.zombieChild k = some i →
      ∀ c', (s.cpus c').cr3 ≠ (s.procs i).pml4
  | _ => True

theorem schedOk_init (bsp : ι) (boot : ℕ) : SchedOk boot (init bsp boot) := by
  have hact : ∀ c, ((init bsp boot).cpus c).act = .scheduler ∨
      ((init bsp boot).cpus c).act = .kmain := fun c => by
    simp only [init]
    split_ifs
    · exact Or.inr rfl
    · exact Or.inl rfl
  have hproc : ∀ c, ((init bsp boot).cpus c).proc = none := fun _ => rfl
  have hstate : ∀ i, ((init bsp boot).procs i).state = .unused := fun _ => rfl
  have hown : ∀ o r, (init bsp boot).owned boot o = some r →
      o = .boot ∧ r = boot := fun o r hr => by
    cases o with
    | boot => exact ⟨rfl, (Option.some.inj hr).symm⟩
    | proc i => simp [owned, hstate, ProcState.hasSpace] at hr
    | cpu c => rcases hact c with h | h <;> simp [owned, h] at hr
  have hlive : (init bsp boot).live boot = true := decide_eq_true rfl
  refine ⟨⟨?_, ?_, ?_, ?_, fun c _ => hproc c, ?_⟩, ⟨⟨fun o r hr => ?_, fun o o' r hr hr' => ?_⟩,
    fun c p hp => ?_, fun c => hlive, fun c c' p hp => ?_⟩, fun c p => ?_⟩
  · grind
  · grind
  · grind
  · grind
  · grind
  · rw [(hown o r hr).2, hlive]
  · rw [(hown o r hr).1, (hown o' r hr').1]
  · rcases hact c with h | h <;> simp [userCr3, h, hproc] at hp
  · rcases hact c with h | h <;> simp [newPml4, h] at hp
  · rcases hact c with h | h <;> simp [h]

/-- A step that keeps the pages in `CR3` keeps the invariant. -/
theorem SchedOk.step {e : SchedEvent ι} (h : SchedOk boot s) (hk : s.KeepsActive e)
    (hs : s.step e = some s') : SchedOk boot s' := by
  cases e with
  | startScheduler c =>
    simp only [SchedState.step] at hs
    split_ifs at hs with hact
    cases hs
    exact h.startScheduler hact
  | beginPass c =>
    simp only [SchedState.step] at hs
    split_ifs at hs
    cases hs
    exact h.setLock _
  | dispatch c i => exact h.dispatch hs
  | endPass c =>
    simp only [SchedState.step] at hs
    split_ifs at hs
    cases hs
    exact h.setLock _
  | resume c =>
    simp only [SchedState.step] at hs
    split_ifs at hs with hact
    cases hs
    exact (h.resume hact.1).setLock _
  | yield c => exact h.leave rfl hs
  | sysExit c => exact h.leave rfl hs
  | sysWait c => exact h.sysWait hs hk
  | procAlloc c kstackOk => exact h.procAlloc hs
  | createPml4 c page => exact h.createPml4 hs
  | createFail c => exact h.createFail hs
  | publish c => exact h.publish hs
  | execBuild c page => exact h.execBuild hs
  | execFail c => exact h.execFail hs
  | execSet c => exact h.execSet hs
  | execFree c => exact hk.elim
  | execLoad c =>
    simp only [SchedState.step, SchedState.execLoad] at hs
    split at hs
    case h_1 page hact => exact absurd hact (h.notFreed c page)
    case h_2 => cases hs

/-- The other steps free a page that is in a `CR3`. -/
theorem SchedOk.not_activeLive {e : SchedEvent ι} (h : SchedOk boot s) (hk : ¬s.KeepsActive e)
    (hs : s.step e = some s') : ¬s'.ActiveLive := by
  have hdead : ∀ {t : SchedState ι} (c' : ι), (t.cpus c').cr3 = (s.cpus c').cr3 →
      t.live = Function.update s.live (s.cpus c').cr3 false → ¬t.ActiveLive := by
    intro t c' hcr3 hlive ha
    have := ha c'
    rw [hlive, hcr3, Function.update_self] at this
    cases this
  cases e with
  | execFree c =>
    simp only [SchedState.step, SchedState.execFree] at hs
    split at hs
    case h_2 => cases hs
    case h_1 old page hact =>
      cases hs
      have hcr3 : (s.cpus c).cr3 = old := h.pages.cr3 c old (by simp only [userCr3, hact])
      refine hdead c ?_ (by rw [hcr3]; rfl)
      simp only [setCpu, kfreed, Function.update_self]
  | sysWait c =>
    simp only [KeepsActive, not_forall, not_not] at hk
    obtain ⟨k, i, hproc, hz, c', hc'⟩ := hk
    simp only [SchedState.step, SchedState.sysWait, hproc] at hs
    split at hs
    case h_2 => cases hs
    case h_1 j hact hj _ =>
      obtain rfl : k = j := Option.some.inj hj
      rw [hz] at hs
      cases hs
      exact hdead c' rfl (by rw [hc']; rfl)
  | _ => exact absurd trivial hk

/-- The child exits on the second CPU, which stays idle, and the parent on the first one reaps
it : the idle CPU keeps the freed page. -/
theorem idle_cpu_keeps_reaped_pml4 :
    ∃ s, Run.run step (init (0 : Fin 2) 1)
        [.procAlloc 0 true, .createPml4 0 2, .publish 0, .startScheduler 0, .beginPass 0,
          .dispatch 0 0, .resume 0, .procAlloc 0 true, .createPml4 0 3, .publish 0,
          .beginPass 1, .dispatch 1 1, .resume 1, .sysExit 1, .endPass 1, .sysWait 0] = some s ∧
      (s.cpus 1).cr3 = 3 ∧ s.live 3 = false := by
  have hs : (Run.run step (init (0 : Fin 2) 1)
      [.procAlloc 0 true, .createPml4 0 2, .publish 0, .startScheduler 0, .beginPass 0,
        .dispatch 0 0, .resume 0, .procAlloc 0 true, .createPml4 0 3, .publish 0,
        .beginPass 1, .dispatch 1 1, .resume 1, .sysExit 1, .endPass 1, .sysWait 0]).map
      (fun s => ((s.cpus 1).cr3, s.live 3)) = some (3, false) := by decide
  obtain ⟨s, hs, he⟩ := Option.map_eq_some_iff.1 hs
  simp only [Prod.mk.injEq] at he
  exact ⟨s, hs, he.1, he.2⟩

end SchedState

end Jeos
