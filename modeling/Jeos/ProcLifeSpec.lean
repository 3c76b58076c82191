import Jeos.ActivePml4
import Jeos.Lib.History
import Jeos.ProcLife

/-!
# CPUs, kernel stacks and the process table

`CpusOk` is the invariant of `c->proc` : the running processes are exactly those of a CPU, each
of one, and the embryos exactly those a CPU is making. `StacksOk` : the kernel stacks of the
processes are allocated and apart. A run keeps both (`LifeOk`), so a process is on one CPU while
it runs and on none otherwise, and `sys_wait` frees the stack of a process that is on no CPU and
a stack no CPU is on (`running_on_one_cpu`).
-/

namespace Jeos

namespace ProcLife

namespace State

set_option linter.unusedSectionVars false

variable {ι : Type*} [DecidableEq ι] {s s' : State ι} {c c' : ι} {i j k : Fin maxProcs}

/-! ## The parts of a state -/

section Parts

variable (s) (i) (c) (p : Proc) (x : Cpu) (e : Entry) (n : ℕ) (b : Bool)

theorem setProc_procs (j : Fin maxProcs) :
    (s.setProc i p).procs j = if j = i then p else s.procs j := Function.update_apply ..

theorem setCpu_cpus (c' : ι) : (s.setCpu c x).cpus c' = if c' = c then x else s.cpus c' :=
  Function.update_apply ..

theorem leave_procs (j : Fin maxProcs) :
    (s.leave c i p).procs j = if j = i then p else s.procs j := setProc_procs s i p j

theorem leave_cpus (c' : ι) :
    (s.leave c i p).cpus c' = if c' = c then ⟨none, .scheduler⟩ else s.cpus c' :=
  setCpu_cpus ..

@[simp] theorem setProc_cpus : (s.setProc i p).cpus = s.cpus := rfl
@[simp] theorem setProc_log : (s.setProc i p).log = s.log := rfl
@[simp] theorem setProc_nextPid : (s.setProc i p).nextPid = s.nextPid := rfl
@[simp] theorem setProc_issued : (s.setProc i p).issued = s.issued := rfl
@[simp] theorem setProc_liveStack : (s.setProc i p).liveStack = s.liveStack := rfl
@[simp] theorem setCpu_procs : (s.setCpu c x).procs = s.procs := rfl
@[simp] theorem setCpu_log : (s.setCpu c x).log = s.log := rfl
@[simp] theorem setCpu_nextPid : (s.setCpu c x).nextPid = s.nextPid := rfl
@[simp] theorem setCpu_issued : (s.setCpu c x).issued = s.issued := rfl
@[simp] theorem setCpu_liveStack : (s.setCpu c x).liveStack = s.liveStack := rfl
@[simp] theorem setStack_procs : (s.setStack n b).procs = s.procs := rfl
@[simp] theorem setStack_cpus : (s.setStack n b).cpus = s.cpus := rfl
@[simp] theorem setStack_log : (s.setStack n b).log = s.log := rfl
@[simp] theorem setStack_nextPid : (s.setStack n b).nextPid = s.nextPid := rfl
@[simp] theorem setStack_issued : (s.setStack n b).issued = s.issued := rfl
@[simp] theorem leave_log : (s.leave c i p).log = s.log := rfl
@[simp] theorem leave_nextPid : (s.leave c i p).nextPid = s.nextPid := rfl
@[simp] theorem leave_issued : (s.leave c i p).issued = s.issued := rfl
@[simp] theorem leave_liveStack : (s.leave c i p).liveStack = s.liveStack := rfl
@[simp] theorem record_procs : (s.record e).procs = s.procs := rfl
@[simp] theorem record_cpus : (s.record e).cpus = s.cpus := rfl
@[simp] theorem record_log : (s.record e).log = s.log ++ [e] := rfl
@[simp] theorem record_nextPid : (s.record e).nextPid = s.nextPid := rfl
@[simp] theorem record_issued : (s.record e).issued = s.issued := rfl
@[simp] theorem record_liveStack : (s.record e).liveStack = s.liveStack := rfl

/-- A field that a store to an entry leaves alone. -/
theorem setProc_keep {α : Type*} {f : Proc → α} {s : State ι} {i : Fin maxProcs} {p : Proc}
    (hp : f p = f (s.procs i)) (j : Fin maxProcs) :
    f ((s.setProc i p).procs j) = f (s.procs j) := by
  rw [setProc_procs]
  split_ifs with hj
  · rw [hj, hp]
  · rfl

end Parts

theorem firstUnused_state (h : s.firstUnused = some i) : (s.procs i).state = .unused := by
  simpa using List.find?_some h

theorem zombieChild_spec (h : s.zombieChild k = some i) :
    (s.procs i).state = .zombie ∧ (s.procs i).ppid = (s.procs k).pid := by
  simpa using List.find?_some h

theorem zombieChild_eq_none (h : s.zombieChild k = none) (i : Fin maxProcs)
    (hi : (s.procs i).state = .zombie) : (s.procs i).ppid ≠ (s.procs k).pid := by
  have := List.find?_eq_none.1 h i (List.mem_finRange i)
  simpa [hi] using this

/-- A CPU that can call `proc_alloc` makes nothing, and its process is not in `sys_wait`. -/
theorem CanMake.makes (h : s.CanMake c) : (s.cpus c).duty.makes = none := by
  unfold CanMake at h
  split at h
  · rw [‹(s.cpus c).duty = _›]
    rfl
  · rw [‹(s.cpus c).duty = _›]
    rfl
  · exact h.elim

theorem CanMake.user (h : s.CanMake c) (hk : (s.cpus c).proc = some k) :
    (s.procs k).point = .user := by
  unfold CanMake at h
  split at h
  · obtain rfl : _ = k := Option.some.inj (‹(s.cpus c).proc = _›.symm.trans hk)
    exact h
  · rw [‹(s.cpus c).proc = none›] at hk
    cases hk
  · exact h.elim

@[simp] theorem back_proc (x : Cpu) : x.back.proc = x.proc := rfl

@[simp] theorem back_makes (x : Cpu) : x.back.duty.makes = none := by
  unfold Cpu.back
  split_ifs <;> rfl

/-! ## The CPUs -/

structure CpusOk (s : State ι) : Prop where
  running : Marked (fun c => (s.cpus c).proc) fun i => (s.procs i).state = .running
  embryo : Marked (fun c => (s.cpus c).duty.makes) fun i => (s.procs i).state = .embryo
  idle : ∀ c, (s.cpus c).duty = .scheduler ∨ (s.cpus c).duty = .kmain → (s.cpus c).proc = none
  busy : ∀ c, (s.cpus c).duty = .resuming ∨ (s.cpus c).duty = .running → (s.cpus c).proc ≠ none
  user : ∀ c k i, (s.cpus c).proc = some k → (s.cpus c).duty.makes = some i →
    (s.procs k).point = .user

/-- A step in which the CPU `c` and the entry `i` change, and `i` is not an embryo before or
after. -/
theorem CpusOk.change {x : Cpu} (h : CpusOk s)
    (hcpus : ∀ c', s'.cpus c' = if c' = c then x else s.cpus c')
    (hother : ∀ j, j ≠ i → (s'.procs j).state = (s.procs j).state)
    (hrun : x.proc = (s.cpus c).proc ∧
        ((s'.procs i).state = .running ↔ (s.procs i).state = .running) ∨
      (s.cpus c).proc = none ∧ x.proc = some i ∧ (s.procs i).state ≠ .running ∧
        (s'.procs i).state = .running ∨
      (s.cpus c).proc = some i ∧ x.proc = none ∧ (s'.procs i).state ≠ .running)
    (hmake : x.duty.makes = (s.cpus c).duty.makes ∧
        ((s'.procs i).state = .embryo ↔ (s.procs i).state = .embryo) ∨
      (s.cpus c).duty.makes = none ∧ x.duty.makes = some i ∧ (s.procs i).state ≠ .embryo ∧
        (s'.procs i).state = .embryo ∨
      (s.cpus c).duty.makes = some i ∧ x.duty.makes = none ∧ (s'.procs i).state ≠ .embryo)
    (hidle : x.duty = .scheduler ∨ x.duty = .kmain → x.proc = none)
    (hbusy : x.duty = .resuming ∨ x.duty = .running → x.proc ≠ none)
    (huser : ∀ k i, x.proc = some k → x.duty.makes = some i → (s'.procs k).point = .user)
    (hpoint : ∀ c' k, c' ≠ c → (s.cpus c').proc = some k → (s.procs k).point = .user →
      (s'.procs k).point = .user) : CpusOk s' where
  running := h.running.move (fun c' => by rw [hcpus]; split_ifs <;> rfl)
    (fun j hj => by rw [hother j hj]) hrun
  embryo := h.embryo.move (fun c' => by rw [hcpus]; split_ifs <;> rfl)
    (fun j hj => by rw [hother j hj]) hmake
  idle c' hc' := by
    rw [hcpus] at hc' ⊢
    split_ifs at hc' ⊢
    · exact hidle hc'
    · exact h.idle c' hc'
  busy c' hc' := by
    rw [hcpus] at hc' ⊢
    split_ifs at hc' ⊢
    · exact hbusy hc'
    · exact h.busy c' hc'
  user c' k j hk hj := by
    rw [hcpus] at hk hj
    split_ifs at hk hj with hc'
    · exact huser k j hk hj
    · exact hpoint c' k hc' hk (h.user c' k j hk hj)

/-- A step in which only the duty of the CPU `c` changes, to one of the same kind. -/
theorem CpusOk.duty {d : Duty} (h : CpusOk s)
    (hcpus : ∀ c', s'.cpus c' = if c' = c then ⟨(s.cpus c).proc, d⟩ else s.cpus c')
    (hstate : ∀ j, (s'.procs j).state = (s.procs j).state)
    (hpoint : ∀ j, (s'.procs j).point = (s.procs j).point)
    (hmake : d.makes = (s.cpus c).duty.makes)
    (hidle : d = .scheduler ∨ d = .kmain → (s.cpus c).proc = none)
    (hbusy : d = .resuming ∨ d = .running → (s.cpus c).proc ≠ none) : CpusOk s' :=
  h.change (i := 0) hcpus (fun j _ => hstate j) (Or.inl ⟨rfl, by rw [hstate]⟩)
    (Or.inl ⟨hmake, by rw [hstate]⟩) hidle hbusy
    (fun k i hk hi => (hpoint k).trans (h.user c k i hk (hmake ▸ hi)))
    fun c' k _ _ hk => (hpoint k).trans hk

theorem CpusOk.setLock (h : CpusOk s) (l : Option ι) : CpusOk { s with lock := l } :=
  ⟨h.running, h.embryo, h.idle, h.busy, h.user⟩

theorem CpusOk.dispatch (h : CpusOk s) (hs : s.dispatch c i = some s') : CpusOk s' := by
  unfold State.dispatch at hs
  split_ifs at hs with hc
  obtain ⟨hduty, -, hi⟩ := hc
  cases hs
  refine h.change (i := i) (setCpu_cpus _ _ _) (fun j hj => ?_) (Or.inr (Or.inl ⟨?_, rfl, ?_, ?_⟩))
    (Or.inl ⟨?_, ?_⟩) ?_ ?_ ?_ fun c' k _ _ hk => ?_
  · rw [setCpu_procs, setProc_procs, if_neg hj]
  · exact h.idle c (Or.inl hduty)
  · simp [hi]
  · rw [setCpu_procs, setProc_procs, if_pos rfl]
  · rw [hduty]
    rfl
  · simp [setProc_procs, hi]
  · simp
  · simp
  · intro k j _ hj
    cases hj
  · rw [setCpu_procs]
    exact (setProc_keep (f := Proc.point) (by rfl) k).trans hk

/-- `yield` and `sys_exit`. -/
theorem CpusOk.leave {p : Proc} (h : CpusOk s) (hduty : (s.cpus c).duty = .running)
    (hproc : (s.cpus c).proc = some i) (hp : p.state = .runnable ∨ p.state = .zombie)
    (hpoint : (s.procs i).point = .user → p.point = .user) : CpusOk (s.leave c i p) := by
  have hi : (s.procs i).state = .running := (h.running.iff i).2 ⟨c, hproc⟩
  have hp' : (s.leave c i p).procs i = p := by rw [leave_procs, if_pos rfl]
  refine h.change (i := i) (leave_cpus _ _ _ _) (fun j hj => ?_) (Or.inr (Or.inr ⟨hproc, rfl, ?_⟩))
    (Or.inl ⟨?_, ?_⟩) ?_ ?_ ?_ fun c' k _ hk hku => ?_
  · rw [leave_procs, if_neg hj]
  · rw [hp']
    rcases hp with hp | hp <;> simp [hp]
  · rw [hduty]
    rfl
  · rw [hp', hi]
    rcases hp with hp | hp <;> simp [hp]
  · simp
  · simp
  · intro k j _ hj
    cases hj
  · rw [leave_procs]
    split_ifs with hki
    · exact hpoint (hki ▸ hku)
    · exact hku

/-- A step in which no process starts or stops running or being made. -/
theorem CpusOk.states (h : CpusOk s) (hcpus : ∀ c, s'.cpus c = s.cpus c)
    (hrun : ∀ j, (s'.procs j).state = .running ↔ (s.procs j).state = .running)
    (hemb : ∀ j, (s'.procs j).state = .embryo ↔ (s.procs j).state = .embryo)
    (hpoint : ∀ c k j, (s.cpus c).proc = some k → (s.cpus c).duty.makes = some j →
      (s'.procs k).point = .user) : CpusOk s' where
  running := h.running.congr (fun c => by rw [hcpus]) hrun
  embryo := h.embryo.congr (fun c => by rw [hcpus]) hemb
  idle c hc := by
    rw [hcpus] at hc ⊢
    exact h.idle c hc
  busy c hc := by
    rw [hcpus] at hc ⊢
    exact h.busy c hc
  user c k j hk hj := by
    rw [hcpus] at hk hj
    exact hpoint c k j hk hj

/-- `sys_wait` in process `k` : a child `i` is reaped, or there is none. -/
theorem sysWait_cases {b : Bool} (hs : s.sysWait c b = some s') :
    ∃ k, (s.cpus c).duty = .running ∧ (s.cpus c).proc = some k ∧ s.lock = none ∧
      (s.procs k).point ≠ .retry ∧
      ((∃ i, s.zombieChild k = some i ∧
          s' = ((s.reap i).setProc k { s.procs k with point := .user }).record
            (.wait (s.procs k).pid (s.procs i).pid
              (if b then some (s.procs i).exitCode else none))) ∨
        s.zombieChild k = none ∧ s' = s.setProc k { s.procs k with point := .retry }) := by
  unfold State.sysWait at hs
  split at hs
  case h_2 => cases hs
  case h_1 k hduty hproc hlock =>
    by_cases hpoint : (s.procs k).point = .retry
    · rw [if_pos hpoint] at hs
      cases hs
    rw [if_neg hpoint] at hs
    refine ⟨k, hduty, hproc, hlock, hpoint, ?_⟩
    cases hz : s.zombieChild k with
    | some i =>
      rw [hz] at hs
      exact Or.inl ⟨i, rfl, (Option.some.inj hs).symm⟩
    | none =>
      rw [hz] at hs
      exact Or.inr ⟨rfl, (Option.some.inj hs).symm⟩

theorem reap_procs (s : State ι) (i j : Fin maxProcs) :
    (s.reap i).procs j =
      if j = i then { s.procs i with kstack := 0, state := .unused } else s.procs j :=
  setProc_procs ..

theorem CpusOk.sysWait {b : Bool} (h : CpusOk s) (hs : s.sysWait c b = some s') : CpusOk s' := by
  obtain ⟨k, hduty, hproc, -, -, ⟨i, hz, rfl⟩ | ⟨-, rfl⟩⟩ := sysWait_cases hs
  · have hi := (zombieChild_spec hz).1
    have hk : (s.procs k).state = .running := (h.running.iff k).2 ⟨c, hproc⟩
    have hki : k ≠ i := fun e => by
      rw [e, hi] at hk
      cases hk
    have hstate : ∀ j, j ≠ i → (((s.reap i).setProc k { s.procs k with point := .user }).procs j).state
        = (s.procs j).state := fun j hj => by
      rw [setProc_keep (f := Proc.state) (by rw [reap_procs, if_neg hki]) j, reap_procs, if_neg hj]
    have hi' : (((s.reap i).setProc k { s.procs k with point := .user }).procs i).state =
        .unused := by
      rw [setProc_procs, if_neg hki.symm, reap_procs, if_pos rfl]
    refine h.states (fun _ => rfl) (fun j => ?_) (fun j => ?_) fun c' k' j hk' hj => ?_
    · rcases eq_or_ne j i with rfl | hj
      · rw [record_procs, hi', hi]
        simp
      · rw [record_procs, hstate j hj]
    · rcases eq_or_ne j i with rfl | hj
      · rw [record_procs, hi', hi]
        simp
      · rw [record_procs, hstate j hj]
    · rw [record_procs, setProc_procs]
      split_ifs
      · rfl
      · have hne : k' ≠ i := fun e => by
          have : (s.procs k').state = .running := (h.running.iff k').2 ⟨c', hk'⟩
          rw [e, hi] at this
          cases this
        rw [reap_procs, if_neg hne]
        exact h.user c' k' j hk' hj
  · have hstate : ∀ j, ((s.setProc k { s.procs k with point := .retry }).procs j).state =
        (s.procs j).state := setProc_keep rfl
    refine h.states (fun _ => rfl) (fun j => by rw [hstate]) (fun j => by rw [hstate])
      fun c' k' j hk' hj => ?_
    rw [setProc_procs]
    split_ifs with hkk
    · -- The CPU of `k` is in `sys_wait` and makes nothing.
      obtain rfl : c' = c := h.running.inj c' c k (hkk ▸ hk') hproc
      rw [hduty] at hj
      cases hj
    · exact h.user c' k' j hk' hj

/-- The section of `proc_alloc`, if there is an unused entry. -/
theorem CpusOk.procAlloc (h : CpusOk s) (hs : s.procAlloc c = some s') : CpusOk s' := by
  unfold State.procAlloc at hs
  split_ifs at hs with hc
  cases hf : s.firstUnused with
  | none =>
    rw [hf] at hs
    exact Option.some.inj hs ▸ h
  | some i =>
    rw [hf] at hs
    cases hs
    have hi := firstUnused_state hf
    refine h.change (i := i) (setCpu_cpus _ _ _) (fun j hj => ?_) (Or.inl ⟨rfl, ?_⟩)
      (Or.inr (Or.inl ⟨hc.1.makes, rfl, ?_, ?_⟩)) ?_ ?_ (fun k j hk hj => ?_) fun c' k _ _ hk => ?_
    · rw [record_procs, setCpu_procs, setProc_procs, if_neg hj]
    · rw [record_procs, setCpu_procs, setProc_procs, if_pos rfl, hi]
      simp
    · simp [hi]
    · rw [record_procs, setCpu_procs, setProc_procs, if_pos rfl]
    · simp
    · simp
    · rw [record_procs, setCpu_procs]
      exact (setProc_keep (f := Proc.point) (by rfl) k).trans (hc.1.user hk)
    · rw [record_procs, setCpu_procs]
      exact (setProc_keep (f := Proc.point) (by rfl) k).trans hk

/-- The CPU has made the entry `i`, or given it up. -/
theorem CpusOk.made (h : CpusOk s) (hi : (s.cpus c).duty.makes = some i)
    (hcpus : ∀ c', s'.cpus c' = if c' = c then (s.cpus c).back else s.cpus c')
    (hother : ∀ j, j ≠ i → s'.procs j = s.procs j)
    (hstate : (s'.procs i).state = .unused ∨ (s'.procs i).state = .runnable) : CpusOk s' := by
  have hemb : (s.procs i).state = .embryo := (h.embryo.iff i).2 ⟨c, hi⟩
  refine h.change (i := i) hcpus (fun j hj => by rw [hother j hj]) (Or.inl ⟨rfl, ?_⟩)
    (Or.inr (Or.inr ⟨hi, back_makes _, ?_⟩)) ?_ ?_ (fun k j _ hj => ?_) fun c' k _ hk hku => ?_
  · rw [hemb]
    rcases hstate with hst | hst <;> simp [hst]
  · rcases hstate with hst | hst <;> simp [hst]
  · unfold Cpu.back
    dsimp only
    split_ifs with hp
    · exact fun _ => hp
    · simp
  · unfold Cpu.back
    dsimp only
    split_ifs with hp
    · simp
    · exact fun _ => hp
  · rw [back_makes] at hj
    cases hj
  · have hki : k ≠ i := fun e => by
      have : (s.procs k).state = .running := (h.running.iff k).2 ⟨c', hk⟩
      rw [e, hemb] at this
      cases this
    rw [hother k hki]
    exact hku

/-- The CPU goes on making the entry `i`. -/
theorem CpusOk.making {d : Duty} (h : CpusOk s) (hi : (s.cpus c).duty.makes = some i)
    (hd : d.makes = some i)
    (hcpus : ∀ c', s'.cpus c' = if c' = c then ⟨(s.cpus c).proc, d⟩ else s.cpus c')
    (hstate : ∀ j, (s'.procs j).state = (s.procs j).state)
    (hpoint : ∀ j, (s'.procs j).point = (s.procs j).point) : CpusOk s' := by
  refine h.duty hcpus hstate hpoint (hd.trans hi.symm) (fun hc => ?_) fun hc => ?_
  · rcases hc with rfl | rfl <;> cases hd
  · rcases hc with rfl | rfl <;> cases hd

theorem CpusOk.allocStack {n : ℕ} (h : CpusOk s) (hs : s.allocStack c n = some s') :
    CpusOk s' := by
  unfold State.allocStack at hs
  split at hs
  case h_2 => cases hs
  case h_1 i hduty =>
    have hi : (s.cpus c).duty.makes = some i := by rw [hduty]; rfl
    split_ifs at hs
    · cases hs
      exact h.made hi (setCpu_cpus _ _ _)
        (fun j hj => by rw [setCpu_procs, setProc_procs, if_neg hj])
        (Or.inl (by rw [setCpu_procs, setProc_procs, if_pos rfl]))
    · cases hs
      refine h.making hi rfl (setCpu_cpus _ _ _) (setProc_keep rfl) (setProc_keep rfl)

theorem CpusOk.buildFail (h : CpusOk s) (hs : s.buildFail c = some s') : CpusOk s' := by
  unfold State.buildFail at hs
  split at hs
  case h_2 => cases hs
  case h_1 i hduty =>
    cases hs
    exact h.made (by rw [hduty]; rfl) (setCpu_cpus _ _ _)
      (fun j hj => by rw [setCpu_procs, setProc_procs, if_neg hj])
      (Or.inl (by rw [setCpu_procs, setProc_procs, if_pos rfl]))

theorem CpusOk.setParent (h : CpusOk s) (hs : s.setParent c = some s') : CpusOk s' := by
  unfold State.setParent at hs
  split at hs
  case h_2 => cases hs
  case h_1 i hduty =>
    cases hs
    refine h.making (by rw [hduty]; rfl) rfl (setCpu_cpus _ _ _) (setProc_keep rfl)
      (setProc_keep rfl)

theorem CpusOk.publish (h : CpusOk s) (hs : s.publish c = some s') : CpusOk s' := by
  unfold State.publish at hs
  split at hs
  case h_2 => cases hs
  case h_1 i hduty hlock =>
    cases hs
    exact h.made (by rw [hduty]; rfl) (setCpu_cpus _ _ _)
      (fun j hj => by rw [record_procs, setCpu_procs, setProc_procs, if_neg hj])
      (Or.inr (by rw [record_procs, setCpu_procs, setProc_procs, if_pos rfl]))

theorem yield_spec (hs : s.yield c = some s') :
    ∃ i, (s.cpus c).duty = .running ∧ (s.cpus c).proc = some i ∧ s.lock = none ∧
      s' = s.leave c i { s.procs i with
        state := .runnable
        point := if (s.procs i).point = .retry then .scan else (s.procs i).point } := by
  unfold State.yield at hs
  split at hs
  case h_2 => cases hs
  case h_1 i hduty hproc hlock => exact ⟨i, hduty, hproc, hlock, (Option.some.inj hs).symm⟩

theorem sysExit_spec {status : U32} (hs : s.sysExit c status = some s') :
    ∃ i, (s.cpus c).duty = .running ∧ (s.cpus c).proc = some i ∧ s.lock = none ∧
      (s.procs i).point = .user ∧
      s' = (s.leave c i { s.procs i with exitCode := status, state := .zombie }).record
        (.exit (s.procs i).pid status) := by
  unfold State.sysExit at hs
  split at hs
  case h_2 => cases hs
  case h_1 i hduty hproc hlock =>
    split_ifs at hs with hpoint
    exact ⟨i, hduty, hproc, hlock, hpoint, (Option.some.inj hs).symm⟩

theorem CpusOk.step {e : Event ι} (h : CpusOk s) (hs : s.step e = some s') : CpusOk s' := by
  cases e with
  | startScheduler c =>
    simp only [State.step] at hs
    split_ifs at hs with hduty
    cases hs
    have hnone := h.idle c (Or.inr hduty)
    refine h.duty (setCpu_cpus _ _ _) (fun _ => rfl) (fun _ => rfl) ?_ (fun _ => hnone) ?_
    · rw [hduty]
      rfl
    · simp
  | beginPass c =>
    simp only [State.step] at hs
    split_ifs at hs
    exact Option.some.inj hs ▸ h.setLock _
  | dispatch c i => exact h.dispatch hs
  | endPass c =>
    simp only [State.step] at hs
    split_ifs at hs
    exact Option.some.inj hs ▸ h.setLock _
  | resume c =>
    simp only [State.step] at hs
    split_ifs at hs with hduty
    cases hs
    refine CpusOk.setLock (h.duty (setCpu_cpus s c _) (fun _ => rfl) (fun _ => rfl) ?_ ?_
      fun _ => h.busy c (Or.inl hduty.1)) none
    · rw [hduty.1]
      rfl
    · simp
  | yield c =>
    obtain ⟨i, hduty, hproc, -, rfl⟩ := yield_spec hs
    exact h.leave hduty hproc (Or.inl rfl) fun hu => by simp [hu]
  | sysExit c status =>
    obtain ⟨i, hduty, hproc, -, -, rfl⟩ := sysExit_spec hs
    have hl := h.leave (p := { s.procs i with exitCode := status, state := .zombie }) hduty hproc
      (Or.inr rfl) fun hu => hu
    exact ⟨hl.running, hl.embryo, hl.idle, hl.busy, hl.user⟩
  | sysWait c stores => exact h.sysWait hs
  | procAlloc c => exact h.procAlloc hs
  | allocStack c stack => exact h.allocStack hs
  | buildFail c => exact h.buildFail hs
  | setParent c => exact h.setParent hs
  | publish c => exact h.publish hs

theorem cpusOk_init (bsp : ι) : CpusOk (init bsp) := by
  have hmakes : ∀ c, ((init bsp).cpus c).duty.makes = none := fun c => by
    simp only [init]
    split_ifs <;> rfl
  refine ⟨⟨fun i => ?_, ?_⟩, ⟨fun i => ?_, ?_⟩, fun _ _ => rfl, fun c hc => ?_, ?_⟩
  · simp [init]
  · intro c c' i hc
    cases hc
  · refine iff_of_false (by simp [init]) ?_
    rintro ⟨c, hc⟩
    rw [hmakes] at hc
    cases hc
  · intro c c' i hc
    rw [hmakes] at hc
    cases hc
  · simp only [init] at hc
    split_ifs at hc <;> simp at hc
  · intro c k i hk
    cases hk

/-! ## The kernel stacks -/

/-- The entry a CPU has a kernel stack for. -/
def withStack : Duty → Option (Fin maxProcs)
  | .building i | .ready i => some i
  | _ => none

/-- Who keeps a kernel stack : the process, or the CPU that makes one. -/
def ownStack (s : State ι) : Fin maxProcs ⊕ ι → Option ℕ
  | .inl i => if (s.procs i).state.hasSpace then some (s.procs i).kstack else none
  | .inr c => (withStack (s.cpus c).duty).map fun i => (s.procs i).kstack

/-- The stacks in use are allocated and apart. -/
def StacksOk (s : State ι) : Prop := Held s.ownStack s.liveStack

theorem ownStack_proc (h : (s.procs i).state.hasSpace = true) :
    s.ownStack (.inl i) = some (s.procs i).kstack := if_pos h

theorem ownStack_proc_eq_some {n : ℕ} : s.ownStack (.inl i) = some n ↔
    (s.procs i).state.hasSpace = true ∧ (s.procs i).kstack = n := by
  simp [ownStack]

theorem ownStack_cpu_eq_some {n : ℕ} : s.ownStack (.inr c) = some n ↔
    ∃ i, withStack (s.cpus c).duty = some i ∧ (s.procs i).kstack = n := by
  simp [ownStack]

theorem makes_of_withStack {d : Duty} (h : withStack d = some i) : d.makes = some i := by
  cases d <;> first | exact h | cases h

/-- A step in which no entry gets a stack. -/
theorem StacksOk.mono (h : StacksOk s) (hlive : s'.liveStack = s.liveStack)
    (hproc : ∀ i, (s'.procs i).state.hasSpace = true →
      (s.procs i).state.hasSpace = true ∧ (s'.procs i).kstack = (s.procs i).kstack)
    (hcpu : ∀ c i, withStack (s'.cpus c).duty = some i →
      withStack (s.cpus c).duty = some i ∧ (s'.procs i).kstack = (s.procs i).kstack) :
    StacksOk s' := by
  unfold StacksOk
  rw [hlive]
  refine Held.mono h fun o n ho => ?_
  cases o with
  | inl i =>
    obtain ⟨hi, hn⟩ := ownStack_proc_eq_some.1 ho
    obtain ⟨hi', hk⟩ := hproc i hi
    exact ownStack_proc_eq_some.2 ⟨hi', hk ▸ hn⟩
  | inr c =>
    obtain ⟨i, hi, hn⟩ := ownStack_cpu_eq_some.1 ho
    obtain ⟨hi', hk⟩ := hcpu c i hi
    exact ownStack_cpu_eq_some.2 ⟨i, hi', hk ▸ hn⟩

/-- A step of the CPU `c` on the entry `i` in which no entry gets a stack. -/
theorem StacksOk.change {x : Cpu} {p : Proc} (h : StacksOk s) (hlive : s'.liveStack = s.liveStack)
    (hprocs : ∀ j, s'.procs j = if j = i then p else s.procs j)
    (hcpus : ∀ c', s'.cpus c' = if c' = c then x else s.cpus c')
    (hp : p.state.hasSpace = true → (s.procs i).state.hasSpace = true)
    (hstack : p.kstack = (s.procs i).kstack)
    (hx : ∀ j, withStack x.duty = some j → withStack (s.cpus c).duty = some j) : StacksOk s' := by
  have hk : ∀ j, (s'.procs j).kstack = (s.procs j).kstack := fun j => by
    rw [hprocs]
    split_ifs with hj
    · rw [hj, hstack]
    · rfl
  refine h.mono hlive (fun j hj => ⟨?_, hk j⟩) fun c' j hj => ⟨?_, hk j⟩
  · rw [hprocs] at hj
    split_ifs at hj with hji
    · exact hji ▸ hp hj
    · exact hj
  · rw [hcpus] at hj
    split_ifs at hj with hc
    · exact hc ▸ hx j hj
    · exact hj

/-- The stack of the reaped child is given back. -/
theorem StacksOk.sysWait {b : Bool} (h : StacksOk s) (hc : CpusOk s)
    (hs : s.sysWait c b = some s') : StacksOk s' := by
  obtain ⟨k, hduty, hproc, -, -, ⟨i, hz, rfl⟩ | ⟨-, rfl⟩⟩ := sysWait_cases hs
  · have hi := (zombieChild_spec hz).1
    have hki : k ≠ i := fun e => by
      have := (hc.running.iff k).2 ⟨c, hproc⟩
      rw [e, hi] at this
      cases this
    have hne : ∀ j, j ≠ i → (((s.reap i).setProc k { s.procs k with point := .user }).procs j).kstack =
        (s.procs j).kstack := fun j hj => by
      rw [setProc_keep (f := Proc.kstack) (by rw [reap_procs, if_neg hki]) j, reap_procs, if_neg hj]
    refine Held.erase h (ownStack_proc (i := i) (by rw [hi]; rfl)) fun o n ho => ?_
    cases o with
    | inl j =>
      obtain ⟨hj, hn⟩ := ownStack_proc_eq_some.1 ho
      have hji : j ≠ i := fun e => by
        rw [record_procs, e, setProc_procs, if_neg hki.symm, reap_procs, if_pos rfl] at hj
        cases hj
      refine ⟨fun e => hji (Sum.inl.inj e), ownStack_proc_eq_some.2 ⟨?_, (hne j hji) ▸ hn⟩⟩
      rw [record_procs, setProc_keep (f := Proc.state) (by rw [reap_procs, if_neg hki]) j,
        reap_procs, if_neg hji] at hj
      exact hj
    | inr c' =>
      obtain ⟨j, hj, hn⟩ := ownStack_cpu_eq_some.1 ho
      have hji : j ≠ i := fun e => by
        have := (hc.embryo.iff j).2 ⟨c', makes_of_withStack hj⟩
        rw [e, hi] at this
        cases this
      exact ⟨Sum.inr_ne_inl, ownStack_cpu_eq_some.2 ⟨j, hj, (hne j hji) ▸ hn⟩⟩
  · refine h.mono rfl (fun j hj => ⟨?_, setProc_keep (f := Proc.kstack) (by rfl) j⟩)
      fun c' j hj => ⟨hj, setProc_keep (f := Proc.kstack) (by rfl) j⟩
    rwa [setProc_keep (f := Proc.state) (by rfl) j] at hj

theorem StacksOk.allocStack {n : ℕ} (h : StacksOk s) (hc : CpusOk s)
    (hs : s.allocStack c n = some s') : StacksOk s' := by
  unfold State.allocStack at hs
  split at hs
  case h_2 => cases hs
  case h_1 i hduty =>
    have hi : (s.cpus c).duty.makes = some i := by rw [hduty]; rfl
    have hemb : (s.procs i).state = .embryo := (hc.embryo.iff i).2 ⟨c, hi⟩
    have hother : ∀ c' j, c' ≠ c → withStack (s.cpus c').duty = some j →
        j ≠ i := fun c' j hcc hj e =>
      hcc (hc.embryo.inj c' c i (e ▸ makes_of_withStack hj) hi)
    split_ifs at hs with h0 hfree
    · cases hs
      refine h.mono rfl (fun j hj => ?_) fun c' j hj => ?_
      · rw [setCpu_procs, setProc_procs] at hj ⊢
        split_ifs at hj ⊢
        · cases hj
        · exact ⟨hj, rfl⟩
      · rw [setCpu_cpus] at hj
        split_ifs at hj with hcc
        · have hnone := makes_of_withStack hj
          rw [back_makes] at hnone
          cases hnone
        · rw [setCpu_procs, setProc_procs, if_neg (hother c' j hcc hj)]
          exact ⟨hj, rfl⟩
    · cases hs
      refine Held.insert h hfree fun o m ho => (?_ : o = .inr c ∧ m = n ∨ s.ownStack o = some m)
      cases o with
      | inl j =>
        obtain ⟨hj, hm⟩ := ownStack_proc_eq_some.1 ho
        rw [setCpu_procs, setProc_procs] at hj hm
        split_ifs at hj hm with hji
        · rw [hemb] at hj
          cases hj
        · exact Or.inr (ownStack_proc_eq_some.2 ⟨hj, hm⟩)
      | inr c' =>
        obtain ⟨j, hj, hm⟩ := ownStack_cpu_eq_some.1 ho
        rw [setCpu_cpus] at hj
        rw [setCpu_procs, setProc_procs] at hm
        split_ifs at hj with hcc
        · obtain rfl : i = j := Option.some.inj hj
          rw [if_pos rfl] at hm
          exact Or.inl ⟨by rw [hcc], hm.symm⟩
        · rw [if_neg (hother c' j hcc hj)] at hm
          exact Or.inr (ownStack_cpu_eq_some.2 ⟨j, hj, hm⟩)

/-- The CPU hands the stack to the process. -/
theorem StacksOk.publish (h : StacksOk s) (hs : s.publish c = some s') : StacksOk s' := by
  unfold State.publish at hs
  split at hs
  case h_2 => cases hs
  case h_1 i hduty _ =>
    cases hs
    refine Held.swap h (.inr c) (.inl i) fun o n ho => ?_
    cases o with
    | inl j =>
      obtain ⟨hj, hn⟩ := ownStack_proc_eq_some.1 ho
      rw [record_procs, setCpu_procs, setProc_procs] at hj hn
      split_ifs at hj hn with hji
      · rw [hji, Equiv.swap_apply_right]
        exact ownStack_cpu_eq_some.2 ⟨i, by rw [hduty]; rfl, hn⟩
      · rw [Equiv.swap_apply_of_ne_of_ne (by simp) (by simpa using hji)]
        exact ownStack_proc_eq_some.2 ⟨hj, hn⟩
    | inr c' =>
      obtain ⟨j, hj, hn⟩ := ownStack_cpu_eq_some.1 ho
      rw [record_cpus, setCpu_cpus] at hj
      rw [record_procs, setCpu_procs, setProc_keep (f := Proc.kstack) (by rfl) j] at hn
      split_ifs at hj with hcc
      · have hnone := makes_of_withStack hj
        rw [back_makes] at hnone
        cases hnone
      · rw [Equiv.swap_apply_of_ne_of_ne (by simpa using hcc) (by simp)]
        exact ownStack_cpu_eq_some.2 ⟨j, hj, hn⟩

theorem StacksOk.step {e : Event ι} (h : StacksOk s) (hc : CpusOk s) (hs : s.step e = some s') :
    StacksOk s' := by
  have hself : ∀ j, (s.procs j) = if j = 0 then s.procs 0 else s.procs j := fun j => by
    split_ifs with hj
    · rw [hj]
    · rfl
  cases e with
  | startScheduler c =>
    simp only [State.step] at hs
    split_ifs at hs
    cases hs
    exact h.change (i := 0) rfl hself (setCpu_cpus _ _ _) (fun hp => hp) rfl fun j hj => by cases hj
  | beginPass c =>
    simp only [State.step] at hs
    split_ifs at hs
    cases hs
    exact h
  | dispatch c i =>
    simp only [State.step, State.dispatch] at hs
    split_ifs at hs with hd
    cases hs
    exact h.change rfl (setProc_procs _ _ _) (setCpu_cpus _ _ _) (fun _ => by rw [hd.2.2]; rfl) rfl
      fun j hj => by cases hj
  | endPass c =>
    simp only [State.step] at hs
    split_ifs at hs
    cases hs
    exact h
  | resume c =>
    simp only [State.step] at hs
    split_ifs at hs
    cases hs
    exact h.change (i := 0) rfl hself (setCpu_cpus _ _ _) (fun hp => hp) rfl fun j hj => by cases hj
  | yield c =>
    obtain ⟨i, -, hproc, -, rfl⟩ := yield_spec hs
    have hi := (hc.running.iff i).2 ⟨c, hproc⟩
    exact h.change rfl (leave_procs _ _ _ _) (leave_cpus _ _ _ _) (fun _ => by rw [hi]; rfl) rfl
      fun j hj => by cases hj
  | sysExit c status =>
    obtain ⟨i, -, hproc, -, -, rfl⟩ := sysExit_spec hs
    have hi := (hc.running.iff i).2 ⟨c, hproc⟩
    exact h.change rfl (leave_procs s c i _) (leave_cpus s c i _)
      (fun _ => by rw [hi]; rfl) rfl fun j hj => by cases hj
  | sysWait c stores => exact h.sysWait hc hs
  | procAlloc c =>
    simp only [State.step, State.procAlloc] at hs
    split_ifs at hs
    split at hs
    · cases hs
      exact h
    · cases hs
      exact h.change (c := c) rfl (setProc_procs _ _ _) (setCpu_cpus _ _ _) (fun hp => by cases hp)
        rfl fun j hj => by cases hj
  | allocStack c stack => exact h.allocStack hc hs
  | buildFail c =>
    simp only [State.step, State.buildFail] at hs
    split at hs
    case h_2 => cases hs
    case h_1 i hduty =>
      cases hs
      refine h.change rfl (setProc_procs _ _ _) (setCpu_cpus _ _ _) (fun hp => by cases hp) rfl
        fun j hj => ?_
      have hnone := makes_of_withStack hj
      rw [back_makes] at hnone
      cases hnone
  | setParent c =>
    simp only [State.step, State.setParent] at hs
    split at hs
    case h_2 => cases hs
    case h_1 i hduty =>
      cases hs
      exact h.change rfl (setProc_procs _ _ _) (setCpu_cpus _ _ _) (fun hp => hp) rfl
        fun j hj => hduty ▸ hj
  | publish c => exact h.publish hs

theorem stacksOk_init (bsp : ι) : StacksOk (init bsp) := by
  have hnone : ∀ o n, (init bsp).ownStack o ≠ some n := by
    rintro (i | c) n ho
    · obtain ⟨hi, -⟩ := ownStack_proc_eq_some.1 ho
      cases hi
    · obtain ⟨i, hi, -⟩ := ownStack_cpu_eq_some.1 ho
      simp only [init] at hi
      split_ifs at hi <;> cases hi
  exact ⟨fun o n ho => absurd ho (hnone o n), fun o o' n ho => absurd ho (hnone o n)⟩

/-! ## Runs -/

/-- The invariant of runs. -/
structure LifeOk (s : State ι) : Prop where
  cpu : CpusOk s
  stack : StacksOk s

theorem LifeOk.step {e : Event ι} (h : LifeOk s) (hs : s.step e = some s') : LifeOk s' :=
  ⟨h.cpu.step hs, h.stack.step h.cpu hs⟩

theorem lifeOk_of_run {bsp : ι} {es : List (Event ι)}
    (hr : Run.run step (init bsp) es = some s) : LifeOk s :=
  Run.run_invariant (fun _ _ _ h hs => h.step hs) ⟨cpusOk_init bsp, stacksOk_init bsp⟩ hr

/-- Stacks are allocated in `proc_alloc` and freed in `sys_wait`, with the child reaped. -/
theorem step_liveStack {e : Event ι} (hs : s.step e = some s') :
    s'.liveStack = s.liveStack ∨ (∃ n, s'.liveStack = Function.update s.liveStack n true) ∨
      ∃ i, (s.procs i).state = .zombie ∧
        s'.liveStack = Function.update s.liveStack (s.procs i).kstack false := by
  cases e with
  | sysWait c stores =>
    obtain ⟨k, -, -, -, -, ⟨i, hz, rfl⟩ | ⟨-, rfl⟩⟩ := sysWait_cases hs
    · exact Or.inr (Or.inr ⟨i, (zombieChild_spec hz).1, rfl⟩)
    · exact Or.inl rfl
  | allocStack c n =>
    simp only [State.step, State.allocStack] at hs
    split at hs
    case h_2 => cases hs
    case h_1 i hduty =>
      split_ifs at hs
      · cases hs
        exact Or.inl rfl
      · cases hs
        exact Or.inr (Or.inl ⟨n, rfl⟩)
  | yield c =>
    obtain ⟨i, -, -, -, rfl⟩ := yield_spec hs
    exact Or.inl rfl
  | sysExit c status =>
    obtain ⟨i, -, -, -, -, rfl⟩ := sysExit_spec hs
    exact Or.inl rfl
  | procAlloc c =>
    simp only [State.step, State.procAlloc] at hs
    split_ifs at hs
    split at hs <;> cases hs <;> exact Or.inl rfl
  | startScheduler c | beginPass c | endPass c | resume c =>
    simp only [State.step] at hs
    split_ifs at hs
    cases hs
    exact Or.inl rfl
  | dispatch c i =>
    simp only [State.step, State.dispatch] at hs
    split_ifs at hs
    cases hs
    exact Or.inl rfl
  | buildFail c | setParent c | publish c =>
    simp only [State.step, State.buildFail, State.setParent, State.publish] at hs
    split at hs <;> cases hs
    exact Or.inl rfl

end State

end ProcLife

end Jeos
