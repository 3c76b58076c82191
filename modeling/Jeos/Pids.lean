import Jeos.Orphans

/-!
# Process numbers

`proc_alloc` takes the number of a process from a 32-bit counter that it only counts up, and
`proc_fork` returns it as an `i32`. The counter wraps, and then it gives out 0, numbers of processes
that still exist, and numbers that are negative as an `i32`.

In every state of a run the processes have different numbers, none of them 0, and every `proc_fork`
has returned a positive one, if and only if every `proc_alloc` finds the counter at a number that is
not 0 and not in use, and every `proc_fork` makes a process with a number below `2 ^ 31`; this is so
in a run that gives out less than `2 ^ 31` numbers (`pids_ok_iff`). A process that forks a child and
waits for it gets to a negative one, with no more than two processes at any time (`negative_pid`).
-/

namespace Jeos

namespace ProcLife

namespace State

set_option linter.unusedSectionVars false

variable {ι : Type*} [DecidableEq ι] {s s' : State ι} {c c' : ι} {i j k : Fin maxProcs} {e : Event ι}

/-- The processes have different numbers other than 0, and every `proc_fork` so far has returned a
positive one. -/
structure PidsOk (s : State ι) : Prop where
  ne_zero : ∀ i, (s.procs i).state ≠ .unused → (s.procs i).pid ≠ 0
  distinct : ∀ i j, (s.procs i).state ≠ .unused → (s.procs j).state ≠ .unused →
    (s.procs i).pid = (s.procs j).pid → i = j
  positive : ∀ parent pid i, .fork parent pid i ∈ s.log → 0 < pid.toInt

/-- The counter is at a number that is not 0 and not in use, when a process gets it; and a process
that `proc_fork` has made has a number below `2 ^ 31`. -/
def PidFree (s : State ι) : Event ι → Prop
  | .procAlloc _ => s.firstUnused ≠ none →
      s.nextPid ≠ 0 ∧ ∀ j, (s.procs j).state ≠ .unused → (s.procs j).pid ≠ s.nextPid
  | .publish c => ∀ i k, (s.cpus c).duty = .ready i → (s.cpus c).proc = some k →
      (s.procs i).pid.toNat < 2 ^ 31
  | _ => True

/-! ## What a step changes -/

theorem unused_of_setProc {p : Proc} (hprocs : ∀ j, s'.procs j = if j = i then p else s.procs j)
    (hi : (s.procs i).state ≠ .unused) (hj : (s.procs j).state = .unused) :
    (s'.procs j).state = .unused := by
  rw [hprocs, if_neg]
  · exact hj
  · rintro rfl
    exact hi hj

/-- Only `proc_alloc` takes an entry that is unused. -/
theorem unused_stays (hc : CpusOk s) (hs : s.step e = some s') (he : ∀ c, e ≠ .procAlloc c)
    (hj : (s.procs j).state = .unused) : (s'.procs j).state = .unused := by
  have hrunning : ∀ {c i}, (s.cpus c).proc = some i → (s.procs i).state ≠ .unused := fun h => by
    rw [(hc.running.iff _).2 ⟨_, h⟩]
    exact ProcState.noConfusion
  have hembryo : ∀ {c i}, (s.cpus c).duty.makes = some i → (s.procs i).state ≠ .unused := fun h => by
    rw [(hc.embryo.iff _).2 ⟨_, h⟩]
    exact ProcState.noConfusion
  cases e with
  | startScheduler c | beginPass c | endPass c | resume c =>
    simp only [State.step] at hs
    split_ifs at hs
    cases hs
    exact hj
  | dispatch c i =>
    simp only [State.step, State.dispatch] at hs
    split_ifs at hs with hd
    cases hs
    exact unused_of_setProc (setProc_procs _ _ _) (by rw [hd.2.2]; exact ProcState.noConfusion) hj
  | yield c =>
    obtain ⟨i, -, hproc, -, rfl⟩ := yield_spec hs
    exact unused_of_setProc (leave_procs _ _ _ _) (hrunning hproc) hj
  | sysExit c status =>
    obtain ⟨i, -, hproc, -, -, rfl⟩ := sysExit_spec hs
    exact unused_of_setProc (leave_procs s c i _) (hrunning hproc) hj
  | sysWait c stores =>
    obtain ⟨k, -, hproc, -, -, ⟨i, hz, rfl⟩ | ⟨-, rfl⟩⟩ := sysWait_cases hs
    · rw [record_procs]
      refine unused_of_setProc (s := s.reap i) (setProc_procs _ _ _) ?_ ?_
      · rw [reap_procs, if_neg]
        · exact hrunning hproc
        · rintro rfl
          have hk := (hc.running.iff _).2 ⟨c, hproc⟩
          rw [(zombieChild_spec hz).1] at hk
          cases hk
      · rw [reap_procs]
        split_ifs
        · rfl
        · exact hj
    · exact unused_of_setProc (setProc_procs _ _ _) (hrunning hproc) hj
  | procAlloc c => exact absurd rfl (he c)
  | allocStack c stack =>
    simp only [State.step, State.allocStack] at hs
    split at hs
    case h_2 => cases hs
    case h_1 i hduty =>
      have hi := hembryo (c := c) (i := i) (by rw [hduty]; rfl)
      split_ifs at hs
      · cases hs
        exact unused_of_setProc (setProc_procs _ _ _) hi hj
      · cases hs
        exact unused_of_setProc (setProc_procs _ _ _) hi hj
  | buildFail c =>
    simp only [State.step, State.buildFail] at hs
    split at hs
    case h_2 => cases hs
    case h_1 i hduty =>
      cases hs
      exact unused_of_setProc (setProc_procs _ _ _) (hembryo (c := c) (by rw [hduty]; rfl)) hj
  | setParent c =>
    simp only [State.step, State.setParent] at hs
    split at hs
    case h_2 => cases hs
    case h_1 i hduty =>
      cases hs
      exact unused_of_setProc (setProc_procs _ _ _) (hembryo (c := c) (by rw [hduty]; rfl)) hj
  | publish c =>
    simp only [State.step, State.publish] at hs
    split at hs
    case h_2 => cases hs
    case h_1 i hduty hlock =>
      cases hs
      exact unused_of_setProc (setProc_procs _ _ _) (hembryo (c := c) (by rw [hduty]; rfl)) hj

/-- No other step changes the number of a process. -/
theorem pid_stays (hc : CpusOk s) (hs : s.step e = some s') (he : ∀ c, e ≠ .procAlloc c)
    (hj : (s'.procs j).state ≠ .unused) :
    (s.procs j).state ≠ .unused ∧ (s'.procs j).pid = (s.procs j).pid := by
  refine ⟨fun hu => hj (unused_stays hc hs he hu), ?_⟩
  cases step_entry hc hs j with
  | same h => rw [h]
  | allocated hu => exact absurd (unused_stays hc hs he hu) hj
  | embryo _ _ hpid => exact hpid
  | published _ _ hpid => exact hpid
  | scheduled _ _ hpid => exact hpid
  | exited _ _ _ hpid => exact hpid
  | reaped _ hq => exact absurd hq hj

theorem procAlloc_spec (hs : s.procAlloc c = some s') :
    s.firstUnused = none ∧ s' = s ∨ ∃ i, s.firstUnused = some i ∧
      (∀ j, s'.procs j = if j = i then { s.procs i with pid := s.nextPid, state := .embryo }
        else s.procs j) ∧ s'.log = s.log ++ [.alloc i s.nextPid] := by
  unfold State.procAlloc at hs
  split_ifs at hs
  split at hs
  case h_1 hf => exact Or.inl ⟨hf, (Option.some.inj hs).symm⟩
  case h_2 i hf =>
    cases hs
    exact Or.inr ⟨i, hf, setProc_procs _ _ _, rfl⟩

/-- A fork gets into the log when the new process gets runnable. -/
theorem fork_logged (hs : s.step e = some s') {parent pid : U32} (h : .fork parent pid i ∈ s'.log) :
    .fork parent pid i ∈ s.log ∨ ∃ c k, e = .publish c ∧ (s.cpus c).duty = .ready i ∧
      (s.cpus c).proc = some k ∧ pid = (s.procs i).pid := by
  have hsnoc : ∀ {x : Entry}, s'.log = s.log ++ [x] → (∀ p q j, x ≠ .fork p q j) →
      .fork parent pid i ∈ s.log := fun hlog hx => by
    rw [hlog] at h
    rcases List.mem_append.1 h with h | h
    · exact h
    · exact absurd (List.mem_singleton.1 h).symm (hx _ _ _)
  cases e with
  | startScheduler c | beginPass c | endPass c | resume c =>
    simp only [State.step] at hs
    split_ifs at hs
    cases hs
    exact Or.inl h
  | dispatch c i =>
    simp only [State.step, State.dispatch] at hs
    split_ifs at hs with hd
    cases hs
    exact Or.inl h
  | yield c =>
    obtain ⟨i, -, -, -, rfl⟩ := yield_spec hs
    exact Or.inl h
  | sysExit c status =>
    obtain ⟨i, -, -, -, -, rfl⟩ := sysExit_spec hs
    exact Or.inl (hsnoc (record_log _ _) fun _ _ _ => Entry.noConfusion)
  | sysWait c stores =>
    obtain ⟨k, -, -, -, -, ⟨i, -, rfl⟩ | ⟨-, rfl⟩⟩ := sysWait_cases hs
    · exact Or.inl (hsnoc (record_log _ _) fun _ _ _ => Entry.noConfusion)
    · exact Or.inl h
  | procAlloc c =>
    rcases procAlloc_spec hs with ⟨-, rfl⟩ | ⟨j, -, -, hlog⟩
    · exact Or.inl h
    · exact Or.inl (hsnoc hlog fun _ _ _ => Entry.noConfusion)
  | allocStack c stack =>
    simp only [State.step, State.allocStack] at hs
    split at hs
    case h_2 => cases hs
    case h_1 i hduty =>
      split_ifs at hs
      · cases hs
        exact Or.inl h
      · cases hs
        exact Or.inl h
  | buildFail c =>
    simp only [State.step, State.buildFail] at hs
    split at hs
    case h_2 => cases hs
    case h_1 =>
      cases hs
      exact Or.inl h
  | setParent c =>
    simp only [State.step, State.setParent] at hs
    split at hs
    case h_2 => cases hs
    case h_1 =>
      cases hs
      exact Or.inl h
  | publish c =>
    simp only [State.step, State.publish] at hs
    split at hs
    case h_2 => cases hs
    case h_1 i' hduty hlock =>
      cases hs
      rcases hproc : (s.cpus c).proc with _ | k
      · refine Or.inl (hsnoc (x := .create (s.procs i').pid i') ?_ fun _ _ _ => Entry.noConfusion)
        rw [record_log, hproc]
        rfl
      · rw [record_log, hproc] at h
        rcases List.mem_append.1 h with h | h
        · exact Or.inl h
        · obtain ⟨-, rfl, rfl⟩ := Entry.fork.inj (List.mem_singleton.1 h)
          exact Or.inr ⟨c, k, rfl, hduty, hproc, rfl⟩

/-- The fork that `publish` records. -/
theorem publish_logs (hs : s.step (.publish c) = some s') (hduty : (s.cpus c).duty = .ready i)
    (hproc : (s.cpus c).proc = some k) : .fork (s.procs k).pid (s.procs i).pid i ∈ s'.log := by
  simp only [State.step, State.publish, hduty] at hs
  split at hs
  case h_2 => cases hs
  case h_1 i' hd hlock =>
    cases hs
    rw [record_log, hproc, ← Duty.ready.inj hd]
    exact List.mem_append_right _ (List.mem_singleton.2 rfl)

/-! ## Runs -/

theorem toInt_pos_iff {p : U32} (hp : p ≠ 0) : 0 < p.toInt ↔ p.toNat < 2 ^ 31 := by
  have hne : p.toNat ≠ 0 := fun h => hp (BitVec.eq_of_toNat_eq h)
  have hlt := p.isLt
  rw [BitVec.toInt_eq_toNat_cond]
  split <;> omega

/-- A `proc_alloc` that finds its number free. -/
theorem PidsOk.procAlloc (h : PidsOk s) (hfree : s.PidFree (.procAlloc c))
    (hs : s.procAlloc c = some s') : PidsOk s' := by
  rcases procAlloc_spec hs with ⟨-, rfl⟩ | ⟨i, hf, hprocs, hlog⟩
  · exact h
  obtain ⟨hzero, hnew⟩ := hfree fun hn => Option.some_ne_none i (hf.symm.trans hn)
  -- the number of an entry that is not the new one
  have hold : ∀ {j}, j ≠ i → s'.procs j = s.procs j := fun hj => by rw [hprocs, if_neg hj]
  have hpid : (s'.procs i).pid = s.nextPid := by rw [hprocs, if_pos rfl]
  have hne : ∀ {j}, j ≠ i → (s'.procs j).state ≠ .unused → (s'.procs j).pid ≠ (s'.procs i).pid := by
    intro j hj hstate
    rw [hpid, hold hj]
    exact hnew j (by rwa [← hold hj])
  refine ⟨fun j hj => ?_, fun j k hj hk hjk => ?_, fun parent pid j hmem => ?_⟩
  · by_cases hji : j = i
    · rw [hji, hpid]
      exact hzero
    · rw [hold hji] at hj ⊢
      exact h.ne_zero j hj
  · by_cases hji : j = i
    · by_contra hne'
      exact hne (fun hki => hne' (hji.trans hki.symm)) hk (hji ▸ hjk.symm)
    · by_cases hki : k = i
      · exact absurd (hki ▸ hjk) (hne hji hj)
      · rw [hold hji] at hj hjk
        rw [hold hki] at hk hjk
        exact h.distinct j k hj hk hjk
  · rw [hlog] at hmem
    rcases List.mem_append.1 hmem with hmem | hmem
    · exact h.positive parent pid j hmem
    · exact absurd (List.mem_singleton.1 hmem) Entry.noConfusion

/-- A step that meets the condition keeps the numbers right. -/
theorem PidsOk.step (h : PidsOk s) (hc : CpusOk s) (hfree : s.PidFree e)
    (hs : s.step e = some s') : PidsOk s' := by
  by_cases he : ∃ c, e = .procAlloc c
  · obtain ⟨c, rfl⟩ := he
    exact h.procAlloc hfree hs
  have hstays := fun j => pid_stays (j := j) hc hs fun c hec => he ⟨c, hec⟩
  refine ⟨fun i hi => ?_, fun i j hi hj hij => ?_, fun parent pid i hmem => ?_⟩
  · obtain ⟨hu, hpid⟩ := hstays i hi
    exact hpid ▸ h.ne_zero i hu
  · obtain ⟨hu, hpid⟩ := hstays i hi
    obtain ⟨hu', hpid'⟩ := hstays j hj
    exact h.distinct i j hu hu' (hpid ▸ hpid' ▸ hij)
  · rcases fork_logged hs hmem with hmem | ⟨c, k, rfl, hduty, hproc, rfl⟩
    · exact h.positive parent pid i hmem
    · have hi := (hc.embryo.iff i).2 ⟨c, by rw [hduty]; rfl⟩
      have hu : (s.procs i).state ≠ .unused := by
        rw [hi]
        exact ProcState.noConfusion
      exact (toInt_pos_iff (h.ne_zero i hu)).2 (hfree i k hduty hproc)

/-- A step that does not meet the condition shows in the next state. -/
theorem not_pidsOk_of_step (h : PidsOk s) (hc : CpusOk s) (hfree : ¬s.PidFree e)
    (hs : s.step e = some s') : ¬PidsOk s' := by
  intro h'
  refine hfree ?_
  cases e with
  | procAlloc c =>
    intro hnone
    rcases procAlloc_spec hs with ⟨hf, -⟩ | ⟨i, hf, hprocs, -⟩
    · exact absurd hf hnone
    have hi : (s'.procs i).state ≠ .unused := by
      rw [hprocs, if_pos rfl]
      exact ProcState.noConfusion
    have hpid : (s'.procs i).pid = s.nextPid := by rw [hprocs, if_pos rfl]
    refine ⟨hpid ▸ h'.ne_zero i hi, fun j hj hjn => ?_⟩
    have hji : j ≠ i := by
      rintro rfl
      exact hj (firstUnused_state hf)
    have hold : s'.procs j = s.procs j := by rw [hprocs, if_neg hji]
    exact hji (h'.distinct j i (hold ▸ hj) hi (by rw [hold, hpid, hjn]))
  | publish c =>
    intro i k hduty hproc
    have hi := (hc.embryo.iff i).2 ⟨c, by rw [hduty]; rfl⟩
    have hu : (s.procs i).state ≠ .unused := by
      rw [hi]
      exact ProcState.noConfusion
    exact (toInt_pos_iff (h.ne_zero i hu)).1 (h'.positive _ _ _ (publish_logs hs hduty hproc))
  | _ => trivial

/-- While less than `2 ^ 31` numbers have been given out. -/
theorem WaitOk.pidsOk (h : WaitOk s) (hb : s.issued < 2 ^ 31) : PidsOk s := by
  have hr := h.report hb
  have hne : ∀ {p : U32}, 0 < p.toNat → p ≠ 0 := fun hp h0 => by
    rw [h0] at hp
    exact absurd hp (Nat.lt_irrefl 0)
  refine ⟨fun i hi => hne (hr.pidRange i hi).1, hr.pidInj, fun parent pid i hmem => ?_⟩
  obtain ⟨hpos, hlt⟩ := hr.logRange _ hmem
  have hnext := hr.next
  exact (toInt_pos_iff (hne hpos)).2 (show pid.toNat < 2 ^ 31 from hlt.trans_le (by omega))

theorem pidsOk_init (bsp : ι) : PidsOk (init bsp) :=
  ⟨fun _ hi => absurd rfl hi, fun _ _ hi => absurd rfl hi, fun _ _ _ h => absurd h List.not_mem_nil⟩

/-- In a run whose end has given out less than `2 ^ 31` numbers, all states have. -/
theorem always_pidsOk {es : List (Event ι)} (h : WaitOk s) (hr : Run.run step s es = some s')
    (hb : s'.issued < 2 ^ 31) : Run.Always step PidsOk s es := by
  induction es generalizing s with
  | nil =>
    obtain rfl := Option.some.inj hr
    exact h.pidsOk hb
  | cons e es ih =>
    obtain ⟨u, hu, hr'⟩ := Option.bind_eq_some_iff.1 hr
    have hmono : s.issued ≤ s'.issued := Run.run_invariant (I := fun t => s.issued ≤ t.issued)
      (fun _ _ _ h hs => h.trans (issued_mono hs)) le_rfl hr
    refine ⟨h.pidsOk (hmono.trans_lt hb), fun t ht => ?_⟩
    obtain rfl := Option.some.inj (ht.symm.trans hu)
    exact ih (h.step hu) hr'

/-- From boot on, on any number of CPUs and in any interleaving : the numbers of the processes are
right in every state, and so is what `proc_fork` returns, if and only if every step meets the
condition. It does when less than `2 ^ 31` numbers have been given out. -/
theorem pids_ok_iff {bsp : ι} {es : List (Event ι)} (hr : Run.run step (init bsp) es = some s) :
    (Run.EachStep step PidFree (init bsp) es ↔ Run.Always step PidsOk (init bsp) es) ∧
      (s.issued < 2 ^ 31 → Run.EachStep step PidFree (init bsp) es) := by
  have hiff := Run.eachStep_iff_always (I := fun t => CpusOk t ∧ PidsOk t) (P := PidsOk)
    (C := PidFree) (G := fun _ => True)
    (fun t e t' h _ hfree hs => ⟨h.1.step hs, h.2.step h.1 hfree hs⟩) (fun t h => h.2)
    (fun t e t' h _ hfree hs => not_pidsOk_of_step h.2 h.1 hfree hs)
    ⟨cpusOk_init bsp, pidsOk_init bsp⟩ (fun _ _ => trivial) hr
  have hwait : WaitOk (init bsp) := waitOk_of_run (Run.run_nil step _)
  exact ⟨hiff, fun hb => hiff.2 (always_pidsOk hwait hr hb)⟩

/-! ## A run to a negative number -/

/-- The first process in user code on CPU 0, `p` in the entry of its child, and CPU 1 idle. -/
def forking (n : U32) (p : Proc) (log : List Entry) (issued : ℕ) : State (Fin 2) where
  procs := fun i => if i = 0 then ⟨1, 0, .running, 0, 1, .user⟩ else
    if i = 1 then p else ⟨0, 0, .unused, 0, 0, .user⟩
  cpus := fun c => if c = 0 then ⟨some 0, .running⟩ else ⟨none, .scheduler⟩
  lock := none
  nextPid := n
  liveStack := fun k => k = 1
  log := log
  issued := issued

/-- From boot to the first process in user code. -/
def bootUser : List (Event (Fin 2)) :=
  [.procAlloc 0, .allocStack 0 1, .setParent 0, .publish 0, .startScheduler 0, .beginPass 0,
    .dispatch 0 0, .resume 0]

/-- Fork a child that exits on CPU 1, and wait for it. -/
def forkExitWait : List (Event (Fin 2)) :=
  [.procAlloc 0, .allocStack 0 2, .setParent 0, .publish 0, .beginPass 1, .dispatch 1 1, .resume 1,
    .sysExit 1 0, .endPass 1, .sysWait 0 true]

attribute [ext] State

theorem run_bootUser : Run.run step (init 0) bootUser =
    some (forking 2 ⟨0, 0, .unused, 0, 0, .user⟩ [.alloc 0 1, .create 1 0] 1) := by
  refine (show Run.run step (init 0) bootUser = some _ from rfl).trans (congrArg some ?_)
  ext1
  · funext i
    by_cases h0 : i = 0
    · subst h0
      rfl
    simp [forking, init, setProc, setCpu, setStack, record, Function.update, h0]
  · funext c
    revert c
    exact Fin.forall_fin_two.2 ⟨rfl, rfl⟩
  · rfl
  · rfl
  · funext k
    by_cases hk : k = 1
    · subst hk
      rfl
    simp [forking, init, setProc, setCpu, setStack, record, Function.update, hk]
  · rfl
  · rfl

theorem run_forkExitWait (n : U32) {p : Proc} (hp : p.state = .unused) (log : List Entry) (k : ℕ) :
    Run.run step (forking n p log k) forkExitWait =
      some (forking (n + 1) ⟨n, 1, .unused, 0, 0, .user⟩
        (log ++ [.alloc 1 n] ++ [.fork 1 n 1] ++ [.exit n 0] ++ [.wait 1 n (some 0)]) (k + 1)) := by
  obtain ⟨pid, ppid, state, exitCode, kstack, point⟩ := p
  obtain rfl : state = .unused := hp
  refine (show Run.run step (forking n ⟨pid, ppid, .unused, exitCode, kstack, point⟩ log k)
    forkExitWait = some _ from rfl).trans (congrArg some ?_)
  ext1
  · funext i
    by_cases h0 : i = 0
    · subst h0
      rfl
    by_cases h1 : i = 1
    · subst h1
      rfl
    simp [forking, setProc, setCpu, setStack, record, reap, leave, Function.update, h0, h1]
  · funext c
    match c with
    | 0 => rfl
    | 1 => rfl
  · rfl
  · rfl
  · funext j
    by_cases hj : j = 2
    · subst hj
      rfl
    simp [forking, setProc, setCpu, setStack, record, reap, leave, Function.update, hj]
  · rfl
  · rfl

/-- One more child at the end of a run. -/
theorem run_append_forkExitWait {es : List (Event (Fin 2))} {n : U32} {p : Proc} {log : List Entry}
    {k : ℕ} (hr : Run.run step (init 0) es = some (forking n p log k)) (hp : p.state = .unused) :
    Run.run step (init 0) (es ++ forkExitWait) =
      some (forking (n + 1) ⟨n, 1, .unused, 0, 0, .user⟩
        (log ++ [.alloc 1 n] ++ [.fork 1 n 1] ++ [.exit n 0] ++ [.wait 1 n (some 0)]) (k + 1)) := by
  rw [Run.run_append, hr, Option.bind_some, run_forkExitWait n hp]

/-- The first process and its child. -/
theorem pids_ok_iff_child :
    ∃ s, Run.run step (init 0) (bootUser ++ forkExitWait) = some s ∧ s.issued = 2 ∧
      (Run.EachStep step PidFree (init 0) (bootUser ++ forkExitWait) ↔
        Run.Always step PidsOk (init 0) (bootUser ++ forkExitWait)) ∧
      (s.issued < 2 ^ 31 → Run.EachStep step PidFree (init 0) (bootUser ++ forkExitWait)) :=
  have hr := run_append_forkExitWait run_bootUser rfl
  ⟨_, hr, rfl, pids_ok_iff hr⟩

/-- After any number of children, the next one gets the next number. -/
theorem exists_run_forking (n : ℕ) : ∃ es p log k, p.state = .unused ∧
    Run.run step (init (0 : Fin 2)) es = some (forking (2 + BitVec.ofNat 32 n) p log k) := by
  induction n with
  | zero => exact ⟨bootUser, _, _, _, rfl, run_bootUser⟩
  | succ n ih =>
    obtain ⟨es, p, log, k, hp, hr⟩ := ih
    have hn : 2 + BitVec.ofNat 32 (n + 1) = 2 + BitVec.ofNat 32 n + 1 := by
      rw [BitVec.ofNat_add, BitVec.add_assoc]
      rfl
    rw [hn]
    exact ⟨_, _, _, _, rfl, run_append_forkExitWait hr hp⟩

/-- The `2 ^ 31`-th process is a child whose parent gets a negative number from `proc_fork`. -/
theorem negative_pid : ¬∀ (es : List (Event (Fin 2))) (s : State (Fin 2)),
    Run.run step (init 0) es = some s → PidsOk s := by
  intro hall
  obtain ⟨es, p, log, k, hp, hr⟩ := exists_run_forking (2 ^ 31 - 2)
  have hok := hall _ _ (run_append_forkExitWait hr hp)
  have hpos := hok.positive 1 (2 + BitVec.ofNat 32 (2 ^ 31 - 2)) 1 (by
    simp only [forking, List.mem_append, List.mem_singleton, or_true, true_or])
  exact absurd hpos (by decide)

end State

end ProcLife

end Jeos
