import Jeos.ProcLifeSpec

/-!
# Exit and wait

`ReportOk` relates the table to the log : a running process was made in its entry and has not
exited, a zombie has exited with the code in its entry and nobody has waited for it, and the
entries that are in use have different pids. It is kept while fewer than 2^31 pids are issued.
So a `sys_wait` returns a child of its process that has exited, with the status of the child,
and no child twice (`exit_wait_protocol`).
-/

namespace Jeos

namespace ProcLife

open History

/-- The entry of the log makes process `pid` in entry `i`. -/
def Entry.Makes (i : Fin maxProcs) (pid : U32) : Entry → Prop
  | .create q j => q = pid ∧ j = i
  | .fork _ q j => q = pid ∧ j = i
  | _ => False

/-- What an entry of the log says about the entries before it. -/
def Entry.Sound (past : List Entry) : Entry → Prop
  | .wait parent pid stored =>
    (∃ i, .fork parent pid i ∈ past) ∧
      (∃ status, .exit pid status ∈ past ∧ ∀ x, stored = some x → x = status) ∧
      ∀ parent' stored', .wait parent' pid stored' ∉ past
  | .exit pid _ => ∀ status, .exit pid status ∉ past
  | .alloc i _ => ∀ pid, (∃ e ∈ past, e.Makes i pid) → ∃ parent stored, .wait parent pid stored ∈ past
  | _ => True

namespace State

set_option linter.unusedSectionVars false

variable {ι : Type*} [DecidableEq ι] {s s' : State ι} {c c' : ι} {i j k : Fin maxProcs}

/-- The process in entry `i` was made by `proc_create`, or by `proc_fork` in its parent. -/
def Published (s : State ι) (i : Fin maxProcs) : Prop :=
  (s.procs i).ppid = 0 ∧ .create (s.procs i).pid i ∈ s.log ∨
    .fork (s.procs i).ppid (s.procs i).pid i ∈ s.log

/-- Nobody has waited for the process. -/
def Unreported (s : State ι) (pid : U32) : Prop :=
  ∀ parent stored, .wait parent pid stored ∉ s.log

/-- The table and the log agree. -/
structure ReportOk (s : State ι) : Prop where
  next : s.nextPid.toNat = s.issued + 1
  pidRange : ∀ i, (s.procs i).state ≠ .unused →
    0 < (s.procs i).pid.toNat ∧ (s.procs i).pid.toNat < s.nextPid.toNat
  pidInj : ∀ i j, (s.procs i).state ≠ .unused → (s.procs j).state ≠ .unused →
    (s.procs i).pid = (s.procs j).pid → i = j
  logRange : ∀ e ∈ s.log, 0 < e.pid.toNat ∧ e.pid.toNat < s.nextPid.toNat
  parentRange : ∀ parent pid i, .fork parent pid i ∈ s.log → parent.toNat < s.nextPid.toNat
  embryo : ∀ i, (s.procs i).state = .embryo → ∀ e ∈ s.log, e.pid = (s.procs i).pid →
    e = .alloc i (s.procs i).pid
  alive : ∀ i, (s.procs i).state.alive = true → s.Published i ∧
    (∀ status, .exit (s.procs i).pid status ∉ s.log) ∧ s.Unreported (s.procs i).pid
  zombie : ∀ i, (s.procs i).state = .zombie → s.Published i ∧
    .exit (s.procs i).pid (s.procs i).exitCode ∈ s.log ∧ s.Unreported (s.procs i).pid
  ready : ∀ c i, (s.cpus c).duty = .ready i → (s.procs i).ppid = s.parentPid c
  made : ∀ i pid, (∃ e ∈ s.log, e.Makes i pid) →
    (∃ parent stored, .wait parent pid stored ∈ s.log) ∨
      (s.procs i).state.hasSpace = true ∧ (s.procs i).pid = pid
  sound : Each (fun past e => e.Sound past) s.log

theorem parentPid_congr (hproc : (s'.cpus c).proc = (s.cpus c).proc)
    (hpid : ∀ k, (s.cpus c).proc = some k → (s'.procs k).pid = (s.procs k).pid) :
    s'.parentPid c = s.parentPid c := by
  unfold parentPid
  rw [hproc]
  cases hk : (s.cpus c).proc with
  | none => rfl
  | some k => exact hpid k hk

/-- Between these states of an entry the log makes no difference. -/
def SameKind (st st' : ProcState) : Prop :=
  st' = st ∨ st.alive = true ∧ st'.alive = true ∨ st = .embryo ∧ st' = .unused

/-- A step that records nothing, issues no pid and does not change who is in an entry. -/
theorem ReportOk.same (h : ReportOk s) (hlog : s'.log = s.log) (hnext : s'.nextPid = s.nextPid)
    (hissued : s'.issued = s.issued) (hpid : ∀ j, (s'.procs j).pid = (s.procs j).pid)
    (hppid : ∀ j, (s.procs j).state.hasSpace = true → (s'.procs j).ppid = (s.procs j).ppid)
    (hexit : ∀ j, (s'.procs j).exitCode = (s.procs j).exitCode)
    (hkind : ∀ j, SameKind (s.procs j).state (s'.procs j).state)
    (hready : ∀ c i, (s'.cpus c).duty = .ready i → (s'.procs i).ppid = s'.parentPid c) :
    ReportOk s' := by
  have hused : ∀ j, (s'.procs j).state ≠ .unused → (s.procs j).state ≠ .unused := by
    intro j hj hu
    rcases hkind j with he | ⟨he, -⟩ | ⟨he, -⟩
    · exact hj (he.trans hu)
    · rw [hu] at he
      cases he
    · rw [hu] at he
      cases he
  have hpub : ∀ j, (s.procs j).state.hasSpace = true → s.Published j → s'.Published j := by
    intro j hj hp
    unfold Published
    rw [hlog, hpid, hppid j hj]
    exact hp
  have hunrep : ∀ {q}, s.Unreported q → s'.Unreported q := by
    intro q hq
    unfold Unreported
    rw [hlog]
    exact hq
  refine ⟨?_, fun j hj => ?_, fun i j hi hj he => ?_, ?_, ?_, fun j hj e he hq => ?_,
    fun j hj => ?_,
    fun j hj => ?_, hready, fun j pid hm => ?_, ?_⟩
  · rw [hnext, hissued]
    exact h.next
  · rw [hpid, hnext]
    exact h.pidRange j (hused j hj)
  · rw [hpid, hpid] at he
    exact h.pidInj i j (hused i hi) (hused j hj) he
  · rw [hlog, hnext]
    exact h.logRange
  · rw [hlog, hnext]
    exact h.parentRange
  · rw [hlog] at he
    rw [hpid] at hq ⊢
    refine h.embryo j ?_ e he hq
    rcases hkind j with hs | ⟨-, hs⟩ | ⟨-, hs⟩
    · exact hs ▸ hj
    · rw [hj] at hs
      cases hs
    · rw [hj] at hs
      cases hs
  · have hs : (s.procs j).state.alive = true := by
      rcases hkind j with hs | ⟨hs, -⟩ | ⟨-, hs⟩
      · exact hs ▸ hj
      · exact hs
      · rw [hs] at hj
        cases hj
    obtain ⟨h1, h2, h3⟩ := h.alive j hs
    refine ⟨hpub j ?_ h1, ?_, ?_⟩
    · cases hst : (s.procs j).state <;> rw [hst] at hs <;> first | rfl | cases hs
    · rw [hlog, hpid]
      exact h2
    · rw [hpid]
      exact hunrep h3
  · have hs : (s.procs j).state = .zombie := by
      rcases hkind j with hs | ⟨-, hs⟩ | ⟨-, hs⟩
      · exact hs ▸ hj
      · rw [hj] at hs
        cases hs
      · rw [hj] at hs
        cases hs
    obtain ⟨h1, h2, h3⟩ := h.zombie j hs
    rw [hlog, hpid, hexit]
    exact ⟨hpub j (by rw [hs]; rfl) h1, h2, hunrep h3⟩
  · rw [hlog] at hm ⊢
    rw [hpid]
    rcases h.made j pid hm with hw | ⟨hs, hq⟩
    · exact Or.inl hw
    · refine Or.inr ⟨?_, hq⟩
      rcases hkind j with he | ⟨-, he⟩ | ⟨he, -⟩
      · rwa [he]
      · cases hst : (s'.procs j).state <;> rw [hst] at he <;> first | rfl | cases he
      · rw [he] at hs
        cases hs
  · rw [hlog]
    exact h.sound

/-- Such a step of the CPU `c` on the entry `i`. -/
theorem ReportOk.change {x : Cpu} {p : Proc} (h : ReportOk s) (hlog : s'.log = s.log)
    (hnext : s'.nextPid = s.nextPid) (hissued : s'.issued = s.issued)
    (hprocs : ∀ j, s'.procs j = if j = i then p else s.procs j)
    (hcpus : ∀ c', s'.cpus c' = if c' = c then x else s.cpus c')
    (hpid : p.pid = (s.procs i).pid) (hexit : p.exitCode = (s.procs i).exitCode)
    (hkind : SameKind (s.procs i).state p.state)
    (hppid : p.ppid = (s.procs i).ppid ∨ (s.procs i).state.hasSpace = false ∧
      ∀ c', c' ≠ c → (s.cpus c').duty ≠ .ready i)
    (hx : ∀ j, x.duty = .ready j → x.proc = (s.cpus c).proc ∧ (s'.procs j).ppid = s.parentPid c) :
    ReportOk s' := by
  have hpid' : ∀ j, (s'.procs j).pid = (s.procs j).pid := fun j => by
    rw [hprocs]
    split_ifs with hj
    · rw [hj, hpid]
    · rfl
  refine h.same hlog hnext hissued hpid' (fun j hj => ?_) (fun j => ?_) (fun j => ?_)
      fun c' j hd => ?_
  · rw [hprocs]
    split_ifs with hji
    · rcases hppid with he | ⟨he, -⟩
      · rw [he, hji]
      · rw [hji, he] at hj
        cases hj
    · rfl
  · rw [hprocs]
    split_ifs with hj
    · rw [hj, hexit]
    · rfl
  · rw [hprocs]
    split_ifs with hj
    · exact hj ▸ hkind
    · exact Or.inl rfl
  · rcases eq_or_ne c' c with rfl | hcc
    · rw [hcpus, if_pos rfl] at hd
      obtain ⟨hproc, he⟩ := hx j hd
      rw [he, parentPid_congr (by rw [hcpus, if_pos rfl, hproc]) fun k _ => hpid' k]
    · rw [hcpus, if_neg hcc] at hd
      rw [parentPid_congr (by rw [hcpus, if_neg hcc]) fun k _ => hpid' k, ← h.ready c' j hd, hprocs]
      split_ifs with hji
      · rcases hppid with he | ⟨-, he⟩
        · rw [he, hji]
        · exact absurd (hji ▸ hd) (he c' hcc)
      · rfl

/-! ## The steps that record something -/

/-- The parts of an entry that the log is about. -/
def SameLife (p q : Proc) : Prop :=
  q.pid = p.pid ∧ q.ppid = p.ppid ∧ q.state = p.state ∧ q.exitCode = p.exitCode

/-- What a step has to show that changes the entry `i` and records `e` about the process that
is or was in it. -/
structure Recorded (s s' : State ι) (i : Fin maxProcs) (e : Entry) : Prop where
  log : s'.log = s.log ++ [e]
  other : ∀ j, j ≠ i → SameLife (s.procs j) (s'.procs j)
  next : s'.nextPid.toNat = s'.issued + 1
  mono : s.nextPid.toNat ≤ s'.nextPid.toNat
  range : 0 < e.pid.toNat ∧ e.pid.toNat < s'.nextPid.toNat
  fresh : ∀ j, j ≠ i → (s.procs j).state ≠ .unused → e.pid ≠ (s.procs j).pid
  pid : (s'.procs i).pid = e.pid
  parent : ∀ parent pid j, e = .fork parent pid j → parent.toNat < s'.nextPid.toNat
  embryo : (s'.procs i).state = .embryo →
    ∀ e' ∈ s'.log, e'.pid = (s'.procs i).pid → e' = .alloc i (s'.procs i).pid
  alive : (s'.procs i).state.alive = true → s'.Published i ∧
    (∀ status, .exit (s'.procs i).pid status ∉ s'.log) ∧ s'.Unreported (s'.procs i).pid
  zombie : (s'.procs i).state = .zombie → s'.Published i ∧
    .exit (s'.procs i).pid (s'.procs i).exitCode ∈ s'.log ∧ s'.Unreported (s'.procs i).pid
  ready : ∀ c i, (s'.cpus c).duty = .ready i → (s'.procs i).ppid = s'.parentPid c
  makes : ∀ j q, e.Makes j q →
    j = i ∧ (s'.procs i).state.hasSpace = true ∧ (s'.procs i).pid = q
  keeps : (s.procs i).state.hasSpace = true →
    (∃ parent stored, e = .wait parent (s.procs i).pid stored) ∨
      (s'.procs i).state.hasSpace = true ∧ (s'.procs i).pid = (s.procs i).pid
  sound : e.Sound s.log

theorem ReportOk.recorded {e : Entry} (h : ReportOk s) (hr : Recorded s s' i e) : ReportOk s' := by
  have hmem : ∀ {e'}, e' ∈ s'.log ↔ e' ∈ s.log ∨ e' = e := fun {e'} => by
    rw [hr.log, List.mem_append, List.mem_singleton]
  have hpub : ∀ j, j ≠ i → s.Published j → s'.Published j := by
    intro j hj hp
    obtain ⟨hpid, hppid, -, -⟩ := hr.other j hj
    unfold Published
    rw [hmem, hmem, hpid, hppid]
    exact hp.imp (And.imp_right Or.inl) Or.inl
  -- The new entry of the log is not about another process in use.
  have hnot : ∀ {j e'}, j ≠ i → (s.procs j).state ≠ .unused → e'.pid = (s.procs j).pid →
      (e' ∈ s'.log ↔ e' ∈ s.log) := by
    intro j e' hj hu hq
    rw [hmem, or_iff_left]
    rintro rfl
    exact hr.fresh j hj hu hq
  have hused : ∀ {j st}, (s.procs j).state = st → st ≠ .unused → (s.procs j).state ≠ .unused :=
    fun hj hst hu => hst (hj.symm.trans hu)
  refine ⟨hr.next, fun j hj => ?_, fun j k hj hk he => ?_, fun e' he => ?_, fun q r j he => ?_,
    fun j hj e' he hq => ?_, fun j hj => ?_, fun j hj => ?_, hr.ready, fun j q hm => ?_, ?_⟩
  · rcases eq_or_ne j i with rfl | hji
    · rw [hr.pid]
      exact hr.range
    · obtain ⟨hpid, -, hst, -⟩ := hr.other j hji
      rw [hst] at hj
      rw [hpid]
      exact ⟨(h.pidRange j hj).1, (h.pidRange j hj).2.trans_le hr.mono⟩
  · by_contra hjk
    rcases eq_or_ne j i with rfl | hji
    · obtain ⟨hpid, -, hst, -⟩ := hr.other k (Ne.symm hjk)
      rw [hr.pid, hpid] at he
      exact hr.fresh k (Ne.symm hjk) (hst ▸ hk) he
    · obtain ⟨hpid, -, hst, -⟩ := hr.other j hji
      rcases eq_or_ne k i with rfl | hki
      · rw [hr.pid, hpid] at he
        exact hr.fresh j hji (hst ▸ hj) he.symm
      · obtain ⟨hpid', -, hst', -⟩ := hr.other k hki
        rw [hpid, hpid'] at he
        exact hjk (h.pidInj j k (hst ▸ hj) (hst' ▸ hk) he)
  · rcases hmem.1 he with he | rfl
    · exact ⟨(h.logRange e' he).1, (h.logRange e' he).2.trans_le hr.mono⟩
    · exact hr.range
  · rcases hmem.1 he with he | he
    · exact (h.parentRange q r j he).trans_le hr.mono
    · exact hr.parent q r j he.symm
  · rcases eq_or_ne j i with rfl | hji
    · exact hr.embryo hj e' he hq
    · obtain ⟨hpid, -, hst, -⟩ := hr.other j hji
      rw [hst] at hj
      rw [hpid] at hq ⊢
      exact h.embryo j hj e' ((hnot hji (hused hj (by simp)) hq).1 he) hq
  · rcases eq_or_ne j i with rfl | hji
    · exact hr.alive hj
    · obtain ⟨hpid, -, hst, -⟩ := hr.other j hji
      rw [hst] at hj
      have hu : (s.procs j).state ≠ .unused := fun hu => by
        rw [hu] at hj
        cases hj
      obtain ⟨h1, h2, h3⟩ := h.alive j hj
      rw [hpid]
      exact ⟨hpub j hji h1, fun status he => h2 status ((hnot hji hu rfl).1 he),
        fun parent stored hw => h3 parent stored ((hnot hji hu rfl).1 hw)⟩
  · rcases eq_or_ne j i with rfl | hji
    · exact hr.zombie hj
    · obtain ⟨hpid, -, hst, hex⟩ := hr.other j hji
      rw [hst] at hj
      have hu := hused hj (by simp)
      obtain ⟨h1, h2, h3⟩ := h.zombie j hj
      rw [hpid, hex]
      exact ⟨hpub j hji h1, (hnot hji hu rfl).2 h2,
        fun parent stored hw => h3 parent stored ((hnot hji hu rfl).1 hw)⟩
  · obtain ⟨e', he, hm⟩ := hm
    rcases hmem.1 he with he | rfl
    · rcases h.made j q ⟨e', he, hm⟩ with ⟨parent, stored, hw⟩ | ⟨hs, hq⟩
      · exact Or.inl ⟨parent, stored, hmem.2 (Or.inl hw)⟩
      · rcases eq_or_ne j i with rfl | hji
        · rcases hr.keeps hs with ⟨parent, stored, hw⟩ | ⟨hs', hq'⟩
          · exact Or.inl ⟨parent, stored, hmem.2 (Or.inr (hq ▸ hw).symm)⟩
          · exact Or.inr ⟨hs', hq'.trans hq⟩
        · obtain ⟨hpid, -, hst, -⟩ := hr.other j hji
          exact Or.inr ⟨by rwa [hst], hpid.trans hq⟩
    · obtain ⟨rfl, hs⟩ := hr.makes j q hm
      exact Or.inr hs
  · rw [hr.log]
    exact each_concat.2 ⟨h.sound, hr.sound⟩

/-- The `ppid` of an embryo on another CPU, or after a step that leaves pids alone. -/
theorem ReportOk.ready_of (h : ReportOk s) (hproc : (s'.cpus c).proc = (s.cpus c).proc)
    (hpid : ∀ k, (s.cpus c).proc = some k → (s'.procs k).pid = (s.procs k).pid)
    (hppid : (s'.procs i).ppid = (s.procs i).ppid) (hd : (s.cpus c).duty = .ready i) :
    (s'.procs i).ppid = s'.parentPid c := by
  rw [hppid, parentPid_congr hproc hpid]
  exact h.ready c i hd

theorem sameLife_refl (p : Proc) : SameLife p p := ⟨rfl, rfl, rfl, rfl⟩

theorem Published.concat {e : Entry} (h : s.Published i) (hlog : s'.log = s.log ++ [e])
    (hpid : (s'.procs i).pid = (s.procs i).pid) (hppid : (s'.procs i).ppid = (s.procs i).ppid) :
    s'.Published i := by
  unfold Published
  rw [hlog, hpid, hppid]
  exact h.imp (And.imp_right (List.mem_append_left _)) (List.mem_append_left _)

/-- An unused entry gets a new pid. -/
theorem ReportOk.procAlloc (h : ReportOk s) (hc : CpusOk s) (hs : s.procAlloc c = some s')
    (hb : s'.issued < 2 ^ 31) : ReportOk s' := by
  unfold State.procAlloc at hs
  split_ifs at hs with hmk
  cases hf : s.firstUnused with
  | none =>
    rw [hf] at hs
    exact Option.some.inj hs ▸ h
  | some i =>
    rw [hf] at hs
    cases hs
    have hi := firstUnused_state hf
    have hb' : s.issued + 1 < 2 ^ 31 := hb
    have hnext : (s.nextPid + 1).toNat = s.nextPid.toNat + 1 := by
      have := h.next
      bv_omega
    set p : Proc := { s.procs i with pid := s.nextPid, state := .embryo }
    set s' : State ι := (({ s with nextPid := s.nextPid + 1, issued := s.issued + 1 }.setProc i
      p).setCpu c { s.cpus c with duty := .allocated i }).record (.alloc i s.nextPid)
    have hprocs : ∀ j, s'.procs j = if j = i then p else s.procs j := setProc_procs _ _ _
    have hself : s'.procs i = p := by rw [hprocs, if_pos rfl]
    have hne : ∀ j, j ≠ i → s'.procs j = s.procs j := fun j hj => by rw [hprocs, if_neg hj]
    have hlog : s'.log = s.log ++ [.alloc i s.nextPid] := rfl
    have hnp : s'.nextPid = s.nextPid + 1 := rfl
    have hiss : s'.issued = s.issued + 1 := rfl
    have hrec : Recorded s s' i (.alloc i s.nextPid) := {
      log := hlog
      other := fun j hj => by
        rw [hne j hj]
        exact sameLife_refl _
      next := by rw [hnp, hiss, hnext, h.next]
      mono := by
        rw [hnp, hnext]
        exact Nat.le_succ _
      range := by
        change 0 < s.nextPid.toNat ∧ s.nextPid.toNat < s'.nextPid.toNat
        rw [hnp, hnext, h.next]
        exact ⟨Nat.succ_pos _, Nat.lt_succ_self _⟩
      fresh := fun j _ hj he => by
        have hlt := (h.pidRange j hj).2
        rw [← he] at hlt
        exact Nat.lt_irrefl _ hlt
      pid := by
        rw [hself]
        rfl
      parent := fun q r j he => by cases he
      embryo := fun _ e he hq => by
        rw [hself] at hq ⊢
        rw [hlog, List.mem_append, List.mem_singleton] at he
        rcases he with he | he
        · have hlt := (h.logRange e he).2
          rw [hq] at hlt
          exact absurd hlt (Nat.lt_irrefl _)
        · exact he
      alive := fun ha => by
        rw [hself] at ha
        cases ha
      zombie := fun hz => by
        rw [hself] at hz
        cases hz
      ready := fun c' j hd => by
        rcases eq_or_ne c' c with rfl | hcc
        · have hcpu : s'.cpus c' = { s.cpus c' with duty := .allocated i } :=
            (setCpu_cpus ..).trans (if_pos rfl)
          rw [hcpu] at hd
          cases hd
        · have hcpu : s'.cpus c' = s.cpus c' := (setCpu_cpus ..).trans (if_neg hcc)
          rw [hcpu] at hd
          refine h.ready_of (by rw [hcpu]) (fun k hk => ?_) ?_ hd
          · have hk' := (hc.running.iff k).2 ⟨c', hk⟩
            rw [hne k fun e => by rw [e, hi] at hk'; cases hk']
          · have hj := (hc.embryo.iff j).2 ⟨c', by rw [hd]; rfl⟩
            rw [hne j fun e => by rw [e, hi] at hj; cases hj]
      makes := fun j q hm => hm.elim
      keeps := fun hsp => by
        rw [hi] at hsp
        cases hsp
      sound := fun q hm => by
        rcases h.made i q hm with hw | ⟨hsp, -⟩
        · exact hw
        · rw [hi] at hsp
          cases hsp }
    exact h.recorded hrec

/-- A process gets runnable. -/
theorem ReportOk.publish (h : ReportOk s) (hc : CpusOk s) (hs : s.publish c = some s') :
    ReportOk s' := by
  unfold State.publish at hs
  split at hs
  case h_2 => cases hs
  case h_1 i hduty hlock =>
    have hi : (s.procs i).state = .embryo := (hc.embryo.iff i).2 ⟨c, by rw [hduty]; rfl⟩
    have hu : (s.procs i).state ≠ .unused := by simp [hi]
    set p : Proc := { s.procs i with state := .runnable, point := .user }
    obtain ⟨e, hs, hcases⟩ : ∃ e, some (((s.setProc i p).setCpu c (s.cpus c).back).record e) =
        some s' ∧ ((∃ k, (s.cpus c).proc = some k ∧ e = .fork (s.procs k).pid (s.procs i).pid i) ∨
          (s.cpus c).proc = none ∧ e = .create (s.procs i).pid i) := by
      cases hk : (s.cpus c).proc with
      | some k =>
        rw [hk] at hs
        exact ⟨_, hs, Or.inl ⟨k, rfl, rfl⟩⟩
      | none =>
        rw [hk] at hs
        exact ⟨_, hs, Or.inr ⟨rfl, rfl⟩⟩
    obtain rfl := Option.some.inj hs
    set s' : State ι := ((s.setProc i p).setCpu c (s.cpus c).back).record e
    have hprocs : ∀ j, s'.procs j = if j = i then p else s.procs j := setProc_procs _ _ _
    have hself : s'.procs i = p := by rw [hprocs, if_pos rfl]
    have hne : ∀ j, j ≠ i → s'.procs j = s.procs j := fun j hj => by rw [hprocs, if_neg hj]
    have hlog : s'.log = s.log ++ [e] := rfl
    have hpid : ∀ j, (s'.procs j).pid = (s.procs j).pid := fun j => by
      rw [hprocs]
      split_ifs with hj
      · rw [hj]
      · rfl
    have hnp : s'.nextPid = s.nextPid := rfl
    -- The log knows the pid of an embryo from `proc_alloc` only.
    have hold : ∀ e' ∈ s'.log, e'.pid = (s.procs i).pid →
        e' = e ∨ e' = .alloc i (s.procs i).pid := by
      intro e' he' hq
      rw [hlog, List.mem_append, List.mem_singleton] at he'
      rcases he' with he' | he'
      · exact Or.inr (h.embryo i hi e' he' hq)
      · exact Or.inl he'
    have hepid : e.pid = (s.procs i).pid := by
      rcases hcases with ⟨k, -, he⟩ | ⟨-, he⟩ <;> rw [he] <;> rfl
    have hready := h.ready c i hduty
    have hrec : Recorded s s' i e := {
      log := hlog
      other := fun j hj => by
        rw [hne j hj]
        exact sameLife_refl _
      next := h.next
      mono := Nat.le_refl _
      range := by
        rw [hepid, hnp]
        exact h.pidRange i hu
      fresh := fun j hj hj' he' => hj (h.pidInj j i hj' hu (he'.symm.trans hepid))
      pid := by rw [hpid, hepid]
      parent := fun q r j he' => by
        rcases hcases with ⟨k, hk, hek⟩ | ⟨-, hek⟩
        · rw [hek] at he'
          cases he'
          have hk' := (hc.running.iff k).2 ⟨c, hk⟩
          exact (h.pidRange k (by simp [hk'])).2
        · rw [hek] at he'
          cases he'
      embryo := fun hst => by
        rw [hself] at hst
        cases hst
      alive := fun _ => by
        refine ⟨?_, fun status hx => ?_, fun parent stored hw => ?_⟩
        · unfold Published
          rw [hself, hlog]
          change (s.procs i).ppid = 0 ∧ .create (s.procs i).pid i ∈ s.log ++ [e] ∨
            .fork (s.procs i).ppid (s.procs i).pid i ∈ s.log ++ [e]
          rw [hready, parentPid]
          rcases hcases with ⟨k, hk, hek⟩ | ⟨hk, hek⟩
          · rw [hk, hek]
            exact Or.inr (by simp)
          · rw [hk, hek]
            exact Or.inl ⟨rfl, by simp⟩
        · rw [hpid] at hx
          rcases hold _ hx rfl with hx | hx
          · rcases hcases with ⟨k, -, hek⟩ | ⟨-, hek⟩ <;> rw [hek] at hx <;> cases hx
          · cases hx
        · rw [hpid] at hw
          rcases hold _ hw rfl with hw | hw
          · rcases hcases with ⟨k, -, hek⟩ | ⟨-, hek⟩ <;> rw [hek] at hw <;> cases hw
          · cases hw
      zombie := fun hst => by
        rw [hself] at hst
        cases hst
      ready := fun c' j hd => by
        rcases eq_or_ne c' c with rfl | hcc
        · have hcpu : s'.cpus c' = (s.cpus c').back := (setCpu_cpus ..).trans (if_pos rfl)
          have hnone := back_makes (s.cpus c')
          rw [hcpu] at hd
          rw [hd] at hnone
          cases hnone
        · have hcpu : s'.cpus c' = s.cpus c' := (setCpu_cpus ..).trans (if_neg hcc)
          rw [hcpu] at hd
          refine h.ready_of (by rw [hcpu]) (fun k _ => hpid k) ?_ hd
          rw [hprocs]
          split_ifs with hj
          · rw [hj]
          · rfl
      makes := fun j q hm => by
        rw [hself]
        rcases hcases with ⟨k, -, hek⟩ | ⟨-, hek⟩
        · rw [hek] at hm
          exact ⟨hm.2.symm, rfl, hm.1⟩
        · rw [hek] at hm
          exact ⟨hm.2.symm, rfl, hm.1⟩
      keeps := fun hsp => by
        rw [hi] at hsp
        cases hsp
      sound := by rcases hcases with ⟨k, -, hek⟩ | ⟨-, hek⟩ <;> rw [hek] <;> trivial }
    exact h.recorded hrec

/-- A process becomes a zombie. -/
theorem ReportOk.sysExit {status : U32} (h : ReportOk s) (hc : CpusOk s)
    (hs : s.sysExit c status = some s') : ReportOk s' := by
  obtain ⟨i, hduty, hproc, -, -, hs'⟩ := sysExit_spec hs
  have hi : (s.procs i).state = .running := (hc.running.iff i).2 ⟨c, hproc⟩
  have hu : (s.procs i).state ≠ .unused := by simp [hi]
  obtain ⟨hpub, hnox, hunrep⟩ := h.alive i (by rw [hi]; rfl)
  set p : Proc := { s.procs i with exitCode := status, state := .zombie }
  have hprocs : ∀ j, s'.procs j = if j = i then p else s.procs j := fun j => by
    rw [hs', record_procs, leave_procs]
  have hself : s'.procs i = p := by rw [hprocs, if_pos rfl]
  have hne : ∀ j, j ≠ i → s'.procs j = s.procs j := fun j hj => by rw [hprocs, if_neg hj]
  have hkeep : ∀ j, (s'.procs j).pid = (s.procs j).pid ∧ (s'.procs j).ppid = (s.procs j).ppid := by
    intro j
    rw [hprocs]
    split_ifs with hj
    · rw [hj]
      exact ⟨rfl, rfl⟩
    · exact ⟨rfl, rfl⟩
  have hlog : s'.log = s.log ++ [.exit (s.procs i).pid status] := by
    rw [hs']
    rfl
  have hnp : s'.nextPid = s.nextPid := by rw [hs']; rfl
  have hrec : Recorded s s' i (.exit (s.procs i).pid status) := {
    log := hlog
    other := fun j hj => by
      rw [hne j hj]
      exact sameLife_refl _
    next := by
      rw [hs']
      exact h.next
    mono := by rw [hnp]
    range := by
      rw [hnp]
      exact h.pidRange i hu
    fresh := fun j hj hj' he => hj (h.pidInj j i hj' hu he.symm)
    pid := by
      rw [hself]
      rfl
    parent := fun q r j he => by cases he
    embryo := fun hst => by
      rw [hself] at hst
      cases hst
    alive := fun hst => by
      rw [hself] at hst
      cases hst
    zombie := fun _ => by
      refine ⟨hpub.concat hlog (hkeep i).1 (hkeep i).2, ?_, ?_⟩
      · rw [hself, hlog]
        exact List.mem_append_right _ (List.mem_singleton.2 rfl)
      · rw [(hkeep i).1]
        intro parent stored hw
        rw [hlog, List.mem_append, List.mem_singleton] at hw
        rcases hw with hw | hw
        · exact hunrep parent stored hw
        · cases hw
    ready := fun c' j hd => by
      have hcpu : s'.cpus c' = if c' = c then ⟨none, .scheduler⟩ else s.cpus c' := by
        rw [hs', record_cpus, leave_cpus]
      split_ifs at hcpu with hcc
      · rw [hcpu] at hd
        cases hd
      · rw [hcpu] at hd
        exact h.ready_of (by rw [hcpu]) (fun k _ => (hkeep k).1) (hkeep j).2 hd
    makes := fun j q hm => hm.elim
    keeps := fun _ => Or.inr (by
      rw [hself]
      exact ⟨rfl, rfl⟩)
    sound := hnox }
  exact h.recorded hrec

/-- A zombie child is reaped. -/
theorem ReportOk.reaped (h : ReportOk s) (hc : CpusOk s) (hproc : (s.cpus c).proc = some k)
    (hz : s.zombieChild k = some i) (b : Bool) :
    ReportOk (((s.reap i).setProc k { s.procs k with point := .user }).record
      (.wait (s.procs k).pid (s.procs i).pid (if b then some (s.procs i).exitCode else none))) := by
  obtain ⟨hi, hppid⟩ := zombieChild_spec hz
  have hk : (s.procs k).state = .running := (hc.running.iff k).2 ⟨c, hproc⟩
  have hki : k ≠ i := fun e => by
    rw [e, hi] at hk
    cases hk
  have hu : (s.procs i).state ≠ .unused := by simp [hi]
  obtain ⟨hpub, hexit, hunrep⟩ := h.zombie i hi
  set e : Entry :=
    .wait (s.procs k).pid (s.procs i).pid (if b then some (s.procs i).exitCode else none)
  set s' : State ι := ((s.reap i).setProc k { s.procs k with point := .user }).record e
  have hself : s'.procs i = { s.procs i with kstack := 0, state := .unused } := by
    change ((s.reap i).setProc k _).procs i = _
    rw [setProc_procs, if_neg hki.symm, reap_procs, if_pos rfl]
  have hne : ∀ j, j ≠ i → SameLife (s.procs j) (s'.procs j) := fun j hj => by
    change SameLife (s.procs j) (((s.reap i).setProc k { s.procs k with point := .user }).procs j)
    rw [setProc_procs]
    split_ifs with hjk
    · rw [hjk]
      exact sameLife_refl _
    · rw [reap_procs, if_neg hj]
      exact sameLife_refl _
  have hkeep : ∀ j, (s'.procs j).pid = (s.procs j).pid ∧ (s'.procs j).ppid = (s.procs j).ppid := by
    intro j
    rcases eq_or_ne j i with rfl | hj
    · rw [hself]
      exact ⟨rfl, rfl⟩
    · exact ⟨(hne j hj).1, (hne j hj).2.1⟩
  have hlog : s'.log = s.log ++ [e] := rfl
  have hrec : Recorded s s' i e := {
    log := hlog
    other := hne
    next := h.next
    mono := Nat.le_refl _
    range := h.pidRange i hu
    fresh := fun j hj hj' he => hj (h.pidInj j i hj' hu he.symm)
    pid := (hkeep i).1
    parent := fun q r j he => by
      change Entry.wait _ _ _ = .fork q r j at he
      cases he
    embryo := fun hst => by
      rw [hself] at hst
      cases hst
    alive := fun hst => by
      rw [hself] at hst
      cases hst
    zombie := fun hst => by
      rw [hself] at hst
      cases hst
    ready := fun c' j hd => h.ready_of rfl (fun k _ => (hkeep k).1) (hkeep j).2 hd
    makes := fun j q hm => hm.elim
    keeps := fun _ => Or.inl ⟨_, _, rfl⟩
    sound := by
      refine ⟨?_, ⟨(s.procs i).exitCode, hexit, fun x hx => ?_⟩, hunrep⟩
      · rcases hpub with ⟨h0, -⟩ | hf
        · -- `proc_create` stores 0 in `ppid`, which is no pid.
          have hpos := (h.pidRange k (by simp [hk])).1
          rw [← hppid, h0] at hpos
          cases hpos
        · exact ⟨i, hppid ▸ hf⟩
      · cases b with
        | false => cases hx
        | true => exact (Option.some.inj hx).symm }
  exact h.recorded hrec

theorem ReportOk.sysWait {b : Bool} (h : ReportOk s) (hc : CpusOk s)
    (hs : s.sysWait c b = some s') : ReportOk s' := by
  obtain ⟨k, hduty, hproc, -, -, ⟨i, hz, rfl⟩ | ⟨-, rfl⟩⟩ := sysWait_cases hs
  · exact h.reaped hc hproc hz b
  · exact h.change (c := c) rfl rfl rfl (setProc_procs _ _ _)
      (fun c' => by split_ifs with hcc <;> [rw [hcc]; rfl])
      rfl rfl (Or.inl rfl) (Or.inl rfl) fun j hd => by
        rw [setProc_cpus, hduty] at hd
        cases hd

/-! ## Runs -/

theorem ReportOk.step {e : Event ι} (h : ReportOk s) (hc : CpusOk s) (hs : s.step e = some s')
    (hb : s'.issued < 2 ^ 31) : ReportOk s' := by
  have hself : ∀ j, s.procs j = if j = 0 then s.procs 0 else s.procs j := fun j => by
    split_ifs with hj
    · rw [hj]
    · rfl
  cases e with
  | startScheduler c =>
    simp only [State.step] at hs
    split_ifs at hs
    cases hs
    exact h.change rfl rfl rfl hself (setCpu_cpus _ _ _) rfl rfl (Or.inl rfl) (Or.inl rfl)
      fun j hd => by cases hd
  | beginPass c =>
    simp only [State.step] at hs
    split_ifs at hs
    cases hs
    exact h.same rfl rfl rfl (fun _ => rfl) (fun _ _ => rfl) (fun _ => rfl)
      (fun _ => Or.inl rfl) h.ready
  | dispatch c i =>
    simp only [State.step, State.dispatch] at hs
    split_ifs at hs with hd
    cases hs
    exact h.change rfl rfl rfl (setProc_procs _ _ _) (setCpu_cpus _ _ _) rfl rfl
      (Or.inr (Or.inl ⟨by rw [hd.2.2]; rfl, rfl⟩)) (Or.inl rfl) fun j hd => by cases hd
  | endPass c =>
    simp only [State.step] at hs
    split_ifs at hs
    cases hs
    exact h.same rfl rfl rfl (fun _ => rfl) (fun _ _ => rfl) (fun _ => rfl)
      (fun _ => Or.inl rfl) h.ready
  | resume c =>
    simp only [State.step] at hs
    split_ifs at hs
    cases hs
    exact h.change rfl rfl rfl hself (setCpu_cpus _ _ _) rfl rfl (Or.inl rfl) (Or.inl rfl)
      fun j hd => by cases hd
  | yield c =>
    obtain ⟨i, -, hproc, -, rfl⟩ := yield_spec hs
    have hi := (hc.running.iff i).2 ⟨c, hproc⟩
    exact h.change rfl rfl rfl (leave_procs _ _ _ _) (leave_cpus _ _ _ _) rfl rfl
      (Or.inr (Or.inl ⟨by rw [hi]; rfl, rfl⟩)) (Or.inl rfl) fun j hd => by cases hd
  | sysExit c status => exact h.sysExit hc hs
  | sysWait c stores => exact h.sysWait hc hs
  | procAlloc c => exact h.procAlloc hc hs hb
  | allocStack c stack =>
    simp only [State.step, State.allocStack] at hs
    split at hs
    case h_2 => cases hs
    case h_1 i hduty =>
      have hi := (hc.embryo.iff i).2 ⟨c, by rw [hduty]; rfl⟩
      split_ifs at hs
      · cases hs
        refine h.change rfl rfl rfl (setProc_procs _ _ _) (setCpu_cpus _ _ _) rfl rfl
          (Or.inr (Or.inr ⟨hi, rfl⟩)) (Or.inl rfl) fun j hd => ?_
        have hnone := back_makes (s.cpus c)
        rw [hd] at hnone
        cases hnone
      · cases hs
        exact h.change rfl rfl rfl (setProc_procs _ _ _) (setCpu_cpus _ _ _) rfl rfl (Or.inl rfl)
          (Or.inl rfl) fun j hd => by cases hd
  | buildFail c =>
    simp only [State.step, State.buildFail] at hs
    split at hs
    case h_2 => cases hs
    case h_1 i hduty =>
      have hi := (hc.embryo.iff i).2 ⟨c, by rw [hduty]; rfl⟩
      cases hs
      refine h.change rfl rfl rfl (setProc_procs _ _ _) (setCpu_cpus _ _ _) rfl rfl
        (Or.inr (Or.inr ⟨hi, rfl⟩)) (Or.inl rfl) fun j hd => ?_
      have hnone := back_makes (s.cpus c)
      rw [hd] at hnone
      cases hnone
  | setParent c =>
    simp only [State.step, State.setParent] at hs
    split at hs
    case h_2 => cases hs
    case h_1 i hduty =>
      have hmk : (s.cpus c).duty.makes = some i := by rw [hduty]; rfl
      have hi := (hc.embryo.iff i).2 ⟨c, hmk⟩
      cases hs
      refine h.change rfl rfl rfl (setProc_procs _ _ _) (setCpu_cpus _ _ _) rfl rfl (Or.inl rfl)
        (Or.inr ⟨by rw [hi]; rfl, fun c' hcc hd => ?_⟩) fun j hd => ⟨rfl, ?_⟩
      · exact hcc (hc.embryo.inj c' c i (by rw [hd]; rfl) hmk)
      · obtain rfl : i = j := Duty.ready.inj hd
        rw [setCpu_procs, setProc_procs, if_pos rfl]
  | publish c => exact h.publish hc hs

theorem reportOk_init (bsp : ι) : ReportOk (init bsp) where
  next := rfl
  pidRange i hi := absurd rfl hi
  pidInj i j hi := absurd rfl hi
  logRange e he := by cases he
  parentRange q r i he := by cases he
  embryo i hi := by cases hi
  alive i hi := by cases hi
  zombie i hi := by cases hi
  ready c i hd := by
    simp only [init] at hd
    split_ifs at hd
  made i q hm := by
    obtain ⟨e, he, -⟩ := hm
    cases he
  sound := each_nil

/-- No step takes a pid back. -/
theorem issued_mono {e : Event ι} (hs : s.step e = some s') : s.issued ≤ s'.issued := by
  cases e with
  | startScheduler c | beginPass c | endPass c | resume c =>
    simp only [State.step] at hs
    split_ifs at hs
    cases hs
    exact Nat.le_refl _
  | dispatch c i =>
    simp only [State.step, State.dispatch] at hs
    split_ifs at hs
    cases hs
    exact Nat.le_refl _
  | yield c =>
    obtain ⟨i, -, -, -, rfl⟩ := yield_spec hs
    exact Nat.le_refl _
  | sysExit c status =>
    obtain ⟨i, -, -, -, -, rfl⟩ := sysExit_spec hs
    exact Nat.le_refl _
  | sysWait c stores =>
    obtain ⟨k, -, -, -, -, ⟨i, -, rfl⟩ | ⟨-, rfl⟩⟩ := sysWait_cases hs
    · exact Nat.le_refl _
    · exact Nat.le_refl _
  | procAlloc c =>
    simp only [State.step, State.procAlloc] at hs
    split_ifs at hs
    split at hs
    · cases hs
      exact Nat.le_refl _
    · cases hs
      exact Nat.le_succ _
  | allocStack c stack =>
    simp only [State.step, State.allocStack] at hs
    split at hs
    case h_2 => cases hs
    case h_1 i hduty =>
      split_ifs at hs
      · cases hs
        exact Nat.le_refl _
      · cases hs
        exact Nat.le_refl _
  | buildFail c | setParent c | publish c =>
    simp only [State.step, State.buildFail, State.setParent, State.publish] at hs
    split at hs <;> cases hs
    exact Nat.le_refl _

/-- The invariant of runs that issue fewer than 2^31 pids. -/
structure WaitOk (s : State ι) : Prop where
  life : LifeOk s
  report : s.issued < 2 ^ 31 → ReportOk s

theorem WaitOk.step {e : Event ι} (h : WaitOk s) (hs : s.step e = some s') : WaitOk s' :=
  ⟨h.life.step hs, fun hb =>
    (h.report ((issued_mono hs).trans_lt hb)).step h.life.cpu hs hb⟩

theorem waitOk_of_run {bsp : ι} {es : List (Event ι)}
    (hr : Run.run step (init bsp) es = some s) : WaitOk s :=
  Run.run_invariant (fun _ _ _ h hs => h.step hs)
    ⟨⟨cpusOk_init bsp, stacksOk_init bsp⟩, fun _ => reportOk_init bsp⟩ hr

end State

end ProcLife

end Jeos
