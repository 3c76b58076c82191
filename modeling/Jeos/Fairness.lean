import Mathlib.Data.Fintype.Card
import Jeos.Lib.RoundRobin
import Jeos.Scheduler

/-!
# No process waits long

The processes and CPUs of `Scheduler` with the variable `i` of the loop in `scheduler`. A process that
runs was picked at the entry before `i`, and when it yields or exits, the loop goes on at `i`, whatever
the other CPUs have done in the meantime.

The loop is a scanner of the table, so as long as a process is runnable and does not get a CPU, no CPU
picks another one twice (`scheduler_fair`).
-/

namespace Jeos

variable {ι : Type*} [DecidableEq ι]

/-- `i` of the loop of a CPU, the entry that it looks at next, or none outside of the loop. -/
structure PassState (ι : Type*) where
  sched : SchedState ι
  pos : ι → Option ℕ

inductive PassEvent (ι : Type*) where
  | sched (e : SchedEvent ι)
  /-- `continue` : entry `i` is not runnable -/
  | skip (c : ι)

namespace PassState

variable (s : PassState ι)

/-- The loop variables behind an event. -/
def follow : SchedEvent ι → Option (ι → Option ℕ)
  | .beginPass c => if s.pos c = none then some (Function.update s.pos c (some 0)) else none
  | .dispatch c i =>
    if s.pos c = some i.val then some (Function.update s.pos c (some (i + 1))) else none
  | .endPass c => if s.pos c = some maxProcs then some (Function.update s.pos c none) else none
  | _ => some s.pos

def step : PassEvent ι → Option (PassState ι)
  | .sched e => (s.follow e).bind fun pos => (s.sched.step e).map fun t => ⟨t, pos⟩
  | .skip c =>
    (s.pos c).bind fun i =>
      if h : i < maxProcs then
        if (s.sched.cpus c).act = .scheduler ∧ s.sched.lock = some c ∧
            (s.sched.procs ⟨i, h⟩).state ≠ .runnable then
          some { s with pos := Function.update s.pos c (some (i + 1)) }
        else none
      else none

end PassState

/-- What an event is for the loop of `c`. -/
def PassEvent.move (c : ι) : PassEvent ι → Option RoundRobin.Move
  | .sched (.beginPass c') => if c' = c then some .start else none
  | .sched (.dispatch c' _) => if c' = c then some .pick else none
  | .sched (.endPass c') => if c' = c then some .stop else none
  | .skip c' => if c' = c then some .skip else none
  | _ => none

/-- The entry that `c` picks. -/
def PassEvent.picked (c : ι) : PassEvent ι → Option (Fin maxProcs)
  | .sched (.dispatch c' i) => if c' = c then some i else none
  | _ => none

namespace PassState

variable {s s' t : PassState ι} {e : PassEvent ι} {es : List (PassEvent ι)} {c : ι}
  {i p : Fin maxProcs}

theorem step_sched {e : SchedEvent ι} (hs : s.step (.sched e) = some s') :
    s.follow e = some s'.pos ∧ s.sched.step e = some s'.sched := by
  obtain ⟨pos, hf, hs⟩ := Option.bind_eq_some_iff.1 hs
  obtain ⟨t, ht, rfl⟩ := Option.map_eq_some_iff.1 hs
  exact ⟨hf, ht⟩

theorem step_skip (hs : s.step (.skip c) = some s') :
    ∃ i, ∃ h : i < maxProcs, s.pos c = some i ∧ (s.sched.procs ⟨i, h⟩).state ≠ .runnable ∧
      s' = { s with pos := Function.update s.pos c (some (i + 1)) } := by
  obtain ⟨i, hi, hs⟩ := Option.bind_eq_some_iff.1 hs
  obtain ⟨h, hs⟩ := Option.dite_none_right_eq_some.1 hs
  obtain ⟨⟨-, -, hrun⟩, hs⟩ := Option.ite_none_right_eq_some.1 hs
  exact ⟨i, h, hi, hrun, (Option.some.inj hs).symm⟩

/-- A move of the loop of `c'`, which those of the others do not notice. -/
theorem scan_update {c' : ι} {m : RoundRobin.Move} {q : Option ℕ}
    (hm : RoundRobin.step maxProcs (s.pos c') m = some q) :
    match if c' = c then some m else none with
    | some m => RoundRobin.step maxProcs (s.pos c) m = some (Function.update s.pos c' q c)
    | none => Function.update s.pos c' q c = s.pos c := by
  by_cases hc : c' = c
  · subst hc
    rw [if_pos rfl, Function.update_self]
    exact hm
  · rw [if_neg hc]
    exact Function.update_of_ne (Ne.symm hc) ..

/-- The loop of `c` is a scanner. -/
theorem step_pos (c : ι) (hs : s.step e = some s') :
    match e.move c with
    | some m => RoundRobin.step maxProcs (s.pos c) m = some (s'.pos c)
    | none => s'.pos c = s.pos c := by
  cases e with
  | skip c' =>
    obtain ⟨i, hlt, hi, -, rfl⟩ := step_skip hs
    refine scan_update (m := .skip) ?_
    rw [hi, RoundRobin.step, if_pos hlt]
  | sched e =>
    obtain ⟨hf, -⟩ := step_sched hs
    cases e with
    | beginPass c' =>
      obtain ⟨hpos, hf⟩ := Option.ite_none_right_eq_some.1 hf
      rw [← Option.some.inj hf]
      refine scan_update (m := .start) ?_
      rw [hpos, RoundRobin.step]
    | dispatch c' i =>
      obtain ⟨hpos, hf⟩ := Option.ite_none_right_eq_some.1 hf
      rw [← Option.some.inj hf]
      refine scan_update (m := .pick) ?_
      rw [hpos, RoundRobin.step, if_pos i.isLt]
    | endPass c' =>
      obtain ⟨hpos, hf⟩ := Option.ite_none_right_eq_some.1 hf
      rw [← Option.some.inj hf]
      refine scan_update (m := .stop) ?_
      rw [hpos, RoundRobin.step, if_pos rfl]
    | _ => exact congrFun (Option.some.inj hf).symm c

theorem run_pos (c : ι) (hr : Run.run step s es = some t) :
    Run.run (RoundRobin.step maxProcs) (s.pos c) (es.filterMap (PassEvent.move c)) =
      some (t.pos c) := by
  induction es generalizing s with
  | nil => rw [← Option.some.inj hr]; rfl
  | cons e es ih =>
    obtain ⟨s', hs, hr⟩ := Option.bind_eq_some_iff.1 hr
    have hpos := step_pos c hs
    rw [List.filterMap_cons]
    cases hm : e.move c with
    | none =>
      rw [hm] at hpos
      exact hpos ▸ ih hr
    | some m =>
      rw [hm] at hpos
      rw [Run.run_cons, hpos]
      exact ih hr

/-- An entry that is runnable in front of the event and behind it is not looked at. -/
theorem pos_ne {m : RoundRobin.Move} {k : ℕ} (hs : s.step e = some s') (hm : e.move c = some m)
    (hmove : m = .skip ∨ m = .pick) (hk : s.pos c = some k) (hp : (s.sched.procs p).state = .runnable)
    (hp' : (s'.sched.procs p).state = .runnable) : p.val ≠ k := by
  rintro rfl
  cases e with
  | skip c' =>
    obtain ⟨i, hlt, hi, hrun, -⟩ := step_skip hs
    by_cases hc : c' = c
    · subst hc
      obtain rfl : p.val = i := Option.some.inj (hk.symm.trans hi)
      exact hrun hp
    · exact absurd hm (by simp [PassEvent.move, hc])
  | sched e =>
    obtain ⟨hf, hs⟩ := step_sched hs
    cases e with
    | dispatch c' i =>
      by_cases hc : c' = c
      · subst hc
        obtain ⟨hpos, -⟩ := Option.ite_none_right_eq_some.1 hf
        obtain rfl : p = i := Fin.ext (Option.some.inj (hk.symm.trans hpos))
        obtain ⟨-, hs⟩ := Option.ite_none_right_eq_some.1 hs
        rw [← Option.some.inj hs] at hp'
        simp [SchedState.setCpu, SchedState.setProc] at hp'
      · exact absurd hm (by simp [PassEvent.move, hc])
    | beginPass c' | endPass c' =>
      obtain ⟨-, hm⟩ := Option.ite_none_right_eq_some.1 hm
      obtain rfl := Option.some.inj hm
      rcases hmove with hmove | hmove <;> exact absurd hmove (by decide)
    | _ => exact absurd hm (by simp [PassEvent.move])

/-- The loop of `c` does not look at an entry that stays runnable. -/
theorem not_looked (c : ι) (hr : Run.run step s es = some t)
    (hp : Run.Always step (fun s => (s.sched.procs p).state = .runnable) s es) :
    p.val ∉ RoundRobin.looked (s.pos c) (es.filterMap (PassEvent.move c)) := by
  induction es generalizing s with
  | nil =>
    rw [List.filterMap_nil]
    cases s.pos c <;> exact List.not_mem_nil
  | cons e es ih =>
    obtain ⟨s', hs, hr⟩ := Option.bind_eq_some_iff.1 hr
    have hrest := ih hr (hp.2 s' hs)
    have hpos := step_pos c hs
    rw [List.filterMap_cons]
    cases hm : e.move c with
    | none =>
      rw [hm] at hpos
      exact hpos ▸ hrest
    | some m =>
      rw [hm] at hpos
      rcases RoundRobin.looked_cons hpos with hl | ⟨k, hk, hmove, hl⟩
      · exact hl ▸ hrest
      · rw [hl, List.mem_cons, not_or]
        exact ⟨pos_ne hs hm hmove hk hp.1 (hp.2 s' hs).head, hrest⟩

theorem picked_eq_some {i : Fin maxProcs} (hs : s.step e = some s')
    (hi : e.picked c = some i) : e.move c = some .pick ∧ s.pos c = some i.val := by
  cases e with
  | skip c' => exact absurd hi (by simp [PassEvent.picked])
  | sched e =>
    obtain ⟨hf, -⟩ := step_sched hs
    cases e with
    | dispatch c' j =>
      rw [PassEvent.picked] at hi
      obtain ⟨hc, hj⟩ := Option.ite_none_right_eq_some.1 hi
      subst hc
      obtain rfl := Option.some.inj hj
      obtain ⟨hpos, -⟩ := Option.ite_none_right_eq_some.1 hf
      exact ⟨if_pos rfl, hpos⟩
    | _ => exact absurd hi (by simp [PassEvent.picked])

/-- The entries that `c` picks are among those that it looks at. -/
theorem picked_sublist (c : ι) (hr : Run.run step s es = some t) :
    ((es.filterMap (PassEvent.picked c)).map Fin.val).Sublist
      (RoundRobin.looked (s.pos c) (es.filterMap (PassEvent.move c))) := by
  induction es generalizing s with
  | nil => exact List.nil_sublist _
  | cons e es ih =>
    obtain ⟨s', hs, hr⟩ := Option.bind_eq_some_iff.1 hr
    have hpos := step_pos c hs
    rw [List.filterMap_cons, List.filterMap_cons]
    cases hi : e.picked c with
    | some i =>
      obtain ⟨hm, hk⟩ := picked_eq_some hs hi
      rw [hm, hk] at hpos
      have hnext : some (i.val + 1) = s'.pos c :=
        Option.some.inj ((if_pos i.isLt).symm.trans hpos)
      rw [hm, hk, RoundRobin.looked_some (Or.inr rfl), hnext]
      exact (ih hr).cons_cons i.val
    | none =>
      cases hm : e.move c with
      | none =>
        rw [hm] at hpos
        exact hpos ▸ ih hr
      | some m =>
        rw [hm] at hpos
        rcases RoundRobin.looked_cons hpos with hl | ⟨k, -, -, hl⟩
        · exact hl ▸ ih hr
        · exact hl ▸ (ih hr).cons k

/-- **No overtaking.** In a run in which entry `p` is runnable all the time, a CPU begins at most one
pass, and it picks every other entry at most once and `p` not at all. -/
theorem scheduler_fair (c : ι) (hr : Run.run step s es = some t)
    (hp : Run.Always step (fun s => (s.sched.procs p).state = .runnable) s es) :
    (es.filterMap (PassEvent.picked c)).Nodup ∧ p ∉ es.filterMap (PassEvent.picked c) ∧
      (es.filterMap (PassEvent.picked c)).length < maxProcs ∧
      (es.filterMap (PassEvent.move c)).count .start ≤ 1 := by
  have hnot := not_looked c hr hp
  obtain ⟨hnodup, hcount⟩ := RoundRobin.looked_of_notMem (run_pos c hr) p.isLt hnot
  have hsub := picked_sublist c hr
  have hpicked : (es.filterMap (PassEvent.picked c)).Nodup :=
    List.Nodup.of_map Fin.val (hsub.nodup hnodup)
  have hmem : p ∉ es.filterMap (PassEvent.picked c) := fun h =>
    hnot (hsub.subset (List.mem_map_of_mem h))
  refine ⟨hpicked, hmem, ?_, hcount⟩
  have hlen := (List.nodup_cons.2 ⟨hmem, hpicked⟩).length_le_card
  rw [List.length_cons, Fintype.card_fin] at hlen
  exact hlen

/-- Three runnable processes and a CPU between two passes. -/
def threeRunnable : PassState Unit where
  sched :=
    { procs := fun i => ⟨if i.val < 3 then .runnable else .unused, 0, 0, 1⟩
      cpus := fun _ => ⟨none, 1, .scheduler⟩
      live := fun page => page = 1
      lock := none
      nextPid := 4 }
  pos := fun _ => none

/-- The third process waits for the first one. -/
theorem scheduler_fair_three :
    ([.sched (.beginPass ()), .sched (.dispatch () 0), .sched (.resume ()),
      .sched (.yield ())].filterMap (PassEvent.picked ())).length < maxProcs := by
  have hp : Run.Always step (fun s => (s.sched.procs 2).state = .runnable) threeRunnable
      [.sched (.beginPass ()), .sched (.dispatch () 0), .sched (.resume ()),
        .sched (.yield ())] := by
    refine ⟨rfl, fun s₁ hs₁ => ?_⟩
    obtain rfl := Option.some.inj hs₁
    refine ⟨rfl, fun s₂ hs₂ => ?_⟩
    obtain rfl := Option.some.inj hs₂
    refine ⟨rfl, fun s₃ hs₃ => ?_⟩
    obtain rfl := Option.some.inj hs₃
    refine ⟨rfl, fun s₄ hs₄ => ?_⟩
    obtain rfl := Option.some.inj hs₄
    rfl
  exact (scheduler_fair () rfl hp).2.2.1

end PassState
end Jeos
