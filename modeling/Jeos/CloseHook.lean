import Mathlib.Data.List.Count
import Mathlib.Logic.Function.Basic
import Jeos.Lib.Run
import Jeos.Types

/-!
# The close op of a file

`vfs_open`, `vfs_file_get`, `vfs_file_put` and `vfs_close` of `vfs.c`, as far as they count references
and call the close op of the file system. `vfs_close` calls it before it knows whether the reference
is the last one. Files are numbered in the order they are made, and a call on a file that has been
freed has no result.

The life of a file has one call of its close op, by the `vfs_close` that drops the last reference, if
and only if no `vfs_close` of the file comes after a `vfs_file_get` of it (`closed_once_iff`).
-/

set_option linter.unusedSectionVars false

namespace Jeos.CloseHook

/-- `struct vfs_file` : whether it is allocated, its reference count, and whether `fops` has a
`close`. -/
structure VfsFile where
  live : Bool
  refcnt : U32
  close : Bool

/-- The files, and those whose close op was called, last first. -/
structure State where
  file : ℕ → VfsFile
  next : ℕ
  called : List ℕ

/-- `vfs_open` of a file with or without a close op, whose open op succeeds or fails;
`vfs_file_get`, and `vfs_close`. -/
inductive Event where
  | vfsOpen (close opened : Bool)
  | vfsFileGet (f : ℕ)
  | vfsClose (f : ℕ)
  deriving DecidableEq

namespace State

variable (s : State) (f : ℕ)

def setFile (x : VfsFile) : State := { s with file := Function.update s.file f x }

/-- `vfs_file_get`. -/
def vfsFileGet : Option State :=
  if (s.file f).live then
    some (s.setFile f { s.file f with refcnt := (s.file f).refcnt + 1 })
  else none

/-- `vfs_file_put`. -/
def vfsFilePut : Option State :=
  if (s.file f).live then
    let refcnt := (s.file f).refcnt - 1
    some (s.setFile f { s.file f with refcnt := refcnt, live := refcnt ≠ 0 })
  else none

/-- `vfs_close`, with a close op that returns 0. -/
def vfsClose : Option State :=
  if (s.file f).live then
    if (s.file f).close then vfsFilePut { s with called := f :: s.called } f else s.vfsFilePut f
  else none

/-- `vfs_open` once it has the page of the file. -/
def vfsOpen (close opened : Bool) : Option State :=
  let t := { s.setFile s.next ⟨true, 1, close⟩ with next := s.next + 1 }
  if opened then some t else t.vfsFilePut s.next

def step (s : State) : Event → Option State
  | .vfsOpen close opened => s.vfsOpen close opened
  | .vfsFileGet f => s.vfsFileGet f
  | .vfsClose f => s.vfsClose f

/-- No file has been opened. -/
def init : State := ⟨fun _ => ⟨false, 0, false⟩, 0, []⟩

end State

open State

/-- The references to `f` after the events, from the one that it starts with. -/
def refs (f : ℕ) (es : List Event) : ℤ := 1 + es.count (.vfsFileGet f) - es.count (.vfsClose f)

/-- From the state `s` on, in which `f` is new : the close op is called only by the `vfs_close` that
drops the last reference, and once if the file is freed. -/
structure ClosedOnce (s : State) (f : ℕ) (es : List Event) : Prop where
  last : ∀ pre e post u v, es = pre ++ e :: post → Run.run step s pre = some u →
    step u e = some v → v.called.count f ≠ u.called.count f →
      e = .vfsClose f ∧ refs f pre = 1 ∧ v.called.count f = u.called.count f + 1
  once : ∀ t, Run.run step s es = some t → (t.file f).live = false → t.called.count f = 1

/-- No `vfs_close` of the file comes after a `vfs_file_get` of it. -/
def NotShared (f : ℕ) (es : List Event) : Prop :=
  ∀ pre post, es = pre ++ .vfsClose f :: post → .vfsFileGet f ∉ pre

variable {s t u : State} {f : ℕ} {e : Event} {es : List Event}

/-! ## One file in a run -/

theorem vfsFilePut_eq (h : (s.file f).live = true) :
    s.vfsFilePut f = some (s.setFile f ⟨(s.file f).refcnt - 1 ≠ 0, (s.file f).refcnt - 1,
      (s.file f).close⟩) := if_pos h

theorem vfsFilePut_called {g : ℕ} (h : s.vfsFilePut g = some t) :
    t.called = s.called ∧ t.next = s.next := by
  unfold vfsFilePut at h
  split_ifs at h
  obtain rfl := Option.some.inj h
  exact ⟨rfl, rfl⟩

theorem vfsFilePut_frame {g : ℕ} (hf : f ≠ g) (h : s.vfsFilePut g = some t) :
    t.file f = s.file f := by
  unfold vfsFilePut at h
  split_ifs at h
  obtain rfl := Option.some.inj h
  exact Function.update_of_ne hf _ _

/-- Only `vfs_close` calls the close op. -/
theorem step_called (h : step s e = some t) (hclose : e ≠ .vfsClose f) :
    t.called.count f = s.called.count f ∧ s.next ≤ t.next := by
  cases e with
  | vfsOpen close opened =>
    simp only [step, vfsOpen] at h
    split_ifs at h
    · obtain rfl := Option.some.inj h
      exact ⟨rfl, s.next.le_succ⟩
    · obtain ⟨h₁, h₂⟩ := vfsFilePut_called h
      rw [h₁, h₂]
      exact ⟨rfl, s.next.le_succ⟩
  | vfsFileGet g =>
    simp only [step, vfsFileGet] at h
    split_ifs at h
    obtain rfl := Option.some.inj h
    exact ⟨rfl, le_rfl⟩
  | vfsClose g =>
    simp only [step, vfsClose] at h
    split_ifs at h
    · obtain ⟨h₁, h₂⟩ := vfsFilePut_called h
      rw [h₁, h₂]
      exact ⟨List.count_cons_of_ne fun hgf => hclose (congrArg Event.vfsClose hgf), le_rfl⟩
    · obtain ⟨h₁, h₂⟩ := vfsFilePut_called h
      rw [h₁, h₂]
      exact ⟨rfl, le_rfl⟩

/-- The events of other files leave a file as it is. -/
theorem step_file (hlt : f < s.next) (h : step s e = some t) (hget : e ≠ .vfsFileGet f)
    (hclose : e ≠ .vfsClose f) : t.file f = s.file f := by
  cases e with
  | vfsOpen close opened =>
    have hne : f ≠ s.next := hlt.ne
    simp only [step, vfsOpen] at h
    split_ifs at h
    · obtain rfl := Option.some.inj h
      exact Function.update_of_ne hne _ _
    · rw [vfsFilePut_frame hne h]
      exact Function.update_of_ne hne _ _
  | vfsFileGet g =>
    have hne : f ≠ g := fun hfg => hget (hfg ▸ rfl)
    simp only [step, vfsFileGet] at h
    split_ifs at h
    obtain rfl := Option.some.inj h
    exact Function.update_of_ne hne _ _
  | vfsClose g =>
    have hne : f ≠ g := fun hfg => hclose (hfg ▸ rfl)
    simp only [step, vfsClose] at h
    split_ifs at h
    · exact vfsFilePut_frame (s := { s with called := g :: s.called }) hne h
    · exact vfsFilePut_frame hne h

/-- The first `vfs_close` of a file that has never been shared. -/
theorem step_close (hfile : s.file f = ⟨true, 1, true⟩) (h : step s (.vfsClose f) = some t) :
    (t.file f).live = false ∧ t.called.count f = s.called.count f + 1 ∧ t.next = s.next := by
  simp only [step, vfsClose, hfile, if_true] at h
  rw [vfsFilePut_eq (by rw [hfile])] at h
  obtain rfl := Option.some.inj h
  refine ⟨?_, List.count_cons_self, rfl⟩
  simp [setFile, hfile]

/-- A file with a close op keeps it, and gets a call with every `vfs_close`. -/
theorem step_count (hc : (s.file f).close = true) (h : step s (.vfsClose f) = some t) :
    t.called.count f = s.called.count f + 1 := by
  simp only [step, vfsClose, hc, if_true] at h
  split_ifs at h with hlive
  obtain rfl := Option.some.inj ((vfsFilePut_eq (by exact hlive)).symm.trans h)
  exact List.count_cons_self

/-- A freed file takes no more events. -/
theorem ne_of_dead (hdead : (s.file f).live = false) (h : step s e = some t) :
    e ≠ .vfsFileGet f ∧ e ≠ .vfsClose f := by
  constructor
  · rintro rfl
    simp [step, State.vfsFileGet, hdead] at h
  · rintro rfl
    simp [step, State.vfsClose, hdead] at h

theorem run_dead (hdead : (s.file f).live = false) (hlt : f < s.next)
    (h : Run.run step s es = some t) :
    t.file f = s.file f ∧ t.called.count f = s.called.count f ∧ .vfsFileGet f ∉ es := by
  induction es generalizing s with
  | nil => exact Option.some.inj h ▸ ⟨rfl, rfl, List.not_mem_nil⟩
  | cons e es ih =>
    obtain ⟨s', hs, hr⟩ := Option.bind_eq_some_iff.1 h
    obtain ⟨hget, hclose⟩ := ne_of_dead hdead hs
    have hfile := step_file hlt hs hget hclose
    obtain ⟨hcount, hnext⟩ := step_called hs hclose
    obtain ⟨hfile', hcount', hno⟩ := ih (hfile ▸ hdead) (hlt.trans_le hnext) hr
    refine ⟨hfile'.trans hfile, hcount'.trans hcount, fun hmem => ?_⟩
    rcases List.mem_cons.1 hmem with he | hmem
    · exact hget he.symm
    · exact hno hmem

/-- Events without a `vfs_close` of the file leave it alive, with its close op not called. -/
theorem run_open (hlive : (s.file f).live = true) (hc : (s.file f).close = true) (hlt : f < s.next)
    (hno : .vfsClose f ∉ es) (h : Run.run step s es = some t) :
    (t.file f).live = true ∧ (t.file f).close = true ∧ t.called.count f = s.called.count f ∧
      f < t.next ∧ (.vfsFileGet f ∉ es → t.file f = s.file f) := by
  induction es generalizing s with
  | nil => exact Option.some.inj h ▸ ⟨hlive, hc, rfl, hlt, fun _ => rfl⟩
  | cons e es ih =>
    obtain ⟨s', hs, hr⟩ := Option.bind_eq_some_iff.1 h
    obtain ⟨hne, hno'⟩ := not_or.1 (fun h => hno (List.mem_cons.2 h))
    by_cases hget : e = .vfsFileGet f
    · subst hget
      simp only [step, State.vfsFileGet, hlive, if_true] at hs
      obtain rfl := Option.some.inj hs
      obtain ⟨h₁, h₂, h₃, h₄, -⟩ := ih (s := s.setFile f ⟨_, _, _⟩) (by simp [setFile])
        (by simpa [setFile] using hc) hlt hno' hr
      exact ⟨h₁, h₂, h₃, h₄, fun hnot => absurd List.mem_cons_self hnot⟩
    · have hfile := step_file hlt hs hget fun he => hne he.symm
      obtain ⟨hcount, hnext⟩ := step_called hs fun he => hne he.symm
      obtain ⟨h₁, h₂, h₃, h₄, h₅⟩ := ih (hfile ▸ hlive) (hfile ▸ hc) (hlt.trans_le hnext) hno' hr
      exact ⟨h₁, h₂, h₃.trans hcount, h₄, fun hnot =>
        (h₅ fun hmem => hnot (List.mem_cons_of_mem _ hmem)).trans hfile⟩

/-- A run that goes on behind some of its events. -/
theorem run_append {es' : List Event} (h : Run.run step s (es ++ es') = some t) :
    ∃ u, Run.run step s es = some u ∧ Run.run step u es' = some t := by
  rw [Run.run_append] at h
  exact Option.bind_eq_some_iff.1 h

/-! ## The whole life -/

/-- A file that was just opened. -/
structure New (s : State) (f : ℕ) : Prop where
  file : s.file f = ⟨true, 1, true⟩
  lt : f < s.next
  count : s.called.count f = 0

/-- Files and calls have numbers that have been given out. -/
structure Numbered (s : State) : Prop where
  live : ∀ g, (s.file g).live = true → g < s.next
  called : ∀ g ∈ s.called, g < s.next

theorem Numbered.put (h : Numbered s) (hs : s.vfsFilePut f = some t) : Numbered t := by
  by_cases hlive : (s.file f).live = true
  · rw [vfsFilePut_eq hlive] at hs
    obtain rfl := Option.some.inj hs
    refine ⟨fun g hg => ?_, h.called⟩
    by_cases hgf : g = f
    · exact hgf ▸ h.live f hlive
    · refine h.live g ?_
      simpa [setFile, Function.update_of_ne hgf] using hg
  · unfold vfsFilePut at hs
    rw [if_neg hlive] at hs
    cases hs

theorem Numbered.new (h : Numbered s) (close : Bool) :
    Numbered { s.setFile s.next ⟨true, 1, close⟩ with next := s.next + 1 } := by
  refine ⟨fun g hg => ?_, fun g hg => (h.called g hg).trans s.next.lt_succ_self⟩
  by_cases hgn : g = s.next
  · exact hgn ▸ s.next.lt_succ_self
  · refine (h.live g ?_).trans s.next.lt_succ_self
    simpa [setFile, Function.update_of_ne hgn] using hg

theorem Numbered.step (h : Numbered s) (hs : step s e = some t) : Numbered t := by
  cases e with
  | vfsOpen close opened =>
    simp only [CloseHook.State.step, State.vfsOpen] at hs
    split_ifs at hs
    · exact Option.some.inj hs ▸ h.new close
    · exact (h.new close).put hs
  | vfsFileGet f =>
    simp only [CloseHook.State.step, State.vfsFileGet] at hs
    split_ifs at hs with hlive
    obtain rfl := Option.some.inj hs
    refine ⟨fun g hg => ?_, h.called⟩
    by_cases hgf : g = f
    · exact hgf ▸ h.live f hlive
    · refine h.live g ?_
      simpa [setFile, Function.update_of_ne hgf] using hg
  | vfsClose f =>
    simp only [CloseHook.State.step, State.vfsClose] at hs
    split_ifs at hs with hlive
    · have hcalled : Numbered { s with called := f :: s.called } :=
        ⟨h.live, List.forall_mem_cons.2 ⟨h.live f hlive, h.called⟩⟩
      exact hcalled.put hs
    · exact h.put hs

/-- What `vfs_open` returns is new. -/
theorem new_of_vfsOpen {s₀ : State} {es₀ : List Event} (h₀ : Run.run step init es₀ = some s₀)
    (h : step s₀ (.vfsOpen true true) = some s) : New s s₀.next := by
  have hnum : Numbered s₀ := Run.run_invariant (fun _ _ _ h hs => h.step hs)
    (⟨fun _ h => (Bool.noConfusion h), fun _ h => absurd h List.not_mem_nil⟩ : Numbered init) h₀
  obtain rfl := Option.some.inj h
  refine ⟨Function.update_self .., s₀.next.lt_succ_self, List.count_eq_zero.2 fun hmem => ?_⟩
  exact (hnum.called _ hmem).ne rfl

theorem New.run (h : New s f) (hno : .vfsClose f ∉ es) (hr : Run.run step s es = some t) :
    (t.file f).live = true ∧ (t.file f).close = true ∧ t.called.count f = 0 ∧ f < t.next ∧
      (.vfsFileGet f ∉ es → t.file f = ⟨true, 1, true⟩) := by
  obtain ⟨h₁, h₂, h₃, h₄, h₅⟩ := run_open (by rw [h.file]) (by rw [h.file]) h.lt hno hr
  exact ⟨h₁, h₂, h₃.trans h.count, h₄, fun hget => (h₅ hget).trans h.file⟩

/-- After the first `vfs_close` of a file that is not shared, it is freed, with one call of its close
op, and has no more events. -/
theorem New.closed (h : New s f) {pre post : List Event} (hes : es = pre ++ .vfsClose f :: post)
    (hno : .vfsClose f ∉ pre) (hget : .vfsFileGet f ∉ pre) (hr : Run.run step s es = some t) :
    (t.file f).live = false ∧ t.called.count f = 1 := by
  rw [hes] at hr
  obtain ⟨u, hu, hr'⟩ := run_append hr
  obtain ⟨-, -, hzero, hlt, hfile⟩ := h.run hno hu
  obtain ⟨v, hv, hpost⟩ := Option.bind_eq_some_iff.1 hr'
  obtain ⟨hdead, hcount, hnext⟩ := step_close (hfile hget) hv
  obtain ⟨hfile', hcount', -⟩ := run_dead hdead (hnext ▸ hlt) hpost
  exact ⟨hfile' ▸ hdead, by rw [hcount', hcount, hzero]⟩

/-- A file that is not shared has at most one `vfs_close`, and no event after it. -/
theorem New.not_closed_before (h : New s f) (hns : NotShared f es) {pre : List Event} {e : Event}
    {post : List Event} (hes : es = pre ++ e :: post) (hu : Run.run step s pre = some u)
    (hstep : step u e = some t) (he : e = .vfsClose f) :
    .vfsClose f ∉ pre ∧ .vfsFileGet f ∉ pre := by
  have hget : .vfsFileGet f ∉ pre := hns pre post (he ▸ hes)
  refine ⟨fun hmem => ?_, hget⟩
  obtain ⟨a, b, hpre, hno⟩ := List.eq_append_cons_of_mem hmem
  have hdead := (h.closed hpre hno (fun hg => hget (hpre ▸ List.mem_append_left _ hg)) hu).1
  subst he
  simp [step, State.vfsClose, hdead] at hstep

/-- For every life of a file with a close op, from `vfs_open` on : the close op is called exactly once,
by the `vfs_close` that drops the last reference, if and only if the file is not shared before a
`vfs_close`. -/
theorem closed_once_iff {s₀ : State} {es₀ : List Event} (h₀ : Run.run step init es₀ = some s₀)
    (hopen : step s₀ (.vfsOpen true true) = some s) (hrun : Run.run step s es = some t) :
    ClosedOnce s s₀.next es ↔ NotShared s₀.next es := by
  have hnew := new_of_vfsOpen h₀ hopen
  generalize s₀.next = f at hnew
  constructor
  · intro honce pre post hes hget
    obtain ⟨a, b, hes', hno⟩ := List.eq_append_cons_of_mem
      (show .vfsClose f ∈ es from hes ▸ List.mem_append_right _ List.mem_cons_self)
    obtain ⟨u, hu, hr⟩ := run_append (hes' ▸ hrun)
    obtain ⟨v, hv, hpost⟩ := Option.bind_eq_some_iff.1 hr
    obtain ⟨-, hclose, -, hlt, hfile⟩ := hnew.run hno hu
    by_cases hga : .vfsFileGet f ∈ a
    · -- the first `vfs_close` does not drop the last reference
      have hcount := step_count hclose hv
      obtain ⟨-, hrefs, -⟩ := honce.last a _ b u v hes' hu hv (by omega)
      have hpos : 0 < a.count (.vfsFileGet f) := List.count_pos_iff.2 hga
      rw [refs, List.count_eq_zero.2 hno] at hrefs
      omega
    · -- it does, and no `vfs_file_get` can follow
      obtain ⟨hdead, -, hnext⟩ := step_close (hfile hga) hv
      obtain ⟨-, -, hgb⟩ := run_dead hdead (hnext ▸ hlt) hpost
      have hmem : .vfsFileGet f ∈ a ++ .vfsClose f :: b :=
        hes' ▸ hes ▸ List.mem_append_left _ hget
      rcases List.mem_append.1 hmem with hmem | hmem
      · exact hga hmem
      · rcases List.mem_cons.1 hmem with he | hmem
        · exact Event.noConfusion he
        · exact hgb hmem
  · intro hns
    constructor
    · intro pre e post u v hes hu hv hne
      have he : e = .vfsClose f := by
        by_contra he
        exact hne (step_called hv he).1
      obtain ⟨hno, hget⟩ := hnew.not_closed_before hns hes hu hv he
      obtain ⟨-, hclose, -⟩ := hnew.run hno hu
      refine ⟨he, ?_, step_count hclose (he ▸ hv)⟩
      rw [refs, List.count_eq_zero.2 hno, List.count_eq_zero.2 hget]
      rfl
    · intro t' ht' hdead
      by_cases hmem : .vfsClose f ∈ es
      · obtain ⟨a, b, hes, hno⟩ := List.eq_append_cons_of_mem hmem
        exact (hnew.closed hes hno (hns a b hes) ht').2
      · obtain ⟨hlive, -⟩ := hnew.run hmem ht'
        exact absurd (hlive.symm.trans hdead) Bool.noConfusion

/-- A file whose reference is neither shared nor closed twice. -/
theorem closed_once_iff_close :
    ∃ s t, step init (.vfsOpen true true) = some s ∧
      Run.run step s [.vfsClose 0] = some t ∧
      (ClosedOnce s 0 [.vfsClose 0] ↔ NotShared 0 [.vfsClose 0]) :=
  ⟨_, _, rfl, rfl, closed_once_iff (show Run.run step init [] = some init from rfl) rfl rfl⟩

/-- After `vfs_file_get` the first of two `vfs_close` calls the close op. -/
theorem not_closed_once :
    ¬∀ (es₀ es : List Event) (s₀ s t : State), Run.run step init es₀ = some s₀ →
      step s₀ (.vfsOpen true true) = some s → Run.run step s es = some t →
        ClosedOnce s s₀.next es := by
  intro hall
  have honce := hall [] [.vfsFileGet 0, .vfsClose 0, .vfsClose 0] _ _ _ rfl rfl rfl
  obtain ⟨-, hrefs, -⟩ := honce.last [.vfsFileGet 0] (.vfsClose 0) [.vfsClose 0] _ _ rfl rfl rfl
    (by decide)
  exact absurd hrefs (by decide)

end Jeos.CloseHook
