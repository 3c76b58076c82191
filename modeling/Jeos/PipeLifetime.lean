import Jeos.FilesSpec
import Jeos.Lib.Run

/-!
# Pipes behind descriptors

`make_pipe_end` stores the operation table of a pipe end in the inode and leaves
`f->fops` null, while `vfs_read`, `vfs_write` and `vfs_close` only look at `f->fops`. So
a pipe stays as `pipe_create` made it, `sys_read` and `sys_write` return `VFS_ENOSYS`
(`pipe_io_unconnected`), and no call gives the pipe back.

`PipesReturned` is what closing should do : a pipe is with the allocator exactly when
no descriptor refers to it, and its write end counts as open while there is a
descriptor of it. A run of calls keeps it in every state exactly if no call takes the
last descriptor of a pipe or makes a pipe it has no room for (`pipes_returned_iff`).
-/

namespace Jeos

/-- The descriptors of the call are 32-bit numbers. -/
def FdEvent.Narrow : FdEvent → Prop
  | .sysClose _ fd => fd.toNat < 2 ^ 32
  | .sysDup _ fd => fd.toNat < 2 ^ 32
  | .sysDup2 _ oldFd newFd => oldFd.toNat < 2 ^ 32 ∧ newFd.toNat < 2 ^ 32
  | _ => True

namespace FileSystemState

/-- The descriptor refers to an end of the pipe. -/
def Refers (s : FileSystemState) (sl : FdSlot) (q : ℕ) : Prop :=
  ∃ i, s.fds sl = some i ∧ (s.file i).inode.priv = some q

/-- The descriptor refers to the write end of the pipe. -/
def RefersWriteEnd (s : FileSystemState) (sl : FdSlot) (q : ℕ) : Prop :=
  ∃ i, s.fds sl = some i ∧ (s.file i).inode.priv = some q ∧ (s.file i).inode.ino = pipeWriteEnd

/-- A pipe was given back once if no descriptor refers to it, and not otherwise, and its
write end is open as long as a descriptor refers to it. -/
def PipesReturned (s : FileSystemState) : Prop :=
  ∀ q < s.nextPipe, ((∃ sl, s.Refers sl q) → (s.pipe q).frees = 0) ∧
    ((¬∃ sl, s.Refers sl q) → (s.pipe q).frees = 1) ∧
    ((∃ sl, s.RefersWriteEnd sl q) → (s.pipe q).pipe.writeOpen ≠ 0)

/-- The call closes or replaces the descriptor, if it is open. -/
def Removes (s : FileSystemState) : FdEvent → FdSlot → Prop
  | .sysClose k fd, sl => sl.1 = k ∧ sl.2.val = fd.toNat
  | .sysDup2 k oldFd newFd, sl => sl.1 = k ∧ sl.2.val = newFd.toNat ∧ oldFd ≠ newFd ∧
      s.fdGet k (oldFd.setWidth 32) ≠ none
  | .sysExit k, sl => sl.1 = k
  | _, _ => False

/-- The process has room for the descriptors of a pipe that the call makes. -/
def HasRoom (s : FileSystemState) : FdEvent → Prop
  | .sysPipe k fdsPtr a => (validUserPtr fdsPtr && a.all) = true →
      ∃ fd fd', fd ≠ fd' ∧ s.fds (k, fd) = none ∧ s.fds (k, fd') = none
  | _ => True

/-- Every pipe with a descriptor that the call removes has another one, and a new pipe gets
its descriptors. -/
def KeepsPipes (s : FileSystemState) (e : FdEvent) : Prop :=
  s.HasRoom e ∧
    ∀ q, (∃ sl, s.Removes e sl ∧ s.Refers sl q) → ∃ sl, ¬s.Removes e sl ∧ s.Refers sl q

/-- The reference counts are right, processes that cannot run have no descriptors, and
pipes are unconnected and untouched. -/
structure PipesOk (s : FileSystemState) : Prop where
  files : FilesOk s []
  idle : ∀ k, (s.procState k).alive = false → ∀ fd, s.fds (k, fd) = none
  priv : ∀ i < s.nextFile, ∀ q, (s.file i).inode.priv = some q →
    q < s.nextPipe ∧ (s.file i).fops = none
  pipe : ∀ q < s.nextPipe, (s.pipe q).pipe = Pipe.create

variable {s s' : FileSystemState} {e : FdEvent} {q i : ℕ} {sl sl' : FdSlot}

theorem pipesOk_init : PipesOk init where
  files := ⟨fun i => by simp [init, SlotTable.refs], fun i => by simp [init],
    fun i => by simp [init], fun i _ => rfl⟩
  idle _ _ _ := rfl
  priv i hi := absurd hi (Nat.not_lt_zero i)
  pipe q hq := absurd hq (Nat.not_lt_zero q)

/-- What a call other than `sys_pipe` does to the pipes and the descriptors of pipes. -/
structure TableStep (s s' : FileSystemState) (e : FdEvent) : Prop where
  ok : PipesOk s'
  pipe : s'.pipe = s.pipe
  nextPipe : s'.nextPipe = s.nextPipe
  refers : ∀ q, (∃ sl, s'.Refers sl q) ↔ ∃ sl, ¬s.Removes e sl ∧ s.Refers sl q

/-- The descriptors of pipes in a table that holds the same old files. -/
theorem refers_iff (h : PipesOk s)
    (hold : ∀ i < s.nextFile, (s'.file i).inode = (s.file i).inode ∧
      (s'.file i).fops = (s.file i).fops) (hfd : s'.fds sl' = s.fds sl) :
    s'.Refers sl' q ↔ s.Refers sl q := by
  constructor <;> rintro ⟨i, hi, hq⟩
  · rw [hfd] at hi
    exact ⟨i, hi, (hold i (h.files.lt_of_fd hi)).1 ▸ hq⟩
  · exact ⟨i, hfd.trans hi, (hold i (h.files.lt_of_fd hi)).1.symm ▸ hq⟩

theorem not_refers_of_none (h : s.fds sl = none) : ¬s.Refers sl q := by
  rintro ⟨i, hi, -⟩
  rw [h] at hi
  exact absurd hi (by simp)

/-- Calls that make no objects : only the table changes. -/
theorem PipesOk.of_sameObjects (h : PipesOk s) (hok : FilesOk s' []) (hsame : SameObjects s s')
    (hidle : ∀ k, (s.procState k).alive = false → ∀ fd, s'.fds (k, fd) = none) : PipesOk s' where
  files := hok
  idle k hk := hidle k (hsame.procState ▸ hk)
  priv i hi q hq := by
    rw [hsame.fops i, hsame.nextPipe]
    exact h.priv i (hsame.nextFile ▸ hi) q (hsame.inode i ▸ hq)
  pipe q hq := by
    rw [hsame.pipe]
    exact h.pipe q (hsame.nextPipe ▸ hq)

theorem SameObjects.old (h : SameObjects s s') : ∀ i < s.nextFile,
    (s'.file i).inode = (s.file i).inode ∧ (s'.file i).fops = (s.file i).fops :=
  fun i _ => ⟨h.inode i, h.fops i⟩

/-- A table in which some descriptors are removed and nothing else happens. -/
theorem PipesOk.removed (h : PipesOk s) (hok : FilesOk s' []) (hsame : SameObjects s s')
    (hrem : ∀ sl, s.Removes e sl → s'.fds sl = none)
    (hkeep : ∀ sl, ¬s.Removes e sl → s'.fds sl = s.fds sl) : TableStep s s' e := by
  refine ⟨h.of_sameObjects hok hsame fun k hk fd => ?_, hsame.pipe, hsame.nextPipe, fun q => ?_⟩
  · by_cases hr : s.Removes e (k, fd)
    · exact hrem _ hr
    · rw [hkeep _ hr]
      exact h.idle k hk fd
  · constructor
    · rintro ⟨sl, hsl⟩
      have hr : ¬s.Removes e sl := fun hr => not_refers_of_none (hrem sl hr) hsl
      exact ⟨sl, hr, (refers_iff h hsame.old (hkeep sl hr)).1 hsl⟩
    · rintro ⟨sl, hr, hsl⟩
      exact ⟨sl, (refers_iff h hsame.old (hkeep sl hr)).2 hsl⟩

/-- A table in which one slot gets a copy of another and no third one changes. -/
theorem PipesOk.copied (h : PipesOk s) (hok : FilesOk s' []) (hsame : SameObjects s s')
    {src dst : FdSlot} (hsrc : s.fds src = some i) (hdst : (s.procState dst.1).alive = true)
    (hr : ∀ sl, s.Removes e sl → sl = dst) (hr' : ¬s.Removes e src)
    (hd : s.Removes e dst ∨ s.fds dst = none)
    (hfds : s'.fds = Function.update s.fds dst (some i)) : TableStep s s' e := by
  have hne : ∀ sl, sl ≠ dst → s'.fds sl = s.fds sl := fun sl h => by
    rw [hfds, Function.update_of_ne h]
  refine ⟨h.of_sameObjects hok hsame fun k hk fd => ?_, hsame.pipe, hsame.nextPipe, fun q => ?_⟩
  · rw [hne, h.idle k hk fd]
    rintro rfl
    rw [hdst] at hk
    exact absurd hk (by simp)
  · constructor
    · rintro ⟨sl, hsl⟩
      by_cases hsd : sl = dst
      · have he : s'.fds sl = s.fds src := by rw [hsd, hfds, Function.update_self, hsrc]
        exact ⟨src, hr', (refers_iff h hsame.old he).1 hsl⟩
      · exact ⟨sl, fun hrm => hsd (hr sl hrm), (refers_iff h hsame.old (hne sl hsd)).1 hsl⟩
    · rintro ⟨sl, hrm, hsl⟩
      refine ⟨sl, (refers_iff h hsame.old (hne sl fun hsd => ?_)).2 hsl⟩
      subst hsd
      rcases hd with hd | hd
      · exact hrm hd
      · exact not_refers_of_none hd hsl

/-- A process changes its state with an empty row of descriptors, or to one it can run in. -/
theorem PipesOk.setProcState (h : PipesOk s) {k : Fin maxProcs} {st : ProcState}
    (hk : st.alive = true ∨ ∀ fd, s.fds (k, fd) = none) : PipesOk (s.setProcState k st) where
  files := h.files.setProcState k st
  idle k' hk' fd := by
    change (Function.update s.procState k st k').alive = false at hk'
    rcases eq_or_ne k' k with rfl | hne
    · rcases hk with hk | hk
      · rw [Function.update_self, hk] at hk'
        exact absurd hk' (by simp)
      · exact hk fd
    · rw [Function.update_of_ne hne] at hk'
      exact h.idle k' hk' fd
  priv := h.priv
  pipe := h.pipe

theorem TableStep.setProcState (h : TableStep s s' e) {k : Fin maxProcs} {st : ProcState}
    (hk : st.alive = true ∨ ∀ fd, s'.fds (k, fd) = none) :
    TableStep s (s'.setProcState k st) e :=
  ⟨h.ok.setProcState hk, h.pipe, h.nextPipe, h.refers⟩

theorem PipesOk.sysOpen (h : PipesOk s) {k : Fin maxProcs}
    (hk : (s.procState k).alive = true) (opened : Option (VfsInode × Bool × Bool)) :
    ∃ s', s.sysOpen k opened = some s' ∧ TableStep s s' (.sysOpen k opened) := by
  obtain ⟨s', hs', hok, hpipe, hnp, hps, hnf, hold, hnew, hfds⟩ := sysOpen_spec h.files k opened
  have hpriv : ∀ i < s'.nextFile, ∀ q, (s'.file i).inode.priv = some q →
      q < s'.nextPipe ∧ (s'.file i).fops = none := fun i hi q hq => by
    rcases Nat.lt_or_ge i s.nextFile with hlt | hge
    · rw [(hold i hlt).2, hnp]
      exact h.priv i hlt q ((hold i hlt).1 ▸ hq)
    · rw [hnew i hge hi] at hq
      exact absurd hq (by simp)
  have hpipes : ∀ q < s'.nextPipe, (s'.pipe q).pipe = Pipe.create := fun q hq => by
    rw [hpipe]
    exact h.pipe q (hnp ▸ hq)
  have hrm : ∀ sl, ¬s.Removes (.sysOpen k opened) sl := fun _ hr => hr
  rcases hfds with hfds | ⟨fd, hfree, hlt, hfds⟩
  · refine ⟨s', hs', ⟨hok, fun k' hk' fd => ?_, hpriv, hpipes⟩, hpipe, hnp, fun q => ?_⟩
    · rw [hfds]
      exact h.idle k' (hps ▸ hk') fd
    · exact exists_congr fun sl => (refers_iff h hold (congrFun hfds sl)).trans
        (iff_and_self.2 fun _ => hrm sl)
  · have hne : ∀ sl, sl ≠ (k, fd) → s'.fds sl = s.fds sl := fun sl hsl => by
      rw [hfds, Function.update_of_ne hsl]
    refine ⟨s', hs', ⟨hok, fun k' hk' fd' => ?_, hpriv, hpipes⟩, hpipe, hnp, fun q => ?_⟩
    · rw [hne, h.idle k' (hps ▸ hk') fd']
      rintro ⟨⟩
      rw [hps, hk] at hk'
      exact absurd hk' (by simp)
    · refine exists_congr fun sl => ?_
      rcases eq_or_ne sl (k, fd) with rfl | hsl
      · refine iff_of_false ?_ fun hr => not_refers_of_none hfree hr.2
        rintro ⟨i, hi, hq⟩
        rw [hfds, Function.update_self, Option.some.injEq] at hi
        rw [← hi, hnew _ (Nat.le_refl _) hlt] at hq
        exact absurd hq (by simp)
      · exact (refers_iff h hold (hne sl hsl)).trans (iff_and_self.2 fun _ => hrm sl)

theorem PipesOk.sysDup2 (h : PipesOk s) {k : Fin maxProcs} (hk : (s.procState k).alive = true)
    {oldFd newFd : U64} (hfd : oldFd.toNat < 2 ^ 32) :
    ∃ s', s.sysDup2 k oldFd newFd = some s' ∧ TableStep s s' (.sysDup2 k oldFd newFd) := by
  obtain ⟨s', hs', hok, hsame, ⟨hfds, hno⟩ | ⟨i, fd, fd', hne, hon, hval, hget, hsrc, hfds⟩⟩ :=
    @sysDup2_spec s h.files k oldFd newFd hfd
  · refine ⟨s', hs', h.removed hok hsame ?_ fun sl _ => congrFun hfds sl⟩
    rintro sl ⟨-, hsl, hne, hget⟩
    rcases hno with hno | hno | hno
    · exact absurd hno hget
    · exact absurd hno hne
    · exact absurd sl.2.isLt (Nat.not_lt_of_le (hsl ▸ hno))
  · refine ⟨s', hs',
      h.copied hok hsame hsrc hk ?_ ?_ (Or.inl ⟨rfl, hval, hon, by simp [hget]⟩) hfds⟩
    · rintro ⟨k', fd''⟩ ⟨rfl, hsl, -⟩
      exact congrArg (Prod.mk k') (Fin.ext (hsl.trans hval.symm))
    · rintro ⟨-, hsl, -⟩
      exact hne (Fin.ext (hsl.trans hval.symm))

theorem PipesOk.sysDup (h : PipesOk s) {k : Fin maxProcs} (hk : (s.procState k).alive = true)
    (fd : U64) : ∃ s', s.sysDup k fd = some s' ∧ TableStep s s' (.sysDup k fd) := by
  obtain ⟨s', hs', hok, hsame, hfds | ⟨i, src, fd', hsrc, hfree, hfds⟩⟩ := sysDup_spec h.files k fd
  · exact ⟨s', hs', h.removed hok hsame (fun _ hr => hr.elim) fun sl _ => congrFun hfds sl⟩
  · exact ⟨s', hs', h.copied hok hsame hsrc hk (fun _ hr => hr.elim) (fun hr => hr)
      (Or.inr hfree) hfds⟩

theorem PipesOk.sysClose (h : PipesOk s) (k : Fin maxProcs) {fd : U64}
    (hfd : fd.toNat < 2 ^ 32) :
    ∃ s', s.sysClose k fd = some s' ∧ TableStep s s' (.sysClose k fd) := by
  obtain ⟨s', hs', hok, hsame, hfds⟩ := sysClose_spec h.files (k := k) hfd
  refine ⟨s', hs', h.removed hok hsame (fun sl hr => ?_) fun sl hr => ?_⟩
  · rw [hfds]
    exact if_pos hr
  · rw [hfds]
    exact if_neg hr

theorem PipesOk.sysExit (h : PipesOk s) (k : Fin maxProcs) :
    ∃ s', s.sysExit k = some s' ∧ TableStep s s' (.sysExit k) := by
  obtain ⟨s₁, hs₁, hok, hsame, hfds⟩ := procCloseFds_spec h.files k
  refine ⟨s₁.setProcState k .zombie, by rw [FileSystemState.sysExit, hs₁, Option.map_some],
    TableStep.setProcState (h.removed hok hsame (fun sl hr => ?_) fun sl hr => ?_)
      (Or.inr fun fd => ?_)⟩
  · rw [hfds]
    exact if_pos hr
  · rw [hfds]
    exact if_neg hr
  · rw [hfds]
    exact if_pos rfl

theorem PipesOk.reap (h : PipesOk s) {k : Fin maxProcs} (hk : s.procState k = .zombie) :
    TableStep s (s.setProcState k .unused) (.reap k) := by
  have hrefl : TableStep s s (.reap k) :=
    h.removed h.files (.refl s) (fun _ hr => hr.elim) fun _ _ => rfl
  exact hrefl.setProcState (Or.inr fun fd => h.idle k (by rw [hk]; rfl) fd)

theorem PipesOk.procFork (h : PipesOk s) {k : Fin maxProcs} (hk : (s.procState k).alive = true)
    (kstackOk pml4Ok : Bool) :
    ∃ s', s.procFork k kstackOk pml4Ok = some s' ∧
      TableStep s s' (.procFork k kstackOk pml4Ok) := by
  have hku : s.procState k ≠ .unused := fun e => by
    rw [e] at hk
    exact absurd hk (by decide)
  have hrm : ∀ sl, ¬s.Removes (.procFork k kstackOk pml4Ok) sl := fun _ hr => hr
  rcases procFork_spec h.files hku (fun c hc => h.idle c (by rw [hc]; rfl)) kstackOk pml4Ok with
    hs | ⟨c, s₁, hc, hs, hok, hsame, hfds⟩
  · exact ⟨s, hs, h.removed h.files (.refl s) (fun _ hr => hr.elim) fun _ _ => rfl⟩
  · have hkc : k ≠ c := fun e => hku (by rw [e, hc])
    have hcold : ∀ fd, s.fds (c, fd) = none := h.idle c (by rw [hc]; rfl)
    have hother : ∀ sl : FdSlot, sl.1 ≠ c → s₁.fds sl = s.fds sl := fun sl hsl => by
      rw [hfds]
      exact if_neg hsl
    have hrow : ∀ fd, s₁.fds (c, fd) = s.fds (k, fd) := fun fd => by
      rw [hfds]
      exact if_pos rfl
    have hold : ∀ i < s.nextFile, (s₁.file i).inode = (s.file i).inode ∧
        (s₁.file i).fops = (s.file i).fops := hsame.old
    refine ⟨_, hs, ⟨⟨hok.setProcState c .runnable, fun k' hk' fd => ?_, ?_, ?_⟩, hsame.pipe,
      hsame.nextPipe, fun q => ?_⟩⟩
    · have hkc' : k' ≠ c := fun e => by
        subst e
        simp [FileSystemState.setProcState, ProcState.alive] at hk'
      have hps : (s₁.setProcState c .runnable).procState k' = s.procState k' := by
        simp [FileSystemState.setProcState, hkc', hsame.procState]
      rw [hps] at hk'
      exact (hother (k', fd) hkc').trans (h.idle k' hk' fd)
    · intro i hi q hq
      have hi' : i < s.nextFile := hsame.nextFile ▸ hi
      have := h.priv i hi' q ((hold i hi').1 ▸ hq)
      exact ⟨hsame.nextPipe.symm ▸ this.1, (hold i hi').2.trans this.2⟩
    · intro q hq
      rw [show (s₁.setProcState c .runnable).pipe = s.pipe from hsame.pipe]
      exact h.pipe q (hsame.nextPipe ▸ hq)
    · constructor
      · rintro ⟨⟨k', fd⟩, i, hi, hq⟩
        have hi₁ : s₁.fds (k', fd) = some i := hi
        rcases eq_or_ne k' c with rfl | hne
        · rw [hrow] at hi₁
          exact ⟨(k, fd), hrm _, i, hi₁, (hold i (h.files.lt_of_fd hi₁)).1 ▸ hq⟩
        · rw [hother _ hne] at hi₁
          exact ⟨(k', fd), hrm _, i, hi₁, (hold i (h.files.lt_of_fd hi₁)).1 ▸ hq⟩
      · rintro ⟨⟨k', fd⟩, -, i, hi, hq⟩
        have hne : k' ≠ c := fun e => by
          rw [e, hcold] at hi
          exact absurd hi (by simp)
        exact ⟨(k', fd), i, (hother _ hne).trans hi,
          (hold i (h.files.lt_of_fd hi)).1.symm ▸ hq⟩

/-- What a `sys_pipe` that makes a pipe does to the pipes and their descriptors. -/
structure PipeStep (s s' : FileSystemState) (e : FdEvent) : Prop where
  ok : PipesOk s'
  nextPipe : s'.nextPipe = s.nextPipe + 1
  pipe : ∀ q < s.nextPipe, s'.pipe q = s.pipe q
  refers : ∀ q < s.nextPipe, (∃ sl, s'.Refers sl q) ↔ ∃ sl, s.Refers sl q
  room : s.HasRoom e → (s'.pipe s.nextPipe).frees = 1 ∧ (¬∃ sl, s'.Refers sl s.nextPipe) ∨
    (s'.pipe s.nextPipe).frees = 0 ∧ ∃ sl, s'.Refers sl s.nextPipe
  removes : ∀ sl, ¬s.Removes e sl
  noRoom : ¬s.HasRoom e → (s'.pipe s.nextPipe).frees = 0 ∧ ¬∃ sl, s'.Refers sl s.nextPipe

theorem PipeMade.pipesOk {frees : ℕ} (hm : PipeMade s s' frees) (h : PipesOk s)
    (hok : FilesOk s' [])
    (hidle : ∀ k, (s.procState k).alive = false → ∀ fd, s'.fds (k, fd) = none) : PipesOk s' where
  files := hok
  idle k hk := hidle k (hm.procState ▸ hk)
  priv i hi q hq := by
    rw [hm.nextPipe]
    rcases Nat.lt_or_ge i s.nextFile with hlt | hge
    · obtain ⟨hin, hfo⟩ := hm.old i hlt
      obtain ⟨h1, h2⟩ := h.priv i hlt q (hin ▸ hq)
      exact ⟨Nat.lt_succ_of_lt h1, hfo.trans h2⟩
    · obtain ⟨hpr, hfo⟩ := hm.new i hge hi
      obtain rfl : s.nextPipe = q := Option.some.inj (hpr.symm.trans hq)
      exact ⟨Nat.lt_succ_self _, hfo⟩
  pipe q hq := by
    rw [hm.pipe]
    rcases eq_or_ne q s.nextPipe with rfl | hne
    · rw [Function.update_self]
    · rw [Function.update_of_ne hne]
      rw [hm.nextPipe] at hq
      exact h.pipe q (by omega)

theorem PipeMade.pipe_old {frees : ℕ} (hm : PipeMade s s' frees) (hq : q < s.nextPipe) :
    s'.pipe q = s.pipe q := by
  rw [hm.pipe, Function.update_of_ne (Nat.ne_of_lt hq)]

theorem PipeMade.frees_new {frees : ℕ} (hm : PipeMade s s' frees) :
    (s'.pipe s.nextPipe).frees = frees := by
  rw [hm.pipe, Function.update_self]

/-- Without new descriptors there are none of the new pipe. -/
theorem PipeMade.not_refers {frees : ℕ} (hm : PipeMade s s' frees) (h : PipesOk s)
    (hfds : s'.fds = s.fds) : ¬∃ sl, s'.Refers sl s.nextPipe := by
  rintro ⟨sl, i, hi, hq⟩
  rw [hfds] at hi
  have hlt := h.files.lt_of_fd hi
  exact absurd (h.priv i hlt _ ((hm.old i hlt).1 ▸ hq)).1 (Nat.lt_irrefl _)

theorem PipesOk.sysPipe (h : PipesOk s) {k : Fin maxProcs} (hk : (s.procState k).alive = true)
    (fdsPtr : U64) (a : PipeAllocs) :
    ∃ s' r, s.sysPipe k fdsPtr a = some (s', r) ∧
      (TableStep s s' (.sysPipe k fdsPtr a) ∧ s.HasRoom (.sysPipe k fdsPtr a) ∨
        PipeStep s s' (.sysPipe k fdsPtr a)) := by
  obtain ⟨s', r, hs', hok, ⟨hno, hfds, hsame | hm⟩ | ⟨hall, hm, hcase⟩⟩ :=
    sysPipe_spec h.files k fdsPtr a
  · refine ⟨s', r, hs', Or.inl ⟨h.removed hok hsame (fun _ hr => hr.elim) fun sl _ =>
      congrFun hfds sl, fun hyes => ?_⟩⟩
    rw [hno] at hyes
    exact absurd hyes (by simp)
  · have hroom : s.HasRoom (.sysPipe k fdsPtr a) := fun hyes => by
      rw [hno] at hyes
      exact absurd hyes (by simp)
    refine ⟨s', r, hs', Or.inr ⟨hm.pipesOk h hok fun k' hk' fd => hfds ▸ h.idle k' hk' fd,
      hm.nextPipe, fun q hq => hm.pipe_old hq, fun q _ => ?_,
      fun _ => Or.inl ⟨hm.frees_new, hm.not_refers h hfds⟩, fun _ hr => hr,
      fun hnr => absurd hroom hnr⟩⟩
    exact exists_congr fun sl => refers_iff h hm.old (congrFun hfds sl)
  · rcases hcase with ⟨fd, fd', hne, -, hfd, hfd', hfds, -, -, hnf⟩ | ⟨hnone, hfds⟩
    · have hroom : s.HasRoom (.sysPipe k fdsPtr a) := fun _ => ⟨fd, fd', hne, hfd, hfd'⟩
      have hnew : ∀ i, s.nextFile ≤ i → i < s.nextFile + 2 →
          (s'.file i).inode.priv = some s.nextPipe := fun i hge hlt =>
        (hm.new i hge (hnf ▸ hlt)).1
      have hat : s'.fds (k, fd) = some s.nextFile := by
        rw [hfds, Function.update_of_ne (by simpa using hne), Function.update_self]
      have hat' : s'.fds (k, fd') = some (s.nextFile + 1) := by
        rw [hfds, Function.update_self]
      have hother : ∀ sl, sl ≠ (k, fd) → sl ≠ (k, fd') → s'.fds sl = s.fds sl := fun sl h1 h2 => by
        rw [hfds, Function.update_of_ne h2, Function.update_of_ne h1]
      refine ⟨s', r, hs', Or.inr ⟨hm.pipesOk h hok fun k' hk' fd₀ => ?_, hm.nextPipe,
        fun q hq => hm.pipe_old hq, fun q hq => exists_congr fun sl => ?_,
        fun _ => Or.inr ⟨hm.frees_new, (k, fd), _, hat, hnew _ (by omega) (by omega)⟩,
        fun _ hr => hr, fun hnr => absurd hroom hnr⟩⟩
      · have hkk : k' ≠ k := fun e => by
          rw [e, hk] at hk'
          exact absurd hk' (by simp)
        rw [hother _ (by simp [hkk]) (by simp [hkk])]
        exact h.idle k' hk' fd₀
      · -- The two new descriptors are of the new pipe and were free before.
        have hnewslot : ∀ {sl' i}, s'.fds sl' = some i → s.fds sl' = none → s.nextFile ≤ i →
            i < s.nextFile + 2 → (s'.Refers sl' q ↔ s.Refers sl' q) := by
          intro sl' i hi hfree hge hlt
          refine iff_of_false ?_ (not_refers_of_none hfree)
          rintro ⟨j, hj, hqj⟩
          obtain rfl : i = j := Option.some.inj (hi.symm.trans hj)
          have := Option.some.inj ((hnew i hge hlt).symm.trans hqj)
          omega
        by_cases h1 : sl = (k, fd)
        · rw [h1]
          exact hnewslot hat hfd (Nat.le_refl _) (by omega)
        · by_cases h2 : sl = (k, fd')
          · rw [h2]
            exact hnewslot hat' hfd' (by omega) (by omega)
          · exact refers_iff h hm.old (hother sl h1 h2)
    · have hroom : ¬s.HasRoom (.sysPipe k fdsPtr a) := fun hr => hnone (hr hall)
      refine ⟨s', r, hs', Or.inr ⟨hm.pipesOk h hok fun k' hk' fd => hfds ▸ h.idle k' hk' fd,
        hm.nextPipe, fun q hq => hm.pipe_old hq, fun q _ => ?_, fun hr => absurd hr hroom,
        fun _ hr => hr, fun _ => ⟨hm.frees_new, hm.not_refers h hfds⟩⟩⟩
      exact exists_congr fun sl => refers_iff h hm.old (congrFun hfds sl)

/-! ## Runs -/

/-- Every call of a process that can run returns, and is one of the two kinds. -/
theorem PipesOk.perform (h : PipesOk s) (he : s.Enabled e) (hn : e.Narrow) :
    ∃ s', s.perform e = some s' ∧ (TableStep s s' e ∧ s.HasRoom e ∨ PipeStep s s' e) := by
  have hroom : (∀ k p a, e ≠ .sysPipe k p a) → s.HasRoom e := fun hne => by
    cases e <;> first | exact absurd rfl (hne _ _ _) | trivial
  cases e with
  | sysOpen k opened =>
    obtain ⟨s', hs', ht⟩ := h.sysOpen he opened
    exact ⟨s', hs', Or.inl ⟨ht, hroom (by simp)⟩⟩
  | sysClose k fd =>
    obtain ⟨s', hs', ht⟩ := h.sysClose k hn
    exact ⟨s', hs', Or.inl ⟨ht, hroom (by simp)⟩⟩
  | sysDup k fd =>
    obtain ⟨s', hs', ht⟩ := h.sysDup he fd
    exact ⟨s', hs', Or.inl ⟨ht, hroom (by simp)⟩⟩
  | sysDup2 k oldFd newFd =>
    obtain ⟨s', hs', ht⟩ := h.sysDup2 he hn.1
    exact ⟨s', hs', Or.inl ⟨ht, hroom (by simp)⟩⟩
  | sysPipe k fdsPtr a =>
    obtain ⟨s', r, hs', hc⟩ := h.sysPipe he fdsPtr a
    exact ⟨s', by rw [FileSystemState.perform, hs', Option.map_some], hc⟩
  | procFork k kstackOk pml4Ok =>
    obtain ⟨s', hs', ht⟩ := h.procFork he kstackOk pml4Ok
    exact ⟨s', hs', Or.inl ⟨ht, hroom (by simp)⟩⟩
  | sysExit k =>
    obtain ⟨s', hs', ht⟩ := h.sysExit k
    exact ⟨s', hs', Or.inl ⟨ht, hroom (by simp)⟩⟩
  | reap k => exact ⟨_, rfl, Or.inl ⟨h.reap he, hroom (by simp)⟩⟩

theorem PipesOk.step (h : PipesOk s) (hn : e.Narrow) (hs : s.step e = some s') :
    TableStep s s' e ∧ s.HasRoom e ∨ PipeStep s s' e := by
  unfold FileSystemState.step at hs
  split_ifs at hs with he
  obtain ⟨s₁, hs₁, hc⟩ := h.perform he hn
  obtain rfl : s₁ = s' := Option.some.inj (hs₁.symm.trans hs)
  exact hc

theorem writeOpen_ne (h : PipesOk s) (hq : q < s.nextPipe) : (s.pipe q).pipe.writeOpen ≠ 0 := by
  rw [h.pipe q hq]
  decide

/-- A call that takes no pipe its last descriptor keeps the pipes returned. -/
theorem PipesReturned.step (hp : PipesReturned s) (h : PipesOk s) (hn : e.Narrow)
    (hk : s.KeepsPipes e) (hs : s.step e = some s') : PipesReturned s' ∧ PipesOk s' := by
  rcases h.step hn hs with ⟨ht, -⟩ | ht
  · refine ⟨fun q hq => ?_, ht.ok⟩
    have hq' : q < s.nextPipe := ht.nextPipe ▸ hq
    obtain ⟨h0, h1, -⟩ := hp q hq'
    rw [ht.refers q, ht.pipe]
    refine ⟨fun ⟨sl, _, hsl⟩ => h0 ⟨sl, hsl⟩, fun hno => h1 fun ⟨sl, hsl⟩ => ?_,
      fun _ => writeOpen_ne h hq'⟩
    by_cases hr : s.Removes e sl
    · exact hno (hk.2 q ⟨sl, hr, hsl⟩)
    · exact hno ⟨sl, hr, hsl⟩
  · refine ⟨fun q hq => ?_, ht.ok⟩
    rcases Nat.lt_succ_iff_lt_or_eq.1 (ht.nextPipe ▸ hq : q < s.nextPipe + 1) with hq' | rfl
    · obtain ⟨h0, h1, -⟩ := hp q hq'
      rw [ht.refers q hq', ht.pipe q hq']
      exact ⟨h0, h1, fun _ => writeOpen_ne h hq'⟩
    · rcases ht.room hk.1 with ⟨hf, hno⟩ | ⟨hf, hyes⟩
      · exact ⟨fun hyes => absurd hyes hno, fun _ => hf, fun _ => writeOpen_ne ht.ok hq⟩
      · exact ⟨fun _ => hf, fun hno => absurd hyes hno, fun _ => writeOpen_ne ht.ok hq⟩

/-- A call that takes a pipe its last descriptor loses the pipe. -/
theorem PipesReturned.not_step (hp : PipesReturned s) (h : PipesOk s) (hn : e.Narrow)
    (hk : ¬s.KeepsPipes e) (hs : s.step e = some s') : ¬PipesReturned s' := by
  intro hp'
  rcases h.step hn hs with ⟨ht, hroom⟩ | ht
  · refine hk ⟨hroom, fun q ⟨sl, hr, hsl⟩ => ?_⟩
    by_contra hno
    obtain ⟨i, hi, hq⟩ := hsl
    have hlt := (h.priv i (h.files.lt_of_fd hi) q hq).1
    have h1 := (hp' q (ht.nextPipe ▸ hlt)).2.1 (by rwa [ht.refers q])
    rw [ht.pipe, (hp q hlt).1 ⟨sl, i, hi, hq⟩] at h1
    exact absurd h1 (by simp)
  · have hroom : ¬s.HasRoom e := fun hroom =>
      hk ⟨hroom, fun q ⟨sl, hr, _⟩ => absurd hr (ht.removes sl)⟩
    obtain ⟨h0, hno⟩ := ht.noRoom hroom
    have h1 := (hp' s.nextPipe (ht.nextPipe.symm ▸ Nat.lt_succ_self _)).2.1 hno
    rw [h0] at h1
    exact absurd h1 (by simp)

/-- The pipes are returned in every state of a run exactly if each of its calls leaves every
pipe a descriptor and gives a new pipe its two. -/
theorem pipes_returned_iff {es : List FdEvent} {t : FileSystemState} (hn : ∀ e ∈ es, e.Narrow)
    (hr : Run.run step init es = some t) :
    Run.EachStep step KeepsPipes init es ↔ Run.Always step PipesReturned init es := by
  refine Run.eachStep_iff_always (I := fun s => PipesReturned s ∧ PipesOk s)
    (fun s e s' hi hg hc hs => hi.1.step hi.2 hg hc hs) (fun s hi => hi.1)
    (fun s e s' hi hg hc hs => hi.1.not_step hi.2 hg hc hs) ⟨fun q hq => ?_, pipesOk_init⟩ hn hr
  exact absurd hq (Nat.not_lt_zero q)

/-- Every call of a process that can run, with 32-bit descriptors, returns and touches no
freed file, and the pipes and counts stay right. -/
theorem pipesOk_of_run {es : List FdEvent} (hn : ∀ e ∈ es, e.Narrow)
    (hr : Run.run step init es = some s) : PipesOk s := by
  refine Run.run_invariant_of (fun s e s' h hn hs => ?_) pipesOk_init hn hr
  rcases h.step hn hs with ⟨ht, -⟩ | ht
  · exact ht.ok
  · exact ht.ok

/-- A pipe with both ends open and then closed : the second `sys_close` takes the last
descriptor, and the pipe is not given back. -/
theorem closed_pipe_leaks :
    ∃ s, Run.run step init [.sysPipe 0 0x1000 ⟨true, true, true, true, true⟩, .sysClose 0 0,
        .sysClose 0 1] = some s ∧ ¬PipesReturned s := by
  have hs : ((Run.run step init [.sysPipe 0 0x1000 ⟨true, true, true, true, true⟩, .sysClose 0 0,
      .sysClose 0 1]).map fun s => ((s.nextPipe, (s.pipe 0).frees),
        decide (∀ sl, s.fds sl = none))) = some ((1, 0), true) := by decide +kernel
  obtain ⟨s, hs, he⟩ := Option.map_eq_some_iff.1 hs
  simp only [Prod.mk.injEq, decide_eq_true_eq] at he
  obtain ⟨⟨hnp, hfrees⟩, hnone⟩ := he
  refine ⟨s, hs, fun hp => ?_⟩
  have h1 := (hp 0 (by omega)).2.1 fun ⟨sl, hsl⟩ => not_refers_of_none (hnone sl) hsl
  omega

theorem pipes_returned_iff_pipe :
    ∃ t, Run.run step init [.sysPipe 0 0x1000 ⟨true, true, true, true, true⟩] = some t ∧
      (Run.EachStep step KeepsPipes init [.sysPipe 0 0x1000 ⟨true, true, true, true, true⟩] ↔
        Run.Always step PipesReturned init
          [.sysPipe 0 0x1000 ⟨true, true, true, true, true⟩]) := by
  have hs : (Run.run step init
      [.sysPipe 0 0x1000 ⟨true, true, true, true, true⟩]).isSome := by decide
  obtain ⟨t, ht⟩ := Option.isSome_iff_exists.1 hs
  exact ⟨t, ht, pipes_returned_iff (by simp [FdEvent.Narrow]) ht⟩

/-! ## Reading and writing -/

/-- `sys_write` and `sys_read` on a descriptor of a pipe return an error, although the pipe is
as `pipe_create` made it : empty, with both ends open. -/
theorem pipe_io_unconnected {es : List FdEvent} (hn : ∀ e ∈ es, e.Narrow)
    (hr : Run.run step init es = some s) {k : Fin maxProcs} {fd : U64}
    (hfd : s.fdGet k (fd.setWidth 32) = some i) (hq : (s.file i).inode.priv = some q) :
    (s.pipe q).pipe = Pipe.create ∧
      ∀ buf len : U64, 0 < len.toNat → len.toNat ≤ pipeBuf →
        s.sysWrite k fd buf len ≠ .ret len ∧ s.sysRead k fd buf len ≠ .ret len ∧
        (validUserPtr buf = true → buf ≠ 0 →
          s.sysWrite k fd buf len = .ret vfsENOSYS ∧ s.sysRead k fd buf len = .ret vfsENOSYS) := by
  have h := pipesOk_of_run hn hr
  obtain ⟨fd', -, hslot⟩ := exists_fd_of_fdGet hfd
  obtain ⟨hlt, hfops⟩ := h.priv i (h.files.lt_of_fd hslot) q hq
  refine ⟨h.pipe q hlt, fun buf len _ hlen => ?_⟩
  have hne : ∀ v : U64, pipeBuf < v.toNat → v ≠ len := fun v hv e => by
    rw [e] at hv
    omega
  have hw : s.vfsWrite i buf ((len.setWidth 32).setWidth 64) =
      .ret (if buf = 0 then vfsEINVAL else vfsENOSYS) := by
    unfold vfsWrite
    rw [hfops]
    split_ifs <;> rfl
  have hrd : s.vfsRead i buf ((len.setWidth 32).setWidth 64) =
      .ret (if buf = 0 then vfsEINVAL else vfsENOSYS) := by
    unfold vfsRead
    rw [hfops]
    split_ifs <;> rfl
  have herr : (if buf = 0 then vfsEINVAL else vfsENOSYS) ≠ len := by
    split_ifs
    · exact hne _ (by decide)
    · exact hne _ (by decide)
  unfold sysWrite sysRead
  rw [hfd]
  dsimp only
  rw [hw, hrd]
  cases hv : validUserPtr buf with
  | false =>
    have hm : (-1 : U64) ≠ len := hne _ (by decide)
    exact ⟨fun e => hm (IoResult.ret.inj e), fun e => hm (IoResult.ret.inj e),
      fun hf => absurd hf (by simp)⟩
  | true =>
    refine ⟨fun e => herr (IoResult.ret.inj e), fun e => herr (IoResult.ret.inj e), fun _ h0 => ?_⟩
    rw [if_pos rfl, if_neg h0]
    exact ⟨rfl, rfl⟩

theorem pipe_io_unconnected_pipe :
    ∃ s, Run.run step init [.sysPipe 0 0x1000 ⟨true, true, true, true, true⟩] = some s ∧
      s.sysWrite 0 1 0x2000 1 ≠ .ret 1 := by
  have hs : (Run.run step init [.sysPipe 0 0x1000 ⟨true, true, true, true, true⟩]).map
      (fun s => (s.fdGet 0 (BitVec.setWidth 32 (1 : U64)), (s.file 1).inode.priv)) =
        some (some 1, some 0) := by decide
  obtain ⟨s, hs, he⟩ := Option.map_eq_some_iff.1 hs
  simp only [Prod.mk.injEq] at he
  obtain ⟨hfd, hq⟩ := he
  exact ⟨s, hs, ((pipe_io_unconnected (by simp [FdEvent.Narrow]) hs hfd hq).2 0x2000 1 (by decide)
    (by decide)).1⟩

/-- `sys_pipe` returns the descriptors 0 and 1, and writing one byte to 1 fails. -/
theorem pipe_write_fails :
    ((init.sysPipe 0 0x1000 ⟨true, true, true, true, true⟩).map fun (s, r) =>
      (r, s.sysWrite 0 1 0x2000 1)) = some (some (0, 1), .ret vfsENOSYS) := by
  decide

end FileSystemState

end Jeos
