import Jeos.Lib.Run
import Jeos.VfsSpec

/-!
# Dot-dot

From the child of a directory that is no mountpoint `..` leads back to the very dentry the walk
came from, unless the step down has freed it. From the root of a mount it leads to the
mountpoint, and stays there : this is the covered directory itself, not its parent. So `..`
undoes a component exactly if that is no mountpoint (or one that has its parent's inode), and the
directory was not put for the last time (`dotdot_iff`); after the mounts of a system without a
disk `/dev/..` is not `/` (`dev_dotdot`).
-/

namespace Jeos

namespace Vfs

set_option linter.unusedSectionVars false

variable {κ ι : Type} {env : Env κ ι} {s t u : State κ ι} {mnt : Mount} {a d x : ℕ}
  {i k ino : Inode ι} {p c : List U8}

/-! ## Joining paths -/

/-- A name that is neither `.` nor `..`. -/
structure IsComponent (c : List U8) : Prop where
  ne_nil : c ≠ []
  isName : ∀ b ∈ c, isName b = true
  ne_dot : c ≠ dot
  ne_dotdot : c ≠ dotdot

theorem components_append (hp : 0 ∉ p) (q : List U8) :
    components (p ++ slash :: q) = components p ++ components q := by
  have hzero : ∀ b ∈ p, (b != 0) = true := fun b hb => bne_iff_ne.2 fun h => hp (h ▸ hb)
  have htake : p.takeWhile (· != 0) = p := List.takeWhile_eq_self_iff.2 hzero
  rw [components, List.takeWhile_append_of_pos hzero, List.takeWhile_cons_of_pos (by decide),
    List.splitOn_append_cons_self, List.filter_append, components, components, htake]

theorem IsComponent.components_eq (hc : IsComponent c) : components c = [c] := by
  simpa [components] using components_word (r := []) hc.isName hc.ne_nil (by simp)

theorem zero_notMem_append (hp : 0 ∉ p) (hc : IsComponent c) : 0 ∉ p ++ slash :: c := by
  intro h
  rcases List.mem_append.1 h with h | h
  · exact hp h
  · rcases List.mem_cons.1 h with h | h
    · exact absurd h (by decide)
    · exact absurd (hc.isName 0 h) (by decide)

/-! ## Resolved directories -/

/-- The path leads to `d` in the mount `mnt`, with the inode `i`. -/
structure Resolves (env : Env κ ι) (s : State κ ι) (p : List U8) (mnt : Mount) (d : ℕ)
    (t : State κ ι) (i : Inode ι) : Prop where
  lookup : vfsLookup env p s = some (.ok (mnt, d), t)
  inode : inodeAt t d = some i

/-- The path leads to a directory with the number and the superblock of `i`. -/
def LeadsTo (env : Env κ ι) (s : State κ ι) (p : List U8) (i : Inode ι) : Prop :=
  ∃ mnt d t j, Resolves env s p mnt d t j ∧ j.Same i

/-- A mount covers a directory with this inode. -/
def Covered (s : State κ ι) (ino : Inode ι) : Prop :=
  ∃ m ∈ s.mounts, ∃ mp j, m.mountpoint = some mp ∧ inodeAt s mp = some j ∧ j.Same ino

/-- The next step down puts the directory for the last time, and it has no parent. -/
def LastPut (s : State κ ι) (mnt : Mount) (d : ℕ) : Prop :=
  s.rootDent ≠ some d ∧ mnt.root ≠ d ∧
    ∃ e, dentryAt s d = some e ∧ e.refcnt - 1 = 0 ∧ e.parent = none

/-- The next page of `kalloc` is none that the mount table names : it could be one only after a
root or a mountpoint has been freed. -/
def NotReused (env : Env κ ι) (s : State κ ι) : Prop :=
  ∀ a, (env.kalloc s).1 = some a → ∀ m ∈ s.mounts, m.root ≠ a ∧ m.mountpoint ≠ some a

instance (s : State κ ι) : Decidable (NotReused env s) :=
  inferInstanceAs (Decidable (∀ a ∈ (env.kalloc s).1, ∀ m ∈ s.mounts,
    m.root ≠ a ∧ m.mountpoint ≠ some a))

/-- The condition under which `..` behind the component `c` of the directory `d` with inode `i`
leads back : `c` is no mountpoint, and `d` is not freed; or `c` is a mountpoint and has the inode
of `d`. -/
def LeadsBack (env : Env κ ι) (s : State κ ι) (mnt : Mount) (d : ℕ) (i : Inode ι) (c : List U8) :
    Prop :=
  ∃ ino, fsChild env s i c = some ino ∧
    (¬Covered s ino ∧ ¬LastPut s mnt d ∨ Covered s ino ∧ ino.Same i)

/-! ## Down and up again -/

theorem climb_mountpoint {mp : ℕ} (h : mnt.mountpoint = some mp) :
    climb mnt mnt.root s = some (.ok mp, s) := by
  rw [climb, h, decide_eq_true rfl]
  rfl

theorem climb_of_ne {e : Dentry ι} (h : d ≠ mnt.root) (he : dentryAt s d = some e) :
    climb mnt d s = some (.ok (e.parent.getD d), s) := by
  rw [climb, decide_eq_false h]
  rcases mnt.mountpoint with _ | mp <;> exact Fallible.bind_ok (getDentry_of he)

theorem vfsLookup_append (hp : 0 ∉ p) (q : List U8) :
    vfsLookup env (p ++ slash :: q) = vfsLookup env p >>= fun x => walk env x (components q) := by
  rw [vfsLookup_eq, vfsLookup_eq, components_append hp, bind_assoc]
  simp only [walk_append]

/-- `p/c/..` is a step down and one up. -/
theorem vfsLookup_dotdot (hp : 0 ∉ p) (hc : IsComponent c) {m : Mount}
    (hx : vfsLookup env (p ++ slash :: c) s = some (.ok (m, x), u)) :
    vfsLookup env (p ++ slash :: c ++ slash :: dotdot) s =
      (climb m x >>= fun d => pure (m, d) : VfsM κ ι (Mount × ℕ)) u := by
  rw [vfsLookup_append (zero_notMem_append hp hc), Fallible.bind_ok hx]
  have hcomp : components dotdot = [dotdot] := by decide
  rw [hcomp, walk_cons, walkStep, if_neg (by decide), if_pos rfl, bind_assoc]
  rfl

theorem Inode.Same.symm {j : Inode ι} (h : i.Same j) : j.Same i := ⟨h.1.symm, h.2.symm⟩

theorem Inode.Same.trans {j : Inode ι} (h : i.Same j) (h' : j.Same k) : i.Same k :=
  ⟨h.1.trans h'.1, h.2.trans h'.2⟩

theorem leadsTo_iff {q : List U8} (h : vfsLookup env q s = some (.ok (mnt, d), t)) :
    LeadsTo env s q i ↔ ∃ j, inodeAt t d = some j ∧ j.Same i := by
  constructor
  · rintro ⟨mnt', d', t', j, hj, hsame⟩
    obtain ⟨hr, rfl⟩ := Prod.mk.inj (Option.some.inj (h.symm.trans hj.lookup))
    obtain ⟨rfl, rfl⟩ := Prod.mk.inj (Except.ok.inj hr)
    exact ⟨j, hj.inode, hsame⟩
  · rintro ⟨j, hj, hsame⟩
    exact ⟨mnt, d, t, j, ⟨h, hj⟩, hsame⟩

theorem inodeAt_eq_some : inodeAt s a = some i ↔ ∃ e, dentryAt s a = some e ∧ e.inode = some i :=
  Option.bind_eq_some_iff

theorem dentryAt_withChild_of_ne {fs : κ} {n : U32} (h : x ≠ a) :
    dentryAt (s.withChild fs a d c n ino) x = dentryAt s x := by
  rw [State.withChild, dentryAt_put_of_ne h, dentryAt_withFs]

/-- The dentry of a page in use is not in a free page. -/
theorem ne_of_free {e : Dentry ι} (he : dentryAt s x = some e) (ha : s.heap a = none) : x ≠ a := by
  rintro rfl
  rw [dentryAt_eq_none ha] at he
  cases he

/-- Down to a directory that is no mountpoint, and up again. -/
theorem leadsBack_of_child {fs : κ} {e : Dentry ι} (he : dentryAt t d = some e)
    (hi : e.inode = some i) (ha : t.heap a = none) (hra : mnt.root ≠ a)
    (hrel : release mnt d (t.withChild fs a d c 1 ino) = some (.ok (), u)) :
    climb mnt a u = some (.ok d, u) ∧
      ((∃ j, inodeAt u d = some j ∧ j.Same i) ↔ ¬LastPut t mnt d) := by
  have hda : d ≠ a := ne_of_free he ha
  have hd : dentryAt (t.withChild fs a d c 1 ino) d = some e := by
    rw [dentryAt_withChild_of_ne hda, he]
  have hchild : dentryAt (t.withChild fs a d c 1 ino) a = some ⟨1, c, some ino, some d, false⟩ :=
    dentryAt_put_self
  have hlast : LastPut t mnt d ↔
      (t.rootDent ≠ some d ∧ mnt.root ≠ d) ∧ e.refcnt - 1 = 0 ∧ e.parent = none := by
    constructor
    · rintro ⟨h₁, h₂, e₁, he₁, hput⟩
      obtain rfl := Option.some.inj (he₁.symm.trans he)
      exact ⟨⟨h₁, h₂⟩, hput⟩
    · rintro ⟨⟨h₁, h₂⟩, hput⟩
      exact ⟨h₁, h₂, e, he, hput⟩
  have hsame : i.Same i := ⟨rfl, rfl⟩
  unfold release at hrel
  split_ifs at hrel with hout
  · rw [dentryPut_of hd] at hrel
    obtain ⟨-, rfl⟩ := Prod.mk.inj (Option.some.inj hrel)
    split_ifs with hput
    · refine ⟨climb_of_ne hra.symm ((dentryAt_free_of_ne hda.symm).trans hchild), ?_⟩
      refine iff_of_false ?_ (not_not.2 (hlast.2 ⟨hout, hput⟩))
      rintro ⟨j, hj, -⟩
      rw [inodeAt, dentryAt_free_self] at hj
      cases hj
    · refine ⟨climb_of_ne hra.symm ((dentryAt_put_of_ne hda.symm).trans hchild), ?_⟩
      refine iff_of_true ⟨i, ?_, hsame⟩ fun h => hput (hlast.1 h).2
      rw [inodeAt, dentryAt_put_self]
      exact hi
  · obtain ⟨-, rfl⟩ := Prod.mk.inj (Option.some.inj hrel)
    refine ⟨climb_of_ne hra.symm hchild, iff_of_true ⟨i, ?_, hsame⟩ fun h => hout (hlast.1 h).1⟩
    exact inodeAt_eq_some.2 ⟨e, hd, hi⟩

/-- A step down and one up leads back exactly under the condition. -/
theorem leadsTo_dotdot_iff (hp : 0 ∉ p) (hc : IsComponent c) (h : Resolves env s p mnt d t i)
    (hmem : mnt ∈ t.mounts) (hnew : NotReused env t) {m : Mount}
    (hx : vfsLookup env (p ++ slash :: c) s = some (.ok (m, x), u)) :
    LeadsTo env s (p ++ slash :: c ++ slash :: dotdot) i ↔ LeadsBack env t mnt d i c := by
  have hup := vfsLookup_dotdot hp hc hx
  have hdown := hx
  rw [vfsLookup_append hp, Fallible.bind_ok h.lookup, hc.components_eq, walk_cons, walkStep,
    if_neg hc.ne_dot, if_neg hc.ne_dotdot] at hdown
  simp only [walk_nil, bind_pure] at hdown
  obtain ⟨⟨m', cur, child⟩, t₁, hstep, hrest⟩ := Fallible.bind_eq_ok.1 hdown
  obtain ⟨_, t₂, hrel, hpure⟩ := Fallible.bind_eq_ok.1 hrest
  obtain ⟨hr, rfl⟩ := Prod.mk.inj (Option.some.inj hpure)
  obtain ⟨rfl, rfl⟩ := Prod.mk.inj (Except.ok.inj hr)
  obtain ⟨e, i', a, ino, fs, he, hi', hpage, hino, hcase⟩ := lookupChild_ok hstep
  have ha := env.kalloc_fresh t a hpage
  obtain rfl : i' = i := by
    obtain ⟨e', he', hi⟩ := inodeAt_eq_some.1 h.inode
    obtain rfl := Option.some.inj (he.symm.trans he')
    exact Option.some.inj (hi'.symm.trans hi)
  rcases hcase with ⟨rfl, rfl, rfl, rfl, hfind⟩ | ⟨rfl, rfl, rfl, hfind⟩
  · -- no mountpoint
    have hcov : ¬Covered t ino := by
      rintro ⟨n, hn, mp, j, hmp, hj, hsame⟩
      obtain ⟨e', he', hj'⟩ := inodeAt_eq_some.1 hj
      refine (findByInode_none hfind).2 n hn mp e' j hmp ?_ hj' hsame
      rw [dentryAt_withChild_of_ne (ne_of_free he' ha), he']
    obtain ⟨hclimb, hiff⟩ := leadsBack_of_child he hi' ha (hnew _ hpage _ hmem).1 hrel
    rw [Fallible.bind_ok hclimb] at hup
    rw [leadsTo_iff hup, hiff, LeadsBack, hino]
    simp [hcov]
  · -- the walk goes on in the mounted root
    obtain ⟨-, hm, mp, e', j, hmp, he', hj, hsame⟩ := findByInode_some hfind
    have hma : mp ≠ a := fun he => (hnew a hpage _ hm).2 (he ▸ hmp)
    rw [dentryAt_withChild_of_ne hma] at he'
    have hcov : Covered t ino := ⟨_, hm, mp, j, hmp, inodeAt_eq_some.2 ⟨e', he', hj⟩, hsame⟩
    unfold release at hrel
    rw [if_neg (fun h => h.2 rfl)] at hrel
    obtain ⟨-, rfl⟩ := Prod.mk.inj (Option.some.inj hrel)
    rw [Fallible.bind_ok (climb_mountpoint hmp)] at hup
    have hat : inodeAt (t.withChild fs a d c 0 ino) mp = some j := by
      rw [inodeAt, dentryAt_withChild_of_ne hma, he']
      exact hj
    have hiff : (∃ j', inodeAt (t.withChild fs a d c 0 ino) mp = some j' ∧ j'.Same i') ↔
        ino.Same i' := by
      rw [hat]
      constructor
      · rintro ⟨j', ⟨⟩, hj'⟩
        exact hsame.symm.trans hj'
      · exact fun h => ⟨j, rfl, hsame.trans h⟩
    rw [leadsTo_iff hup, hiff, LeadsBack, hino]
    simp [hcov]

/-! ## The root of the namespace -/

/-- The mount table is the same, and the root dentry is still there, with its parent. -/
structure KeepsRoot (s t : State κ ι) : Prop where
  mounts : t.mounts = s.mounts
  rootMnt : t.rootMnt = s.rootMnt
  rootDent : t.rootDent = s.rootDent
  dentry : ∀ r e, s.rootDent = some r → dentryAt s r = some e →
    ∃ e', dentryAt t r = some e' ∧ e'.parent = e.parent

theorem KeepsRoot.refl (s : State κ ι) : KeepsRoot s s :=
  ⟨rfl, rfl, rfl, fun _ e _ he => ⟨e, he, rfl⟩⟩

theorem KeepsRoot.trans (s t u : State κ ι) (h : KeepsRoot s t) (h' : KeepsRoot t u) :
    KeepsRoot s u where
  mounts := h'.mounts.trans h.mounts
  rootMnt := h'.rootMnt.trans h.rootMnt
  rootDent := h'.rootDent.trans h.rootDent
  dentry r e hr he := by
    obtain ⟨e₁, he₁, hp₁⟩ := h.dentry r e hr he
    obtain ⟨e₂, he₂, hp₂⟩ := h'.dentry r e₁ (h.rootDent.trans hr) he₁
    exact ⟨e₂, he₂, hp₂.trans hp₁⟩

/-- The mount table is the same, and the root dentry too. -/
structure SameRoot (s t : State κ ι) : Prop where
  mounts : t.mounts = s.mounts
  rootMnt : t.rootMnt = s.rootMnt
  rootDent : t.rootDent = s.rootDent
  dentry : ∀ r e, s.rootDent = some r → dentryAt s r = some e → dentryAt t r = some e

theorem SameRoot.refl (s : State κ ι) : SameRoot s s := ⟨rfl, rfl, rfl, fun _ _ _ he => he⟩

theorem SameRoot.trans (s t u : State κ ι) (h : SameRoot s t) (h' : SameRoot t u) : SameRoot s u :=
  ⟨h'.mounts.trans h.mounts, h'.rootMnt.trans h.rootMnt, h'.rootDent.trans h.rootDent,
    fun r e hr he => h'.dentry r e (h.rootDent.trans hr) (h.dentry r e hr he)⟩

theorem SameRoot.keepsRoot (h : SameRoot s t) : KeepsRoot s t :=
  ⟨h.mounts, h.rootMnt, h.rootDent, fun r e hr he => ⟨e, h.dentry r e hr he, rfl⟩⟩

theorem Grow.sameRoot (h : Grow s t) : SameRoot s t :=
  ⟨h.mounts, h.rootMnt, h.rootDent, fun _ _ _ he => h.dentryAt he⟩

theorem Grow.keepsRoot (h : Grow s t) : KeepsRoot s t := h.sameRoot.keepsRoot

theorem sameRoot_of_readOnly {α : Type} {x : VfsM κ ι α}
    (h : Fallible.Keeps (@Eq (State κ ι)) x) : Fallible.Keeps SameRoot x :=
  h.mono fun s t (e : s = t) => e ▸ SameRoot.refl s

/-- The walkers put any dentry but the root. -/
theorem release_sameRoot : Fallible.Keeps SameRoot (release mnt d : VfsM κ ι Unit) := by
  intro s r t h
  unfold release at h
  split_ifs at h with hout
  · rcases Fallible.bind_eq_some.1 h with ⟨e, hd, -⟩ | ⟨e, s₁, hd, hput⟩
    · exact sameRoot_of_readOnly getDentry_readOnly s _ t hd
    obtain ⟨-, rfl⟩ := getDentry_eq_ok.1 hd
    have hne : ∀ r', s₁.rootDent = some r' → r' ≠ d := fun r' hr' hrd => hout.1 (hrd ▸ hr')
    split_ifs at hput
    · obtain ⟨-, rfl⟩ := Prod.mk.inj (Option.some.inj hput)
      exact ⟨rfl, rfl, rfl, fun r' e' hr' he' => (dentryAt_free_of_ne (hne r' hr')).trans he'⟩
    · obtain ⟨-, rfl⟩ := Prod.mk.inj (Option.some.inj hput)
      exact ⟨rfl, rfl, rfl, fun r' e' hr' he' => (dentryAt_put_of_ne (hne r' hr')).trans he'⟩
  · obtain ⟨-, rfl⟩ := Prod.mk.inj (Option.some.inj h)
    exact SameRoot.refl s

theorem release_keepsRoot : Fallible.Keeps KeepsRoot (release mnt d : VfsM κ ι Unit) :=
  release_sameRoot.mono fun _ _ => SameRoot.keepsRoot

theorem walkStep_sameRoot (y : Mount × ℕ) (name : List U8) :
    Fallible.Keeps SameRoot (walkStep env y name) := by
  obtain ⟨mnt, cur⟩ := y
  unfold walkStep
  dsimp only
  split_ifs
  · exact Fallible.Keeps.pure SameRoot.refl _
  · exact (sameRoot_of_readOnly climb_readOnly).bind SameRoot.trans fun _ =>
      Fallible.Keeps.pure SameRoot.refl _
  · refine (lookupChild_grow.mono fun _ _ => Grow.sameRoot).bind SameRoot.trans fun _ => ?_
    exact release_sameRoot.bind SameRoot.trans fun _ => Fallible.Keeps.pure SameRoot.refl _

theorem walk_sameRoot (y : Mount × ℕ) (names : List (List U8)) :
    Fallible.Keeps SameRoot (walk env y names) :=
  Fallible.Keeps.foldlM SameRoot.refl SameRoot.trans walkStep_sameRoot y names

theorem keepsRoot_of_readOnly {α : Type} {x : VfsM κ ι α}
    (h : Fallible.Keeps (@Eq (State κ ι)) x) : Fallible.Keeps KeepsRoot x :=
  (sameRoot_of_readOnly h).mono fun _ _ => SameRoot.keepsRoot

theorem walk_keepsRoot (y : Mount × ℕ) (names : List (List U8)) :
    Fallible.Keeps KeepsRoot (walk env y names) :=
  (walk_sameRoot y names).mono fun _ _ => SameRoot.keepsRoot

theorem vfsLookup_keepsRoot (path : List U8) : Fallible.Keeps KeepsRoot (vfsLookup env path) := by
  rw [vfsLookup_eq]
  exact (keepsRoot_of_readOnly start_readOnly).bind KeepsRoot.trans fun y => walk_keepsRoot y _

/-- The root mount is in the table, covers nothing, and its root has no parent. -/
def Rooted (s : State κ ι) : Prop :=
  ∀ m, s.rootMnt = some m → m ∈ s.mounts ∧ s.rootDent = some m.root ∧ m.mountpoint = none ∧
    ∃ e, dentryAt s m.root = some e ∧ e.parent = none

theorem KeepsRoot.rooted (h : KeepsRoot s t) (hs : Rooted s) : Rooted t := by
  intro m hm
  obtain ⟨hmem, hroot, hmp, e, he, hp⟩ := hs m (h.rootMnt ▸ hm)
  obtain ⟨e', he', hp'⟩ := h.dentry m.root e hroot he
  exact ⟨h.mounts ▸ hmem, h.rootDent.trans hroot, hmp, e', he', hp'.trans hp⟩

theorem kalloc_some {g : Page ι} (h : kalloc env g s = some (.ok (some a), t)) :
    s.heap a = none ∧ t.heap a = some g := by
  unfold kalloc at h
  split at h
  · cases h
  · rename_i b fs hb
    obtain ⟨hr, rfl⟩ := Prod.mk.inj (Option.some.inj h)
    obtain rfl := Option.some.inj (Except.ok.inj hr)
    exact ⟨env.kalloc_fresh s b (by rw [hb]), Function.update_self ..⟩

theorem fsMount_grow {type : List U8} {sb device : ℕ} :
    Fallible.Keeps Grow (fsMount env type sb device) := by
  refine Fallible.Keeps.bind Grow.trans ?_ fun x => ?_
  · intro s r t h
    obtain ⟨-, rfl⟩ := Prod.mk.inj (Option.some.inj h)
    exact ⟨rfl, rfl, rfl, fun _ _ => rfl⟩
  rcases x with ⟨rc, _ | ino⟩
  · exact Fallible.Keeps.pure Grow.refl _
  · refine (kalloc_grow _).bind Grow.trans fun root => ?_
    rcases root with _ | root <;> exact Fallible.Keeps.pure Grow.refl _

/-- `sb->root` is a dentry without a parent. -/
theorem fsMount_root {type : List U8} {sb device root : ℕ} {rc : ℤ}
    (h : fsMount env type sb device s = some (.ok (rc, some root), t)) :
    ∃ e, dentryAt t root = some e ∧ e.parent = none := by
  unfold fsMount at h
  obtain ⟨⟨rc', ino⟩, s₁, -, h₁⟩ := Fallible.bind_eq_ok.1 h
  rcases ino with _ | ino
  · cases h₁
  obtain ⟨x, s₂, ha, h₂⟩ := Fallible.bind_eq_ok.1 h₁
  rcases x with _ | a
  · cases h₂
  · obtain ⟨hr, rfl⟩ := Prod.mk.inj (Option.some.inj h₂)
    obtain rfl := Option.some.inj (Prod.mk.inj (Except.ok.inj hr)).2
    exact ⟨_, by rw [dentryAt, (kalloc_some ha).2], rfl⟩

theorem mountTarget_keepsRoot {target : List U8} :
    Fallible.Keeps KeepsRoot (mountTarget env target) := by
  intro s r t h
  unfold mountTarget at h
  split_ifs at h
  · obtain ⟨-, rfl⟩ := Prod.mk.inj (Option.some.inj h)
    exact KeepsRoot.refl s
  · refine (vfsLookup_keepsRoot target).bind KeepsRoot.trans (fun y => ?_) s r t h
    refine (keepsRoot_of_readOnly getDentry_readOnly).bind KeepsRoot.trans fun e => ?_
    rcases e.inode with _ | i
    · exact Fallible.Keeps.throw KeepsRoot.refl _
    · dsimp only
      split_ifs
      · exact Fallible.Keeps.pure KeepsRoot.refl _
      · exact Fallible.Keeps.throw KeepsRoot.refl _

theorem Rooted.withFs (h : Rooted s) (fs : κ) : Rooted (s.withFs fs) := h

/-- The page of a superblock is not the root. -/
theorem Rooted.free (h : Rooted s) (ha : s.heap a = some .superblock) : Rooted (s.free a) := by
  intro m hm
  obtain ⟨hmem, hroot, hmp, e, he, hp⟩ := h m hm
  have hne : m.root ≠ a := by
    rintro rfl
    rw [dentryAt, ha] at he
    cases he
  exact ⟨hmem, hroot, hmp, e, (dentryAt_free_of_ne hne).trans he, hp⟩

theorem Rooted.addMount {r : Except ℤ Unit} {e : Dentry ι} (hs : Rooted s)
    (hroot : dentryAt s mnt.root = some e) (hp : e.parent = none)
    (h : addMount mnt s = some (r, t)) : Rooted t := by
  unfold Vfs.addMount at h
  rcases hmp : mnt.mountpoint with _ | mp <;> rw [hmp] at h
  · obtain ⟨-, rfl⟩ := Prod.mk.inj (Option.some.inj h)
    rintro m ⟨⟩
    exact ⟨List.mem_cons_self, rfl, hmp, e, hroot, hp⟩
  · dsimp only at h
    rcases Fallible.bind_eq_some.1 h with ⟨e₁, hd, -⟩ | ⟨e₁, s₁, hd, hset⟩
    · rw [← getDentry_readOnly s _ t hd]
      exact hs
    obtain ⟨hd, rfl⟩ := getDentry_eq_ok.1 hd
    obtain ⟨-, rfl⟩ := Prod.mk.inj (Option.some.inj hset)
    intro m hm
    obtain ⟨hmem, hdent, hnone, e₂, he₂, hp₂⟩ := hs m hm
    refine ⟨List.mem_cons_of_mem _ hmem, hdent, hnone, ?_⟩
    by_cases hmr : m.root = mp
    · subst hmr
      obtain rfl := Option.some.inj (he₂.symm.trans hd)
      exact ⟨{ e₂ with isMountpoint := true }, by simp [dentryAt], hp₂⟩
    · exact ⟨e₂, (dentryAt_put_of_ne hmr).trans he₂, hp₂⟩

theorem vfsMount_rooted {type target : List U8} {device : ℕ} {r : Except ℤ Unit} (hs : Rooted s)
    (h : vfsMount env type device target s = some (r, t)) : Rooted t := by
  unfold vfsMount at h
  split_ifs at h
  swap
  · obtain ⟨-, rfl⟩ := Prod.mk.inj (Option.some.inj h)
    exact hs
  rcases Fallible.bind_eq_some.1 h with ⟨e, hmp, -⟩ | ⟨mp, s₁, hmp, h₁⟩
  · exact (mountTarget_keepsRoot s _ t hmp).rooted hs
  have hs₁ := (mountTarget_keepsRoot s _ s₁ hmp).rooted hs
  rcases Fallible.bind_eq_some.1 h₁ with ⟨e, hsb, -⟩ | ⟨x, s₂, hsb, h₂⟩
  · exact (kalloc_grow _ s₁ _ t hsb).keepsRoot.rooted hs₁
  have hs₂ := (kalloc_grow _ s₁ _ s₂ hsb).keepsRoot.rooted hs₁
  rcases x with _ | sb
  · obtain ⟨-, rfl⟩ := Prod.mk.inj (Option.some.inj h₂)
    exact hs₂
  obtain ⟨-, hheap⟩ := kalloc_some hsb
  rcases Fallible.bind_eq_some.1 h₂ with ⟨e, hfs, -⟩ | ⟨⟨rc, root⟩, s₃, hfs, h₃⟩
  · exact (fsMount_grow s₂ _ t hfs).keepsRoot.rooted hs₂
  have hgrow := fsMount_grow s₂ _ s₃ hfs
  have hs₃ := hgrow.keepsRoot.rooted hs₂
  have hsb₃ : s₃.heap sb = some .superblock := by
    rw [hgrow.heap sb (by rw [hheap]; exact Option.some_ne_none _), hheap]
  dsimp only at h₃
  split_ifs at h₃
  · obtain ⟨-, rfl⟩ := Prod.mk.inj (Option.some.inj h₃)
    exact hs₃.free hsb₃
  rcases root with _ | root
  · obtain ⟨-, rfl⟩ := Prod.mk.inj (Option.some.inj h₃)
    exact (hs₃.withFs _).free hsb₃
  obtain ⟨e, he, hp⟩ := fsMount_root hfs
  rcases Fallible.bind_eq_some.1 h₃ with ⟨e', hpage, -⟩ | ⟨y, s₄, hpage, h₄⟩
  · exact (kalloc_grow _ s₃ _ t hpage).keepsRoot.rooted hs₃
  have hgrow₄ := kalloc_grow _ s₃ _ s₄ hpage
  have hs₄ := hgrow₄.keepsRoot.rooted hs₃
  rcases y with _ | page
  · obtain ⟨-, rfl⟩ := Prod.mk.inj (Option.some.inj h₄)
    refine (hs₄.withFs _).free ?_
    exact (hgrow₄.heap sb (by rw [hsb₃]; exact Option.some_ne_none _)).trans hsb₃
  · exact hs₄.addMount (hgrow₄.dentryAt he) hp h₄

/-! ## Mount tables -/

/-- A call of `vfs_mount` : type, device and target. -/
def mountStep (env : Env κ ι) (s : State κ ι) : List U8 × ℕ × List U8 → Option (State κ ι)
  | (type, device, target) => (vfsMount env type device target s).map Prod.snd

/-- In every state that calls of `vfs_mount` lead to, the root is in the mount table. -/
theorem rooted_of_run {fsTypes : List (List U8)} {fs : κ} {calls : List (List U8 × ℕ × List U8)}
    (h : Run.run (mountStep env) (init fsTypes fs) calls = some s) : Rooted s := by
  refine Run.run_invariant (I := Rooted) ?_ (fun m hm => by cases hm) h
  rintro s ⟨type, device, target⟩ t hs hstep
  obtain ⟨⟨r, t'⟩, hmount, rfl⟩ := Option.map_eq_some_iff.1 hstep
  exact vfsMount_rooted hs hmount

/-- Where a walk starts : in the root mount, or in one that covers the root. -/
theorem start_ok (hs : Rooted s) (h : start s = some (.ok (mnt, d), t)) :
    t = s ∧ mnt ∈ s.mounts ∧ d = mnt.root ∧
      (mnt.mountpoint = none → ∃ e, dentryAt s d = some e ∧ e.parent = none) := by
  obtain rfl := start_readOnly s _ t h
  unfold start at h
  rcases hm : s.rootMnt with _ | m
  · rw [hm] at h
    cases h
  obtain ⟨hmem, hroot, hmp, e, he, hp⟩ := hs m hm
  rw [hm, hroot] at h
  have hroot' : some (Except.ok (m, m.root), s) = some (Except.ok (ε := ℤ) (mnt, d), s) →
      s = s ∧ mnt ∈ s.mounts ∧ d = mnt.root ∧
        (mnt.mountpoint = none → ∃ e, dentryAt s d = some e ∧ e.parent = none) := by
    rintro ⟨⟩
    exact ⟨rfl, hmem, rfl, fun _ => ⟨e, he, hp⟩⟩
  change followOverlay m m.root s = _ at h
  unfold followOverlay at h
  rw [Fallible.bind_ok (getDentry_of he)] at h
  split_ifs at h
  · obtain ⟨x, s₁, hx, h₁⟩ := Fallible.bind_eq_ok.1 h
    obtain ⟨hfind, rfl⟩ := Prod.mk.inj (Option.some.inj hx)
    rcases x with _ | o
    · exact hroot' h₁
    · obtain ⟨hr, -⟩ := Prod.mk.inj (Option.some.inj h₁)
      obtain ⟨rfl, rfl⟩ := Prod.mk.inj (Except.ok.inj hr)
      have ho := Except.ok.inj hfind
      have hcov : o.mountpoint = some m.root := by simpa using List.find?_some ho
      exact ⟨rfl, List.mem_of_find?_eq_some ho, rfl, fun hn => by rw [hcov] at hn; cases hn⟩
  · exact hroot' h

/-- A walk stays in the mounts of the table. -/
theorem walk_mem {names : List (List U8)} {m : Mount} (hm : mnt ∈ s.mounts)
    (h : walk env (mnt, d) names s = some (.ok (m, x), t)) : m ∈ t.mounts := by
  induction names generalizing mnt d s with
  | nil =>
    obtain ⟨hr, rfl⟩ := Prod.mk.inj (Option.some.inj h)
    obtain ⟨rfl, -⟩ := Prod.mk.inj (Except.ok.inj hr)
    exact hm
  | cons name names ih =>
    rw [walk_cons] at h
    obtain ⟨⟨m', d'⟩, s₁, hstep, hrest⟩ := Fallible.bind_eq_ok.1 h
    refine ih ?_ hrest
    rw [(walkStep_sameRoot _ _ s _ s₁ hstep).mounts]
    unfold walkStep at hstep
    dsimp only at hstep
    split_ifs at hstep
    · obtain ⟨hr, -⟩ := Prod.mk.inj (Option.some.inj hstep)
      rwa [← (Prod.mk.inj (Except.ok.inj hr)).1]
    · obtain ⟨y, s₂, -, h₂⟩ := Fallible.bind_eq_ok.1 hstep
      obtain ⟨hr, -⟩ := Prod.mk.inj (Option.some.inj h₂)
      rwa [← (Prod.mk.inj (Except.ok.inj hr)).1]
    · obtain ⟨⟨m₁, cur, child⟩, s₂, hchild, h₂⟩ := Fallible.bind_eq_ok.1 hstep
      obtain ⟨_, s₃, -, h₃⟩ := Fallible.bind_eq_ok.1 h₂
      obtain ⟨hr, -⟩ := Prod.mk.inj (Option.some.inj h₃)
      obtain rfl := (Prod.mk.inj (Except.ok.inj hr)).1
      obtain ⟨e, i', a', ino', fs, -, -, -, -, hcase⟩ := lookupChild_ok hchild
      rcases hcase with ⟨rfl, -⟩ | ⟨-, -, -, hfind⟩
      · exact hm
      · exact (findByInode_some hfind).2.1

theorem Resolves.mem (hs : Rooted s) (h : Resolves env s p mnt d t i) : mnt ∈ t.mounts := by
  have hlookup := h.lookup
  rw [vfsLookup_eq] at hlookup
  obtain ⟨⟨m, d'⟩, s₁, hstart, hwalk⟩ := Fallible.bind_eq_ok.1 hlookup
  obtain ⟨rfl, hm, -⟩ := start_ok hs hstart
  exact walk_mem hm hwalk

/-- `/..` leads to `/` exactly if nothing is mounted over the root, or something with the inode
it covers. -/
theorem root_dotdot_iff (hs : Rooted s) (h : Resolves env s [slash] mnt d t i) :
    LeadsTo env s (slash :: dotdot) i ↔
      ∀ mp, mnt.mountpoint = some mp → ∃ j, inodeAt s mp = some j ∧ j.Same i := by
  have hlookup := h.lookup
  have hroot : components [slash] = [] := by decide
  have hcomp : components (slash :: dotdot) = [dotdot] := by decide
  rw [vfsLookup_eq, hroot] at hlookup
  simp only [walk_nil, bind_pure] at hlookup
  obtain ⟨rfl, hm, rfl, hparent⟩ := start_ok hs hlookup
  have hup : vfsLookup env (slash :: dotdot) t =
      (climb mnt mnt.root >>= fun d => pure (mnt, d) : VfsM κ ι (Mount × ℕ)) t := by
    rw [vfsLookup_eq, Fallible.bind_ok hlookup, hcomp, walk_cons, walkStep, if_neg (by decide),
      if_pos rfl, bind_assoc]
    rfl
  rcases hmp : mnt.mountpoint with _ | mp
  · obtain ⟨e, he, hp⟩ := hparent hmp
    have hclimb : climb mnt mnt.root t = some (.ok mnt.root, t) := by
      rw [climb, hmp]
      exact (Fallible.bind_ok (getDentry_of he)).trans (by rw [hp]; rfl)
    rw [Fallible.bind_ok hclimb] at hup
    rw [leadsTo_iff hup]
    exact iff_of_true ⟨i, h.inode, rfl, rfl⟩ fun _ hmp => by cases hmp
  · rw [Fallible.bind_ok (climb_mountpoint hmp)] at hup
    rw [leadsTo_iff hup]
    constructor
    · rintro hj mp' ⟨⟩
      exact hj
    · exact fun hj => hj mp rfl

/-- For every mount table that calls of `vfs_mount` lead to :
* `p/c/..` leads to the directory of `p` exactly if `c` is no mountpoint and the step down does
  not free the directory, or `c` is a mountpoint with the inode of the directory;
* `/..` leads to the directory of `/` exactly if no mount covers the root, or one with its inode.

The page of the child must not be one that the table still names. -/
theorem dotdot_iff {fsTypes : List (List U8)} {fs : κ} {calls : List (List U8 × ℕ × List U8)}
    (h : Run.run (mountStep env) (init fsTypes fs) calls = some s) :
    (∀ p c mnt d t i m x u k, 0 ∉ p → IsComponent c → Resolves env s p mnt d t i → NotReused env t →
      Resolves env s (p ++ slash :: c) m x u k →
        (LeadsTo env s (p ++ slash :: c ++ slash :: dotdot) i ↔ LeadsBack env t mnt d i c)) ∧
    ∀ mnt d t i, Resolves env s [slash] mnt d t i →
      (LeadsTo env s (slash :: dotdot) i ↔
        ∀ mp, mnt.mountpoint = some mp → ∃ j, inodeAt s mp = some j ∧ j.Same i) :=
  ⟨fun _ _ _ _ _ _ _ _ _ _ hp hc hres hnew hx =>
    leadsTo_dotdot_iff hp hc hres (hres.mem (rooted_of_run h)) hnew hx.lookup,
  fun _ _ _ _ hres => root_dotdot_iff (rooted_of_run h) hres⟩

/-! ## initfs with devfs at `/dev` -/

/-- What a path leads to : the inode number, the superblock, and whether it is a directory. -/
def seen (env : Env κ ι) (s : State κ ι) (q : List U8) : Option (U64 × ℕ × Bool) :=
  match vfsLookup env q s with
  | some (.ok (_, d), t) => (inodeAt t d).map fun i => (i.ino, i.sb, i.isDir)
  | _ => none

theorem seen_eq_some {q : List U8} {n : U64} {b : ℕ} {f : Bool}
    (h : seen env s q = some (n, b, f)) :
    ∃ mnt d t i, Resolves env s q mnt d t i ∧ i.ino = n ∧ i.sb = b ∧ i.isDir = f := by
  unfold seen at h
  split at h
  · rename_i mnt d t hq
    obtain ⟨i, hi, heq⟩ := Option.map_eq_some_iff.1 h
    obtain ⟨hn, hb, hf⟩ : i.ino = n ∧ i.sb = b ∧ i.isDir = f := by simpa using heq
    exact ⟨mnt, d, t, i, ⟨hq, hi⟩, hn, hb, hf⟩
  · cases h

/-- `vfs_mount("initfs", 0, "/", 0, 0)` and `vfs_mount("devfs", 0, "/dev", 0, 0)`. -/
def bootMounts : List (List U8 × ℕ × List U8) := [(initfs, 0, [slash]), (devfs, 0, slash :: dev)]

theorem isComponent_dev : IsComponent dev :=
  ⟨by decide, by decide, by decide, by decide⟩

/-- `/dev/..` is the directory under the mount, and not the root. -/
theorem dev_dotdot :
    ¬∀ calls (s : State ℕ Bool),
      Run.run (mountStep bootEnv) (init [initfs, devfs] 1) calls = some s →
      ∀ p c mnt d t i m x u k, 0 ∉ p → IsComponent c → Resolves bootEnv s p mnt d t i →
        Resolves bootEnv s (p ++ slash :: c) m x u k → k.isDir = true →
          LeadsTo bootEnv s (p ++ slash :: c ++ slash :: dotdot) i := by
  intro hall
  have hrun : (Run.run (mountStep bootEnv) (init [initfs, devfs] 1) bootMounts).map (fun s =>
      [seen bootEnv s [], seen bootEnv s (slash :: dev),
        seen bootEnv s (slash :: dev ++ slash :: dotdot)]) =
      some [some (1, 1, true), some (1, 5, true), some (2, 1, true)] := by decide +kernel
  obtain ⟨s, hs, heq⟩ := Option.map_eq_some_iff.1 hrun
  obtain ⟨hroot, hdev, hup⟩ : seen bootEnv s [] = some (1, 1, true) ∧
      seen bootEnv s (slash :: dev) = some (1, 5, true) ∧
      seen bootEnv s (slash :: dev ++ slash :: dotdot) = some (2, 1, true) := by
    simpa only [List.cons.injEq, and_true] using heq
  obtain ⟨mnt, d, t, i, hi, hn, -⟩ := seen_eq_some hroot
  obtain ⟨m, x, u, k, hk, -, -, hdir⟩ := seen_eq_some hdev
  obtain ⟨m', d', t', j, hj, hn', -⟩ := seen_eq_some hup
  have hlead := hall bootMounts s hs [] dev mnt d t i m x u k (by decide) isComponent_dev hi hk hdir
  obtain ⟨j', hj', hsame⟩ := (leadsTo_iff hj.lookup).1 hlead
  obtain rfl := Option.some.inj (hj.inode.symm.trans hj')
  rw [← hsame.1, hn'] at hn
  exact absurd hn (by decide)

/-- The two directions at `/dev` and at the root. -/
theorem dotdot_iff_dev :
    ∃ (s : State ℕ Bool) (mnt : Mount) (d : ℕ) (t : State ℕ Bool) (i : Inode Bool),
      Run.run (mountStep bootEnv) (init [initfs, devfs] 1) bootMounts = some s ∧
      (LeadsTo bootEnv s (slash :: dev ++ slash :: dotdot) i ↔ LeadsBack bootEnv t mnt d i dev) ∧
      (LeadsTo bootEnv s (slash :: dotdot) i ↔
        ∀ mp, mnt.mountpoint = some mp → ∃ j, inodeAt s mp = some j ∧ j.Same i) := by
  have hrun : (Run.run (mountStep bootEnv) (init [initfs, devfs] 1) bootMounts).map (fun s =>
      ((seen bootEnv s []).isSome, (seen bootEnv s (slash :: dev)).isSome,
        (vfsLookup bootEnv [] s).map fun x => decide (NotReused bootEnv x.2))) =
      some (true, true, some true) := by decide +kernel
  obtain ⟨s, hs, heq⟩ := Option.map_eq_some_iff.1 hrun
  obtain ⟨hroot, hdev, hnew⟩ : (seen bootEnv s []).isSome = true ∧
      (seen bootEnv s (slash :: dev)).isSome = true ∧
      ((vfsLookup bootEnv [] s).map fun x => decide (NotReused bootEnv x.2)) = some true := by
    simpa only [Prod.mk.injEq] using heq
  obtain ⟨⟨n, b, f⟩, hroot⟩ := Option.isSome_iff_exists.1 hroot
  obtain ⟨⟨n', b', f'⟩, hdev⟩ := Option.isSome_iff_exists.1 hdev
  obtain ⟨mnt, d, t, i, hi, -⟩ := seen_eq_some hroot
  obtain ⟨m, x, u, k, hk, -⟩ := seen_eq_some hdev
  rw [hi.lookup] at hnew
  have hnew : NotReused bootEnv t := by simpa using hnew
  have hslash : Resolves bootEnv s [slash] mnt d t i := by
    refine ⟨?_, hi.inode⟩
    have hcomp : components [slash] = components [] := by decide
    rw [vfsLookup_eq, hcomp, ← vfsLookup_eq]
    exact hi.lookup
  obtain ⟨hdown, hup⟩ := dotdot_iff hs
  exact ⟨s, mnt, d, t, i, hs,
    hdown [] dev mnt d t i m x u k (by decide) isComponent_dev hi hnew hk, hup mnt d t i hslash⟩

end Vfs

end Jeos
