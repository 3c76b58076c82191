import Jeos.InitfsNamespace

/-!
# Which names are one directory

`initfs_lookup` does not look at the directory it is called for : the eight structures are the directories
of the whole file system. `initfs_mkdir` gives every structure it takes a number of its own (`Numbered`),
also when a long name runs over the structures behind it. So in an initfs on `/` with nothing mounted over
it two paths without `.` and `..` lead to one inode exactly if they end in the same component
(`same_inode_iff`), however different the directories in front of it are.
-/

namespace Jeos

set_option linter.unusedSectionVars false

namespace Initfs

open Vfs NameTable ByteMemory

/-! ## The numbers -/

/-- The structure is in use, and its length is one that a name can have. -/
def Usable (g : Globals) (m : Mem) (i : Fin maxDirs) : Prop :=
  m (inUseAddr g i) ≠ 0 ∧ (load16 m (nameLenAddr g i)).toNat < 256

/-- The structures in use are the first ones, and those that a name can match have numbers of their own,
from 2 to below `g_next_ino`. -/
structure Numbered (g : Globals) (m : Mem) : Prop where
  unused : ∀ i j, i < j → m (inUseAddr g i) = 0 → m (inUseAddr g j) = 0
  two_le : ∀ i, Usable g m i → 2 ≤ load32 m (inoAddr g i)
  below : ∀ i, Usable g m i → load32 m (inoAddr g i) < load32 m g.nextIno
  distinct : ∀ i j, Usable g m i → Usable g m j → load32 m (inoAddr g i) = load32 m (inoAddr g j) → i = j
  two_le_next : 2 ≤ load32 m g.nextIno
  room : (load32 m g.nextIno).toNat ≤ 2 + {i | m (inUseAddr g i) ≠ 0}.ncard

variable {g : Globals} {m : Mem} {i j : Fin maxDirs} {name c c' : List U8} {x : U64} {n n' : U32}

theorem usable_of_isNamed (hc : c.length < 256) (h : isNamed g m c i = true) : Usable g m i := by
  rw [isNamed, decide_eq_true_iff] at h
  refine ⟨h.1, ?_⟩
  rw [h.2.1, BitVec.toNat_ofNat]
  omega

/-- A structure has one name. -/
theorem eq_of_isNamed (hc : c.length < 256) (hc' : c'.length < 256) (h0 : 0 ∉ c) (h0' : 0 ∉ c')
    (h : isNamed g m c i = true) (h' : isNamed g m c' i = true) : c = c' := by
  rw [isNamed, decide_eq_true_iff] at h h'
  have hlen : c.length = c'.length := by
    have hl := congrArg BitVec.toNat (h.2.1.symm.trans h'.2.1)
    simp only [BitVec.toNat_ofNat] at hl
    omega
  exact ((kstrcmp_eq_zero_iff h0 _).1 h.2.2).eq ((kstrcmp_eq_zero_iff h0' _).1 h'.2.2) hlen

/-- Two names have one number only if they are one name. -/
theorem Numbered.eq_of_lookup (h : Numbered g m) (hc : c.length < 256) (hc' : c'.length < 256)
    (h0 : 0 ∉ c) (h0' : 0 ∉ c') (hl : lookup g m c true = ⟨OK, some n⟩)
    (hl' : lookup g m c' true = ⟨OK, some n⟩) : c = c' := by
  unfold lookup at hl hl'
  rcases hi : first (isNamed g m c) with _ | i <;> rw [hi] at hl
  · cases hl
  rcases hj : first (isNamed g m c') with _ | j <;> rw [hj] at hl'
  · cases hl'
  have hino : load32 m (inoAddr g i) = n := Option.some.inj (Answer.mk.inj hl).2
  have hino' : load32 m (inoAddr g j) = n := Option.some.inj (Answer.mk.inj hl').2
  obtain rfl := h.distinct i j (usable_of_isNamed hc (first_of_some hi))
    (usable_of_isNamed hc' (first_of_some hj)) (hino.trans hino'.symm)
  exact eq_of_isNamed hc hc' h0 h0' (first_of_some hi) (first_of_some hj)

/-- No name has the number of the root. -/
theorem Numbered.two_le_of_lookup (h : Numbered g m) (hc : c.length < 256)
    (hl : lookup g m c true = ⟨OK, some n⟩) : 2 ≤ n := by
  unfold lookup at hl
  rcases hi : first (isNamed g m c) with _ | i <;> rw [hi] at hl
  · cases hl
  have hino : load32 m (inoAddr g i) = n := Option.some.inj (Answer.mk.inj hl).2
  exact hino ▸ h.two_le i (usable_of_isNamed hc (first_of_some hi))

theorem Boot.numbered (h : Boot g m) : Numbered g m := by
  have hunused : ∀ i, m (inUseAddr g i) = 0 := h.invariant.shows
  have hnone : ∀ i, ¬Usable g m i := fun i hi => hi.1 (hunused i)
  refine ⟨fun _ j _ _ => hunused j, fun i hi => absurd hi (hnone i), fun i hi => absurd hi (hnone i),
    fun i _ hi => absurd hi (hnone i), ?_, ?_⟩
  · rw [h.nextIno]
    exact BitVec.le_refl 2
  · rw [h.nextIno]
    exact Nat.le_add_right 2 _

/-! ## A name of any length -/

/-- The structures in front are left alone. -/
theorem setDir_of_lt (hlen : name.length < 256) (hji : j < i) (hx : Within x (dirAddr g j) 72) :
    setDir g m i name x = m x := by
  have hi : i.val < 8 := i.isLt
  have hlt : j.val < i.val := hji
  have hapart : Apart (dirAddr g j) 72 (dirAddr g i) 256 :=
    apart_add g.dirs (by omega) (by omega) (Or.inl (by omega))
  refine setDir_of_not_within hlen (fun hw => hapart x hx ?_) (apart_nextIno (by decide) x hx)
  exact Nat.lt_of_lt_of_le hw (span_le hlen)

/-- A byte of a structure behind the one that is set. -/
theorem dirAddr_add (hij : i < j) (o : ℕ) : dirAddr g j + BitVec.ofNat 64 o =
    dirAddr g i + BitVec.ofNat 64 ((j.val - i.val) * 72 + o) := by
  have hlt : i.val < j.val := hij
  have hsum : j.val * 72 + o = i.val * 72 + ((j.val - i.val) * 72 + o) := by omega
  rw [dirAddr, dirAddr, BitVec.add_assoc, BitVec.add_assoc, ← BitVec.ofNat_add, ← BitVec.ofNat_add, hsum]

section Behind

variable (hlen : name.length < 256) (hij : i < j) {o : ℕ} (ho : o < 72)
include hlen hij ho

theorem setDir_behind : setDir g m i name (dirAddr g j + BitVec.ofNat 64 o) =
    copyName g m i name (nameAddr g i + BitVec.ofNat 64 ((j.val - i.val) * 72 + o)) := by
  have hlt : i.val < j.val := hij
  have hj : j.val < 8 := j.isLt
  rw [setDir_eq_copyName hlen, dirAddr_add hij, nameAddr_eq]
  · rw [dirAddr_add hij, toNat_add_sub_self _ (by omega)]
    omega
  · exact apart_nextIno (n := 72) (by decide) _ (within_add _ ho (by decide))

/-- As far as the name goes there are its bytes, which are not 0. -/
theorem setDir_behind_name (h0 : 0 ∉ name) (hk : (j.val - i.val) * 72 + o < name.length) :
    setDir g m i name (dirAddr g j + BitVec.ofNat 64 o) ≠ 0 := by
  have hbyte : (name ++ [0])[(j.val - i.val) * 72 + o]? = some name[(j.val - i.val) * 72 + o] := by
    rw [List.getElem?_append_left hk, List.getElem?_eq_getElem hk]
  rw [setDir_behind hlen hij ho, copyName_add hlen hbyte]
  exact fun hz => h0 (hz ▸ List.getElem_mem hk)

/-- A 0 behind the name stays one. -/
theorem setDir_behind_end (hk : name.length ≤ (j.val - i.val) * 72 + o)
    (hz : m (dirAddr g j + BitVec.ofNat 64 o) = 0) :
    setDir g m i name (dirAddr g j + BitVec.ofNat 64 o) = 0 := by
  have hlt : i.val < j.val := hij
  have hj : j.val < 8 := j.isLt
  rcases Nat.eq_or_lt_of_le hk with heq | hgt
  · rw [setDir_behind hlen hij ho, ← heq]
    refine copyName_add hlen ?_
    rw [List.getElem?_append_right (Nat.le_refl _), Nat.sub_self]
    rfl
  · rw [setDir_behind hlen hij ho, nameAddr_eq, copyName_of_not_within hlen, ← dirAddr_add hij, hz]
    rw [Within, toNat_add_sub_self _ (by omega)]
    have hspan : span name ≤ (j.val - i.val) * 72 + o := Nat.max_le.2 ⟨by omega, by omega⟩
    exact Nat.not_lt_of_le hspan

end Behind

/-- The first structure that is not in use. -/
structure FirstUnused (g : Globals) (m : Mem) (i : Fin maxDirs) : Prop where
  unused : m (inUseAddr g i) = 0
  before : ∀ j, j < i → m (inUseAddr g j) ≠ 0

section SetDir

variable (h : Numbered g m) (hi : FirstUnused g m i) (hlen : name.length < 256) (h0 : 0 ∉ name)
include h hi hlen h0

/-- A structure behind is in use afterwards if the name goes over its mark. -/
theorem Numbered.inUse_behind (hij : i < j) : setDir g m i name (inUseAddr g j) ≠ 0 ↔
    (j.val - i.val) * 72 + 66 < name.length := by
  constructor
  · intro hne
    by_contra hk
    exact hne (setDir_behind_end hlen hij (o := 66) (by decide) (Nat.le_of_not_lt hk)
      (h.unused i j hij hi.unused))
  · exact setDir_behind_name hlen hij (o := 66) (by decide) h0

/-- Then its length is the one of no name. -/
theorem Numbered.not_usable_behind (hij : i < j) : ¬Usable g (setDir g m i name) j := by
  rintro ⟨huse, hnl⟩
  have hk := (h.inUse_behind hi hlen h0 hij).1 huse
  refine setDir_behind_name (g := g) (m := m) hlen hij (o := 65) (by decide) h0 (by omega) ?_
  have hhigh := load16_high hnl
  rwa [nameLenAddr, fieldAddr, BitVec.add_assoc] at hhigh

theorem Numbered.usable_setDir (hu : Usable g (setDir g m i name) j) :
    j = i ∨ j < i ∧ Usable g m j ∧
      load32 (setDir g m i name) (inoAddr g j) = load32 m (inoAddr g j) := by
  rcases lt_trichotomy j i with hlt | heq | hgt
  · have hcongr : ∀ x, Within x (dirAddr g j) 72 → setDir g m i name x = m x := fun x =>
      setDir_of_lt hlen hlt
    have hmark : setDir g m i name (inUseAddr g j) = m (inUseAddr g j) :=
      hcongr _ (within_of_field (k := 2) (n := 1) (by decide) Nat.one_pos (within_self _ Nat.one_pos))
    have hnl : load16 (setDir g m i name) (nameLenAddr g j) = load16 m (nameLenAddr g j) :=
      load16_congr fun x hx => hcongr x (within_of_field (k := 1) (by decide) (by decide) hx)
    refine Or.inr ⟨hlt, ⟨hmark ▸ hu.1, hnl ▸ hu.2⟩, ?_⟩
    exact load32_congr fun x hx => hcongr x (within_of_field (k := 3) (by decide) (by decide) hx)
  · exact Or.inl heq
  · exact absurd hu (h.not_usable_behind hi hlen h0 hgt)

/-- `g_next_ino` does not wrap : there are eight structures. -/
theorem Numbered.next_succ : (load32 m g.nextIno + 1).toNat = (load32 m g.nextIno).toNat + 1 := by
  have hcard : {j | m (inUseAddr g j) ≠ 0}.ncard ≤ 8 :=
    (Set.ncard_le_ncard (Set.subset_univ _)).trans (by simp [Set.ncard_univ])
  have := h.room
  bv_omega

/-- The numbers stay apart when a structure is set, however long the name is. -/
theorem Numbered.setDir : Numbered g (setDir g m i name) := by
  have hino : load32 (Initfs.setDir g m i name) (inoAddr g i) = load32 m g.nextIno := setDir_ino hlen
  have hnext : load32 (Initfs.setDir g m i name) g.nextIno = load32 m g.nextIno + 1 := setDir_nextIno hlen
  have hsucc := h.next_succ hi hlen h0
  have hone : Initfs.setDir g m i name (inUseAddr g i) ≠ 0 := by
    rw [setDir_inUse hlen]
    decide
  have hbefore : ∀ j, j < i → Initfs.setDir g m i name (inUseAddr g j) = m (inUseAddr g j) := fun j hj =>
    setDir_of_lt hlen hj
      (within_of_field (k := 2) (n := 1) (by decide) Nat.one_pos (within_self _ Nat.one_pos))
  refine ⟨?_, ?_, ?_, ?_, ?_, ?_⟩
  · intro a b hab ha
    rcases lt_trichotomy a i with hlt | rfl | hgt
    · rw [hbefore a hlt] at ha
      exact absurd ha (hi.before a hlt)
    · exact absurd ha hone
    · by_contra hb
      have hk := (h.inUse_behind hi hlen h0 (hgt.trans hab)).1 hb
      have hlt : a.val < b.val := hab
      exact (h.inUse_behind hi hlen h0 hgt).2 (by omega) ha
  · intro a ha
    rcases h.usable_setDir hi hlen h0 ha with rfl | ⟨-, hu, hsame⟩
    · rw [hino]
      exact h.two_le_next
    · rw [hsame]
      exact h.two_le a hu
  · intro a ha
    rw [hnext, BitVec.lt_def, hsucc]
    rcases h.usable_setDir hi hlen h0 ha with rfl | ⟨-, hu, hsame⟩
    · rw [hino]
      exact Nat.lt_succ_self _
    · rw [hsame]
      exact Nat.lt_succ_of_lt (BitVec.lt_def.1 (h.below a hu))
  · intro a b ha hb hab
    rcases h.usable_setDir hi hlen h0 ha with rfl | ⟨-, hua, hsa⟩ <;>
      rcases h.usable_setDir hi hlen h0 hb with rfl | ⟨-, hub, hsb⟩
    · rfl
    · rw [hino, hsb] at hab
      exact absurd (hab ▸ h.below b hub) (BitVec.lt_irrefl _)
    · rw [hino, hsa] at hab
      exact absurd (hab ▸ h.below a hua) (BitVec.lt_irrefl _)
    · exact h.distinct a b hua hub (by rw [← hsa, ← hsb, hab])
  · have := h.two_le_next
    rw [hnext, BitVec.le_def, hsucc]
    exact Nat.le_succ_of_le (BitVec.le_def.1 this)
  · have hsub : insert i {j | m (inUseAddr g j) ≠ 0} ⊆
        {j | Initfs.setDir g m i name (inUseAddr g j) ≠ 0} := by
      rintro j (rfl | hj)
      · exact hone
      · rcases lt_trichotomy j i with hlt | rfl | hgt
        · rw [Set.mem_ofPred_eq, hbefore j hlt]
          exact hj
        · exact hone
        · exact absurd (h.unused i j hgt hi.unused) hj
    have hcard := Set.ncard_le_ncard hsub
    have hnotMem : i ∉ {j | m (inUseAddr g j) ≠ 0} := fun hmem => hmem hi.unused
    rw [Set.ncard_insert_of_notMem hnotMem] at hcard
    have := h.room
    rw [hnext, hsucc]
    omega

end SetDir

theorem Numbered.mkdir (h : Numbered g m) (hlen : name.length < 256) (h0 : 0 ∉ name) (page : Bool) :
    Numbered g (mkdir g m name page).1 := by
  unfold Initfs.mkdir
  rcases first (isNamed g m name) with _ | i
  swap
  · exact h
  dsimp only
  rcases hfree : first fun i => decide (m (inUseAddr g i) = 0) with _ | i
  · exact h
  · refine h.setDir ⟨of_decide_eq_true (first_of_some hfree), fun j hj => ?_⟩ hlen h0
    exact of_decide_eq_false (not_of_lt_first hfree hj)

end Initfs

namespace Vfs

variable {κ ι : Type} {s t u : State κ ι} {mnt : Mount} {path name : List U8}

/-! ## A single mount -/

theorem tmpDentry_length {env : Env κ ι} {dir a : ℕ}
    (h : tmpDentry env name dir s = some (.ok (some a), t)) : name.length < 256 := by
  by_contra hlen
  rw [tmpDentry, if_pos (Nat.le_of_not_lt hlen)] at h
  cases h

theorem lookupChild_length {env : Env κ ι} {dir : ℕ} {z : Mount × ℕ × ℕ}
    (h : lookupChild env mnt dir name s = some (.ok z, t)) : name.length < 256 := by
  obtain ⟨d, s₁, -, h₁⟩ := Fallible.bind_eq_ok.1 h
  rcases hi : d.inode with _ | i <;> rw [hi] at h₁
  · cases h₁
  dsimp only at h₁
  split_ifs at h₁
  · cases h₁
  · cases h₁
  obtain ⟨x, s₂, htmp, h₂⟩ := Fallible.bind_eq_ok.1 h₁
  rcases x with _ | a
  · cases h₂
  · exact tmpDentry_length htmp

/-- With any result `vfs_mkdir` leaves the root alone. -/
theorem vfsMkdir_sameRoot {env : CallEnv κ ι} {mode : U32} :
    Fallible.Keeps SameRoot (vfsMkdir env path mode) := by
  rw [vfsMkdir, leafDentry_eq, bind_assoc, bind_assoc]
  refine (sameRoot_of_readOnly start_readOnly).bind SameRoot.trans fun x => ?_
  refine (walk_sameRoot x _).bind SameRoot.trans fun y => ?_
  intro s r t h
  rcases Fallible.bind_eq_some.1 h with ⟨e, hl, -⟩ | ⟨⟨i, f, leaf, child⟩, s₁, hl, hr⟩
  · exact (newLeaf_grow s _ t hl).sameRoot
  · obtain ⟨hfree, fs, rfl⟩ := newLeaf_ok hl
    exact ((mkdirTail_stays (u := s) (f leaf mode) child _ r t hr ⟨fs, _, rfl⟩).grow hfree).sameRoot

/-- The inode of the root dentry comes from `type->mount`. -/
theorem newMount_root {env : Env κ ι} {type target : List U8} {device : ℕ}
    (h : newMount env type device target s = some (.ok mnt, t)) :
    ∃ k ino, (env.mount type mnt.sb device k).2.1 = some ino ∧ inodeAt t mnt.root = some ino := by
  unfold newMount at h
  obtain ⟨mp, s₁, -, h₁⟩ := Fallible.bind_eq_ok.1 h
  obtain ⟨x, s₂, hsb, h₂⟩ := Fallible.bind_eq_ok.1 h₁
  rcases x with _ | sb
  · cases h₂
  obtain ⟨⟨rc, root⟩, s₃, hfs, h₃⟩ := Fallible.bind_eq_ok.1 h₂
  dsimp only at h₃
  split_ifs at h₃
  · cases h₃
  rcases root with _ | root
  · cases h₃
  obtain ⟨y, s₄, hpage, h₄⟩ := Fallible.bind_eq_ok.1 h₃
  rcases y with _ | page
  · cases h₄
  obtain ⟨hm, rfl⟩ := Prod.mk.inj (Option.some.inj h₄)
  obtain rfl := Except.ok.inj hm
  unfold fsMount at hfs
  obtain ⟨⟨rc', ino⟩, s₅, hcall, h₅⟩ := Fallible.bind_eq_ok.1 hfs
  obtain ⟨hres, rfl⟩ := Prod.mk.inj (Option.some.inj hcall)
  obtain ⟨-, hino⟩ := Prod.mk.inj (Except.ok.inj hres)
  rcases ino with _ | ino
  · cases h₅
  obtain ⟨z, s₆, ha, h₆⟩ := Fallible.bind_eq_ok.1 h₅
  rcases z with _ | a
  · cases h₆
  obtain ⟨hr, rfl⟩ := Prod.mk.inj (Option.some.inj h₆)
  obtain rfl := Option.some.inj (Prod.mk.inj (Except.ok.inj hr)).2
  have hat : dentryAt s₆ a = some ⟨1, [slash], some ino, none, false⟩ := by
    rw [dentryAt, (kalloc_some ha).2]
  refine ⟨s₂.fs, ino, hino, ?_⟩
  rw [inodeAt, (kalloc_grow _ s₆ _ s₄ hpage).dentryAt hat]
  rfl

/-- Making a mount changes the data of the file systems as its parts do. -/
theorem DataKeeps.newMount {env : Env κ ι} {Q : κ → κ → Prop} (hQ : DataKeeps env Q)
    (hmount : ∀ type sb device k, Q k (env.mount type sb device k).2.2)
    (hunmount : ∀ type sb k, Q k (env.unmount type sb k)) {type target : List U8} {device : ℕ} :
    Fallible.Keeps (DataRel Q) (Vfs.newMount env type device target) := by
  have hrefl : ∀ s : State κ ι, DataRel Q s s := fun s => hQ.refl s.fs
  have hun : ∀ {sb : ℕ}, Fallible.Keeps (DataRel Q) (fsUnmount env type sb) := fun s r t h => by
    obtain ⟨-, rfl⟩ := Prod.mk.inj (Option.some.inj h)
    exact hunmount type _ s.fs
  have hfs : ∀ {sb : ℕ}, Fallible.Keeps (DataRel Q) (fsMount env type sb device) := fun {sb} => by
    have hcall : Fallible.Keeps (DataRel Q) (fun s =>
        some (.ok ((env.mount type sb device s.fs).1, (env.mount type sb device s.fs).2.1),
          { s with fs := (env.mount type sb device s.fs).2.2 }) : VfsM κ ι (ℤ × Option (Inode ι))) :=
      fun s r t h => by
        obtain ⟨-, rfl⟩ := Prod.mk.inj (Option.some.inj h)
        exact hmount type sb device s.fs
    refine hcall.bind hQ.rel_trans fun ⟨rc, ino⟩ => ?_
    rcases ino with _ | ino
    · exact Fallible.Keeps.pure hrefl _
    refine (hQ.keeps_kalloc _).bind hQ.rel_trans fun y => ?_
    rcases y with _ | root
    · exact Fallible.Keeps.pure hrefl _
    · exact Fallible.Keeps.pure hrefl _
  have htarget : Fallible.Keeps (DataRel Q) (mountTarget env target) := by
    intro s r t h
    unfold mountTarget at h
    split_ifs at h
    · obtain ⟨-, rfl⟩ := Prod.mk.inj (Option.some.inj h)
      exact hrefl s
    · rw [vfsLookup_eq] at h
      refine (hQ.startWalk.bind hQ.rel_trans fun x => ?_) s r t h
      refine (hQ.of_readOnly getDentry_readOnly).bind hQ.rel_trans fun e => ?_
      rcases e.inode with _ | i
      · exact Fallible.Keeps.throw hrefl _
      dsimp only
      split_ifs
      · exact Fallible.Keeps.pure hrefl _
      · exact Fallible.Keeps.throw hrefl _
  refine htarget.bind hQ.rel_trans fun mp => (hQ.keeps_kalloc _).bind hQ.rel_trans fun x => ?_
  rcases x with _ | sb
  · exact Fallible.Keeps.throw hrefl _
  refine hfs.bind hQ.rel_trans fun ⟨rc, root⟩ => ?_
  dsimp only
  split_ifs
  · exact (hQ.setPage none).bind hQ.rel_trans fun _ => Fallible.Keeps.throw hrefl _
  rcases root with _ | root
  · exact hun.bind hQ.rel_trans fun _ => (hQ.setPage none).bind hQ.rel_trans fun _ =>
      Fallible.Keeps.throw hrefl _
  refine (hQ.keeps_kalloc _).bind hQ.rel_trans fun z => ?_
  rcases z with _ | page
  · exact hun.bind hQ.rel_trans fun _ => (hQ.setPage none).bind hQ.rel_trans fun _ =>
      Fallible.Keeps.throw hrefl _
  · exact Fallible.Keeps.pure hrefl _

theorem DataKeeps.newLeaf {env : CallEnv κ ι} {Q : κ → κ → Prop} (hQ : DataKeeps env.toEnv Q)
    {α : Type} {op : Inode ι → Option α} {dir : ℕ} : Fallible.Keeps (DataRel Q) (newLeaf env op dir name) := by
  have hrefl : ∀ s : State κ ι, DataRel Q s s := fun s => hQ.refl s.fs
  unfold Vfs.newLeaf
  split_ifs
  · exact Fallible.Keeps.throw hrefl _
  refine (hQ.of_readOnly getDentry_readOnly).bind hQ.rel_trans fun d => ?_
  rcases d.inode with _ | i
  · exact Fallible.Keeps.throw hrefl _
  dsimp only
  split_ifs
  · exact Fallible.Keeps.throw hrefl _
  rcases op i with _ | f
  · exact Fallible.Keeps.throw hrefl _
  refine hQ.tmpDentry.bind hQ.rel_trans fun x => ?_
  rcases x with _ | child
  · exact Fallible.Keeps.throw hrefl _
  · exact Fallible.Keeps.pure hrefl _

/-- With any result `vfs_mkdir` changes the data of the file systems as the operation it calls does. -/
theorem DataKeeps.vfsMkdir {env : CallEnv κ ι} {Q : κ → κ → Prop} (hQ : DataKeeps env.toEnv Q)
    {mode : U32} (hmkdir : ∀ i f leaf k, env.mkdir i = some f → leaf.length < 256 → 0 ∉ leaf →
      Q k (f leaf mode k).2) : Fallible.Keeps (DataRel Q) (vfsMkdir env path mode) := by
  rw [Vfs.vfsMkdir, leafDentry_eq, bind_assoc]
  refine hQ.startWalk.bind hQ.rel_trans fun p => ?_
  intro s r t h
  rcases Fallible.bind_eq_some.1 h with ⟨e, hl, -⟩ | ⟨⟨i, f, leaf, child⟩, s₁, hl, hr⟩
  · exact hQ.newLeaf s _ t hl
  refine hQ.rel_trans _ _ _ (hQ.newLeaf s _ s₁ hl) ?_
  obtain ⟨rfl, -, -, hf, hlen, -, -⟩ := newLeaf_eq_ok hl
  have h0 : 0 ∉ (components path).getLast?.getD [] := by
    rcases hlast : (components path).getLast? with _ | c
    · exact List.not_mem_nil
    · exact zero_notMem_of_mem_components (List.mem_of_getLast? hlast)
  have hcall : Fallible.Keeps (DataRel Q)
      (fsCall (f ((components path).getLast?.getD []) mode) : VfsM κ ι _) := fun s r t h => by
    obtain ⟨-, rfl⟩ := Prod.mk.inj (Option.some.inj h)
    exact hmkdir i f _ s.fs hf hlen h0
  refine (hcall.bind hQ.rel_trans fun z => ?_) s₁ r t hr
  have hset : Fallible.Keeps (DataRel Q) (setInode child z.2 : VfsM κ ι Unit) :=
    (hQ.of_readOnly getDentry_readOnly).bind hQ.rel_trans fun _ => hQ.setPage _
  exact hset.bind hQ.rel_trans fun _ => hQ.dentryPut.bind hQ.rel_trans fun _ =>
    Fallible.Keeps.pure (fun s => hQ.refl s.fs) _

end Vfs

namespace Initfs

open Vfs NameTable ByteMemory

variable {κ ι : Type} {g : Globals} {other : CallEnv κ ι} {inodePage : κ → Bool × κ}
  {s t u x : State (Mem × κ) (Option ι)} {path c : List U8} {names : List (List U8)}
  {i ino : Inode (Option ι)} {m : Mount} {p : Mount × ℕ} {mem : Mem} {n n' : U32}

/-! ## An initfs with nothing mounted over it -/

/-- There is only the mount of an initfs on the root. -/
structure RootOnly (s : State (Mem × κ) (Option ι)) (m : Mount) : Prop where
  mounts : s.mounts = [m]
  mountpoint : m.mountpoint = none
  rootMnt : s.rootMnt = some m
  rootDent : s.rootDent = some m.root
  root : inodeAt s m.root = some (dirInode m.sb 1)

theorem RootOnly.sameRoot (h : RootOnly s m) (hs : SameRoot s t) : RootOnly t m := by
  refine ⟨hs.mounts.trans h.mounts, h.mountpoint, hs.rootMnt.trans h.rootMnt,
    hs.rootDent.trans h.rootDent, ?_⟩
  obtain ⟨e, he, hi⟩ := inodeAt_eq_some.1 h.root
  exact inodeAt_eq_some.2 ⟨e, hs.dentry _ e h.rootDent he, hi⟩

/-- After `vfs_mount("initfs", device, "/", 0, 0)`. -/
theorem rootOnly_of_mount {fsTypes : List (List U8)} {k : κ} {device : ℕ}
    (h : vfsMount (withInitfs g other inodePage).toEnv initfs device [slash] (init fsTypes (mem, k)) =
      some (.ok (), s)) : (∃ m, RootOnly s m) ∧ s.fs.1 = mem := by
  obtain ⟨-, m, -, -, hmounts, hmp, hrm, hrd⟩ := vfsMount_first rfl h
  rw [vfsMount_eq] at h
  split_ifs at h
  · obtain ⟨m', s₁, hnew, hadd⟩ := Fallible.bind_eq_ok.1 h
    obtain ⟨-, hmounts', hcase⟩ := addMount_cases hadd
    obtain ⟨rfl, -⟩ := List.cons_eq_cons.1 (hmounts'.symm.trans hmounts)
    have hheap : s.heap = s₁.heap := by
      rcases hcase with ⟨-, -, -, hheap⟩ | ⟨mp, -, hsome, -⟩
      · exact hheap
      · rw [hmp] at hsome
        cases hsome
    obtain ⟨k', ino, hino, hroot⟩ := newMount_root hnew
    refine ⟨⟨m', hmounts, hmp, hrm, hrd, ?_⟩, ?_⟩
    · have hat : inodeAt s m'.root = inodeAt s₁ m'.root := by
        rw [inodeAt, inodeAt, dentryAt_congr hheap]
      rw [hat, hroot]
      simp only [withInitfs, if_pos] at hino
      split_ifs at hino
      rw [← hino]
    · have hfs : s.fs = s₁.fs := by
        unfold addMount at hadd
        rw [hmp] at hadd
        obtain ⟨-, rfl⟩ := Prod.mk.inj (Option.some.inj hadd)
        rfl
      rw [hfs]
      refine dataKeeps_withInitfs.newMount (fun type sb device k => ?_) (fun type sb k => ?_) _ _ s₁ hnew
      · simp only [withInitfs]
        split_ifs <;> rfl
      · simp only [withInitfs]
        split_ifs <;> rfl
  · cases h

theorem RootOnly.start (h : RootOnly s m) : start s = some (.ok (m, m.root), s) := by
  obtain ⟨e, he, -⟩ := inodeAt_eq_some.1 h.root
  have hfind : findMountByMountpoint m.root s = some (.ok none, s) := by
    rw [findMountByMountpoint, h.mounts, List.find?_cons_of_neg (by simp [h.mountpoint]),
      List.find?_nil]
  rw [Vfs.start, h.rootMnt, h.rootDent]
  dsimp only
  rw [followOverlay, Fallible.bind_ok (getDentry_of he)]
  split_ifs
  · rw [Fallible.bind_ok hfind]
    rfl
  · rfl

/-- The number that the last component of a path has. -/
def NumberOf (g : Globals) (mem : Mem) : Option (List U8) → U32 → Prop
  | none, n => n = 1
  | some c, n => c.length < 256 ∧ lookup g mem c true = ⟨OK, some n⟩

theorem answered_ino {sb : ℕ} {op : Bool → Mem × Answer} {k : κ}
    (h : (answered inodePage sb op k).1.2 = some ino) :
    ∃ page n, (op page).2.ino = some n ∧ ino = dirInode sb n := by
  unfold answered at h
  split_ifs at h
  obtain ⟨n, hn, hino⟩ := Option.map_eq_some_iff.1 h
  exact ⟨_, n, hn, hino.symm⟩

theorem lookup_of_ino {page : Bool} (h : (lookup g mem c page).ino = some n) :
    lookup g mem c true = ⟨OK, some n⟩ := by
  unfold lookup at h ⊢
  rcases hfirst : first (isNamed g mem c) with _ | i <;> rw [hfirst] at h
  · cases h
  · cases page with
    | false => cases h
    | true =>
      obtain rfl := Option.some.inj h
      rfl

/-- An inode that a directory of initfs gives for a name. -/
theorem fsChild_initfs (hi : lower i = none)
    (h : fsChild (withInitfs g other inodePage).toEnv x i c = some ino) :
    ∃ n, lookup g x.fs.1 c true = ⟨OK, some n⟩ ∧ ino = dirInode i.sb n := by
  simp only [fsChild, withInitfs, hi] at h
  obtain ⟨page, n, hn, rfl⟩ := answered_ino h
  exact ⟨n, lookup_of_ino hn, rfl⟩

/-- A walk without `.` and `..` leads to the number of its last component. -/
theorem RootOnly.walk (h : RootOnly s m) (hplain : ∀ c ∈ names, ¬IsDots c)
    (hw : Leads (withInitfs g other inodePage).toEnv s names p u) :
    ∃ n, inodeAt u p.2 = some (dirInode m.sb n) ∧ NumberOf g s.fs.1 names.getLast? n := by
  induction names using List.reverseRecOn generalizing p u with
  | nil =>
    unfold Leads at hw
    rw [Fallible.bind_ok h.start] at hw
    obtain ⟨hp, rfl⟩ := Prod.mk.inj (Option.some.inj hw)
    obtain rfl := Except.ok.inj hp
    exact ⟨1, h.root, rfl⟩
  | append_singleton names c ih =>
    unfold Leads at hw
    rw [startWalk_append] at hw
    obtain ⟨⟨mnt, d⟩, s₁, hw₁, hstep⟩ := Fallible.bind_eq_ok.1 hw
    obtain ⟨n₀, hdir, -⟩ := ih (fun c' hc' => hplain c' (List.mem_append_left _ hc')) hw₁
    have hc : ¬IsDots c := hplain c (List.mem_append_right _ List.mem_cons_self)
    have hmem : s₁.fs.1 = s.fs.1 := dataKeeps_withInitfs.startWalk s _ s₁ hw₁
    have hroot := h.sameRoot (((sameRoot_of_readOnly start_readOnly).bind SameRoot.trans
      fun y => walk_sameRoot y names) s _ s₁ hw₁)
    rw [walkStep, if_neg fun he => hc (Or.inl he), if_neg fun he => hc (Or.inr he)] at hstep
    obtain ⟨⟨m', cur, child⟩, s₂, hl, hrest⟩ := Fallible.bind_eq_ok.1 hstep
    obtain ⟨s₃, hrel, hsame⟩ := release_of_lookupChild hl
    dsimp only at hrest
    rw [Fallible.bind_ok hrel] at hrest
    obtain ⟨hp, rfl⟩ := Prod.mk.inj (Option.some.inj hrest)
    obtain rfl := Except.ok.inj hp
    obtain ⟨e, i, a, ino, fs, he, hi, -, hchild, hcase⟩ := lookupChild_ok hl
    obtain rfl : i = dirInode m.sb n₀ := by
      rw [inodeAt, he, Option.bind_some, hi] at hdir
      exact Option.some.inj hdir
    obtain ⟨n, hlook, rfl⟩ := fsChild_initfs rfl hchild
    refine ⟨n, ?_, ?_⟩
    · rcases hcase with ⟨-, -, rfl, rfl, -⟩ | ⟨-, -, -, hfind⟩
      · rw [hsame]
        exact inodeAt_eq_some.2 ⟨_, dentryAt_put_self, rfl⟩
      · -- there is no mountpoint
        obtain ⟨-, hmem', mp, _, _, hmp, -⟩ := findByInode_some hfind
        rw [hroot.mounts, List.mem_singleton] at hmem'
        cases (hmem' ▸ h.mountpoint).symm.trans hmp
    · rw [List.getLast?_concat]
      exact ⟨lookupChild_length hl, hmem ▸ hlook⟩

/-! ## Namespaces of one initfs -/

/-- A call of `vfs_mkdir` : path and mode. -/
def mkdirStep (env : CallEnv (Mem × κ) (Option ι)) (s : State (Mem × κ) (Option ι)) :
    List U8 × U32 → Option (State (Mem × κ) (Option ι))
  | (path, mode) => (vfsMkdir env path mode s).map Prod.snd

/-- With any result `vfs_mkdir` keeps the numbers apart. -/
theorem vfsMkdir_numbered {mode : U32} {r : Except ℤ ℤ}
    (h : vfsMkdir (withInitfs g other inodePage) path mode s = some (r, t)) (hs : Numbered g s.fs.1) :
    Numbered g t.fs.1 := by
  have hQ : DataKeeps (withInitfs g other inodePage).toEnv
      fun k k' => Numbered g k.1 → Numbered g k'.1 :=
    ⟨fun _ => id, fun _ _ _ h h' => h' ∘ h, fun _ => id, fun i name k hk => by
      rw [dataKeeps_withInitfs.lookup i name k]
      exact hk⟩
  refine hQ.vfsMkdir (fun i f leaf k hf hlen h0 hk => ?_) s r t h hs
  simp only [withInitfs] at hf
  split_ifs at hf
  obtain rfl := Option.some.inj hf
  dsimp only
  unfold answered
  split_ifs
  · exact hk.mkdir hlen h0 true
  · exact hk.mkdir hlen h0 _

/-- What every `vfs_mkdir` keeps. -/
theorem rootOnly_of_run {env : CallEnv (Mem × κ) (Option ι)} {calls : List (List U8 × U32)}
    (henv : env = withInitfs g other inodePage) (hs : RootOnly s m ∧ Numbered g s.fs.1)
    (h : Run.run (mkdirStep env) s calls = some t) : RootOnly t m ∧ Numbered g t.fs.1 := by
  subst henv
  refine Run.run_invariant (I := fun s => RootOnly s m ∧ Numbered g s.fs.1) ?_ hs h
  rintro s ⟨path, mode⟩ t ⟨hroot, hnum⟩ hstep
  obtain ⟨⟨r, t'⟩, hmkdir, rfl⟩ := Option.map_eq_some_iff.1 hstep
  exact ⟨hroot.sameRoot (vfsMkdir_sameRoot s r t' hmkdir), vfsMkdir_numbered hmkdir hnum⟩

/-- The last components of two paths have one number exactly if they are equal. -/
theorem Numbered.numberOf_iff (h : Numbered g mem) {c c' : Option (List U8)} (h0 : ∀ d ∈ c, 0 ∉ d)
    (h0' : ∀ d ∈ c', 0 ∉ d) (hn : NumberOf g mem c n) (hn' : NumberOf g mem c' n') : n = n' ↔ c = c' := by
  have hne : ∀ {d : List U8} {k : U32}, NumberOf g mem (some d) k → k ≠ 1 := fun {d k} hk he => by
    have := h.two_le_of_lookup hk.1 hk.2
    rw [he] at this
    exact absurd this (by decide)
  rcases c with _ | c <;> rcases c' with _ | c'
  · exact iff_of_true (hn.trans hn'.symm) rfl
  · exact iff_of_false (fun he => hne hn' (he.symm.trans hn)) nofun
  · exact iff_of_false (fun he => hne hn (he.trans hn')) nofun
  · constructor
    · rintro rfl
      exact congrArg some (h.eq_of_lookup hn.1 hn'.1 (h0 c rfl) (h0' c' rfl) hn.2 hn'.2)
    · intro he
      obtain rfl := Option.some.inj he
      exact Option.some.inj (Answer.mk.inj (hn.2.symm.trans hn'.2)).2

theorem dirInode_same_iff {sb : ℕ} : (dirInode (ι := ι) sb n).Same (dirInode sb n') ↔ n = n' := by
  constructor
  · rintro ⟨hino, -⟩
    have := congrArg BitVec.toNat hino
    rw [dirInode, dirInode, BitVec.toNat_setWidth, BitVec.toNat_setWidth] at this
    bv_omega
  · rintro rfl
    exact ⟨rfl, rfl⟩

/-- For an initfs that is mounted on `/` and has nothing mounted over it, after any calls of `vfs_mkdir` :
two paths without `.` and `..` that `vfs_lookup` resolves lead to one inode number and superblock exactly
if they have the same last component, or both none. -/
theorem same_inode_iff {fsTypes : List (List U8)} {k : κ} {device : ℕ} {calls : List (List U8 × U32)}
    (hboot : Boot g mem)
    (hmount : vfsMount (withInitfs g other inodePage).toEnv initfs device [slash] (init fsTypes (mem, k)) =
      some (.ok (), s))
    (hrun : Run.run (mkdirStep (withInitfs g other inodePage)) s calls = some t)
    {path path' : List U8} (hplain : ∀ c ∈ components path, ¬IsDots c)
    (hplain' : ∀ c ∈ components path', ¬IsDots c) {m m' : Mount} {d d' : ℕ}
    {u u' : State (Mem × κ) (Option ι)} {i i' : Inode (Option ι)}
    (h : Resolves (withInitfs g other inodePage).toEnv t path m d u i)
    (h' : Resolves (withInitfs g other inodePage).toEnv t path' m' d' u' i') :
    i.Same i' ↔ (components path).getLast? = (components path').getLast? := by
  obtain ⟨⟨root, hroot⟩, hmem⟩ := rootOnly_of_mount hmount
  obtain ⟨hroot, hnum⟩ := rootOnly_of_run rfl ⟨hroot, hmem ▸ hboot.numbered⟩ hrun
  have hl := h.lookup
  have hl' := h'.lookup
  rw [vfsLookup_eq] at hl hl'
  obtain ⟨n, hi, hn⟩ := hroot.walk hplain hl
  obtain ⟨n', hi', hn'⟩ := hroot.walk hplain' hl'
  obtain rfl := Option.some.inj (h.inode.symm.trans hi)
  obtain rfl := Option.some.inj (h'.inode.symm.trans hi')
  rw [dirInode_same_iff]
  exact hnum.numberOf_iff (fun c hc => zero_notMem_of_mem_components (List.mem_of_getLast? hc))
    (fun c hc => zero_notMem_of_mem_components (List.mem_of_getLast? hc)) hn hn'

/-! ## `/a` and `/b` -/

/-- `vfs_mkdir("/a", 0); vfs_mkdir("/b", 0);` -/
def sampleDirs : List (List U8 × U32) := [([slash, 97], 0), ([slash, 98], 0)]

/-- The directories `b` and `a/b`. -/
theorem resolves_b : ∃ s t m d u i m' d' u' i',
    vfsMount sampleCalls.toEnv initfs 0 [slash] (init [initfs, devfs] (sampleBoot, 1)) = some (.ok (), s) ∧
    Run.run (mkdirStep sampleCalls) s sampleDirs = some t ∧
    Resolves sampleCalls.toEnv t [slash, 98] m d u i ∧
    Resolves sampleCalls.toEnv t [slash, 97, slash, 98] m' d' u' i' ∧ i.Same i' := by
  have hrun : ((vfsMount sampleCalls.toEnv initfs 0 [slash] (init [initfs, devfs] (sampleBoot, 1))).bind
      fun x => (Run.run (mkdirStep sampleCalls) x.2 sampleDirs).map fun t => (x.1.toBool,
        ([[slash, 98], [slash, 97, slash, 98]] : List (List U8)).map fun path =>
          (vfsLookup sampleCalls.toEnv path t).bind fun y => y.1.toOption.bind fun z =>
            (inodeAt y.2 z.2).map fun i => (i.ino, i.sb))) =
      some (true, [some (3, 1), some (3, 1)]) := by decide +kernel
  obtain ⟨⟨r, s⟩, hs, hmkdirs⟩ := Option.bind_eq_some_iff.1 hrun
  obtain ⟨t, ht, heq⟩ := Option.map_eq_some_iff.1 hmkdirs
  simp only [Prod.mk.injEq, List.map_cons, List.map_nil, List.cons.injEq, and_true] at heq
  obtain ⟨hok, hb, hab⟩ := heq
  rcases r with e | ⟨⟩
  · cases hok
  have hresolves : ∀ {path : List U8},
      ((vfsLookup sampleCalls.toEnv path t).bind fun y => y.1.toOption.bind fun z =>
        (inodeAt y.2 z.2).map fun i => (i.ino, i.sb)) = some (3, 1) →
      ∃ m d u i, Resolves sampleCalls.toEnv t path m d u i ∧ (i.ino, i.sb) = (3, 1) := fun {path} hx => by
    obtain ⟨⟨r, u⟩, hl, hx⟩ := Option.bind_eq_some_iff.1 hx
    obtain ⟨⟨m, d⟩, hr, hx⟩ := Option.bind_eq_some_iff.1 hx
    obtain ⟨i, hi, hino⟩ := Option.map_eq_some_iff.1 hx
    rcases r with e | z
    · cases hr
    · obtain rfl := Option.some.inj hr
      exact ⟨m, d, u, i, ⟨hl, hi⟩, hino⟩
  obtain ⟨m, d, u, i, hres, hi⟩ := hresolves hb
  obtain ⟨m', d', u', i', hres', hi'⟩ := hresolves hab
  have hsame := Prod.mk.inj (hi.trans hi'.symm)
  exact ⟨s, t, m, d, u, i, m', d', u', i', hs, ht, hres, hres', hsame⟩

theorem same_inode_sample : ∃ (t : State (Mem × ℕ) (Option Bool)) (m : Mount) (d : ℕ)
    (u : State (Mem × ℕ) (Option Bool)) (i : Inode (Option Bool)) (m' : Mount) (d' : ℕ)
    (u' : State (Mem × ℕ) (Option Bool)) (i' : Inode (Option Bool)),
    Resolves sampleCalls.toEnv t [slash, 98] m d u i ∧
    Resolves sampleCalls.toEnv t [slash, 97, slash, 98] m' d' u' i' ∧
    (i.Same i' ↔ (components [slash, 98]).getLast? = (components [slash, 97, slash, 98]).getLast?) := by
  obtain ⟨s, t, m, d, u, i, m', d', u', i', hs, ht, hres, hres', -⟩ := resolves_b
  exact ⟨t, m, d, u, i, m', d', u', i', hres, hres',
    same_inode_iff sampleBoot_boot hs ht (by decide) (by decide) hres hres'⟩

/-- `/b` and `/a/b` are one directory. -/
theorem names_alias : ¬∀ (calls : List (List U8 × U32)) (s t : State (Mem × ℕ) (Option Bool))
    (path path' : List U8) (m m' : Mount) (d d' : ℕ) (u u' : State (Mem × ℕ) (Option Bool))
    (i i' : Inode (Option Bool)),
    vfsMount sampleCalls.toEnv initfs 0 [slash] (init [initfs, devfs] (sampleBoot, 1)) = some (.ok (), s) →
    Run.run (mkdirStep sampleCalls) s calls = some t →
    (∀ c ∈ components path, ¬IsDots c) → (∀ c ∈ components path', ¬IsDots c) →
    Resolves sampleCalls.toEnv t path m d u i → Resolves sampleCalls.toEnv t path' m' d' u' i' →
      i.Same i' → components path = components path' := by
  intro hall
  obtain ⟨s, t, m, d, u, i, m', d', u', i', hs, ht, hres, hres', hsame⟩ := resolves_b
  have heq := hall sampleDirs s t _ _ m m' d d' u u' i i' hs ht (by decide) (by decide) hres hres' hsame
  exact absurd heq (by decide)

end Initfs

end Jeos
