import Jeos.Ext2Cleanup
import Jeos.MountTable

/-!
# A mount of ext2 that fails

`vfs_mount` of type ext2, on the state of `vfs.c` and the blocks that the driver has in use. The target
is resolved in the one, and everything else is allocated and freed in the other.

`CleansUp` says that a mount which fails leaves nothing behind. There is one failure that does not : when
the `kalloc` for `struct vfs_mount` fails, `ext2_unmount` frees `sb->priv` and its table, but not the
dentry and the inode of the root, with the copy of the inode on the disk (`newMount_leads`,
`mount_leaves_root`). `cleansUp_iff` says that it is the only one, up to dentries that the resolution
of the target frees.
-/

set_option linter.unusedSectionVars false

namespace Jeos.MountCleanup

open Vfs StateRun
open Ext2 (Machine Ext2Inode GoodSuper superBytes)
open Ext2.Cleanup (Books BooksM RootPtr Super Mounts mountAllocs ext2MountFs ext2Unmount)

variable {κ ι α : Type}

abbrev MountM (κ ι : Type) := Fallible (Vfs.State κ ι × Books) ℤ

/-- A step of `vfs.c`. -/
def onVfs (x : VfsM κ ι α) : MountM κ ι α := fun s =>
  (x s.1).map fun r => (r.1, r.2, s.2)

/-- A step of the driver. -/
def onBooks (x : BooksM α) : MountM κ ι α := fun s =>
  (x s.2).map fun r => (.ok r.1, s.1, r.2)

/-- The name of the file system. -/
def ext2Name : List U8 := [101, 120, 116, 50]

/-- The pages of the blocks of the driver, and the private part of its inodes. -/
structure View (ι : Type) where
  page : ℕ → ℕ
  priv : Ext2Inode → ι

/-- The new mount, its superblock and the dentry of its root, as `vfs.c` sees them. -/
def publish (v : View ι) (sb page : ℕ) (d : RootPtr) : VfsM κ ι Unit := do
  setPage (v.page sb) (some .superblock)
  setPage (v.page page) (some .mount)
  setDentry (v.page d.page) ⟨1, [slash], some ⟨d.inode.inode.ino, d.inode.inode.mode, v.page sb, true,
    v.priv d.inode.inode.priv⟩, none, false⟩

variable (env : Env κ ι) (m : Machine) (v : View ι) (target : List U8)

/-- `vfs_mount` of type ext2, up to the new mount. -/
def newMount : MountM κ ι Mount := do
  let mp ← onVfs (mountTarget env target)
  match ← onBooks (Ext2.Cleanup.kalloc m 1) with
  | none => throw ENOMEM
  | some (sb, _) =>
    let (rc, super) ← onBooks (ext2MountFs m)
    if rc.slt 0 then do
      onBooks (Ext2.Cleanup.kfree sb 1)
      throw rc.toInt
    else
      match super.root with
      | none => do
        onBooks (ext2Unmount super)
        onBooks (Ext2.Cleanup.kfree sb 1)
        throw EINVAL
      | some root => do
        match ← onBooks (Ext2.Cleanup.kalloc m 1) with
        | none =>
          onBooks (ext2Unmount super)
          onBooks (Ext2.Cleanup.kfree sb 1)
          throw ENOMEM
        | some (page, _) =>
          onVfs (publish v sb page root)
          pure ⟨v.page page, v.page sb, mp, v.page root.page⟩

/-- `vfs_mount("ext2", device, target, ...)`. -/
def vfsMount : MountM κ ι Unit := fun s =>
  if ext2Name ∈ s.1.fsTypes then
    (do
      let mnt ← newMount env m v target
      onVfs (addMount mnt) : MountM κ ι Unit) s
  else some (.error ENOENT, s)

/-- The dentry in page `a` is marked as a mountpoint. -/
def Marked (s : Vfs.State κ ι) (a : ℕ) : Prop := ∃ d, dentryAt s a = some d ∧ d.isMountpoint = true

/-- The tables, the marks and the blocks in use are the same. -/
structure Unchanged (s t : Vfs.State κ ι × Books) : Prop where
  mounts : t.1.mounts = s.1.mounts
  rootMnt : t.1.rootMnt = s.1.rootMnt
  rootDent : t.1.rootDent = s.1.rootDent
  marks : ∀ a, Marked t.1 a ↔ Marked s.1 a
  live : t.2.live = s.2.live

/-- Every block that the mount frees is in use, with as many pages, and a mount that fails leaves
nothing behind. -/
structure CleansUp (s : Vfs.State κ ι × Books) : Prop where
  frees : ∀ x, mountTarget env target s.1 = some x → ∃ y, newMount env m v target s = some y
  unchanged : ∀ e t, vfsMount env m v target s = some (.error e, t) → Unchanged s t

/-- The superblock is allocated and the file system is mounted, after `k` calls of `kalloc` and `r`
reads. -/
def FsMounts (k r : ℕ) : Prop := m.alloc k 1 = true ∧ Mounts m (k + 1) r

/-- The last `kalloc`, for `struct vfs_mount`, gives a page. -/
def LastAlloc (k : ℕ) : Prop := m.alloc (k + 1 + mountAllocs m) 1 = true

/-- The mount succeeds, or it is not its last `kalloc` that fails, and the resolution of the target has
freed no marked dentry. -/
def FailsCleanly (s : Vfs.State κ ι × Books) : Prop :=
  ∀ r u, mountTarget env target s.1 = some (r, u) →
    (∃ mp, r = .ok mp) ∧ FsMounts m s.2.io.allocs s.2.io.reads ∧ LastAlloc m s.2.io.allocs ∨
    (∀ a, Marked u a ↔ Marked s.1 a) ∧
      ¬((∃ mp, r = .ok mp) ∧ FsMounts m s.2.io.allocs s.2.io.reads ∧ ¬LastAlloc m s.2.io.allocs)

variable {env m v target} {s t : Vfs.State κ ι × Books} {u : Vfs.State κ ι} {b : Books}
  {e : ℤ}

theorem onVfs_of {x : VfsM κ ι α} {r : Except ℤ α} (h : x s.1 = some (r, u)) :
    onVfs x s = some (r, u, s.2) := by
  rw [onVfs, h]
  rfl

theorem onBooks_of {x : BooksM α} {P : α → Books → Prop} (h : Leads x s.2 P) :
    ∃ a b, onBooks x s = some (.ok a, s.1, b) ∧ P a b := by
  obtain ⟨a, b, hrun, hp⟩ := h
  refine ⟨a, b, ?_, hp⟩
  rw [onBooks, hrun]
  rfl

/-! ## The marks while the target is resolved -/

section Marks

variable {x y z : Vfs.State κ ι} {a : ℕ} {mnt : Mount} {dir cur : ℕ} {name : List U8}

/-- No dentry gets a mark. The root keeps its mark, and so does a dentry with a parent. -/
structure KeepsMarks (x y : Vfs.State κ ι) : Prop where
  rootDent : y.rootDent = x.rootDent
  new : ∀ a, Marked y a → Marked x a
  old : ∀ a d, dentryAt x a = some d → d.isMountpoint = true →
    d.parent ≠ none ∨ x.rootDent = some a →
    ∃ e, dentryAt y a = some e ∧ e.isMountpoint = true ∧ e.parent = d.parent

theorem KeepsMarks.refl (x : Vfs.State κ ι) : KeepsMarks x x :=
  ⟨rfl, fun _ => id, fun _ d hd hm _ => ⟨d, hd, hm, rfl⟩⟩

theorem KeepsMarks.trans (x y z : Vfs.State κ ι) (h : KeepsMarks x y) (h' : KeepsMarks y z) :
    KeepsMarks x z where
  rootDent := h'.rootDent.trans h.rootDent
  new a := h.new a ∘ h'.new a
  old a d hd hm hp := by
    obtain ⟨e, he, hme, hpe⟩ := h.old a d hd hm hp
    obtain ⟨e', he', hme', hpe'⟩ := h'.old a e he hme
      (hp.imp (fun hp => hpe ▸ hp) fun hr => h.rootDent.trans hr)
    exact ⟨e', he', hme', hpe'.trans hpe⟩

theorem keepsMarks_of_readOnly {x : VfsM κ ι α} (h : Fallible.Keeps (@Eq (Vfs.State κ ι)) x) :
    Fallible.Keeps KeepsMarks x :=
  h.mono fun s t (e : s = t) => e ▸ KeepsMarks.refl s

/-- No dentry gets a mark. -/
def NoNewMark (x y : Vfs.State κ ι) : Prop := ∀ a, Marked y a → Marked x a

theorem NoNewMark.refl (x : Vfs.State κ ι) : NoNewMark x x := fun _ => id

theorem NoNewMark.trans (x y z : Vfs.State κ ι) (h : NoNewMark x y) (h' : NoNewMark y z) :
    NoNewMark x z := fun a => h a ∘ h' a

theorem noNewMark_put {d : Dentry ι} (h : d.isMountpoint = true → Marked x a) :
    NoNewMark x (x.put a d) := by
  rintro b ⟨e, he, hm⟩
  by_cases hb : b = a
  · subst hb
    rw [dentryAt_put_self] at he
    obtain rfl := Option.some.inj he
    exact h hm
  · rw [dentryAt_put_of_ne hb] at he
    exact ⟨e, he, hm⟩

theorem noNewMark_free : NoNewMark x (x.free a) := by
  rintro b ⟨e, he, hm⟩
  by_cases hb : b = a
  · subst hb
    rw [dentryAt_free_self] at he
    cases he
  · rw [dentryAt_free_of_ne hb] at he
    exact ⟨e, he, hm⟩

theorem dentryPut_noNewMark : Fallible.Keeps NoNewMark (dentryPut a : VfsM κ ι Unit) := by
  intro x r y h
  rcases Fallible.bind_eq_some.1 h with ⟨e, hd, -⟩ | ⟨d, x₁, hd, hput⟩
  · exact absurd hd getDentry_ne_error
  obtain ⟨hd, rfl⟩ := getDentry_eq_ok.1 hd
  split_ifs at hput
  · obtain ⟨-, rfl⟩ := Prod.mk.inj (Option.some.inj hput)
    exact noNewMark_free
  · obtain ⟨-, rfl⟩ := Prod.mk.inj (Option.some.inj hput)
    exact noNewMark_put fun hm => ⟨d, hd, hm⟩

theorem setInode_noNewMark {ino : Option (Inode ι)} : Fallible.Keeps NoNewMark
    (getDentry a >>= fun d => setDentry a { d with inode := ino } : VfsM κ ι Unit) := by
  intro x r y h
  rcases Fallible.bind_eq_some.1 h with ⟨e, hd, -⟩ | ⟨d, x₁, hd, hset⟩
  · exact absurd hd getDentry_ne_error
  obtain ⟨hd, rfl⟩ := getDentry_eq_ok.1 hd
  obtain ⟨-, rfl⟩ := Prod.mk.inj (Option.some.inj hset)
  exact noNewMark_put fun hm => ⟨d, hd, hm⟩

theorem tmpDentry_noNewMark : Fallible.Keeps NoNewMark (tmpDentry env name dir) := by
  intro x r y h
  unfold tmpDentry at h
  split_ifs at h
  · obtain ⟨-, rfl⟩ := Prod.mk.inj (Option.some.inj h)
    exact NoNewMark.refl x
  unfold Vfs.kalloc at h
  split at h
  · obtain ⟨-, rfl⟩ := Prod.mk.inj (Option.some.inj h)
    exact NoNewMark.refl x
  · obtain ⟨-, rfl⟩ := Prod.mk.inj (Option.some.inj h)
    exact NoNewMark.trans x (x.withFs _) _ (NoNewMark.refl x) (noNewMark_put fun hm => nomatch hm)

theorem noNewMark_of_readOnly {x : VfsM κ ι α} (h : Fallible.Keeps (@Eq (Vfs.State κ ι)) x) :
    Fallible.Keeps NoNewMark x :=
  h.mono fun s t (e : s = t) => e ▸ NoNewMark.refl s

theorem lookupChild_noNewMark : Fallible.Keeps NoNewMark (lookupChild env mnt dir name) := by
  refine (noNewMark_of_readOnly getDentry_readOnly).bind NoNewMark.trans fun d => ?_
  rcases d.inode with _ | i
  · exact Fallible.Keeps.throw NoNewMark.refl _
  dsimp only
  split_ifs
  · exact Fallible.Keeps.throw NoNewMark.refl _
  · exact Fallible.Keeps.throw NoNewMark.refl _
  refine tmpDentry_noNewMark.bind NoNewMark.trans fun c => ?_
  rcases c with _ | child
  · exact Fallible.Keeps.throw NoNewMark.refl _
  dsimp only
  refine Fallible.Keeps.bind NoNewMark.trans (fun x r y h => ?_) fun z => ?_
  · obtain ⟨-, rfl⟩ := Prod.mk.inj (Option.some.inj h)
    exact NoNewMark.refl x
  rw [← bind_assoc]
  refine setInode_noNewMark.bind NoNewMark.trans fun _ => ?_
  split_ifs
  · exact dentryPut_noNewMark.bind NoNewMark.trans fun _ => Fallible.Keeps.throw NoNewMark.refl _
  rcases z.2 with _ | ino
  · exact dentryPut_noNewMark.bind NoNewMark.trans fun _ => Fallible.Keeps.throw NoNewMark.refl _
  · refine (noNewMark_of_readOnly fun s r t h => findByInode_readOnly s.mounts s r t h).bind
      NoNewMark.trans fun sub => ?_
    rcases sub with _ | sub
    · exact Fallible.Keeps.pure NoNewMark.refl _
    · exact dentryPut_noNewMark.bind NoNewMark.trans fun _ => Fallible.Keeps.pure NoNewMark.refl _

theorem lookupChild_keepsMarks : Fallible.Keeps KeepsMarks (lookupChild env mnt dir name) :=
  fun x r y h => ⟨(lookupChild_grow x r y h).rootDent, lookupChild_noNewMark x r y h,
    fun _ d hd hm _ => ⟨d, (lookupChild_grow x r y h).dentryAt hd, hm, rfl⟩⟩

/-- A dentry that is put keeps its mark unless it has no parent, and the root is not put. -/
theorem release_keepsMarks : Fallible.Keeps KeepsMarks (release mnt cur : VfsM κ ι Unit) := by
  intro x r y h
  unfold release at h
  split_ifs at h with hout
  · have hnew := dentryPut_noNewMark x r y h
    rcases Fallible.bind_eq_some.1 h with ⟨e, hd, -⟩ | ⟨c, x₁, hd, hput⟩
    · exact absurd hd getDentry_ne_error
    obtain ⟨hd, rfl⟩ := getDentry_eq_ok.1 hd
    split_ifs at hput with hlast
    · obtain ⟨-, rfl⟩ := Prod.mk.inj (Option.some.inj hput)
      refine ⟨rfl, hnew, fun a d ha hm hp => ⟨d, (dentryAt_free_of_ne ?_).trans ha, hm, rfl⟩⟩
      rintro rfl
      obtain rfl := Option.some.inj (hd.symm.trans ha)
      exact hp.elim (fun hp => hp hlast.2) hout.1
    · obtain ⟨-, rfl⟩ := Prod.mk.inj (Option.some.inj hput)
      refine ⟨rfl, hnew, fun a d ha hm _ => ?_⟩
      by_cases hac : a = cur
      · subst hac
        obtain rfl := Option.some.inj (hd.symm.trans ha)
        exact ⟨_, dentryAt_put_self, hm, rfl⟩
      · exact ⟨d, (dentryAt_put_of_ne hac).trans ha, hm, rfl⟩
  · obtain ⟨-, rfl⟩ := Prod.mk.inj (Option.some.inj h)
    exact KeepsMarks.refl x

theorem walkStep_keepsMarks (p : Mount × ℕ) (name : List U8) :
    Fallible.Keeps KeepsMarks (walkStep env p name) := by
  obtain ⟨mnt, cur⟩ := p
  unfold walkStep
  dsimp only
  split_ifs
  · exact Fallible.Keeps.pure KeepsMarks.refl _
  · exact (keepsMarks_of_readOnly climb_readOnly).bind KeepsMarks.trans fun _ =>
      Fallible.Keeps.pure KeepsMarks.refl _
  · refine lookupChild_keepsMarks.bind KeepsMarks.trans fun _ => ?_
    exact release_keepsMarks.bind KeepsMarks.trans fun _ => Fallible.Keeps.pure KeepsMarks.refl _

theorem mountTarget_keepsMarks : Fallible.Keeps KeepsMarks (mountTarget env target) := by
  intro x r y h
  unfold mountTarget at h
  split_ifs at h
  · obtain ⟨-, rfl⟩ := Prod.mk.inj (Option.some.inj h)
    exact KeepsMarks.refl x
  rw [vfsLookup_eq, bind_assoc] at h
  refine (keepsMarks_of_readOnly start_readOnly).bind KeepsMarks.trans (fun p => ?_) x r y h
  refine Fallible.Keeps.bind KeepsMarks.trans
    (.foldlM KeepsMarks.refl KeepsMarks.trans walkStep_keepsMarks p _) fun q => ?_
  refine (keepsMarks_of_readOnly getDentry_readOnly).bind KeepsMarks.trans fun e => ?_
  rcases e.inode with _ | i
  · exact Fallible.Keeps.throw KeepsMarks.refl _
  dsimp only
  split_ifs
  · exact Fallible.Keeps.pure KeepsMarks.refl _
  · exact Fallible.Keeps.throw KeepsMarks.refl _

/-- The resolution of the target changes no mark if only the root, and dentries with a parent, are
mountpoints. -/
theorem mountTarget_marks {r : Except ℤ (Option ℕ)} (h : mountTarget env target x = some (r, y))
    (hp : ∀ a d, dentryAt x a = some d → d.isMountpoint = true →
      d.parent ≠ none ∨ x.rootDent = some a) : ∀ a, Marked y a ↔ Marked x a := by
  have hk := mountTarget_keepsMarks x r y h
  refine fun a => ⟨hk.new a, fun ⟨d, hd, hm⟩ => ?_⟩
  obtain ⟨e, he, hme, -⟩ := hk.old a d hd hm (hp a d hd hm)
  exact ⟨e, he, hme⟩

end Marks

open Ext2.Cleanup (At Done Failed Ordered PrivPtr kalloc_leads kfree_leads erase_of_ne
  ext2MountFs_leads)

/-- `ext2_unmount` frees `sb->priv` and its table, and nothing of the root. -/
theorem unmount_leads {q : PrivPtr} {d : RootPtr} {n k r : ℕ} {L : List (ℕ × U64)}
    (ho : Ordered n q d) (h : At b k r (d.blocks ++ (q.blocks ++ L))) :
    Leads (ext2Unmount ⟨some q, some d⟩) b fun _ b' => At b' k r (d.blocks ++ L) := by
  have hb := ho.bgdt
  have hc := ho.copy
  have hv := ho.vino
  have hd := ho.dentry
  rw [ext2Unmount]
  dsimp only
  rw [RootPtr.blocks, PrivPtr.blocks] at *
  simp only [List.cons_append, List.nil_append] at h ⊢
  refine (kfree_leads h (by simp)).bind fun _ b h => ?_
  rw [erase_of_ne (by omega), erase_of_ne (by omega), erase_of_ne (by omega),
    List.erase_cons_head] at h
  refine (kfree_leads h (by simp)).mono fun _ b h => ?_
  rw [erase_of_ne (by omega), erase_of_ne (by omega), erase_of_ne (by omega),
    List.erase_cons_head] at h
  exact h

/-- What a mount whose target is resolved leaves : a mount, or nothing, or the blocks of the root
when the last `kalloc` fails. -/
theorem newMount_ok (hg : GoodSuper m.sectorSize (superBytes m.sectorSize m.image)) (env : Env κ ι)
    (v : View ι) (target : List U8) (s : Vfs.State κ ι × Books) {mp : Option ℕ}
    (h : mountTarget env target s.1 = some (.ok mp, u)) :
    (FsMounts m s.2.io.allocs s.2.io.reads ∧ LastAlloc m s.2.io.allocs) ∧
        (∃ mnt t, newMount env m v target s = some (.ok mnt, t)) ∨
      ∃ e b, newMount env m v target s = some (.error e, u, b) ∧
        (¬FsMounts m s.2.io.allocs s.2.io.reads ∧ b.live = s.2.live ∨
          (FsMounts m s.2.io.allocs s.2.io.reads ∧ ¬LastAlloc m s.2.io.allocs) ∧
            ∃ d : RootPtr, b.live = d.blocks ++ s.2.live) := by
  have h₀ : At s.2 s.2.io.allocs s.2.io.reads s.2.live := ⟨rfl, rfl, rfl⟩
  rw [newMount, Fallible.bind_ok (onVfs_of h)]
  obtain ⟨x, b, hrun, hx⟩ := onBooks_of (s := (u, s.2)) (kalloc_leads h₀ 1)
  rw [Fallible.bind_ok hrun]
  rcases hx with ⟨hsb, ⟨buf, rfl⟩, h₁⟩ | ⟨hno, rfl, h₁⟩
  swap
  · exact Or.inr ⟨_, b, rfl, Or.inl ⟨fun hc => hno hc.1, h₁.live⟩⟩
  obtain ⟨⟨rc, super⟩, b, hrun, hx⟩ := onBooks_of (s := (u, b)) (ext2MountFs_leads hg h₁)
  dsimp only
  rw [Fallible.bind_ok hrun]
  dsimp only
  rcases hx with ⟨hfs, r', q, d, heq, ho, h₂⟩ | ⟨hno, hrc, hlive⟩
  swap
  · obtain ⟨_, b, hrun, h₃⟩ := onBooks_of (s := (u, b))
      (kfree_leads (⟨rfl, rfl, hlive⟩ : At b b.io.allocs b.io.reads _) List.mem_cons_self)
    rw [List.erase_cons_head] at h₃
    rw [if_pos hrc, Fallible.bind_ok hrun]
    exact Or.inr ⟨_, b, rfl, Or.inl ⟨fun hc => hno hc.2, h₃.live⟩⟩
  obtain ⟨rfl, rfl⟩ := Prod.mk.inj heq
  rw [if_neg (by decide)]
  obtain ⟨x, b, hrun, hx⟩ := onBooks_of (s := (u, b)) (kalloc_leads h₂ 1)
  dsimp only
  rw [Fallible.bind_ok hrun]
  rcases hx with ⟨hlast, ⟨buf, rfl⟩, h₃⟩ | ⟨hlast, rfl, h₃⟩
  · exact Or.inl ⟨⟨⟨hsb, hfs⟩, hlast⟩, _, _, rfl⟩
  -- The superblock has a smaller number than the blocks of the root.
  obtain ⟨_, b, hrun, h₄⟩ := onBooks_of (s := (u, b)) (unmount_leads ho h₃)
  dsimp only
  rw [Fallible.bind_ok hrun]
  have hp := ho.page
  have hb := ho.bgdt
  have hc := ho.copy
  have hv := ho.vino
  have hd := ho.dentry
  rw [RootPtr.blocks] at h₄
  simp only [List.cons_append, List.nil_append] at h₄
  obtain ⟨_, b, hrun, h₅⟩ := onBooks_of (s := (u, b))
    (kfree_leads h₄ (show (s.2.io.allocs, (1 : U64)) ∈ _ by simp))
  rw [erase_of_ne (by omega), erase_of_ne (by omega), erase_of_ne (by omega),
    List.erase_cons_head] at h₅
  rw [Fallible.bind_ok hrun]
  exact Or.inr ⟨_, b, rfl, Or.inr ⟨⟨⟨hsb, hfs⟩, hlast⟩, d, h₅.live⟩⟩

/-! ## A mount that fails -/

theorem onVfs_eq_error {x : VfsM κ ι α} {e : ℤ} (h : onVfs x s = some (.error e, t)) :
    x s.1 = some (.error e, t.1) := by
  obtain ⟨⟨r, w⟩, hx, heq⟩ := Option.map_eq_some_iff.1 h
  obtain ⟨rfl, rfl⟩ := Prod.mk.inj heq
  exact hx

/-- A mount that fails has no new mount. -/
theorem vfsMount_error (h : Jeos.MountCleanup.vfsMount env m v target s = some (.error e, t)) :
    ext2Name ∉ s.1.fsTypes ∧ t = s ∨
      ext2Name ∈ s.1.fsTypes ∧ newMount env m v target s = some (.error e, t) := by
  rw [MountCleanup.vfsMount] at h
  split_ifs at h with htype
  · refine Or.inr ⟨htype, ?_⟩
    rcases Fallible.bind_eq_some.1 h with ⟨e', hnew, he⟩ | ⟨mnt, w, -, hadd⟩
    · obtain rfl := Except.error.inj he
      exact hnew
    · exact nomatch (addMount_cases (onVfs_eq_error hadd)).1
  · obtain ⟨-, rfl⟩ := Prod.mk.inj (Option.some.inj h)
    exact Or.inl ⟨htype, rfl⟩

theorem vfsMount_of_error (htype : ext2Name ∈ s.1.fsTypes)
    (h : newMount env m v target s = some (.error e, t)) :
    Jeos.MountCleanup.vfsMount env m v target s = some (.error e, t) := by
  rw [MountCleanup.vfsMount, if_pos htype]
  exact Fallible.bind_error h

theorem newMount_of_error (h : mountTarget env target s.1 = some (.error e, u)) :
    newMount env m v target s = some (.error e, u, s.2) := by
  rw [newMount, Fallible.bind_error (onVfs_of h)]

theorem unchanged_of {r : Except ℤ (Option ℕ)} (h : mountTarget env target s.1 = some (r, u))
    (hmarks : ∀ a, Marked u a ↔ Marked s.1 a) (hlive : b.live = s.2.live) :
    Unchanged s (u, b) := by
  have hk := mountTarget_evolves s.1 r u h
  exact ⟨hk.mounts, hk.rootMnt, hk.rootDent, hmarks, hlive⟩

/-- A mount cleans up just when it succeeds or fails before its last `kalloc`, and the target is
resolved without freeing a marked dentry. -/
theorem cleansUp_iff (hg : GoodSuper m.sectorSize (superBytes m.sectorSize m.image)) (env : Env κ ι)
    (v : View ι) (target : List U8) (s : Vfs.State κ ι × Books) :
    CleansUp env m v target s ↔ (ext2Name ∈ s.1.fsTypes → FailsCleanly env m target s) := by
  constructor
  · rintro ⟨-, hun⟩ htype r u hr
    have herr : ∀ {e b}, newMount env m v target s = some (.error e, u, b) → Unchanged s (u, b) :=
      fun h => hun _ _ (vfsMount_of_error htype h)
    rcases r with e | mp
    · exact Or.inr ⟨(herr (newMount_of_error hr)).marks, fun ⟨⟨_, h⟩, _⟩ => nomatch h⟩
    rcases newMount_ok hg env v target s hr with ⟨hok, -⟩ | ⟨e, b, hnew, hcase⟩
    · exact Or.inl ⟨⟨mp, rfl⟩, hok⟩
    have hsame := herr hnew
    rcases hcase with ⟨hno, -⟩ | ⟨-, d, hlive⟩
    · exact Or.inr ⟨hsame.marks, fun hc => hno hc.2.1⟩
    · -- The blocks of the root are left.
      have hlen := congrArg List.length (hlive.symm.trans hsame.live)
      rw [List.length_append] at hlen
      exact absurd hlen (by rw [RootPtr.blocks]; simp)
  · intro h
    constructor
    · rintro ⟨r, u⟩ hr
      rcases r with e | mp
      · exact ⟨_, newMount_of_error hr⟩
      rcases newMount_ok hg env v target s hr with ⟨-, mnt, t, hnew⟩ | ⟨e, b, hnew, -⟩
      · exact ⟨_, hnew⟩
      · exact ⟨_, hnew⟩
    · intro e t ht
      rcases vfsMount_error ht with ⟨-, rfl⟩ | ⟨htype, hnew⟩
      · exact ⟨rfl, rfl, rfl, fun _ => Iff.rfl, rfl⟩
      obtain ⟨⟨r, u⟩, hr⟩ : ∃ x, mountTarget env target s.1 = some x := by
        rcases hr : mountTarget env target s.1 with _ | x
        · rw [newMount, Fallible.bind_none (by rw [onVfs, hr]; rfl)] at hnew
          cases hnew
        · exact ⟨x, rfl⟩
      have hclean := h htype r u hr
      rcases r with e' | mp
      · obtain ⟨-, rfl⟩ := Prod.mk.inj (Option.some.inj (hnew.symm.trans (newMount_of_error hr)))
        rcases hclean with ⟨⟨_, hmp⟩, -⟩ | ⟨hmarks, -⟩
        · cases hmp
        · exact unchanged_of hr hmarks rfl
      rcases newMount_ok hg env v target s hr with ⟨-, mnt, t', hnew'⟩ | ⟨e', b, hnew', hcase⟩
      · cases (Prod.mk.inj (Option.some.inj (hnew.symm.trans hnew'))).1
      obtain ⟨-, rfl⟩ := Prod.mk.inj (Option.some.inj (hnew.symm.trans hnew'))
      rcases hcase with ⟨hno, hlive⟩ | ⟨hlast, -⟩
      · rcases hclean with ⟨-, hfs, -⟩ | ⟨hmarks, -⟩
        · exact absurd hfs hno
        · exact unchanged_of hr hmarks hlive
      · rcases hclean with ⟨-, -, hl⟩ | ⟨-, hno⟩
        · exact absurd hl hlast.2
        · exact absurd ⟨⟨mp, rfl⟩, hlast⟩ hno

/-! ## A sample mount -/

/-- A device with one group, whose reads return 0. -/
def smallDisk (alloc : ℕ → U64 → Bool) : Machine :=
  ⟨512, Ext2.superImage 0, fun _ => 0, alloc, fun _ _ => 0⟩

/-- Before the first mount. -/
def booted : Vfs.State ℕ Bool × Books := (Vfs.init [ext2Name] 1, ⟨Ext2.Io.start, []⟩)

/-- The driver's blocks as pages. -/
def sampleView : View Bool := ⟨id, fun _ => false⟩

theorem smallDisk_good (alloc : ℕ → U64 → Bool) : GoodSuper (smallDisk alloc).sectorSize
    (superBytes (smallDisk alloc).sectorSize (smallDisk alloc).image) := by
  change GoodSuper 512 (superBytes 512 (Ext2.superImage 0))
  exact ⟨by decide, by decide +kernel, by decide +kernel, by decide +kernel⟩

theorem smallDisk_blocks (alloc : ℕ → U64 → Bool) :
    Ext2.Cleanup.bgdtBlocks (superBytes (smallDisk alloc).sectorSize (smallDisk alloc).image) = 1 := by
  change Ext2.Cleanup.bgdtBlocks (superBytes 512 (Ext2.superImage 0)) = 1
  decide +kernel

/-- With nine pages the file system is mounted. -/
theorem smallDisk_mounts {alloc : ℕ → U64 → Bool} (h : ∀ k n, k < 9 → alloc k n = true) :
    FsMounts (smallDisk alloc) 0 0 := by
  have hsig : ByteMemory.load16 (superBytes 512 (Ext2.superImage 0)) (Ext2.superField 15) =
      Ext2.signature := by decide +kernel
  refine ⟨h 0 1 (by decide), h 1 1 (by decide), rfl, hsig, h 2 1 (by decide),
    h 3 _ (by decide), fun i hi => ?_, ?_⟩
  · rw [smallDisk_blocks] at hi
    exact h _ _ (by omega)
  · rw [smallDisk_blocks]
    exact ⟨h 5 1 (by decide), rfl, h 6 1 (by decide), h 7 1 (by decide), h 8 1 (by decide)⟩

/-- When the tenth `kalloc` fails the three blocks of the root stay allocated. -/
theorem mount_leaves_root :
    ¬CleansUp bootEnv (smallDisk fun k _ => decide (k ≠ 9)) sampleView [slash] booted := by
  rintro ⟨-, hun⟩
  have hfs : FsMounts (smallDisk fun k _ => decide (k ≠ 9)) 0 0 :=
    smallDisk_mounts fun k _ hk => decide_eq_true (Nat.ne_of_lt hk)
  have hlast : ¬LastAlloc (smallDisk fun k _ => decide (k ≠ 9)) 0 := by
    rw [LastAlloc, mountAllocs, smallDisk_blocks]
    exact Bool.false_ne_true
  rcases newMount_ok (smallDisk_good _) bootEnv sampleView [slash] booted rfl with ⟨⟨-, hl⟩, -⟩ | ⟨e, b, hnew, ⟨hno, -⟩ | ⟨-, d, hlive⟩⟩
  · exact hlast hl
  · exact hno hfs
  · have hsame := hun e _ (vfsMount_of_error (List.mem_singleton_self _) hnew)
    cases hlive.symm.trans hsame.live

theorem cleansUp_iff_sample : CleansUp bootEnv (smallDisk fun _ _ => true) sampleView [slash]
    booted := by
  refine (cleansUp_iff (smallDisk_good _) bootEnv sampleView [slash] booted).2 fun _ r u h => ?_
  obtain ⟨rfl, -⟩ := Prod.mk.inj (Option.some.inj (h.symm.trans
    (rfl : mountTarget bootEnv [slash] booted.1 = some (.ok none, booted.1))))
  exact Or.inl ⟨⟨none, rfl⟩, smallDisk_mounts fun _ _ _ => rfl, rfl⟩

end Jeos.MountCleanup
