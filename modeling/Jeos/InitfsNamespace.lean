import Jeos.Initfs
import Jeos.MountVisible

/-!
# Making a directory in initfs

`withInitfs` puts initfs among other file systems, of which none has a `mkdir`. `vfs_mkdir` hands the last
component of its path to `initfs_mkdir` as it stands, `vfs_lookup` interprets `.` and `..` first. So a
directory that `vfs_mkdir` has made under a short name was not there before and is found afterwards exactly
if its name is neither of these (`made_directory_is_found_iff`), where no mount covers the new inode.
-/

namespace Jeos

set_option linter.unusedSectionVars false

namespace Initfs

open Vfs

variable {κ ι : Type}

/-! ## The file systems -/

/-- An inode of another file system, among those of initfs, which have no `priv`. -/
def lift (i : Inode ι) : Inode (Option ι) := ⟨i.ino, i.mode, i.sb, i.lookup, some i.priv⟩

/-- The inode, if another file system has made it. -/
def lower (i : Inode (Option ι)) : Option (Inode ι) :=
  i.priv.map fun x => ⟨i.ino, i.mode, i.sb, i.lookup, x⟩

/-- A page for the code outside initfs. -/
def lowerPage : Page (Option ι) → Page ι
  | .dentry d => .dentry ⟨d.refcnt, d.name, d.inode.bind lower, d.parent, d.isMountpoint⟩
  | .superblock => .superblock
  | .mount => .mount

/-- A state without the memory of initfs. -/
def lowerState (s : State (Mem × κ) (Option ι)) : State κ ι where
  heap a := (s.heap a).map lowerPage
  fsTypes := s.fsTypes
  mounts := s.mounts
  rootMnt := s.rootMnt
  rootDent := s.rootDent
  fs := s.fs.2

/-- The inode that `initfs_make_dir` fills : `VFS_S_IFDIR | 0755`. -/
def dirInode (sb : ℕ) (ino : U32) : Inode (Option ι) := ⟨ino.setWidth 64, 0o040755, sb, true, none⟩

variable (g : Globals) (other : CallEnv κ ι) (inodePage : κ → Bool × κ)

/-- An operation of initfs in a superblock. `kalloc` is called only where there is an inode to return. -/
def answered (sb : ℕ) (op : Bool → Mem × Answer) (k : κ) :
    (ℤ × Option (Inode (Option ι))) × Mem × κ :=
  if (op true).2.ino = none then (((op true).2.code, none), (op true).1, k)
  else
    let r := op (inodePage k).1
    ((r.2.code, r.2.ino.map (dirInode sb)), r.1, (inodePage k).2)

/-- initfs among the other file systems, which have neither `mkdir` nor `create` nor `unlink`. -/
def withInitfs : CallEnv (Mem × κ) (Option ι) where
  kalloc s := ((other.kalloc (lowerState s)).1, s.fs.1, (other.kalloc (lowerState s)).2)
  kalloc_fresh s a h := by
    have hfree := other.kalloc_fresh (lowerState s) a h
    exact Option.map_eq_none_iff.1 hfree
  lookup i name k :=
    match lower i with
    | some j =>
      let (rc, ino, k') := other.lookup j name k.2
      (rc, ino.map lift, k.1, k')
    | none =>
      let ((rc, ino), k') := answered inodePage i.sb (fun page => (k.1, lookup g k.1 name page)) k.2
      (rc, ino, k')
  mount type sb device k :=
    if type = initfs then
      -- `initfs_mount_fs`
      let (page, k') := inodePage k.2
      if page then (OK, some (dirInode sb 1), k.1, k') else (ENOMEM, none, k.1, k')
    else
      let (rc, ino, k') := other.mount type sb device k.2
      (rc, ino.map lift, k.1, k')
  unmount type sb k := if type = initfs then k else (k.1, other.unmount type sb k.2)
  getattr i :=
    match lower i with
    | some j => (other.getattr j).map fun f k => ((f k.2).1, k.1, (f k.2).2)
    -- the fields behind `nlink` and `size` are not set, and nothing reads them
    | none => some fun k => ((OK, ⟨i.ino, i.mode, 2, 0, 0, 0, 0, 0, 0, 0⟩), k)
  create _ := none
  mkdir i :=
    -- `initfs_dir_iops` has `lookup` too
    if i.priv.isNone ∧ i.lookup then
      some fun name _ k => answered inodePage i.sb (mkdir g k.1 name) k.2
    else none
  unlink _ := none
  openFile i := (lower i).bind other.openFile |>.map fun f k => ((f k.2).1, k.1, (f k.2).2)
  closeFile i := (lower i).bind other.closeFile |>.map fun f k => ((f k.2).1, k.1, (f k.2).2)

end Initfs

namespace Vfs

variable {κ ι : Type} {env : Env κ ι} {Q : κ → κ → Prop} {s t u : State κ ι} {x : Mount × ℕ}
  {mnt : Mount} {a dir : ℕ} {name path : List U8} {names : List (List U8)}

/-! ## The data of the file systems -/

/-- A preorder along which the allocator and every `lookup` change the data of the file systems. -/
structure DataKeeps (env : Env κ ι) (Q : κ → κ → Prop) : Prop where
  refl : ∀ k, Q k k
  trans : ∀ k k' k'', Q k k' → Q k' k'' → Q k k''
  kalloc : ∀ s, Q s.fs (env.kalloc s).2
  lookup : ∀ i name k, Q k (env.lookup i name k).2.2

/-- Two states whose data `Q` relates. -/
def DataRel (Q : κ → κ → Prop) (s t : State κ ι) : Prop := Q s.fs t.fs

section DataKeeps

variable (hQ : DataKeeps env Q)
include hQ

theorem DataKeeps.rel_trans (s t u : State κ ι) (h : DataRel Q s t) (h' : DataRel Q t u) : DataRel Q s u :=
  hQ.trans _ _ _ h h'

theorem DataKeeps.of_readOnly {α : Type} {x : VfsM κ ι α} (h : Fallible.Keeps (@Eq (State κ ι)) x) :
    Fallible.Keeps (DataRel Q) x :=
  h.mono fun s t he => by
    obtain rfl : s = t := he
    exact hQ.refl s.fs

theorem DataKeeps.setPage (g : Option (Page ι)) : Fallible.Keeps (DataRel Q) (setPage a g : VfsM κ ι Unit) := by
  intro s r t h
  obtain ⟨-, rfl⟩ := Prod.mk.inj (Option.some.inj h)
  exact hQ.refl s.fs

theorem DataKeeps.dentryPut : Fallible.Keeps (DataRel Q) (dentryPut a : VfsM κ ι Unit) := by
  refine (hQ.of_readOnly getDentry_readOnly).bind hQ.rel_trans fun d => ?_
  split_ifs
  · exact hQ.setPage none
  · exact hQ.setPage _

theorem DataKeeps.keeps_kalloc (p : Page ι) : Fallible.Keeps (DataRel Q) (Vfs.kalloc env p) := by
  intro s r t h
  have hk := hQ.kalloc s
  unfold Vfs.kalloc at h
  split at h
  all_goals
    rename_i heq
    rw [heq] at hk
    obtain ⟨-, rfl⟩ := Prod.mk.inj (Option.some.inj h)
    exact hk

theorem DataKeeps.tmpDentry : Fallible.Keeps (DataRel Q) (tmpDentry env name dir) := by
  unfold Vfs.tmpDentry
  split_ifs
  · exact Fallible.Keeps.pure (fun s => hQ.refl s.fs) _
  · exact hQ.keeps_kalloc _

theorem DataKeeps.lookupChild : Fallible.Keeps (DataRel Q) (lookupChild env mnt dir name) := by
  have hrefl : ∀ s : State κ ι, DataRel Q s s := fun s => hQ.refl s.fs
  refine (hQ.of_readOnly getDentry_readOnly).bind hQ.rel_trans fun d => ?_
  rcases d.inode with _ | i
  · exact Fallible.Keeps.throw hrefl _
  dsimp only
  split_ifs
  · exact Fallible.Keeps.throw hrefl _
  · exact Fallible.Keeps.throw hrefl _
  refine hQ.tmpDentry.bind hQ.rel_trans fun y => ?_
  rcases y with _ | child
  · exact Fallible.Keeps.throw hrefl _
  have hlook : Fallible.Keeps (DataRel Q) (fsLookup env i name) := fun s r t h => by
    obtain ⟨-, rfl⟩ := Prod.mk.inj (Option.some.inj h)
    exact hQ.lookup i name s.fs
  refine hlook.bind hQ.rel_trans fun y => ?_
  refine (hQ.of_readOnly getDentry_readOnly).bind hQ.rel_trans fun _ => ?_
  refine (hQ.setPage _).bind hQ.rel_trans fun _ => ?_
  split_ifs
  · exact hQ.dentryPut.bind hQ.rel_trans fun _ => Fallible.Keeps.throw hrefl _
  rcases y.2 with _ | ino
  · exact hQ.dentryPut.bind hQ.rel_trans fun _ => Fallible.Keeps.throw hrefl _
  · refine (hQ.of_readOnly fun s => findByInode_readOnly s.mounts s).bind hQ.rel_trans fun sub => ?_
    rcases sub with _ | sub
    · exact Fallible.Keeps.pure hrefl _
    · exact hQ.dentryPut.bind hQ.rel_trans fun _ => Fallible.Keeps.pure hrefl _

theorem DataKeeps.walkStep : Fallible.Keeps (DataRel Q) (walkStep env x name) := by
  have hrefl : ∀ s : State κ ι, DataRel Q s s := fun s => hQ.refl s.fs
  obtain ⟨mnt, cur⟩ := x
  rw [Vfs.walkStep]
  split_ifs
  · exact Fallible.Keeps.pure hrefl _
  · exact (hQ.of_readOnly climb_readOnly).bind hQ.rel_trans fun _ => Fallible.Keeps.pure hrefl _
  refine hQ.lookupChild.bind hQ.rel_trans fun y => ?_
  have hrelease : Fallible.Keeps (DataRel Q) (release y.1 y.2.1 : VfsM κ ι Unit) := by
    intro s r t h
    unfold release at h
    split_ifs at h
    · exact hQ.dentryPut s r t h
    · obtain ⟨-, rfl⟩ := Prod.mk.inj (Option.some.inj h)
      exact hrefl s
  exact hrelease.bind hQ.rel_trans fun _ => Fallible.Keeps.pure hrefl _

theorem DataKeeps.startWalk :
    Fallible.Keeps (DataRel Q) (start >>= fun y => walk env y names : VfsM κ ι _) :=
  (hQ.of_readOnly start_readOnly).bind hQ.rel_trans fun y =>
    Fallible.Keeps.foldlM (fun s => hQ.refl s.fs) hQ.rel_trans (fun _ _ => hQ.walkStep) y names

end DataKeeps

/-! ## `vfs_mkdir` -/

theorem climb_ne_error {e : ℤ} : (climb mnt a : VfsM κ ι ℕ) s ≠ some (.error e, t) := by
  intro h
  have hup : (do return ((← getDentry a).parent).getD a : VfsM κ ι ℕ) s ≠ some (.error e, t) := by
    intro h
    rcases Fallible.bind_eq_some.1 h with ⟨e', hd, -⟩ | ⟨d, u, -, hpure⟩
    · exact getDentry_ne_error hd
    · cases hpure
  unfold climb at h
  generalize mnt.mountpoint = o at h
  generalize decide (a = mnt.root) = b at h
  rcases o with _ | mp
  · exact hup h
  · cases b with
    | false => exact hup h
    | true => cases h

/-- A walk starts where it did before a call that has freed nothing. -/
theorem Extends.start (h : Extends s t) {r : Except ℤ (Mount × ℕ)} (hstart : start s = some (r, s)) :
    start t = some (r, t) := by
  refine start_congr h.rootMnt h.rootDent ?_ ?_ hstart
  · intro a e _ he
    obtain ⟨e', he', -, -, hm⟩ := h.dentry a e he
    exact ⟨e', he', hm⟩
  · intro a _
    rw [h.mounts]

section Mkdir

variable {env : CallEnv κ ι} {mode : U32} {rc : ℤ}

/-- What `vfs_mkdir` does after the operation frees only the new dentry. -/
theorem mkdirTail_stays (f : κ → (ℤ × Option (Inode ι)) × κ) (child : ℕ) :
    Stays u child (fsCall f >>= fun z => setInode child z.2 >>= fun _ => dentryPut child >>= fun _ =>
      pure z.1 : VfsM κ ι ℤ) := by
  refine Stays.bind fsCall_stays fun z => Stays.bind setInode_stays fun _ => ?_
  exact Stays.bind dentryPut_stays fun _ => Fallible.Keeps.pure (fun _ => id) _

/-- With any result `vfs_mkdir` leaves all dentries, if its walk frees none. -/
theorem vfsMkdir_extends {r : Except ℤ ℤ} (hr : Rooted s) (hs : Intact s)
    (hputs : PutsParented env.toEnv s (components path).dropLast)
    (h : vfsMkdir env path mode s = some (r, t)) : Extends s t := by
  rw [vfsMkdir, leafDentry_eq, bind_assoc] at h
  rcases Fallible.bind_eq_some.1 h with ⟨e, hw, -⟩ | ⟨p, u, hw, h₁⟩
  · exact (walk_sound hr hs hputs hw).1
  refine (walk_sound hr hs hputs hw).1.trans ?_
  rcases Fallible.bind_eq_some.1 h₁ with ⟨e, hl, -⟩ | ⟨⟨i, f, leaf, child⟩, v, hl, h₂⟩
  · exact (newLeaf_grow u _ t hl).extends
  obtain ⟨hfree, fs, rfl⟩ := newLeaf_ok hl
  refine (OnlyPage.grow (a := child) ?_ hfree).extends
  exact mkdirTail_stays (f leaf mode) child _ r t h₂ ⟨fs, _, rfl⟩

/-- The operation that a successful `vfs_mkdir` has called, and its result. -/
theorem vfsMkdir_eq_ok (h : vfsMkdir env path mode s = some (.ok rc, t)) :
    ∃ p u i f leaf child, (components path).getLast?.getD [] = leaf ∧
      Leads env.toEnv s (components path).dropLast p u ∧ inodeAt u p.2 = some i ∧ i.isDir = true ∧
      env.mkdir i = some f ∧ leaf.length < 256 ∧ (env.kalloc u).1 = some child ∧
      (f leaf mode (env.kalloc u).2).1.1 = rc ∧ t.fs = (f leaf mode (env.kalloc u).2).2 := by
  rw [vfsMkdir, leafDentry_eq, bind_assoc] at h
  obtain ⟨p, u, hw, h₁⟩ := Fallible.bind_eq_ok.1 h
  obtain ⟨⟨i, f, leaf, child⟩, v, hl, h₂⟩ := Fallible.bind_eq_ok.1 h₁
  obtain ⟨rfl, hi, hdir, hf, hlen, hpage, rfl⟩ := newLeaf_eq_ok hl
  refine ⟨p, u, i, f, _, child, rfl, hw, hi, hdir, hf, hlen, hpage, ?_⟩
  dsimp only at h₂
  obtain ⟨z, v₁, hcall, h₃⟩ := Fallible.bind_eq_ok.1 h₂
  obtain ⟨hz, rfl⟩ := Prod.mk.inj (Option.some.inj hcall)
  obtain rfl := Except.ok.inj hz
  obtain ⟨_, v₂, hset, h₄⟩ := Fallible.bind_eq_ok.1 h₃
  obtain ⟨_, v₃, hput, h₅⟩ := Fallible.bind_eq_ok.1 h₄
  obtain ⟨hrc, rfl⟩ := Prod.mk.inj (Option.some.inj h₅)
  obtain rfl := Except.ok.inj hrc
  refine ⟨rfl, ?_⟩
  -- the rest touches the dentry only
  obtain ⟨e, v₄, hd, hset'⟩ := Fallible.bind_eq_ok.1 hset
  obtain ⟨-, rfl⟩ := getDentry_eq_ok.1 hd
  obtain rfl := setDentry_eq_ok.1 hset'
  rw [dentryPut_of dentryAt_put_self] at hput
  obtain ⟨-, hlast⟩ := Prod.mk.inj (Option.some.inj hput)
  rw [← hlast]
  split_ifs <;> rfl

/-! ## Namespaces -/

/-- What builds a namespace. -/
inductive NamespaceCall where
  | mount (type : List U8) (device : ℕ) (target : List U8)
  | mkdir (path : List U8) (mode : U32)

/-- The state after a call, with any result. -/
def namespaceStep (env : CallEnv κ ι) (s : State κ ι) : NamespaceCall → Option (State κ ι)
  | .mount type device target => (vfsMount env.toEnv type device target s).map Prod.snd
  | .mkdir path mode => (vfsMkdir env path mode s).map Prod.snd

/-- The walk of the call frees no dentry. -/
def WalkKeeps (env : CallEnv κ ι) (s : State κ ι) : NamespaceCall → Prop
  | .mount _ _ target => PutsParented env.toEnv s (steps target)
  | .mkdir path _ => PutsParented env.toEnv s (components path).dropLast

/-- In a namespace that such calls have built the root is in the table and no anchor has been freed. -/
theorem namespace_intact {fsTypes : List (List U8)} {fs : κ} {calls : List NamespaceCall}
    (hcalls : Run.EachStep (namespaceStep env) (WalkKeeps env) (init fsTypes fs) calls)
    (h : Run.run (namespaceStep env) (init fsTypes fs) calls = some s) : Mounted s ∧ Intact s := by
  refine Run.Always.last (P := fun s => Mounted s ∧ Intact s)
    (Run.always_of_eachStep ?_ ?_ hcalls) h
  · rintro s c t ⟨hm, hs⟩ hc hstep
    cases c with
    | mount type device target =>
      obtain ⟨⟨r, t'⟩, hmount, rfl⟩ := Option.map_eq_some_iff.1 hstep
      exact ⟨hm.vfsMount hmount, vfsMount_intact hm.rooted hs hc hmount⟩
    | mkdir path mode =>
      obtain ⟨⟨r, t'⟩, hmkdir, rfl⟩ := Option.map_eq_some_iff.1 hstep
      exact ⟨hm.evolves (vfsMkdir_evolves s _ t' hmkdir),
        (vfsMkdir_extends hm.rooted hs hc hmkdir).intact hs⟩
  · refine ⟨mounted_init, ?_⟩
    rintro a ⟨m, hm, -⟩
    exact absurd hm List.not_mem_nil

end Mkdir

end Vfs

namespace Initfs

open Vfs NameTable ByteMemory

variable {κ ι : Type} {g : Globals} {other : CallEnv κ ι} {inodePage : κ → Bool × κ}
  {A : Inode ι → Inode ι → Prop} {s t u x y : State (Mem × κ) (Option ι)} {path leaf c : List U8}
  {i j k : Inode (Option ι)} {sb : ℕ} {op : Bool → Mem × Answer} {mode : U32}

/-! ## initfs among other file systems -/

theorem lower_eq_some {i' : Inode ι} (h : lower i = some i') : i = lift i' := by
  obtain ⟨ino, m, sb, l, priv⟩ := i
  rcases priv with _ | v
  · cases h
  · obtain rfl := Option.some.inj h
    rfl

theorem lower_lift (i : Inode ι) : lower (lift i) = some i := rfl

theorem answered_mem (hop : ∀ page, (op page).1 = (op true).1) (k : κ) :
    (answered inodePage sb op k : (ℤ × Option (Inode (Option ι))) × Mem × κ).2.1 = (op true).1 := by
  unfold answered
  split_ifs
  · rfl
  · exact hop _

theorem answered_eq (sb : ℕ) (op : Bool → Mem × Answer) {k : κ} (h : (inodePage k).1 = true) : ∃ k', answered inodePage sb op k =
    (((op true).2.code, (op true).2.ino.map (dirInode (ι := ι) sb)), (op true).1, k') := by
  unfold answered
  split_ifs with hnone
  · exact ⟨k, by rw [hnone]; rfl⟩
  · rw [h]
    exact ⟨_, rfl⟩

/-- The memory of initfs is changed by `mkdir` only. -/
theorem dataKeeps_withInitfs :
    DataKeeps (withInitfs g other inodePage).toEnv fun k k' => k'.1 = k.1 where
  refl _ := rfl
  trans _ _ _ h h' := h'.trans h
  kalloc _ := rfl
  lookup i name k := by
    unfold withInitfs
    dsimp only
    rcases lower i with _ | j
    · exact answered_mem (fun _ => rfl) k.2
    · rfl

theorem isDir_dirInode {n : U32} : (dirInode (ι := ι) sb n).isDir = true := by
  have hmode : ((0o040755 : U32) &&& 0o170000 == 0o040000) = true := by decide
  exact hmode

/-- What a lookup in initfs answers. -/
theorem lookup_cases (m : Mem) (name : List U8) :
    lookup g m name true = ⟨ENOENT, none⟩ ∨ ∃ n, lookup g m name true = ⟨OK, some n⟩ := by
  unfold lookup
  rcases first (isNamed g m name) with _ | i
  · exact Or.inl rfl
  · exact Or.inr ⟨_, rfl⟩

section Children

variable (hpage : ∀ k, (inodePage k).1 = true)
include hpage

/-- What `vfs_lookup_child` gets in a directory of initfs. -/
theorem childInode_initfs (hi : lower i = none) (hdir : i.isDir = true) (hlookup : i.lookup = true)
    (hlen : c.length < 256) : childInode (withInitfs g other inodePage).toEnv x (some i) c =
      match (lookup g x.fs.1 c true).ino with
      | some n => .ok (dirInode i.sb n)
      | none => .error ENOENT := by
  have hanswered := answered_eq (ι := ι) i.sb (fun page => (x.fs.1, lookup g x.fs.1 c page))
    (hpage (other.kalloc (lowerState x)).2)
  obtain ⟨k', hk'⟩ := hanswered
  have hanswer : (withInitfs g other inodePage).lookup i c
      ((withInitfs g other inodePage).kalloc x).2 =
      ((lookup g x.fs.1 c true).code, (lookup g x.fs.1 c true).ino.map (dirInode i.sb), x.fs.1, k') := by
    simp only [withInitfs, hi, hk']
  unfold childInode
  dsimp only
  rw [hdir, hlookup, hanswer]
  simp only [Bool.true_eq_false, if_false, ge_iff_le, Nat.not_le.2 hlen]
  rcases lookup_cases (g := g) x.fs.1 c with h | ⟨n, h⟩
  · rw [h]
    rfl
  · rw [h]
    rfl

end Children

/-- One inode, or inodes of another file system that `A` relates. -/
def Related (A : Inode ι → Inode ι → Prop) (i j : Inode (Option ι)) : Prop :=
  i = j ∨ ∃ i' j', A i' j' ∧ i = lift i' ∧ j = lift j'

theorem relates_related (hA : Relates A) : Relates (Related A) where
  refl _ := Or.inl rfl
  same := by
    rintro i j (rfl | ⟨i', j', h, rfl, rfl⟩)
    · exact ⟨rfl, rfl⟩
    · exact hA.same h

theorem related_of_lower_none (h : Related A i j) (hi : lower i = none) : j = i := by
  rcases h with rfl | ⟨i', j', -, rfl, -⟩
  · rfl
  · cases hi

theorem childInode_eq_ok {env : Env (Mem × κ) (Option ι)}
    (h : childInode env x (some i) c = .ok k) : i.isDir = true ∧ i.lookup = true ∧ c.length < 256 := by
  unfold childInode at h
  dsimp only at h
  split_ifs at h with hdir hlookup hlen
  exact ⟨by simpa using hdir, by simpa using hlookup, Nat.not_le.1 hlen⟩

theorem rel_map_lift {i' j' : Option (Inode ι)} (h : Option.Rel A i' j') :
    Option.Rel (Related A) (i'.map lift) (j'.map lift) := by
  rcases h with h | _
  · exact .some (Or.inr ⟨_, _, h, rfl, rfl⟩)
  · exact .none

/-- The other file systems answer alike. -/
theorem childAlike_lift (hA : Stable other.toEnv A) {i' j' : Inode ι} (h : A i' j') :
    ChildAlike (withInitfs g other inodePage).toEnv (Related A) x y (some (lift i')) (some (lift j')) c := by
  refine childAlike_of c (hA.isDir h) (hA.lookup h) (hA.code h c _ _) ?_
  exact rel_map_lift (hA.child h c _ _)

/-! ## A directory that `vfs_mkdir` has made -/

/-- `vfs_mkdir` has returned `VFS_OK` for a path whose last component is short, and there are pages for a
lookup of the path afterwards. -/
structure Making (g : Globals) (other : CallEnv κ ι) (inodePage : κ → Bool × κ)
    (A : Inode ι → Inode ι → Prop) (s : State (Mem × κ) (Option ι)) (path : List U8) (mode : U32)
    (leaf : List U8) (t : State (Mem × κ) (Option ι)) : Prop where
  rooted : Rooted s
  intact : Intact s
  stable : Stable other.toEnv A
  inodes : ∀ k, (inodePage k).1 = true
  leaf_eq : (components path).getLast? = some leaf
  short : leaf.length ≤ 63
  puts : PutsParented (withInitfs g other inodePage).toEnv s (components path).dropLast
  mkdir : vfsMkdir (withInitfs g other inodePage) path mode s = some (.ok OK, t)
  pages : Supplied (withInitfs g other inodePage).toEnv t (components path)

/-- The directory of the path is one of initfs, in which the leaf is new. -/
structure MadeIn (g : Globals) (other : CallEnv κ ι) (inodePage : κ → Bool × κ)
    (s : State (Mem × κ) (Option ι)) (names : List (List U8)) (leaf : List U8)
    (t : State (Mem × κ) (Option ι)) (p : Mount × ℕ) (u : State (Mem × κ) (Option ι))
    (i : Inode (Option ι)) (a : Fin maxDirs) : Prop where
  leads : Leads (withInitfs g other inodePage).toEnv s names p u
  inode : inodeAt u p.2 = some i
  isDir : i.isDir = true
  lookup : i.lookup = true
  initfs : lower i = none
  length_lt : leaf.length < 256
  page : ((withInitfs g other inodePage).kalloc u).1 ≠ none
  new : first (isNamed g s.fs.1 leaf) = none
  unused : s.fs.1 (inUseAddr g a) = 0
  mem : t.fs.1 = setDir g s.fs.1 a leaf

section Making

variable {p : Mount × ℕ} {a : Fin maxDirs} (h : Making g other inodePage A s path mode leaf t)
include h

theorem Making.split : components path = (components path).dropLast ++ [leaf] :=
  (List.dropLast_append_getLast? leaf h.leaf_eq).symm

theorem Making.nul : 0 ∉ leaf := zero_notMem_of_mem_components (List.mem_of_getLast? h.leaf_eq)

theorem Making.madeIn : ∃ p u i a,
    MadeIn g other inodePage s (components path).dropLast leaf t p u i a := by
  obtain ⟨p, u, i, f, leaf', child, hleaf, hw, hi, hdir, hf, hlen, hpage, hrc, hfs⟩ :=
    vfsMkdir_eq_ok h.mkdir
  rw [h.leaf_eq, Option.getD_some] at hleaf
  subst hleaf
  have hop : i.priv.isNone = true ∧ i.lookup = true := by
    by_contra hno
    simp only [withInitfs, if_neg hno] at hf
    cases hf
  have hlower : lower i = none := by
    rw [lower, Option.isNone_iff_eq_none.1 hop.1]
    rfl
  simp only [withInitfs, if_pos hop] at hf
  obtain rfl := Option.some.inj hf
  have hmem : u.fs.1 = s.fs.1 := dataKeeps_withInitfs.startWalk s _ u hw
  obtain ⟨k', hk'⟩ := answered_eq (ι := ι) i.sb (Initfs.mkdir g u.fs.1 leaf)
    (h.inodes (other.kalloc (lowerState u)).2)
  have hanswer : answered (ι := ι) inodePage i.sb (Initfs.mkdir g u.fs.1 leaf)
      (other.kalloc (lowerState u)).2 = _ := hk'
  dsimp only [withInitfs] at hrc hfs
  rw [hanswer] at hrc hfs
  obtain ⟨hnew, a, hunused, hset⟩ := mkdir_eq_ok hrc
  rw [hmem] at hnew hunused
  refine ⟨p, u, i, a, hw, hi, hdir, hop.2, hlower, hlen, ?_, hnew, hunused, ?_⟩
  · rw [hpage]
    exact Option.some_ne_none child
  · rw [hfs, hset, hmem]

theorem Making.extends : Vfs.Extends s t := vfsMkdir_extends h.rooted h.intact h.puts h.mkdir

theorem Making.intact_after : Intact t := h.extends.intact h.intact

theorem Making.covering_eq : covering t i t.mounts = covering s i s.mounts := by
  rw [h.extends.mounts]
  exact covering_agrees h.extends.agrees fun m hm a => h.intact.mountpoint hm

/-- Before the call the lookup finds nothing. -/
theorem Making.not_found (hdots : ¬IsDots leaf) :
    ∃ v, vfsLookup (withInitfs g other inodePage).toEnv path s = some (.error ENOENT, v) := by
  obtain ⟨p, u, i, a, hmade⟩ := h.madeIn
  obtain ⟨d, hd, hdi⟩ := inodeAt_eq_some.1 hmade.inode
  obtain ⟨b, hb⟩ := Option.ne_none_iff_exists'.1 hmade.page
  have hext := (walk_sound h.rooted h.intact h.puts hmade.leads).1
  have hmem : u.fs.1 = s.fs.1 := dataKeeps_withInitfs.startWalk s _ u hmade.leads
  have hspec := lookupChild_eq p.1 leaf h.intact hext hd hb
  have hlook : lookup g u.fs.1 leaf true = ⟨ENOENT, none⟩ := by
    rw [hmem, lookup, hmade.new]
  rw [hdi, childInode_initfs h.inodes hmade.initfs hmade.isDir hmade.lookup hmade.length_lt, hlook] at hspec
  obtain ⟨v, hv⟩ := hspec
  refine ⟨v, ?_⟩
  rw [vfsLookup_eq, h.split, startWalk_append, Fallible.bind_ok hmade.leads, walkStep,
    if_neg fun he => hdots (Or.inl he), if_neg fun he => hdots (Or.inr he)]
  exact Fallible.bind_error hv

/-- A lookup in the memory after the call. -/
theorem Making.lookup_after (hmade : MadeIn g other inodePage s (components path).dropLast leaf t p u i a)
    (hc : c.length < 256) (hc0 : 0 ∉ c) : lookup g t.fs.1 c true =
      if c = leaf then ⟨OK, some (load32 s.fs.1 g.nextIno)⟩ else lookup g s.fs.1 c true := by
  rw [hmade.mem, lookup_setDir h.short h.nul hmade.unused hmade.new hc hc0]
  rfl

/-- The directories in front of the leaf answer as before. -/
theorem Making.childAlike (hmade : MadeIn g other inodePage s (components path).dropLast leaf t p u i a)
    {pre post : List (List U8)} {q r : Mount × ℕ} (he : (components path).dropLast = pre ++ c :: post)
    (hc : ¬IsDots c) (hq : Leads (withInitfs g other inodePage).toEnv s pre q x)
    (hr : Leads (withInitfs g other inodePage).toEnv t pre r y) (hqr : Mirrored (Related A) s t q x r y) :
    ChildAlike (withInitfs g other inodePage).toEnv (Related A) x y (inodeAt x q.2) (inodeAt y r.2) c := by
  have hwhole := hmade.leads
  rw [he] at hwhole
  obtain ⟨z, v, hl⟩ := hwhole.lookupChild_ok hc hq
  obtain ⟨k, hk⟩ := childInode_of_lookupChild h.intact hqr.left hl
  have hx : x.fs.1 = s.fs.1 := dataKeeps_withInitfs.startWalk s _ x hq
  have hy : y.fs.1 = t.fs.1 := dataKeeps_withInitfs.startWalk t _ y hr
  have hc0 : 0 ∉ c := by
    refine zero_notMem_of_mem_components (p := path) (List.dropLast_subset _ ?_)
    rw [he]
    exact List.mem_append_right pre List.mem_cons_self
  have hrel := hqr.inodeAt_rel (relates_related h.stable.relates) h.extends.agrees
  generalize inodeAt x q.2 = i₁ at hrel hk ⊢
  generalize inodeAt y r.2 = j₁ at hrel ⊢
  obtain @⟨i₁, j₁, hij⟩ | _ := hrel
  swap
  · cases hk
  rcases hlow : lower i₁ with _ | i'
  · obtain rfl := related_of_lower_none hij hlow
    obtain ⟨hdir, hlook, hlen⟩ := childInode_eq_ok hk
    rw [childInode_initfs h.inodes hlow hdir hlook hlen, hx] at hk
    unfold ChildAlike
    rw [childInode_initfs h.inodes hlow hdir hlook hlen, childInode_initfs h.inodes hlow hdir hlook hlen,
      hx, hy, h.lookup_after hmade hlen hc0]
    split_ifs with hcl
    · -- the leaf is new, so no walk goes through it
      rw [hcl, lookup, hmade.new] at hk
      cases hk
    · rw [hk]
      exact Or.inr ⟨k, k, rfl, rfl, Or.inl rfl⟩
  · rcases hij with rfl | ⟨i₂, j₂, hA, rfl, rfl⟩
    · rw [lower_eq_some hlow]
      exact childAlike_lift h.stable (h.stable.refl i')
    · exact childAlike_lift h.stable hA

/-- The walk to the directory goes on as before. -/
theorem Making.walks (hmade : MadeIn g other inodePage s (components path).dropLast leaf t p u i a) :
    ∃ q v, Leads (withInitfs g other inodePage).toEnv t (components path).dropLast q v ∧
      Mirrored (Related A) s t p u q v := by
  have hpages := h.pages
  rw [h.split] at hpages
  have halike := walks_alike_of (relates_related h.stable.relates) h.extends.agrees h.rooted h.intact
    h.intact_after (fun r => h.extends.start)
    (fun pre c post q x r y he hc hq hr => h.childAlike hmade he hc hq hr)
    h.puts hmade.leads.supplied hpages.of_append fun pre c post i _ _ _ => h.covering_eq
  have hw := hmade.leads
  unfold Leads at hw
  rw [hw] at halike
  generalize hq : (start >>= fun y => walk (withInitfs g other inodePage).toEnv y
    (components path).dropLast : VfsM _ _ _) t = r at halike
  obtain _ | @⟨_, q, _, v, hpq⟩ := halike
  exact ⟨q, v, hq, hpq⟩

/-- Where the lookup leads to afterwards : to the new inode, or to the root of a mount over it. -/
theorem Making.lookup_leaf (hmade : MadeIn g other inodePage s (components path).dropLast leaf t p u i a)
    (hdots : ¬IsDots leaf) :
    ∃ q v, vfsLookup (withInitfs g other inodePage).toEnv path t = some (.ok q, v) ∧
      match covering s (dirInode i.sb (load32 s.fs.1 g.nextIno)) s.mounts with
      | none => inodeAt v q.2 = some (dirInode i.sb (load32 s.fs.1 g.nextIno))
      | some m => inodeAt v q.2 = inodeAt s m.root := by
  obtain ⟨q, v, hq, hpq⟩ := h.walks hmade
  have hv : v.fs.1 = t.fs.1 := dataKeeps_withInitfs.startWalk t _ v hq
  have hrel := hpq.inodeAt_rel (relates_related h.stable.relates) h.extends.agrees
  rw [hmade.inode] at hrel
  generalize hj : inodeAt v q.2 = j₁ at hrel
  obtain @⟨_, j, hij⟩ := hrel
  obtain rfl := related_of_lower_none hij hmade.initfs
  obtain ⟨e, he, -⟩ := inodeAt_eq_some.1 hj
  have hsplit := h.split
  have hpage := h.pages _ leaf [] q v hsplit hdots hq
  have hchild : childInode (withInitfs g other inodePage).toEnv v (inodeAt v q.2) leaf =
      .ok (dirInode j.sb (load32 s.fs.1 g.nextIno)) := by
    rw [hj, childInode_initfs h.inodes hmade.initfs hmade.isDir hmade.lookup hmade.length_lt, hv,
      h.lookup_after hmade hmade.length_lt h.nul, if_pos rfl]
  obtain ⟨r, w, hstep, hwhere⟩ := walkStep_of_child h.intact_after hpq.right hdots ⟨e, he⟩ hpage hchild
  rw [h.covering_eq] at hwhere
  refine ⟨r, w, ?_, ?_⟩
  · rw [vfsLookup_eq, hsplit, startWalk_append, Fallible.bind_ok hq, hstep]
  rcases hcov : covering s (dirInode j.sb (load32 s.fs.1 g.nextIno)) s.mounts with _ | m <;>
    rw [hcov] at hwhere
  · exact hwhere
  · dsimp only at hwhere ⊢
    rw [hwhere.1, hwhere.2]
    exact inodeAt_of_agrees h.extends.agrees (h.intact _ ⟨m, covering_mem hcov, Or.inl rfl⟩).live

/-- `.` and `..` have been there before. -/
theorem Making.found_of_dots (hdots : IsDots leaf) {e : ℤ} :
    vfsLookup (withInitfs g other inodePage).toEnv path s ≠ some (.error e, u) := by
  obtain ⟨p, v, i, a, hmade⟩ := h.madeIn
  rw [vfsLookup_eq, h.split, startWalk_append, Fallible.bind_ok hmade.leads, walkStep]
  intro herr
  split_ifs at herr with hdot hdotdot
  · cases herr
  · rcases Fallible.bind_eq_some.1 herr with ⟨e', hc, -⟩ | ⟨b, v', -, hpure⟩
    · exact climb_ne_error hc
    · cases hpure
  · exact hdots.elim hdot hdotdot

end Making

/-- The path was not there, and now leads to a directory with the number `n`. -/
def FoundAgain (env : Env (Mem × κ) (Option ι)) (s t : State (Mem × κ) (Option ι)) (path : List U8)
    (n : U32) : Prop :=
  (∃ u, vfsLookup env path s = some (.error ENOENT, u)) ∧
    ∃ p u i, vfsLookup env path t = some (.ok p, u) ∧ inodeAt u p.2 = some i ∧ i.isDir = true ∧
      i.ino = n.setWidth 64

/-- No mount, unless its root is a directory with this number too, covers the number `n` on the superblock
of the directory that the components lead to. -/
def Uncovered (env : Env (Mem × κ) (Option ι)) (s : State (Mem × κ) (Option ι)) (names : List (List U8))
    (n : U32) : Prop :=
  ∀ p u i m, Leads env s names p u → inodeAt u p.2 = some i →
    covering s (dirInode i.sb n) s.mounts = some m →
      ∃ j, inodeAt s m.root = some j ∧ j.isDir = true ∧ j.ino = n.setWidth 64

/-- For every namespace that `vfs_mount` and `vfs_mkdir` have built without freeing a dentry that they
walked over, and every path whose last component has at most 63 bytes : a directory that `vfs_mkdir` has
made there was missing before and is found afterwards exactly if its name is neither `.` nor `..` and no
mount covers its number. -/
theorem made_directory_is_found_iff {fsTypes : List (List U8)} {fs : Mem × κ}
    {calls : List NamespaceCall} (hA : Stable other.toEnv A) (hinodes : ∀ k, (inodePage k).1 = true)
    (hcalls : Run.EachStep (namespaceStep (withInitfs g other inodePage))
      (WalkKeeps (withInitfs g other inodePage)) (init fsTypes fs) calls)
    (hs : Run.run (namespaceStep (withInitfs g other inodePage)) (init fsTypes fs) calls = some s)
    (hleaf : (components path).getLast? = some leaf) (hshort : leaf.length ≤ 63)
    (hputs : PutsParented (withInitfs g other inodePage).toEnv s (components path).dropLast)
    (hmkdir : vfsMkdir (withInitfs g other inodePage) path mode s = some (.ok OK, t))
    (hpages : Supplied (withInitfs g other inodePage).toEnv t (components path)) :
    FoundAgain (withInitfs g other inodePage).toEnv s t path (load32 s.fs.1 g.nextIno) ↔
      ¬IsDots leaf ∧ Uncovered (withInitfs g other inodePage).toEnv s (components path).dropLast
        (load32 s.fs.1 g.nextIno) := by
  obtain ⟨hm, hintact⟩ := namespace_intact hcalls hs
  have h : Making g other inodePage A s path mode leaf t :=
    ⟨hm.rooted, hintact, hA, hinodes, hleaf, hshort, hputs, hmkdir, hpages⟩
  by_cases hdots : IsDots leaf
  · exact iff_of_false (fun ⟨⟨u, hu⟩, _⟩ => h.found_of_dots hdots hu) fun hno => hno.1 hdots
  rw [FoundAgain, and_iff_right (h.not_found hdots), and_iff_right hdots]
  obtain ⟨p, u, i, a, hmade⟩ := h.madeIn
  obtain ⟨q, v, hq, hwhere⟩ := h.lookup_leaf hmade hdots
  constructor
  · rintro ⟨q', v', j, hq', hj, hdir, hino⟩ p' u' i' m hw hi' hcov
    obtain ⟨rfl, rfl⟩ := hmade.leads.unique hw
    obtain rfl := Option.some.inj (hmade.inode.symm.trans hi')
    obtain ⟨hqq, rfl⟩ := Prod.mk.inj (Option.some.inj (hq.symm.trans hq'))
    obtain rfl := Except.ok.inj hqq
    rw [hcov] at hwhere
    exact ⟨j, hwhere.symm.trans hj, hdir, hino⟩
  · intro hfree
    rcases hcov : covering s (dirInode i.sb (load32 s.fs.1 g.nextIno)) s.mounts with _ | m <;>
      rw [hcov] at hwhere
    · exact ⟨q, v, _, hq, hwhere, isDir_dirInode, rfl⟩
    · obtain ⟨j, hj, hdir, hino⟩ := hfree p u i m hmade.leads hmade.inode hcov
      exact ⟨q, v, j, hq, hwhere.trans hj, hdir, hino⟩

/-! ## A directory in the root -/

/-- initfs with the other file systems of `bootCalls`. -/
def sampleCalls : CallEnv (Mem × ℕ) (Option Bool) := withInitfs sampleGlobals bootCalls fun n => (true, n)

/-- `vfs_mount("initfs", 0, "/", 0, 0)`. -/
def sampleMounts : List NamespaceCall := [.mount initfs 0 [slash]]

theorem made_directory_is_found_sample : ∃ s t : State (Mem × ℕ) (Option Bool),
    Run.run (namespaceStep sampleCalls) (init [initfs, devfs] (sampleBoot, 1)) sampleMounts = some s ∧
    vfsMkdir sampleCalls [slash, 97] 0 s = some (.ok OK, t) ∧
    (FoundAgain sampleCalls.toEnv s t [slash, 97] (load32 s.fs.1 sampleGlobals.nextIno) ↔
      ¬IsDots [97] ∧ Uncovered sampleCalls.toEnv s (components [slash, 97]).dropLast
        (load32 s.fs.1 sampleGlobals.nextIno)) := by
  have hrun : ((Run.run (namespaceStep sampleCalls) (init [initfs, devfs] (sampleBoot, 1)) sampleMounts).bind
      fun s => (vfsMkdir sampleCalls [slash, 97] 0 s).map fun x => (x.1.toOption,
        (sampleCalls.kalloc x.2).1.isSome)) = some (some OK, true) := by decide +kernel
  obtain ⟨s, hs, hmkdir⟩ := Option.bind_eq_some_iff.1 hrun
  obtain ⟨⟨r, t⟩, ht, heq⟩ := Option.map_eq_some_iff.1 hmkdir
  obtain ⟨hok, hpage⟩ : r.toOption = some OK ∧ (sampleCalls.kalloc t).1.isSome = true := by
    simpa only [Prod.mk.injEq] using heq
  rcases r with e | rc
  · cases hok
  obtain rfl := Option.some.inj hok
  have hnil : dotdot ∉ steps [slash] := by decide
  have hnotMem : dotdot ∉ (components [slash, 97]).dropLast := by decide
  have hsteps : steps [slash, 97] = [[97]] := by decide
  have hcalls : Run.EachStep (namespaceStep sampleCalls) (WalkKeeps sampleCalls)
      (init [initfs, devfs] (sampleBoot, 1)) sampleMounts :=
    ⟨putsParented_of_notMem mounted_init.rooted hnil, fun _ _ => trivial⟩
  obtain ⟨hm, -⟩ := namespace_intact hcalls hs
  have hsupplied := supplied_of_single hsteps (hm.evolves (vfsMkdir_evolves s _ t ht)).rooted
    (Option.isSome_iff_ne_none.1 hpage)
  exact ⟨s, t, hs, ht, made_directory_is_found_iff (A := Eq) stable_bootEnv (fun _ => rfl) hcalls hs
    (by decide) (by decide) (putsParented_of_notMem hm.rooted hnotMem) ht hsupplied⟩

/-- `vfs_mkdir("/.")` makes a directory, and `/.` was there. -/
theorem dot_is_made_again : ¬∀ (calls : List NamespaceCall) (s t : State (Mem × ℕ) (Option Bool))
    (path leaf : List U8) (mode : U32),
    Run.run (namespaceStep sampleCalls) (init [initfs, devfs] (sampleBoot, 1)) calls = some s →
    (components path).getLast? = some leaf → leaf.length ≤ 63 →
    vfsMkdir sampleCalls path mode s = some (.ok OK, t) →
      FoundAgain sampleCalls.toEnv s t path (load32 s.fs.1 sampleGlobals.nextIno) := by
  intro hall
  have hrun : ((Run.run (namespaceStep sampleCalls) (init [initfs, devfs] (sampleBoot, 1)) sampleMounts).bind
      fun s => (vfsMkdir sampleCalls [slash, 46] 0 s).map fun x => (x.1.toOption,
        (vfsLookup sampleCalls.toEnv [slash, 46] s).map fun y => y.1.toBool)) =
      some (some OK, some true) := by decide +kernel
  obtain ⟨s, hs, hmkdir⟩ := Option.bind_eq_some_iff.1 hrun
  obtain ⟨⟨r, t⟩, ht, heq⟩ := Option.map_eq_some_iff.1 hmkdir
  obtain ⟨hok, hfound⟩ : r.toOption = some OK ∧
      ((vfsLookup sampleCalls.toEnv [slash, 46] s).map fun y => y.1.toBool) = some true := by
    simpa only [Prod.mk.injEq] using heq
  rcases r with e | rc
  · cases hok
  obtain rfl := Option.some.inj hok
  obtain ⟨⟨u, hu⟩, -⟩ := hall sampleMounts s t [slash, 46] dot 0 hs (by decide) (by decide) ht
  rw [hu] at hfound
  cases hfound

end Initfs

end Jeos
