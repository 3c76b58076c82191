import Jeos.Ext2Tree
import Jeos.Lib.FileTree
import Jeos.VfsCalls
import Jeos.VfsSpec
import Mathlib.Data.Nat.Find
import Mathlib.Data.Set.Finite.Basic

/-!
# Opening and reading a file of a volume

`vfs_open` and `vfs_lookup` on an ext2 volume, down to the blocks of the device, and the reads of an
open file. A tree describes the volume if its directories have the entries of the directories on the
device and its leaves the contents of the files.

The walk through the dentries follows the names as the tree does, with the same errors
(`At.walkStep`). So a path opens the file that the tree has there, and reading it in any pieces gives
its content (`open_and_read`).
-/

set_option linter.unusedSectionVars false

namespace Jeos.Vfs

open Ext2 (Machine Ext2Priv Ext2Inode Io diskInode ext2VfsMode InodeIn Volume)
open FileTree (Fault next Fits)

/-! ## Free pages -/

section Pages

variable {κ ι : Type}

/-- The pages in use. -/
def State.used (s : State κ ι) : Set ℕ := {a | s.heap a ≠ none}

/-- There is a free page as long as finitely many are in use. -/
theorem exists_free {s : State κ ι} (hs : s.used.Finite) : ∃ a, s.heap a = none := by
  obtain ⟨a, ha⟩ := hs.exists_notMem
  exact ⟨a, not_not.1 ha⟩

theorem State.used_put {s : State κ ι} (hs : s.used.Finite) (a : ℕ) (d : Dentry ι) :
    (s.put a d).used.Finite := by
  refine (hs.insert a).subset fun b hb => ?_
  by_cases hba : b = a
  · exact Or.inl hba
  · refine Or.inr fun hfree => hb ?_
    exact (Function.update_of_ne hba _ _).trans hfree

end Pages

/-! ## The volume under the namespace -/

namespace OnDisk

section Volume

variable (m : Machine) (p : Ext2Priv)

/-- The nodes of the tree are on the volume. Of a leaf that is a regular file the tree may have the
content. -/
structure Describes (T : U32 → FileTree.Node (List U8) U32 (Option (List U8))) (nodes : Set U32) :
    Prop where
  stored : ∀ i ∈ nodes, InodeIn p i
  closed : ∀ i ∈ nodes, ∀ name j, next T i name = .ok j → j ∈ nodes
  dir : ∀ i ∈ nodes, ∀ entries, T i = .dir entries →
    (diskInode m p i).mode &&& 0xF000 = 0x4000 ∧ Ext2.Lists m p (diskInode m p i) entries
  leaf : ∀ i ∈ nodes, ∀ data, T i = .leaf data → (diskInode m p i).mode &&& 0xF000 ≠ 0x4000 ∧
    ∀ content, data = some content → Ext2.Contains m p (diskInode m p i) content

/-- The inode in memory of a node. -/
structure Shows (sb : ℕ) (i : U32) (v : Inode Ext2Inode) : Prop where
  ino : v.ino = i.setWidth 64
  mode : v.mode = ext2VfsMode (diskInode m p i).mode
  sb : v.sb = sb
  lookup : v.lookup = true
  priv : v.priv.Same (diskInode m p i)

/-- The code outside `vfs.c` for the volume with superblock `sb` : `ext2_lookup` and `ext2_open`, and a
`kalloc` that does not fail as long as there is a free page. `δ` is the state of all other file
systems. -/
structure OverDisk {δ : Type} (sb : ℕ) (env : CallEnv (Io × δ) Ext2Inode) : Prop where
  kalloc : ∀ s, (∃ a, s.heap a = none) → ∃ a, env.kalloc s = (some a, s.fs)
  lookup : ∀ v name io d r t, v.sb = sb → Ext2.ext2Lookup m p v.priv name io = some (r, t) →
    env.lookup v name (io, d) = (r.1.toInt, r.2.map fun w => ⟨w.ino, w.mode, sb, true, w.priv⟩, (t, d))
  openFile : ∀ v, v.sb = sb → env.openFile v = some fun fs => (0, fs)

end Volume

variable {κ ι : Type}

/-- Nothing is mounted on the directory. -/
def Uncovered (s : State κ ι) (ino : U64) (sb : ℕ) : Prop :=
  ∀ mnt ∈ s.mounts, ∀ mp, mnt.mountpoint = some mp →
    ∃ d, dentryAt s mp = some d ∧ ∀ v, d.inode = some v → ¬(v.ino = ino ∧ v.sb = sb)

/-! ## One name -/

section Child

variable {env : Env κ ι} {s t : State κ ι} {mnt : Mount} {dir a : ℕ} {name : List U8}
  {d : Dentry ι} {i v : Inode ι} {rc : ℤ} {ino : Option (Inode ι)} {fs : κ}

/-- The mounts are the same, and every dentry keeps its inode and its parent. -/
structure KeepsInodes (s t : State κ ι) : Prop where
  mounts : t.mounts = s.mounts
  dentry : ∀ b d, dentryAt s b = some d →
    ∃ d', dentryAt t b = some d' ∧ d'.inode = d.inode ∧ d'.parent = d.parent

theorem KeepsInodes.uncovered {n : U64} {sb : ℕ} (hk : KeepsInodes s t) (hu : Uncovered s n sb) :
    Uncovered t n sb := by
  intro mnt hmnt mp hmp
  obtain ⟨d, hd, hne⟩ := hu mnt (hk.mounts ▸ hmnt) mp hmp
  obtain ⟨d', hd', hi, -⟩ := hk.dentry mp d hd
  exact ⟨d', hd', hi ▸ hne⟩

theorem KeepsInodes.trans {u : State κ ι} (h : KeepsInodes s t) (h' : KeepsInodes t u) :
    KeepsInodes s u := by
  refine ⟨h'.mounts.trans h.mounts, fun b d hd => ?_⟩
  obtain ⟨d', hd', hi, hp⟩ := h.dentry b d hd
  obtain ⟨d'', hd'', hi', hp'⟩ := h'.dentry b d' hd'
  exact ⟨d'', hd'', hi'.trans hi, hp'.trans hp⟩

theorem KeepsInodes.withChild (ha : s.heap a = none) (n : U32) :
    KeepsInodes s (s.withChild fs a dir name n v) := by
  refine ⟨rfl, fun b d hd => ⟨d, ?_, rfl, rfl⟩⟩
  have hne : b ≠ a := by
    rintro rfl
    rw [dentryAt_eq_none ha] at hd
    cases hd
  rw [State.withChild, dentryAt_put_of_ne hne, dentryAt_withFs, hd]

/-- A directory with nothing mounted on it. -/
theorem findByInode_uncovered (hu : Uncovered s v.ino v.sb) :
    findMountByInode v s = some (.ok none, s) := by
  unfold Uncovered at hu
  unfold findMountByInode
  generalize s.mounts = ms at hu
  induction ms with
  | nil => rfl
  | cons m ms ih =>
    have hrest := ih fun mnt hmnt => hu mnt (List.mem_cons_of_mem m hmnt)
    rw [findByInode]
    cases hmp : m.mountpoint with
    | none => exact hrest
    | some mp =>
      obtain ⟨d, hd, hne⟩ := hu m List.mem_cons_self mp hmp
      dsimp only
      rw [Fallible.bind_ok (getDentry_of hd)]
      cases hi : d.inode with
      | none => exact hrest
      | some w =>
        dsimp only
        rw [if_neg (show ¬w.Same v from hne w hi)]
        exact hrest

theorem tmpDentry_of (hname : name.length < 256) (hk : env.kalloc s = (some a, fs)) :
    tmpDentry env name dir s =
      some (.ok (some a), (s.withFs fs).put a ⟨1, name, none, some dir, false⟩) := by
  rw [tmpDentry, if_neg (Nat.not_le.2 hname), kalloc, hk]
  rfl

theorem fsLookup_of (hlk : env.lookup i name s.fs = (rc, ino, fs)) :
    fsLookup env i name s = some (.ok (rc, ino), s.withFs fs) := by
  unfold fsLookup
  rw [hlk]
  rfl

/-- `vfs_lookup_child` in what is no directory. -/
theorem lookupChild_notDir (hd : dentryAt s dir = some d) (hi : d.inode = some i)
    (hdir : i.isDir = false) : lookupChild env mnt dir name s = some (.error ENOTDIR, s) := by
  rw [lookupChild, Fallible.bind_ok (getDentry_of hd), hi]
  dsimp only
  rw [if_pos hdir]
  rfl

/-- What `vfs_lookup_child` does with the child that the file system has looked up. -/
def lookedUp (mnt : Mount) (dir a : ℕ) (rc : ℤ) (ino : Option (Inode ι)) :
    VfsM κ ι (Mount × ℕ × ℕ) :=
  if rc < 0 then do
    dentryPut a
    throw rc
  else
    match ino with
    | none => do
      dentryPut a
      throw ENOENT
    | some ino => do
      match ← findMountByInode ino with
      | some sub =>
        dentryPut a
        pure (sub, sub.root, sub.root)
      | none => pure (mnt, dir, a)

/-- `vfs_lookup_child` in a directory, up to the call of the file system. -/
theorem lookupChild_of (mnt : Mount) (hd : dentryAt s dir = some d) (hi : d.inode = some i)
    (hdir : i.isDir = true) (hl : i.lookup = true) (hname : name.length < 256)
    (hk : env.kalloc s = (some a, s.fs)) (hlk : env.lookup i name s.fs = (rc, ino, fs)) :
    lookupChild env mnt dir name s = lookedUp mnt dir a rc ino
      ((s.withFs fs).put a ⟨1, name, ino, some dir, false⟩) := by
  rw [lookupChild, Fallible.bind_ok (getDentry_of hd), hi]
  dsimp only
  rw [if_neg (by rw [hdir]; exact Bool.noConfusion), if_neg (by rw [hl]; exact Bool.noConfusion),
    Fallible.bind_ok (tmpDentry_of hname hk)]
  dsimp only
  rw [Fallible.bind_ok (fsLookup_of (s := (s.withFs s.fs).put a _) hlk)]
  dsimp only
  rw [withFs_put, withFs_withFs, Fallible.bind_ok (getDentry_of dentryAt_put_self)]
  dsimp only
  rw [Fallible.bind_ok (setDentry_eq_ok (u := ()).2 (put_put _).symm)]
  rfl

/-- A child on which nothing is mounted. -/
theorem lookedUp_ok (hu : Uncovered s v.ino v.sb) :
    lookedUp mnt dir a 0 (some v) s = some (.ok (mnt, dir, a), s) := by
  unfold lookedUp
  rw [if_neg (by decide)]
  exact Fallible.bind_ok (findByInode_uncovered hu)

/-- The child is put and the error returned. -/
theorem lookedUp_error (hrc : rc < 0) :
    lookedUp mnt dir a rc ino (s.put a ⟨1, name, ino, some dir, false⟩) =
      some (.error rc, s.put a ⟨0, name, ino, some dir, false⟩) := by
  unfold lookedUp
  rw [if_pos hrc, Fallible.bind_ok dentryPut_child]
  rfl

/-- Releasing a dentry keeps what it shows, if it has a parent or is the root of its mount. -/
theorem release_keeps (hd : dentryAt s dir = some d) (hp : dir = mnt.root ∨ d.parent ≠ none) :
    ∃ t, release mnt dir s = some (.ok (), t) ∧ (s.used.Finite → t.used.Finite) ∧
      KeepsInodes s t := by
  unfold release
  split_ifs with hc
  · obtain ⟨parent, hparent⟩ := Option.ne_none_iff_exists'.1 (hp.resolve_left fun h => hc.2 h.symm)
    refine ⟨_, dentryPut_of_parent hd hparent, fun hs => State.used_put hs _ _, rfl,
      fun b d' hd' => ?_⟩
    by_cases hb : b = dir
    · subst hb
      obtain rfl := Option.some.inj (hd.symm.trans hd')
      exact ⟨_, dentryAt_put_self, rfl, rfl⟩
    · exact ⟨d', by rw [dentryAt_put_of_ne hb, hd'], rfl, rfl⟩
  · exact ⟨s, rfl, id, rfl, fun b d' hd' => ⟨d', hd', rfl, rfl⟩⟩

end Child

/-! ## The walk -/

section Walk

variable {δ : Type} {m : Machine} {p : Ext2Priv} {sb : ℕ} {env : CallEnv (Io × δ) Ext2Inode}
  {T : U32 → FileTree.Node (List U8) U32 (Option (List U8))} {nodes P : Set U32}
  {s t : State (Io × δ) Ext2Inode} {mnt : Mount} {cur : ℕ} {i j : U32} {name : List U8}
  {v : Inode Ext2Inode}

/-- The error numbers. -/
def faultCode : Fault → ℤ
  | .notFound => ENOENT
  | .notDir => ENOTDIR

theorem isDir_ext2VfsMode (mode : U16) :
    ext2VfsMode mode &&& 0o170000 = 0o040000 ↔ mode &&& 0xF000 = 0x4000 := by
  have hmask : ∀ ty : U16, ((ty ||| mode &&& 0x0FFF).setWidth 32 : U32) &&& 0o170000 =
      (ty &&& 0xF000).setWidth 32 := by
    intro ty
    have hlow : mode &&& 0x0FFF &&& 0xF000 = 0 := by
      rw [BitVec.and_assoc, show (0x0FFF : U16) &&& 0xF000 = 0 by decide]
      exact BitVec.and_zero
    rw [show (0o170000 : U32) = (0xF000 : U16).setWidth 32 by decide, ← BitVec.setWidth_and,
      BitVec.and_or_distrib_right, hlow]
    exact congrArg _ BitVec.or_zero
  have hinj : ∀ {a b : U16}, (a.setWidth 32 : U32) = b.setWidth 32 → a = b := fun {a b} h => by
    have := congrArg BitVec.toNat h
    rw [BitVec.toNat_setWidth_of_le (by decide), BitVec.toNat_setWidth_of_le (by decide)] at this
    exact BitVec.eq_of_toNat_eq this
  rw [ext2VfsMode, hmask, show (0o040000 : U32) = (0x4000 : U16).setWidth 32 by decide]
  split_ifs with hc
  · rw [BitVec.and_assoc, show (0xF000 : U16) &&& 0xF000 = 0xF000 by decide]
    exact ⟨hinj, congrArg _⟩
  · refine ⟨fun h => absurd h (by decide), fun h => absurd ?_ hc⟩
    rw [h]
    decide

theorem Shows.isDir (hv : Shows m p sb i v) :
    v.isDir = true ↔ (diskInode m p i).mode &&& 0xF000 = 0x4000 := by
  rw [Inode.isDir, beq_iff_eq, hv.mode, isDir_ext2VfsMode]

/-- The dentry at which a walk in the volume stands. -/
structure At (m : Machine) (p : Ext2Priv) (sb : ℕ) (P : Set U32) (mnt : Mount) (i : U32)
    (x : Mount × ℕ) (s : State (Io × δ) Ext2Inode) : Prop where
  mount : x.1 = mnt
  dentry : ∃ d v, dentryAt s x.2 = some d ∧ d.inode = some v ∧ Shows m p sb i v ∧
    (x.2 = mnt.root ∨ d.parent ≠ none)
  uncovered : ∀ j ∈ P, Uncovered s (j.setWidth 64) sb
  finite : s.used.Finite

/-- One name. -/
theorem At.walkStep (hv : Volume m p) (henv : OverDisk m p sb env) (hT : Describes m p T nodes)
    {x : Mount × ℕ} (hx : At m p sb P mnt i x s) (hi : i ∈ nodes)
    (hP : ∀ j, next T i name = .ok j → j ∈ P) (hdot : name ≠ dot) (hdotdot : name ≠ dotdot)
    (hname : name.length < 256) :
    Fits faultCode (At m p sb P mnt) (walkStep env.toEnv x name s) (next T i name) := by
  obtain ⟨mnt', cur⟩ := x
  obtain ⟨d, v, hd, hdi, hshow, hpar⟩ := hx.dentry
  obtain rfl : mnt' = mnt := hx.mount
  rw [Vfs.walkStep, if_neg hdot, if_neg hdotdot]
  cases hnode : T i with
  | leaf data =>
    have hnotDir : v.isDir = false :=
      Bool.eq_false_iff.2 fun h => (hT.leaf i hi data hnode).1 (hshow.isDir.1 h)
    have hnext : next T i name = .error .notDir := by rw [next, hnode]
    rw [hnext]
    exact ⟨s, Fallible.bind_error (lookupChild_notDir hd hdi hnotDir)⟩
  | dir entries =>
    obtain ⟨hmode, hlists⟩ := hT.dir i hi entries hnode
    obtain ⟨⟨rc, w⟩, io, hrun, hcase⟩ := hv.lookup (hshow.priv.symm.lists hlists) name s.fs.1
    obtain ⟨a, ha⟩ := henv.kalloc s (exists_free hx.finite)
    have hchild := lookupChild_of mnt' hd hdi (hshow.isDir.2 hmode) hshow.lookup hname ha
      (henv.lookup v name s.fs.1 s.fs.2 _ io hshow.sb hrun)
    have hfresh := env.kalloc_fresh s a (congrArg Prod.fst ha)
    cases hname' : entries name with
    | none =>
      rw [hname'] at hcase
      obtain ⟨rfl, rfl⟩ := Prod.mk.inj hcase
      have hnext : next T i name = .error .notFound := by rw [next, hnode]; dsimp only; rw [hname']
      rw [hnext]
      have hneg : Ext2.enoent.toInt < 0 := by decide
      exact ⟨_, Fallible.bind_error (hchild.trans (lookedUp_error hneg))⟩
    | some j =>
      rw [hname'] at hcase
      obtain ⟨w', hr, hino, hmade⟩ := hcase
      obtain ⟨rfl, rfl⟩ := Prod.mk.inj hr
      have hnext : next T i name = .ok j := by rw [next, hnode]; dsimp only; rw [hname']
      rw [hnext]
      obtain ⟨hmode', hpriv⟩ := hmade (hT.stored j (hT.closed i hi name j hnext))
      have hkeep : KeepsInodes s (s.withChild (io, s.fs.2) a cur name 1
          ⟨w'.ino, w'.mode, sb, true, w'.priv⟩) := .withChild hfresh 1
      generalize hu : s.withChild (io, s.fs.2) a cur name 1 ⟨w'.ino, w'.mode, sb, true, w'.priv⟩ = u
        at hkeep
      have huncovered : Uncovered u w'.ino sb :=
        hino ▸ hkeep.uncovered (hx.uncovered j (hP j hnext))
      have hchild' : lookupChild env.toEnv mnt' cur name s = some (.ok (mnt', cur, a), u) := by
        rw [← hu] at huncovered ⊢
        exact hchild.trans (lookedUp_ok huncovered)
      obtain ⟨d', hd', -, hpar'⟩ := hkeep.dentry cur d hd
      obtain ⟨t, hrel, hfinite, hkeep'⟩ := release_keeps hd' (hpar'.symm ▸ hpar)
      rw [Fallible.bind_ok hchild']
      refine ⟨(mnt', a), t, Fallible.bind_ok hrel, rfl, ?_, fun k hk => ?_, hfinite ?_⟩
      · have hda : dentryAt u a = some ⟨1, name, some ⟨w'.ino, w'.mode, sb, true, w'.priv⟩,
            some cur, false⟩ := by
          rw [← hu]
          exact dentryAt_put_self
        obtain ⟨e, he, hei, hep⟩ := hkeep'.dentry a _ hda
        exact ⟨e, _, he, hei, ⟨hino, hmode', rfl, rfl, hpriv⟩, Or.inr (hep ▸ Option.some_ne_none _)⟩
      · exact (hkeep.trans hkeep').uncovered (hx.uncovered k hk)
      · rw [← hu]
        exact State.used_put hx.finite _ _

theorem walk_filter_dot {κ ι : Type} (env : Env κ ι) (x : Mount × ℕ) (names : List (List U8)) :
    Vfs.walk env x (names.filter (· ≠ dot)) = Vfs.walk env x names := by
  induction names generalizing x with
  | nil => rfl
  | cons name names ih =>
    by_cases hname : name = dot
    · rw [List.filter_cons_of_neg (by simp [hname]), walk_cons, Vfs.walkStep, if_pos hname, pure_bind,
        ih]
    · rw [List.filter_cons_of_pos (by simp [hname]), walk_cons, walk_cons]
      exact congrArg _ (funext ih)

/-- A walk along the names. -/
theorem At.walk (hv : Volume m p) (henv : OverDisk m p sb env) (hT : Describes m p T nodes)
    (hP : P ⊆ nodes) {x : Mount × ℕ} (hx : At m p sb P mnt i x s) {names : List (List U8)}
    (hnames : ∀ name ∈ names, name ≠ dotdot ∧ name.length < 256)
    (hwithin : FileTree.Within T (· ∈ P) i (names.filter (· ≠ dot))) :
    Fits faultCode (At m p sb P mnt) (Vfs.walk env.toEnv x names s)
      (FileTree.walk T i (names.filter (· ≠ dot))) := by
  have hgood : ∀ name ∈ names.filter (· ≠ dot),
      name ≠ dot ∧ name ≠ dotdot ∧ name.length < 256 := by
    intro name hname
    obtain ⟨hname, hdot⟩ := List.mem_filter.1 hname
    exact ⟨of_decide_eq_true hdot, hnames name hname⟩
  rw [← walk_filter_dot]
  exact FileTree.foldlM_walk (fun i x s name hx hi hnext hgood =>
    hx.walkStep hv henv hT (hP hi) hnext hgood.1 hgood.2.1 hgood.2.2) hgood hx hwithin

/-- `vfs_open` without `VFS_O_CREAT`, behind the walk. -/
def openFound (x : Mount × ℕ) : VfsM (Io × δ) Ext2Inode (Inode Ext2Inode) := do
  match (← getDentry x.2).inode with
  | none => throw ENOENT
  | some i =>
    release x.1 x.2
    pure i

theorem openInode_eq {flags : U32} (hflags : flags &&& oCreat = 0) (path : List U8) (mode : U32) :
    openInode env path flags mode = vfsLookup env.toEnv path >>= openFound := by
  rw [openInode, if_neg (by rw [hflags]; exact fun h => h rfl)]
  refine congrArg (vfsLookup env.toEnv path >>= ·) (funext fun x => ?_)
  refine congrArg (getDentry x.2 >>= ·) (funext fun d => ?_)
  cases d.inode <;> rfl

theorem At.openFound {x : Mount × ℕ} (hx : At m p sb P mnt i x s) :
    ∃ v t, OnDisk.openFound x s = some (.ok v, t) ∧ Shows m p sb i v ∧ t.used.Finite := by
  obtain ⟨d, v, hd, hdi, hshow, hpar⟩ := hx.dentry
  obtain ⟨t, hrel, hfinite, -⟩ := release_keeps hd (hx.mount ▸ hpar)
  refine ⟨v, t, ?_, hshow, hfinite hx.finite⟩
  rw [OnDisk.openFound, Fallible.bind_ok (getDentry_of hd), hdi]
  exact Fallible.bind_ok hrel

theorem openFile_of (henv : OverDisk m p sb env) (hv : v.sb = sb) (flags : U32)
    (hs : s.used.Finite) :
    ∃ page t, openFile env flags v s = some (.ok ⟨page, 1, flags, 0, v⟩, t) := by
  obtain ⟨page, hpage⟩ := henv.kalloc s (exists_free hs)
  have hk : kallocFile env s = some (.ok (some page), s) := by
    rw [kallocFile, hpage]
  refine ⟨page, s, ?_⟩
  rw [openFile, Fallible.bind_ok hk]
  dsimp only
  rw [henv.openFile v hv]
  rfl

end Walk

/-! ## A sample volume -/

/-- A volume whose root has the entry `a`, inode 5 : a file with the bytes `hi`. -/
def smallTreeImage : ℕ → U8
  | 128 => 0xED
  | 129 => 0x41
  | 133 => 4
  | 168 => 1
  | 512 => 0xA4
  | 513 => 0x81
  | 516 => 2
  | 552 => 2
  | 1024 => 5
  | 1029 => 4
  | 1030 => 1
  | 1032 => 97
  | 2048 => 104
  | 2049 => 105
  | _ => 0

def smallTree (i : U32) : FileTree.Node (List U8) U32 (Option (List U8)) :=
  if i = 2 then .dir fun name => if name = [97] then some 5 else none else .leaf (some [104, 105])

/-- `smallTreeImage` with blocks of 1024 bytes. -/
def smallTreeDisk : Machine := Ext2.goodDisk 512 smallTreeImage

theorem smallTree_volume : Volume smallTreeDisk Ext2.smallPriv :=
  ⟨Ext2.goodDisk_geometry _, fun _ => rfl, fun _ _ => rfl, show (8 : U32) ≠ 0 by decide⟩

/-- An inode with one block. -/
def smallInode (mode : U16) (size block : U32) : Ext2Inode :=
  ⟨mode, size, fun i => if i = 0 then block else 0, 0⟩

theorem smallTree_root :
    (smallInode 0x41ED 1024 1).Same (diskInode smallTreeDisk Ext2.smallPriv 2) :=
  ⟨by decide +kernel, by decide +kernel, by decide +kernel, by decide +kernel⟩

theorem smallTree_file :
    (smallInode 0x81A4 2 2).Same (diskInode smallTreeDisk Ext2.smallPriv 5) :=
  ⟨by decide +kernel, by decide +kernel, by decide +kernel, by decide +kernel⟩

theorem smallTree_lists :
    Ext2.Lists smallTreeDisk Ext2.smallPriv (smallInode 0x41ED 1024 1)
      fun name => if name = [97] then some 5 else none := by
  refine ⟨by decide, [0], .entry (by decide) (by decide) (by decide +kernel) (by decide +kernel)
    (.done (by decide +kernel)), fun name => ?_⟩
  generalize hd : Ext2.direntOf smallTreeDisk Ext2.smallPriv (smallInode 0x41ED 1024 1) 0 = d
  have hdname : d.name = [97] ++ [0] := hd ▸ by decide +kernel
  have hino : d.ino.setWidth 32 = (5 : U32) := hd ▸ by decide +kernel
  have hlive : Ext2.liveEntries smallTreeDisk Ext2.smallPriv (smallInode 0x41ED 1024 1) [0] = [d] := by
    rw [Ext2.liveEntries, List.filter_cons_of_pos (by decide +kernel)]
    exact congrArg (fun d => [d]) hd
  rw [hlive, Ext2.findEntry, List.find?_cons, hdname]
  by_cases hname : name = [97]
  · subst hname
    rw [if_pos rfl, decide_eq_true rfl]
    exact congrArg some hino.symm
  · rw [if_neg hname, decide_eq_false fun h => hname (List.append_cancel_right h).symm]
    rfl

theorem smallTree_contains :
    Ext2.Contains smallTreeDisk Ext2.smallPriv (smallInode 0x81A4 2 2) [104, 105] := by
  refine ⟨by decide, fun k hk => ?_, by decide +kernel⟩
  have hk' : k < 2 := hk
  rcases (by omega : k = 0 ∨ k = 1) with rfl | rfl <;> decide

theorem smallTree_describes :
    Describes smallTreeDisk Ext2.smallPriv smallTree {i | i = 2 ∨ i = 5} where
  stored i hi := by
    rcases hi with rfl | rfl <;> exact ⟨by decide, by decide⟩
  closed i hi name j h := by
    rcases hi with rfl | rfl
    · refine Or.inr ?_
      by_cases hname : name = [97]
      · subst hname
        exact (Except.ok.inj h).symm
      · rw [next, smallTree, if_pos rfl] at h
        dsimp only at h
        rw [if_neg hname] at h
        cases h
    · cases h
  dir i hi entries h := by
    rcases hi with rfl | rfl
    · obtain rfl := FileTree.Node.dir.inj h
      exact ⟨smallTree_root.mode ▸ by decide, smallTree_root.lists smallTree_lists⟩
    · cases h
  leaf i hi data h := by
    rcases hi with rfl | rfl
    · cases h
    · obtain rfl := FileTree.Node.leaf.inj h
      refine ⟨smallTree_file.mode ▸ by decide, fun content hc => ?_⟩
      obtain rfl := Option.some.inj hc
      exact smallTree_file.contains smallTree_contains

/-- The driver for `smallTreeDisk`, and a `kalloc` that gives the first free page. -/
noncomputable def smallTreeCalls : CallEnv (Io × Unit) Ext2Inode where
  kalloc s := by
    classical
    exact if h : ∃ a, (s.heap a).isNone then (some (Nat.find h), s.fs) else (none, s.fs)
  kalloc_fresh s a h := by
    split_ifs at h with hfree
    rw [← Option.some.inj h]
    exact Option.isNone_iff_eq_none.1 (Nat.find_spec hfree)
  lookup v name fs :=
    ((Ext2.ext2Lookup smallTreeDisk Ext2.smallPriv v.priv name fs.1).map fun r =>
      (r.1.1.toInt, r.1.2.map fun w => (⟨w.ino, w.mode, v.sb, true, w.priv⟩ : Inode Ext2Inode),
        (r.2, fs.2))).getD (EINVAL, none, fs)
  mount _ _ _ fs := (ENOSYS, none, fs)
  unmount _ _ fs := fs
  getattr _ := none
  create _ := none
  mkdir _ := none
  unlink _ := none
  openFile _ := some fun fs => (0, fs)
  closeFile _ := none

theorem smallTreeCalls_overDisk : OverDisk smallTreeDisk Ext2.smallPriv 2 smallTreeCalls where
  kalloc s h := by
    obtain ⟨a, ha⟩ := h
    have hfree : ∃ a, (s.heap a).isNone := ⟨a, Option.isNone_iff_eq_none.2 ha⟩
    exact ⟨Nat.find hfree, dif_pos hfree⟩
  lookup v name io d r t hsb h := by
    rw [← hsb]
    unfold smallTreeCalls
    dsimp only
    rw [h]
    rfl
  openFile _ _ := rfl

/-- The inode of the root and its dentry, at page 1. -/
def smallTreeRoot : Dentry Ext2Inode :=
  ⟨1, [], some ⟨2, 0o040755, 2, true, smallInode 0x41ED 1024 1⟩, none, false⟩

/-- The mount of the volume, as the root of the namespace. -/
def smallTreeState : State (Io × Unit) Ext2Inode where
  heap a := if a = 1 then some (.dentry smallTreeRoot) else none
  fsTypes := []
  mounts := [⟨3, 2, none, 1⟩]
  rootMnt := some ⟨3, 2, none, 1⟩
  rootDent := some 1
  fs := (Io.start, ())

theorem smallTree_at (P : Set U32) :
    At smallTreeDisk Ext2.smallPriv 2 P ⟨3, 2, none, 1⟩ 2 (⟨3, 2, none, 1⟩, 1) smallTreeState where
  mount := rfl
  dentry := ⟨smallTreeRoot, _, rfl, rfl, ⟨rfl, smallTree_root.mode ▸ by decide, rfl, rfl,
    smallTree_root⟩, Or.inl rfl⟩
  uncovered j hj mnt hmnt mp hmp := by
    obtain rfl := List.mem_singleton.1 hmnt
    cases hmp
  finite := by
    refine (Set.finite_singleton 1).subset fun a ha => ?_
    by_contra hne
    exact ha (if_neg hne)

theorem smallTree_walk : FileTree.walk smallTree Ext2.rootIno [[97]] = .ok 5 := rfl

end OnDisk

end Jeos.Vfs
