import Mathlib.Data.List.Induction
import Jeos.Anchors

/-!
# Two walks over the same dentries

A walk names the dentries that were there before it by their pages, and its own by a chain of parents
above one of these. So two walks along the same components, from states whose old dentries agree
(`Agrees`), stay at dentries that mirror each other (`Mirror`) as long as the file systems answer alike
for each component (`walks_alike_of`), the same inodes are covered by the same mounts, no dentry is freed,
and `kalloc` has pages. `walks_alike` is the case of file systems that always answer alike (`Stable`).
-/

namespace Jeos

namespace Vfs

set_option linter.unusedSectionVars false

variable {κ ι : Type}

/-- The page holds a dentry. -/
def Live (s : State κ ι) (a : ℕ) : Prop := ∃ d, dentryAt s a = some d

/-- The dentry in page `a` has the parent `p`. -/
def ParentAt (s : State κ ι) (a p : ℕ) : Prop := ∃ d, dentryAt s a = some d ∧ d.parent = some p

/-- The dentry and all dentries above it are there. -/
def Sound (s : State κ ι) (a : ℕ) : Prop := ∀ b, Relation.ReflTransGen (ParentAt s) a b → Live s b

/-- No anchor and no dentry above one has been freed. -/
def Intact (s : State κ ι) : Prop := ∀ a, Anchor s a → Sound s a

/-- `A` relates an inode to itself, and only to inodes that the mount table takes for it. -/
structure Relates (A : Inode ι → Inode ι → Prop) : Prop where
  refl : ∀ i, A i i
  same : ∀ {i j}, A i j → i.Same j

/-- The file systems answer alike for inodes that `A` relates, at any time : the same code, and a child
that `A` relates. -/
structure Stable (env : Env κ ι) (A : Inode ι → Inode ι → Prop) : Prop where
  refl : ∀ i, A i i
  same : ∀ {i j}, A i j → i.Same j
  isDir : ∀ {i j}, A i j → i.isDir = j.isDir
  lookup : ∀ {i j}, A i j → i.lookup = j.lookup
  code : ∀ {i j}, A i j → ∀ name k k', (env.lookup i name k).1 = (env.lookup j name k').1
  child : ∀ {i j}, A i j → ∀ name k k',
    Option.Rel A (env.lookup i name k).2.1 (env.lookup j name k').2.1

theorem Stable.relates {env : Env κ ι} {A : Inode ι → Inode ι → Prop} (h : Stable env A) : Relates A :=
  ⟨h.refl, h.same⟩

/-- A walk from the start along the components leads to `x`. -/
def Leads (env : Env κ ι) (s : State κ ι) (names : List (List U8)) (x : Mount × ℕ) (t : State κ ι) :
    Prop := (start >>= fun y => walk env y names) s = some (.ok x, t)

/-- A directory that is not freed when it is put, or that is not put. -/
def PutKeeps (s : State κ ι) (x : Mount × ℕ) : Prop :=
  AtTop s x ∨ ∃ d, dentryAt s x.2 = some d ∧ d.parent ≠ none

/-- No directory that a walk along the components puts is freed : it has a parent. -/
def PutsParented (env : Env κ ι) (s : State κ ι) (names : List (List U8)) : Prop :=
  ∀ pre c post x t m cur child u, names = pre ++ c :: post → ¬IsDots c → Leads env s pre x t →
    lookupChild env x.1 x.2 c t = some (.ok (m, cur, child), u) → PutKeeps u (m, cur)

/-- `kalloc` has a page for every component of a walk that needs one. -/
def Supplied (env : Env κ ι) (s : State κ ι) (names : List (List U8)) : Prop :=
  ∀ pre c post x t, names = pre ++ c :: post → ¬IsDots c → Leads env s pre x t →
    (env.kalloc t).1 ≠ none

variable {env : Env κ ι} {A : Inode ι → Inode ι → Prop} {s t x y x' y' : State κ ι}
  {mnt m : Mount} {a b c dir cur : ℕ} {i j : Inode ι} {d e : Dentry ι} {name : List U8}
  {names : List (List U8)} {p q : Mount × ℕ}

/-! ## What a walk leaves -/

/-- The tables are the same, and every dentry is there with its inode, parent and mark. -/
structure Extends (s t : State κ ι) : Prop where
  mounts : t.mounts = s.mounts
  rootMnt : t.rootMnt = s.rootMnt
  rootDent : t.rootDent = s.rootDent
  dentry : ∀ a d, dentryAt s a = some d → ∃ e, dentryAt t a = some e ∧ e.inode = d.inode ∧
    e.parent = d.parent ∧ e.isMountpoint = d.isMountpoint

theorem Extends.refl (s : State κ ι) : Extends s s :=
  ⟨rfl, rfl, rfl, fun _ d hd => ⟨d, hd, rfl, rfl, rfl⟩⟩

theorem Extends.trans {u : State κ ι} (h : Extends s t) (h' : Extends t u) : Extends s u where
  mounts := h'.mounts.trans h.mounts
  rootMnt := h'.rootMnt.trans h.rootMnt
  rootDent := h'.rootDent.trans h.rootDent
  dentry a d hd := by
    obtain ⟨e, he, hi, hp, hm⟩ := h.dentry a d hd
    obtain ⟨e', he', hi', hp', hm'⟩ := h'.dentry a e he
    exact ⟨e', he', hi'.trans hi, hp'.trans hp, hm'.trans hm⟩

theorem Grow.extends (h : Grow s t) : Extends s t :=
  ⟨h.mounts, h.rootMnt, h.rootDent, fun _ d hd => ⟨d, h.dentryAt hd, rfl, rfl, rfl⟩⟩

theorem Extends.live (h : Extends s t) (ha : Live s a) : Live t a := by
  obtain ⟨d, hd⟩ := ha
  obtain ⟨e, he, -⟩ := h.dentry a d hd
  exact ⟨e, he⟩

/-- A directory with a parent is not freed. -/
theorem release_extends (hd : dentryAt s cur = some d) (hput : PutKeeps s (mnt, cur)) :
    ∃ t, release mnt cur s = some (.ok (), t) ∧ Extends s t := by
  unfold release
  split_ifs with hout
  · rcases hput with (htop | htop) | ⟨d', hd', hp⟩
    · exact absurd htop.symm hout.2
    · exact absurd htop hout.1
    obtain rfl := Option.some.inj (hd.symm.trans hd')
    rw [dentryPut_of hd, if_neg fun hlast => hp hlast.2]
    refine ⟨_, rfl, rfl, rfl, rfl, fun b e he => ?_⟩
    by_cases hb : b = cur
    · subst hb
      obtain rfl := Option.some.inj (hd.symm.trans he)
      exact ⟨_, dentryAt_put_self, rfl, rfl, rfl⟩
    · exact ⟨e, (dentryAt_put_of_ne hb).trans he, rfl, rfl, rfl⟩
  · exact ⟨s, rfl, .refl s⟩

/-- The root is the same, and every dentry is there with its inode and parent. -/
structure Agrees (s t : State κ ι) : Prop where
  rootMnt : t.rootMnt = s.rootMnt
  rootDent : t.rootDent = s.rootDent
  dentry : ∀ a d, dentryAt s a = some d → ∃ e, dentryAt t a = some e ∧ e.inode = d.inode ∧
    e.parent = d.parent

theorem Extends.agrees (h : Extends s t) : Agrees s t :=
  ⟨h.rootMnt, h.rootDent, fun a d hd => by
    obtain ⟨e, he, hi, hp, -⟩ := h.dentry a d hd
    exact ⟨e, he, hi, hp⟩⟩

theorem Agrees.refl (s : State κ ι) : Agrees s s := (Extends.refl s).agrees

theorem Agrees.trans {u : State κ ι} (h : Agrees s t) (h' : Agrees t u) : Agrees s u where
  rootMnt := h'.rootMnt.trans h.rootMnt
  rootDent := h'.rootDent.trans h.rootDent
  dentry a d hd := by
    obtain ⟨e, he, hi, hp⟩ := h.dentry a d hd
    obtain ⟨e', he', hi', hp'⟩ := h'.dentry a e he
    exact ⟨e', he', hi'.trans hi, hp'.trans hp⟩

theorem Agrees.live (h : Agrees s t) (ha : Live s a) : Live t a := by
  obtain ⟨d, hd⟩ := ha
  obtain ⟨e, he, -⟩ := h.dentry a d hd
  exact ⟨e, he⟩

/-! ## Dentries with all that is above them -/

theorem Sound.live (h : Sound s a) : Live s a := h a .refl

theorem Sound.parent (h : Sound s a) (hd : dentryAt s a = some d) (hp : d.parent = some b) :
    Sound s b := fun c hc => h c (.head ⟨d, hd, hp⟩ hc)

theorem Sound.of_parent (hd : dentryAt s a = some d) (h : ∀ b, d.parent = some b → Sound s b) :
    Sound s a := by
  intro c hc
  rcases hc.cases_head with rfl | ⟨b, ⟨d', hd', hp⟩, hbc⟩
  · exact ⟨d, hd⟩
  · obtain rfl := Option.some.inj (hd.symm.trans hd')
    exact h b hp c hbc

theorem Agrees.sound (h : Agrees s t) (ha : Sound s a) : Sound t a := by
  intro b hb
  have hs : Sound s b := by
    induction hb with
    | refl => exact ha
    | tail _ hbc ih =>
      obtain ⟨e, he, hp⟩ := hbc
      obtain ⟨d, hd⟩ := ih.live
      obtain ⟨e', he', -, hp'⟩ := h.dentry _ d hd
      obtain rfl := Option.some.inj (he.symm.trans he')
      exact ih.parent hd (hp'.symm.trans hp)
  exact h.live hs.live

theorem Extends.intact (h : Extends s t) (hs : Intact s) : Intact t := fun a ha =>
  h.agrees.sound (hs a ((anchor_congr h.mounts).1 ha))

theorem Intact.mountpoint (hs : Intact s) (hm : m ∈ s.mounts) (ha : m.mountpoint = some a) : Live s a :=
  (hs a ⟨m, hm, Or.inr ha⟩).live

/-! ## The mount over an inode -/

/-- The first mount whose mountpoint has the inode. -/
def covering (s : State κ ι) (i : Inode ι) (ms : List Mount) : Option Mount :=
  ms.find? fun m => (m.mountpoint.bind (inodeAt s)).any fun j => decide (j.Same i)

theorem inodeAt_of_agrees (h : Agrees s t) (ha : Live s a) : inodeAt t a = inodeAt s a := by
  obtain ⟨d, hd⟩ := ha
  obtain ⟨e, he, hi, -⟩ := h.dentry a d hd
  rw [inodeAt, inodeAt, hd, he]
  exact hi

/-- `vfs_find_mount_by_inode` compares the inodes of the mountpoints. -/
theorem findByInode_eq (hx : Agrees s x) {ms : List Mount}
    (hlive : ∀ m ∈ ms, ∀ a, m.mountpoint = some a → Live s a) (i : Inode ι) :
    findByInode i ms x = some (.ok (covering s i ms), x) := by
  induction ms with
  | nil => rfl
  | cons m ms ih =>
    have ih := ih fun m' hm' => hlive m' (List.mem_cons_of_mem m hm')
    rw [findByInode, covering, List.find?_cons]
    rcases hmp : m.mountpoint with _ | a
    · exact ih
    have ha := hlive m List.mem_cons_self a hmp
    obtain ⟨e, he⟩ := hx.live ha
    have hat : inodeAt s a = e.inode := by
      rw [← inodeAt_of_agrees hx ha, inodeAt, he]
      rfl
    dsimp only
    rw [Fallible.bind_ok (getDentry_of he), Option.bind_some, hat]
    rcases hj : e.inode with _ | j
    · exact ih
    dsimp only
    by_cases hsame : j.Same i
    · rw [if_pos hsame]
      simp [hsame]
    · rw [if_neg hsame]
      simpa [hsame, covering] using ih

theorem covering_mem {ms : List Mount} (h : covering s i ms = some m) : m ∈ ms :=
  List.mem_of_find?_eq_some h

theorem covering_congr {ms : List Mount} (h : i.Same j) : covering s i ms = covering s j ms := by
  have hiff : ∀ k : Inode ι, k.Same i ↔ k.Same j := fun k =>
    ⟨fun hk => hk.trans h, fun hk => hk.trans h.symm⟩
  simp only [covering, hiff]

/-! ## One child -/

/-- What `vfs_lookup_child` gets for a name, if there is a page for it. -/
def childInode (env : Env κ ι) (x : State κ ι) (dir : Option (Inode ι)) (name : List U8) :
    Except ℤ (Inode ι) :=
  match dir with
  | none => .error ENOTDIR
  | some i =>
    if i.isDir = false then .error ENOTDIR
    else if i.lookup = false then .error ENOSYS
    else if name.length ≥ 256 then .error ENOMEM
    else if (env.lookup i name (env.kalloc x).2).1 < 0 then
      .error (env.lookup i name (env.kalloc x).2).1
    else
      match (env.lookup i name (env.kalloc x).2).2.1 with
      | none => .error ENOENT
      | some ino => .ok ino

theorem tmpDentry_of (hlen : name.length < 256) (hpage : (env.kalloc s).1 = some a) :
    tmpDentry env name dir s = some (.ok (some a),
      (s.withFs (env.kalloc s).2).put a ⟨1, name, none, some dir, false⟩) := by
  rw [tmpDentry, if_neg (Nat.not_le.2 hlen), kalloc]
  rcases hk : env.kalloc s with ⟨p, fs⟩
  rw [hk] at hpage
  obtain rfl : p = some a := hpage
  rfl

theorem withChild_extends {fs : κ} {n : U32} (ha : s.heap a = none) :
    Extends s (s.withChild fs a dir name n i) :=
  ⟨rfl, rfl, rfl, fun _ e he =>
    ⟨e, (dentryAt_withChild_of_ne (ne_of_free he ha)).trans he, rfl, rfl, rfl⟩⟩

/-- `vfs_lookup_child` with a page. -/
theorem lookupChild_eq (mnt : Mount) (name : List U8) (hs : Intact s) (hx : Extends s x)
    (hd : dentryAt x dir = some d) (hpage : (env.kalloc x).1 = some a) :
    match childInode env x d.inode name with
    | .error e => ∃ x', lookupChild env mnt dir name x = some (.error e, x')
    | .ok ino => ∃ fs, lookupChild env mnt dir name x =
        match covering s ino x.mounts with
        | some sub => some (.ok (sub, sub.root, sub.root), x.withChild fs a dir name 0 ino)
        | none => some (.ok (mnt, dir, a), x.withChild fs a dir name 1 ino) := by
  have hfree := env.kalloc_fresh x a hpage
  have hstart : lookupChild env mnt dir name x = _ := Fallible.bind_ok (getDentry_of hd)
  rw [hstart]
  unfold childInode
  rcases hi : d.inode with _ | i
  · exact ⟨x, rfl⟩
  dsimp only
  by_cases hdir : i.isDir = false
  · rw [if_pos hdir, if_pos hdir]
    exact ⟨x, rfl⟩
  rw [if_neg hdir, if_neg hdir]
  by_cases hop : i.lookup = false
  · rw [if_pos hop, if_pos hop]
    exact ⟨x, rfl⟩
  rw [if_neg hop, if_neg hop]
  by_cases hlen : name.length ≥ 256
  · have htmp : tmpDentry env name dir x = some (.ok none, x) := by
      rw [tmpDentry, if_pos hlen]
      rfl
    rw [if_pos hlen, Fallible.bind_ok htmp]
    exact ⟨x, rfl⟩
  rw [if_neg hlen, Fallible.bind_ok (tmpDentry_of (Nat.not_le.1 hlen) hpage)]
  dsimp only
  have hlook : fsLookup env i name
      ((x.withFs (env.kalloc x).2).put a ⟨1, name, none, some dir, false⟩) =
      some (.ok ((env.lookup i name (env.kalloc x).2).1, (env.lookup i name (env.kalloc x).2).2.1),
        (x.withFs (env.lookup i name (env.kalloc x).2).2.2).put a ⟨1, name, none, some dir, false⟩) := rfl
  rw [Fallible.bind_ok hlook, Fallible.bind_ok (getDentry_of dentryAt_put_self)]
  generalize env.lookup i name (env.kalloc x).2 = r
  obtain ⟨rc, ino, fs⟩ := r
  have hset : setDentry a ⟨1, name, ino, some dir, false⟩
      ((x.withFs fs).put a ⟨1, name, none, some dir, false⟩) =
      some (.ok (), (x.withFs fs).put a ⟨1, name, ino, some dir, false⟩) :=
    setDentry_eq_ok.2 (put_put _).symm
  rw [Fallible.bind_ok hset]
  by_cases hrc : rc < 0
  · rw [if_pos hrc, if_pos hrc, Fallible.bind_ok dentryPut_child]
    exact ⟨_, rfl⟩
  rw [if_neg hrc, if_neg hrc]
  rcases ino with _ | ino
  · dsimp only
    rw [Fallible.bind_ok dentryPut_child]
    exact ⟨_, rfl⟩
  refine ⟨fs, ?_⟩
  have hfind : findMountByInode ino (x.withChild fs a dir name 1 ino) =
      some (.ok (covering s ino x.mounts), x.withChild fs a dir name 1 ino) :=
    findByInode_eq (hx.trans (withChild_extends hfree)).agrees
      (fun m hm a => hs.mountpoint (hx.mounts ▸ hm)) ino
  change (findMountByInode ino >>= _ : VfsM κ ι _) (x.withChild fs a dir name 1 ino) = _
  rw [Fallible.bind_ok hfind]
  rcases covering s ino x.mounts with _ | sub
  · rfl
  · dsimp only
    rw [State.withChild, Fallible.bind_ok dentryPut_child]
    rfl

/-! ## Mirrored dentries -/

/-- A page of one walk and a page of another that name the same : a dentry from before the walks, or one
that each walk has made, for inodes that `A` relates and in directories that are mirrored. -/
inductive Mirror (A : Inode ι → Inode ι → Prop) (s t x y : State κ ι) : ℕ → ℕ → Prop where
  | old {a : ℕ} (h : Sound s a) : Mirror A s t x y a a
  | made {a b p q : ℕ} {d e : Dentry ι} {i j : Inode ι} (ha : ¬Live s a) (hb : ¬Live t b)
      (hd : dentryAt x a = some d) (he : dentryAt y b = some e) (hi : d.inode = some i)
      (hj : e.inode = some j) (hA : A i j) (hp : d.parent = some p) (hq : e.parent = some q)
      (h : Mirror A s t x y p q) : Mirror A s t x y a b

theorem Mirror.mono (hx : Extends x x') (hy : Extends y y') (h : Mirror A s t x y a b) :
    Mirror A s t x' y' a b := by
  induction h with
  | old h => exact .old h
  | made ha hb hd he hi hj hA hp hq _ ih =>
    obtain ⟨d', hd', hi', hp', -⟩ := hx.dentry _ _ hd
    obtain ⟨e', he', hj', hq', -⟩ := hy.dentry _ _ he
    exact .made ha hb hd' he' (hi'.trans hi) (hj'.trans hj) hA (hp'.trans hp) (hq'.trans hq) ih

/-- Mirrored dentries have related inodes and mirrored parents. -/
theorem Mirror.dentry (hA : Relates A) (hag : Agrees s t) (hx : Extends s x) (hy : Extends t y)
    (h : Mirror A s t x y a b) : ∃ d e, dentryAt x a = some d ∧ dentryAt y b = some e ∧
      Option.Rel A d.inode e.inode ∧ Option.Rel (Mirror A s t x y) d.parent e.parent := by
  cases h with
  | old h =>
    obtain ⟨d, hd⟩ := h.live
    obtain ⟨e, he, hi, hp⟩ := hag.dentry a d hd
    obtain ⟨d', hd', hi', hp', -⟩ := hx.dentry a d hd
    obtain ⟨e', he', hj', hq', -⟩ := hy.dentry a e he
    refine ⟨d', e', hd', he', ?_, ?_⟩
    · rw [hj', hi, hi']
      rcases d.inode with _ | i
      · exact .none
      · exact .some (hA.refl i)
    · rw [hq', hp, hp']
      rcases hpar : d.parent with _ | p
      · exact .none
      · exact .some (.old (h.parent hd hpar))
  | made ha hb hd he hi hj hij hp hq h =>
    refine ⟨_, _, hd, he, ?_, ?_⟩
    · rw [hi, hj]
      exact .some hij
    · rw [hp, hq]
      exact .some h

/-- Only one dentry is mirrored by one from before. -/
theorem Mirror.eq_iff (hag : Agrees s t) (hc : Live s c) (h : Mirror A s t x y a b) : a = c ↔ b = c := by
  cases h with
  | old _ => exact Iff.rfl
  | made ha hb => exact iff_of_false (fun he => ha (he ▸ hc)) fun he => hb (he ▸ hag.live hc)

/-- Where two walks are : in one mount, at mirrored dentries. -/
structure Mirrored (A : Inode ι → Inode ι → Prop) (s t : State κ ι) (p : Mount × ℕ) (x : State κ ι)
    (q : Mount × ℕ) (y : State κ ι) : Prop where
  mount : p.1 = q.1
  mem : p.1 ∈ s.mounts
  left : Extends s x
  right : Extends t y
  mirror : Mirror A s t x y p.2 q.2

/-! ## Two steps -/

/-- Two steps `..`. -/
theorem climb_alike (hA : Relates A) (hag : Agrees s t) (hs : Intact s)
    (h : Mirrored A s t p x q y) : ∃ a b, climb p.1 p.2 x = some (.ok a, x) ∧
      climb q.1 q.2 y = some (.ok b, y) ∧ Mirror A s t x y a b := by
  obtain ⟨mnt, a⟩ := p
  obtain ⟨_, b⟩ := q
  obtain ⟨rfl, hmem, hx, hy, hab⟩ := h
  have hroot : a = mnt.root ↔ b = mnt.root := hab.eq_iff hag (hs _ ⟨mnt, hmem, Or.inl rfl⟩).live
  obtain ⟨d, e, hd, he, -, hpar⟩ := hab.dentry hA hag hx hy
  have hup : ∃ a' b', (do return ((← getDentry a).parent).getD a : VfsM κ ι ℕ) x = some (.ok a', x) ∧
      (do return ((← getDentry b).parent).getD b : VfsM κ ι ℕ) y = some (.ok b', y) ∧
        Mirror A s t x y a' b' := by
    refine ⟨_, _, Fallible.bind_ok (getDentry_of hd), Fallible.bind_ok (getDentry_of he), ?_⟩
    generalize d.parent = p at hpar
    generalize e.parent = q at hpar
    rcases hpar with hpar | _
    · exact hpar
    · exact hab
  rcases hmp : mnt.mountpoint with _ | c
  · unfold climb
    simpa only [hmp] using hup
  · by_cases ha : a = mnt.root
    · have hb := hroot.1 ha
      subst ha hb
      exact ⟨c, c, climb_mountpoint hmp, climb_mountpoint hmp, .old (hs c ⟨mnt, hmem, Or.inr hmp⟩)⟩
    · have hb : b ≠ mnt.root := mt hroot.2 ha
      unfold climb
      simpa only [hmp, decide_eq_false ha, decide_eq_false hb] using hup

/-- `vfs_lookup_child` gets related inodes for a name in two directories, or one error. -/
def ChildAlike (env : Env κ ι) (A : Inode ι → Inode ι → Prop) (x y : State κ ι)
    (i j : Option (Inode ι)) (name : List U8) : Prop :=
  (∃ e, childInode env x i name = .error e ∧ childInode env y j name = .error e) ∨
    ∃ k l, childInode env x i name = .ok k ∧ childInode env y j name = .ok l ∧ A k l

theorem childAlike_of {i j : Inode ι} (name : List U8) (hdir : i.isDir = j.isDir)
    (hlookup : i.lookup = j.lookup)
    (hcode : (env.lookup i name (env.kalloc x).2).1 = (env.lookup j name (env.kalloc y).2).1)
    (hchild : Option.Rel A (env.lookup i name (env.kalloc x).2).2.1
      (env.lookup j name (env.kalloc y).2).2.1) : ChildAlike env A x y (some i) (some j) name := by
  unfold ChildAlike childInode
  dsimp only
  rw [hdir, hlookup, hcode]
  split_ifs
  · exact Or.inl ⟨_, rfl, rfl⟩
  · exact Or.inl ⟨_, rfl, rfl⟩
  · exact Or.inl ⟨_, rfl, rfl⟩
  · exact Or.inl ⟨_, rfl, rfl⟩
  · generalize (env.lookup _ name (env.kalloc x).2).2.1 = k at hchild
    generalize (env.lookup _ name (env.kalloc y).2).2.1 = l at hchild
    rcases hchild with hkl | _
    · exact Or.inr ⟨_, _, rfl, rfl, hkl⟩
    · exact Or.inl ⟨_, rfl, rfl⟩

theorem childInode_alike {i j : Option (Inode ι)} (name : List U8) (hA : Stable env A)
    (h : Option.Rel A i j) : ChildAlike env A x y i j name := by
  rcases h with hij | _
  · exact childAlike_of name (hA.isDir hij) (hA.lookup hij) (hA.code hij name _ _) (hA.child hij name _ _)
  · exact Or.inl ⟨_, rfl, rfl⟩

/-- What two calls of `vfs_lookup_child` return : mirrored directories and children. -/
def ChildMirrored (A : Inode ι → Inode ι → Prop) (s t : State κ ι) (z : Mount × ℕ × ℕ)
    (x : State κ ι) (w : Mount × ℕ × ℕ) (y : State κ ι) : Prop :=
  Mirrored A s t (z.1, z.2.1) x (w.1, w.2.1) y ∧ Mirror A s t x y z.2.2 w.2.2

theorem lookupChild_alike (hA : Relates A) (hag : Agrees s t) (hs : Intact s) (ht : Intact t)
    (h : Mirrored A s t p x q y)
    (hchild : ChildAlike env A x y (inodeAt x p.2) (inodeAt y q.2) name)
    (hpage : (env.kalloc x).1 ≠ none) (hpage' : (env.kalloc y).1 ≠ none)
    (hcov : ∀ i, childInode env x (inodeAt x p.2) name = .ok i →
      covering t i t.mounts = covering s i s.mounts) :
    Fallible.EndsAlike (ChildMirrored A s t) (lookupChild env p.1 p.2 name x)
      (lookupChild env q.1 q.2 name y) := by
  obtain ⟨mnt, a⟩ := p
  obtain ⟨_, b⟩ := q
  obtain ⟨rfl, hmem, hx, hy, hab⟩ := h
  obtain ⟨c, hc⟩ := Option.ne_none_iff_exists'.1 hpage
  obtain ⟨c', hc'⟩ := Option.ne_none_iff_exists'.1 hpage'
  have hfree := env.kalloc_fresh x c hc
  have hfree' := env.kalloc_fresh y c' hc'
  obtain ⟨d, e, hd, he, -⟩ := hab.dentry hA hag hx hy
  have hleft := lookupChild_eq mnt name hs hx hd hc
  have hright := lookupChild_eq mnt name ht hy he hc'
  have hat : inodeAt x a = d.inode := by rw [inodeAt, hd]; rfl
  have hat' : inodeAt y b = e.inode := by rw [inodeAt, he]; rfl
  rw [hat, hat'] at hchild
  rcases hchild with ⟨err, hk, hl⟩ | ⟨k, l, hk, hl, hkl⟩
  · rw [hk] at hleft
    rw [hl] at hright
    obtain ⟨x', hx'⟩ := hleft
    obtain ⟨y', hy'⟩ := hright
    rw [hx', hy']
    exact .error err x' y'
  rw [hk] at hleft
  rw [hl] at hright
  obtain ⟨fs, hleft⟩ := hleft
  obtain ⟨fs', hright⟩ := hright
  have hsame : covering t l y.mounts = covering s k x.mounts := by
    rw [hx.mounts, hy.mounts, ← covering_congr (hA.same hkl)]
    exact hcov k (by rw [hat, hk])
  rw [hleft, hright, hsame]
  have hx' : ∀ n, Extends x (x.withChild fs c a name n k) := fun n => withChild_extends hfree
  have hy' : ∀ n, Extends y (y.withChild fs' c' b name n l) := fun n => withChild_extends hfree'
  rcases hsub : covering s k x.mounts with _ | sub
  · have hpos := hab.mono (hx' 1) (hy' 1)
    refine .ok ⟨⟨rfl, hmem, hx.trans (hx' 1), hy.trans (hy' 1), hpos⟩, ?_⟩
    refine .made (fun hlive => ?_) (fun hlive => ?_) dentryAt_put_self dentryAt_put_self rfl rfl hkl
      rfl rfl hpos
    · obtain ⟨_, hlive⟩ := hx.live hlive
      rw [dentryAt_eq_none hfree] at hlive
      cases hlive
    · obtain ⟨_, hlive⟩ := hy.live hlive
      rw [dentryAt_eq_none hfree'] at hlive
      cases hlive
  · have hmem' : sub ∈ s.mounts := hx.mounts ▸ covering_mem hsub
    have hroot : Sound s sub.root := hs _ ⟨sub, hmem', Or.inl rfl⟩
    exact .ok ⟨⟨rfl, hmem', hx.trans (hx' 0), hy.trans (hy' 0), .old hroot⟩, .old hroot⟩

/-- The two directories are put alike. -/
theorem Mirrored.putKeeps (hA : Relates A) (hag : Agrees s t) (hs : Intact s)
    (hroot : ∀ r, s.rootDent = some r → Live s r) (h : Mirrored A s t p x q y) (hp : PutKeeps x p) :
    PutKeeps y q := by
  obtain ⟨mnt, a⟩ := p
  obtain ⟨_, b⟩ := q
  obtain ⟨rfl, hmem, hx, hy, hab⟩ := h
  rcases hp with (htop | htop) | ⟨d, hd, hp⟩
  · exact Or.inl (Or.inl ((hab.eq_iff hag (hs _ ⟨mnt, hmem, Or.inl rfl⟩).live).1 htop))
  · have hdent : s.rootDent = some a := hx.rootDent.symm.trans htop
    have hb := (hab.eq_iff hag (hroot a hdent)).1 rfl
    refine Or.inl (Or.inr ?_)
    rw [hy.rootDent, hag.rootDent, hdent, hb]
  · obtain ⟨d', e, hd', he, -, hpar⟩ := hab.dentry hA hag hx hy
    obtain rfl := Option.some.inj (hd.symm.trans hd')
    refine Or.inr ⟨e, he, fun hnone => ?_⟩
    rw [hnone] at hpar
    generalize hdp : d.parent = o at hpar hp
    cases hpar
    exact hp rfl

/-- One component of two walks. -/
theorem walkStep_alike (hA : Relates A) (hag : Agrees s t) (hs : Intact s) (ht : Intact t)
    (hroot : ∀ r, s.rootDent = some r → Live s r) (h : Mirrored A s t p x q y)
    (hchild : ¬IsDots name → ChildAlike env A x y (inodeAt x p.2) (inodeAt y q.2) name)
    (hpage : ¬IsDots name → (env.kalloc x).1 ≠ none ∧ (env.kalloc y).1 ≠ none)
    (hputs : ¬IsDots name → ∀ m cur child u,
      lookupChild env p.1 p.2 name x = some (.ok (m, cur, child), u) → PutKeeps u (m, cur))
    (hcov : ¬IsDots name → ∀ i, childInode env x (inodeAt x p.2) name = .ok i →
      covering t i t.mounts = covering s i s.mounts) :
    Fallible.EndsAlike (Mirrored A s t) (walkStep env p name x) (walkStep env q name y) := by
  obtain ⟨mnt, a⟩ := p
  obtain ⟨mnt', b⟩ := q
  rw [walkStep, walkStep]
  by_cases hdot : name = dot
  · rw [if_pos hdot, if_pos hdot]
    exact .ok h
  rw [if_neg hdot, if_neg hdot]
  by_cases hdotdot : name = dotdot
  · rw [if_pos hdotdot, if_pos hdotdot]
    obtain ⟨a', b', ha, hb, hab⟩ := climb_alike hA hag hs h
    rw [Fallible.bind_ok ha, Fallible.bind_ok hb]
    exact .ok ⟨h.mount, h.mem, h.left, h.right, hab⟩
  rw [if_neg hdotdot, if_neg hdotdot]
  have hname : ¬IsDots name := fun hn => hn.elim hdot hdotdot
  obtain ⟨hx, hy⟩ := hpage hname
  refine (lookupChild_alike hA hag hs ht h (hchild hname) hx hy (hcov hname)).bind ?_
  rintro ⟨m, cur, child⟩ u ⟨m', cur', child'⟩ v hu - ⟨hdir, hchild⟩
  obtain ⟨d, e, hd, he, -⟩ := hdir.mirror.dentry hA hag hdir.left hdir.right
  have hput := hputs hname m cur child u hu
  obtain ⟨u', hu', hext⟩ := release_extends hd hput
  obtain ⟨v', hv', hext'⟩ := release_extends he (hdir.putKeeps hA hag hs hroot hput)
  dsimp only
  rw [Fallible.bind_ok hu', Fallible.bind_ok hv']
  exact .ok ⟨hdir.mount, hdir.mem, hdir.left.trans hext, hdir.right.trans hext', hchild.mono hext hext'⟩

/-! ## Two walks -/

/-- A walk starts in a mount or there is no root. -/
theorem start_cases (hs : Rooted s) : start s = some (.error EINVAL, s) ∨
    ∃ m ∈ s.mounts, start s = some (.ok (m, m.root), s) := by
  rcases hm : s.rootMnt with _ | m
  · refine Or.inl ?_
    rw [start, hm]
  obtain ⟨hmem, hdent, -, e, he, -⟩ := hs m hm
  refine Or.inr ?_
  have hstart : start s = followOverlay m m.root s := by
    rw [start, hm, hdent]
  rw [hstart, followOverlay, Fallible.bind_ok (getDentry_of he)]
  split_ifs
  · rcases hfind : s.mounts.find? fun n => n.mountpoint = some m.root with _ | o
    · refine ⟨m, hmem, ?_⟩
      rw [Fallible.bind_ok (a := none) (by rw [findMountByMountpoint, hfind])]
      rfl
    · refine ⟨o, List.mem_of_find?_eq_some hfind, ?_⟩
      rw [Fallible.bind_ok (a := some o) (by rw [findMountByMountpoint, hfind])]
      rfl
  · exact ⟨m, hmem, rfl⟩

theorem start_ne_none (hs : Rooted s) {p : Mount × ℕ} (h : start s = some (.ok p, t)) {r : ℕ}
    (hr : s.rootDent = some r) : Live s r := by
  rcases hm : s.rootMnt with _ | m
  · rw [start, hm] at h
    cases h
  · obtain ⟨-, hdent, -, e, he, -⟩ := hs m hm
    obtain rfl := Option.some.inj (hdent.symm.trans hr)
    exact ⟨e, he⟩

/-- After the components `pre` of a walk the file system has the inode `i` for `c`. -/
def HasChild (env : Env κ ι) (s : State κ ι) (pre : List (List U8)) (c : List U8) (i : Inode ι) :
    Prop := ∃ x t, Leads env s pre x t ∧ childInode env t (inodeAt t x.2) c = .ok i

theorem startWalk_append (names : List (List U8)) (name : List U8) :
    (start >>= fun y => walk env y (names ++ [name]) : VfsM κ ι _) =
      (start >>= fun y => walk env y names) >>= fun z => walkStep env z name := by
  simp only [bind_assoc, walk_append, walk_cons, walk_nil, bind_pure]

theorem PutsParented.of_append {names' : List (List U8)} (h : PutsParented env s (names ++ names')) :
    PutsParented env s names := fun pre c post x t m cur child u he =>
  h pre c (post ++ names') x t m cur child u (by rw [he, List.append_assoc, List.cons_append])

theorem Supplied.of_append {names' : List (List U8)} (h : Supplied env s (names ++ names')) :
    Supplied env s names := fun pre c post x t he =>
  h pre c (post ++ names') x t (by rw [he, List.append_assoc, List.cons_append])

/-- Two walks along the same components. -/
theorem walks_alike_of (hA : Relates A) (hag : Agrees s t) (hr : Rooted s) (hs : Intact s)
    (ht : Intact t) (hstart : ∀ r, start s = some (r, s) → start t = some (r, t))
    (hchild : ∀ pre c post p x q y, names = pre ++ c :: post → ¬IsDots c → Leads env s pre p x →
      Leads env t pre q y → Mirrored A s t p x q y →
      ChildAlike env A x y (inodeAt x p.2) (inodeAt y q.2) c)
    (hputs : PutsParented env s names) (hpages : Supplied env s names) (hpages' : Supplied env t names)
    (hcov : ∀ pre c post i, names = pre ++ c :: post → ¬IsDots c → HasChild env s pre c i →
      covering t i t.mounts = covering s i s.mounts) :
    Fallible.EndsAlike (Mirrored A s t) ((start >>= fun y => walk env y names) s)
      ((start >>= fun y => walk env y names) t) := by
  induction names using List.reverseRecOn with
  | nil =>
    rcases start_cases hr with h | ⟨m, hm, h⟩
    · rw [Fallible.bind_error h, Fallible.bind_error (hstart _ h)]
      exact .error _ s t
    · rw [Fallible.bind_ok h, Fallible.bind_ok (hstart _ h)]
      exact .ok ⟨rfl, hm, .refl s, .refl t, .old (hs _ ⟨m, hm, Or.inl rfl⟩)⟩
  | append_singleton names name ih =>
    have hchild' : ∀ pre c post p x q y, names = pre ++ c :: post → ¬IsDots c → Leads env s pre p x →
        Leads env t pre q y → Mirrored A s t p x q y →
        ChildAlike env A x y (inodeAt x p.2) (inodeAt y q.2) c := fun pre c post p x q y he =>
      hchild pre c (post ++ [name]) p x q y (by rw [he, List.append_assoc, List.cons_append])
    have hcov' : ∀ pre c post i, names = pre ++ c :: post → ¬IsDots c → HasChild env s pre c i →
        covering t i t.mounts = covering s i s.mounts := fun pre c post i he =>
      hcov pre c (post ++ [name]) i (by rw [he, List.append_assoc, List.cons_append])
    rw [startWalk_append]
    refine (ih hchild' hputs.of_append hpages.of_append hpages'.of_append hcov').bind ?_
    intro p x q y hp hq hpq
    obtain ⟨p₀, s₁, hp₀, -⟩ := Fallible.bind_eq_ok.1 hp
    exact walkStep_alike hA hag hs ht (fun r => start_ne_none hr hp₀) hpq
      (fun hname => hchild names name [] p x q y rfl hname hp hq hpq)
      (fun hname => ⟨hpages names name [] p x rfl hname hp, hpages' names name [] q y rfl hname hq⟩)
      (fun hname m cur child u => hputs names name [] p x m cur child u rfl hname hp)
      fun hname i hi => hcov names name [] i rfl hname ⟨p, x, hp, hi⟩

theorem Mirrored.inodeAt_rel (hA : Relates A) (hag : Agrees s t) (h : Mirrored A s t p x q y) :
    Option.Rel A (inodeAt x p.2) (inodeAt y q.2) := by
  obtain ⟨d, e, hd, he, hino, -⟩ := h.mirror.dentry hA hag h.left h.right
  rw [inodeAt, inodeAt, hd, he]
  exact hino

/-- Two walks along the same components in file systems that answer alike at any time. -/
theorem walks_alike (hA : Stable env A) (hag : Agrees s t) (hr : Rooted s) (hs : Intact s)
    (ht : Intact t) (hstart : ∀ r, start s = some (r, s) → start t = some (r, t))
    (hputs : PutsParented env s names) (hpages : Supplied env s names) (hpages' : Supplied env t names)
    (hcov : ∀ pre c post i, names = pre ++ c :: post → ¬IsDots c → HasChild env s pre c i →
      covering t i t.mounts = covering s i s.mounts) :
    Fallible.EndsAlike (Mirrored A s t) ((start >>= fun y => walk env y names) s)
      ((start >>= fun y => walk env y names) t) :=
  walks_alike_of hA.relates hag hr hs ht hstart
    (fun _ c _ _ _ _ _ _ _ _ _ hpq => childInode_alike c hA (hpq.inodeAt_rel hA.relates hag))
    hputs hpages hpages' hcov

end Vfs

end Jeos
