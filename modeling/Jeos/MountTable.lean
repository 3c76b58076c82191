import Jeos.VfsCalls

/-!
# The mount table

What the calls leave of the pages in use (`Evolves`), what a call of `vfs_mount` or `vfs_umount` does
to the table (`vfsMount_cases`, `vfsUmount_cases`), and what holds of every table (`Mounted`).
-/

namespace Jeos

namespace Vfs

set_option linter.unusedSectionVars false

variable {κ ι : Type} {env : CallEnv κ ι} {s t u : State κ ι} {mnt m : Mount} {a d cur : ℕ}
  {name path : List U8} {names : List (List U8)} {x : Mount × ℕ}

/-! ## What stays -/

/-- The mount table and its pages stay, and the root dentry with its parent. -/
structure Evolves (s t : State κ ι) : Prop extends KeepsRoot s t where
  table : ∀ a p, s.heap a = some p → (∀ d, p ≠ .dentry d) → t.heap a = some p

theorem Evolves.refl (s : State κ ι) : Evolves s s := ⟨.refl s, fun _ _ h _ => h⟩

theorem Evolves.trans (s t u : State κ ι) (h : Evolves s t) (h' : Evolves t u) : Evolves s u :=
  ⟨.trans s t u h.toKeepsRoot h'.toKeepsRoot, fun a p ha hp => h'.table a p (h.table a p ha hp) hp⟩

theorem Grow.evolves (h : Grow s t) : Evolves s t :=
  ⟨h.keepsRoot, fun a p ha _ => (h.heap a (ha ▸ Option.some_ne_none p)).trans ha⟩

theorem evolves_of_readOnly {α : Type} {x : VfsM κ ι α} (h : Fallible.Keeps (@Eq (State κ ι)) x) :
    Fallible.Keeps Evolves x :=
  h.mono fun s t (e : s = t) => e ▸ Evolves.refl s

theorem dentryAt_congr (h : t.heap = s.heap) (a : ℕ) : dentryAt t a = dentryAt s a := by
  rw [dentryAt, dentryAt, h]

theorem ne_of_dentryAt {e : Dentry ι} {p : Page ι} (hd : dentryAt s d = some e)
    (ha : s.heap a = some p) (hp : ∀ e, p ≠ .dentry e) : a ≠ d := by
  rintro rfl
  rw [dentryAt, ha] at hd
  rcases p with e' | _ | _
  · exact hp e' rfl
  · cases hd
  · cases hd

theorem dentryPut_table {e : Dentry ι} (hd : dentryAt s d = some e) {r : Except ℤ Unit}
    (h : dentryPut d s = some (r, t)) (p : Page ι) (ha : s.heap a = some p)
    (hp : ∀ e, p ≠ .dentry e) : t.heap a = some p := by
  rw [dentryPut_of hd] at h
  obtain ⟨-, rfl⟩ := Prod.mk.inj (Option.some.inj h)
  have hne := ne_of_dentryAt hd ha hp
  split_ifs
  · exact (Function.update_of_ne hne _ _).trans ha
  · exact (Function.update_of_ne hne _ _).trans ha

theorem release_evolves : Fallible.Keeps Evolves (release mnt cur : VfsM κ ι Unit) := by
  intro s r t h
  refine ⟨release_keepsRoot s r t h, fun a p ha hp => ?_⟩
  unfold release at h
  split_ifs at h
  · rcases hd : dentryAt s cur with _ | e
    · rw [dentryPut, Fallible.bind_none (by rw [getDentry, hd]; rfl)] at h
      cases h
    · exact dentryPut_table hd h p ha hp
  · obtain ⟨-, rfl⟩ := Prod.mk.inj (Option.some.inj h)
    exact ha

theorem walkStep_evolves {env : Env κ ι} (x : Mount × ℕ) (name : List U8) :
    Fallible.Keeps Evolves (walkStep env x name) := by
  obtain ⟨mnt, cur⟩ := x
  unfold walkStep
  dsimp only
  split_ifs
  · exact Fallible.Keeps.pure Evolves.refl _
  · exact (evolves_of_readOnly climb_readOnly).bind Evolves.trans fun _ =>
      Fallible.Keeps.pure Evolves.refl _
  · refine (lookupChild_grow.mono fun _ _ => Grow.evolves).bind Evolves.trans fun _ => ?_
    exact release_evolves.bind Evolves.trans fun _ => Fallible.Keeps.pure Evolves.refl _

theorem walk_evolves {env : Env κ ι} (x : Mount × ℕ) (names : List (List U8)) :
    Fallible.Keeps Evolves (walk env x names) :=
  Fallible.Keeps.foldlM Evolves.refl Evolves.trans walkStep_evolves x names

theorem vfsLookup_evolves {env : Env κ ι} (path : List U8) :
    Fallible.Keeps Evolves (vfsLookup env path) := by
  rw [vfsLookup_eq]
  exact (evolves_of_readOnly start_readOnly).bind Evolves.trans fun y => walk_evolves y _

theorem mountTarget_evolves {env : Env κ ι} :
    Fallible.Keeps Evolves (mountTarget env path) := by
  intro s r t h
  unfold mountTarget at h
  split_ifs at h
  · obtain ⟨-, rfl⟩ := Prod.mk.inj (Option.some.inj h)
    exact Evolves.refl s
  · refine (vfsLookup_evolves path).bind Evolves.trans (fun y => ?_) s r t h
    refine (evolves_of_readOnly getDentry_readOnly).bind Evolves.trans fun e => ?_
    rcases e.inode with _ | i
    · exact Fallible.Keeps.throw Evolves.refl _
    · dsimp only
      split_ifs
      · exact Fallible.Keeps.pure Evolves.refl _
      · exact Fallible.Keeps.throw Evolves.refl _

/-- Only the first mount has no mountpoint. -/
theorem mountTarget_none {env : Env κ ι} (h : mountTarget env path s = some (.ok none, t)) :
    s.rootMnt = none := by
  unfold mountTarget at h
  split_ifs at h with hroot
  · exact hroot.2
  obtain ⟨y, s₁, -, h₁⟩ := Fallible.bind_eq_ok.1 h
  obtain ⟨e, s₂, -, h₂⟩ := Fallible.bind_eq_ok.1 h₁
  rcases hi : e.inode with _ | i <;> rw [hi] at h₂
  · cases h₂
  dsimp only at h₂
  split_ifs at h₂
  · cases h₂
  · cases h₂

/-! ## `vfs_mount` -/

/-- The state in which `vfs_mount` adds the new mount : its three pages were free. -/
structure NewMount (s t : State κ ι) (mnt : Mount) (ino : Inode ι) : Prop where
  grow : Grow s t
  free : s.heap mnt.sb = none ∧ s.heap mnt.root = none ∧ s.heap mnt.page = none
  sb : t.heap mnt.sb = some .superblock
  root : dentryAt t mnt.root = some ⟨1, [slash], some ino, none, false⟩
  page : t.heap mnt.page = some .mount

/-- `sb->root` is a new dentry. -/
theorem fsMount_ok {env : Env κ ι} {type : List U8} {sb device root : ℕ} {rc : ℤ}
    (h : fsMount env type sb device s = some (.ok (rc, some root), t)) :
    s.heap root = none ∧ ∃ ino, dentryAt t root = some ⟨1, [slash], some ino, none, false⟩ := by
  unfold fsMount at h
  obtain ⟨⟨rc', ino⟩, s₁, hs₁, h₁⟩ := Fallible.bind_eq_ok.1 h
  obtain ⟨-, rfl⟩ := Prod.mk.inj (Option.some.inj hs₁)
  rcases ino with _ | ino
  · cases h₁
  obtain ⟨x, s₂, ha, h₂⟩ := Fallible.bind_eq_ok.1 h₁
  rcases x with _ | a
  · cases h₂
  · obtain ⟨hr, rfl⟩ := Prod.mk.inj (Option.some.inj h₂)
    obtain rfl := Option.some.inj (Prod.mk.inj (Except.ok.inj hr)).2
    obtain ⟨hfree, hheap⟩ := kalloc_some ha
    exact ⟨hfree, ino, by rw [dentryAt, hheap]⟩

/-- `vfs_mount` up to the new mount, which is not in the list yet. -/
def newMount (env : Env κ ι) (type : List U8) (device : ℕ) (target : List U8) : VfsM κ ι Mount := do
  let mp ← mountTarget env target
  match ← kalloc env .superblock with
  | none => throw ENOMEM
  | some sb =>
    let (rc, root) ← fsMount env type sb device
    if rc < 0 then do
      kfree sb
      throw rc
    else
      match root with
      | none => do
        fsUnmount env type sb
        kfree sb
        throw EINVAL
      | some root => do
        match ← kalloc env .mount with
        | none =>
          fsUnmount env type sb
          kfree sb
          throw ENOMEM
        | some page => pure ⟨page, sb, mp, root⟩

/-- `vfs_mount` makes a mount and adds it. -/
theorem vfsMount_eq {env : Env κ ι} {type target : List U8} {device : ℕ} :
    vfsMount env type device target s = if type ∈ s.fsTypes then
      (newMount env type device target >>= addMount) s else some (.error ENOENT, s) := by
  unfold vfsMount newMount
  refine if_congr Iff.rfl (congrFun (a := s) ?_) rfl
  rw [bind_assoc]
  refine congrArg _ (funext fun mp => ?_)
  rw [bind_assoc]
  refine congrArg _ (funext fun x => ?_)
  rcases x with _ | sb
  · rfl
  dsimp only
  rw [bind_assoc]
  refine congrArg _ (funext fun ⟨rc, root⟩ => ?_)
  dsimp only
  split_ifs
  · rfl
  rcases root with _ | root
  · rfl
  dsimp only
  rw [bind_assoc]
  refine congrArg _ (funext fun y => ?_)
  rcases y with _ | page
  · rfl
  · rfl

/-- After the target only new pages are touched, whether the mount is made or not. -/
theorem newMount_spec {env : Env κ ι} {type target : List U8} {device : ℕ} {r : Except ℤ Mount}
    (h : newMount env type device target s = some (r, t)) :
    (∃ e, r = .error e ∧ mountTarget env target s = some (.error e, t)) ∨
      ∃ mp s₁, mountTarget env target s = some (.ok mp, s₁) ∧ ((∃ e, r = .error e ∧ Grow s₁ t) ∨
        ∃ m ino, r = .ok m ∧ m.mountpoint = mp ∧ NewMount s₁ t m ino) := by
  unfold newMount at h
  rcases Fallible.bind_eq_some.1 h with ⟨e, hmp, rfl⟩ | ⟨mp, s₁, hmp, h₁⟩
  · exact Or.inl ⟨e, rfl, hmp⟩
  refine Or.inr ⟨mp, s₁, hmp, ?_⟩
  have hfail : ∀ {e : ℤ} {u}, Grow s₁ u → ∃ e', (Except.error e : Except ℤ Mount) = .error e' ∧
      Grow s₁ u := fun hg => ⟨_, rfl, hg⟩
  rcases Fallible.bind_eq_some.1 h₁ with ⟨e, hsb, rfl⟩ | ⟨x, s₂, hsb, h₂⟩
  · exact Or.inl (hfail (kalloc_grow _ s₁ _ t hsb))
  have hg₂ := kalloc_grow _ s₁ _ s₂ hsb
  rcases x with _ | sb
  · obtain ⟨rfl, rfl⟩ := Prod.mk.inj (Option.some.inj h₂)
    exact Or.inl (hfail hg₂)
  obtain ⟨hfree, hheap⟩ := kalloc_some hsb
  have hfreed : ∀ {u : State κ ι}, Grow s₂ u → Grow s₁ (u.free sb) := fun hg =>
    ⟨hg.mounts.trans hg₂.mounts, hg.rootMnt.trans hg₂.rootMnt, hg.rootDent.trans hg₂.rootDent,
      fun b hb => by
        have hne : b ≠ sb := fun he => hb (he ▸ hfree)
        refine (Function.update_of_ne hne _ _).trans ?_
        rw [hg.heap b (by rwa [hg₂.heap b hb]), hg₂.heap b hb]⟩
  rcases Fallible.bind_eq_some.1 h₂ with ⟨e, hfs, rfl⟩ | ⟨⟨rc, root⟩, s₃, hfs, h₃⟩
  · exact Or.inl (hfail (hg₂.trans _ _ _ (fsMount_grow s₂ _ t hfs)))
  have hg₃ := fsMount_grow s₂ _ s₃ hfs
  dsimp only at h₃
  split_ifs at h₃
  · obtain ⟨rfl, rfl⟩ := Prod.mk.inj (Option.some.inj h₃)
    exact Or.inl (hfail (hfreed hg₃))
  rcases root with _ | root
  · obtain ⟨rfl, rfl⟩ := Prod.mk.inj (Option.some.inj h₃)
    exact Or.inl (hfail (hfreed (u := s₃.withFs _) (hg₃.trans _ _ _ ⟨rfl, rfl, rfl, fun _ _ => rfl⟩)))
  obtain ⟨hroot, ino, he⟩ := fsMount_ok hfs
  rcases Fallible.bind_eq_some.1 h₃ with ⟨e', hpage, rfl⟩ | ⟨y, s₄, hpage, h₄⟩
  · exact Or.inl (hfail ((hg₂.trans _ _ _ hg₃).trans _ _ _ (kalloc_grow _ s₃ _ t hpage)))
  have hg₄ := kalloc_grow _ s₃ _ s₄ hpage
  rcases y with _ | page
  · obtain ⟨rfl, rfl⟩ := Prod.mk.inj (Option.some.inj h₄)
    exact Or.inl (hfail (hfreed (u := s₄.withFs _)
      ((hg₃.trans _ _ _ hg₄).trans _ _ _ ⟨rfl, rfl, rfl, fun _ _ => rfl⟩)))
  obtain ⟨hpfree, hpheap⟩ := kalloc_some hpage
  obtain ⟨rfl, rfl⟩ := Prod.mk.inj (Option.some.inj h₄)
  refine Or.inr ⟨⟨page, sb, mp, root⟩, ino, rfl, rfl, (hg₂.trans _ _ _ hg₃).trans _ _ _ hg₄,
    ⟨hfree, ?_, ?_⟩, ?_, hg₄.dentryAt he, hpheap⟩
  · by_contra hne
    exact hne ((hg₂.heap root hne).symm.trans hroot)
  · by_contra hne
    have := (hg₂.trans _ _ _ hg₃).heap page hne
    exact hne (this.symm.trans hpfree)
  · have hsb₃ := (hg₃.trans _ _ _ hg₄).heap sb (by rw [hheap]; exact Option.some_ne_none _)
    exact hsb₃.trans hheap

/-- The new mount is not made, or it has new pages. -/
theorem newMount_cases {env : Env κ ι} {type target : List U8} {device : ℕ} {r : Except ℤ Mount}
    (h : newMount env type device target s = some (r, t)) :
    (∃ e, r = .error e ∧ Evolves s t) ∨
      ∃ s₁ m ino, r = .ok m ∧ mountTarget env target s = some (.ok m.mountpoint, s₁) ∧
        NewMount s₁ t m ino := by
  rcases newMount_spec h with ⟨e, rfl, hmp⟩ | ⟨mp, s₁, hmp, ⟨e, rfl, hg⟩ | ⟨m, ino, rfl, rfl, hnew⟩⟩
  · exact Or.inl ⟨e, rfl, mountTarget_evolves s _ t hmp⟩
  · exact Or.inl ⟨e, rfl, (mountTarget_evolves s _ s₁ hmp).trans _ _ _ hg.evolves⟩
  · exact Or.inr ⟨s₁, m, ino, rfl, hmp, hnew⟩

/-- `vfs_mount` fails and leaves the table, or it adds a mount with new pages. -/
theorem vfsMount_cases {env : Env κ ι} {type target : List U8} {device : ℕ} {r : Except ℤ Unit}
    (h : vfsMount env type device target s = some (r, t)) :
    (∃ e, r = .error e ∧ Evolves s t) ∨
      type ∈ s.fsTypes ∧ ∃ s₁ s₂ m ino, mountTarget env target s = some (.ok m.mountpoint, s₁) ∧
        NewMount s₁ s₂ m ino ∧ addMount m s₂ = some (r, t) := by
  rw [vfsMount_eq] at h
  split_ifs at h with htype
  swap
  · obtain ⟨rfl, rfl⟩ := Prod.mk.inj (Option.some.inj h)
    exact Or.inl ⟨_, rfl, .refl s⟩
  rcases Fallible.bind_eq_some.1 h with ⟨e, hm, rfl⟩ | ⟨m, s₂, hm, hadd⟩
  · rcases newMount_cases hm with ⟨e', -, hev⟩ | ⟨s₁, m, ino, he, -⟩
    · exact Or.inl ⟨e, rfl, hev⟩
    · cases he
  · rcases newMount_cases hm with ⟨e', he, -⟩ | ⟨s₁, m', ino, he, hmp, hnew⟩
    · cases he
    · obtain rfl := Except.ok.inj he
      exact Or.inr ⟨htype, s₁, s₂, m, ino, hmp, hnew, hadd⟩

theorem getDentry_ne_error {e : ℤ} : (getDentry a : VfsM κ ι (Dentry ι)) s ≠ some (.error e, t) := by
  intro h
  obtain ⟨d, -, hd⟩ := Option.map_eq_some_iff.1 h
  cases (Prod.mk.inj hd).1

/-- `addMount` makes the mount the root, or it marks its mountpoint. -/
theorem addMount_cases {r : Except ℤ Unit} (h : addMount m s = some (r, t)) :
    r = .ok () ∧ t.mounts = m :: s.mounts ∧
      (m.mountpoint = none ∧ t.rootMnt = some m ∧ t.rootDent = some m.root ∧ t.heap = s.heap ∨
        ∃ mp e, m.mountpoint = some mp ∧ dentryAt s mp = some e ∧ t.rootMnt = s.rootMnt ∧
          t.rootDent = s.rootDent ∧ t.heap = (s.put mp { e with isMountpoint := true }).heap) := by
  unfold addMount at h
  rcases hmp : m.mountpoint with _ | mp <;> rw [hmp] at h
  · obtain ⟨rfl, rfl⟩ := Prod.mk.inj (Option.some.inj h)
    exact ⟨rfl, rfl, Or.inl ⟨rfl, rfl, rfl, rfl⟩⟩
  · dsimp only at h
    rcases Fallible.bind_eq_some.1 h with ⟨e, hd, -⟩ | ⟨e, s₁, hd, hset⟩
    · exact absurd hd getDentry_ne_error
    obtain ⟨hd, rfl⟩ := getDentry_eq_ok.1 hd
    obtain ⟨rfl, rfl⟩ := Prod.mk.inj (Option.some.inj hset)
    exact ⟨rfl, rfl, Or.inr ⟨mp, e, rfl, hd, rfl, rfl, rfl⟩⟩

/-! ## `vfs_umount` -/

/-- The mount that `vfs_umount` removes, and the state it leaves. -/
structure Umounts (sbType : ℕ → List U8) (s t : State κ ι) (env : Env κ ι) (d : ℕ) (m : Mount) :
    Prop where
  found : ∃ before after, s.mounts = before ++ m :: after ∧ t.mounts = before ++ after ∧
    ∀ m' ∈ before, m'.mountpoint ≠ some d
  mountpoint : m.mountpoint = some d
  rootMnt : t.rootMnt = s.rootMnt
  rootDent : t.rootDent = s.rootDent
  fs : t.fs = env.unmount (sbType m.sb) m.sb s.fs
  dentry : ∃ e, dentryAt s d = some e ∧
    t.heap = (((s.put d { e with isMountpoint := false }).free m.sb).free m.page).heap

theorem umountFrom_cases {sbType : ℕ → List U8} {before ms : List Mount} {r : Except ℤ Unit}
    (hs : s.mounts = before ++ ms) (hb : ∀ m' ∈ before, m'.mountpoint ≠ some d)
    (h : umountFrom env sbType d before ms s = some (r, t)) :
    r = .error ENOENT ∧ t = s ∧ (∀ m ∈ s.mounts, m.mountpoint ≠ some d) ∨
      r = .ok () ∧ ∃ m, Umounts sbType s t env.toEnv d m := by
  induction ms generalizing before with
  | nil =>
    obtain ⟨rfl, rfl⟩ := Prod.mk.inj (Option.some.inj h)
    rw [List.append_nil] at hs
    exact Or.inl ⟨rfl, rfl, hs ▸ hb⟩
  | cons m ms ih =>
    unfold umountFrom at h
    split_ifs at h with hm
    · rcases Fallible.bind_eq_some.1 h with ⟨e, hd, -⟩ | ⟨e, s₁, hd, hset⟩
      · exact absurd hd getDentry_ne_error
      obtain ⟨hd, rfl⟩ := getDentry_eq_ok.1 hd
      obtain ⟨rfl, rfl⟩ := Prod.mk.inj (Option.some.inj hset)
      exact Or.inr ⟨rfl, m, ⟨before, ms, hs, rfl, hb⟩, hm, rfl, rfl, rfl, e, hd, rfl⟩
    · refine ih (by rw [hs, List.append_assoc, List.singleton_append]) (fun m' hm' => ?_) h
      rcases List.mem_append.1 hm' with hm' | hm'
      · exact hb m' hm'
      · rw [List.mem_singleton.1 hm']
        exact hm

/-- `vfs_umount` looks the target up, and then removes the first mount on its dentry. -/
theorem vfsUmount_cases {sbType : ℕ → List U8} {target : List U8} {r : Except ℤ Unit}
    (h : vfsUmount env sbType target s = some (r, t)) :
    (∃ e, r = .error e ∧ Evolves s t) ∨ r = .ok () ∧ ∃ x s₁ m,
      vfsLookup env.toEnv target s = some (.ok x, s₁) ∧ Umounts sbType s₁ t env.toEnv x.2 m := by
  rcases Fallible.bind_eq_some.1 h with ⟨e, hl, rfl⟩ | ⟨x, s₁, hl, h₁⟩
  · exact Or.inl ⟨e, rfl, vfsLookup_evolves target s _ t hl⟩
  · have hmounts : s₁.mounts = [] ++ s₁.mounts := rfl
    rcases umountFrom_cases hmounts (fun m hm => absurd hm List.not_mem_nil) h₁
      with ⟨rfl, rfl, -⟩ | ⟨rfl, m, hm⟩
    · exact Or.inl ⟨_, rfl, vfsLookup_evolves target s _ _ hl⟩
    · exact Or.inr ⟨rfl, x, s₁, m, hl, hm⟩

/-! ## Every table -/

/-- The root mount is in the table, and every mount has a page and a superblock of its own. -/
structure Mounted (s : State κ ι) : Prop where
  rooted : Rooted s
  pages : ∀ m ∈ s.mounts, s.heap m.page = some .mount ∧ s.heap m.sb = some .superblock
  distinct : s.mounts.Pairwise fun m n => m.page ≠ n.page ∧ m.sb ≠ n.sb

theorem Mounted.evolves (hs : Mounted s) (h : Evolves s t) : Mounted t := by
  refine ⟨h.rooted hs.rooted, fun m hm => ?_, h.mounts ▸ hs.distinct⟩
  rw [h.mounts] at hm
  obtain ⟨hpage, hsb⟩ := hs.pages m hm
  exact ⟨h.table _ _ hpage nofun, h.table _ _ hsb nofun⟩

theorem Mounted.congr (hs : Mounted s) (hheap : t.heap = s.heap) (hmounts : t.mounts = s.mounts)
    (hroot : t.rootMnt = s.rootMnt) (hdent : t.rootDent = s.rootDent) : Mounted t :=
  hs.evolves ⟨⟨hmounts, hroot, hdent, fun r e _ he => ⟨e, (dentryAt_congr hheap r).trans he, rfl⟩⟩,
    fun a p ha _ => by rw [hheap, ha]⟩

/-- A new mount is the root, or the root stays. -/
theorem Mounted.add {ino : Inode ι} {r : Except ℤ Unit} (hs : Mounted s) (hnew : NewMount s u m ino)
    (hadd : addMount m u = some (r, t)) : Mounted t := by
  obtain ⟨-, hmounts, hcase⟩ := addMount_cases hadd
  rw [hnew.grow.mounts] at hmounts
  have hkeep : ∀ {a p}, u.heap a = some p → (∀ e, p ≠ .dentry e) → t.heap a = some p :=
    fun {a p} ha hp => by
      rcases hcase with ⟨-, -, -, hheap⟩ | ⟨mp, e, -, hd, -, -, hheap⟩
      · rw [hheap, ha]
      · rw [hheap]
        exact (Function.update_of_ne (ne_of_dentryAt hd ha hp) _ _).trans ha
  have hne : ∀ {a p}, s.heap a = some p → ∀ {b}, s.heap b = none → b ≠ a := fun ha b hb he => by
    rw [he, ha] at hb
    cases hb
  refine ⟨fun m₀ hm₀ => ?_, fun m' hm' => ?_, ?_⟩
  · rcases hcase with ⟨hnone, hroot, hdent, hheap⟩ | ⟨mp, e, -, hd, hroot, hdent, hheap⟩
    · obtain rfl := Option.some.inj (hroot.symm.trans hm₀)
      refine ⟨hmounts ▸ List.mem_cons_self, hdent, hnone, ⟨1, [slash], some ino, none, false⟩, ?_, rfl⟩
      rw [dentryAt_congr hheap, hnew.root]
    · rw [hroot, hnew.grow.rootMnt] at hm₀
      obtain ⟨hmem, hrd, hnone, e₀, he₀, hp⟩ := hs.rooted m₀ hm₀
      refine ⟨hmounts ▸ List.mem_cons_of_mem _ hmem, ?_, hnone, ?_⟩
      · rw [hdent, hnew.grow.rootDent, hrd]
      · have he₀' := hnew.grow.dentryAt he₀
        by_cases hmp : m₀.root = mp
        · rw [hmp] at he₀'
          obtain rfl := Option.some.inj (hd.symm.trans he₀')
          refine ⟨{ e with isMountpoint := true }, ?_, hp⟩
          rw [dentryAt_congr hheap, hmp]
          exact dentryAt_put_self
        · refine ⟨e₀, ?_, hp⟩
          rw [dentryAt_congr hheap]
          exact (dentryAt_put_of_ne hmp).trans he₀'
  · rw [hmounts] at hm'
    rcases List.mem_cons.1 hm' with rfl | hm'
    · exact ⟨hkeep hnew.page nofun, hkeep hnew.sb nofun⟩
    · obtain ⟨hpage, hsb⟩ := hs.pages m' hm'
      refine ⟨hkeep ((hnew.grow.heap _ ?_).trans hpage) nofun,
        hkeep ((hnew.grow.heap _ ?_).trans hsb) nofun⟩
      · exact hpage ▸ Option.some_ne_none _
      · exact hsb ▸ Option.some_ne_none _
  · rw [hmounts]
    refine List.pairwise_cons.2 ⟨fun m' hm' => ?_, hs.distinct⟩
    obtain ⟨hpage, hsb⟩ := hs.pages m' hm'
    exact ⟨hne hpage hnew.free.2.2, hne hsb hnew.free.1⟩

theorem Mounted.vfsMount {env : Env κ ι} {type target : List U8} {device : ℕ} {r : Except ℤ Unit}
    (hs : Mounted s) (h : vfsMount env type device target s = some (r, t)) : Mounted t := by
  rcases vfsMount_cases h with ⟨-, -, hev⟩ | ⟨-, s₁, s₂, m, ino, hmp, hnew, hadd⟩
  · exact hs.evolves hev
  · exact (hs.evolves (mountTarget_evolves s _ s₁ hmp)).add hnew hadd

/-- `vfs_umount` removes no root, and frees pages of its own mount only. -/
theorem Mounted.umounts {sbType : ℕ → List U8} (hs : Mounted s)
    (h : Umounts sbType s t env.toEnv d m) : Mounted t := by
  obtain ⟨before, after, hms, hmt, -⟩ := h.found
  obtain ⟨e, he, hheap⟩ := h.dentry
  have hmem : m ∈ s.mounts := hms ▸ List.mem_append_right _ List.mem_cons_self
  obtain ⟨hpage, hsb⟩ := hs.pages m hmem
  have hsub : ∀ m' ∈ t.mounts, m' ∈ s.mounts := fun m' hm' => by
    rw [hmt] at hm'
    rw [hms]
    rcases List.mem_append.1 hm' with hm' | hm'
    · exact List.mem_append_left _ hm'
    · exact List.mem_append_right _ (List.mem_cons_of_mem _ hm')
  have hfar : ∀ m' ∈ t.mounts, m'.page ≠ m.page ∧ m'.sb ≠ m.sb := fun m' hm' => by
    have hd := hs.distinct
    rw [hms, List.pairwise_append, List.pairwise_cons] at hd
    rw [hmt] at hm'
    rcases List.mem_append.1 hm' with hm' | hm'
    · exact hd.2.2 m' hm' m List.mem_cons_self
    · obtain ⟨h₁, h₂⟩ := hd.2.1.1 m' hm'
      exact ⟨h₁.symm, h₂.symm⟩
  have hat : ∀ a, a ≠ m.page → a ≠ m.sb →
      t.heap a = (s.put d { e with isMountpoint := false }).heap a := fun a h₁ h₂ => by
    rw [hheap]
    exact (Function.update_of_ne h₁ _ _).trans (Function.update_of_ne h₂ _ _)
  refine ⟨fun m₀ hm₀ => ?_, fun m' hm' => ?_, ?_⟩
  · obtain ⟨hm₀s, hdent, hnone, e₀, he₀, hp⟩ := hs.rooted m₀ (h.rootMnt ▸ hm₀)
    have hmem₀ : m₀ ∈ t.mounts := by
      rw [hms] at hm₀s
      rw [hmt]
      rcases List.mem_append.1 hm₀s with hb | hb
      · exact List.mem_append_left _ hb
      · rcases List.mem_cons.1 hb with rfl | hb
        · rw [h.mountpoint] at hnone
          cases hnone
        · exact List.mem_append_right _ hb
    have hrp := (ne_of_dentryAt he₀ hpage (by simp)).symm
    have hrs := (ne_of_dentryAt he₀ hsb (by simp)).symm
    refine ⟨hmem₀, h.rootDent.trans hdent, hnone, ?_⟩
    by_cases hd : m₀.root = d
    · rw [hd] at he₀ hrp hrs
      obtain rfl := Option.some.inj (he.symm.trans he₀)
      refine ⟨{ e with isMountpoint := false }, ?_, hp⟩
      rw [hd, dentryAt, hat d hrp hrs]
      exact dentryAt_put_self
    · refine ⟨e₀, ?_, hp⟩
      rw [dentryAt, hat _ hrp hrs]
      exact (dentryAt_put_of_ne hd).trans he₀
  · obtain ⟨hpage', hsb'⟩ := hs.pages m' (hsub m' hm')
    obtain ⟨hfp, hfs⟩ := hfar m' hm'
    have hps : ∀ {a b : ℕ} {p q : Page ι}, s.heap a = some p → s.heap b = some q → p ≠ q → a ≠ b :=
      fun ha hb hpq hab => hpq (Option.some.inj (ha.symm.trans (hab ▸ hb)))
    constructor
    · rw [hat _ hfp (hps hpage' hsb (by simp))]
      exact (Function.update_of_ne (ne_of_dentryAt he hpage' (by simp)) _ _).trans hpage'
    · rw [hat _ (hps hsb' hpage (by simp)) hfs]
      exact (Function.update_of_ne (ne_of_dentryAt he hsb' (by simp)) _ _).trans hsb'
  · have hd := hs.distinct
    rw [hms] at hd
    rw [hmt]
    exact hd.sublist (List.Sublist.append_left (List.sublist_cons_self m after) before)

theorem Mounted.vfsUmount {sbType : ℕ → List U8} {target : List U8} {r : Except ℤ Unit}
    (hs : Mounted s) (h : vfsUmount env sbType target s = some (r, t)) : Mounted t := by
  rcases vfsUmount_cases h with ⟨-, -, hev⟩ | ⟨-, x, s₁, m, hl, hm⟩
  · exact hs.evolves hev
  · exact (hs.evolves (vfsLookup_evolves target s _ s₁ hl)).umounts hm

end Vfs

end Jeos
