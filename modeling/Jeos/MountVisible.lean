import Jeos.Mirror

/-!
# What a new mount shows

`vfs_mount` looks its target up, and a later `vfs_lookup` of the same path does the same walk over the
new table. It comes to the root of the new mount exactly if the inode that the file system gives for the
last component is the one that has been mounted on (`mount_visible_iff`) : not if the path was a mountpoint
already, and not after `..`.
-/

namespace Jeos

namespace Vfs

set_option linter.unusedSectionVars false

variable {κ ι : Type} {env : Env κ ι} {A : Inode ι → Inode ι → Prop} {s t u x y : State κ ι}
  {mnt m : Mount} {a b c d dir cur child : ℕ} {i j : Inode ι} {name path : List U8}
  {names : List (List U8)} {p q : Mount × ℕ}

/-! ## One walk -/

theorem Grow.putKeeps (h : Grow s t) (hp : PutKeeps s p) : PutKeeps t p := by
  rcases hp with (htop | htop) | ⟨e, he, hpar⟩
  · exact Or.inl (Or.inl htop)
  · exact Or.inl (Or.inr (h.rootDent.trans htop))
  · exact Or.inr ⟨e, h.dentryAt he, hpar⟩

/-- The directory and the child that `vfs_lookup_child` returns. -/
theorem lookupChild_sound (hs : Intact s) (hdir : Sound s dir)
    (h : lookupChild env mnt dir name s = some (.ok (m, cur, child), t)) :
    Sound t cur ∧ Sound t child ∧ (m = mnt ∧ cur = dir ∧ (∃ e, dentryAt t child = some e ∧ e.parent ≠ none) ∨
      m ∈ s.mounts ∧ cur = m.root ∧ child = m.root) := by
  have hext := (lookupChild_grow s _ t h).extends
  obtain ⟨e, i, a, ino, fs, -, -, -, -, hcase⟩ := lookupChild_ok h
  rcases hcase with ⟨rfl, rfl, rfl, rfl, -⟩ | ⟨rfl, rfl, rfl, hfind⟩
  · have hcur := hext.agrees.sound hdir
    refine ⟨hcur, Sound.of_parent dentryAt_put_self fun b hb => ?_, Or.inl ⟨rfl, rfl, ?_⟩⟩
    · obtain rfl := Option.some.inj hb
      exact hcur
    · exact ⟨_, dentryAt_put_self, Option.some_ne_none _⟩
  · obtain ⟨-, hmem, -⟩ := findByInode_some hfind
    have hroot := hext.agrees.sound (hs _ ⟨m, hmem, Or.inl rfl⟩)
    exact ⟨hroot, hroot, Or.inr ⟨hmem, rfl, rfl⟩⟩

/-- What a walk leaves, and where it leads to. -/
def StaysSound (s : State κ ι) (r : Except ℤ (Mount × ℕ)) (t : State κ ι) : Prop :=
  Extends s t ∧ ∀ x, r = .ok x → x.1 ∈ s.mounts ∧ Sound t x.2

theorem climb_sound (hs : Intact s) (hmem : mnt ∈ s.mounts) (hcur : Sound s cur)
    (h : climb mnt cur s = some (.ok a, t)) : Sound s a := by
  have hup : (do return ((← getDentry cur).parent).getD cur : VfsM κ ι ℕ) s = some (.ok a, t) →
      Sound s a := by
    intro h
    obtain ⟨e, s₁, hd, h₁⟩ := Fallible.bind_eq_ok.1 h
    obtain ⟨hd, rfl⟩ := getDentry_eq_ok.1 hd
    obtain ⟨ha, rfl⟩ := Prod.mk.inj (Option.some.inj h₁)
    obtain rfl := Except.ok.inj ha
    rcases hp : e.parent with _ | p
    · exact hcur
    · exact hcur.parent hd hp
  rcases hmp : mnt.mountpoint with _ | c
  · refine hup ?_
    unfold climb at h
    simpa only [hmp] using h
  · by_cases ha : cur = mnt.root
    · subst ha
      rw [climb_mountpoint hmp] at h
      obtain ⟨ha, rfl⟩ := Prod.mk.inj (Option.some.inj h)
      obtain rfl := Except.ok.inj ha
      exact hs _ ⟨mnt, hmem, Or.inr hmp⟩
    · refine hup ?_
      unfold climb at h
      simpa only [hmp, decide_eq_false ha] using h

theorem walkStep_sound {r : Except ℤ (Mount × ℕ)} (hs : Intact s) (hmem : p.1 ∈ s.mounts)
    (hp : Sound s p.2)
    (hputs : ¬IsDots name → ∀ m cur child u,
      lookupChild env p.1 p.2 name s = some (.ok (m, cur, child), u) → PutKeeps u (m, cur))
    (h : walkStep env p name s = some (r, t)) : StaysSound s r t := by
  obtain ⟨mnt, dir⟩ := p
  rw [walkStep] at h
  split_ifs at h with hdot hdotdot
  · obtain ⟨rfl, rfl⟩ := Prod.mk.inj (Option.some.inj h)
    refine ⟨.refl s, fun x hx => ?_⟩
    obtain rfl := Except.ok.inj hx
    exact ⟨hmem, hp⟩
  · rcases Fallible.bind_eq_some.1 h with ⟨e, hc, rfl⟩ | ⟨a, s₁, hc, h₁⟩
    · obtain rfl := climb_readOnly s _ t hc
      exact ⟨.refl s, fun x hx => by cases hx⟩
    · obtain rfl := climb_readOnly s _ s₁ hc
      obtain ⟨rfl, rfl⟩ := Prod.mk.inj (Option.some.inj h₁)
      refine ⟨.refl s, fun x hx => ?_⟩
      obtain rfl := Except.ok.inj hx
      exact ⟨hmem, climb_sound hs hmem hp hc⟩
  · have hname : ¬IsDots name := fun hn => hn.elim hdot hdotdot
    rcases Fallible.bind_eq_some.1 h with ⟨e, hl, rfl⟩ | ⟨⟨m, cur, child⟩, s₁, hl, h₁⟩
    · exact ⟨(lookupChild_grow s _ t hl).extends, fun x hx => by cases hx⟩
    have hext := (lookupChild_grow s _ s₁ hl).extends
    obtain ⟨hcur, hchild, hcase⟩ := lookupChild_sound hs hp hl
    obtain ⟨e, he⟩ := hcur.live
    obtain ⟨s₂, hrel, hext'⟩ := release_extends he (hputs hname m cur child s₁ hl)
    dsimp only at h₁
    rw [Fallible.bind_ok hrel] at h₁
    obtain ⟨rfl, rfl⟩ := Prod.mk.inj (Option.some.inj h₁)
    refine ⟨hext.trans hext', fun x hx => ?_⟩
    obtain rfl := Except.ok.inj hx
    refine ⟨?_, hext'.agrees.sound hchild⟩
    rcases hcase with ⟨rfl, -⟩ | ⟨hm, -⟩
    · exact hmem
    · exact hm

/-- A walk that frees nothing leaves all dentries, and leads to one that is there with all above it. -/
theorem walk_sound {r : Except ℤ (Mount × ℕ)} (hr : Rooted s) (hs : Intact s)
    (hputs : PutsParented env s names)
    (h : (start >>= fun y => walk env y names) s = some (r, t)) : StaysSound s r t := by
  induction names using List.reverseRecOn generalizing r t with
  | nil =>
    rcases start_cases hr with hstart | ⟨m, hm, hstart⟩
    · rw [Fallible.bind_error hstart] at h
      obtain ⟨rfl, rfl⟩ := Prod.mk.inj (Option.some.inj h)
      exact ⟨.refl s, fun x hx => by cases hx⟩
    · rw [Fallible.bind_ok hstart] at h
      obtain ⟨rfl, rfl⟩ := Prod.mk.inj (Option.some.inj h)
      refine ⟨.refl s, fun x hx => ?_⟩
      obtain rfl := Except.ok.inj hx
      exact ⟨hm, hs _ ⟨m, hm, Or.inl rfl⟩⟩
  | append_singleton names name ih =>
    rw [startWalk_append] at h
    rcases Fallible.bind_eq_some.1 h with ⟨e, hw, rfl⟩ | ⟨p, s₁, hw, h₁⟩
    · exact ⟨(ih hputs.of_append hw).1, fun x hx => by cases hx⟩
    · obtain ⟨hext, hp⟩ := ih hputs.of_append hw
      obtain ⟨hmem, hsound⟩ := hp p rfl
      obtain ⟨hext', hp'⟩ := walkStep_sound (hext.intact hs) (hext.mounts.symm ▸ hmem) hsound
        (fun hname m cur child u => hputs names name [] p s₁ m cur child u rfl hname hw) h₁
      refine ⟨hext.trans hext', fun x hx => ?_⟩
      obtain ⟨hmem', hsound'⟩ := hp' x hx
      exact ⟨hext.mounts ▸ hmem', hsound'⟩

/-- Without `..` a walk puts no root of a mount but the one it is in. -/
theorem putKeeps_of_notMem (hr : Rooted s) (h : dotdot ∉ names) (hw : Leads env s names p t) :
    PutKeeps t p := by
  induction names using List.reverseRecOn generalizing p t with
  | nil =>
    obtain ⟨x, s₁, hstart, hpure⟩ := Fallible.bind_eq_ok.1 hw
    obtain ⟨rfl, -, htop⟩ := start_top hr hstart
    obtain ⟨hx, rfl⟩ := Prod.mk.inj (Option.some.inj hpure)
    obtain rfl := Except.ok.inj hx
    exact Or.inl htop
  | append_singleton names name ih =>
    have hnames : dotdot ∉ names := fun hmem => h (List.mem_append_left _ hmem)
    have hname : name ≠ dotdot := fun he => h (he ▸ List.mem_append_right _ List.mem_cons_self)
    unfold Leads at hw
    rw [startWalk_append] at hw
    obtain ⟨⟨mnt, dir⟩, s₁, hw₁, hstep⟩ := Fallible.bind_eq_ok.1 hw
    have hdir := ih hnames hw₁
    rw [walkStep, if_neg hname] at hstep
    split_ifs at hstep
    · obtain ⟨hx, rfl⟩ := Prod.mk.inj (Option.some.inj hstep)
      obtain rfl := Except.ok.inj hx
      exact hdir
    obtain ⟨⟨m, cur, child⟩, s₂, hl, hrest⟩ := Fallible.bind_eq_ok.1 hstep
    obtain ⟨_, s₃, hrel, hlast⟩ := Fallible.bind_eq_ok.1 hrest
    obtain ⟨hx, rfl⟩ := Prod.mk.inj (Option.some.inj hlast)
    obtain rfl := Except.ok.inj hx
    obtain ⟨e, i, a, ino, fs, he, -, hpage, -, hcase⟩ := lookupChild_ok hl
    rcases hcase with ⟨rfl, rfl, rfl, rfl, -⟩ | ⟨rfl, rfl, rfl, -⟩
    · have hgrow := lookupChild_grow s₁ _ _ hl
      obtain ⟨s₄, hrel', hext⟩ := release_extends (hgrow.dentryAt he) (hgrow.putKeeps hdir)
      obtain ⟨-, rfl⟩ := Prod.mk.inj (Option.some.inj (hrel'.symm.trans hrel))
      obtain ⟨e', he', -, hpar, -⟩ := hext.dentry child _ dentryAt_put_self
      exact Or.inr ⟨e', he', hpar ▸ Option.some_ne_none _⟩
    · exact Or.inl (Or.inl rfl)

theorem putsParented_of_notMem (hr : Rooted s) (h : dotdot ∉ names) : PutsParented env s names := by
  rintro pre c post x t m cur child u rfl - hw hl
  have hdir := putKeeps_of_notMem hr (fun hmem => h (List.mem_append_left _ hmem)) hw
  obtain ⟨e, i, a, ino, fs, -, -, -, -, hcase⟩ := lookupChild_ok hl
  rcases hcase with ⟨rfl, rfl, -⟩ | ⟨rfl, -⟩
  · exact (lookupChild_grow t _ u hl).putKeeps hdir
  · exact Or.inl (Or.inl rfl)

/-! ## Paths -/

/-- The components of a path besides `.`. -/
def steps (path : List U8) : List (List U8) := (components path).filter (· ≠ dot)

theorem walk_steps (x : Mount × ℕ) (names : List (List U8)) :
    walk env x names = walk env x (names.filter (· ≠ dot)) := by
  induction names generalizing x with
  | nil => rfl
  | cons name names ih =>
    by_cases hname : name = dot
    · rw [List.filter_cons_of_neg (by simpa using hname), walk_cons, ← ih x, walkStep, if_pos hname]
      rfl
    · rw [List.filter_cons_of_pos (by simpa using hname), walk_cons, walk_cons]
      exact congrArg _ (funext fun y => ih y)

theorem vfsLookup_steps (path : List U8) :
    vfsLookup env path = start >>= fun x => walk env x (steps path) := by
  rw [vfsLookup_eq]
  exact congrArg _ (funext fun x => walk_steps x _)

theorem ne_dot_of_mem_steps {c : List U8} (h : c ∈ steps path) : c ≠ dot := by
  simpa using List.of_mem_filter h

theorem steps_ne_nil {pre : List (List U8)} {c : List U8} (hsteps : steps path = pre ++ [c]) :
    steps path ≠ [] := by
  rw [hsteps]
  exact List.append_ne_nil_of_right_ne_nil pre (List.cons_ne_nil c [])

/-! ## The state after a mount -/

/-- The state after a mount on the dentry `d` of `s`. -/
structure MountedAt (s t : State κ ι) (d : ℕ) (m : Mount) : Prop where
  mounts : t.mounts = m :: s.mounts
  mountpoint : m.mountpoint = some d
  rootMnt : t.rootMnt = s.rootMnt
  rootDent : t.rootDent = s.rootDent
  dentry : ∀ a e, dentryAt s a = some e → ∃ e', dentryAt t a = some e' ∧ e'.inode = e.inode ∧
    e'.parent = e.parent ∧ (a ≠ d → e'.isMountpoint = e.isMountpoint)
  marked : ∃ e, dentryAt t d = some e ∧ e.isMountpoint = true
  free : s.heap m.sb = none ∧ s.heap m.root = none ∧ s.heap m.page = none
  root : ∃ e, dentryAt t m.root = some e ∧ e.parent = none

theorem MountedAt.agrees (h : MountedAt s t d m) : Agrees s t :=
  ⟨h.rootMnt, h.rootDent, fun a e he => by
    obtain ⟨e', he', hi, hp, -⟩ := h.dentry a e he
    exact ⟨e', he', hi, hp⟩⟩

theorem mountTarget_some (h : mountTarget env path s = some (.ok (some d), t)) :
    ∃ m i, vfsLookup env path s = some (.ok (m, d), t) ∧ inodeAt t d = some i := by
  unfold mountTarget at h
  split_ifs at h
  · cases h
  obtain ⟨⟨m, d'⟩, s₁, hl, h₁⟩ := Fallible.bind_eq_ok.1 h
  obtain ⟨e, s₂, hd, h₂⟩ := Fallible.bind_eq_ok.1 h₁
  obtain ⟨hd, rfl⟩ := getDentry_eq_ok.1 hd
  rcases hi : e.inode with _ | i <;> rw [hi] at h₂
  · cases h₂
  dsimp only at h₂
  split_ifs at h₂
  · obtain ⟨hx, rfl⟩ := Prod.mk.inj (Option.some.inj h₂)
    obtain rfl := Option.some.inj (Except.ok.inj hx)
    exact ⟨m, i, hl, inodeAt_eq_some.2 ⟨e, hd, hi⟩⟩
  · cases h₂

/-- A mount that is not the first one. -/
theorem vfsMount_at {type : List U8} {device : ℕ} (hroot : s.rootMnt ≠ none)
    (h : vfsMount env type device path s = some (.ok (), t)) :
    ∃ p s₁ i m, vfsLookup env path s = some (.ok p, s₁) ∧ inodeAt s₁ p.2 = some i ∧
      MountedAt s₁ t p.2 m := by
  rcases vfsMount_cases h with ⟨e, he, -⟩ | ⟨-, s₁, s₂, m, ino, hmp, hnew, hadd⟩
  · cases he
  rcases hd : m.mountpoint with _ | d
  · rw [hd] at hmp
    exact absurd (mountTarget_none hmp) hroot
  rw [hd] at hmp
  obtain ⟨mnt, i, hl, hi⟩ := mountTarget_some hmp
  obtain ⟨-, hmounts, ⟨hnone, -⟩ | ⟨mp, e, hmpt, he, hrm, hrd, hheap⟩⟩ := addMount_cases hadd
  · rw [hd] at hnone
    cases hnone
  obtain rfl := Option.some.inj (hd.symm.trans hmpt)
  have hput : ∀ a, dentryAt t a = dentryAt (s₂.put d { e with isMountpoint := true }) a :=
    dentryAt_congr hheap
  refine ⟨(mnt, d), s₁, i, m, hl, hi, ?_, hd, hrm.trans hnew.grow.rootMnt,
    hrd.trans hnew.grow.rootDent, fun a e' he' => ?_, ?_, hnew.free, ?_⟩
  · rw [hmounts, hnew.grow.mounts]
  · have he₂ := hnew.grow.dentryAt he'
    by_cases had : a = d
    · subst had
      obtain rfl := Option.some.inj (he.symm.trans he₂)
      exact ⟨_, (hput a).trans dentryAt_put_self, rfl, rfl, fun hne => absurd rfl hne⟩
    · exact ⟨e', (hput a).trans ((dentryAt_put_of_ne had).trans he₂), rfl, rfl, fun _ => rfl⟩
  · exact ⟨_, (hput d).trans dentryAt_put_self, rfl⟩
  · by_cases hmr : m.root = d
    · have hne := hnew.root
      rw [hmr, he] at hne
      refine ⟨{ e with isMountpoint := true }, ?_, ?_⟩
      · rw [hput, hmr, dentryAt_put_self]
      · rw [Option.some.inj hne]
    · exact ⟨_, (hput m.root).trans ((dentryAt_put_of_ne hmr).trans hnew.root), rfl⟩

theorem start_none {r : Except ℤ (Mount × ℕ)} (hroot : s.rootMnt = none)
    (h : (start >>= fun y => walk env y names) s = some (r, t)) : r = .error EINVAL ∧ t = s := by
  have hstart : start s = some (.error EINVAL, s) := by rw [start, hroot]
  rw [Fallible.bind_error hstart] at h
  obtain ⟨rfl, rfl⟩ := Prod.mk.inj (Option.some.inj h)
  exact ⟨rfl, rfl⟩

/-- The first mount is the root. -/
theorem vfsMount_first {type : List U8} {device : ℕ} (hroot : s.rootMnt = none)
    (h : vfsMount env type device path s = some (.ok (), t)) :
    path.takeWhile (· != 0) = [slash] ∧ ∃ m ino, NewMount s { s with heap := t.heap, fs := t.fs } m ino ∧
      t.mounts = m :: s.mounts ∧ m.mountpoint = none ∧ t.rootMnt = some m ∧
        t.rootDent = some m.root := by
  rcases vfsMount_cases h with ⟨e, he, -⟩ | ⟨-, s₁, s₂, m, ino, hmp, hnew, hadd⟩
  · cases he
  have htarget : path.takeWhile (· != 0) = [slash] ∧ m.mountpoint = none ∧ s₁ = s := by
    unfold mountTarget at hmp
    split_ifs at hmp with hfirst
    · obtain ⟨hx, rfl⟩ := Prod.mk.inj (Option.some.inj hmp)
      exact ⟨hfirst.1, (Except.ok.inj hx).symm, rfl⟩
    · obtain ⟨p, s₃, hl, -⟩ := Fallible.bind_eq_ok.1 hmp
      rw [vfsLookup_steps] at hl
      cases (start_none hroot hl).1
  obtain ⟨hpath, hnone, rfl⟩ := htarget
  obtain ⟨-, hmounts, ⟨-, hrm, hrd, hheap⟩ | ⟨mp, -, hmpt, -⟩⟩ := addMount_cases hadd
  · refine ⟨hpath, m, ino, ?_, hmounts.trans (by rw [hnew.grow.mounts]), hnone, hrm, hrd⟩
    have hat : ∀ a, dentryAt ({ s₁ with heap := t.heap, fs := t.fs } : State κ ι) a = dentryAt s₂ a :=
      dentryAt_congr hheap
    refine ⟨⟨rfl, rfl, rfl, fun a ha => ?_⟩, hnew.free, ?_, (hat _).trans hnew.root, ?_⟩
    · exact (congrFun hheap a).trans (hnew.grow.heap a ha)
    · exact (congrFun hheap _).trans hnew.sb
    · exact (congrFun hheap _).trans hnew.page
  · rw [hnone] at hmpt
    cases hmpt

theorem MountedAt.intact (h : MountedAt s t d m) (hs : Intact s) (hd : Sound s d) : Intact t := by
  rintro a ⟨m', hm', ha⟩
  rw [h.mounts] at hm'
  rcases List.mem_cons.1 hm' with rfl | hm'
  · rcases ha with rfl | ha
    · obtain ⟨e, he, hp⟩ := h.root
      refine Sound.of_parent he fun b hb => ?_
      rw [hp] at hb
      cases hb
    · obtain rfl := Option.some.inj (h.mountpoint.symm.trans ha)
      exact h.agrees.sound hd
  · exact h.agrees.sound (hs a ⟨m', hm', ha⟩)

/-- A call of `vfs_mount` that frees nothing on its way leaves all dentries. -/
theorem vfsMount_intact {type : List U8} {device : ℕ} {r : Except ℤ Unit} (hr : Rooted s)
    (hs : Intact s) (hputs : PutsParented env s (steps path))
    (h : vfsMount env type device path s = some (r, t)) : Intact t := by
  have hlookup : ∀ {r s₁}, vfsLookup env path s = some (r, s₁) → StaysSound s r s₁ := fun hl => by
    rw [vfsLookup_steps] at hl
    exact walk_sound hr hs hputs hl
  have htarget : ∀ {r s₁}, mountTarget env path s = some (r, s₁) → Extends s s₁ := fun {r s₁} hmp => by
    unfold mountTarget at hmp
    split_ifs at hmp
    · obtain ⟨-, rfl⟩ := Prod.mk.inj (Option.some.inj hmp)
      exact .refl s
    rcases Fallible.bind_eq_some.1 hmp with ⟨e, hl, -⟩ | ⟨p, s₂, hl, h₂⟩
    · exact (hlookup hl).1
    · have hread : s₂ = s₁ := by
        refine Fallible.Keeps.bind (R := Eq) (fun _ _ _ => Eq.trans) getDentry_readOnly (fun e => ?_)
          s₂ _ s₁ h₂
        rcases e.inode with _ | i
        · exact Fallible.Keeps.throw (fun _ => rfl) _
        · dsimp only
          split_ifs
          · exact Fallible.Keeps.pure (fun _ => rfl) _
          · exact Fallible.Keeps.throw (fun _ => rfl) _
      exact hread ▸ (hlookup hl).1
  have hmount := h
  rw [vfsMount_eq] at h
  split_ifs at h
  swap
  · obtain ⟨-, rfl⟩ := Prod.mk.inj (Option.some.inj h)
    exact hs
  rcases Fallible.bind_eq_some.1 h with ⟨e, hm, rfl⟩ | ⟨m', s₂, -, hadd⟩
  · rcases newMount_spec hm with ⟨_, -, hmp⟩ | ⟨mp, s₁, hmp, ⟨_, -, hg⟩ | ⟨_, _, he, -⟩⟩
    · exact (htarget hmp).intact hs
    · exact ((htarget hmp).trans hg.extends).intact hs
    · cases he
  obtain ⟨rfl, -⟩ := addMount_cases hadd
  by_cases hroot : s.rootMnt = none
  · obtain ⟨-, m, ino, hnew, hmounts, hnone, -⟩ := vfsMount_first hroot hmount
    have hag : ∀ b, Sound s b → Sound t b := fun b hb => by
      have hu := hnew.grow.extends.agrees.sound hb
      exact fun c hc => hu c hc
    rintro a ⟨m', hm', ha⟩
    rw [hmounts] at hm'
    rcases List.mem_cons.1 hm' with rfl | hm'
    · rcases ha with rfl | ha
      · exact Sound.of_parent hnew.root fun b hb => by cases hb
      · rw [hnone] at ha
        cases ha
    · exact hag a (hs a ⟨m', hm', ha⟩)
  · obtain ⟨p, s₁, i, m, hl, -, hat⟩ := vfsMount_at hroot hmount
    obtain ⟨hext, hp⟩ := hlookup hl
    exact hat.intact (hext.intact hs) (hp p rfl).2

/-- Every call looks its target up without freeing a directory, so no anchor is ever freed. -/
theorem intact_of_run {fsTypes : List (List U8)} {fs : κ} {calls : List (List U8 × ℕ × List U8)}
    (hputs : Run.EachStep (mountStep env) (fun s c => PutsParented env s (steps c.2.2))
      (init fsTypes fs) calls)
    (h : Run.run (mountStep env) (init fsTypes fs) calls = some s) : Mounted s ∧ Intact s := by
  refine Run.Always.last (P := fun s => Mounted s ∧ Intact s)
    (Run.always_of_eachStep ?_ ?_ hputs) h
  · rintro s ⟨type, device, target⟩ t ⟨hm, hs⟩ hc hstep
    obtain ⟨⟨r, t'⟩, hmount, rfl⟩ := Option.map_eq_some_iff.1 hstep
    exact ⟨hm.vfsMount hmount, vfsMount_intact hm.rooted hs hc hmount⟩
  · refine ⟨mounted_init, ?_⟩
    rintro a ⟨m, hm, -⟩
    exact absurd hm List.not_mem_nil

/-! ## What covers an inode after a mount -/

theorem covering_agrees (h : Agrees s t) {ms : List Mount}
    (hlive : ∀ m ∈ ms, ∀ a, m.mountpoint = some a → Live s a) : covering t i ms = covering s i ms := by
  have hs := findByInode_eq h hlive i
  have ht := findByInode_eq (Agrees.refl t) (fun m hm a ha => h.live (hlive m hm a ha)) i
  exact Except.ok.inj (Prod.mk.inj (Option.some.inj (ht.symm.trans hs))).1

/-- The new mount covers the inode it has been mounted on, and nothing else changes. -/
theorem covering_mountedAt (hs : Intact s) (hext : Extends s u) (h : MountedAt u t d m)
    (hj : inodeAt u d = some j) :
    covering t i t.mounts = if j.Same i then some m else covering s i s.mounts := by
  have hat : inodeAt t d = some j := by
    obtain ⟨e, he, -⟩ := inodeAt_eq_some.1 hj
    rw [inodeAt_of_agrees h.agrees ⟨e, he⟩, hj]
  have hrest : covering t i s.mounts = covering s i s.mounts :=
    covering_agrees (hext.agrees.trans h.agrees) fun m hm a => hs.mountpoint hm
  rw [h.mounts, hext.mounts, covering, List.find?_cons, h.mountpoint, Option.bind_some, hat]
  by_cases hsame : j.Same i
  · simp [hsame]
  · rw [if_neg hsame, ← hrest]
    simp [hsame, covering]

/-- A walk starts as before if the root dentry has its mark and the same mount over it. -/
theorem start_congr (hrm : t.rootMnt = s.rootMnt) (hrd : t.rootDent = s.rootDent)
    (hmark : ∀ r e, s.rootDent = some r → dentryAt s r = some e →
      ∃ e', dentryAt t r = some e' ∧ e'.isMountpoint = e.isMountpoint)
    (hfind : ∀ r, s.rootDent = some r → t.mounts.find? (fun m => m.mountpoint = some r) =
      s.mounts.find? fun m => m.mountpoint = some r) {r : Except ℤ (Mount × ℕ)}
    (h : start s = some (r, s)) : start t = some (r, t) := by
  unfold start at h ⊢
  rw [hrm, hrd]
  rcases hm : s.rootMnt with _ | m <;> rcases hr : s.rootDent with _ | d <;> rw [hm, hr] at h
  · obtain ⟨rfl, -⟩ := Prod.mk.inj (Option.some.inj h)
    rfl
  · obtain ⟨rfl, -⟩ := Prod.mk.inj (Option.some.inj h)
    rfl
  · obtain ⟨rfl, -⟩ := Prod.mk.inj (Option.some.inj h)
    rfl
  dsimp only at h ⊢
  unfold followOverlay at h ⊢
  rcases Fallible.bind_eq_some.1 h with ⟨e, hd, -⟩ | ⟨e, s₁, hd, h₁⟩
  · exact absurd hd getDentry_ne_error
  obtain ⟨hd, rfl⟩ := getDentry_eq_ok.1 hd
  obtain ⟨e', he', hmarked⟩ := hmark d e hr hd
  rw [Fallible.bind_ok (getDentry_of he'), hmarked]
  by_cases hmp : e.isMountpoint = true
  · rw [if_pos hmp] at h₁ ⊢
    have hover : ∀ v : State κ ι, v.mounts.find? (fun m => m.mountpoint = some d) =
        s₁.mounts.find? (fun m => m.mountpoint = some d) → findMountByMountpoint d v =
          some (.ok (s₁.mounts.find? fun m => m.mountpoint = some d), v) := fun v hv => by
      rw [findMountByMountpoint, hv]
    rw [Fallible.bind_ok (hover s₁ rfl)] at h₁
    rw [Fallible.bind_ok (hover t (hfind d hr))]
    rcases hfound : s₁.mounts.find? (fun m => m.mountpoint = some d) with _ | o <;> rw [hfound] at h₁ ⊢
    · obtain ⟨rfl, -⟩ := Prod.mk.inj (Option.some.inj h₁)
      rfl
    · obtain ⟨rfl, -⟩ := Prod.mk.inj (Option.some.inj h₁)
      rfl
  · rw [if_neg hmp] at h₁ ⊢
    obtain ⟨rfl, -⟩ := Prod.mk.inj (Option.some.inj h₁)
    rfl

theorem start_mountedAt (hext : Extends s u) (h : MountedAt u t d m) (hd : s.rootDent ≠ some d)
    {r : Except ℤ (Mount × ℕ)} (hstart : start s = some (r, s)) : start t = some (r, t) := by
  refine start_congr (h.rootMnt.trans hext.rootMnt) (h.rootDent.trans hext.rootDent) ?_ ?_ hstart
  · intro a e ha he
    obtain ⟨e', he', -, -, hm⟩ := hext.dentry a e he
    obtain ⟨e'', he'', -, -, hm'⟩ := h.dentry a e' he'
    exact ⟨e'', he'', (hm' fun had => hd (had ▸ ha)).trans hm⟩
  · intro a ha
    have hne : m.mountpoint ≠ some a := fun had => hd (ha.trans (had.symm.trans h.mountpoint))
    rw [h.mounts, hext.mounts, List.find?_cons, decide_eq_false hne]

/-- A mount on the root dentry is where walks start. -/
theorem start_mountedAt_root (hroot : s.rootMnt ≠ none) (hext : Extends s u)
    (h : MountedAt u t d m) (hd : s.rootDent = some d) : start t = some (.ok (m, m.root), t) := by
  obtain ⟨m₀, hm₀⟩ := Option.ne_none_iff_exists'.1 hroot
  obtain ⟨e, he, hmark⟩ := h.marked
  have hfind : findMountByMountpoint d t = some (.ok (some m), t) := by
    rw [findMountByMountpoint, h.mounts, List.find?_cons, decide_eq_true h.mountpoint]
  rw [start, h.rootMnt, hext.rootMnt, hm₀, h.rootDent, hext.rootDent, hd]
  dsimp only
  rw [followOverlay, Fallible.bind_ok (getDentry_of he), if_pos hmark, Fallible.bind_ok hfind]
  rfl

/-! ## The last step -/

theorem childInode_of_lookupChild (hs : Intact s) (hx : Extends s x) {z : Mount × ℕ × ℕ}
    (h : lookupChild env mnt dir name x = some (.ok z, y)) :
    ∃ i, childInode env x (inodeAt x dir) name = .ok i := by
  obtain ⟨m, cur, child⟩ := z
  obtain ⟨e, -, a, -, -, he, -, hpage, -⟩ := lookupChild_ok h
  have hat : inodeAt x dir = e.inode := by rw [inodeAt, he]; rfl
  have hspec := lookupChild_eq mnt name hs hx he hpage
  rw [hat]
  rcases hk : childInode env x e.inode name with err | i
  · rw [hk] at hspec
    obtain ⟨x', hx'⟩ := hspec
    cases h.symm.trans hx'
  · exact ⟨i, rfl⟩

/-- A step down, and the inode it leads to. -/
theorem walkStep_ok (hs : Intact s) (hx : Extends s x) (hname : ¬IsDots name)
    (hputs : ∀ m cur child u, lookupChild env p.1 p.2 name x = some (.ok (m, cur, child), u) →
      PutKeeps u (m, cur))
    (h : walkStep env p name x = some (.ok q, y)) :
    ∃ i, childInode env x (inodeAt x p.2) name = .ok i ∧
      (covering s i s.mounts = none ∧ inodeAt y q.2 = some i ∨
        ∃ m, covering s i s.mounts = some m ∧ q = (m, m.root)) := by
  obtain ⟨mnt, dir⟩ := p
  have hdot : name ≠ dot := fun he => hname (Or.inl he)
  have hdotdot : name ≠ dotdot := fun he => hname (Or.inr he)
  rw [walkStep, if_neg hdot, if_neg hdotdot] at h
  obtain ⟨⟨m, cur, child⟩, x₁, hl, h₁⟩ := Fallible.bind_eq_ok.1 h
  obtain ⟨e, -, a, -, -, he, -, hpage, -⟩ := lookupChild_ok hl
  have hat : inodeAt x dir = e.inode := by rw [inodeAt, he]; rfl
  have hspec := lookupChild_eq mnt name hs hx he hpage
  obtain ⟨i, hk⟩ := childInode_of_lookupChild hs hx hl
  rw [hat] at hk
  rw [hk] at hspec
  obtain ⟨fs, hspec⟩ := hspec
  rw [hx.mounts] at hspec
  refine ⟨i, by rw [hat, hk], ?_⟩
  dsimp only at h₁
  obtain ⟨_, x₂, hrel, h₂⟩ := Fallible.bind_eq_ok.1 h₁
  obtain ⟨hq, rfl⟩ := Prod.mk.inj (Option.some.inj h₂)
  obtain rfl := Except.ok.inj hq
  rcases hcov : covering s i s.mounts with _ | sub <;> rw [hcov] at hspec
  · obtain ⟨hz, rfl⟩ := Prod.mk.inj (Option.some.inj (hl.symm.trans hspec))
    obtain ⟨rfl, rfl, rfl⟩ : m = mnt ∧ cur = dir ∧ child = a := by
      simpa only [Except.ok.injEq, Prod.mk.injEq] using hz
    have hcur : dentryAt (x.withChild fs child cur name 1 i) cur = some e :=
      (dentryAt_withChild_of_ne (ne_of_free he (env.kalloc_fresh x child hpage))).trans he
    obtain ⟨x₃, hrel', hext⟩ := release_extends hcur (hputs _ _ _ _ hl)
    obtain ⟨-, rfl⟩ := Prod.mk.inj (Option.some.inj (hrel'.symm.trans hrel))
    obtain ⟨e', he', hino, -⟩ := hext.dentry child _ dentryAt_put_self
    exact Or.inl ⟨rfl, inodeAt_eq_some.2 ⟨e', he', hino⟩⟩
  · obtain ⟨hz, rfl⟩ := Prod.mk.inj (Option.some.inj (hl.symm.trans hspec))
    obtain ⟨rfl, rfl, rfl⟩ : m = sub ∧ cur = sub.root ∧ child = sub.root := by
      simpa only [Except.ok.injEq, Prod.mk.injEq] using hz
    exact Or.inr ⟨m, rfl, rfl⟩

/-- A step down where the file system has an inode for the name. -/
theorem walkStep_of_child (hs : Intact s) (hx : Extends s x) (hname : ¬IsDots name)
    (hlive : Live x p.2) (hpage : (env.kalloc x).1 ≠ none)
    (hi : childInode env x (inodeAt x p.2) name = .ok i) :
    ∃ q y, walkStep env p name x = some (.ok q, y) ∧
      match covering s i s.mounts with
      | none => inodeAt y q.2 = some i
      | some m => q.2 = m.root ∧ inodeAt y m.root = inodeAt s m.root := by
  obtain ⟨mnt, dir⟩ := p
  obtain ⟨e, he⟩ := hlive
  obtain ⟨a, ha⟩ := Option.ne_none_iff_exists'.1 hpage
  have hdot : name ≠ dot := fun he => hname (Or.inl he)
  have hdotdot : name ≠ dotdot := fun he => hname (Or.inr he)
  have hat : inodeAt x dir = e.inode := by rw [inodeAt, he]; rfl
  have hspec := lookupChild_eq mnt name hs hx he ha
  rw [hat] at hi
  rw [hi] at hspec
  obtain ⟨fs, hspec⟩ := hspec
  rw [hx.mounts] at hspec
  have hstep : ∀ {z v}, lookupChild env mnt dir name x = some (.ok z, v) →
      ∃ y, walkStep env (mnt, dir) name x = some (.ok (z.1, z.2.2), y) ∧
        inodeAt y z.2.2 = inodeAt v z.2.2 := fun {z v} hl => by
    obtain ⟨y, hrel, hino⟩ := release_of_lookupChild hl
    rw [walkStep, if_neg hdot, if_neg hdotdot, Fallible.bind_ok hl]
    dsimp only
    rw [Fallible.bind_ok hrel]
    exact ⟨y, rfl, hino⟩
  rcases hcov : covering s i s.mounts with _ | sub <;> rw [hcov] at hspec
  · obtain ⟨y, hy, hino⟩ := hstep hspec
    refine ⟨_, y, hy, ?_⟩
    rw [hino]
    exact inodeAt_eq_some.2 ⟨_, dentryAt_put_self, rfl⟩
  · obtain ⟨y, hy, hino⟩ := hstep hspec
    refine ⟨_, y, hy, rfl, ?_⟩
    rw [hino]
    have hext : Extends s (x.withChild fs a dir name 0 i) :=
      hx.trans (withChild_extends (env.kalloc_fresh x a ha))
    exact inodeAt_of_agrees hext.agrees (hs _ ⟨sub, covering_mem hcov, Or.inl rfl⟩).live

/-- A step down into a mount. -/
theorem walkStep_covered (hs : Intact s) (hx : Extends s x) (hname : ¬IsDots name)
    (hlive : Live x p.2) (hpage : (env.kalloc x).1 ≠ none)
    (hi : childInode env x (inodeAt x p.2) name = .ok i) (hcov : covering s i s.mounts = some m) :
    ∃ y, walkStep env p name x = some (.ok (m, m.root), y) := by
  obtain ⟨mnt, dir⟩ := p
  obtain ⟨e, he⟩ := hlive
  obtain ⟨a, ha⟩ := Option.ne_none_iff_exists'.1 hpage
  have hdot : name ≠ dot := fun he => hname (Or.inl he)
  have hdotdot : name ≠ dotdot := fun he => hname (Or.inr he)
  have hat : inodeAt x dir = e.inode := by rw [inodeAt, he]; rfl
  have hspec := lookupChild_eq mnt name hs hx he ha
  rw [hat] at hi
  rw [hi] at hspec
  obtain ⟨fs, hspec⟩ := hspec
  rw [hx.mounts, hcov] at hspec
  rw [walkStep, if_neg hdot, if_neg hdotdot, Fallible.bind_ok hspec]
  dsimp only
  rw [Fallible.bind_ok (release_atTop (x := (m, m.root)) (Or.inl rfl))]
  exact ⟨_, rfl⟩

theorem Leads.unique {x' : Mount × ℕ} {t' : State κ ι} (h : Leads env s names p t)
    (h' : Leads env s names x' t') : p = x' ∧ t = t' := by
  obtain ⟨hp, ht⟩ := Prod.mk.inj (Option.some.inj (h.symm.trans h'))
  exact ⟨Except.ok.inj hp, ht⟩

theorem HasChild.unique (h : HasChild env s names name i) (h' : HasChild env s names name j) :
    i = j := by
  obtain ⟨x, t, hw, hi⟩ := h
  obtain ⟨x', t', hw', hj⟩ := h'
  obtain ⟨rfl, rfl⟩ := hw.unique hw'
  exact Except.ok.inj (hi.symm.trans hj)

/-- A walk that has returned has gone down at each of its names. -/
theorem Leads.lookupChild_ok {pre post : List (List U8)} {c : List U8}
    (h : Leads env s (pre ++ c :: post) p t) (hc : ¬IsDots c) (hw : Leads env s pre q u) :
    ∃ z v, lookupChild env q.1 q.2 c u = some (.ok z, v) := by
  unfold Leads at h hw
  have hsplit : (start >>= fun y => walk env y (pre ++ c :: post) : VfsM κ ι _) =
      (start >>= fun y => walk env y pre) >>= fun z => walkStep env z c >>= fun y => walk env y post := by
    simp only [bind_assoc, walk_append, walk_cons]
  rw [hsplit, Fallible.bind_ok hw] at h
  obtain ⟨z, v, hstep, -⟩ := Fallible.bind_eq_ok.1 h
  obtain ⟨mnt, dir⟩ := q
  rw [walkStep, if_neg fun he => hc (Or.inl he), if_neg fun he => hc (Or.inr he)] at hstep
  obtain ⟨z, v₁, hl, -⟩ := Fallible.bind_eq_ok.1 hstep
  exact ⟨z, v₁, hl⟩

/-- A walk that has returned had its pages. -/
theorem Leads.supplied (h : Leads env s names p t) : Supplied env s names := by
  rintro pre c post x u rfl hc hw
  obtain ⟨⟨m, cur, child⟩, v, hl⟩ := h.lookupChild_ok hc hw
  obtain ⟨-, -, a, -, -, -, -, hpage, -⟩ := Vfs.lookupChild_ok hl
  exact hpage ▸ Option.some_ne_none a

/-! ## The walk to a new mount -/

/-- The path leads to what a mount on it would cover : it is the first mount, or nothing is mounted over
the root, or the inode that the file system gives for the last component is the one the path leads to. -/
inductive Shows (env : Env κ ι) (s : State κ ι) (path : List U8) : Prop where
  | first (h : s.rootMnt = none)
  | root (hp : steps path = []) (h : ∀ p, start s = some (.ok p, s) → s.rootDent = some p.2)
  | child {pre : List (List U8)} {c : List U8} {i : Inode ι} (hp : steps path = pre ++ [c])
      (hc : ¬IsDots c) (hi : HasChild env s pre c i)
      (h : ∀ m, covering s i s.mounts = some m → ∃ j, inodeAt s m.root = some j ∧ j.Same i)

/-- The path leads to the root dentry by other components, or it comes by the inode it leads to before
its last component. -/
def MetEarly (env : Env κ ι) (s : State κ ι) (path : List U8) : Prop :=
  ∃ p u, vfsLookup env path s = some (.ok p, u) ∧
    (steps path ≠ [] ∧ s.rootDent = some p.2 ∨
      ∃ pre c post i j, steps path = pre ++ c :: post ∧ post ≠ [] ∧ ¬IsDots c ∧
        HasChild env s pre c i ∧ inodeAt u p.2 = some j ∧ j.Same i)

/-- The path leads to where it did before the mount `m`. -/
def Hidden (env : Env κ ι) (A : Inode ι → Inode ι → Prop) (s : State κ ι) (path : List U8)
    (p : Mount × ℕ) (u t : State κ ι) (m : Mount) : Prop :=
  s.rootDent ≠ some p.2 ∧ ∃ q v, vfsLookup env path t = some (.ok q, v) ∧ Mirrored A s t p u q v ∧
    q.1 ≠ m

/-- A mount on what `path` leads to in `s` : the walk has left the state `u`, and the mount `t`. -/
structure Mounting (env : Env κ ι) (A : Inode ι → Inode ι → Prop) (s : State κ ι) (path : List U8)
    (p : Mount × ℕ) (u : State κ ι) (j : Inode ι) (t : State κ ι) (m : Mount) : Prop where
  mounted : Mounted s
  intact : Intact s
  stable : Stable env A
  puts : PutsParented env s (steps path)
  lookup : vfsLookup env path s = some (.ok p, u)
  inode : inodeAt u p.2 = some j
  after : MountedAt u t p.2 m
  pages : Supplied env t (steps path)

namespace Mounting

variable (h : Mounting env A s path p u j t m)
include h

theorem leads : Leads env s (steps path) p u := by
  have hl := h.lookup
  rwa [vfsLookup_steps] at hl

theorem staysSound : StaysSound s (.ok p) u := walk_sound h.mounted.rooted h.intact h.puts h.leads

theorem extends_walk : Extends s u := h.staysSound.1

theorem agrees : Agrees s t := h.extends_walk.agrees.trans h.after.agrees

theorem intact_after : Intact t :=
  h.after.intact (h.extends_walk.intact h.intact) (h.staysSound.2 p rfl).2

theorem rootMnt_ne_none : s.rootMnt ≠ none := fun hnone => by cases (start_none hnone h.leads).1

/-- The root of the new mount is none of the old ones. -/
theorem notMem : m ∉ s.mounts := by
  intro hm
  obtain ⟨e, he⟩ := h.extends_walk.live (h.intact _ ⟨m, hm, Or.inl rfl⟩).live
  rw [dentryAt_eq_none h.after.free.2.1] at he
  cases he

theorem covering_eq : covering t i t.mounts = if j.Same i then some m else covering s i s.mounts :=
  covering_mountedAt h.intact h.extends_walk h.after h.inode

theorem start_eq (hd : s.rootDent ≠ some p.2) {r : Except ℤ (Mount × ℕ)}
    (hstart : start s = some (r, s)) : start t = some (r, t) :=
  start_mountedAt h.extends_walk h.after hd hstart

/-- Until a walk meets the new mount it goes on as before. -/
theorem walks {post : List (List U8)} (hsteps : steps path = names ++ post)
    (hd : s.rootDent ≠ some p.2)
    (hmet : ∀ pre c post i, names = pre ++ c :: post → ¬IsDots c → HasChild env s pre c i → ¬j.Same i) :
    Fallible.EndsAlike (Mirrored A s t) ((start >>= fun y => walk env y names) s)
      ((start >>= fun y => walk env y names) t) := by
  have hputs := h.puts
  have hpages := h.leads.supplied
  have hpages' := h.pages
  rw [hsteps] at hputs hpages hpages'
  refine walks_alike h.stable h.agrees h.mounted.rooted h.intact h.intact_after (fun r => h.start_eq hd)
    hputs.of_append hpages.of_append hpages'.of_append fun pre c post i he hc hi => ?_
  rw [h.covering_eq, if_neg (hmet pre c post i he hc hi)]

theorem mirrored_of_alike
    (hw : Fallible.EndsAlike (Mirrored A s t) ((start >>= fun y => walk env y (steps path)) s)
      ((start >>= fun y => walk env y (steps path)) t)) :
    ∃ q v, vfsLookup env path t = some (.ok q, v) ∧ Mirrored A s t p u q v ∧ q.1 ≠ m := by
  rw [← vfsLookup_steps, h.lookup] at hw
  generalize hq : vfsLookup env path t = r at hw
  obtain _ | hpq := hw
  refine ⟨_, _, rfl, hpq, fun he => h.notMem ?_⟩
  exact he ▸ hpq.mount ▸ hpq.mem

/-- Only its last component leads to the new mount. -/
theorem met_last (hmet : ¬MetEarly env s path) {pre post : List (List U8)} {c : List U8}
    (he : steps path = pre ++ c :: post) (hc : ¬IsDots c) (hi : HasChild env s pre c i)
    (hsame : j.Same i) : post = [] := by
  by_contra hpost
  exact hmet ⟨p, u, h.lookup, Or.inr ⟨pre, c, post, i, j, he, hpost, hc, hi, h.inode, hsame⟩⟩

theorem rootDent_ne (hmet : ¬MetEarly env s path) (hne : steps path ≠ []) : s.rootDent ≠ some p.2 :=
  fun hd => hmet ⟨p, u, h.lookup, Or.inl ⟨hne, hd⟩⟩

/-- A path without components. -/
theorem lookup_root (hsteps : steps path = []) :
    Shows env s path ∧ (∃ v, vfsLookup env path t = some (.ok (m, m.root), v)) ∨
      ¬Shows env s path ∧ Hidden env A s path p u t m := by
  have hroot := h.rootMnt_ne_none
  have hne : ∀ (pre : List (List U8)) c post, steps path ≠ pre ++ c :: post := fun pre c post he => by
    rw [hsteps] at he
    exact List.append_ne_nil_of_right_ne_nil pre (List.cons_ne_nil c post) he.symm
  have hl := h.leads
  rw [hsteps] at hl
  obtain ⟨p', s₁, hstart, hpure⟩ := Fallible.bind_eq_ok.1 hl
  obtain ⟨rfl, -⟩ := start_top h.mounted.rooted hstart
  obtain ⟨hp, rfl⟩ := Prod.mk.inj (Option.some.inj hpure)
  obtain rfl := Except.ok.inj hp
  by_cases hd : s₁.rootDent = some p'.2
  · refine Or.inl ⟨.root hsteps fun q hq => ?_, t, ?_⟩
    · obtain ⟨hpq, -⟩ := Prod.mk.inj (Option.some.inj (hstart.symm.trans hq))
      exact Except.ok.inj hpq ▸ hd
    · rw [vfsLookup_steps, hsteps, Fallible.bind_ok
        (start_mountedAt_root hroot h.extends_walk h.after hd)]
      rfl
  · refine Or.inr ⟨fun hshows => ?_, hd, h.mirrored_of_alike ?_⟩
    · cases hshows with
      | first hnone => exact hroot hnone
      | root _ hq => exact hd (hq p' hstart)
      | child hp => exact hne _ _ _ hp
    · exact h.walks (List.append_nil _).symm hd fun pre c post i he => absurd he (hne pre c post)

/-- A path that `..` ends. -/
theorem lookup_dotdot {pre : List (List U8)} (hmet : ¬MetEarly env s path)
    (hsteps : steps path = pre ++ [dotdot]) :
    ¬Shows env s path ∧ Hidden env A s path p u t m := by
  have hne : steps path ≠ [] := steps_ne_nil hsteps
  have hd : s.rootDent ≠ some p.2 := h.rootDent_ne hmet hne
  refine ⟨fun hshows => ?_, hd, h.mirrored_of_alike ?_⟩
  · cases hshows with
    | first hnone => exact h.rootMnt_ne_none hnone
    | root hnil => exact hne hnil
    | child hp hc =>
      obtain ⟨-, hlast⟩ := List.append_inj' (hsteps.symm.trans hp) rfl
      exact hc (Or.inr (List.singleton_inj.1 hlast).symm)
  · refine h.walks (List.append_nil _).symm hd fun pre' c post i he hc hi hsame => ?_
    obtain rfl := h.met_last hmet he hc hi hsame
    obtain ⟨-, hlast⟩ := List.append_inj' (hsteps.symm.trans he) rfl
    exact hc (Or.inr (List.singleton_inj.1 hlast).symm)

/-- A path with a name at its end. -/
theorem lookup_child {pre : List (List U8)} {c : List U8} (hmet : ¬MetEarly env s path)
    (hsteps : steps path = pre ++ [c]) (hc : ¬IsDots c) :
    Shows env s path ∧ (∃ v, vfsLookup env path t = some (.ok (m, m.root), v)) ∨
      ¬Shows env s path ∧ Hidden env A s path p u t m := by
  have hne : steps path ≠ [] := steps_ne_nil hsteps
  have hd : s.rootDent ≠ some p.2 := h.rootDent_ne hmet hne
  have hputs := h.puts
  rw [hsteps] at hputs
  -- the walk in front of the last component
  have hl := h.leads
  unfold Leads at hl
  rw [hsteps, startWalk_append] at hl
  obtain ⟨p₁, s₁, hw, hstep⟩ := Fallible.bind_eq_ok.1 hl
  obtain ⟨hext, hsound⟩ := walk_sound h.mounted.rooted h.intact hputs.of_append hw
  obtain ⟨i, hi, hcase⟩ := walkStep_ok h.intact hext hc
    (fun m cur child u => hputs pre c [] p₁ s₁ m cur child u rfl hc hw) hstep
  have hchild : HasChild env s pre c i := ⟨p₁, s₁, hw, hi⟩
  have hmark : j.Same i ↔
      ∀ sub, covering s i s.mounts = some sub → ∃ k, inodeAt s sub.root = some k ∧ k.Same i := by
    rcases hcase with ⟨hnone, hino⟩ | ⟨sub, hsub, rfl⟩
    · obtain rfl := Option.some.inj (h.inode.symm.trans hino)
      exact iff_of_true ⟨rfl, rfl⟩ fun sub hsub => by rw [hnone] at hsub; cases hsub
    · have hlive := (h.intact _ ⟨sub, covering_mem hsub, Or.inl rfl⟩).live
      have hat : inodeAt s sub.root = some j := by
        rw [← inodeAt_of_agrees h.extends_walk.agrees hlive, h.inode]
      constructor
      · rintro hsame sub' hsub'
        obtain rfl := Option.some.inj (hsub.symm.trans hsub')
        exact ⟨j, hat, hsame⟩
      · intro hall
        obtain ⟨k, hk, hsame⟩ := hall sub hsub
        obtain rfl := Option.some.inj (hat.symm.trans hk)
        exact hsame
  have hearly : ∀ pre' c' post i', pre = pre' ++ c' :: post → ¬IsDots c' → HasChild env s pre' c' i' →
      ¬j.Same i' := fun pre' c' post i' he hc' hi' hsame => by
    have hsplit : steps path = pre' ++ c' :: (post ++ [c]) := by
      rw [hsteps, he, List.append_assoc, List.cons_append]
    exact List.append_ne_nil_of_right_ne_nil post (List.cons_ne_nil c [])
      (h.met_last hmet hsplit hc' hi' hsame)
  by_cases hsame : j.Same i
  · refine Or.inl ⟨.child hsteps hc hchild (hmark.1 hsame), ?_⟩
    have halike := h.walks hsteps hd hearly
    rw [hw] at halike
    generalize hq : (start >>= fun y => walk env y pre : VfsM κ ι _) t = r at halike
    obtain _ | @⟨_, q, _, v, hpq⟩ := halike
    obtain ⟨e, e', he, he', hino, -⟩ := hpq.mirror.dentry h.stable.relates h.agrees hpq.left hpq.right
    have hx : inodeAt s₁ p₁.2 = e.inode := by rw [inodeAt, he]; rfl
    have hy : inodeAt v q.2 = e'.inode := by rw [inodeAt, he']; rfl
    rcases childInode_alike (x := s₁) (y := v) c h.stable hino with ⟨err, hk, -⟩ | ⟨k, l, hk, hl', hkl⟩
    · rw [hx, hk] at hi
      cases hi
    obtain rfl := Except.ok.inj ((hx ▸ hi).symm.trans hk)
    have hcov : covering t l t.mounts = some m := by
      rw [h.covering_eq, if_pos (hsame.trans (h.stable.same hkl))]
    have hpages := h.pages pre c [] q v (hsteps) hc hq
    obtain ⟨y, hy'⟩ := walkStep_covered h.intact_after hpq.right hc ⟨e', he'⟩ hpages (hy ▸ hl') hcov
    refine ⟨y, ?_⟩
    rw [vfsLookup_steps, hsteps, startWalk_append, Fallible.bind_ok hq, hy']
  · refine Or.inr ⟨fun hshows => ?_, hd, h.mirrored_of_alike ?_⟩
    · cases hshows with
      | first hnone => exact h.rootMnt_ne_none hnone
      | root hnil => exact hne hnil
      | child hp hc' hi' hall =>
        obtain ⟨rfl, hlast⟩ := List.append_inj' (hsteps.symm.trans hp) rfl
        obtain rfl := List.singleton_inj.1 hlast
        obtain rfl := hi'.unique hchild
        exact hsame (hmark.2 hall)
    · refine h.walks (List.append_nil _).symm hd fun pre' c' post i' he hc' hi' hsame' => ?_
      obtain rfl := h.met_last hmet he hc' hi' hsame'
      obtain ⟨rfl, hlast⟩ := List.append_inj' (hsteps.symm.trans he) rfl
      obtain rfl := List.singleton_inj.1 hlast
      obtain rfl := hi'.unique hchild
      exact hsame hsame'

/-- Where the path leads to after the mount : to its root, or to where it did before. -/
theorem lookup_cases (hmet : ¬MetEarly env s path) :
    Shows env s path ∧ (∃ v, vfsLookup env path t = some (.ok (m, m.root), v)) ∨
      ¬Shows env s path ∧ Hidden env A s path p u t m := by
  rcases List.eq_nil_or_concat (steps path) with hsteps | ⟨pre, c, hsteps⟩
  · exact h.lookup_root hsteps
  rw [List.concat_eq_append] at hsteps
  by_cases hc : IsDots c
  · rcases hc with rfl | rfl
    · have hmem : dot ∈ steps path := hsteps ▸ List.mem_append_right _ List.mem_cons_self
      exact absurd rfl (ne_dot_of_mem_steps hmem)
    · exact Or.inr (h.lookup_dotdot hmet hsteps)
  · exact h.lookup_child hmet hsteps hc

theorem visible_iff (hmet : ¬MetEarly env s path) :
    (∃ v, vfsLookup env path t = some (.ok (m, m.root), v)) ↔ Shows env s path := by
  rcases h.lookup_cases hmet with ⟨hshows, hv⟩ | ⟨hshows, -, q, v, hq, -, hne⟩
  · exact iff_of_true hv hshows
  · refine iff_of_false (fun ⟨v', hv⟩ => hne ?_) hshows
    rw [hq] at hv
    rw [Except.ok.inj (Prod.mk.inj (Option.some.inj hv)).1]

end Mounting

theorem components_root (h : path.takeWhile (· != 0) = [slash]) : components path = [] := by
  rw [components, h]
  decide

/-- The first mount is what walks start at. -/
theorem lookup_first {type : List U8} {device : ℕ} (hroot : s.rootMnt = none)
    (h : vfsMount env type device path s = some (.ok (), t)) :
    ∃ m, t.mounts = m :: s.mounts ∧ vfsLookup env path t = some (.ok (m, m.root), t) := by
  obtain ⟨hpath, m, ino, hnew, hmounts, -, hrm, hrd⟩ := vfsMount_first hroot h
  have hdent : dentryAt t m.root = some ⟨1, [slash], some ino, none, false⟩ := hnew.root
  have hstart : start t = some (.ok (m, m.root), t) := by
    rw [start, hrm, hrd]
    dsimp only
    rw [followOverlay, Fallible.bind_ok (getDentry_of hdent), if_neg Bool.false_ne_true]
    rfl
  refine ⟨m, hmounts, ?_⟩
  rw [vfsLookup_eq, components_root hpath, Fallible.bind_ok hstart]
  rfl

theorem split_of_single {c c' : List U8} {pre post : List (List U8)} (hsteps : steps path = [c])
    (he : steps path = pre ++ c' :: post) : pre = [] ∧ post = [] := by
  rw [hsteps] at he
  rcases pre with _ | ⟨c₀, pre⟩
  · exact ⟨rfl, (List.cons_eq_cons.1 he).2.symm⟩
  · exact absurd (List.cons_eq_cons.1 he).2.symm (List.append_ne_nil_of_right_ne_nil pre nofun)

theorem supplied_of_single {c : List U8} (hsteps : steps path = [c]) (hr : Rooted s)
    (hpage : (env.kalloc s).1 ≠ none) : Supplied env s (steps path) := by
  intro pre c post x u he _ hw
  obtain ⟨rfl, -⟩ := split_of_single hsteps he
  obtain ⟨y, v, hstart, hpure⟩ := Fallible.bind_eq_ok.1 hw
  obtain ⟨rfl, -⟩ := start_top hr hstart
  obtain ⟨-, rfl⟩ := Prod.mk.inj (Option.some.inj hpure)
  exact hpage

theorem not_metEarly_of_single {c : List U8} (hsteps : steps path = [c])
    (hd : ∀ p u, vfsLookup env path s = some (.ok p, u) → s.rootDent ≠ some p.2) :
    ¬MetEarly env s path := by
  rintro ⟨p, u, hl, ⟨-, hroot⟩ | ⟨pre, c', post, i, j, he, hpost, -⟩⟩
  · exact hd p u hl hroot
  · exact hpost (split_of_single hsteps he).2

/-! ## `/dev` -/

theorem stable_bootEnv : Stable bootEnv Eq where
  refl _ := rfl
  same := by rintro i _ rfl; exact ⟨rfl, rfl⟩
  isDir h := h ▸ rfl
  lookup h := h ▸ rfl
  code := by
    rintro i _ rfl name k k'
    simp only [bootEnv]
    split_ifs <;> rfl
  child := by
    rintro i _ rfl name k k'
    simp only [bootEnv]
    split_ifs
    · exact .some rfl
    · exact .none

end Vfs

end Jeos
