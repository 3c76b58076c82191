import Jeos.MountVisible

/-!
# Unmounting what was just mounted

`vfs_umount` looks its target up and removes the first mount whose mountpoint is the dentry it finds. If
the path leads to the new mount, that dentry is the root of the mount and no mountpoint; and if it leads
to a dentry that the lookup has made, it is none either. So a mount can be undone exactly if the path
still leads to the dentry from before that was mounted on (`umount_undoes_iff`), and then every lookup
has its old result. `/dev` is not of this kind (`dev_umount`).
-/

namespace Jeos

namespace Vfs

set_option linter.unusedSectionVars false

variable {κ ι : Type} {env : CallEnv κ ι} {A : Inode ι → Inode ι → Prop} {s t u v w : State κ ι}
  {m m' : Mount} {d : ℕ} {i j : Inode ι} {path : List U8} {p q : Mount × ℕ}
  {sbType : ℕ → List U8}

/-- Two lookups have found one mount and inodes with one number and superblock. -/
def SameInode (p : Mount × ℕ) (s : State κ ι) (q : Mount × ℕ) (t : State κ ι) : Prop :=
  p.1 = q.1 ∧ Option.Rel Inode.Same (inodeAt s p.2) (inodeAt t q.2)

/-- `vfs_umount` removes the new mount alone and the mark of its mountpoint, and then every path leads to
where it did before the mount. -/
def Undone (env : CallEnv κ ι) (sbType : ℕ → List U8) (s : State κ ι) (path : List U8) (d : ℕ)
    (t : State κ ι) : Prop :=
  ∃ w, vfsUmount env sbType path t = some (.ok (), w) ∧ w.mounts = s.mounts ∧
    (∃ e, dentryAt w d = some e ∧ e.isMountpoint = false) ∧
      ∀ path', PutsParented env.toEnv s (steps path') → Supplied env.toEnv s (steps path') →
        Supplied env.toEnv w (steps path') → Fallible.EndsAlike SameInode
          (vfsLookup env.toEnv path' s) (vfsLookup env.toEnv path' w)

/-! ## What `vfs_umount` finds -/

/-- A mount is only removed at its mountpoint. -/
theorem vfsUmount_mountpoint (hl : vfsLookup env.toEnv path t = some (.ok q, v))
    (h : vfsUmount env sbType path t = some (.ok (), w)) :
    ∃ m ∈ t.mounts, m.mountpoint = some q.2 := by
  rcases vfsUmount_cases h with ⟨e, he, -⟩ | ⟨-, x, s₁, m, hl', hm⟩
  · cases he
  obtain ⟨hq, rfl⟩ := Prod.mk.inj (Option.some.inj (hl.symm.trans hl'))
  obtain rfl := Except.ok.inj hq
  obtain ⟨before, after, hms, -⟩ := hm.found
  refine ⟨m, ?_, hm.mountpoint⟩
  rw [← (vfsLookup_evolves path t _ v hl).mounts, hms]
  exact List.mem_append_right _ List.mem_cons_self

/-- The first mount is removed if the lookup leads to its mountpoint. -/
theorem vfsUmount_first {ms : List Mount} (sbType : ℕ → List U8)
    (hl : vfsLookup env.toEnv path t = some (.ok q, v))
    (hms : v.mounts = m :: ms) (hq : m.mountpoint = some q.2) (hlive : Live v q.2) :
    ∃ w, vfsUmount env sbType path t = some (.ok (), w) ∧ Umounts sbType v w env.toEnv q.2 m ∧
      w.mounts = ms := by
  obtain ⟨e, he⟩ := hlive
  have hrun : ∃ w, vfsUmount env sbType path t = some (.ok (), w) := by
    rw [vfsUmount, Fallible.bind_ok hl]
    dsimp only
    rw [hms, umountFrom, if_pos hq, Fallible.bind_ok (getDentry_of he)]
    exact ⟨_, rfl⟩
  obtain ⟨w, hw⟩ := hrun
  rcases vfsUmount_cases hw with ⟨e', he', -⟩ | ⟨-, x, s₁, m', hl', hm⟩
  · cases he'
  obtain ⟨hx, rfl⟩ := Prod.mk.inj (Option.some.inj (hl.symm.trans hl'))
  obtain rfl := Except.ok.inj hx
  obtain ⟨before, after, hbefore, hafter, hnone⟩ := hm.found
  rcases before with _ | ⟨m₀, before⟩
  · obtain ⟨rfl, rfl⟩ := List.cons_eq_cons.1 (hms.symm.trans hbefore)
    exact ⟨w, hw, hm, hafter⟩
  · obtain ⟨rfl, -⟩ := List.cons_eq_cons.1 (hms.symm.trans hbefore)
    exact absurd hq (hnone m List.mem_cons_self)

namespace Mounting

variable (h : Mounting env.toEnv A s path p u j t m)
include h

theorem mounts_eq : t.mounts = m :: s.mounts := by
  rw [h.after.mounts, h.extends_walk.mounts]

theorem live_mountpoint (hm : m' ∈ t.mounts) (hd : m'.mountpoint = some d) : Live t d :=
  h.intact_after.mountpoint hm hd

/-- No mountpoint is the root of the new mount. -/
theorem mountpoint_ne_root (hm : m' ∈ t.mounts) : m'.mountpoint ≠ some m.root := by
  intro hd
  have hlive : Live u m.root := by
    rw [h.mounts_eq] at hm
    rcases List.mem_cons.1 hm with rfl | hm
    · obtain hp := Option.some.inj (h.after.mountpoint.symm.trans hd)
      rw [← hp]
      exact (h.staysSound.2 p rfl).2.live
    · exact h.extends_walk.live (h.intact.mountpoint hm hd)
  obtain ⟨e, he⟩ := hlive
  rw [dentryAt_eq_none h.after.free.2.1] at he
  cases he

/-- Where the mount cannot be removed. -/
theorem umount_ok (hmet : ¬MetEarly env.toEnv s path)
    (hw : vfsUmount env sbType path t = some (.ok (), w)) :
    ¬Shows env.toEnv s path ∧ Live s p.2 := by
  rcases h.lookup_cases hmet with ⟨-, v, hv⟩ | ⟨hshows, -, q, v, hq, hpq, -⟩
  · obtain ⟨m', hm', hroot⟩ := vfsUmount_mountpoint hv hw
    exact absurd hroot (h.mountpoint_ne_root hm')
  · obtain ⟨m', hm', hd⟩ := vfsUmount_mountpoint hq hw
    refine ⟨hshows, ?_⟩
    have hlive := h.live_mountpoint hm' hd
    generalize hb : q.2 = b at hlive
    have hmirror := hpq.mirror
    rw [hb] at hmirror
    cases hmirror with
    | old ha => exact ha.live
    | made _ hb => exact absurd hlive hb

/-- The state after the mount has been removed again. -/
theorem after_umount (hd : s.rootDent ≠ some p.2) (hv : Extends t v)
    (hm : Umounts sbType v w env.toEnv p.2 m) (hw : w.mounts = s.mounts) :
    Agrees s w ∧ (∀ r, start s = some (r, s) → start w = some (r, w)) ∧
      ∃ e, dentryAt w p.2 = some e ∧ e.isMountpoint = false := by
  obtain ⟨e₀, he₀, hheap⟩ := hm.dentry
  have hfree : ∀ {a e}, dentryAt u a = some e → a ≠ m.sb ∧ a ≠ m.page := fun {a e} he =>
    ⟨ne_of_free he h.after.free.1, ne_of_free he h.after.free.2.2⟩
  have hrest : ∀ {a e}, dentryAt u a = some e →
      dentryAt w a = dentryAt (v.put p.2 { e₀ with isMountpoint := false }) a := fun {a e} he => by
    obtain ⟨hsb, hpage⟩ := hfree he
    rw [dentryAt_congr hheap, dentryAt_free_of_ne hpage, dentryAt_free_of_ne hsb]
  -- every old dentry, with its mark unless it is the mountpoint
  have hat : ∀ a e, dentryAt s a = some e → ∃ e', dentryAt w a = some e' ∧ e'.inode = e.inode ∧
      e'.parent = e.parent ∧ (a ≠ p.2 → e'.isMountpoint = e.isMountpoint) := by
    intro a e he
    obtain ⟨e₁, he₁, hi₁, hp₁, hm₁⟩ := h.extends_walk.dentry a e he
    obtain ⟨e₂, he₂, hi₂, hp₂, hm₂⟩ := h.after.dentry a e₁ he₁
    obtain ⟨e₃, he₃, hi₃, hp₃, hm₃⟩ := hv.dentry a e₂ he₂
    have hi := hi₃.trans (hi₂.trans hi₁)
    have hp := hp₃.trans (hp₂.trans hp₁)
    by_cases ha : a = p.2
    · subst ha
      obtain rfl := Option.some.inj (he₀.symm.trans he₃)
      exact ⟨_, (hrest he₁).trans dentryAt_put_self, hi, hp, fun hne => absurd rfl hne⟩
    · exact ⟨e₃, (hrest he₁).trans ((dentryAt_put_of_ne ha).trans he₃), hi, hp,
        fun hne => hm₃.trans ((hm₂ hne).trans hm₁)⟩
  have hrm : w.rootMnt = s.rootMnt :=
    hm.rootMnt.trans (hv.rootMnt.trans (h.after.rootMnt.trans h.extends_walk.rootMnt))
  have hrd : w.rootDent = s.rootDent :=
    hm.rootDent.trans (hv.rootDent.trans (h.after.rootDent.trans h.extends_walk.rootDent))
  refine ⟨⟨hrm, hrd, fun a e he => ?_⟩, fun r hstart => start_congr hrm hrd ?_ (fun _ _ => by rw [hw]) hstart,
    ?_⟩
  · obtain ⟨e', he', hi, hp, -⟩ := hat a e he
    exact ⟨e', he', hi, hp⟩
  · intro a e ha he
    obtain ⟨e', he', -, -, hmark⟩ := hat a e he
    exact ⟨e', he', hmark fun had => hd (had ▸ ha)⟩
  · obtain ⟨e, he, -⟩ := inodeAt_eq_some.1 h.inode
    exact ⟨_, (hrest he).trans dentryAt_put_self, rfl⟩

/-- Where the path still leads to the mountpoint, the mount is undone. -/
theorem undone (hmet : ¬MetEarly env.toEnv s path) (hshows : ¬Shows env.toEnv s path)
    (hlive : Live s p.2) : Undone env sbType s path p.2 t := by
  rcases h.lookup_cases hmet with ⟨hs, -⟩ | ⟨-, hd, q, v, hq, hpq, -⟩
  · exact absurd hs hshows
  have hsame : q.2 = p.2 := (hpq.mirror.eq_iff h.agrees hlive).1 rfl
  have hms : v.mounts = m :: s.mounts := hpq.right.mounts.trans h.mounts_eq
  have hlive' : Live v q.2 := by
    rw [hsame]
    exact hpq.right.live (h.agrees.live hlive)
  obtain ⟨w, hw, hm, hwms⟩ := vfsUmount_first sbType hq hms
    (h.after.mountpoint.trans (congrArg some hsame.symm)) hlive'
  rw [hsame] at hm
  obtain ⟨hag, hstart, hmark⟩ := h.after_umount hd hpq.right hm hwms
  have hintact : Intact w := fun a ⟨m', hm', ha⟩ => hag.sound (h.intact a ⟨m', hwms ▸ hm', ha⟩)
  refine ⟨w, hw, hwms, hmark, fun path' hputs hpages hpages' => ?_⟩
  rw [vfsLookup_steps]
  refine (walks_alike h.stable hag h.mounted.rooted h.intact hintact hstart hputs hpages hpages'
    fun pre c post i _ _ _ => ?_).mono fun p' x q' y hpq' => ⟨hpq'.mount, ?_⟩
  · rw [hwms]
    exact covering_agrees hag fun m' hm' a => h.intact.mountpoint hm'
  · obtain ⟨e, e', he, he', hino, -⟩ := hpq'.mirror.dentry h.stable.relates hag hpq'.left hpq'.right
    rw [inodeAt, inodeAt, he, he']
    change Option.Rel Inode.Same e.inode e'.inode
    generalize e.inode = k at hino
    generalize e'.inode = l at hino
    rcases hino with hkl | _
    · exact .some (h.stable.same hkl)
    · exact .none

end Mounting

end Vfs

end Jeos
