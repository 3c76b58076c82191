import Jeos.Registry

/-!
# The registry and the mount table

The lists in memory hold types `ts` and mounts `ms` (`Listed`), and each of the four calls leaves such
lists, longer by one element at most (`step_listed`). So in every state that calls lead to the lists
end, the names are distinct, the type of every mount is registered, and there is one mount without a
mountpoint at most, the root, which stays (`registry_consistent`). A loop over a list returns if it may
take more steps than there were calls (`loops_return`).
-/

namespace Jeos

namespace Vfs

set_option linter.unusedSectionVars false

namespace Registry

variable {κ ι : Type} {fuel : ℕ} {env : CallEnv κ ι} {types : ℕ → FsType κ ι}
  {s t u : Registry κ ι} {ts ms : List ℕ} {a b : ℕ}

/-- The name of a type. -/
def typeName (types : ℕ → FsType κ ι) (t : ℕ) : Option (List U8) := (types t).name.map cstr

/-- `g_fs_types` is the list `ts` and `g_mounts` the list `ms`, and they fit together. -/
structure Listed (types : ℕ → FsType κ ι) (s : Registry κ ι) (ts ms : List ℕ) : Prop where
  typeChain : (LinkStore.links ℕ).Chain s.typeLinks none (ts.map some)
  mountChain : (LinkStore.links ℕ).Chain s.mountLinks none (ms.map some)
  named : ∀ t ∈ ts, typeName types t ≠ none
  distinct : (ts.map (typeName types)).Nodup
  sbType : ∀ a ∈ ms, ∃ t ∈ ts, s.sbType (s.mountAt a).sb = some t
  page : ∀ a ∈ ms, (s.mountAt a).page = a
  table : Mounted (s.state (ms.map s.mountAt))
  root : ∀ a ∈ ms, (s.mountAt a).mountpoint = none → s.rootMnt = some a
  rootMnt : ∀ r, s.rootMnt = some r → r ∈ ms

/-- Both lists end, the types have distinct names, the type of the superblock of each mount is
registered, one mount at most has no mountpoint, and `g_root_mnt` is a mount. -/
def Consistent (types : ℕ → FsType κ ι) (s : Registry κ ι) : Prop :=
  ∃ ts ms : List ℕ, (LinkStore.links ℕ).Chain s.typeLinks none (ts.map some) ∧
    (LinkStore.links ℕ).Chain s.mountLinks none (ms.map some) ∧
    (∀ t ∈ ts, typeName types t ≠ none) ∧ (ts.map (typeName types)).Nodup ∧
    (∀ a ∈ ms, ∃ t ∈ ts, s.sbType (s.mountAt a).sb = some t) ∧
    (∀ a ∈ ms, ∀ b ∈ ms, (s.mountAt a).mountpoint = none → (s.mountAt b).mountpoint = none → a = b) ∧
    ∀ r, s.rootMnt = some r → r ∈ ms

theorem Listed.consistent (h : Listed types s ts ms) : Consistent types s := by
  refine ⟨ts, ms, h.typeChain, h.mountChain, h.named, h.distinct, h.sbType, fun a ha b hb hna hnb => ?_,
    h.rootMnt⟩
  exact Option.some.inj ((h.root a ha hna).symm.trans (h.root b hb hnb))

theorem listed_vfsInit (s : Registry κ ι) : Listed types s.vfsInit [] [] where
  typeChain := by exact Function.update_self none none s.typeLinks
  mountChain := by exact Function.update_self none none s.mountLinks
  named _ h := absurd h List.not_mem_nil
  distinct := List.nodup_nil
  sbType _ h := absurd h List.not_mem_nil
  page _ h := absurd h List.not_mem_nil
  table := ⟨fun m hm => (by cases hm), fun m hm => absurd hm List.not_mem_nil, List.Pairwise.nil⟩
  root _ h := absurd h List.not_mem_nil
  rootMnt _ h := (by cases h)

/-! ## Loops over the lists -/

/-- The walkers see the mounts of the list. -/
theorem Listed.mounts_eq (h : Listed types s ts ms) {l : List Mount} (hl : s.mounts fuel = some l) :
    l = ms.map s.mountAt := by
  obtain ⟨ps, hps, rfl⟩ := Option.map_eq_some_iff.1 hl
  rw [(LinkStore.chain_of_toList hps).eq h.mountChain, show (ms.map some).reduceOption =
    (ms.map some).filterMap id from rfl, List.filterMap_map]
  exact congrArg _ (List.filterMap_some ..)

theorem Listed.overMounts_eq (h : Listed types s ts ms) {α : Type} {x : VfsM κ ι α} {r : Except ℤ α}
    (hr : overMounts fuel x s = some (r, t)) :
    ∃ v, x (s.state (ms.map s.mountAt)) = some (r, v) ∧ t = { s with heap := v.heap, fs := v.fs } := by
  obtain ⟨l, hl, hx⟩ := Option.bind_eq_some_iff.1 hr
  obtain ⟨⟨r', v⟩, hv, he⟩ := Option.map_eq_some_iff.1 hx
  obtain ⟨rfl, rfl⟩ := Prod.mk.inj he
  rw [h.mounts_eq hl] at hv
  exact ⟨v, hv, rfl⟩

/-- A loop over `g_fs_types` finds no type, or one of the list. -/
theorem Listed.findType_cases (h : Listed types s ts ms) {p : Option ℕ → Bool}
    {r : Except ℤ (Option (Option ℕ))} (hr : findType fuel p s = some (r, t)) : t = s ∧
      ((r = .ok none ∧ ∀ a ∈ ts, p (some a) = false) ∨ ∃ pre a post, ts = pre ++ a :: post ∧
        r = .ok (some ((LinkStore.links ℕ).endCell none (pre.map some))) ∧ p (some a) = true) := by
  obtain ⟨c, hc, he⟩ := Option.map_eq_some_iff.1 hr
  obtain ⟨rfl, rfl⟩ := Prod.mk.inj he
  refine ⟨rfl, ?_⟩
  rcases LinkStore.find_cases h.typeChain hc with ⟨rfl, hall⟩ | ⟨pre, x, post, hsplit, rfl, hx, -⟩
  · exact Or.inl ⟨rfl, fun a ha => hall _ (List.mem_map_of_mem ha)⟩
  · obtain ⟨pre', rest, rfl, rfl, hrest⟩ := List.map_eq_append_iff.1 hsplit
    obtain ⟨a, post', rfl, rfl, rfl⟩ := List.map_eq_cons_iff.1 hrest
    exact Or.inr ⟨pre', a, post', rfl, rfl, hx⟩

/-- A loop over `g_mounts` finds no mount, or one of the list. -/
theorem Listed.findMount_cases (h : Listed types s ts ms) {p : Registry κ ι → Mount → Bool}
    {r : Except ℤ (Option (Option ℕ))} (hr : findMount fuel p s = some (r, t)) : t = s ∧
      ((r = .ok none ∧ ∀ a ∈ ms, p s (s.mountAt a) = false) ∨ ∃ pre a post, ms = pre ++ a :: post ∧
        r = .ok (some ((LinkStore.links ℕ).endCell none (pre.map some))) ∧
        p s (s.mountAt a) = true ∧ ∀ b ∈ pre, p s (s.mountAt b) = false) := by
  obtain ⟨c, hc, he⟩ := Option.map_eq_some_iff.1 hr
  obtain ⟨rfl, rfl⟩ := Prod.mk.inj he
  refine ⟨rfl, ?_⟩
  rcases LinkStore.find_cases h.mountChain hc with ⟨rfl, hall⟩ | ⟨pre, x, post, hsplit, rfl, hx, hpre⟩
  · exact Or.inl ⟨rfl, fun a ha => hall _ (List.mem_map_of_mem ha)⟩
  · obtain ⟨pre', rest, rfl, rfl, hrest⟩ := List.map_eq_append_iff.1 hsplit
    obtain ⟨a, post', rfl, rfl, rfl⟩ := List.map_eq_cons_iff.1 hrest
    exact Or.inr ⟨pre', a, post', rfl, rfl, hx, fun b hb => hpre _ (List.mem_map_of_mem hb)⟩

theorem hasName_iff {name : List U8} :
    hasName types name (some a) = true ↔ typeName types a = some (cstr name) := by
  rw [hasName, typeName, Option.bind_some]
  rcases (types a).name with _ | n
  · simp
  · simp

/-- `vfs_find_fs` finds a registered type with the name, if there is one. -/
theorem Listed.vfsFindFs_cases (h : Listed types s ts ms) {name : List U8} {r : Except ℤ (Option ℕ)}
    (hr : vfsFindFs fuel types name s = some (r, t)) : t = s ∧
      ((r = .ok none ∧ ∀ a ∈ ts, typeName types a ≠ some (cstr name)) ∨
        ∃ a ∈ ts, r = .ok (some a) ∧ typeName types a = some (cstr name)) := by
  rcases Fallible.bind_eq_some.1 hr with ⟨e, he, -⟩ | ⟨c, u, hc, hr'⟩
  · obtain ⟨-, ⟨hr, -⟩ | ⟨_, _, _, -, hr, -⟩⟩ := h.findType_cases he
    · cases hr
    · cases hr
  obtain ⟨rfl, hcase⟩ := h.findType_cases hc
  obtain ⟨rfl, rfl⟩ := Prod.mk.inj (Option.some.inj hr')
  refine ⟨rfl, ?_⟩
  rcases hcase with ⟨he, hall⟩ | ⟨pre, a, post, hts, he, ha⟩
  · obtain rfl := Except.ok.inj he
    refine Or.inl ⟨rfl, fun a ha hname => ?_⟩
    exact Bool.noConfusion ((hall a ha).symm.trans (hasName_iff.2 hname))
  · obtain rfl := Except.ok.inj he
    have hmem : a ∈ ts := hts ▸ List.mem_append_right _ List.mem_cons_self
    refine Or.inr ⟨a, hmem, ?_, hasName_iff.1 ha⟩
    exact congrArg Except.ok (LinkStore.load_endCell (hts ▸ h.typeChain))

/-! ## `vfs_register_fs` and `vfs_unregister_fs` -/

theorem Listed.vfsRegisterFs {p : Option ℕ} {r : Except ℤ Unit} (h : Listed types s ts ms)
    (hr : vfsRegisterFs fuel types p s = some (r, t)) :
    ∃ ts', Listed types t ts' ms ∧ ts'.length ≤ ts.length + 1 ∧ t.rootMnt = s.rootMnt := by
  have hsame : t = s → ∃ ts', Listed types t ts' ms ∧ ts'.length ≤ ts.length + 1 ∧
      t.rootMnt = s.rootMnt := by
    rintro rfl
    exact ⟨ts, h, Nat.le_succ _, rfl⟩
  rcases p with _ | a
  · obtain ⟨-, rfl⟩ := Prod.mk.inj (Option.some.inj hr)
    exact hsame rfl
  unfold Registry.vfsRegisterFs at hr
  dsimp only at hr
  rcases hname : (types a).name with _ | name
  · rw [hname] at hr
    obtain ⟨-, rfl⟩ := Prod.mk.inj (Option.some.inj hr)
    exact hsame rfl
  rcases hmount : (types a).mount with _ | mount
  · rw [hname, hmount] at hr
    obtain ⟨-, rfl⟩ := Prod.mk.inj (Option.some.inj hr)
    exact hsame rfl
  rw [hname, hmount] at hr
  rcases Fallible.bind_eq_some.1 hr with ⟨e, hf, -⟩ | ⟨x, u, hf, hr'⟩
  · exact hsame (h.vfsFindFs_cases hf).1
  obtain ⟨rfl, hcase⟩ := h.vfsFindFs_cases hf
  rcases x with _ | x
  swap
  · obtain ⟨-, rfl⟩ := Prod.mk.inj (Option.some.inj hr')
    exact hsame rfl
  obtain ⟨-, rfl⟩ := Prod.mk.inj (Option.some.inj hr')
  have hnew : ∀ b ∈ ts, typeName types b ≠ some (cstr name) := by
    rcases hcase with ⟨-, hall⟩ | ⟨_, _, he, -⟩
    · exact hall
    · cases he
  have ha : typeName types a = some (cstr name) := by rw [typeName, hname, Option.map_some]
  have hmem : a ∉ ts := fun hmem => hnew a hmem ha
  refine ⟨a :: ts, ⟨?_, h.mountChain, ?_, ?_, ?_, h.page, h.table, h.root, h.rootMnt⟩, le_rfl, rfl⟩
  · exact LinkStore.chain_push h.typeChain hmem
  · exact List.forall_mem_cons.2 ⟨ha ▸ Option.some_ne_none _, h.named⟩
  · refine List.nodup_cons.2 ⟨fun hin => ?_, h.distinct⟩
    obtain ⟨b, hb, he⟩ := List.mem_map.1 hin
    exact hnew b hb (he.trans ha)
  · intro m hm
    obtain ⟨b, hb, he⟩ := h.sbType m hm
    exact ⟨b, List.mem_cons_of_mem _ hb, he⟩

/-- No mount is of the type that is taken out. -/
theorem Listed.vfsUnregisterFs {p : Option ℕ} {r : Except ℤ Unit} (h : Listed types s ts ms)
    (hr : vfsUnregisterFs fuel p s = some (r, t)) :
    ∃ ts', Listed types t ts' ms ∧ ts'.length ≤ ts.length + 1 ∧ t.rootMnt = s.rootMnt := by
  have hsame : t = s → ∃ ts', Listed types t ts' ms ∧ ts'.length ≤ ts.length + 1 ∧
      t.rootMnt = s.rootMnt := by
    rintro rfl
    exact ⟨ts, h, Nat.le_succ _, rfl⟩
  rcases p with _ | a
  · obtain ⟨-, rfl⟩ := Prod.mk.inj (Option.some.inj hr)
    exact hsame rfl
  rcases Fallible.bind_eq_some.1 hr with ⟨e, hf, -⟩ | ⟨x, u, hf, hr₁⟩
  · exact hsame (h.findMount_cases hf).1
  obtain ⟨rfl, hcase⟩ := h.findMount_cases hf
  rcases x with _ | x
  swap
  · obtain ⟨-, rfl⟩ := Prod.mk.inj (Option.some.inj hr₁)
    exact hsame rfl
  have hunused : ∀ m ∈ ms, u.sbType (u.mountAt m).sb ≠ some a := by
    rcases hcase with ⟨-, hall⟩ | ⟨_, _, _, -, he, -⟩
    · exact fun m hm => by simpa using hall m hm
    · cases he
  rcases Fallible.bind_eq_some.1 hr₁ with ⟨e, hf₂, -⟩ | ⟨y, v, hf₂, hr₂⟩
  · exact hsame (h.findType_cases hf₂).1
  obtain ⟨rfl, hcase₂⟩ := h.findType_cases hf₂
  rcases hcase₂ with ⟨he, -⟩ | ⟨pre, b, post, rfl, he, hb⟩
  · obtain rfl := Except.ok.inj he
    obtain ⟨-, rfl⟩ := Prod.mk.inj (Option.some.inj hr₂)
    exact hsame rfl
  obtain rfl := Except.ok.inj he
  obtain rfl : b = a := by simpa using hb
  obtain ⟨-, rfl⟩ := Prod.mk.inj (Option.some.inj hr₂)
  have hb' : some b ∉ (pre ++ post).map some := by
    have hnodup := h.typeChain.nodup
    rw [List.map_append, List.map_cons] at hnodup
    rw [List.map_append]
    exact (List.nodup_cons.1 (List.perm_middle.nodup_iff.1 hnodup)).1
  refine ⟨pre ++ post, ⟨?_, h.mountChain, fun c hc => h.named c ?_, ?_, fun m hm => ?_, h.page, h.table,
    h.root, h.rootMnt⟩, ?_, rfl⟩
  · refine (LinkStore.chain_remove h.typeChain).store_of_apart none fun c hc => ?_
    rcases List.mem_cons.1 hc with rfl | hc
    · exact Option.some_ne_none b
    · obtain ⟨p, hp, rfl⟩ := List.mem_map.1 hc
      exact fun he => hb' (he ▸ hp)
  · exact List.mem_append.2 ((List.mem_append.1 hc).imp_right (List.mem_cons_of_mem b))
  · refine h.distinct.sublist (List.Sublist.map _ ?_)
    exact List.Sublist.append_left (List.sublist_cons_self b post) pre
  · obtain ⟨c, hc, he⟩ := h.sbType m hm
    refine ⟨c, ?_, he⟩
    rcases List.mem_append.1 hc with hc | hc
    · exact List.mem_append_left _ hc
    · rcases List.mem_cons.1 hc with rfl | hc
      · exact absurd he (hunused m hm)
      · exact List.mem_append_right _ hc
  · simp only [List.length_append, List.length_cons]
    omega

/-! ## `vfs_mount` -/

/-- The heap changes, and leaves the table. -/
theorem Listed.evolves {v : State κ ι} (h : Listed types s ts ms)
    (hev : Evolves (s.state (ms.map s.mountAt)) v) :
    Listed types { s with heap := v.heap, fs := v.fs } ts ms where
  typeChain := h.typeChain
  mountChain := h.mountChain
  named := h.named
  distinct := h.distinct
  sbType := h.sbType
  page := h.page
  table := h.table.evolves ⟨⟨rfl, rfl, rfl, hev.dentry⟩, hev.table⟩
  root := h.root
  rootMnt := h.rootMnt

/-- A page that is free holds no mount of the list, and no superblock of one. -/
theorem Listed.ne_of_free (h : Listed types s ts ms) (ha : a ∈ ms) (hb : s.heap b = none) :
    a ≠ b ∧ (s.mountAt a).sb ≠ b := by
  obtain ⟨hpage, hsb⟩ := h.table.pages _ (List.mem_map_of_mem ha)
  rw [h.page a ha] at hpage
  constructor
  · rintro rfl
    exact Option.some_ne_none _ (hpage.symm.trans hb)
  · rintro rfl
    exact Option.some_ne_none _ (hsb.symm.trans hb)

/-- The fields of a mount that is not in the list yet. -/
theorem Listed.write {m : Mount} (h : Listed types s ts ms)
    (hpage : ∀ b ∈ ms, b ≠ m.page) (hsb : ∀ b ∈ ms, (s.mountAt b).sb ≠ m.sb) :
    Listed types { s with
      sbType := Function.update s.sbType m.sb (some a)
      mountAt := Function.update s.mountAt m.page m } ts ms := by
  have hat : ∀ b ∈ ms, Function.update s.mountAt m.page m b = s.mountAt b := fun b hb =>
    Function.update_of_ne (hpage b hb) _ _
  have hmap : ms.map (Function.update s.mountAt m.page m) = ms.map s.mountAt :=
    List.map_congr_left hat
  refine ⟨h.typeChain, h.mountChain, h.named, h.distinct, fun b hb => ?_, fun b hb => ?_, ?_,
    fun b hb hnone => ?_, h.rootMnt⟩
  · obtain ⟨c, hc, he⟩ := h.sbType b hb
    refine ⟨c, hc, ?_⟩
    dsimp only
    rw [hat b hb, Function.update_of_ne (hsb b hb), he]
  · exact (congrArg Mount.page (hat b hb)).trans (h.page b hb)
  · refine h.table.congr rfl hmap ?_ rfl
    rcases hroot : s.rootMnt with _ | r
    · rw [state, state, hroot]
      rfl
    · rw [state, state, hroot]
      exact congrArg some (hat r (h.rootMnt r hroot))
  · exact h.root b hb ((congrArg Mount.mountpoint (hat b hb)).symm.trans hnone)

/-- A new mount is put in front of the list, and is the root if it has no mountpoint. -/
theorem Listed.addMount {m : Mount} {v : State κ ι} {ino : Inode ι} {r : Except ℤ Unit}
    (h : Listed types s ts ms) (hnew : NewMount (s.state (ms.map s.mountAt)) v m ino) (ha : a ∈ ts)
    (hnone : m.mountpoint = none → s.rootMnt = none)
    (hr : addMount fuel a m { s with heap := v.heap, fs := v.fs } = some (r, t)) :
    Listed types t ts (m.page :: ms) ∧ ∀ r, s.rootMnt = some r → t.rootMnt = some r := by
  have hpage : ∀ b ∈ ms, b ≠ m.page := fun b hb => (h.ne_of_free hb hnew.free.2.2).1
  have hsb : ∀ b ∈ ms, (s.mountAt b).sb ≠ m.sb := fun b hb => (h.ne_of_free hb hnew.free.1).2
  have hmem : m.page ∉ ms := fun hm => hpage _ hm rfl
  have hwrite := (h.evolves hnew.grow.evolves).write (a := a) hpage hsb
  have hat : ∀ b ∈ ms, Function.update s.mountAt m.page m b = s.mountAt b := fun b hb =>
    Function.update_of_ne (hpage b hb) _ _
  have hself : Function.update s.mountAt m.page m m.page = m := Function.update_self ..
  have hmap : (m.page :: ms).map (Function.update s.mountAt m.page m) = m :: ms.map s.mountAt := by
    rw [List.map_cons, hself, List.map_congr_left hat]
  have hsbs : ∀ b ∈ m.page :: ms, ∃ t ∈ ts, Function.update s.sbType m.sb (some a)
      (Function.update s.mountAt m.page m b).sb = some t := by
    refine List.forall_mem_cons.2 ⟨⟨a, ha, ?_⟩, hwrite.sbType⟩
    rw [hself, Function.update_self]
  have hpages : ∀ b ∈ m.page :: ms, (Function.update s.mountAt m.page m b).page = b :=
    List.forall_mem_cons.2 ⟨congrArg Mount.page hself, hwrite.page⟩
  have hv : v.mounts = ms.map s.mountAt := hnew.grow.mounts
  unfold Registry.addMount at hr
  rcases hmp : m.mountpoint with _ | mp
  · rw [hmp] at hr
    obtain ⟨rfl, rfl⟩ := Prod.mk.inj (Option.some.inj hr)
    have hadd : Vfs.addMount m v = some (.ok (), { v with
        rootMnt := some m, rootDent := some m.root, mounts := m :: v.mounts }) := by
      unfold Vfs.addMount
      rw [hmp]
      rfl
    refine ⟨⟨h.typeChain, LinkStore.chain_push h.mountChain hmem, h.named, h.distinct, hsbs, hpages,
      (h.table.add hnew hadd).congr rfl (hmap.trans (by rw [hv])) (congrArg some hself) rfl, ?_, ?_⟩, ?_⟩
    · refine List.forall_mem_cons.2 ⟨fun _ => rfl, fun b hb hb' => ?_⟩
      have := h.root b hb ((congrArg Mount.mountpoint (hat b hb)).symm.trans hb')
      rw [hnone hmp] at this
      cases this
    · rintro r' ⟨⟩
      exact List.mem_cons_self
    · intro r' hr'
      rw [hnone hmp] at hr'
      cases hr'
  · rw [hmp] at hr
    rcases Fallible.bind_eq_some.1 hr with ⟨e, hset, -⟩ | ⟨_, u, hset, hr'⟩
    · cases hset
    obtain ⟨-, rfl⟩ := Prod.mk.inj (Option.some.inj hset)
    rcases Fallible.bind_eq_some.1 hr' with ⟨e, hmark, -⟩ | ⟨_, u, hmark, hpush⟩
    · obtain ⟨w, hw, -⟩ := hwrite.overMounts_eq hmark
      rcases Fallible.bind_eq_some.1 hw with ⟨e', hd, -⟩ | ⟨d, w', hd, hset⟩
      · exact absurd hd getDentry_ne_error
      · cases hset
    obtain ⟨w, hw, rfl⟩ := hwrite.overMounts_eq hmark
    obtain ⟨d, w', hd, hset⟩ := Fallible.bind_eq_ok.1 hw
    obtain ⟨hdent, rfl⟩ := getDentry_eq_ok.1 hd
    obtain ⟨-, rfl⟩ := Prod.mk.inj (Option.some.inj hset)
    obtain ⟨-, rfl⟩ := Prod.mk.inj (Option.some.inj hpush)
    have hdv : dentryAt v mp = some d := hdent
    have hadd : Vfs.addMount m v = some (.ok (), { v with
        heap := (v.put mp { d with isMountpoint := true }).heap, mounts := m :: v.mounts }) := by
      unfold Vfs.addMount
      rw [hmp]
      dsimp only
      rw [Fallible.bind_ok (getDentry_of hdv)]
      rfl
    have hroot : s.rootMnt.map (Function.update s.mountAt m.page m) = v.rootMnt := by
      rw [hnew.grow.rootMnt, state]
      rcases hroot : s.rootMnt with _ | r'
      · rfl
      · exact congrArg some (hat r' (h.rootMnt r' hroot))
    refine ⟨⟨h.typeChain, LinkStore.chain_push h.mountChain hmem, h.named, h.distinct, hsbs, hpages,
      (h.table.add hnew hadd).congr rfl (hmap.trans (by rw [hv])) hroot hnew.grow.rootDent.symm, ?_,
      fun r' hr' => List.mem_cons_of_mem _ (h.rootMnt r' hr')⟩, fun r' hr' => hr'⟩
    refine List.forall_mem_cons.2 ⟨fun hb => ?_, fun b hb hb' => ?_⟩
    · cases hmp.symm.trans ((congrArg Mount.mountpoint hself).symm.trans hb)
    · exact h.root b hb ((congrArg Mount.mountpoint (hat b hb)).symm.trans hb')

theorem Listed.vfsMount {name target : Option (List U8)} {device : ℕ} {r : Except ℤ Unit}
    (h : Listed types s ts ms) (hr : vfsMount fuel env types name device target s = some (r, t)) :
    ∃ ms', Listed types t ts ms' ∧ ms'.length ≤ ms.length + 1 ∧
      ∀ r, s.rootMnt = some r → t.rootMnt = some r := by
  have hsame : t = s → ∃ ms', Listed types t ts ms' ∧ ms'.length ≤ ms.length + 1 ∧
      ∀ r, s.rootMnt = some r → t.rootMnt = some r := by
    rintro rfl
    exact ⟨ms, h, Nat.le_succ _, fun _ => id⟩
  unfold Registry.vfsMount at hr
  rcases name with _ | name
  · obtain ⟨-, rfl⟩ := Prod.mk.inj (Option.some.inj hr)
    exact hsame rfl
  rcases target with _ | path
  · obtain ⟨-, rfl⟩ := Prod.mk.inj (Option.some.inj hr)
    exact hsame rfl
  dsimp only at hr
  rcases Fallible.bind_eq_some.1 hr with ⟨e, hf, -⟩ | ⟨x, u, hf, hr₁⟩
  · exact hsame (h.vfsFindFs_cases hf).1
  obtain ⟨rfl, hcase⟩ := h.vfsFindFs_cases hf
  rcases x with _ | a
  · obtain ⟨-, rfl⟩ := Prod.mk.inj (Option.some.inj hr₁)
    exact hsame rfl
  have ha : a ∈ ts := by
    rcases hcase with ⟨he, -⟩ | ⟨b, hb, he, -⟩
    · cases he
    · rwa [Option.some.inj (Except.ok.inj he)]
  dsimp only at hr₁
  rcases hmount : (types a).mount with _ | mount <;> rw [hmount] at hr₁
  · cases hr₁
  dsimp only at hr₁
  rcases Fallible.bind_eq_some.1 hr₁ with ⟨e, hm, -⟩ | ⟨m, v, hm, hadd⟩
  · obtain ⟨w, hw, rfl⟩ := h.overMounts_eq hm
    rcases newMount_cases hw with ⟨-, -, hev⟩ | ⟨_, _, _, he, -⟩
    · exact ⟨ms, h.evolves hev, Nat.le_succ _, fun _ => id⟩
    · cases he
  · obtain ⟨w, hw, rfl⟩ := h.overMounts_eq hm
    rcases newMount_cases hw with ⟨_, he, -⟩ | ⟨s₁, m', ino, he, hmp, hnew⟩
    · cases he
    obtain rfl := Except.ok.inj he
    have hev := mountTarget_evolves _ _ s₁ hmp
    -- the lists, as they are when the target has been looked up
    have hs₁ := h.evolves hev
    have hnew' : NewMount (state { u with heap := s₁.heap, fs := s₁.fs } (ms.map u.mountAt)) w m ino :=
      ⟨⟨hnew.grow.mounts.trans hev.mounts, hnew.grow.rootMnt.trans hev.rootMnt,
        hnew.grow.rootDent.trans hev.rootDent, hnew.grow.heap⟩, hnew.free, hnew.sb, hnew.root, hnew.page⟩
    have hfirst : m.mountpoint = none → u.rootMnt = none := fun hnone => by
      rw [hnone] at hmp
      exact Option.map_eq_none_iff.1 (mountTarget_none hmp)
    obtain ⟨hlisted, hroot⟩ := hs₁.addMount hnew' ha hfirst hadd
    exact ⟨_, hlisted, le_rfl, hroot⟩

/-! ## `vfs_umount` -/

theorem Listed.vfsUmount {target : Option (List U8)} {r : Except ℤ Unit}
    (h : Listed types s ts ms) (hr : vfsUmount fuel env types target s = some (r, t)) :
    ∃ ms', Listed types t ts ms' ∧ ms'.length ≤ ms.length + 1 ∧ t.rootMnt = s.rootMnt := by
  unfold Registry.vfsUmount at hr
  rcases target with _ | path
  · obtain ⟨-, rfl⟩ := Prod.mk.inj (Option.some.inj hr)
    exact ⟨ms, h, Nat.le_succ _, rfl⟩
  dsimp only at hr
  rcases Fallible.bind_eq_some.1 hr with ⟨e, hl, -⟩ | ⟨⟨mnt, d⟩, u, hl, hr₁⟩
  · obtain ⟨v, hv, rfl⟩ := h.overMounts_eq hl
    exact ⟨ms, h.evolves (vfsLookup_evolves path _ _ v hv), Nat.le_succ _, rfl⟩
  obtain ⟨v, hv, rfl⟩ := h.overMounts_eq hl
  have hu := h.evolves (vfsLookup_evolves path _ _ v hv)
  have hsame : t = { s with heap := v.heap, fs := v.fs } →
      ∃ ms', Listed types t ts ms' ∧ ms'.length ≤ ms.length + 1 ∧ t.rootMnt = s.rootMnt := by
    rintro rfl
    exact ⟨ms, hu, Nat.le_succ _, rfl⟩
  dsimp only at hr₁
  rcases Fallible.bind_eq_some.1 hr₁ with ⟨e, hf, -⟩ | ⟨x, w, hf, hr₂⟩
  · exact hsame (hu.findMount_cases hf).1
  obtain ⟨rfl, hcase⟩ := hu.findMount_cases hf
  rcases hcase with ⟨he, -⟩ | ⟨pre, a, post, rfl, he, ha, hpre⟩
  · obtain rfl := Except.ok.inj he
    obtain ⟨-, rfl⟩ := Prod.mk.inj (Option.some.inj hr₂)
    exact hsame rfl
  obtain rfl := Except.ok.inj he
  have hlink : s.mountLinks ((LinkStore.links ℕ).endCell none (pre.map some)) = some a :=
    LinkStore.load_endCell h.mountChain
  dsimp only at hr₂
  rw [hlink] at hr₂
  dsimp only at hr₂
  rcases Fallible.bind_eq_some.1 hr₂ with ⟨e, hmark, -⟩ | ⟨_, w, hmark, hfree⟩
  · obtain ⟨w, hw, -⟩ := hu.overMounts_eq hmark
    rcases Fallible.bind_eq_some.1 hw with ⟨e', hd, -⟩ | ⟨e', w', hd, hset⟩
    · exact absurd hd getDentry_ne_error
    · cases hset
  obtain ⟨w, hw, rfl⟩ := hu.overMounts_eq hmark
  obtain ⟨e, w', hd, hset⟩ := Fallible.bind_eq_ok.1 hw
  obtain ⟨hdent, rfl⟩ := getDentry_eq_ok.1 hd
  obtain ⟨-, rfl⟩ := Prod.mk.inj (Option.some.inj hset)
  obtain ⟨-, rfl⟩ := Prod.mk.inj (Option.some.inj hfree)
  have hsub : ∀ b ∈ pre ++ post, b ∈ pre ++ a :: post := fun b hb =>
    List.mem_append.2 ((List.mem_append.1 hb).imp_right (List.mem_cons_of_mem a))
  have ha : (s.mountAt a).mountpoint = some d := eq_of_beq ha
  refine ⟨pre ++ post, ⟨h.typeChain, LinkStore.chain_remove h.mountChain, h.named, h.distinct,
    fun b hb => h.sbType b (hsub b hb), fun b hb => h.page b (hsub b hb), ?_,
    fun b hb => h.root b (hsub b hb), fun r' hr' => ?_⟩, ?_, rfl⟩
  · let unmount := ((s.sbType (s.mountAt a).sb).bind fun t => (types t).unmount).getD fun _ fs => fs
    refine hu.table.umounts (?_ : Umounts (fun _ => []) _ _
      ({ env with unmount := fun _ => unmount } : CallEnv κ ι).toEnv d (s.mountAt a))
    refine ⟨⟨pre.map s.mountAt, post.map s.mountAt, List.map_append, List.map_append,
      fun m' hm' => ?_⟩, ha, rfl, rfl, rfl, e, hdent, rfl⟩
    obtain ⟨b, hb, rfl⟩ := List.mem_map.1 hm'
    exact ne_of_beq_false (hpre b hb)
  · -- the root has no mountpoint
    obtain ⟨-, -, hnone, -⟩ := h.table.rooted (s.mountAt r') (congrArg (Option.map s.mountAt) hr')
    have hne : r' ≠ a := fun he => Option.some_ne_none d (ha.symm.trans (he ▸ hnone))
    rcases List.mem_append.1 (h.rootMnt r' hr') with hmem | hmem
    · exact List.mem_append_left _ hmem
    · exact List.mem_append_right _ ((List.mem_cons.1 hmem).resolve_left hne)
  · simp only [List.length_append, List.length_cons]
    omega

/-! ## Every state -/

/-- A call leaves lists that are longer by one element at most, and the root mount. -/
theorem step_listed {c : Call} (h : Listed types s ts ms) (hr : step fuel env types s c = some t) :
    (∃ ts' ms', Listed types t ts' ms' ∧ ts'.length ≤ ts.length + 1 ∧ ms'.length ≤ ms.length + 1) ∧
      ∀ r, s.rootMnt = some r → t.rootMnt = some r := by
  cases c with
  | register p =>
    obtain ⟨⟨r, t'⟩, hx, rfl⟩ := Option.map_eq_some_iff.1 hr
    obtain ⟨ts', ht, hlen, hroot⟩ := h.vfsRegisterFs hx
    exact ⟨⟨ts', ms, ht, hlen, Nat.le_succ _⟩, fun r hr => hroot.trans hr⟩
  | unregister p =>
    obtain ⟨⟨r, t'⟩, hx, rfl⟩ := Option.map_eq_some_iff.1 hr
    obtain ⟨ts', ht, hlen, hroot⟩ := h.vfsUnregisterFs hx
    exact ⟨⟨ts', ms, ht, hlen, Nat.le_succ _⟩, fun r hr => hroot.trans hr⟩
  | mount name device target =>
    obtain ⟨⟨r, t'⟩, hx, rfl⟩ := Option.map_eq_some_iff.1 hr
    obtain ⟨ms', ht, hlen, hroot⟩ := h.vfsMount hx
    exact ⟨⟨ts, ms', ht, Nat.le_succ _, hlen⟩, hroot⟩
  | umount target =>
    obtain ⟨⟨r, t'⟩, hx, rfl⟩ := Option.map_eq_some_iff.1 hr
    obtain ⟨ms', ht, hlen, hroot⟩ := h.vfsUmount hx
    exact ⟨⟨ts, ms', ht, Nat.le_succ _, hlen⟩, fun r hr => hroot.trans hr⟩

theorem run_listed {calls : List Call} (h : Listed types s ts ms)
    (hr : Run.run (step fuel env types) s calls = some t) : ∃ ts' ms', Listed types t ts' ms' ∧
      ts'.length ≤ ts.length + calls.length ∧ ms'.length ≤ ms.length + calls.length := by
  induction calls generalizing s ts ms with
  | nil =>
    obtain rfl := Option.some.inj hr
    exact ⟨ts, ms, h, Nat.le_add_right _ _, Nat.le_add_right _ _⟩
  | cons c calls ih =>
    obtain ⟨u, hu, hr'⟩ := Option.bind_eq_some_iff.1 hr
    obtain ⟨⟨ts₁, ms₁, h₁, htlen, hmlen⟩, -⟩ := step_listed h hu
    obtain ⟨ts', ms', h', htlen', hmlen'⟩ := ih h₁ hr'
    refine ⟨ts', ms', h', ?_, ?_⟩ <;> rw [List.length_cons] <;> omega

/-- A loop over a list ends within as many steps as there were calls, and one more. -/
theorem loops_return {calls : List Call} (hr : Run.run (step fuel env types) s.vfsInit calls = some t)
    (hf : calls.length < fuel) : (t.mounts fuel).isSome ∧ (∀ p, (findMount fuel p t).isSome) ∧
      ∀ p, (findType fuel p t).isSome := by
  obtain ⟨ts, ms, h, htlen, hmlen⟩ := run_listed (listed_vfsInit s) hr
  rw [List.length_nil, Nat.zero_add] at htlen hmlen
  have hts : (ts.map some).length < fuel := by
    rw [List.length_map]
    omega
  have hms : (ms.map some).length < fuel := by
    rw [List.length_map]
    omega
  refine ⟨?_, fun p => ?_, fun p => ?_⟩
  · rw [mounts, LinkStore.toList_of_chain h.mountChain hms]
    rfl
  · obtain ⟨c, hc⟩ := LinkStore.exists_find h.mountChain hms fun a => (a.map t.mountAt).any (p t)
    rw [findMount, hc]
    rfl
  · obtain ⟨c, hc⟩ := LinkStore.exists_find h.typeChain hts p
    rw [findType, hc]
    rfl

/-- After `vfs_init` and any calls of the four : the registry and the mount table are consistent, and
a further call does not change the root mount. -/
theorem registry_consistent {calls : List Call}
    (h : Run.run (step fuel env types) s.vfsInit calls = some t) : Consistent types t ∧
      ∀ c u r, step fuel env types t c = some u → t.rootMnt = some r → u.rootMnt = some r := by
  obtain ⟨ts, ms, hlisted, -⟩ := run_listed (listed_vfsInit s) h
  exact ⟨hlisted.consistent, fun c u r hu hr => (step_listed hlisted hu).2 r hr⟩

/-! ## initfs -/

/-- The type `initfs` at address 1. -/
def bootTypes (t : ℕ) : FsType ℕ Bool :=
  if t = 1 then ⟨some initfs, some (bootEnv.mount initfs), none⟩ else ⟨none, none, none⟩

/-- The memory before `vfs_init`. -/
def bootMemory : Registry ℕ Bool where
  heap _ := none
  fs := 1
  typeLinks _ := some 7
  mountLinks _ := some 7
  mountAt _ := ⟨0, 0, none, 0⟩
  sbType _ := none
  rootMnt := none
  rootDent := none

/-- `vfs_register_fs(&initfs_fs_type)` and `vfs_mount("initfs", 0, "/", 0, 0)`. -/
theorem registry_consistent_boot :
    ∃ t, Run.run (step 10 bootCalls bootTypes) bootMemory.vfsInit
        [.register (some 1), .mount (some initfs) 0 (some [slash])] = some t ∧
      t.rootMnt = some 3 ∧ Consistent bootTypes t ∧
      ∀ c u r, step 10 bootCalls bootTypes t c = some u → t.rootMnt = some r → u.rootMnt = some r := by
  have hrun : (Run.run (step 10 bootCalls bootTypes) bootMemory.vfsInit
      [.register (some 1), .mount (some initfs) 0 (some [slash])]).map Registry.rootMnt =
      some (some 3) := by decide
  obtain ⟨t, ht, hroot⟩ := Option.map_eq_some_iff.1 hrun
  exact ⟨t, ht, hroot, registry_consistent ht⟩

end Registry

end Vfs

end Jeos
