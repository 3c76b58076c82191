import Jeos.Lib.Run
import Jeos.PagingSpec

/-!
# Copying an address space

`copy_user_pml4` walks the old tree in the order of the virtual addresses. A set `D`
of paths records which part of the tree the four loops are through with; a loop at
the path `p` adds the paths below `p` one index at a time. `CopyInvariant` is what a
property of the state must satisfy to be carried through the loops, and
`copyUserPml4_induction` is the induction over them.
-/

namespace Jeos

open ByteMemory TreeWalk

/-! ## Paths -/

/-- The paths through `p`. -/
def cone (p : List ℕ) : Set (List ℕ) := {q | p <+: q}

/-- The paths below `p` whose next index is less than `k`. -/
def below (p : List ℕ) (k : ℕ) : Set (List ℕ) := {q | ∃ i < k, p ++ [i] <+: q}

theorem below_zero (p : List ℕ) : below p 0 = ∅ := by
  ext q
  simp [below]

theorem below_succ (p : List ℕ) (k : ℕ) : below p (k + 1) = below p k ∪ cone (p ++ [k]) := by
  ext q
  constructor
  · rintro ⟨i, hi, hq⟩
    rcases Nat.lt_succ_iff_lt_or_eq.1 hi with hi | rfl
    · exact Or.inl ⟨i, hi, hq⟩
    · exact Or.inr hq
  · rintro (⟨i, hi, hq⟩ | hq)
    · exact ⟨i, hi.trans k.lt_succ_self, hq⟩
    · exact ⟨k, k.lt_succ_self, hq⟩

theorem below_subset_cone (p : List ℕ) (k : ℕ) : below p k ⊆ cone p := by
  rintro q ⟨i, -, hq⟩
  exact (List.prefix_append p [i]).trans hq

/-- What is below the earlier indices is not below the next one. -/
theorem disjoint_below_cone (p : List ℕ) (k : ℕ) : Disjoint (below p k) (cone (p ++ [k])) := by
  refine Set.disjoint_left.2 ?_
  rintro q ⟨i, hi, a, ha⟩ ⟨b, hb⟩
  rw [← hb, List.append_assoc, List.append_assoc] at ha
  obtain ⟨rfl, -⟩ := List.cons.inj (List.append_cancel_left ha)
  exact lt_irrefl _ hi

/-- The frame at the path `q` is present and open to user accesses. -/
def UserLeaf (h : Heap) (pml4 : U64) (q : List ℕ) : Prop :=
  ∃ n, nodeAt h pml4 q = some n ∧ n.level = 0 ∧ User n.pte

/-- A leaf below a table is below one of its indices. -/
theorem UserLeaf.mem_below {h : Heap} {pml4 : U64} {p q : List ℕ} {n : Node}
    (hq : UserLeaf h pml4 q) (hn : nodeAt h pml4 p = some n) (hl : n.level ≠ 0) (hp : q ∈ cone p) :
    q ∈ below p n.fanout := by
  obtain ⟨m, hm, hm0, -⟩ := hq
  obtain ⟨r, rfl⟩ := hp
  cases r with
  | nil =>
    rw [List.append_nil] at hm
    obtain rfl := Option.some.inj (hn.symm.trans hm)
    exact absurd hm0 hl
  | cons i r =>
    rw [nodeAt, walk_append, show walk (child h) (.root pml4) p = some n from hn, Option.bind_some,
      walk_cons] at hm
    obtain ⟨n', hc, -⟩ := Option.bind_eq_some_iff.1 hm
    exact ⟨i, (child_eq_some.1 hc).2.1, r, by simp⟩

/-- No leaf is below a missing entry. -/
theorem not_userLeaf_of_none {h : Heap} {pml4 : U64} {p q : List ℕ} (hn : nodeAt h pml4 p = none)
    (hp : q ∈ cone p) : ¬UserLeaf h pml4 q := by
  rintro ⟨m, hm, -⟩
  obtain ⟨r, rfl⟩ := hp
  rw [nodeAt, walk_append, show walk (child h) (.root pml4) p = none from hn] at hm
  exact absurd hm (by simp)

/-! ## The loops return -/

namespace PagingState

variable {s s' : PagingState} {i : ℕ}

theorem foldlM_mono {f : PagingState → ℕ → Option PagingState}
    (hf : ∀ s i s', f s i = some s' → s'.ok = true → s.ok = true) {n : ℕ}
    (hr : (List.range n).foldlM f s = some s') (hok : s'.ok = true) : s.ok = true :=
  Run.foldlM_range (I := fun _ t => t.ok = true → s.ok = true)
    (fun i _ t t' h ht hok' => h (hf t i t' ht hok')) id hr hok

variable (newPml4 table : U64) (i4 i3 i2 : ℕ)

theorem exists_copyPage (s : PagingState) (i1 : ℕ) :
    ∃ s', copyPage newPml4 table i4 i3 i2 s i1 = some s' := by
  simp only [copyPage]
  split
  · exact ⟨s, rfl⟩
  · obtain ⟨⟨s₁, v⟩, hk⟩ := s.exists_kallocPage
    rw [hk, Option.bind_some]
    split
    · exact ⟨s₁, rfl⟩
    · exact exists_mapPagePml4 _ _ _ _ _

theorem exists_loop {f : PagingState → ℕ → Option PagingState} (hf : ∀ s i, ∃ s', f s i = some s')
    (n : ℕ) (s : PagingState) : ∃ s', (List.range n).foldlM f s = some s' :=
  Run.exists_run hf s _

theorem exists_copyPt (s : PagingState) (i : ℕ) :
    ∃ s', copyPt newPml4 table i4 i3 s i = some s' := by
  unfold copyPt
  split
  · exact ⟨s, rfl⟩
  · exact exists_loop (exists_copyPage _ _ _ _ _) _ _

theorem exists_copyPd (s : PagingState) (i : ℕ) : ∃ s', copyPd newPml4 table i4 s i = some s' := by
  unfold copyPd
  split
  · exact ⟨s, rfl⟩
  · exact exists_loop (exists_copyPt _ _ _ _) _ _

theorem exists_copyPdpt (s : PagingState) (i : ℕ) : ∃ s', copyPdpt newPml4 table s i = some s' := by
  unfold copyPdpt
  split
  · exact ⟨s, rfl⟩
  · exact exists_loop (exists_copyPd _ _ _) _ _

theorem exists_copyUserPml4 (s : PagingState) : ∃ s', copyUserPml4 s newPml4 table = some s' :=
  exists_loop (exists_copyPdpt _ _) _ _

variable {newPml4 table i4 i3 i2}

/-- One round of the innermost loop : it skips the page, fails to get a frame, or copies it. -/
theorem copyPage_eq_some (hr : copyPage newPml4 table i4 i3 i2 s i = some s') :
    s' = s ∧ (¬Present (s.heap.entry table i) ∨ ¬User (s.heap.entry table i)) ∨
      Present (s.heap.entry table i) ∧ User (s.heap.entry table i) ∧
        ∃ s₁ v, s.kallocPage = some (s₁, v) ∧ (v = 0 ∧ s' = s₁ ∨ v ≠ 0 ∧
          mapPagePml4 ⟨s₁.heap.copyPage v (s₁.heap.pteAddr (s.heap.entry table i)), s₁.ok⟩ newPml4
            (BitVec.ofNat 64 i4 <<< 39 ||| BitVec.ofNat 64 i3 <<< 30 |||
              BitVec.ofNat 64 i2 <<< 21 ||| BitVec.ofNat 64 i <<< 12)
            (s₁.heap.virtToPhys v) (pteFlags (s.heap.entry table i) &&& ~~~ptePresent) =
              some s') := by
  simp only [copyPage] at hr
  split at hr
  case isTrue hskip => exact Or.inl ⟨(Option.some.inj hr).symm, hskip⟩
  case isFalse hcopy =>
    rw [not_or, not_not, not_not] at hcopy
    obtain ⟨⟨s₁, v⟩, hk, hr⟩ := Option.bind_eq_some_iff.1 hr
    refine Or.inr ⟨hcopy.1, hcopy.2, s₁, v, hk, ?_⟩
    simp only at hr
    split at hr
    case isTrue hv => exact Or.inl ⟨hv, (Option.some.inj hr).symm⟩
    case isFalse hv => exact Or.inr ⟨hv, hr⟩

theorem copyPage_mono (hr : copyPage newPml4 table i4 i3 i2 s i = some s') (hok : s'.ok = true) :
    s.ok = true := by
  rcases copyPage_eq_some hr with ⟨rfl, -⟩ | ⟨-, -, s₁, v, hk, ⟨-, rfl⟩ | ⟨-, hm⟩⟩
  · exact hok
  · exact kallocPage_mono hk hok
  · have hok₁ := mapPagePml4_mono hm hok
    exact kallocPage_mono hk hok₁

theorem copyPt_mono (hr : copyPt newPml4 table i4 i3 s i = some s') (hok : s'.ok = true) :
    s.ok = true := by
  unfold copyPt at hr
  split at hr
  · exact Option.some.inj hr ▸ hok
  · exact foldlM_mono (fun _ _ _ => copyPage_mono) hr hok

theorem copyPd_mono (hr : copyPd newPml4 table i4 s i = some s') (hok : s'.ok = true) :
    s.ok = true := by
  unfold copyPd at hr
  split at hr
  · exact Option.some.inj hr ▸ hok
  · exact foldlM_mono (fun _ _ _ => copyPt_mono) hr hok

theorem copyPdpt_mono (hr : copyPdpt newPml4 table s i = some s') (hok : s'.ok = true) :
    s.ok = true := by
  unfold copyPdpt at hr
  split at hr
  · exact Option.some.inj hr ▸ hok
  · exact foldlM_mono (fun _ _ _ => copyPd_mono) hr hok

end PagingState

/-! ## The induction over the loops -/

/-- A property `I D` of the states in which the loops are through with the paths `D`. After
a `kalloc` has failed it may say nothing. -/
structure CopyInvariant (h₀ : Heap) (newPml4 oldPml4 : U64)
    (I : Set (List ℕ) → PagingState → Prop) : Prop where
  failed : ∀ {D D' s s'}, I D s → s.ok = false → s'.ok = false → I D' s'
  hhdm : ∀ {D s}, I D s → s.ok = true → s.heap.hhdmOffset = h₀.hhdmOffset
  tables : ∀ {D s}, I D s → s.ok = true → ∀ {p n}, nodeAt h₀ oldPml4 p = some n → n.level ≠ 0 →
    ∀ i < n.fanout, s.heap.entry n.addr i = h₀.entry n.addr i
  skip : ∀ {D D' s}, I D s → D ⊆ D' → (∀ q ∈ D', q ∉ D → ¬UserLeaf h₀ oldPml4 q) → I D' s
  page : ∀ {D s s' i4 i3 i2 i1 n}, I D s → nodeAt h₀ oldPml4 [i4, i3, i2] = some n →
    i4 < 256 → i3 < 512 → i2 < 512 → i1 < 512 → [i4, i3, i2, i1] ∉ D →
    UserLeaf h₀ oldPml4 [i4, i3, i2, i1] →
    PagingState.copyPage newPml4 n.addr i4 i3 i2 s i1 = some s' → I (D ∪ {[i4, i3, i2, i1]}) s'

/-- The same for copies that may run out of pages : `I D` holds while every `kalloc` succeeds, and
`F` from the first failure on. -/
structure CopyRule (h₀ : Heap) (newPml4 oldPml4 : U64) (I : Set (List ℕ) → PagingState → Prop)
    (F : PagingState → Prop) : Prop where
  failed : ∀ {s s' table i4 i3 i2 i1}, F s → s.ok = false →
    PagingState.copyPage newPml4 table i4 i3 i2 s i1 = some s' → F s'
  hhdm : ∀ {D s}, I D s → s.ok = true → s.heap.hhdmOffset = h₀.hhdmOffset
  tables : ∀ {D s}, I D s → s.ok = true → ∀ {p n}, nodeAt h₀ oldPml4 p = some n → n.level ≠ 0 →
    ∀ i < n.fanout, s.heap.entry n.addr i = h₀.entry n.addr i
  skip : ∀ {D D' s}, I D s → D ⊆ D' → (∀ q ∈ D', q ∉ D → ¬UserLeaf h₀ oldPml4 q) → I D' s
  page : ∀ {D s s' i4 i3 i2 i1 n}, I D s → s.ok = true →
    nodeAt h₀ oldPml4 [i4, i3, i2] = some n → i4 < 256 → i3 < 512 → i2 < 512 → i1 < 512 →
    [i4, i3, i2, i1] ∉ D → UserLeaf h₀ oldPml4 [i4, i3, i2, i1] →
    PagingState.copyPage newPml4 n.addr i4 i3 i2 s i1 = some s' →
    (s'.ok = true → I (D ∪ {[i4, i3, i2, i1]}) s') ∧ (s'.ok = false → F s')

section Loops

open PagingState

variable {h₀ : Heap} {newPml4 oldPml4 : U64} {I : Set (List ℕ) → PagingState → Prop}
  {F : PagingState → Prop} {D : Set (List ℕ)} {s s' : PagingState} {p : List ℕ} {n : Node} {i : ℕ}

/-- The state of a copy, failed or not. -/
def CopyState (I : Set (List ℕ) → PagingState → Prop) (F : PagingState → Prop) (D : Set (List ℕ))
    (s : PagingState) : Prop :=
  (s.ok = true → I D s) ∧ (s.ok = false → F s)

theorem CopyState.skip (hI : CopyRule h₀ newPml4 oldPml4 I F) {D' : Set (List ℕ)}
    (h : CopyState I F D s) (hD : D ⊆ D') (hno : ∀ q ∈ D', q ∉ D → ¬UserLeaf h₀ oldPml4 q) :
    CopyState I F D' s :=
  ⟨fun hok => hI.skip (h.1 hok) hD hno, h.2⟩

/-- What one round does at each index, the loop does below the table. -/
theorem CopyRule.loop (hI : CopyRule h₀ newPml4 oldPml4 I F) {k : ℕ}
    {f : PagingState → ℕ → Option PagingState}
    (hf : ∀ i < k, ∀ D s s', CopyState I F D s → Disjoint D (cone (p ++ [i])) → f s i = some s' →
      CopyState I F (D ∪ cone (p ++ [i])) s')
    (hn : nodeAt h₀ oldPml4 p = some n) (hl : n.level ≠ 0) (hk : n.fanout ≤ k)
    (h : CopyState I F D s) (hd : Disjoint D (cone p)) (hr : (List.range k).foldlM f s = some s') :
    CopyState I F (D ∪ cone p) s' := by
  have hend : CopyState I F (D ∪ below p k) s' := by
    refine Run.foldlM_range (I := fun i t => CopyState I F (D ∪ below p i) t)
      (fun i hi t t' ht hft => ?_) (by rwa [below_zero, Set.union_empty]) hr
    rw [below_succ, ← Set.union_assoc]
    refine hf i hi _ t t' ht (Set.disjoint_union_left.2 ⟨?_, disjoint_below_cone p i⟩) hft
    exact hd.mono_right fun q hq => (List.prefix_append p [i]).trans hq
  refine hend.skip hI (Set.union_subset_union_right _ (below_subset_cone p k)) ?_
  rintro q (hq | hq) hnq hleaf
  · exact hnq (Or.inl hq)
  · obtain ⟨j, hj, hjq⟩ := hleaf.mem_below hn hl hq
    exact hnq (Or.inr ⟨j, hj.trans_le hk, hjq⟩)

/-- After a failure a loop keeps what its rounds keep. -/
theorem foldlM_failed {f : PagingState → ℕ → Option PagingState}
    (hmono : ∀ s i s', f s i = some s' → s'.ok = true → s.ok = true)
    (hf : ∀ s i s', F s → s.ok = false → f s i = some s' → F s') {l : List ℕ} (h : F s)
    (hok : s.ok = false) (hr : l.foldlM f s = some s') : F s' ∧ s'.ok = false := by
  refine Run.run_invariant (I := fun s => F s ∧ s.ok = false)
    (fun s i s' hs hfs => ⟨hf s i s' hs.1 hs.2 hfs, ?_⟩) ⟨h, hok⟩
    (show Run.run f s l = some s' from hr)
  exact Bool.eq_false_iff.2 fun hok' => Bool.false_ne_true (hs.2 ▸ hmono s i s' hfs hok')

/-- One round of an outer loop : it skips a missing table or runs the next loop over it. -/
theorem CopyRule.table (hI : CopyRule h₀ newPml4 oldPml4 I F)
    {f : U64 → PagingState → ℕ → Option PagingState}
    (hmono : ∀ t s i s', f t s i = some s' → s'.ok = true → s.ok = true)
    (hfail : ∀ t s i s', F s → s.ok = false → f t s i = some s' → F s')
    (hf : ∀ n', nodeAt h₀ oldPml4 (p ++ [i]) = some n' → ∀ j < 512, ∀ D s s', CopyState I F D s →
      Disjoint D (cone (p ++ [i] ++ [j])) → f n'.addr s j = some s' →
      CopyState I F (D ∪ cone (p ++ [i] ++ [j])) s')
    (hn : nodeAt h₀ oldPml4 p = some n) (hl : 2 ≤ n.level) (hi : i < n.fanout)
    (h : CopyState I F D s) (hd : Disjoint D (cone (p ++ [i])))
    (hr : (if ¬Present (s.heap.entry n.addr i) then some s
      else (List.range 512).foldlM (f (s.heap.pteAddr (s.heap.entry n.addr i))) s) = some s') :
    CopyState I F (D ∪ cone (p ++ [i])) s' := by
  rcases Bool.eq_false_or_eq_true s.ok with hok | hok
  · have he := hI.tables (h.1 hok) hok hn (by omega) i hi
    have hc : nodeAt h₀ oldPml4 (p ++ [i]) = child h₀ n i := walk_concat_of hn i
    rw [he, pteAddr_congr (hI.hhdm (h.1 hok) hok)] at hr
    split at hr
    case isTrue hp =>
      obtain rfl := Option.some.inj hr
      refine h.skip hI Set.subset_union_left fun q hq hnq => ?_
      refine not_userLeaf_of_none ?_ (hq.resolve_left hnq)
      rw [hc, child, if_neg fun hc => hp hc.2.2]
    case isFalse hp =>
      rw [not_not] at hp
      have hc' := hc.trans (child_eq_some.2 ⟨by omega, hi, hp, rfl⟩)
      have hl' : (⟨n.level - 1, h₀.entry n.addr i,
          h₀.pteAddr (h₀.entry n.addr i)⟩ : Node).level ≠ 0 := by
        change n.level - 1 ≠ 0
        omega
      exact hI.loop (hf _ hc') hc' hl' (Node.fanout_le _) h hd hr
  · have hF : F s' ∧ s'.ok = false := by
      split at hr
      · obtain rfl := Option.some.inj hr
        exact ⟨h.2 hok, hok⟩
      · exact foldlM_failed (hmono _) (hfail _) (h.2 hok) hok hr
    exact ⟨fun hok' => absurd hok' (by simp [hF.2]), fun _ => hF.1⟩

theorem cone_of_length {q : List ℕ} (hq : UserLeaf h₀ oldPml4 q) (hp : q ∈ cone p)
    (hlen : p.length = 4) : q = p := by
  obtain ⟨m, hm, hm0, -⟩ := hq
  have := nodeAt_level hm
  exact (List.IsPrefix.eq_of_length hp (by omega)).symm

/-- The last loop, where each index is a page. -/
theorem CopyRule.frame (hI : CopyRule h₀ newPml4 oldPml4 I F) {i4 i3 i2 i1 : ℕ}
    (h4 : i4 < 256) (h3 : i3 < 512) (h2 : i2 < 512) (h1 : i1 < 512)
    (hn : nodeAt h₀ oldPml4 [i4, i3, i2] = some n) (h : CopyState I F D s)
    (hd : Disjoint D (cone [i4, i3, i2, i1]))
    (hr : copyPage newPml4 n.addr i4 i3 i2 s i1 = some s') :
    CopyState I F (D ∪ cone [i4, i3, i2, i1]) s' := by
  rcases Bool.eq_false_or_eq_true s.ok with hok | hok
  · by_cases hleaf : UserLeaf h₀ oldPml4 [i4, i3, i2, i1]
    · have hq : [i4, i3, i2, i1] ∉ D := fun hq => Set.disjoint_left.1 hd hq List.prefix_rfl
      have hpage : CopyState I F (D ∪ {[i4, i3, i2, i1]}) s' :=
        hI.page (h.1 hok) hok hn h4 h3 h2 h1 hq hleaf hr
      refine hpage.skip hI (Set.union_subset_union_right _ ?_) ?_
      · rintro q rfl
        exact List.prefix_rfl
      · rintro q (hq | hq) hnq hleaf'
        · exact hnq (Or.inl hq)
        · exact hnq (Or.inr (cone_of_length hleaf' hq rfl))
    · have hl : n.level = 1 := by
        have := nodeAt_level hn
        simpa using this
      have he := hI.tables (h.1 hok) hok hn (by omega) i1 (by simp [Node.fanout, hl, h1])
      have hc : nodeAt h₀ oldPml4 [i4, i3, i2, i1] = child h₀ n i1 :=
        walk_concat_of (p := [i4, i3, i2]) hn i1
      have hs : s' = s := by
        rcases copyPage_eq_some hr with ⟨rfl, -⟩ | ⟨hp, hu, -⟩
        · rfl
        · rw [he] at hp hu
          refine absurd ⟨_, hc.trans (child_eq_some.2 ⟨by omega, ?_, hp, rfl⟩), ?_, hu⟩ hleaf
          · simp [Node.fanout, hl, h1]
          · change n.level - 1 = 0
            omega
      obtain rfl := hs
      refine h.skip hI Set.subset_union_left ?_
      rintro q (hq | hq) hnq hleaf'
      · exact hnq hq
      · exact hleaf (cone_of_length hleaf' hq rfl ▸ hleaf')
  · have hF := hI.failed (h.2 hok) hok hr
    refine ⟨fun hok' => ?_, fun _ => hF⟩
    exact absurd (copyPage_mono hr hok') (by simp [hok])

/-- The rounds of the outer loops after a failure. -/
theorem CopyRule.failed_copyPt (hI : CopyRule h₀ newPml4 oldPml4 I F) {table : U64} {i4 i3 : ℕ}
    (h : F s) (hok : s.ok = false) (hr : copyPt newPml4 table i4 i3 s i = some s') : F s' := by
  unfold copyPt at hr
  split at hr
  · exact Option.some.inj hr ▸ h
  · exact (foldlM_failed (fun _ _ _ => copyPage_mono) (fun _ _ _ => hI.failed) h hok hr).1

theorem CopyRule.failed_copyPd (hI : CopyRule h₀ newPml4 oldPml4 I F) {table : U64} {i4 : ℕ}
    (h : F s) (hok : s.ok = false) (hr : copyPd newPml4 table i4 s i = some s') : F s' := by
  unfold copyPd at hr
  split at hr
  · exact Option.some.inj hr ▸ h
  · exact (foldlM_failed (fun _ _ _ => copyPt_mono) (fun _ _ _ => hI.failed_copyPt) h hok hr).1

/-- The four loops take a rule from no path to all paths. -/
theorem CopyRule.copyUserPml4 (hI : CopyRule h₀ newPml4 oldPml4 I F) (h : CopyState I F ∅ s)
    (hr : copyUserPml4 s newPml4 oldPml4 = some s') : CopyState I F Set.univ s' := by
  have hroot : nodeAt h₀ oldPml4 [] = some (.root oldPml4) := nodeAt_nil
  have hlevel : ∀ {p n}, nodeAt h₀ oldPml4 p = some n → n.level = 4 - p.length := fun hn => by
    have := nodeAt_level hn
    omega
  have hfan : ∀ {p n}, nodeAt h₀ oldPml4 p = some n → p ≠ [] → n.fanout = 512 := fun hn hp => by
    have := nodeAt_level hn
    have := List.length_pos_iff.2 hp
    rw [Node.fanout, if_neg (by omega)]
  have hall : (Set.univ : Set (List ℕ)) = ∅ ∪ cone [] := by
    ext q
    simp [cone]
  rw [hall]
  refine hI.loop (k := 256) (fun i4 h4 D s s' h hd hr => ?_) hroot (Nat.succ_ne_zero 3) le_rfl h
    (Set.empty_disjoint _) hr
  refine hI.table (f := fun t => copyPd newPml4 t i4) (fun _ _ _ _ => copyPd_mono)
    (fun _ _ _ _ => hI.failed_copyPd) (fun n₃ hn₃ i3 h3 D s s' h hd hr => ?_) hroot
    (Nat.le_add_left 2 2) h4 h hd hr
  refine hI.table (f := fun t => copyPt newPml4 t i4 i3) (fun _ _ _ _ => copyPt_mono)
    (fun _ _ _ _ => hI.failed_copyPt) (fun n₂ hn₂ i2 h2 D s s' h hd hr => ?_) hn₃
    (by rw [hlevel hn₃]; exact Nat.le_succ 2) (by rw [hfan hn₃ (by simp)]; exact h3) h hd hr
  refine hI.table (f := fun t => copyPage newPml4 t i4 i3 i2) (fun _ _ _ _ => copyPage_mono)
    (fun _ _ _ _ => hI.failed) (fun n₁ hn₁ i1 h1 D s s' h hd hr => ?_) hn₂
    (by rw [hlevel hn₂]; exact le_refl 2) (by rw [hfan hn₂ (by simp)]; exact h2) h hd hr
  exact hI.frame h4 h3 h2 h1 hn₁ h hd hr

/-- An invariant is a rule that says nothing after a failure. -/
theorem CopyInvariant.rule (hI : CopyInvariant h₀ newPml4 oldPml4 I) :
    CopyRule h₀ newPml4 oldPml4 I fun s => ∀ D, I D s where
  failed h hok hr D := hI.failed (h ∅) hok <| Bool.eq_false_iff.2 fun hok' =>
    absurd (copyPage_mono hr hok') (by simp [hok])
  hhdm := hI.hhdm
  tables := hI.tables
  skip := hI.skip
  page h _ hn h4 h3 h2 h1 hq hleaf hr :=
    have h' := hI.page h hn h4 h3 h2 h1 hq hleaf hr
    ⟨fun _ => h', fun hok _ => hI.failed h' hok hok⟩

/-- The four loops take an invariant from no path to all paths. -/
theorem copyUserPml4_induction (hI : CopyInvariant h₀ newPml4 oldPml4 I) (h : I ∅ s)
    (hr : copyUserPml4 s newPml4 oldPml4 = some s') : I Set.univ s' := by
  have hend := hI.rule.copyUserPml4 ⟨fun _ => h, fun hok _ => hI.failed h hok hok⟩ hr
  rcases Bool.eq_false_or_eq_true s'.ok with hok | hok
  · exact hend.1 hok
  · exact hend.2 hok _

end Loops

/-! ## One page -/

/-- The bytes of the page at `b` in `h'` are those of the page at `a` in `h`. -/
def SameBytes (h h' : Heap) (a b : U64) : Prop :=
  ∀ i < 4096, h'.mem (b + BitVec.ofNat 64 i) = h.mem (a + BitVec.ofNat 64 i)

/-- The new space holds copies of the user pages of `D` and nothing else, in pages that were
free at the start. -/
structure Copying (h₀ : Heap) (newPml4 oldPml4 : U64) (D : Set (List ℕ)) (h : Heap) : Prop where
  space : UserSpace h newPml4
  free : h.freePages ⊆ h₀.freePages
  agree : h₀.AgreeOutside (h₀.freePages ∪ {pageOf newPml4}) h
  fresh : spacePages h newPml4 ⊆ h₀.freePages ∪ {pageOf newPml4}
  copied : ∀ q ∈ D, ∀ n, nodeAt h₀ oldPml4 q = some n → n.level = 0 → User n.pte →
    ∃ m, nodeAt h newPml4 q = some m ∧ m.level = 0 ∧ pteFlags m.pte = pteFlags n.pte ∧
      SameBytes h₀ h n.addr m.addr
  only : ∀ q m, nodeAt h newPml4 q = some m → m.level = 0 → q ∈ D ∧ UserLeaf h₀ oldPml4 q

/-- The old space is intact and has no page the copy may touch. -/
structure CopySource (h₀ : Heap) (newPml4 oldPml4 : U64) : Prop where
  space : UserSpace h₀ oldPml4
  apart : Disjoint (spacePages h₀ oldPml4) (h₀.freePages ∪ {pageOf newPml4})

section Page

open PagingState

variable {h₀ : Heap} {newPml4 oldPml4 v : U64} {D : Set (List ℕ)} {s s' : PagingState} {h h₁ : Heap}
  {i4 i3 i2 i1 : ℕ} {n : Node}

theorem Copying.nodeAt_old (hc : Copying h₀ newPml4 oldPml4 D h)
    (hs : CopySource h₀ newPml4 oldPml4) (p : List ℕ) : nodeAt h oldPml4 p = nodeAt h₀ oldPml4 p :=
  hs.space.nodeAt_of_agree hc.agree (hs.apart.mono_left tablePages_subset) p

theorem Copying.mem_old (hc : Copying h₀ newPml4 oldPml4 D h) (hs : CopySource h₀ newPml4 oldPml4)
    {x : U64} (hx : pageOf x ∈ spacePages h₀ oldPml4) : h.mem x = h₀.mem x :=
  hc.agree.mem x (Set.disjoint_left.1 hs.apart hx)

/-- A frame of the space is not one of its tables. -/
theorem UserSpace.frame_not_table {pml4 : U64} {q : List ℕ} {m : Node} (hu : UserSpace h pml4)
    (hm : nodeAt h pml4 q = some m) (hl : m.level = 0) : pageOf m.addr ∉ tablePages h pml4 := by
  rintro ⟨p, n, hn, hl', hp⟩
  obtain ⟨-, rfl⟩ := hu.unique hn hm hl' hp
  exact hl' hl

/-- A page is allocated and filled, and mapped at a path the loops have not been at. -/
theorem Copying.add {q : List ℕ} {h₂ : Heap} {e : U64} (hc : Copying h₀ newPml4 oldPml4 D h)
    (hs : CopySource h₀ newPml4 oldPml4) (hn : nodeAt h₀ oldPml4 q = some n) (hl : n.level = 0)
    (hu : User n.pte) (ht : TakesPage h h₁ v)
    (hx : Extends q newPml4 (h₁.copyPage v n.addr) h₂)
    (hq : nodeAt h₂ newPml4 q = some ⟨0, e, v⟩) (he : pteFlags e = pteFlags n.pte) :
    Copying h₀ newPml4 oldPml4 (D ∪ {q}) h₂ := by
  obtain ⟨hsp, hfree, hag, hnodes⟩ := hc.space.of_take ht (h₁.copyPage v n.addr) rfl rfl
    fun x hx => copyPage_mem_of_pageOf_ne ht.aligned hx
  have hvf := hc.free ht.mem_free
  have hfree' : (h₁.copyPage v n.addr).freePages ⊆ h.freePages := hfree ▸ Set.sdiff_subset
  have htab : tablePages (h₁.copyPage v n.addr) newPml4 ⊆ tablePages h newPml4 := by
    rintro k ⟨p, m, hm, hml, hk⟩
    exact ⟨p, m, (hnodes p).symm.trans hm, hml, hk⟩
  have hna : pageOf n.addr ∈ spacePages h₀ oldPml4 := ⟨q, n, hn, rfl⟩
  have hnal := hs.space.aligned hn
  have hvn : pageOf v ≠ pageOf n.addr := fun e =>
    Set.disjoint_left.1 hs.apart hna (e ▸ Or.inl hvf)
  -- The new frame is outside what the mapping writes.
  have hvnew : pageOf v ∉ (h₁.copyPage v n.addr).freePages ∪
      tablePages (h₁.copyPage v n.addr) newPml4 := by
    rintro (hv | hv)
    · rw [hfree] at hv
      exact hv.2 rfl
    · exact hc.space.not_free (tablePages_subset (htab hv)) ht.mem_free
  have hbytes : SameBytes h₀ h₂ n.addr v := fun i hi => by
    have hva := pageOf_add ht.aligned hi
    have hna' := pageOf_add hnal hi
    have hnf : pageOf (n.addr + BitVec.ofNat 64 i) ∉ h.freePages := fun hf =>
      Set.disjoint_left.1 hs.apart hna (hna' ▸ Or.inl (hc.free hf))
    rw [hx.agree.mem _ (hva ▸ hvnew), copyPage_mem_add ht.aligned hnal hvn hi,
      ht.agree.mem _ hnf, hc.mem_old hs (hna'.symm ▸ hna)]
  have hU : (h₁.copyPage v n.addr).freePages ∪ tablePages (h₁.copyPage v n.addr) newPml4 ⊆
      h₀.freePages ∪ {pageOf newPml4} := by
    rintro k (hk | hk)
    · exact Or.inl (hc.free (hfree' hk))
    · exact hc.fresh (tablePages_subset (htab hk))
  refine ⟨hx.space, (hx.free.trans hfree').trans hc.free, ?_, ?_, ?_, ?_⟩
  · exact (hc.agree.trans (hag.mono (hc.free.trans Set.subset_union_left))).trans (hx.agree.mono hU)
  · rintro k ⟨p, m, hm, rfl⟩
    rcases hx.nodes p m hm with hm' | ⟨-, hf⟩ | ⟨-, rfl⟩
    · exact hc.fresh ⟨p, m, (hnodes p).symm.trans hm', rfl⟩
    · exact hU (Or.inl hf)
    · obtain rfl := Option.some.inj (hq.symm.trans hm)
      exact Or.inl hvf
  · rintro p hp n' hn' hl' hu'
    by_cases hpq : p = q
    · obtain rfl := hpq
      obtain rfl := Option.some.inj (hn.symm.trans hn')
      exact ⟨_, hq, rfl, he, hbytes⟩
    · obtain ⟨m, hm, hml, hmf, hmb⟩ := hc.copied p (hp.resolve_right hpq) n' hn' hl' hu'
      refine ⟨m, hx.keeps p m hpq ((hnodes p).trans hm), hml, hmf, fun i hi => ?_⟩
      have hma := pageOf_add (hc.space.aligned hm) hi
      have hmf : pageOf m.addr ∉ h.freePages := hc.space.held p m hm
      rw [hx.agree.mem, hag.mem _ (hma ▸ hmf), hmb i hi]
      rw [hma]
      rintro (hf | hf)
      · exact hmf (hfree' hf)
      · exact hc.space.frame_not_table hm hml (htab hf)
  · intro p m hm hml
    rcases hx.nodes p m hm with hm' | ⟨hml', -⟩ | ⟨-, rfl⟩
    · obtain ⟨hD, hleaf⟩ := hc.only p m ((hnodes p).symm.trans hm') hml
      exact ⟨Or.inl hD, hleaf⟩
    · exact absurd hml hml'
    · exact ⟨Or.inr rfl, n, hn, hl, hu⟩

theorem UserLeaf.entry {q : List ℕ} {i : ℕ} (hleaf : UserLeaf h₀ oldPml4 (q ++ [i]))
    (hn : nodeAt h₀ oldPml4 q = some n) : n.level ≠ 0 ∧ i < n.fanout ∧
      Present (h₀.entry n.addr i) ∧ User (h₀.entry n.addr i) ∧
      nodeAt h₀ oldPml4 (q ++ [i]) =
        some ⟨0, h₀.entry n.addr i, h₀.pteAddr (h₀.entry n.addr i)⟩ := by
  obtain ⟨m, hm, hm0, hu⟩ := hleaf
  obtain ⟨hl, hi, hp, rfl⟩ := child_eq_some.1 ((walk_concat_of hn i).symm.trans hm)
  refine ⟨hl, hi, hp, hu, hm.trans ?_⟩
  rw [show n.level - 1 = 0 from hm0]

theorem Copying.entry_old (hc : Copying h₀ newPml4 oldPml4 D h)
    (hs : CopySource h₀ newPml4 oldPml4) {p : List ℕ} (hn : nodeAt h₀ oldPml4 p = some n) {i : ℕ}
    (hi : i < n.fanout) : h.entry n.addr i = h₀.entry n.addr i :=
  entry_congr (hs.space.aligned hn) (hi.trans_le n.fanout_le) fun _ hx =>
    hc.mem_old hs ⟨p, n, hn, hx.symm⟩

/-- One round over a user page : there is no page for the copy, or a page is taken and filled, and
`map_page_pml4` called for the path of the old one with its flags. -/
theorem Copying.copyPage_call (hs : CopySource h₀ newPml4 oldPml4)
    (hc : Copying h₀ newPml4 oldPml4 D s.heap) (hn : nodeAt h₀ oldPml4 [i4, i3, i2] = some n)
    (h4 : i4 < 256) (h3 : i3 < 512) (h2 : i2 < 512) (h1 : i1 < 512)
    (hleaf : UserLeaf h₀ oldPml4 [i4, i3, i2, i1])
    (hr : copyPage newPml4 n.addr i4 i3 i2 s i1 = some s') (hok : s.ok = true) :
    (s.heap.freePages = ∅ ∧ s'.heap = s.heap ∧ s'.ok = false) ∨
      ∃ h₁ v va h', TakesPage s.heap h₁ v ∧ vaPath va = [i4, i3, i2, i1] ∧
        h' = h₁.copyPage v (h₀.pteAddr (h₀.entry n.addr i1)) ∧
        h'.pteAddr (h₁.virtToPhys v) = v ∧ pageOf v ∉ h'.freePages ∧
        pageOf v ∉ tablePages h' newPml4 ∧
        mapPagePml4 ⟨h', true⟩ newPml4 va (h₁.virtToPhys v)
          (pteFlags (h₀.entry n.addr i1) &&& ~~~ptePresent) = some s' := by
  obtain ⟨-, hi, hp, hu, hm⟩ := UserLeaf.entry (q := [i4, i3, i2]) hleaf hn
  rcases copyPage_eq_some hr with ⟨-, hskip⟩ | ⟨-, -, s₁, v, hk, hcopy⟩
  · rw [hc.entry_old hs hn hi] at hskip
    exact hskip.elim (absurd hp) (absurd hu)
  obtain ⟨⟨h₁, w⟩, hk', he⟩ := Option.map_eq_some_iff.1 hk
  obtain ⟨rfl, rfl⟩ := Prod.mk.inj he
  rcases kalloc_one hc.space.sound with ⟨hk₀, hfree⟩ | ⟨h₂, v', hk₀, ht⟩
  · obtain ⟨rfl, rfl⟩ := Prod.mk.inj (Option.some.inj (hk'.symm.trans hk₀))
    rcases hcopy with ⟨-, rfl⟩ | ⟨hv, -⟩
    · exact Or.inl ⟨hfree, rfl, by simp⟩
    · exact absurd rfl hv
  obtain ⟨rfl, rfl⟩ := Prod.mk.inj (Option.some.inj (hk'.symm.trans hk₀))
  rcases hcopy with ⟨hv, -⟩ | ⟨-, hmap⟩
  · exact absurd hv ht.ne_zero
  rw [hc.entry_old hs hn hi, pteAddr_congr (ht.agree.hhdm.trans hc.agree.hhdm), hok,
    decide_eq_true ht.ne_zero] at hmap
  set e := h₀.entry n.addr i1 with he
  obtain ⟨hsp, hfree, hag, hnodes⟩ := hc.space.of_take ht (h₁.copyPage w (h₀.pteAddr e)) rfl rfl
    fun _ hx => copyPage_mem_of_pageOf_ne ht.aligned hx
  refine Or.inr ⟨h₁, w, _, _, ht, vaPath_of_indices h4 h3 h2 h1, rfl, ?_, ?_, ?_, hmap⟩
  · exact (pteAddr_congr rfl _).trans (pteAddr_virtToPhys ht.sound.hhdm ht.aligned)
  · rw [hfree]
    exact fun hv => hv.2 rfl
  · rintro ⟨p, m, hm', -, hp'⟩
    exact hc.space.held p m ((hnodes p).symm.trans hm') (hp' ▸ ht.mem_free)

/-- One round over a user page : a page is taken and filled, and mapped at the path of the old
one with its flags. -/
theorem Copying.copyPage_maps (hs : CopySource h₀ newPml4 oldPml4)
    (hc : Copying h₀ newPml4 oldPml4 D s.heap) (hn : nodeAt h₀ oldPml4 [i4, i3, i2] = some n)
    (h4 : i4 < 256) (h3 : i3 < 512) (h2 : i2 < 512) (h1 : i1 < 512)
    (hleaf : UserLeaf h₀ oldPml4 [i4, i3, i2, i1])
    (hr : copyPage newPml4 n.addr i4 i3 i2 s i1 = some s') (hok : s'.ok = true) :
    ∃ h₁ v e, TakesPage s.heap h₁ v ∧
      Extends [i4, i3, i2, i1] newPml4 (h₁.copyPage v (h₀.pteAddr (h₀.entry n.addr i1))) s'.heap ∧
      (h₁.copyPage v (h₀.pteAddr (h₀.entry n.addr i1))).freePages.ncard ≤
        s'.heap.freePages.ncard + 3 ∧
      (h₁.copyPage v (h₀.pteAddr (h₀.entry n.addr i1))).freePages ⊆
        s'.heap.freePages ∪ tablePages s'.heap newPml4 ∧
      nodeAt s'.heap newPml4 [i4, i3, i2, i1] = some ⟨0, e, v⟩ ∧
      pteFlags e = pteFlags (h₀.entry n.addr i1) := by
  obtain ⟨-, -, hp, -, -⟩ := UserLeaf.entry (q := [i4, i3, i2]) hleaf hn
  rcases hc.copyPage_call hs hn h4 h3 h2 h1 hleaf hr (copyPage_mono hr hok) with
    ⟨-, -, hno⟩ | ⟨h₁, v, va, h', ht, hva, rfl, hpa, hvf, hvt, hmap⟩
  · exact absurd hok (by simp [hno])
  obtain ⟨hva4, -⟩ := List.cons.inj hva
  obtain ⟨hsp, -⟩ := hc.space.of_take ht (h₁.copyPage v (h₀.pteAddr (h₀.entry n.addr i1))) rfl rfl
    fun _ hx => copyPage_mem_of_pageOf_ne ht.aligned hx
  have hflags : FlagBits (pteFlags (h₀.entry n.addr i1) &&& ~~~ptePresent) :=
    (flagBits_pteFlags _).and _
  obtain ⟨hx, hcard, htaken, hq⟩ := mapPagePml4_effect (s := ⟨h₁.copyPage v _, true⟩) hsp
    (by rw [hva4]; exact h4) hflags (by rw [hpa]; exact hvf) (by rw [hpa]; exact hvt) hmap hok
  rw [hva] at hx hq
  rw [hpa] at hq
  refine ⟨h₁, v, _, ht, hx, hcard, htaken, hq, ?_⟩
  rw [BitVec.or_assoc, pteFlags_or (pageAligned_and _) (hflags.or (by decide)), pteFlags_restore hp]

/-- One page of the old space is copied. -/
theorem Copying.page_step (hs : CopySource h₀ newPml4 oldPml4)
    (hc : Copying h₀ newPml4 oldPml4 D s.heap) (hn : nodeAt h₀ oldPml4 [i4, i3, i2] = some n)
    (h4 : i4 < 256) (h3 : i3 < 512) (h2 : i2 < 512) (h1 : i1 < 512)
    (hleaf : UserLeaf h₀ oldPml4 [i4, i3, i2, i1])
    (hr : copyPage newPml4 n.addr i4 i3 i2 s i1 = some s') (hok : s'.ok = true) :
    Copying h₀ newPml4 oldPml4 (D ∪ {[i4, i3, i2, i1]}) s'.heap ∧
      s.heap.freePages.ncard ≤ s'.heap.freePages.ncard + 4 := by
  obtain ⟨h₁, v, e, ht, hx, hcard, -, hq, he⟩ :=
    hc.copyPage_maps hs hn h4 h3 h2 h1 hleaf hr hok
  obtain ⟨-, -, -, hu, hm⟩ := UserLeaf.entry (q := [i4, i3, i2]) hleaf hn
  refine ⟨hc.add hs hm rfl hu ht hx hq he, ?_⟩
  obtain ⟨-, hfree, -⟩ := hc.space.of_take ht (h₁.copyPage v (h₀.pteAddr (h₀.entry n.addr i1)))
    rfl rfl fun _ hx => copyPage_mem_of_pageOf_ne ht.aligned hx
  have hone := Set.ncard_sdiff_singleton_of_mem ht.mem_free
  rw [hfree] at hcard
  omega

/-- Four free pages are enough for one page : a frame and three tables. -/
theorem Copying.page_ok (hc : Copying h₀ newPml4 oldPml4 D s.heap)
    (h4 : i4 < 256) (h3 : i3 < 512) (h2 : i2 < 512) (h1 : i1 < 512)
    (hr : copyPage newPml4 n.addr i4 i3 i2 s i1 = some s') (hok : s.ok = true)
    (hcard : 4 ≤ s.heap.freePages.ncard) : s'.ok = true := by
  obtain ⟨hva4, -⟩ := List.cons.inj (vaPath_of_indices h4 h3 h2 h1)
  rcases copyPage_eq_some hr with ⟨rfl, -⟩ | ⟨-, -, s₁, v, hk, hcopy⟩
  · exact hok
  have hok₁ := kallocPage_ok hc.space.sound hk hok (Set.nonempty_of_ncard_ne_zero (by omega))
  obtain ⟨-, -, ht⟩ := kallocPage_spec hc.space.sound hk hok₁
  rcases hcopy with ⟨-, rfl⟩ | ⟨-, hmap⟩
  · exact hok₁
  set h' := s₁.heap.copyPage v (s₁.heap.pteAddr (s.heap.entry n.addr i1)) with hh'
  obtain ⟨hsp, hfree, -⟩ := hc.space.of_take ht h' rfl rfl
    fun _ hx => copyPage_mem_of_pageOf_ne ht.aligned hx
  have hc' := Set.ncard_sdiff_singleton_of_mem ht.mem_free
  rw [← hfree] at hc'
  exact mapPagePml4_ok (s := ⟨h', s₁.ok⟩) hsp (by rw [hva4]; exact h4) hmap hok₁
    (show 3 ≤ h'.freePages.ncard by omega)

end Page

/-! ## The whole copy -/

section Copy

open PagingState

variable {h₀ : Heap} {newPml4 oldPml4 : U64} {s s' : PagingState}

/-- While every `kalloc` succeeds, the new space is a copy of the part the loops are through
with. -/
theorem copyInvariant_copying (hs : CopySource h₀ newPml4 oldPml4) :
    CopyInvariant h₀ newPml4 oldPml4 fun D s =>
      s.ok = true → Copying h₀ newPml4 oldPml4 D s.heap where
  failed _ _ h' hok := absurd hok (by simp [h'])
  hhdm hc hok := (hc hok).agree.hhdm
  tables hc hok _ _ hn _ _ hi := (hc hok).entry_old hs hn hi
  skip {D D' s} hc hD hno hok :=
    { hc hok with
      copied := fun q hq n hn hl hu => by
        by_cases hqD : q ∈ D
        · exact (hc hok).copied q hqD n hn hl hu
        · exact absurd ⟨n, hn, hl, hu⟩ (hno q hq hqD)
      only := fun q m hm hl => ((hc hok).only q m hm hl).imp_left fun hq => hD hq }
  page hc hn h4 h3 h2 h1 _ hleaf hr hok :=
    ((hc (copyPage_mono hr hok)).page_step hs hn h4 h3 h2 h1 hleaf hr hok).1

/-- The paths of the pages to copy. -/
def userLeaves (h : Heap) (pml4 : U64) : Set (List ℕ) := {q | UserLeaf h pml4 q}

/-- With four free pages for each page left to copy, no `kalloc` fails. -/
theorem copyInvariant_enough (hs : CopySource h₀ newPml4 oldPml4) :
    CopyInvariant h₀ newPml4 oldPml4 fun D s => s.ok = true ∧
      Copying h₀ newPml4 oldPml4 D s.heap ∧ (userLeaves h₀ oldPml4 \ D).Finite ∧
        4 * (userLeaves h₀ oldPml4 \ D).ncard ≤ s.heap.freePages.ncard where
  failed h h' _ := absurd h.1 (by simp [h'])
  hhdm h _ := h.2.1.agree.hhdm
  tables h _ _ _ hn _ _ hi := h.2.1.entry_old hs hn hi
  skip := by
    rintro D D' s ⟨hok, hc, hfin, hcard⟩ hD hno
    have he : userLeaves h₀ oldPml4 \ D' = userLeaves h₀ oldPml4 \ D := by
      ext q
      refine ⟨fun h => ⟨h.1, fun hq => h.2 (hD hq)⟩, fun h => ⟨h.1, fun hq => ?_⟩⟩
      exact hno q hq h.2 h.1
    rw [he]
    exact ⟨hok, (copyInvariant_copying hs).skip (fun _ => hc) hD hno hok, hfin, hcard⟩
  page := by
    rintro D s s' i4 i3 i2 i1 n ⟨hok, hc, hfin, hcard⟩ hn h4 h3 h2 h1 hqD hleaf hr
    have hmem : [i4, i3, i2, i1] ∈ userLeaves h₀ oldPml4 \ D := ⟨hleaf, hqD⟩
    have he : userLeaves h₀ oldPml4 \ (D ∪ {[i4, i3, i2, i1]}) =
        (userLeaves h₀ oldPml4 \ D) \ {[i4, i3, i2, i1]} := Set.sdiff_sdiff.symm
    have hone := Set.ncard_sdiff_singleton_add_one hmem hfin
    have hok' := hc.page_ok h4 h3 h2 h1 hr hok (by omega)
    obtain ⟨hc', hc4⟩ := hc.page_step hs hn h4 h3 h2 h1 hleaf hr hok'
    rw [he]
    exact ⟨hok', hc', hfin.subset Set.sdiff_subset, by omega⟩

end Copy

end Jeos
