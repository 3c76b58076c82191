import Mathlib.Data.List.DropRight
import Jeos.UserPointers
import Jeos.VfsSpec

/-!
# Confinement of user pointers

`Outcome.Confined` : a call accesses only addresses below `USER_PTR_MAX`, and if its arguments
reach an address at or above this bound it returns a negative value. `Kernel.passed` lists what
the arguments reach : the buffer with its length, the string with its 0, the structure, or the
array with the strings in it.

`valid_user_ptr` looks at the first byte only, and `proc_exec` does not call it. So a call is
confined exactly if all it is passed ends below the bound, or if it is refused before it gets
there (`Kernel.Refused`); for `proc_exec` see `Kernel.ExecObeys`.

`Kernel.pathFails_iff` says when the walk along a path that crosses the bound stops below it : a
component is not found, and another one starts below the bound after it.
-/

set_option linter.unusedSectionVars false

namespace Jeos

namespace UserPointers

open ByteMemory

/-! ## Confined calls -/

/-- Every address accessed is below the bound, and a call that is passed an address at or above
it returns a negative value. -/
def Outcome.Confined (o : Outcome) (passed : List (Extent 64)) : Prop :=
  (∀ e ∈ o.touched, ∀ x, Within x e.start e.length → x < userPtrMax) ∧
  ((∃ e ∈ passed, ∃ x, Within x e.start e.length ∧ userPtrMax ≤ x) →
    ∃ r, o.result = some r ∧ r.toInt < 0)

/-- The call returns a negative value. -/
def Outcome.Fails (o : Outcome) : Prop := ∃ r, o.result = some r ∧ r.toInt < 0

/-- All the ranges end below `USER_PTR_MAX`. -/
def AllBelow (es : List (Extent 64)) : Prop := ∀ e ∈ es, e.Below userPtrMax

instance (es : List (Extent 64)) : Decidable (AllBelow es) := List.decidableBAll _ es

theorem confined_iff {o : Outcome} {passed : List (Extent 64)} :
    o.Confined passed ↔ AllBelow o.touched ∧ (AllBelow passed ∨ o.Fails) := by
  have h : (∃ e ∈ passed, ∃ x, Within x e.start e.length ∧ userPtrMax ≤ x) ↔ ¬AllBelow passed := by
    simp only [AllBelow, ← Extent.not_below_iff, not_forall, exists_prop]
  rw [Outcome.Confined, h]
  simp only [← Extent.below_iff]
  rw [or_iff_not_imp_left]
  rfl

@[simp] theorem allBelow_nil : AllBelow [] := fun _ h => absurd h List.not_mem_nil

@[simp] theorem allBelow_cons {e : Extent 64} {es : List (Extent 64)} :
    AllBelow (e :: es) ↔ e.Below userPtrMax ∧ AllBelow es := List.forall_mem_cons

@[simp] theorem allBelow_append {es fs : List (Extent 64)} :
    AllBelow (es ++ fs) ↔ AllBelow es ∧ AllBelow fs := List.forall_mem_append

@[simp] theorem fails_some {es : List (Extent 64)} {r : U64} :
    (⟨es, some r⟩ : Outcome).Fails ↔ r.toInt < 0 := by
  simp [Outcome.Fails]

@[simp] theorem fails_none {es : List (Extent 64)} : ¬(⟨es, none⟩ : Outcome).Fails := by
  rintro ⟨r, ⟨⟩, -⟩

/-- A call that returns -1 at once is confined, whatever it is passed. -/
theorem confined_fail (passed : List (Extent 64)) : Outcome.fail.Confined passed :=
  confined_iff.2 ⟨allBelow_nil, Or.inr (fails_some.2 (by decide))⟩

/-- A call that accesses no more than it is passed is confined if that is below the bound, or if
it fails in time. -/
theorem confined_iff_or {o : Outcome} {passed : List (Extent 64)} {R : Prop}
    (hsub : AllBelow passed → AllBelow o.touched)
    (hR : ¬AllBelow passed → (AllBelow o.touched ∧ o.Fails ↔ R)) :
    o.Confined passed ↔ AllBelow passed ∨ R := by
  rw [confined_iff]
  by_cases hp : AllBelow passed
  · exact iff_of_true ⟨hsub hp, Or.inl hp⟩ (Or.inl hp)
  · rw [or_iff_right hp, or_iff_right hp, hR hp]

/-- The fields of a structure that ends below the bound. -/
theorem allBelow_fields {fs : List CType} {p : U64} {ks : List (Fin fs.length)}
    (h : (⟨p, (CType.struct fs).size⟩ : Extent 64).Below userPtrMax) :
    AllBelow (ks.map (fieldExtent fs p)) := by
  intro e he
  obtain ⟨j, -, rfl⟩ := List.mem_map.1 he
  exact h.part (CType.offset_add_size_le_struct j.isLt)

theorem validUserPtr_iff {p : U64} : validUserPtr p = true ↔ p.toNat < userPtrMax.toNat := by
  rw [validUserPtr, decide_eq_true_iff, BitVec.lt_def]

/-! ## Components of a path that is cut -/

section Paths

open Vfs

theorem rest_suffix (p : List U8) : (nextComponent p).2 <:+ p :=
  (List.dropWhile_suffix _).trans ((List.dropWhile_suffix _).trans (List.dropWhile_suffix _))

theorem rest_subset (p : List U8) : (nextComponent p).2 ⊆ p := (rest_suffix p).subset

theorem length_nextComponent_le (p : List U8) : (nextComponent p).2.length ≤ p.length :=
  (rest_suffix p).length_le

theorem dropWhile_append_of_ne_nil {f : U8 → Bool} {q : List U8} (r : List U8)
    (h : q.dropWhile f ≠ []) : (q ++ r).dropWhile f = q.dropWhile f ++ r := by
  rw [List.dropWhile_append, if_neg (by simpa using h)]

/-- A component that ends in the first part of the path, with the slashes after it. -/
theorem nextComponent_append {q : List U8} (r : List U8) (h : (nextComponent q).2 ≠ []) :
    nextComponent (q ++ r) = ((nextComponent q).1, (nextComponent q).2 ++ r) := by
  have h₂ : (q.dropWhile (· == slash)).dropWhile isName ≠ [] := by
    intro hn
    exact h (by rw [nextComponent, hn]; rfl)
  have h₁ : q.dropWhile (· == slash) ≠ [] := by
    intro hn
    exact h₂ (by rw [hn]; rfl)
  have htake : ((q.dropWhile (· == slash)) ++ r).takeWhile isName =
      (q.dropWhile (· == slash)).takeWhile isName := by
    rw [List.takeWhile_append, if_neg]
    intro hlen
    have := congrArg List.length
      (List.takeWhile_append_dropWhile (p := isName) (l := q.dropWhile (· == slash)))
    rw [List.length_append, hlen] at this
    exact h₂ (List.length_eq_zero_iff.1 (by omega))
  simp only [nextComponent]
  rw [dropWhile_append_of_ne_nil r h₁, htake, dropWhile_append_of_ne_nil r h₂,
    dropWhile_append_of_ne_nil r h]

theorem length_dropWhile_append_le {f : U8 → Bool} {q r : List U8} (h : q.dropWhile f = []) :
    ((q ++ r).dropWhile f).length ≤ r.length := by
  rw [List.dropWhile_append, if_pos (by simpa using h)]
  exact (List.dropWhile_suffix _).length_le

/-- A component that takes the first part of the path to its end. -/
theorem length_nextComponent_append_le {q r : List U8} (h : (nextComponent q).2 = []) :
    (nextComponent (q ++ r)).2.length ≤ r.length := by
  have hle : ∀ {f : U8 → Bool} {l : List U8}, (l.dropWhile f).length ≤ l.length :=
    (List.dropWhile_suffix _).length_le
  simp only [nextComponent] at h ⊢
  by_cases h₁ : q.dropWhile (· == slash) = []
  · exact hle.trans (hle.trans (length_dropWhile_append_le h₁))
  rw [dropWhile_append_of_ne_nil r h₁]
  by_cases h₂ : (q.dropWhile (· == slash)).dropWhile isName = []
  · exact hle.trans (length_dropWhile_append_le h₂)
  rw [dropWhile_append_of_ne_nil r h₂]
  exact length_dropWhile_append_le h

/-- In a path without 0, only slashes are not in a component. -/
theorem nextComponent_fst_eq_nil_iff {p : List U8} (h0 : (0 : U8) ∉ p) :
    (nextComponent p).1 = [] ↔ p.dropWhile (· == slash) = [] := by
  simp only [nextComponent]
  have hmem : ∀ c ∈ p.dropWhile (· == slash), c ≠ 0 :=
    fun c hc h => h0 (h ▸ (List.dropWhile_suffix _).subset hc)
  have hhead : ∀ c ∈ (p.dropWhile (· == slash)).head?, (c == slash) = false := head_dropWhile
  generalize p.dropWhile (· == slash) = s at hmem hhead
  rcases s with _ | ⟨c, s⟩
  · exact iff_of_true rfl rfl
  · refine iff_of_false ?_ (List.cons_ne_nil _ _)
    have hne : c ≠ slash := by simpa using hhead c rfl
    rw [List.takeWhile_cons_of_pos (isName_iff.2 ⟨hmem c List.mem_cons_self, hne⟩)]
    exact List.cons_ne_nil _ _

theorem components_rest_ne_nil {p : List U8} (h0 : (0 : U8) ∉ p) (h : (nextComponent p).2 ≠ []) :
    components (nextComponent p).2 ≠ [] := by
  rw [Ne, components_eq_nil_iff, nextComponent_fst_eq_nil_iff fun hc => h0 (rest_subset p hc)]
  rw [show (nextComponent p).2.dropWhile (· == slash) = (nextComponent p).2 from
    List.dropWhile_idempotent _ _]
  exact h

theorem nextComponent_fst_ne_nil {p : List U8} (h0 : (0 : U8) ∉ p) (h : (nextComponent p).2 ≠ []) :
    (nextComponent p).1 ≠ [] := by
  intro hn
  rw [nextComponent_fst_eq_nil_iff h0] at hn
  exact h (by rw [nextComponent, hn]; rfl)

namespace Kernel

variable {κ ι : Type} (k : Kernel κ ι)

/-! ## Where a walk stops -/

/-- One round of the walk : it goes on, fails, or has no result. -/
theorem walk_components {x : Mount × ℕ} {p : List U8} {s : State κ ι}
    (h : (nextComponent p).1 ≠ []) :
    walk k.env x (components p) s =
      match walkStep k.env x (nextComponent p).1 s with
      | some (.ok y, t) => walk k.env y (components (nextComponent p).2) t
      | some (.error e, t) => some (.error e, t)
      | none => none := by
  rw [components_cons h, walk_cons]
  rcases hx : walkStep k.env x (nextComponent p).1 s with _ | ⟨e | y, t⟩
  · exact Fallible.bind_none hx
  · exact Fallible.bind_error hx
  · exact Fallible.bind_ok hx

theorem length_pathRest_le (x : Mount × ℕ) (p : List U8) (s : State κ ι) :
    (k.pathRest x p s).length ≤ (nextComponent p).2.length := by
  rw [pathRest]
  split_ifs with h
  · exact le_refl _
  · rcases hx : walkStep k.env x (nextComponent p).1 s with _ | ⟨e | y, t⟩
    · exact le_refl _
    · exact le_refl _
    · exact (length_pathRest_le y _ t).trans (length_nextComponent_le _)
termination_by p.length
decreasing_by exact length_nextComponent h

/-- A walk that comes to its end has read the whole path. -/
theorem pathRest_eq_nil {x y : Mount × ℕ} {p : List U8} {s t : State κ ι} (h0 : (0 : U8) ∉ p)
    (h : walk k.env x (components p) s = some (.ok y, t)) : k.pathRest x p s = [] := by
  rw [pathRest]
  split_ifs with hp
  · by_contra hn
    exact nextComponent_fst_ne_nil h0 hn hp
  · rw [k.walk_components hp] at h
    rcases hx : walkStep k.env x (nextComponent p).1 s with _ | ⟨e | z, u⟩ <;> rw [hx] at h
    · cases h
    · cases h
    · exact pathRest_eq_nil (fun hc => h0 (rest_subset p hc)) h
termination_by p.length
decreasing_by exact length_nextComponent hp

/-- A walk along a path that is cut in two stops in the first part exactly if it fails there
before the last component. -/
theorem pathRest_append_iff {x : Mount × ℕ} {q r : List U8} {s : State κ ι}
    (h0 : (0 : U8) ∉ q) :
    r.length < (k.pathRest x (q ++ r) s).length ∧
        (∃ e t, walk k.env x (components (q ++ r)) s = some (.error e, t)) ↔
      ∃ e t, walk k.env x (components q).dropLast s = some (.error e, t) := by
  by_cases hq : (nextComponent q).2 = []
  · -- the walk reads beyond the first part before it looks anything up
    have hle := (k.length_pathRest_le x (q ++ r) s).trans (length_nextComponent_append_le hq)
    refine iff_of_false (fun h => absurd h.1 (not_lt.2 hle)) ?_
    have hlast : (components q).dropLast = [] := by
      rw [components_eq, hq]
      split_ifs <;> rfl
    rw [hlast]
    rintro ⟨e, t, ⟨⟩⟩
  · have hfst := nextComponent_fst_ne_nil h0 hq
    have happ := nextComponent_append r hq
    have hfst' : (nextComponent (q ++ r)).1 ≠ [] := by rw [happ]; exact hfst
    have hlast : (components q).dropLast =
        (nextComponent q).1 :: (components (nextComponent q).2).dropLast := by
      rw [components_cons hfst, List.dropLast_cons_of_ne_nil (components_rest_ne_nil h0 hq)]
    rw [k.walk_components hfst', hlast, walk_cons, pathRest, dif_neg hfst', happ]
    dsimp only
    rcases hx : walkStep k.env x (nextComponent q).1 s with _ | ⟨e | y, t⟩
    · rw [Fallible.bind_none hx]
      refine iff_of_false ?_ ?_
      · rintro ⟨-, e, t, ⟨⟩⟩
      · rintro ⟨e, t, ⟨⟩⟩
    · rw [Fallible.bind_error hx]
      have := List.length_pos_of_ne_nil hq
      refine iff_of_true ⟨?_, e, t, rfl⟩ ⟨e, t, rfl⟩
      rw [List.length_append]
      omega
    · rw [Fallible.bind_ok hx]
      exact pathRest_append_iff fun hc => h0 (rest_subset q hc)
termination_by q.length
decreasing_by exact length_nextComponent hfst

/-! ## Paths that cross the bound -/

/-- `vfs_lookup_parent` fails on the part of the path below the bound : a component is not found,
and another one starts below the bound after it. -/
def PathFails (path : U64) : Prop :=
  ∃ e s, vfsLookupParent k.env
    ((stringAt k.mem path).take (userPtrMax.toNat - path.toNat)) k.vfs = some (.error e, s)

theorem vfsLookupParent_error_iff {q : List U8} {s : State κ ι} :
    (∃ e t, vfsLookupParent k.env q s = some (.error e, t)) ↔
      (∃ e t, (start s : Option (Except ℤ (Mount × ℕ) × State κ ι)) = some (.error e, t)) ∨
        ∃ x t, start s = some (.ok x, t) ∧
          ∃ e u, walk k.env x (components q).dropLast t = some (.error e, u) := by
  rw [vfsLookupParent_eq]
  rcases hs : (start s : Option (Except ℤ (Mount × ℕ) × State κ ι)) with _ | ⟨e | x, t⟩
  · rw [Fallible.bind_none hs]
    simp
  · rw [Fallible.bind_error hs]
    simp
  · rw [Fallible.bind_ok hs]
    rcases hw : walk k.env x (components q).dropLast t with _ | ⟨e | y, u⟩
    · rw [Fallible.bind_none hw]
      simp [hw]
    · rw [Fallible.bind_error hw]
      simp [hw]
    · rw [Fallible.bind_ok hw]
      simp [hw]

/-- A path that ends below the bound is read below it. -/
theorem allBelow_vfsLookup (path : U64) (h : (stringExtent k.mem path).Below userPtrMax) :
    AllBelow (k.vfsLookup path).1 := by
  rw [vfsLookup]
  split_ifs
  · exact allBelow_nil
  · refine allBelow_cons.2 ⟨h.mono ?_, allBelow_nil⟩
    unfold pathReads
    split <;> omega

/-- A path that is found is read to its end. -/
theorem vfsLookup_found (path : U64) {x : Mount × ℕ}
    (h : (k.vfsLookup path).2 = some (.ok x)) :
    (k.vfsLookup path).1 = [stringExtent k.mem path] := by
  rw [Kernel.vfsLookup] at h ⊢
  split_ifs at h ⊢ with hp
  · cases h
  obtain ⟨⟨_, u⟩, hlook, rfl⟩ := Option.map_eq_some_iff.1 h
  rw [vfsLookup_eq] at hlook
  obtain ⟨y, t, hs, hw⟩ := Fallible.bind_eq_ok.1 hlook
  rw [pathReads, hs, stringExtent]
  dsimp only
  rw [k.pathRest_eq_nil (zero_notMem_stringAt _ _) hw]
  rfl

/-- When the walk along a path that crosses the bound stops below it. -/
theorem pathFails_iff {path : U64} (hne : path ≠ 0) (hpath : path.toNat < userPtrMax.toNat)
    (hs : ¬(stringExtent k.mem path).Below userPtrMax) :
    AllBelow (k.vfsLookup path).1 ∧ (∃ e, (k.vfsLookup path).2 = some (.error e)) ↔
      k.PathFails path := by
  rw [PathFails, vfsLookupParent_error_iff, Kernel.vfsLookup, if_neg hne]
  dsimp only
  rw [allBelow_cons, and_iff_left allBelow_nil, vfsLookup_eq, pathReads]
  rcases hst : (start k.vfs : Option (Except ℤ (Mount × ℕ) × State κ ι)) with _ | ⟨e | x, t⟩
  · rw [Fallible.bind_none hst]
    simp
  · rw [Fallible.bind_error hst]
    exact iff_of_true ⟨Extent.below_zero, e, rfl⟩ (Or.inl ⟨e, t, rfl⟩)
  rw [Fallible.bind_ok hst]
  -- the string is cut at the bound
  have hlen := le_length_of_not_below hs
  have hcut := List.take_append_drop (userPtrMax.toNat - path.toNat) (stringAt k.mem path)
  have h0 : (0 : U8) ∉ (stringAt k.mem path).take (userPtrMax.toNat - path.toNat) :=
    fun h => zero_notMem_stringAt _ _ (List.mem_of_mem_take h)
  have hrest := k.pathRest_append_iff (x := x) (s := t)
    (r := (stringAt k.mem path).drop (userPtrMax.toNat - path.toNat)) h0
  rw [hcut, List.length_drop] at hrest
  have hbelow : (⟨path, (stringAt k.mem path).length -
        (k.pathRest x (stringAt k.mem path) t).length + 1⟩ : Extent 64).Below userPtrMax ↔
      (stringAt k.mem path).length - (userPtrMax.toNat - path.toNat) <
        (k.pathRest x (stringAt k.mem path) t).length := by
    rw [Extent.below_iff_of_pos (Nat.succ_pos _)]
    omega
  rw [hbelow]
  constructor
  · rintro ⟨hlt, e, he⟩
    obtain ⟨⟨_, u⟩, hw, rfl⟩ := Option.map_eq_some_iff.1 he
    exact Or.inr ⟨x, t, rfl, hrest.1 ⟨hlt, e, u, hw⟩⟩
  · rintro (⟨e, u, ⟨⟩⟩ | ⟨y, u, ⟨⟩, hw⟩)
    obtain ⟨hlt, e, v, hw⟩ := hrest.2 hw
    exact ⟨hlt, e, by rw [hw]; rfl⟩

/-- When a path that crosses the bound is refused below it. -/
theorem vfsLookup_fails_iff {path : U64} (hpath : path.toNat < userPtrMax.toNat)
    (hs : ¬(stringExtent k.mem path).Below userPtrMax) :
    AllBelow (k.vfsLookup path).1 ∧ (∃ e, (k.vfsLookup path).2 = some (.error e)) ↔
      path = 0 ∨ k.PathFails path := by
  by_cases h0 : path = 0
  · refine iff_of_true ?_ (Or.inl h0)
    rw [Kernel.vfsLookup, if_pos h0]
    exact ⟨allBelow_nil, _, rfl⟩
  · rw [or_iff_right h0]
    exact k.pathFails_iff h0 hpath hs

/-- The call fails if its path is not found, and it accesses what the walk along the path does. -/
def AfterLookup (o : Outcome) : Reply (Mount × ℕ) → Prop
  | (es, none) => o = ⟨es, none⟩
  | (es, some (.error _)) => o = ⟨es, some (-1)⟩
  | (es, some (.ok _)) => es ⊆ o.touched

/-- A call whose path crosses the bound is confined exactly if the path is refused below it. -/
theorem crossing_confined_iff {o : Outcome} {es : List (Extent 64)} {path : U64}
    (hpath : path.toNat < userPtrMax.toNat) (hs : ¬(stringExtent k.mem path).Below userPtrMax)
    (hes : ¬AllBelow es) (ho : AfterLookup o (k.vfsLookup path)) :
    o.Confined es ↔ path = 0 ∨ k.PathFails path := by
  rw [confined_iff, or_iff_right hes, ← k.vfsLookup_fails_iff hpath hs]
  have hfound := fun x => k.vfsLookup_found path (x := x)
  rcases hl : k.vfsLookup path with ⟨fs, _ | e | x⟩ <;> rw [hl] at ho hfound
  · rw [show o = ⟨fs, none⟩ from ho]
    simp
  · rw [show o = ⟨fs, some (-1)⟩ from ho]
    simp
  · -- the walk came to the end of the string
    have hfs : ¬AllBelow fs := by
      rw [show fs = _ from hfound x rfl, allBelow_cons]
      exact fun h => hs h.1
    exact iff_of_false (fun h => hfs fun e he => h.1 e (ho he)) fun h => hfs h.1

end Kernel

end Paths

namespace Kernel

variable {κ ι : Type} (k : Kernel κ ι)

/-! ## The arguments of a call -/

/-- What the arguments of a call reach. -/
def passed (c : Syscall) (a1 a2 a3 : U64) : List (Extent 64) :=
  match c with
  | .sysRead | .sysWrite => [⟨a2, a3.toNat⟩]
  | .sysOpen => [stringExtent k.mem a1]
  | .sysExec => stringExtent k.mem a1 :: setupUserStack k.mem a2
  | .sysFstat => [⟨a2, (CType.struct vfsStatFields).size⟩]
  | .sysStat => [stringExtent k.mem a1, ⟨a2, (CType.struct vfsStatFields).size⟩]
  | .sysWait => if a1 = 0 then [] else [⟨a1, 4⟩]
  | .sysPipe => [⟨a1, 8⟩]
  | .sysFbinfo => [⟨a1, (CType.struct fbInfoFields).size⟩]
  | _ => []

/-- The operation is missing, or fails before it gets to the bound. -/
def TransferFails (op : Option FileOp) (buf count : U64) : Prop :=
  buf = 0 ∨ ∀ o ∈ op, (∃ r, (o.run count).2 = some r ∧ r.toInt < 0) ∧
    (⟨buf, (o.run count).1⟩ : Extent 64).Below userPtrMax

/-- `vfs_stat` finds no inode with a `getattr` for the path. -/
def StatFails (path : U64) : Prop :=
  (∃ e, (k.vfsLookup path).2 = some (.error e)) ∨
    ∃ x, (k.vfsLookup path).2 = some (.ok x) ∧ k.getattr x = none

/-- Two descriptors are free. -/
def TwoFree (files : Fin maxFds → Option OpenFile) : Prop :=
  ∃ i j, i ≠ j ∧ files i = none ∧ files j = none

/-- The call returns a negative value before it gets to the bound. -/
def Refused (c : Syscall) (a1 a2 a3 : U64) : Prop :=
  match c with
  | .sysRead => validUserPtr a2 = false ∨
      ∀ f ∈ k.currentFile a1, TransferFails f.read a2 ((a3.setWidth 32).setWidth 64)
  | .sysWrite => validUserPtr a2 = false ∨
      (k.currentFile a1 = none → a1 ≠ 1 ∧ a1 ≠ 2) ∧
      ∀ f ∈ k.currentFile a1, TransferFails f.write a2 ((a3.setWidth 32).setWidth 64)
  | .sysOpen => k.files = none ∨ validUserPtr a1 = false ∨ a1 = 0 ∨ k.PathFails a1
  | .sysFstat => validUserPtr a2 = false ∨ ∀ f ∈ k.currentFile a1, f.getattr = none
  | .sysStat => validUserPtr a1 = false ∨ validUserPtr a2 = false ∨ a1 = 0 ∨ a2 = 0 ∨
      if (stringExtent k.mem a1).Below userPtrMax then k.StatFails a1 else k.PathFails a1
  | .sysWait => k.files = none ∨ validUserPtr a1 = false ∧ ∃ pid ∈ k.child, pid.toInt < 0
  | .sysPipe => validUserPtr a1 = false ∨ k.pipeCreated = false ∨
      ∀ files ∈ k.files, ¬TwoFree files
  | .sysFbinfo => validUserPtr a1 = false
  | _ => False

/-- When `proc_exec` is confined : the path ends below the bound, and if the program is loaded the
arguments do as well, and so does the string at `path` in the image of the program. -/
def ExecObeys (path argv : U64) : Prop :=
  k.files = none ∨ path = 0 ∨ (stringExtent k.mem path).Below userPtrMax ∧
    match (k.vfsLookup path).2 with
    | none => AllBelow (setupUserStack k.mem argv)
    | some (.error _) => True
    | some (.ok x) =>
      match k.elf x with
      | .loaded image =>
        AllBelow (setupUserStack k.mem argv) ∧ (stringExtent image path).Below userPtrMax
      | _ => True

/-- When a call is confined. -/
def Obeys (num a1 a2 a3 : U64) : Prop :=
  match Syscall.ofNumber num with
  | .sysExec => k.ExecObeys a1 a2
  | c => AllBelow (k.passed c a1 a2 a3) ∨ k.Refused c a1 a2 a3

/-! ## The calls -/

theorem lt_of_validUserPtr {p : U64} (h : validUserPtr p = true) : p.toNat < userPtrMax.toNat :=
  validUserPtr_iff.1 h

theorem files_isSome_of_currentFile {fd : U64} {f : OpenFile} (h : k.currentFile fd = some f) :
    k.files.isSome = true := by
  obtain ⟨files, hk, -⟩ := Option.bind_eq_some_iff.1 h
  rw [hk]
  rfl

theorem low_toNat_le (len : U64) : ((len.setWidth 32).setWidth 64).toNat ≤ len.toNat := by
  rw [BitVec.toNat_setWidth, BitVec.toNat_setWidth]
  exact (Nat.mod_le _ _).trans (Nat.mod_le _ _)

/-- `vfs_read` and `vfs_write` on a buffer that is passed with a length of `n` or more. -/
theorem allBelow_vfsTransfer {op : Option FileOp} {buf count : U64} {n : ℕ}
    (hn : count.toNat ≤ n) (h : (⟨buf, n⟩ : Extent 64).Below userPtrMax) :
    AllBelow (vfsTransfer op buf count).touched := by
  unfold vfsTransfer
  split_ifs
  · exact allBelow_nil
  · rcases op with _ | o
    · exact allBelow_nil
    · exact allBelow_cons.2 ⟨h.mono ((o.bounded count).trans hn), allBelow_nil⟩

theorem vfsTransfer_fails_iff {op : Option FileOp} {buf count : U64} :
    AllBelow (vfsTransfer op buf count).touched ∧ (vfsTransfer op buf count).Fails ↔
      TransferFails op buf count := by
  unfold vfsTransfer TransferFails
  split_ifs with h0
  · exact iff_of_true ⟨allBelow_nil, fails_some.2 (by decide)⟩ (Or.inl h0)
  · rw [or_iff_right h0]
    rcases op with _ | o
    · exact iff_of_true ⟨allBelow_nil, fails_some.2 (by decide)⟩ (fun o ho => by cases ho)
    · simp [Outcome.Fails, and_comm]

theorem sysRead_confined_iff (fd buf len : U64) :
    (k.sysRead fd buf len).Confined (k.passed .sysRead fd buf len) ↔
      AllBelow (k.passed .sysRead fd buf len) ∨ k.Refused .sysRead fd buf len := by
  rw [sysRead]
  rcases hv : validUserPtr buf with _ | _
  · rw [Bool.and_false, if_neg Bool.false_ne_true]
    exact iff_of_true (confined_fail _) (Or.inr (Or.inl hv))
  rw [Bool.and_true]
  rcases hf : k.currentFile fd with _ | f
  · dsimp only
    rw [ite_self]
    exact iff_of_true (confined_fail _) (Or.inr (Or.inr (by rw [hf]; rintro f ⟨⟩)))
  · rw [if_pos (k.files_isSome_of_currentFile hf)]
    refine confined_iff_or (fun h => ?_) fun _ => ?_
    · exact allBelow_vfsTransfer (low_toNat_le len) (allBelow_cons.1 h).1
    · simp only [Refused, hv, hf, Option.mem_def, Option.some.injEq, forall_eq', Bool.true_eq_false,
        false_or]
      exact vfsTransfer_fails_iff

theorem sysWrite_confined_iff (fd buf len : U64) :
    (k.sysWrite fd buf len).Confined (k.passed .sysWrite fd buf len) ↔
      AllBelow (k.passed .sysWrite fd buf len) ∨ k.Refused .sysWrite fd buf len := by
  rw [sysWrite]
  rcases hv : validUserPtr buf with _ | _
  · exact iff_of_true (confined_fail _) (Or.inr (Or.inl hv))
  rw [if_pos rfl]
  rcases hf : k.currentFile fd with _ | f
  · dsimp only
    split_ifs with hfd
    · -- the console loop reads all of the buffer
      refine confined_iff_or id fun h => iff_of_false (fun hc => h hc.1) ?_
      rintro (hr | ⟨hr, -⟩)
      · exact Bool.noConfusion (hv.symm.trans hr)
      · rcases hfd with h1 | h2
        · exact (hr hf).1 h1
        · exact (hr hf).2 h2
    · refine iff_of_true (confined_fail _) (Or.inr (Or.inr ⟨fun _ => not_or.1 hfd, ?_⟩))
      rw [hf]
      rintro f ⟨⟩
  · refine confined_iff_or (fun h => ?_) fun _ => ?_
    · exact allBelow_vfsTransfer (low_toNat_le len) (allBelow_cons.1 h).1
    · simp only [Refused, hv, hf, Option.mem_def, Option.some.injEq, forall_eq', Bool.true_eq_false,
        false_or, reduceCtorEq, false_imp_iff, true_and]
      exact vfsTransfer_fails_iff

theorem sysOpen_confined_iff (path flags a3 : U64) :
    (k.sysOpen path flags).Confined (k.passed .sysOpen path flags a3) ↔
      AllBelow (k.passed .sysOpen path flags a3) ∨ k.Refused .sysOpen path flags a3 := by
  rw [sysOpen]
  rcases hk : k.files with _ | files
  · exact iff_of_true (confined_fail _) (Or.inr (Or.inl hk))
  rcases hv : validUserPtr path with _ | _
  · exact iff_of_true (confined_fail _) (Or.inr (Or.inr (Or.inl hv)))
  dsimp only
  rw [if_pos rfl]
  have hpassed : AllBelow (k.passed .sysOpen path flags a3) ↔
      (stringExtent k.mem path).Below userPtrMax := by
    rw [passed, allBelow_cons, and_iff_left allBelow_nil]
  by_cases hstr : (stringExtent k.mem path).Below userPtrMax
  · have hes := k.allBelow_vfsLookup path hstr
    refine iff_of_true (confined_iff.2 ⟨?_, Or.inl (hpassed.2 hstr)⟩) (Or.inl (hpassed.2 hstr))
    rcases hl : k.vfsLookup path with ⟨es, _ | e | x⟩ <;> rw [hl] at hes <;> dsimp only
    · exact hes
    · exact hes
    · split_ifs
      · split <;> exact hes
      · exact hes
  · have hes := mt hpassed.1 hstr
    have href : k.Refused .sysOpen path flags a3 ↔ path = 0 ∨ k.PathFails path := by
      simp only [Refused, hk, hv, reduceCtorEq, Bool.true_eq_false, false_or]
    rw [or_iff_right hes, href]
    refine k.crossing_confined_iff (lt_of_validUserPtr hv) hstr hes ?_
    rcases k.vfsLookup path with ⟨es, _ | e | x⟩ <;> dsimp only
    · rfl
    · rfl
    · split_ifs
      · split <;> exact List.Subset.refl es
      · exact List.Subset.refl es

theorem sysFstat_confined_iff (fd st a3 : U64) :
    (k.sysFstat fd st).Confined (k.passed .sysFstat fd st a3) ↔
      AllBelow (k.passed .sysFstat fd st a3) ∨ k.Refused .sysFstat fd st a3 := by
  rw [sysFstat]
  rcases hv : validUserPtr st with _ | _
  · rw [Bool.and_false, if_neg Bool.false_ne_true]
    exact iff_of_true (confined_fail _) (Or.inr (Or.inl hv))
  rw [Bool.and_true]
  rcases hf : k.currentFile fd with _ | f
  · dsimp only
    rw [ite_self]
    exact iff_of_true (confined_fail _) (Or.inr (Or.inr (by rw [hf]; rintro f ⟨⟩)))
  rw [if_pos (k.files_isSome_of_currentFile hf)]
  dsimp only
  rw [vfsFstat]
  split_ifs with h0
  · exact iff_of_true (confined_iff.2 ⟨allBelow_nil, Or.inr (fails_some.2 (by decide))⟩)
      (Or.inl (by rw [h0]; exact allBelow_cons.2 ⟨by decide, allBelow_nil⟩))
  rcases hg : f.getattr with _ | fields
  · refine iff_of_true (confined_iff.2 ⟨allBelow_nil, Or.inr (fails_some.2 (by decide))⟩)
      (Or.inr (Or.inr ?_))
    rw [hf]
    rintro f' ⟨⟩
    exact hg
  · refine confined_iff_or (fun h => allBelow_fields (allBelow_cons.1 h).1) fun _ => ?_
    refine iff_of_false (fun hc => absurd (fails_some.1 hc.2) (by decide)) ?_
    rintro (h | h)
    · exact Bool.noConfusion (hv.symm.trans h)
    · cases (h f hf).symm.trans hg

theorem sysFbinfo_confined_iff (info a2 a3 : U64) :
    (sysFbinfo info).Confined (k.passed .sysFbinfo info a2 a3) ↔
      AllBelow (k.passed .sysFbinfo info a2 a3) ∨ k.Refused .sysFbinfo info a2 a3 := by
  rw [sysFbinfo]
  rcases hv : validUserPtr info with _ | _
  · exact iff_of_true (confined_fail _) (Or.inr hv)
  rw [if_pos rfl]
  refine confined_iff_or (fun h => allBelow_fields (allBelow_cons.1 h).1) fun _ => ?_
  exact iff_of_false (fun hc => absurd (fails_some.1 hc.2) (by decide))
    fun h => Bool.noConfusion (hv.symm.trans h)

theorem sysWait_confined_iff (statusOut a2 a3 : U64) :
    (k.sysWait statusOut).Confined (k.passed .sysWait statusOut a2 a3) ↔
      AllBelow (k.passed .sysWait statusOut a2 a3) ∨ k.Refused .sysWait statusOut a2 a3 := by
  rw [sysWait]
  rcases hk : k.files with _ | files
  · exact iff_of_true (confined_fail _) (Or.inr (Or.inl hk))
  rcases hc : k.child with _ | pid
  · refine confined_iff_or (fun _ => allBelow_nil) fun _ => ?_
    refine iff_of_false (fun h => fails_none h.2) ?_
    rintro (h | ⟨-, pid, h, -⟩)
    · cases hk.symm.trans h
    · cases hc.symm.trans h
  dsimp only
  refine confined_iff_or (fun h => ?_) fun h => ?_
  · dsimp only
    split_ifs with hs
    · rwa [passed, if_neg hs.1] at h
    · exact allBelow_nil
  · have hs0 : statusOut ≠ 0 := by
      rintro rfl
      exact h allBelow_nil
    rw [passed, if_neg hs0] at h
    simp only [Refused, hk, hc, fails_some, Option.mem_def, Option.some.injEq, exists_eq_left',
      reduceCtorEq, false_or]
    rw [BitVec.toInt_signExtend_of_le (by decide)]
    rcases hv : validUserPtr statusOut with _ | _
    · simp
    · -- the store crosses the bound
      rw [if_pos ⟨hs0, rfl⟩]
      exact iff_of_false (fun hc => h hc.1) (fun hc => Bool.noConfusion hc.1)

theorem fdAlloc_eq_none_iff {files : Fin maxFds → Option OpenFile} :
    fdAlloc files = none ↔ ∀ fd, files fd ≠ none := by
  simp [fdAlloc]

theorem fdAlloc_eq_some {files : Fin maxFds → Option OpenFile} {fd : Fin maxFds}
    (h : fdAlloc files = some fd) : files fd = none :=
  Option.isNone_iff_eq_none.1 (List.find?_some (p := fun fd => (files fd).isNone) h)

/-- `sys_pipe` finds two descriptors if there are two. -/
theorem twoFree_iff {files : Fin maxFds → Option OpenFile} :
    TwoFree files ↔ ∃ r w, fdAlloc files = some r ∧
      fdAlloc (Function.update files r (some pipeEnd)) = some w := by
  constructor
  · rintro ⟨i, j, hij, hi, hj⟩
    rcases hr : fdAlloc files with _ | r
    · exact absurd hi (fdAlloc_eq_none_iff.1 hr i)
    rcases hw : fdAlloc (Function.update files r (some pipeEnd)) with _ | w
    · -- one of the two is not the first one found
      exfalso
      have hfull := fdAlloc_eq_none_iff.1 hw
      by_cases hir : i = r
      · have hjr : j ≠ r := fun hjr => hij (hir.trans hjr.symm)
        exact hfull j (by rw [Function.update_of_ne hjr, hj])
      · exact hfull i (by rw [Function.update_of_ne hir, hi])
    · exact ⟨r, w, rfl, hw⟩
  · rintro ⟨r, w, hr, hw⟩
    have hw' := fdAlloc_eq_some hw
    have hne : w ≠ r := by
      rintro rfl
      rw [Function.update_self] at hw'
      cases hw'
    rw [Function.update_of_ne hne] at hw'
    exact ⟨r, w, hne.symm, fdAlloc_eq_some hr, hw'⟩

theorem sysPipe_confined_iff (fds a2 a3 : U64) :
    (k.sysPipe fds).Confined (k.passed .sysPipe fds a2 a3) ↔
      AllBelow (k.passed .sysPipe fds a2 a3) ∨ k.Refused .sysPipe fds a2 a3 := by
  rw [sysPipe]
  rcases hv : validUserPtr fds with _ | _
  · exact iff_of_true (confined_fail _) (Or.inr (Or.inl hv))
  rcases hk : k.files with _ | files
  · exact iff_of_true (confined_fail _) (Or.inr (Or.inr (Or.inr (by rw [hk]; rintro f ⟨⟩))))
  rcases hp : k.pipeCreated with _ | _
  · exact iff_of_true (confined_fail _) (Or.inr (Or.inr (Or.inl hp)))
  have href : k.Refused .sysPipe fds a2 a3 ↔ ¬TwoFree files := by
    simp [Refused, hv, hk, hp]
  dsimp only
  rw [if_pos rfl, if_pos rfl, href, twoFree_iff]
  rcases hr : fdAlloc files with _ | r
  · exact iff_of_true (confined_fail _) (Or.inr (by simp))
  rcases hw : fdAlloc (Function.update files r (some pipeEnd)) with _ | w
  · dsimp only
    rw [hw]
    refine iff_of_true (confined_fail _) (Or.inr ?_)
    rintro ⟨r', w', ⟨⟩, hw'⟩
    cases hw.symm.trans hw'
  · dsimp only
    rw [hw]
    refine confined_iff_or (fun h => ?_) fun _ => ?_
    · have h8 := (allBelow_cons.1 h).1
      exact allBelow_cons.2 ⟨h8.mono (by decide),
        allBelow_cons.2 ⟨h8.part (i := 4) (m := 4) (by decide), allBelow_nil⟩⟩
    · exact iff_of_false (fun hc => absurd (fails_some.1 hc.2) (by decide))
        fun hn => hn ⟨r, w, rfl, hw⟩

/-- `vfs_stat` on a structure and a path that are passed. -/
theorem vfsStat_confined_iff {path st a3 : U64} (hpath : validUserPtr path = true)
    (hst : validUserPtr st = true) :
    (Reply.check (k.vfsStat path st)).Confined (k.passed .sysStat path st a3) ↔
      AllBelow (k.passed .sysStat path st a3) ∨ k.Refused .sysStat path st a3 := by
  rw [Kernel.vfsStat]
  split_ifs with h0
  · refine iff_of_true (confined_iff.2 ⟨allBelow_nil, Or.inr (fails_some.2 (by decide))⟩) ?_
    rcases h0 with h0 | h0
    · exact Or.inr (Or.inr (Or.inr (Or.inl h0)))
    · exact Or.inr (Or.inr (Or.inr (Or.inr (Or.inl h0))))
  obtain ⟨hp0, hs0⟩ := not_or.1 h0
  have hpassed : AllBelow (k.passed .sysStat path st a3) ↔
      (stringExtent k.mem path).Below userPtrMax ∧
        (⟨st, (CType.struct vfsStatFields).size⟩ : Extent 64).Below userPtrMax := by
    rw [passed, allBelow_cons, allBelow_cons, and_iff_left allBelow_nil]
  have href : k.Refused .sysStat path st a3 ↔
      if (stringExtent k.mem path).Below userPtrMax then k.StatFails path
      else k.PathFails path := by
    simp only [Refused, hpath, hst, hp0, hs0, Bool.true_eq_false, false_or]
  rw [href]
  by_cases hstr : (stringExtent k.mem path).Below userPtrMax
  · -- the path is read below the bound, and the structure may cross it
    rw [if_pos hstr, StatFails]
    have hes := k.allBelow_vfsLookup path hstr
    rcases hl : k.vfsLookup path with ⟨es, _ | e | x⟩ <;> rw [hl] at hes <;> dsimp only at hes ⊢
    · refine confined_iff_or (fun _ => hes) fun _ => iff_of_false (fun h => fails_none h.2) ?_
      simp
    · exact iff_of_true (confined_iff.2 ⟨hes, Or.inr (fails_some.2 (by decide))⟩)
        (Or.inr (Or.inl ⟨e, rfl⟩))
    · rcases hg : k.getattr x with _ | fields <;> dsimp only [fillStat, Reply.check]
      · exact iff_of_true (confined_iff.2 ⟨allBelow_append.2 ⟨hes, allBelow_nil⟩,
          Or.inr (fails_some.2 (by decide))⟩) (Or.inr (Or.inr ⟨x, rfl, hg⟩))
      · refine confined_iff_or
          (fun h => allBelow_append.2 ⟨hes, allBelow_fields (hpassed.1 h).2⟩) fun _ => ?_
        refine iff_of_false (fun h => absurd (fails_some.1 h.2) (by decide)) ?_
        rintro (⟨e, ⟨⟩⟩ | ⟨y, ⟨⟩, hy⟩)
        cases hg.symm.trans hy
  · have hes : ¬AllBelow (k.passed .sysStat path st a3) := fun h => hstr (hpassed.1 h).1
    rw [if_neg hstr, or_iff_right hes]
    refine (k.crossing_confined_iff (lt_of_validUserPtr hpath) hstr hes ?_).trans
      (or_iff_right hp0)
    rcases k.vfsLookup path with ⟨es, _ | e | x⟩ <;> dsimp only [Reply.check]
    · rfl
    · rfl
    · rcases k.getattr x with _ | fields <;> exact List.subset_append_left _ _

theorem sysStat_confined_iff (path st a3 : U64) :
    (k.sysStat path st).Confined (k.passed .sysStat path st a3) ↔
      AllBelow (k.passed .sysStat path st a3) ∨ k.Refused .sysStat path st a3 := by
  rw [sysStat]
  rcases hpath : validUserPtr path with _ | _
  · rw [Bool.false_and, if_neg Bool.false_ne_true]
    exact iff_of_true (confined_fail _) (Or.inr (Or.inl hpath))
  rcases hst : validUserPtr st with _ | _
  · rw [Bool.and_false, if_neg Bool.false_ne_true]
    exact iff_of_true (confined_fail _) (Or.inr (Or.inr (Or.inl hst)))
  rw [Bool.and_true, if_pos rfl]
  exact k.vfsStat_confined_iff hpath hst

theorem procExec_confined_iff (path argv a3 : U64) :
    (k.procExec path argv).Confined (k.passed .sysExec path argv a3) ↔ k.ExecObeys path argv := by
  rw [procExec, ExecObeys]
  rcases hk : k.files with _ | files
  · exact iff_of_true (confined_fail _) (Or.inl rfl)
  dsimp only
  rw [or_iff_right (Option.some_ne_none files), confined_iff, passed, allBelow_cons]
  by_cases h0 : path = 0
  · rw [Kernel.vfsLookup, klogPath, if_pos h0, if_pos h0]
    exact iff_of_true ⟨allBelow_nil, Or.inr (fails_some.2 (by decide))⟩ (Or.inl h0)
  rw [or_iff_right h0, klogPath, if_neg h0]
  have hmem := k.allBelow_vfsLookup path
  have hfound := fun x => k.vfsLookup_found path (x := x)
  have hneg : (-1 : U64).toInt < 0 := by decide
  have hzero : ¬(0 : U64).toInt < 0 := by decide
  rcases hl : k.vfsLookup path with ⟨es, _ | e | x⟩ <;> rw [hl] at hmem hfound <;>
    dsimp only at hmem hfound ⊢
  · rw [or_iff_left fails_none]
    exact ⟨And.right, fun h => ⟨hmem h.1, h⟩⟩
  · -- the log prints the whole path
    rw [allBelow_append, allBelow_cons, fails_some]
    exact ⟨fun h => ⟨h.1.2.1, trivial⟩, fun h => ⟨⟨hmem h.1, h.1, allBelow_nil⟩, Or.inr hneg⟩⟩
  · obtain rfl := hfound x rfl
    rcases k.elf x with _ | _ | image <;> dsimp only
    · rw [allBelow_append, allBelow_cons, fails_some]
      exact ⟨fun h => ⟨h.1.1.1, trivial⟩,
        fun h => ⟨⟨⟨h.1, allBelow_nil⟩, h.1, allBelow_nil⟩, Or.inr hneg⟩⟩
    · rw [allBelow_cons, fails_some]
      exact ⟨fun h => ⟨h.1.1, trivial⟩, fun h => ⟨⟨h.1, allBelow_nil⟩, Or.inr hneg⟩⟩
    · rw [allBelow_append, allBelow_append, allBelow_cons, allBelow_cons, fails_some,
        or_iff_left hzero]
      exact ⟨fun h => ⟨h.2.1, h.2.2, h.1.2.1⟩,
        fun h => ⟨⟨⟨⟨h.1, allBelow_nil⟩, h.2.1⟩, h.2.2, allBelow_nil⟩, h.1, h.2.1⟩⟩

/-- A system call is confined exactly if all it is passed ends below the bound or it is refused
before it gets there, and for `proc_exec` if `ExecObeys` holds. -/
theorem syscallHandler_confined_iff (num a1 a2 a3 a4 a5 : U64) :
    (k.syscallHandler num a1 a2 a3 a4 a5).Confined
      (k.passed (Syscall.ofNumber num) a1 a2 a3) ↔ k.Obeys num a1 a2 a3 := by
  -- a call without a pointer accesses nothing and is passed nothing
  have hplain : ∀ (r : Option U64) (P : Prop),
      (⟨[], r⟩ : Outcome).Confined [] ↔ AllBelow [] ∨ P := fun r P =>
    iff_of_true (confined_iff.2 ⟨allBelow_nil, Or.inl allBelow_nil⟩) (Or.inl allBelow_nil)
  rw [syscallHandler, Obeys]
  cases Syscall.ofNumber num with
  | sysWrite => exact k.sysWrite_confined_iff a1 a2 a3
  | sysRead => exact k.sysRead_confined_iff a1 a2 a3
  | sysExec => exact k.procExec_confined_iff a1 a2 a3
  | sysOpen => exact k.sysOpen_confined_iff a1 a2 a3
  | sysFstat => exact k.sysFstat_confined_iff a1 a2 a3
  | sysStat => exact k.sysStat_confined_iff a1 a2 a3
  | sysWait => exact k.sysWait_confined_iff a1 a2 a3
  | sysPipe => exact k.sysPipe_confined_iff a1 a2 a3
  | sysFbinfo => exact k.sysFbinfo_confined_iff a1 a2 a3
  | _ => exact hplain _ _

end Kernel

/-! ## A kernel address as a path -/

/-- A process without open files, with the root mounted. The kernel half of the memory starts
with an `x`. -/
def bootKernel : Kernel ℕ Bool where
  mem a := if a = 0xFFFF800000000000 then 120 else 0
  files := some fun _ => none
  env := Vfs.bootEnv
  vfs := ((Vfs.vfsMount Vfs.bootEnv Vfs.initfs 0 [Vfs.slash]
    (Vfs.init [Vfs.initfs, Vfs.devfs] 1)).map Prod.snd).getD (Vfs.init [] 1)
  opens _ _ := false
  getattr _ := none
  elf _ := .unreadable
  child := none
  pipeCreated := false
  plain _ _ _ _ := some 0

/-- `exec` reads a path at a kernel address, and `write` to the console a buffer across the
bound. -/
theorem kernel_path_read :
    ¬(bootKernel.syscallHandler 3 0xFFFF800000000000 0 0 0 0).Confined
        (bootKernel.passed (Syscall.ofNumber 3) 0xFFFF800000000000 0 0) ∧
      ¬(bootKernel.syscallHandler 1 1 0x7FFFFFFFFFFF 2 0 0).Confined
        (bootKernel.passed (Syscall.ofNumber 1) 1 0x7FFFFFFFFFFF 2) := by
  constructor
  · exact fun h => absurd (confined_iff.1 h).1 (by decide +kernel)
  · exact fun h => absurd (confined_iff.1 h).1 (by decide)

end UserPointers

end Jeos
