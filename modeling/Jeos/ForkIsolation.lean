import Mathlib.Data.Set.Finite.List
import Jeos.BuddyOwnership
import Jeos.ForkMemory

/-!
# Isolation after a fork

A user access goes through the four levels of the tables of its address space, and
each entry on the way must be present and have `PTE_USER`. `userRead` and `userWrite`
are such accesses; an access that finds no entry faults and does nothing. The
writable bit is not looked at, so a statement about all writes is about the allowed
ones too.

`Built` are the address spaces that `create_user_pml4` and `map_page_pml4` make. In
between, everyone else may change the memory : the contents of the frames, the free
lists, and the two bits the processor sets in the entries.
-/

namespace Jeos

open ByteMemory DyadicBlock TreeWalk

/-! ## User accesses -/

/-- The address a user access to `va` reaches, in the direct map. -/
def userAddr (h : Heap) (pml4 va : U64) : Option U64 :=
  (userPte h pml4 va).map fun e => h.pteAddr e + (va &&& ~~~pageFrameMask)

/-- The byte a user access reads. -/
def userRead (h : Heap) (pml4 va : U64) : Option U8 := (userAddr h pml4 va).map h.mem

/-- A byte written through an address space. -/
structure UserStore where
  pml4 : U64
  va : U64
  byte : U8

/-- The memory after a user write, which does nothing where it faults. -/
def userWrite (h : Heap) (w : UserStore) : Heap :=
  match userAddr h w.pml4 w.va with
  | some x => { h with mem := Function.update h.mem x w.byte }
  | none => h

/-- Several writes, one after the other. -/
def userWrites (h : Heap) (ws : List UserStore) : Heap := ws.foldl userWrite h

section Access

variable {h g g' : Heap} {pml4 a b va x e : U64} {p : List ℕ} {n : Node}

theorem nodeAt_addr (hn : nodeAt h pml4 p = some n) (hp : p ≠ []) :
    n.addr = h.pteAddr n.pte := by
  rcases List.eq_nil_or_concat p with rfl | ⟨q, i, rfl⟩
  · exact absurd rfl hp
  · rw [List.concat_eq_append] at hn
    obtain ⟨n', -, hc⟩ := exists_walk_of_concat hn
    obtain ⟨-, -, -, rfl⟩ := child_eq_some.1 hc
    rfl

/-- In an address space the user bit of the last entry decides. -/
theorem UserSpace.walk_userChild (hu : UserSpace h pml4) (hp : p ≠ []) :
    walk (userChild h) (.root pml4) p =
      (nodeAt h pml4 p).filter fun n => decide (User n.pte) := by
  induction p using List.reverseRecOn with
  | nil => exact absurd rfl hp
  | append_singleton p i ih =>
    rw [walk_concat, nodeAt, walk_concat]
    rcases eq_or_ne p [] with rfl | hp'
    · rfl
    rw [ih hp', nodeAt]
    cases hn : walk (child h) (.root pml4) p with
    | none => rfl
    | some n =>
      rcases eq_or_ne n.level 0 with hl | hl
      · have hc : child h n i = none := by rw [child, if_neg fun hc => hc.1 hl]
        cases hf : (some n).filter fun n => decide (User n.pte) with
        | none => simp [hc]
        | some m =>
          obtain rfl : n = m := (Option.filter_eq_some_iff.1 hf).1 |> Option.some.inj
          simp [userChild, hc]
      · rw [Option.filter_some, if_pos (decide_eq_true (hu.user p n hn hp' hl))]
        rfl

theorem vaPath_ne_nil (va : U64) : vaPath va ≠ [] := List.cons_ne_nil _ _

theorem nodeAt_vaPath_level (hn : nodeAt h pml4 (vaPath va) = some n) : n.level = 0 := by
  have := nodeAt_level hn
  simpa [vaPath] using this

theorem UserSpace.userPte_eq_some (hu : UserSpace h pml4) :
    userPte h pml4 va = some e ↔
      ∃ n, nodeAt h pml4 (vaPath va) = some n ∧ User n.pte ∧ n.pte = e := by
  rw [userPte, hu.walk_userChild (vaPath_ne_nil va), Option.map_eq_some_iff]
  simp only [Option.filter_eq_some_iff, decide_eq_true_eq, and_assoc]

theorem nodeAt_of_walk_userChild (hn : walk (userChild h) (.root pml4) p = some n) :
    nodeAt h pml4 p = some n := by
  refine walk_induction (P := fun p n => nodeAt h pml4 p = some n) nodeAt_nil
    (fun p n i n' _ hn hc => ?_) hn
  exact (walk_concat_of hn i).trans (Option.filter_eq_some_iff.1 hc).1

/-- `g` has the same words in the tables as `h`. -/
def SameTables (h g : Heap) (pml4 : U64) : Prop :=
  g.hhdmOffset = h.hhdmOffset ∧ ∀ x, pageOf x ∈ tablePages h pml4 → g.mem x = h.mem x

theorem UserSpace.userPte_congr (hu : UserSpace h pml4) (hg : SameTables h g pml4) :
    userPte g pml4 va = userPte h pml4 va := by
  have hw : walk (userChild g) (.root pml4) (vaPath va) =
      walk (userChild h) (.root pml4) (vaPath va) := by
    refine walk_congr (fun p n hn i => ?_) _
    have hn' := nodeAt_of_walk_userChild hn
    rw [userChild, userChild, child_congr hg.1 fun hl hi => ?_]
    refine entry_congr (hu.aligned hn') (hi.trans_le n.fanout_le) fun x hx => hg.2 x ?_
    exact ⟨p, n, hn', hl, hx.symm⟩
  rw [userPte, userPte, hw]

theorem UserSpace.userAddr_congr (hu : UserSpace h pml4) (hg : SameTables h g pml4) :
    userAddr g pml4 va = userAddr h pml4 va := by
  rw [userAddr, userAddr, hu.userPte_congr hg]
  congr 1
  funext e
  rw [pteAddr_congr hg.1]

/-- A user access reaches a frame of its address space, and not a table. -/
theorem UserSpace.userAddr_mem (hu : UserSpace h pml4) (hx : userAddr h pml4 va = some x) :
    pageOf x ∈ spacePages h pml4 \ tablePages h pml4 := by
  obtain ⟨e, he, rfl⟩ := Option.map_eq_some_iff.1 hx
  obtain ⟨n, hn, -, rfl⟩ := hu.userPte_eq_some.1 he
  have hoff : (va &&& ~~~pageFrameMask).toNat < 4096 := by
    rw [BitVec.toNat_and]
    exact Nat.lt_of_le_of_lt Nat.and_le_right (by decide)
  have hp : pageOf (h.pteAddr n.pte + (va &&& ~~~pageFrameMask)) = pageOf n.addr := by
    rw [← nodeAt_addr hn (vaPath_ne_nil va)]
    have := pageOf_add (hu.aligned hn) hoff
    rwa [BitVec.ofNat_toNat, BitVec.setWidth_eq] at this
  rw [hp]
  exact ⟨⟨_, n, hn, rfl⟩, hu.frame_not_table hn (nodeAt_vaPath_level hn)⟩

theorem userWrite_hhdmOffset (h : Heap) (w : UserStore) :
    (userWrite h w).hhdmOffset = h.hhdmOffset := by
  unfold userWrite
  split <;> rfl

theorem userWrite_mem_of_ne {w : UserStore} (hw : userAddr h w.pml4 w.va ≠ some x) :
    (userWrite h w).mem x = h.mem x := by
  unfold userWrite
  split
  case h_1 y hy => exact Function.update_of_ne (by rintro rfl; exact hw hy) _ _
  case h_2 => rfl

/-- Writing through an address space changes no table, neither its own nor those of a space
with other pages. -/
theorem SameTables.userWrite {w : UserStore} (hu : UserSpace h w.pml4)
    (hd : w.pml4 ≠ pml4 → Disjoint (spacePages h w.pml4) (spacePages h pml4))
    (hw : SameTables h g w.pml4) (hg : SameTables h g pml4) :
    SameTables h (userWrite g w) pml4 := by
  refine ⟨(userWrite_hhdmOffset g w).trans hg.1, fun x hx => ?_⟩
  rw [userWrite_mem_of_ne, hg.2 x hx]
  intro hy
  rw [hu.userAddr_congr hw] at hy
  obtain ⟨hs, ht⟩ := hu.userAddr_mem hy
  rcases eq_or_ne w.pml4 pml4 with rfl | hne
  · exact ht hx
  · exact Set.disjoint_left.1 (hd hne) hs (tablePages_subset hx)

/-- The pages of `a` after writes through `a` and `b` are those after the writes through `a`. -/
theorem userWrites_filter (ha : UserSpace h a) (hb : UserSpace h b)
    (hd : Disjoint (spacePages h a) (spacePages h b)) {ws : List UserStore}
    (hws : ∀ w ∈ ws, w.pml4 = a ∨ w.pml4 = b) (hga : SameTables h g a) (hgb : SameTables h g b)
    (hga' : SameTables h g' a) (hm : ∀ x, pageOf x ∈ spacePages h a → g.mem x = g'.mem x) :
    SameTables h (userWrites g ws) a ∧
      SameTables h (userWrites g' (ws.filter fun w => w.pml4 = a)) a ∧
      ∀ x, pageOf x ∈ spacePages h a →
        (userWrites g ws).mem x = (userWrites g' (ws.filter fun w => w.pml4 = a)).mem x := by
  induction ws generalizing g g' with
  | nil => exact ⟨hga, hga', hm⟩
  | cons w ws ih =>
    have hws' := fun v hv => hws v (List.mem_cons_of_mem w hv)
    by_cases hwa : w.pml4 = a
    · rw [List.filter_cons_of_pos (by simpa using hwa)]
      subst hwa
      refine ih hws' (hga.userWrite ha (absurd rfl) hga) (hga.userWrite ha (fun _ => hd) hgb)
        (hga'.userWrite ha (absurd rfl) hga') fun x hx => ?_
      simp only [userWrite, ha.userAddr_congr hga, ha.userAddr_congr hga']
      cases hy : userAddr h w.pml4 w.va with
      | none => exact hm x hx
      | some y =>
        change Function.update g.mem y w.byte x = Function.update g'.mem y w.byte x
        rw [Function.update_apply, Function.update_apply, hm x hx]
    · have hwb := (hws w List.mem_cons_self).resolve_left hwa
      rw [List.filter_cons_of_neg (by simpa using hwa)]
      subst hwb
      refine ih hws' (hgb.userWrite hb (fun _ => hd.symm) hga) (hgb.userWrite hb (absurd rfl) hgb)
        hga' fun x hx => ?_
      rw [userWrite_mem_of_ne, hm x hx]
      intro hy
      rw [hb.userAddr_congr hgb] at hy
      exact Set.disjoint_left.1 hd hx (hb.userAddr_mem hy).1

/-- Writes through one of two address spaces with other pages are not seen through the other,
in whatever order they come. -/
theorem userRead_userWrites (ha : UserSpace h a) (hb : UserSpace h b)
    (hd : Disjoint (spacePages h a) (spacePages h b)) {ws : List UserStore}
    (hws : ∀ w ∈ ws, w.pml4 = a ∨ w.pml4 = b) (va : U64) :
    userRead (userWrites h ws) a va =
      userRead (userWrites h (ws.filter fun w => w.pml4 = a)) a va := by
  obtain ⟨h1, h2, h3⟩ := userWrites_filter ha hb hd hws ⟨rfl, fun _ _ => rfl⟩
    ⟨rfl, fun _ _ => rfl⟩ ⟨rfl, fun _ _ => rfl⟩ fun _ _ => rfl
  rw [userRead, userRead, ha.userAddr_congr h1, ha.userAddr_congr h2]
  cases hx : userAddr h a va with
  | none => rfl
  | some x => rw [Option.map_some, Option.map_some, h3 x (ha.userAddr_mem hx).1]

end Access

/-! ## The address spaces the kernel builds -/

/-- The accessed and the dirty bit, which the processor sets in the entries it uses. -/
def hardwareBits : U64 := 0x60

/-- The entries are the same but for the bits of the processor. -/
def SameEntry (e e' : U64) : Prop := e' &&& ~~~hardwareBits = e &&& ~~~hardwareBits

/-- What everyone else may do to an address space : change the memory and the allocator, but
leave the entries of its tables and free none of its pages. -/
structure Undisturbed (pml4 : U64) (h h' : Heap) : Prop where
  sound : h'.Sound
  hhdm : h'.hhdmOffset = h.hhdmOffset
  entries : ∀ p n, nodeAt h pml4 p = some n → n.level ≠ 0 → ∀ i < n.fanout,
    SameEntry (h.entry n.addr i) (h'.entry n.addr i)
  held : ∀ k ∈ spacePages h pml4, k ∉ h'.freePages

/-- The address spaces `create_user_pml4` and `map_page_pml4` make when no `kalloc` fails. A
mapped frame is allocated, and is not a table of the address space. -/
inductive Built : Heap → U64 → Prop
  | create {s s' : PagingState} {cr3 pml4 : U64} (sound : s.heap.Sound)
      (run : s.createUserPml4 cr3 = some (s', pml4)) (ok : s'.ok = true) : Built s'.heap pml4
  | map {h : Heap} {pml4 virt phys flags : U64} {s' : PagingState} (built : Built h pml4)
      (user : pml4Index virt < 256) (flagBits : FlagBits flags)
      (held : pageOf (h.pteAddr phys) ∉ h.freePages)
      (frame : pageOf (h.pteAddr phys) ∉ tablePages h pml4)
      (run : PagingState.mapPagePml4 ⟨h, true⟩ pml4 virt phys flags = some s')
      (ok : s'.ok = true) : Built s'.heap pml4
  | other {h h' : Heap} {pml4 : U64} (built : Built h pml4) (und : Undisturbed pml4 h h') :
      Built h' pml4

section Built

variable {h h' : Heap} {pml4 e e' b : U64} {n n' : Node} {p : List ℕ} {i : ℕ}

theorem SameEntry.and_eq (he : SameEntry e e') (hb : ~~~hardwareBits &&& b = b) :
    e' &&& b = e &&& b := by
  rw [← hb, ← BitVec.and_assoc, ← BitVec.and_assoc, he]

/-- The same table or frame, with the same entry but for the bits of the processor. -/
def SameNode (n n' : Node) : Prop :=
  n.level = n'.level ∧ n.addr = n'.addr ∧ SameEntry n.pte n'.pte

theorem rel_child (hh : h'.hhdmOffset = h.hhdmOffset) (hn : SameNode n n')
    (he : n.level ≠ 0 → i < n.fanout → SameEntry (h.entry n.addr i) (h'.entry n.addr i)) :
    Option.Rel SameNode (child h n i) (child h' n' i) := by
  obtain ⟨hl, ha, -⟩ := hn
  have hf : n'.fanout = n.fanout := by rw [Node.fanout, Node.fanout, hl]
  unfold child
  by_cases hc : n.level ≠ 0 ∧ i < n.fanout
  · have he := he hc.1 hc.2
    have hp : Present (h'.entry n.addr i) ↔ Present (h.entry n.addr i) := by
      rw [Present, Present, he.and_eq (by decide)]
    have hpa : h'.pteAddr (h'.entry n.addr i) = h.pteAddr (h.entry n.addr i) := by
      rw [pteAddr_congr hh, Heap.pteAddr, Heap.pteAddr, he.and_eq (by decide)]
    rw [← hl, ← ha, hf]
    by_cases hpres : Present (h.entry n.addr i)
    · rw [if_pos ⟨hc.1, hc.2, hpres⟩, if_pos ⟨hc.1, hc.2, hp.2 hpres⟩]
      exact .some ⟨rfl, hpa.symm, he⟩
    · rw [if_neg fun hx => hpres hx.2.2, if_neg fun hx => hpres (hp.1 hx.2.2)]
      exact .none
  · rw [if_neg fun hx => hc ⟨hx.1, hx.2.1⟩, if_neg fun hx => hc ⟨hl ▸ hx.1, hf ▸ hx.2.1⟩]
    exact .none

/-- The tree of an undisturbed address space. -/
theorem Undisturbed.nodes (hd : Undisturbed pml4 h h') :
    ∀ p, Option.Rel SameNode (nodeAt h pml4 p) (nodeAt h' pml4 p) :=
  walk_rel ⟨rfl, rfl, rfl⟩ fun p n _ hn _ hR i => rel_child hd.hhdm hR fun hl hi =>
    hd.entries p n hn hl i hi

theorem Undisturbed.exists_old (hd : Undisturbed pml4 h h') (hn' : nodeAt h' pml4 p = some n') :
    ∃ n, nodeAt h pml4 p = some n ∧ SameNode n n' := by
  have hr := hd.nodes p
  rw [hn'] at hr
  cases hn : nodeAt h pml4 p with
  | none => rw [hn] at hr; cases hr
  | some n =>
    rw [hn] at hr
    cases hr with
    | some hR => exact ⟨n, rfl, hR⟩

theorem Undisturbed.exists_new (hd : Undisturbed pml4 h h') (hn : nodeAt h pml4 p = some n) :
    ∃ n', nodeAt h' pml4 p = some n' ∧ SameNode n n' := by
  have hr := hd.nodes p
  rw [hn] at hr
  cases hn' : nodeAt h' pml4 p with
  | none => rw [hn'] at hr; cases hr
  | some n' =>
    rw [hn'] at hr
    cases hr with
    | some hR => exact ⟨n', rfl, hR⟩

theorem SameEntry.user_iff (he : SameEntry e e') : User e' ↔ User e := by
  rw [User, User, he.and_eq (by decide)]

theorem Undisturbed.space (hu : UserSpace h pml4) (hd : Undisturbed pml4 h h') :
    UserSpace h' pml4 := by
  refine hu.of_nodes hd.sound (fun p n' hn' => ?_) hd.held
  obtain ⟨n, hn, hl, ha, he⟩ := hd.exists_old hn'
  exact ⟨n, hn, hl, ha, he.user_iff.2⟩

/-- An allocation leaves the address spaces alone. -/
theorem TakesPage.undisturbed {v : U64} (ht : TakesPage h h' v) (hu : UserSpace h pml4) :
    Undisturbed pml4 h h' := by
  obtain ⟨hs, hfree, hag, -⟩ := hu.of_take ht h' rfl rfl fun _ _ => rfl
  refine ⟨hs.sound, hag.hhdm, fun p n hn hl i hi => ?_, fun k hk hf => ?_⟩
  · rw [SameEntry, entry_congr (hu.aligned hn) (hi.trans_le n.fanout_le) fun x hx => hag.mem x ?_]
    exact hx ▸ hu.held p n hn
  · rw [hfree] at hf
    exact hu.not_free hk hf.1

/-- Every address space the kernel builds is a tree without sharing. -/
theorem Built.space (hb : Built h pml4) : UserSpace h pml4 := by
  induction hb with
  | create sound run ok => exact (PagingState.createUserPml4_spec sound run ok).space
  | map _ user flagBits held frame run ok ih =>
    exact (PagingState.mapPagePml4_spec ih user flagBits held frame run ok).1.space
  | other _ und ih => exact und.space ih

end Built

/-! ## Fork -/

/-- What the child gets and what the parent keeps. -/
structure ForkCopy (h h' : Heap) (oldPml4 newPml4 : U64) : Prop where
  copied : ∀ va, va.toNat < 2 ^ 47 → ∀ e, userPte h oldPml4 va = some e →
    ∃ e', userPte h' newPml4 va = some e' ∧ pteFlags e' = pteFlags e ∧
      SameBytes h h' (h.pteAddr e) (h'.pteAddr e')
  unmapped : ∀ va, va.toNat < 2 ^ 47 → userPte h oldPml4 va = none → leafPte h' newPml4 va = none
  old_tree : ∀ p, nodeAt h' oldPml4 p = nodeAt h oldPml4 p
  old_bytes : ∀ x, pageOf x ∈ spacePages h oldPml4 → h'.mem x = h.mem x
  disjoint : Disjoint (spacePages h' newPml4) (spacePages h' oldPml4)
  isolated : ∀ ws : List UserStore, (∀ w ∈ ws, w.pml4 = oldPml4 ∨ w.pml4 = newPml4) →
    ∀ r, r = oldPml4 ∨ r = newPml4 → ∀ va,
      userRead (userWrites h' ws) r va =
        userRead (userWrites h' (ws.filter fun w => w.pml4 = r)) r va

section Fork

open PagingState

variable {h : Heap} {oldPml4 newPml4 cr3 : U64} {s₁ s₂ : PagingState}

/-- A new address space has no page of an old one. -/
theorem NewSpace.copySource {h₁ : Heap} (hn : NewSpace newPml4 h h₁) (hu : UserSpace h oldPml4) :
    CopySource h₁ newPml4 oldPml4 ∧ ∀ p, nodeAt h₁ oldPml4 p = nodeAt h oldPml4 p := by
  have hsub : h₁.freePages ⊆ h.freePages := hn.free ▸ Set.sdiff_subset
  obtain ⟨hsp, hnodes⟩ := hu.of_agree hn.space.sound hn.agree hsub
  refine ⟨⟨hsp, Set.disjoint_left.2 ?_⟩, hnodes⟩
  rintro k ⟨p, n, hp, rfl⟩ hf
  refine hu.held p n ((hnodes p).symm.trans hp) ?_
  rcases hf with hf | hf
  · exact hsub hf
  · exact hf ▸ hn.mem_free

/-- Before the loops nothing is copied. -/
theorem NewSpace.copying {h₁ : Heap} (hn : NewSpace newPml4 h h₁) :
    Copying h₁ newPml4 oldPml4 ∅ h₁ := by
  refine ⟨hn.space, subset_rfl, .refl _ _, ?_, fun q hq => absurd hq (Set.notMem_empty q),
    fun q m hm hl => ?_⟩
  · rintro k ⟨p, n, hp, rfl⟩
    obtain ⟨-, rfl⟩ := hn.empty p n hp
    exact Or.inr rfl
  · obtain ⟨-, rfl⟩ := hn.empty q m hm
    exact absurd hl (Nat.succ_ne_zero 3)

/-- A complete copy in terms of addresses. -/
theorem Copying.forkCopy {h₁ h' : Heap} (hn : NewSpace newPml4 h h₁) (hu : UserSpace h oldPml4)
    (hc : Copying h₁ newPml4 oldPml4 Set.univ h') : ForkCopy h h' oldPml4 newPml4 := by
  obtain ⟨hs, hnodes₁⟩ := hn.copySource hu
  have hnodes : ∀ p, nodeAt h' oldPml4 p = nodeAt h oldPml4 p := fun p =>
    (hc.nodeAt_old hs p).trans (hnodes₁ p)
  have hpages₁ : ∀ {k}, k ∈ spacePages h oldPml4 → k ∈ spacePages h₁ oldPml4 := by
    rintro k ⟨p, n, hp, hk⟩
    exact ⟨p, n, (hnodes₁ p).trans hp, hk⟩
  have hpages : ∀ {k}, k ∈ spacePages h' oldPml4 → k ∈ spacePages h₁ oldPml4 := by
    rintro k ⟨p, n, hp, hk⟩
    exact hpages₁ ⟨p, n, (hnodes p).symm.trans hp, hk⟩
  have hbytes : ∀ {x}, pageOf x ∈ spacePages h oldPml4 → h'.mem x = h.mem x := fun {x} hx =>
    (hc.mem_old hs (hpages₁ hx)).trans (hn.agree.mem x (hu.not_free hx))
  have hdisj : Disjoint (spacePages h' newPml4) (spacePages h' oldPml4) :=
    Set.disjoint_left.2 fun k hk hk' => Set.disjoint_left.1 hs.apart (hpages hk') (hc.fresh hk)
  have hold : UserSpace h' oldPml4 := hs.space.of_nodes hc.space.sound
    (fun p n hp => ⟨n, (hc.nodeAt_old hs p).symm.trans hp, rfl, rfl, id⟩)
    fun k hk hf => hs.space.not_free hk (hc.free hf)
  refine ⟨fun va _ e he => ?_, fun va _ he => ?_, hnodes, fun x => hbytes, hdisj,
    fun ws hws r hr va => ?_⟩
  · obtain ⟨n, hp, hun, rfl⟩ := hu.userPte_eq_some.1 he
    obtain ⟨m, hm, -, hfl, hb⟩ := hc.copied _ (Set.mem_univ _) n ((hnodes₁ _).trans hp)
      (nodeAt_vaPath_level hp) hun
    have hum : User m.pte := (user_iff_flags _).2 (hfl ▸ (user_iff_flags _).1 hun)
    refine ⟨m.pte, hc.space.userPte_eq_some.2 ⟨m, hm, hum, rfl⟩, hfl, fun i hi => ?_⟩
    rw [← nodeAt_addr hm (vaPath_ne_nil va), ← nodeAt_addr hp (vaPath_ne_nil va), hb i hi]
    refine hn.agree.mem _ (hu.not_free ?_)
    rw [pageOf_add (hu.aligned hp) hi]
    exact ⟨_, n, hp, rfl⟩
  · rw [leafPte, Option.map_eq_none_iff]
    by_contra hne
    obtain ⟨m, hm⟩ := Option.ne_none_iff_exists'.1 hne
    obtain ⟨-, n, hp, -, hun⟩ := hc.only _ m hm (nodeAt_vaPath_level hm)
    have hx := hu.userPte_eq_some.2 ⟨n, (hnodes₁ _).symm.trans hp, hun, rfl⟩
    rw [he] at hx
    exact absurd hx (by simp)
  · rcases hr with rfl | rfl
    · exact userRead_userWrites hold hc.space hdisj.symm hws va
    · exact userRead_userWrites hc.space hold hdisj (fun w hw => (hws w hw).symm) va

/-- Fork copies every user page of an address space the kernel built, and after it the two
address spaces do not see each other's writes. -/
theorem fork_copies_and_isolates (hb : Built h oldPml4)
    (hc : createUserPml4 ⟨h, true⟩ cr3 = some (s₁, newPml4)) :
    ∃ s₂, copyUserPml4 s₁ newPml4 oldPml4 = some s₂ ∧
      (s₂.ok = true → ForkCopy h s₂.heap oldPml4 newPml4) := by
  obtain ⟨s₂, hr⟩ := exists_copyUserPml4 newPml4 oldPml4 s₁
  refine ⟨s₂, hr, fun hok => ?_⟩
  have hok₁ := foldlM_mono (fun _ _ _ => copyPdpt_mono) hr hok
  have hn := createUserPml4_spec (s := ⟨h, true⟩) hb.space.sound hc hok₁
  have hcopy := copyUserPml4_induction (copyInvariant_copying (hn.copySource hb.space).1)
    (fun _ => hn.copying) hr hok
  exact hcopy.forkCopy hn hb.space

theorem userLeaves_finite (h : Heap) (pml4 : U64) : (userLeaves h pml4).Finite := by
  refine ((List.finite_length_eq (Fin 512) 4).image (List.map Fin.val)).subset ?_
  rintro q ⟨n, hn, hl, -⟩
  have hlen : q.length = 4 := by
    have := nodeAt_level hn
    omega
  have hlt : ∀ i ∈ q, i < 512 := by
    refine walk_induction (P := fun p _ => ∀ i ∈ p, i < 512) (by simp)
      (fun p n i n' _ hp hc => ?_) hn
    rw [List.forall_mem_append, List.forall_mem_singleton]
    exact ⟨hp, (child_eq_some.1 hc).2.1.trans_le n.fanout_le⟩
  refine ⟨q.pmap Fin.mk hlt, ?_, ?_⟩
  · change (q.pmap Fin.mk hlt).length = 4
    rw [List.length_pmap, hlen]
  · rw [List.map_pmap, List.pmap_eq_map, List.map_id']

/-- A page for the top table and four pages for each user page are enough for a fork. -/
theorem fork_enough_pages (hb : Built h oldPml4)
    (hc : createUserPml4 ⟨h, true⟩ cr3 = some (s₁, newPml4))
    (hr : copyUserPml4 s₁ newPml4 oldPml4 = some s₂)
    (hfree : 4 * (userLeaves h oldPml4).ncard + 1 ≤ h.freePages.ncard) : s₂.ok = true := by
  have hok₁ := createUserPml4_ok (s := ⟨h, true⟩) hb.space.sound hc rfl
    (Set.nonempty_of_ncard_ne_zero (by change h.freePages.ncard ≠ 0; omega))
  have hn := createUserPml4_spec (s := ⟨h, true⟩) hb.space.sound hc hok₁
  obtain ⟨hs, hnodes⟩ := hn.copySource hb.space
  have hleaves : userLeaves s₁.heap oldPml4 = userLeaves h oldPml4 := by
    ext q
    simp only [userLeaves, UserLeaf, hnodes]
  have hcard := Set.ncard_sdiff_singleton_of_mem hn.mem_free
  rw [← hn.free] at hcard
  change s₁.heap.freePages.ncard = h.freePages.ncard - 1 at hcard
  refine (copyUserPml4_induction (copyInvariant_enough hs) ⟨hok₁, hn.copying, ?_, ?_⟩ hr).1
  · rw [Set.sdiff_empty]
    exact userLeaves_finite _ _
  · rw [Set.sdiff_empty, hleaves]
    omega

/-- The heap after the boot code has donated `n` pages. -/
theorem exists_boot_heap_of {n : ℕ} (hn : n ≤ 256) :
    ∃ h, freerange (kinit (fun _ => 0) 0xffff800000000000) 0x100000
      (BitVec.ofNat 64 (0x100000 + 4096 * n)) = some h ∧ h.Sound ∧ h.freePages.ncard = n ∧
      (kinit (fun _ => 0) 0xffff800000000000).AgreeOutside h.freePages h ∧
      ∀ k ∈ h.freePages, 0xffff800000100 ≤ k ∧ k < 0xffff800000200 := by
  have hh : 2 ^ 23 ∣ (0xffff800000000000 : U64).toNat := by decide
  have hno : cover (blocks fun _ => ([] : List U64)) = ∅ := by rw [blocks_nil, cover]; simp
  have hstop : (BitVec.ofNat 64 (0x100000 + 4096 * n)).toNat = 0x100000 + 4096 * n := by
    rw [BitVec.toNat_ofNat, Nat.mod_eq_of_lt (by omega)]
  have hpages : wholePages (0x100000 : U64).toNat (0x100000 + 4096 * n) =
      ↑(Finset.Ico 256 (256 + n)) := by
    ext i
    simp only [wholePages, Set.mem_ofPred_eq, Finset.coe_Ico, Set.mem_Ico]
    change 1048576 ≤ 4096 * i ∧ 4096 * (i + 1) ≤ 1048576 + 4096 * n ↔ _
    omega
  have hnull : ∀ i ∈ wholePages (0x100000 : U64).toNat (0x100000 + 4096 * n),
      directAddr 0xffff800000000000 i ≠ 0 := fun i hi => by
    rw [hpages, Finset.coe_Ico, Set.mem_Ico] at hi
    change (4096 * i + 18446603336221196288) % 2 ^ 64 ≠ 0
    omega
  have hinj : Set.InjOn (directPage 0xffff800000000000) ↑(Finset.Ico 256 (256 + n)) := by
    intro i hi j hj hij
    rw [Finset.coe_Ico, Set.mem_Ico] at hi hj
    rw [directPage_eq hh, directPage_eq hh] at hij
    omega
  obtain ⟨h, L, hr, hL, hcov, hag⟩ := freerange_spec (s := 0x100000)
    (e := BitVec.ofNat 64 (0x100000 + 4096 * n)) (owned_init (fun _ => 0) hh).lists hh
    (BitVec.le_def.2 (by rw [hstop]; exact Nat.le_add_right _ _)) (by rw [hstop]; omega)
    (by rwa [hstop]) (by rw [hno]; exact Set.disjoint_empty _)
  have hfree : h.freePages = directPage 0xffff800000000000 '' ↑(Finset.Ico 256 (256 + n)) := by
    rw [hL.freePages_eq, hcov, hno, Set.empty_union, hstop, hpages]
    rfl
  rw [hno, Set.empty_union, hstop, hpages] at hag
  refine ⟨h, hr, ⟨⟨L, hL⟩, hag.hhdm ▸ (by decide : PageAligned 0xffff800000000000)⟩, ?_, ?_, ?_⟩
  · rw [hfree]
    refine hinj.ncard_image.trans ?_
    rw [Set.ncard_coe_finset, Nat.card_Ico, Nat.add_sub_cancel_left]
  · rw [hfree]
    exact hag
  · rw [hfree]
    rintro k ⟨i, hi, rfl⟩
    rw [Finset.coe_Ico, Set.mem_Ico] at hi
    rw [directPage_eq hh]
    change 4503565267632384 ≤ (i + 18446603336221196288 / 4096) % 2 ^ 52 ∧
      (i + 18446603336221196288 / 4096) % 2 ^ 52 < 4503565267632640
    omega

/-- The heap after the boot code has donated sixteen pages. -/
theorem exists_boot_heap : ∃ h, freerange (kinit (fun _ => 0) 0xffff800000000000) 0x100000
    0x110000 = some h ∧ h.Sound ∧ h.freePages.ncard = 16 := by
  obtain ⟨h, hb, hs, hc, -⟩ := exists_boot_heap_of (n := 16) (by norm_num)
  exact ⟨h, hb, hs, hc⟩

/-- A new address space after boot, with `n` pages still free. -/
theorem exists_new_space {n : ℕ} (hn : n < 256) : ∃ h₀ s pml4,
    freerange (kinit (fun _ => 0) 0xffff800000000000) 0x100000
      (BitVec.ofNat 64 (0x100000 + 4096 * (n + 1))) = some h₀ ∧
    createUserPml4 ⟨h₀, true⟩ 0 = some (s, pml4) ∧ s.ok = true ∧ NewSpace pml4 h₀ s.heap ∧
    s.heap.freePages.ncard = n ∧ h₀.Sound := by
  obtain ⟨h₀, hb, hs, hc, -⟩ := exists_boot_heap_of (n := n + 1) hn
  obtain ⟨⟨s, pml4⟩, hr⟩ := exists_createUserPml4 ⟨h₀, true⟩ 0
  have hok := createUserPml4_ok (s := ⟨h₀, true⟩) hs hr rfl
    (Set.nonempty_of_ncard_ne_zero (show h₀.freePages.ncard ≠ 0 by omega))
  have hnew := createUserPml4_spec (s := ⟨h₀, true⟩) hs hr hok
  have hcard := Set.ncard_sdiff_singleton_of_mem hnew.mem_free
  rw [← hnew.free] at hcard
  change s.heap.freePages.ncard = h₀.freePages.ncard - 1 at hcard
  exact ⟨h₀, s, pml4, hb, hr, hok, hnew, by omega, hs⟩

/-- One page mapped at `0x400000`, and a fork. -/
theorem fork_copies_and_isolates_boot :
    ∃ h oldPml4 s₁ newPml4 s₂, Built h oldPml4 ∧ (userPte h oldPml4 0x400000).isSome ∧
      createUserPml4 ⟨h, true⟩ 0 = some (s₁, newPml4) ∧
      copyUserPml4 s₁ newPml4 oldPml4 = some s₂ ∧ s₂.ok = true ∧
      ForkCopy h s₂.heap oldPml4 newPml4 := by
  have hne : ∀ {h : Heap}, 1 ≤ h.freePages.ncard → h.freePages.Nonempty := fun hc =>
    Set.nonempty_of_ncard_ne_zero (by omega)
  -- `create_user_pml4`
  obtain ⟨h₀, -, hs₀, hc₀⟩ := exists_boot_heap
  obtain ⟨⟨t₁, old⟩, hr₁⟩ := exists_createUserPml4 ⟨h₀, true⟩ 0
  have hok₁ := createUserPml4_ok (s := ⟨h₀, true⟩) hs₀ hr₁ rfl
    (hne (show 1 ≤ h₀.freePages.ncard by omega))
  have hn₁ := createUserPml4_spec (s := ⟨h₀, true⟩) hs₀ hr₁ hok₁
  have hb₁ : Built t₁.heap old := .create (s := ⟨h₀, true⟩) hs₀ hr₁ hok₁
  have hc₁ := Set.ncard_sdiff_singleton_of_mem hn₁.mem_free
  rw [← hn₁.free] at hc₁
  change t₁.heap.freePages.ncard = h₀.freePages.ncard - 1 at hc₁
  -- `kalloc(1)`
  obtain ⟨⟨t₂, v⟩, hr₂⟩ := exists_kallocPage t₁
  have hok₂ := kallocPage_ok hb₁.space.sound hr₂ hok₁ (hne (by omega))
  obtain ⟨-, -, ht⟩ := kallocPage_spec hb₁.space.sound hr₂ hok₂
  have hb₂ : Built t₂.heap old := hb₁.other (ht.undisturbed hb₁.space)
  have hc₂ := Set.ncard_sdiff_singleton_of_mem ht.mem_free
  rw [← ht.free] at hc₂
  have hv : t₂.heap.pteAddr (t₂.heap.virtToPhys v) = v :=
    pteAddr_virtToPhys ht.sound.hhdm ht.aligned
  have hvf : pageOf (t₂.heap.pteAddr (t₂.heap.virtToPhys v)) ∉ t₂.heap.freePages := by
    rw [hv, ht.free]
    exact fun hx => hx.2 rfl
  have hempty : ∀ p n, nodeAt t₂.heap old p = some n → n.level = 4 := fun p n hp => by
    obtain ⟨-, -, -, hnodes⟩ := hb₁.space.of_take ht t₂.heap rfl rfl fun _ _ => rfl
    obtain ⟨-, rfl⟩ := hn₁.empty p n ((hnodes p).symm.trans hp)
    rfl
  have hvt : pageOf (t₂.heap.pteAddr (t₂.heap.virtToPhys v)) ∉ tablePages t₂.heap old := by
    rw [hv]
    rintro ⟨p, n, hp, -, hk⟩
    obtain ⟨-, -, -, hnodes⟩ := hb₁.space.of_take ht t₂.heap rfl rfl fun _ _ => rfl
    exact hb₁.space.held p n ((hnodes p).symm.trans hp) (hk ▸ ht.mem_free)
  -- `map_page_pml4`
  obtain ⟨t₃, hr₃⟩ := exists_mapPagePml4 ⟨t₂.heap, true⟩ old 0x400000 (t₂.heap.virtToPhys v)
    (pteUser ||| pteWrite)
  have hok₃ := mapPagePml4_ok (s := ⟨t₂.heap, true⟩) hb₂.space (by decide) hr₃ rfl
    (show 3 ≤ t₂.heap.freePages.ncard by omega)
  obtain ⟨hx, hc₃, hq⟩ := mapPagePml4_spec (s := ⟨t₂.heap, true⟩) hb₂.space (by decide) (by decide)
    hvf hvt hr₃ hok₃
  change t₂.heap.freePages.ncard ≤ _ at hc₃
  have hb₃ : Built t₃.heap old := .map hb₂ (by decide) (by decide) hvf hvt hr₃ hok₃
  have hleaves : (userLeaves t₃.heap old).ncard ≤ 1 := by
    have hsub : userLeaves t₃.heap old ⊆ {vaPath 0x400000} := by
      rintro q ⟨n, hn, hl, -⟩
      rcases hx.nodes q n hn with hn | ⟨hl', -⟩ | ⟨-, rfl⟩
      · exact absurd (hempty q n hn) (by omega)
      · exact absurd hl hl'
      · rfl
    have := Set.ncard_le_ncard hsub
    rwa [Set.ncard_singleton] at this
  -- `proc_fork`
  obtain ⟨⟨t₄, new⟩, hr₄⟩ := exists_createUserPml4 ⟨t₃.heap, true⟩ 0
  obtain ⟨t₅, hr₅, hcopy⟩ := fork_copies_and_isolates hb₃ hr₄
  have hok₅ := fork_enough_pages hb₃ hr₄ hr₅ (by omega)
  refine ⟨t₃.heap, old, t₄, new, t₅, hb₃, ?_, hr₄, hr₅, hok₅, hcopy hok₅⟩
  have hu : User (t₂.heap.virtToPhys v &&& pageFrameMask ||| (pteUser ||| pteWrite) |||
      ptePresent) := by
    rw [BitVec.or_assoc]
    exact and_bit_ne_zero_of_or (by decide)
  rw [hb₃.space.userPte_eq_some.2 ⟨_, hq, hu, rfl⟩]
  rfl

end Fork

end Jeos
