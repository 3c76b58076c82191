import Jeos.Lib.Follow
import Jeos.Lib.RegisterField
import Jeos.Types

/-!
# The search for a capability

`pci_find_cap` of `pci.c` follows the pointers of the capability list in the configuration space of a
device until it is at the capability it looks for or at a null pointer. The pointers are the device's.

There are 64 places for a capability, so the search returns just if a null pointer or the capability is
among the first 64 places of the chain (`pci_find_cap_iff`), and then it has made at most 129 reads
(`pciFindCap_reads_le`). Nothing ends it in a cycle without either (`pci_find_cap_cycle`).
-/

set_option linter.unusedSectionVars false

namespace Jeos.Pci

open RegisterField Follow

/-- What the data port reads as, by the value of the address port. -/
abbrev Ports := U32 → U32

/-- `PCI_ADDR`. -/
def pciAddr (bus slot func off : U8) : U32 :=
  (0x80000000 : U32) ||| bus.setWidth 32 <<< 16 ||| slot.setWidth 32 <<< 11 ||| func.setWidth 32 <<< 8 |||
    (off.setWidth 32 &&& 0xFC)

/-- `PCI_STATUS_OFFSET`. -/
def pciStatusOffset : U8 := 0x06

/-- `PCI_CAP_PTR_OFFSET`. -/
def pciCapPtrOffset : U8 := 0x34

/-- `PCI_STATUS_CAP_LIST`. -/
def pciStatusCapList : U16 := 1 <<< 4

section Search

variable (ports : Ports) (bus slot func : U8)

/-- `pci_read8`. -/
def pciRead8 (offset : U8) : U8 :=
  (ports (pciAddr bus slot func offset) >>> ((offset &&& 3).toNat * 8) &&& 0xFF).setWidth 8

/-- `pci_read16`. -/
def pciRead16 (offset : U8) : U16 :=
  (ports (pciAddr bus slot func offset) >>> ((offset &&& 2).toNat * 8) &&& 0xFFFF).setWidth 16

/-- The loop of `pci_find_cap`, which counts the reads. -/
def findCapLoop (capId : U8) : ℕ → U8 → ℕ → Option (U8 × ℕ)
  | 0, _, _ => none
  | fuel + 1, ptr, reads =>
    if ptr = 0 then some (0, reads)
    else if pciRead8 ports bus slot func ptr = capId then some (ptr, reads + 1)
    else findCapLoop capId fuel (pciRead8 ports bus slot func (ptr + 1) &&& ~~~3) (reads + 2)

/-- `pci_find_cap` : the value returned and the number of reads. -/
def pciFindCap (capId : U8) (fuel : ℕ) : Option (U8 × ℕ) :=
  if pciRead16 ports bus slot func pciStatusOffset &&& pciStatusCapList = 0 then some (0, 1)
  else findCapLoop ports bus slot func capId fuel
    (pciRead8 ports bus slot func pciCapPtrOffset &&& ~~~3) 2

/-! ## The chain -/

/-- A byte of the configuration space. -/
def content (off : U8) : U8 := getByte (ports (pciAddr bus slot func off)) (off.toNat % 4)

/-- The device has a capability list. -/
def HasCapList : Prop := (content ports bus slot func pciStatusOffset).getLsbD 4 = true

/-- The place behind that of a capability. -/
def nextCap (ptr : U8) : U8 := content ports bus slot func (ptr + 1) &&& ~~~3

/-- The places of the chain from the capabilities pointer on. -/
def chain (n : ℕ) : U8 :=
  (nextCap ports bus slot func)^[n] (content ports bus slot func pciCapPtrOffset &&& ~~~3)

/-- The search ends at this place. -/
def Ends (capId ptr : U8) : Prop := ptr = 0 ∨ content ports bus slot func ptr = capId

instance (capId ptr : U8) : Decidable (Ends ports bus slot func capId ptr) :=
  inferInstanceAs (Decidable (_ ∨ _))

/-- What the search is to return : 0 without a list, else the first place of the chain that has the
capability, or 0 where a null pointer comes first. -/
def Answer (capId r : U8) : Prop :=
  ¬HasCapList ports bus slot func ∧ r = 0 ∨ HasCapList ports bus slot func ∧
    ∃ n, r = chain ports bus slot func n ∧ Ends ports bus slot func capId r ∧
      ∀ m < n, ¬Ends ports bus slot func capId (chain ports bus slot func m)

/-- The search returns what it is to. -/
def FindsCap (capId : U8) : Prop :=
  ∃ r reads, (∃ N, ∀ fuel ≥ N, pciFindCap ports bus slot func capId fuel = some (r, reads)) ∧
    Answer ports bus slot func capId r

variable {ports bus slot func} {capId ptr r : U8} {fuel reads reads' : ℕ}

theorem pciRead8_eq (off : U8) :
    pciRead8 ports bus slot func off = content ports bus slot func off := by
  have hoff : (off &&& 3).toNat * 8 = 8 * (off.toNat % 4) := by
    rw [BitVec.toNat_and, show (3 : U8).toNat = 2 ^ 2 - 1 from rfl, Nat.and_two_pow_sub_one_eq_mod,
      Nat.mul_comm]
  refine BitVec.eq_of_toNat_eq ?_
  rw [pciRead8, content, getByte, hoff, BitVec.toNat_setWidth, BitVec.toNat_setWidth, BitVec.toNat_and,
    show (0xFF : U32).toNat = 2 ^ 8 - 1 from rfl, Nat.and_two_pow_sub_one_eq_mod, Nat.mod_mod]

/-- Every content is that of a device at every address. -/
theorem exists_ports (bus slot func : U8) (cfg : U8 → U8) :
    ∃ ports, content ports bus slot func = cfg := by
  have haddr : ∀ off, (pciAddr bus slot func off).setWidth 8 = off &&& 0xFC := fun off => by
    refine BitVec.eq_of_getLsbD_eq fun i hi => ?_
    have hlow : (0x80000000 : U32).getLsbD i = false := by
      rw [show (0x80000000 : U32) = BitVec.ofNat 32 (2 ^ 31) from rfl, BitVec.getLsbD_ofNat,
        Nat.testBit_two_pow]
      simp only [Bool.and_eq_false_imp, decide_eq_true_eq, decide_eq_false_iff_not]
      omega
    have h16 : i < 16 := by omega
    have h11 : i < 11 := by omega
    have hmask : (0xFC : U32).getLsbD i = (0xFC : U8).getLsbD i := by
      rw [show (0xFC : U32) = (0xFC : U8).setWidth 32 from rfl, BitVec.getLsbD_setWidth]
      simp [show i < 32 by omega]
    simp only [pciAddr, BitVec.getLsbD_setWidth, BitVec.getLsbD_or, BitVec.getLsbD_and,
      BitVec.getLsbD_shiftLeft, hlow, hmask, hi, h16, h11, decide_true, Bool.not_true, Bool.and_false,
      Bool.false_and, Bool.false_or, Bool.true_and, show i < 32 by omega]
  let word : U8 → U32 := fun o => cfg (o + 3) ++ cfg (o + 2) ++ cfg (o + 1) ++ cfg o
  have hbyte : ∀ o k, k < 4 → getByte (word o) k = cfg (o + BitVec.ofNat 8 k) := fun o k hk => by
    refine BitVec.eq_of_getLsbD_eq fun i hi => ?_
    rw [getLsbD_getByte, decide_eq_true hi, Bool.true_and]
    have happ : (word o).getLsbD (8 * k + i) =
        BitVec.getLsbD (cfg (o + 3) ++ cfg (o + 2) ++ cfg (o + 1) ++ cfg o) (8 * k + i) := rfl
    rw [happ, BitVec.getLsbD_append, BitVec.getLsbD_append, BitVec.getLsbD_append]
    obtain rfl | rfl | rfl | rfl : k = 0 ∨ k = 1 ∨ k = 2 ∨ k = 3 := by omega
    · rw [if_pos (by omega)]
      simp
    · rw [if_neg (by omega), if_pos (by omega)]
      simp
    · rw [if_neg (by omega), if_neg (by omega), if_pos (by omega)]
      congr 1
      omega
    · rw [if_neg (by omega), if_neg (by omega), if_neg (by omega)]
      congr 1
      omega
  have hsplit : ∀ off : U8, (off &&& 0xFC) + BitVec.ofNat 8 (off.toNat % 4) = off := by decide
  refine ⟨fun a => word (a.setWidth 8), funext fun off => ?_⟩
  rw [content, haddr, hbyte _ _ (Nat.mod_lt _ (by norm_num)), hsplit]

theorem hasCapList_iff : HasCapList ports bus slot func ↔
    pciRead16 ports bus slot func pciStatusOffset &&& pciStatusCapList ≠ 0 := by
  have haddr : (pciStatusOffset &&& 2).toNat * 8 = 16 := by decide
  have hbyte : 8 * (pciStatusOffset.toNat % 4) = 16 := by decide
  have hbit : ∀ y : U16, y &&& pciStatusCapList ≠ 0 ↔ y.getLsbD 4 = true := fun y => by
    rw [Ne, ← BitVec.toNat_inj, BitVec.toNat_and, show pciStatusCapList.toNat = 2 ^ 4 by decide,
      Nat.and_two_pow, BitVec.testBit_toNat]
    cases y.getLsbD 4 <;> decide
  rw [hbit, HasCapList, content, getLsbD_getByte, hbyte, pciRead16, haddr]
  have hmask : (0xFFFF : U32).getLsbD 4 = true := by decide
  rw [BitVec.getLsbD_setWidth, BitVec.getLsbD_and, hmask, BitVec.getLsbD_ushiftRight, Bool.and_true]
  rfl

/-! ## The result -/

theorem pciFindCap_of_list (hlist : HasCapList ports bus slot func) :
    pciFindCap ports bus slot func capId fuel =
      findCapLoop ports bus slot func capId fuel (chain ports bus slot func 0) 2 := by
  rw [pciFindCap, if_neg (hasCapList_iff.1 hlist), pciRead8_eq]
  rfl

/-- The loop goes along the chain, with two reads for each place it leaves. -/
theorem findCapLoop_eq : findCapLoop ports bus slot func capId fuel ptr reads =
    (follow (nextCap ports bus slot func) (fun q => Ends ports bus slot func capId q) fuel ptr).map
      fun q => (q.2, reads + 2 * q.1 + if q.2 = 0 then 0 else 1) := by
  induction fuel generalizing ptr reads with
  | zero => rfl
  | succ fuel ih =>
    rw [findCapLoop, follow, pciRead8_eq, pciRead8_eq]
    by_cases h0 : ptr = 0
    · have hend : Ends ports bus slot func capId ptr := Or.inl h0
      rw [if_pos h0, if_pos (decide_eq_true hend), Option.map_some, if_pos h0, h0]
      rfl
    by_cases hid : content ports bus slot func ptr = capId
    · have hend : Ends ports bus slot func capId ptr := Or.inr hid
      rw [if_neg h0, if_pos hid, if_pos (decide_eq_true hend), Option.map_some, if_neg h0]
      rfl
    · have hend : ¬decide (Ends ports bus slot func capId ptr) = true := fun h =>
        (of_decide_eq_true h).elim h0 hid
      rw [if_neg h0, if_neg hid, if_neg hend]
      refine ih.trans ?_
      rw [Option.map_map]
      refine congrArg (Option.map · _) (funext fun q => ?_)
      rw [Function.comp_apply]
      refine congrArg (Prod.mk q.2) ?_
      split <;> omega

/-- The place at which the search ends, among those of the chain. -/
def FirstEnd (ports : Ports) (bus slot func capId : U8) (n : ℕ) : Prop :=
  First (nextCap ports bus slot func) (fun q => Ends ports bus slot func capId q)
    (chain ports bus slot func 0) n

theorem firstEnd_iff {n : ℕ} : FirstEnd ports bus slot func capId n ↔
    Ends ports bus slot func capId (chain ports bus slot func n) ∧
      ∀ m < n, ¬Ends ports bus slot func capId (chain ports bus slot func m) :=
  ⟨fun h => ⟨of_decide_eq_true h.found, fun m hm => of_decide_eq_false (h.before m hm)⟩,
    fun h => ⟨decide_eq_true h.1, fun m hm => decide_eq_false (h.2 m hm)⟩⟩

/-- Every place of the chain is a multiple of 4. -/
theorem chain_mem (n : ℕ) : chain ports bus slot func n ∈
    (Finset.range 64).image fun k => BitVec.ofNat 8 (4 * k) := by
  have hmask : ∀ x : U8, x &&& ~~~3 ∈ (Finset.range 64).image fun k => BitVec.ofNat 8 (4 * k) := by
    decide
  cases n with
  | zero => exact hmask _
  | succ n =>
    rw [chain, Function.iterate_succ_apply']
    exact hmask _

/-- A search that ends does so at one of the first 64 places. -/
theorem FirstEnd.lt {n : ℕ} (h : FirstEnd ports bus slot func capId n) : n < 64 := by
  have hlt := First.lt_card h fun m _ => chain_mem m
  exact hlt.trans_le (Finset.card_image_le.trans (Finset.card_range 64).le)

theorem pciFindCap_eq_some_iff (hlist : HasCapList ports bus slot func) :
    pciFindCap ports bus slot func capId fuel = some (r, reads) ↔
      ∃ n < fuel, FirstEnd ports bus slot func capId n ∧ r = chain ports bus slot func n ∧
        reads = 2 + 2 * n + if r = 0 then 0 else 1 := by
  rw [pciFindCap_of_list hlist, findCapLoop_eq, Option.map_eq_some_iff]
  constructor
  · rintro ⟨⟨n, q⟩, hq, he⟩
    obtain ⟨hn, hfirst, rfl⟩ := follow_eq_some_iff.1 hq
    obtain ⟨rfl, rfl⟩ := Prod.mk.inj he
    exact ⟨n, hn, hfirst, rfl, rfl⟩
  · rintro ⟨n, hn, hfirst, rfl, rfl⟩
    exact ⟨_, follow_eq_some_iff.2 ⟨hn, hfirst, rfl⟩, rfl⟩

/-- A search that returns has made at most 129 reads. -/
theorem pciFindCap_reads_le (hr : pciFindCap ports bus slot func capId fuel = some (r, reads)) :
    reads ≤ 129 := by
  by_cases hlist : HasCapList ports bus slot func
  · obtain ⟨n, -, hfirst, -, rfl⟩ := (pciFindCap_eq_some_iff hlist).1 hr
    have := hfirst.lt
    split <;> omega
  · rw [pciFindCap, if_pos (not_not.1 (mt hasCapList_iff.2 hlist))] at hr
    obtain ⟨-, rfl⟩ := Prod.mk.inj (Option.some.inj hr)
    norm_num

/-- The search returns what it is to just if there is no list, or a null pointer or the capability is
among the first 64 places of the chain. -/
theorem pci_find_cap_iff (ports : Ports) (bus slot func capId : U8) :
    FindsCap ports bus slot func capId ↔ ¬HasCapList ports bus slot func ∨ ∃ n < 64,
      chain ports bus slot func n = 0 ∨
        content ports bus slot func (chain ports bus slot func n) = capId := by
  by_cases hlist : HasCapList ports bus slot func
  · constructor
    · rintro ⟨r, reads, ⟨N, hN⟩, -⟩
      obtain ⟨n, -, hfirst, -, -⟩ := (pciFindCap_eq_some_iff hlist).1 (hN N le_rfl)
      exact Or.inr ⟨n, hfirst.lt, (firstEnd_iff.1 hfirst).1⟩
    · rintro (hno | ⟨n, -, hend⟩)
      · exact absurd hlist hno
      have hends : Ends ports bus slot func capId (chain ports bus slot func n) := hend
      obtain ⟨m, hfirst⟩ : ∃ m, FirstEnd ports bus slot func capId m :=
        exists_first_iff.2 ⟨n, decide_eq_true hends⟩
      have hm := firstEnd_iff.1 hfirst
      refine ⟨_, _, ⟨m + 1, fun fuel hf => (pciFindCap_eq_some_iff hlist).2
        ⟨m, hf, hfirst, rfl, rfl⟩⟩, Or.inr ⟨hlist, m, rfl, hm⟩⟩
  · refine iff_of_true ⟨0, 1, ⟨0, fun fuel _ => ?_⟩, Or.inl ⟨hlist, rfl⟩⟩ (Or.inl hlist)
    rw [pciFindCap, if_pos (not_not.1 (mt hasCapList_iff.2 hlist))]

end Search

/-! ## A cycle -/

/-- A device with one capability, number 1 at 0x40, whose next pointer is that place again. -/
def cyclePorts : Ports := fun address =>
  if address &&& 0xFF = 0x04 then 0x00100000
  else if address &&& 0xFF = 0x34 then 0x40
  else if address &&& 0xFF = 0x40 then 0x4001 else 0

/-- The search for another capability does not end. -/
theorem pci_find_cap_cycle : HasCapList cyclePorts 0 0 0 ∧
    (∀ n, chain cyclePorts 0 0 0 n = 0x40) ∧ (∀ fuel, pciFindCap cyclePorts 0 0 0 5 fuel = none) ∧
      ¬FindsCap cyclePorts 0 0 0 5 := by
  have hlist : (content cyclePorts 0 0 0 pciStatusOffset).getLsbD 4 = true := by decide
  have hchain : ∀ n, chain cyclePorts 0 0 0 n = 0x40 := fun n => by
    induction n with
    | zero => decide
    | succ n ih =>
      rw [chain, Function.iterate_succ_apply']
      exact (congrArg _ ih).trans (by decide)
  have hnone : ∀ fuel, pciFindCap cyclePorts 0 0 0 5 fuel = none := fun fuel => by
    rw [Option.eq_none_iff_forall_ne_some]
    rintro ⟨r, reads⟩ hr
    obtain ⟨n, -, hfirst, -, -⟩ := (pciFindCap_eq_some_iff hlist).1 hr
    have hend := (firstEnd_iff.1 hfirst).1
    rw [hchain] at hend
    exact absurd hend (by decide)
  refine ⟨hlist, hchain, hnone, ?_⟩
  rintro ⟨r, reads, ⟨N, hN⟩, -⟩
  exact nomatch (hnone N).symm.trans (hN N le_rfl)

end Jeos.Pci
