import Jeos.Lib.Loop
import Jeos.Pci

/-!
# The scan of one PCI bus

Accesses for the number of a bus are answered on one bus at most (`Tree.sees_root`,
`Tree.sees_behind`, `Tree.blind_of_forwards`), and the numbers of the bridges on that bus do not
change this (`Topology.Sees.congr`). So the scan of a bus that is reached scans the functions on it
in order (`Tree.scanBus_spec`), and the scan of one that is not finds nothing
(`Tree.scanBus_blind`). A bridge is scanned between two writes of its numbers
(`Tree.scanFunction_bridge`).
-/

set_option linter.unusedSectionVars false

namespace Jeos.Pci

open RegisterField

/-! ## Which bus an access selects -/

namespace Topology

variable {T : Topology} {s s' : State} {b : U8} {p q r : Path} {f : Place}

/-- Accesses for bus `b` are answered on the bus `p` and on no other. -/
def Sees (T : Topology) (s : State) (b : U8) (p : Path) : Prop :=
  ∀ f p', f :: p' ∈ T.functions → (T.Selects s b p' ↔ p' = p)

/-- No bus answers accesses for bus `b`. -/
def Blind (T : Topology) (s : State) (b : U8) : Prop :=
  ∀ f p', f :: p' ∈ T.functions → ¬T.Selects s b p'

/-- Where an access for bus `b` goes does not depend on the numbers of the bridges on bus `b`. -/
theorem comes_congr
    (h : ∀ f p, s.busNumber p ≠ b → s'.busNumbers (f :: p) = s.busNumbers (f :: p)) :
    ∀ p, (T.Comes s' b p ↔ T.Comes s b p) ∧ (T.Comes s b p → s'.busNumber p = s.busNumber p)
  | [] => ⟨Iff.rfl, fun _ => rfl⟩
  | f :: p => by
    obtain ⟨hp, hn⟩ := comes_congr h p
    have hsame : s.busNumber p ≠ b → s'.secondary (f :: p) = s.secondary (f :: p) ∧
        s'.subordinate (f :: p) = s.subordinate (f :: p) := fun hb => by
      simp only [State.secondary, State.subordinate, h f p hb, and_self]
    refine ⟨?_, fun hc => (hsame hc.2.1).1⟩
    constructor
    · rintro ⟨hc, hb, hbr, hf⟩
      have hc := hp.mp hc
      rw [hn hc] at hb
      rw [State.Forwards, (hsame hb).1, (hsame hb).2] at hf
      exact ⟨hc, hb, hbr, hf⟩
    · rintro ⟨hc, hb, hbr, hf⟩
      rw [State.Forwards, ← (hsame hb).1, ← (hsame hb).2] at hf
      rw [← hn hc] at hb
      exact ⟨hp.mpr hc, hb, hbr, hf⟩

theorem selects_congr
    (h : ∀ f p, s.busNumber p ≠ b → s'.busNumbers (f :: p) = s.busNumbers (f :: p)) (p : Path) :
    T.Selects s' b p ↔ T.Selects s b p := by
  obtain ⟨hp, hn⟩ := comes_congr (T := T) h p
  unfold Selects
  rw [hp]
  exact and_congr_right fun hc => by rw [hn hc]

theorem Sees.congr (hs : T.Sees s b p)
    (h : ∀ f p, s.busNumber p ≠ b → s'.busNumbers (f :: p) = s.busNumbers (f :: p)) :
    T.Sees s' b p := fun f p' hf => (selects_congr h p').trans (hs f p' hf)

/-- An access that leaves the root bus does so through a bridge that forwards it, and ends behind
that bridge or goes on through another. -/
theorem exists_top_of_comes (hc : T.Comes s b p) (hp : p ≠ []) :
    ∃ x, x ∈ p.getLast? ∧ b ≠ 0 ∧ T.IsBridge [x] ∧ s.Forwards [x] b ∧
      (p ≠ [x] → s.secondary [x] ≠ b) := by
  induction p with
  | nil => exact absurd rfl hp
  | cons f p ih =>
    obtain ⟨hc, hb, hbr, hf⟩ := hc
    cases p with
    | nil => exact ⟨f, rfl, Ne.symm hb, hbr, hf, fun h => absurd rfl h⟩
    | cons g p =>
      obtain ⟨x, hx, hb0, hxbr, hxf, hne⟩ := ih hc (List.cons_ne_nil _ _)
      refine ⟨x, by rwa [List.getLast?_cons_cons], hb0, hxbr, hxf, fun _ => ?_⟩
      by_cases hgx : g :: p = [x]
      · rw [← hgx]
        exact hb
      · exact hne hgx

theorem sees_root (T : Topology) (s : State) : T.Sees s 0 [] := by
  intro f p' _
  constructor
  · intro h
    by_contra hp
    obtain ⟨x, -, h0, -⟩ := exists_top_of_comes h.1 hp
    exact h0 rfl
  · rintro rfl
    exact ⟨trivial, rfl⟩

end Topology

/-- What an entry says about its function : the address and the values that were read. -/
def PciDevice.ident (d : PciDevice) : U8 × Place × U16 × U16 × U8 × U8 :=
  (d.bus, d.place, d.vendorId, d.deviceId, d.headerType, d.intLine)

namespace Tree

variable {T : Tree} {s s' : State} {b : U8} {p q r : Path} {f x : Place}

/-- The bridges in front of a function are functions. -/
theorem mem_of_suffix (hq : q ∈ T.functions) (hr : r <:+ q) (hne : r ≠ []) : r ∈ T.functions := by
  induction q with
  | nil => exact absurd hq T.ne_root
  | cons f p ih =>
    rcases List.suffix_cons_iff.mp hr with rfl | hr
    · exact hq
    · have hp : p ≠ [] := fun h => hne (List.suffix_nil.mp (h ▸ hr))
      exact ih (T.behind f p hq hp).1 hr

theorem exists_top_of_selects (hs : T.Selects s b p) (hf : f :: p ∈ T.functions) (hb : b ≠ 0) :
    ∃ x, [x] ∈ T.functions ∧ T.IsBridge [x] ∧ s.Forwards [x] b ∧
      (p ≠ [x] → s.secondary [x] ≠ b) := by
  have hp : p ≠ [] := by
    rintro rfl
    exact hb hs.2.symm
  obtain ⟨x, hx, -, hbr, hfw, hne⟩ := Topology.exists_top_of_comes hs.1 hp
  have hsuf : [x] <:+ f :: p :=
    (List.singleton_suffix_iff_getLast?_eq_some.mpr hx).trans (List.suffix_cons f p)
  exact ⟨x, mem_of_suffix hf hsuf (List.cons_ne_nil _ _), hbr, hfw, hne⟩

/-- The secondary number of a bridge on the root bus selects the bus behind it if no other bridge on
the root bus forwards it. -/
theorem sees_behind (hx : T.IsBridge [x]) (hsec : s.secondary [x] = b)
    (hsub : b ≤ s.subordinate [x]) (hb : b ≠ 0)
    (honly : ∀ y, [y] ∈ T.functions → T.IsBridge [y] → s.Forwards [y] b → y = x) :
    T.Sees s b [x] := by
  intro f p' hf
  constructor
  · intro h
    obtain ⟨y, hy, hbr, hfw, hne⟩ := exists_top_of_selects h hf hb
    obtain rfl := honly y hy hbr hfw
    by_contra hp
    exact hne hp hsec
  · rintro rfl
    exact ⟨⟨trivial, Ne.symm hb, hx, hsec ▸ BitVec.le_refl _, hsub⟩, hsec⟩

/-- A number that no bridge on the root bus forwards selects nothing. -/
theorem blind_of_forwards (hb : b ≠ 0)
    (hnone : ∀ y, [y] ∈ T.functions → T.IsBridge [y] → ¬s.Forwards [y] b) : T.Blind s b := by
  intro f p' hf h
  obtain ⟨y, hy, hbr, hfw, -⟩ := exists_top_of_selects h hf hb
  exact hnone y hy hbr hfw

/-! ## Reads and writes -/

theorem hits_of_sees (hs : T.Sees s b p) (f : Place) :
    T.hits s b f = if f :: p ∈ T.functions then [f :: p] else [] := by
  have heq : T.hits s b f = T.functions.filter (· == f :: p) := by
    refine List.filter_congr fun q hq => ?_
    cases q with
    | nil => exact absurd hq T.ne_root
    | cons g p' =>
      rw [beq_eq_decide]
      refine decide_eq_decide.mpr ?_
      rw [List.head?_cons, List.tail_cons, Option.some_inj, hs g p' hq, List.cons_eq_cons]
  rw [heq, List.filter_beq]
  split
  next h => rw [List.count_eq_one_of_mem T.nodup h, List.replicate_one]
  next h => rw [List.count_eq_zero_of_not_mem h, List.replicate_zero]

theorem hits_of_blind (hs : T.Blind s b) (f : Place) : T.hits s b f = [] := by
  refine List.filter_eq_nil_iff.mpr fun q hq h => ?_
  cases q with
  | nil => exact T.ne_root hq
  | cons g p' => exact hs g p' hq (of_decide_eq_true h).2

theorem read32_of_mem (hs : T.Sees s b p) (hf : f :: p ∈ T.functions) (off : ℕ) :
    T.read32 s b f off = T.reg s (f :: p) (off / 4) := by
  rw [Topology.read32, hits_of_sees hs, if_pos hf]

theorem read16_of_hits_nil (h : T.hits s b f = []) : T.read16 s b f 0 = 0xFFFF := by
  rw [Topology.read16, Topology.read32, h]
  exact show ((0xFFFFFFFF : U32) >>> 0).setWidth 16 = (0xFFFF : U16) by decide

/-- Only functions answer, and none of them with the vendor 0xFFFF. -/
theorem read16_vendor (hs : T.Sees s b p) (f : Place) :
    T.read16 s b f 0 = 0xFFFF ↔ f :: p ∉ T.functions := by
  by_cases hf : f :: p ∈ T.functions
  · have h := T.present _ hf
    rw [Topology.read16, read32_of_mem hs hf]
    exact iff_of_false h fun hn => hn hf
  · exact iff_of_true (read16_of_hits_nil (by rw [hits_of_sees hs, if_neg hf])) hf

theorem read8_headerType (hs : T.Sees s b p) (hf : f :: p ∈ T.functions) :
    T.read8 s b f 0x0E = headerTypeOf (T.conf (f :: p)) := by
  rw [Topology.read8, read32_of_mem hs hf]
  rfl

theorem write8_of_mem (hs : T.Sees s b p) (hf : f :: p ∈ T.functions)
    (hbr : T.IsBridge (f :: p)) (k : ℕ) (hk : k < 4) (v : U8) :
    T.write8 s b f (0x18 + k) v = { s with
      busNumbers := Function.update s.busNumbers (f :: p)
        (setByte (s.busNumbers (f :: p)) k v) } := by
  have hreg : (0x18 + k) / 4 = busNumberReg := by
    unfold busNumberReg
    omega
  have hbyte : (0x18 + k) % 4 = k := by omega
  unfold Topology.write8
  rw [read32_of_mem hs hf, hits_of_sees hs, if_pos hf, hreg, hbyte]
  refine congrArg (fun n => { s with busNumbers := n }) (funext fun q => ?_)
  by_cases hq : q = f :: p
  · subst hq
    simp [hbr, Topology.reg]
  · simp [hq]

/-! ## One function -/

/-- What an entry for `q` says if the bus of `q` has the number `b`. -/
def ident (T : Tree) (b : U8) (f : Place) (q : Path) : U8 × Place × U16 × U16 × U8 × U8 :=
  (b, f, (T.conf q 0).setWidth 16, (T.conf q 0 >>> 16).setWidth 16, headerTypeOf (T.conf q),
    getByte (T.conf q 15) 0)

/-- The state in which the bus behind the bridge `q` is scanned, for a state before `q` and the
entry of `q`. -/
structure Opened (T : Tree) (b : U8) (f : Place) (p : Path) (s s' : State) : Prop where
  freeBus : s'.freeBus = s.freeBus + 1
  secondary : s'.secondary (f :: p) = s.freeBus
  subordinate : s'.subordinate (f :: p) = s.freeBus
  numbers : ∀ r, r ≠ f :: p → s'.busNumbers r = s.busNumbers r
  devices : s'.devices.map PciDevice.ident = s.devices.map PciDevice.ident ++ [T.ident b f (f :: p)]

/-- The state after the bridge `q`, for a state after the bus behind it. -/
structure Closed (q : Path) (s s' : State) : Prop where
  freeBus : s'.freeBus = s.freeBus + 1
  secondary : s'.secondary q = s.secondary q
  subordinate : s'.subordinate q = s.freeBus - 1
  numbers : ∀ r, r ≠ q → s'.busNumbers r = s.busNumbers r
  devices : s'.devices.map PciDevice.ident = s.devices.map PciDevice.ident

theorem ident_newDevice (hs : T.Sees s b p) (hf : f :: p ∈ T.functions) :
    (Topology.newDevice b f (T.read8 s b f 0x0E) (T.readHeader s b f)).ident =
      T.ident b f (f :: p) := by
  have hreg : ∀ i, i ≠ busNumberReg → T.readHeader s b f i = T.conf (f :: p) i := fun i hi => by
    rw [Topology.readHeader, read32_of_mem hs hf, Nat.mul_div_cancel _ (by decide), Topology.reg,
      if_neg fun h => hi h.1]
  unfold Topology.newDevice PciDevice.ident ident
  rw [read8_headerType hs hf, hreg 0 (by decide), hreg 15 (by decide)]

variable {scan : U8 → State → Option State}

theorem scanFunction_absent (hs : T.Sees s b p) (hf : f :: p ∉ T.functions) :
    T.scanFunction scan b f s = some s :=
  if_pos ((read16_vendor hs f).mpr hf)

theorem scanFunction_endpoint (hs : T.Sees s b p) (hf : f :: p ∈ T.functions)
    (hbr : ¬T.IsBridge (f :: p)) (hlen : s.devices.length < 256) :
    ∃ dev, dev.ident = T.ident b f (f :: p) ∧
      T.scanFunction scan b f s = some { s with devices := s.devices ++ [dev] } := by
  refine ⟨_, ident_newDevice hs hf, ?_⟩
  unfold Topology.scanFunction
  rw [if_neg (fun h => (read16_vendor hs f).mp h hf), if_neg (Nat.not_le.mpr hlen)]
  exact if_neg (by rwa [read8_headerType hs hf])

theorem sees_setNumbers (hs : T.Sees s b p) (hf : f :: p ∈ T.functions) (w : U32) (c : U8)
    (ds : List PciDevice) : T.Sees ⟨Function.update s.busNumbers (f :: p) w, c, ds⟩ b p := by
  have hb : s.busNumber p = b := ((hs f p hf).mpr rfl).2
  refine hs.congr fun g p' hp' => Function.update_of_ne ?_ _ _
  rintro ⟨⟩
  exact hp' hb

/-- The three writes before the scan of the bus behind a bridge. -/
theorem write8_numbers (hs : T.Sees s b p) (hf : f :: p ∈ T.functions)
    (hbr : T.IsBridge (f :: p)) (sec : U8) :
    T.write8 (T.write8 (T.write8 s b f 0x18 b) b f 0x19 sec) b f 0x1A sec = { s with
      busNumbers := Function.update s.busNumbers (f :: p)
        (setByte (setByte (setByte (s.busNumbers (f :: p)) 0 b) 1 sec) 2 sec) } := by
  have h0 : T.write8 s b f 0x18 b = _ := write8_of_mem hs hf hbr 0 (by decide) b
  rw [h0]
  have hs1 := sees_setNumbers hs hf (setByte (s.busNumbers (f :: p)) 0 b) s.freeBus s.devices
  have h1 := write8_of_mem hs1 hf hbr 1 (by decide) sec
  simp only [Function.update_self, Function.update_idem] at h1
  rw [h1]
  have hs2 := sees_setNumbers hs hf (setByte (setByte (s.busNumbers (f :: p)) 0 b) 1 sec)
    s.freeBus s.devices
  have h2 := write8_of_mem hs2 hf hbr 2 (by decide) sec
  simp only [Function.update_self, Function.update_idem] at h2
  exact h2

theorem map_ident_modify (ds : List PciDevice) (i k : ℕ) (v : U8) :
    (ds.modify i (·.setBusNumber k v)).map PciDevice.ident = ds.map PciDevice.ident := by
  refine List.ext_getElem? fun j => ?_
  rw [List.getElem?_map, List.getElem?_map, List.getElem?_modify]
  cases ds[j]? with
  | none => rfl
  | some d =>
    refine congrArg some ?_
    split <;> rfl

/-- The scan of a bridge is that of the bus behind it, between the two states in which its numbers
are written. -/
theorem scanFunction_bridge (scan : U8 → State → Option State) (hs : T.Sees s b p)
    (hf : f :: p ∈ T.functions) (hbr : T.IsBridge (f :: p)) (hlen : s.devices.length < 256) :
    ∃ s1, T.Opened b f p s s1 ∧ ∀ s2, scan s.freeBus s1 = some s2 → T.Sees s2 b p →
      ∃ s3, Closed (f :: p) s2 s3 ∧ T.scanFunction scan b f s = some s3 := by
  have hident := ident_newDevice hs hf
  set w := setByte (setByte (setByte (s.busNumbers (f :: p)) 0 b) 1 s.freeBus) 2 s.freeBus with hw
  set s1 : State := ⟨Function.update s.busNumbers (f :: p) w, s.freeBus + 1, s.devices ++
    [(((Topology.newDevice b f (T.read8 s b f 0x0E) (T.readHeader s b f)).setBusNumber 0
      b).setBusNumber 1 s.freeBus).setBusNumber 2 s.freeBus]⟩ with hs1
  refine ⟨s1, ⟨rfl, ?_, ?_, fun r hr => Function.update_of_ne hr _ _, ?_⟩, fun s2 hscan hs2 => ?_⟩
  · simp [s1, State.secondary, hw, getByte_setByte_ne, getByte_setByte_self]
  · simp [s1, State.subordinate, hw, getByte_setByte_self]
  · rw [hs1, List.map_append, ← hident]
    rfl
  · refine ⟨⟨Function.update s2.busNumbers (f :: p) (setByte (s2.busNumbers (f :: p)) 2
      (s2.freeBus - 1)), s2.freeBus + 1, s2.devices.modify s.devices.length
        (·.setBusNumber 2 (s2.freeBus - 1))⟩, ⟨rfl, ?_, ?_, ?_, ?_⟩, ?_⟩
    · simp [State.secondary, getByte_setByte_ne]
    · simp [State.subordinate, getByte_setByte_self]
    · exact fun r hr => Function.update_of_ne hr _ _
    · exact map_ident_modify _ _ _ _
    · have hopen : T.Sees { s with freeBus := s.freeBus + 1, devices := s1.devices } b p :=
        hs.congr fun _ _ _ => rfl
      have hclose : T.Sees { s2 with freeBus := s2.freeBus + 1 } b p := hs2.congr fun _ _ _ => rfl
      have hwrites := write8_numbers hopen hf hbr s.freeBus
      have hwrite : T.write8 { s2 with freeBus := s2.freeBus + 1 } b f 0x1A (s2.freeBus - 1) = _ :=
        write8_of_mem hclose hf hbr 2 (by decide) (s2.freeBus - 1)
      unfold Topology.scanFunction
      rw [if_neg (fun h => (read16_vendor hs f).mp h hf), if_neg (Nat.not_le.mpr hlen)]
      refine (if_pos (by rwa [read8_headerType hs hf])).trans ?_
      refine (congrArg (Option.map _) ((congrArg (scan s.freeBus) hwrites).trans hscan)).trans ?_
      rw [Option.map_some]
      refine congrArg some ?_
      dsimp only [State.busAlloc]
      rw [hwrite]

/-! ## One bus -/

/-- The places in use on a bus, in the order in which it is scanned. -/
def onSlot (T : Tree) (p : Path) (slot : Fin 32) : List Place :=
  ((List.finRange 8).map (slot, ·)).filter fun f => decide (f :: p ∈ T.functions)

def onBus (T : Tree) (p : Path) : List Place := (List.finRange 32).flatMap (T.onSlot p)

theorem mem_onBus : f ∈ T.onBus p ↔ f :: p ∈ T.functions := by
  simp only [onBus, onSlot, List.mem_flatMap, List.mem_finRange, true_and, List.mem_filter,
    List.mem_map, decide_eq_true_eq]
  constructor
  · rintro ⟨_, _, h⟩
    exact h
  · exact fun h => ⟨f.1, ⟨f.2, rfl⟩, h⟩

theorem nodup_onBus (T : Tree) (p : Path) : (T.onBus p).Nodup := by
  refine List.nodup_flatMap.mpr ⟨fun slot _ => ?_, ?_⟩
  · exact ((List.nodup_finRange 8).map (Prod.mk_right_injective slot)).filter _
  · refine (List.nodup_finRange 32).imp fun {i j} hij f hi hj => hij ?_
    simp only [onSlot, List.mem_filter, List.mem_map] at hi hj
    obtain ⟨⟨_, _, rfl⟩, -⟩ := hi
    obtain ⟨⟨_, _, h⟩, -⟩ := hj
    exact (congrArg Prod.fst h).symm

theorem onSlot_eq (T : Tree) (p : Path) (slot : Fin 32) : T.onSlot p slot =
    if (slot, 0) :: p ∈ T.functions then (slot, 0) ::
      ((Topology.laterFunctions.map (slot, ·)).filter fun f => decide (f :: p ∈ T.functions))
    else [] := by
  have hfin : List.finRange 8 = 0 :: Topology.laterFunctions := rfl
  rw [onSlot, hfin, List.map_cons, List.filter_cons]
  split_ifs with h h0 h0
  · rfl
  · exact absurd (of_decide_eq_true h) h0
  · exact absurd (decide_eq_true h0) h
  · refine List.filter_eq_nil_iff.mpr fun f hf h => h0 ?_
    obtain ⟨fn, -, rfl⟩ := List.mem_map.mp hf
    exact T.function_zero slot fn p (of_decide_eq_true h)

/-- The scan of a bus scans the functions on it in order. Accesses for it have to be answered there
all the time. -/
theorem scanBus_spec {n : ℕ} {I : List Place → State → Prop}
    (hsees : ∀ pre s, I pre s → T.Sees s b p)
    (hstep : ∀ pre f post, T.onBus p = pre ++ f :: post → ∀ s, I pre s →
      ∃ s', T.scanFunction (T.scanBus n) b f s = some s' ∧ I (pre ++ [f]) s')
    (h : I [] s) : ∃ t, T.scanBus (n + 1) b s = some t ∧ I (T.onBus p) t := by
  refine Loop.foldlM_spec (I := fun slots => I (slots.flatMap (T.onSlot p)))
    (fun pre slot post hslots s hs => ?_) h
  set before := pre.flatMap (T.onSlot p)
  set later := fun fns : List (Fin 8) =>
    (fns.map (slot, ·)).filter fun f => decide (f :: p ∈ T.functions)
  have hnew : (pre ++ [slot]).flatMap (T.onSlot p) = before ++ T.onSlot p slot := by
    rw [List.flatMap_append, List.flatMap_singleton]
  have hbus : T.onBus p = before ++ T.onSlot p slot ++ post.flatMap (T.onSlot p) := by
    rw [onBus, hslots, List.flatMap_append, List.flatMap_cons, List.append_assoc]
  rw [hnew]
  rw [onSlot_eq] at hbus ⊢
  by_cases h0 : (slot, 0) :: p ∈ T.functions
  · rw [if_pos h0] at hbus ⊢
    obtain ⟨s1, hscan, h1⟩ := hstep before (slot, 0)
      (later Topology.laterFunctions ++ post.flatMap (T.onSlot p)) (by simpa using hbus) s hs
    have hscanSlot : T.scanSlot (T.scanBus n) b s slot =
        if headerTypeOf (T.conf ((slot, 0) :: p)) &&& 0x80 ≠ 0 then
          Topology.laterFunctions.foldlM
            (fun s fn => T.scanFunction (T.scanBus n) b (slot, fn) s) s1
        else some s1 := by
      unfold Topology.scanSlot
      rw [if_neg fun h => (read16_vendor (hsees _ s hs) _).mp h h0, hscan, Option.bind_some,
        read8_headerType (hsees _ s1 h1) h0]
    rw [hscanSlot]
    by_cases hmulti : headerTypeOf (T.conf ((slot, 0) :: p)) &&& 0x80 ≠ 0
    · rw [if_pos hmulti]
      refine Loop.foldlM_spec (I := fun fns => I (before ++ (slot, 0) :: later fns))
        (fun fnPre fn fnPost hfns t ht => ?_) h1
      have hlater : later (fnPre ++ [fn]) = later fnPre ++ later [fn] := by
        simp only [later, List.map_append, List.filter_append]
      by_cases hf : (slot, fn) :: p ∈ T.functions
      · have hone : later [fn] = [(slot, fn)] := List.filter_cons_of_pos (decide_eq_true hf)
        obtain ⟨t', ht', hI⟩ := hstep (before ++ (slot, 0) :: later fnPre) (slot, fn)
          (later fnPost ++ post.flatMap (T.onSlot p))
          (by simp [hbus, hfns, hf, later]) t ht
        refine ⟨t', ht', ?_⟩
        rw [hlater, hone]
        simpa using hI
      · have hnone : later [fn] = [] := List.filter_cons_of_neg (by simpa using hf)
        refine ⟨t, scanFunction_absent (hsees _ t ht) hf, ?_⟩
        rwa [hlater, hnone, List.append_nil]
    · -- a device with one function
      have hnone : later Topology.laterFunctions = [] := by
        refine List.filter_eq_nil_iff.mpr fun f hf h => hmulti ?_
        obtain ⟨fn, hfn, rfl⟩ := List.mem_map.mp hf
        refine T.multi slot fn p (of_decide_eq_true h) ?_
        rintro rfl
        exact absurd hfn (by decide)
      rw [if_neg hmulti]
      refine ⟨s1, rfl, ?_⟩
      rwa [show (List.map (slot, ·) Topology.laterFunctions).filter
        (fun f => decide (f :: p ∈ T.functions)) = [] from hnone]
  · rw [if_neg h0, List.append_nil]
    exact ⟨s, if_pos ((read16_vendor (hsees _ s hs) _).mpr h0), hs⟩

/-- A scan of a bus that is not reached finds nothing. -/
theorem scanBus_blind (hs : T.Blind s b) (n : ℕ) : T.scanBus (n + 1) b s = some s := by
  have hslot : ∀ slot, T.scanSlot (T.scanBus n) b s slot = some s := fun slot =>
    if_pos (read16_of_hits_nil (hits_of_blind hs _))
  have hrun : ∃ t, T.scanBus (n + 1) b s = some t ∧ t = s :=
    Loop.foldlM_spec (I := fun _ t => t = s)
      (fun _ slot _ _ t hts => ⟨t, by rw [hts, hslot], hts⟩) rfl
  obtain ⟨t, ht, rfl⟩ := hrun
  exact ht

end Tree

end Jeos.Pci
