import Jeos.PciScan

/-!
# What PCI enumeration reaches

`pci_scan_function` gives a bridge the range of one number while it scans the bus behind it, and the
real range only afterwards. A bridge behind that bus gets a number outside the range, so the scan of
the bus behind it finds nothing. `Inner` is the scan of a bus behind a bridge of the root bus,
`Outer` that of the root bus : each bridge takes two numbers, one for its bus and one that is lost
in looking up the last number given. With at most 100 bridges and 256 functions neither the numbers
nor the entries run out.

The scan always ends. Every function is recorded exactly once, with nested and disjoint ranges, if
and only if no function is behind a bridge that is behind a bridge itself
(`pci_scan_enumerates_iff`, `pci_scan_misses`).
-/

set_option linter.unusedSectionVars false

namespace Jeos.Pci

open RegisterField

namespace Tree

variable {T : Tree} {s s0 : State} {b : U8} {x f : Place} {pre : List Place} {n : ℕ}

theorem toNat_succ {c : U8} (h : c.toNat + 1 < 256) : (c + 1).toNat = c.toNat + 1 := by
  rw [BitVec.toNat_add]
  exact Nat.mod_eq_of_lt h

/-- The number of bridges at these places of a bus. -/
def bridgesAt (T : Tree) (p : Path) (fs : List Place) : ℕ :=
  fs.countP fun f => decide (T.IsBridge (f :: p))

theorem bridgesAt_append (p : Path) (fs gs : List Place) :
    T.bridgesAt p (fs ++ gs) = T.bridgesAt p fs + T.bridgesAt p gs := List.countP_append

theorem bridgesAt_single (p : Path) (f : Place) :
    T.bridgesAt p [f] = if T.IsBridge (f :: p) then 1 else 0 := by
  simp [bridgesAt, List.countP_singleton]

/-! ## The bus behind a bridge of the root bus -/

/-- The bus behind `x` can be scanned as bus `b` : only `x` forwards it, no bridge forwards a number
that is still free, and there are numbers and entries enough. -/
structure Ready (T : Tree) (x : Place) (b : U8) (s0 : State) : Prop where
  bridge : T.IsBridge [x]
  ne_zero : b ≠ 0
  secondary : s0.secondary [x] = b
  subordinate : s0.subordinate [x] = b
  only : ∀ y, [y] ∈ T.functions → T.IsBridge [y] → s0.Forwards [y] b → y = x
  unused : ∀ y c, [y] ∈ T.functions → T.IsBridge [y] → s0.Forwards [y] c →
    c.toNat < s0.freeBus.toNat
  room : s0.devices.length + (T.onBus [x]).length ≤ 256
  numbers : s0.freeBus.toNat + 2 * T.bridgesAt [x] (T.onBus [x]) ≤ 254
  free_pos : 0 < s0.freeBus.toNat

/-- The scan of the bus behind `x`, after the functions at `pre`. Each bridge has taken two numbers,
of which one is its range. -/
structure Inner (T : Tree) (x : Place) (b : U8) (s0 : State) (pre : List Place) (s : State) :
    Prop where
  freeBus : s.freeBus.toNat = s0.freeBus.toNat + 2 * T.bridgesAt [x] pre
  devices : s.devices.map PciDevice.ident =
    s0.devices.map PciDevice.ident ++ pre.map fun f => T.ident b f [f, x]
  numbers : ∀ r, (∀ f ∈ pre, r ≠ [f, x]) → s.busNumbers r = s0.busNumbers r
  range : ∀ f ∈ pre, T.IsBridge [f, x] → s.subordinate [f, x] = s.secondary [f, x] ∧
    s0.freeBus.toNat ≤ (s.secondary [f, x]).toNat ∧
      (s.secondary [f, x]).toNat < s.freeBus.toNat
  distinct : ∀ f ∈ pre, ∀ g ∈ pre, T.IsBridge [f, x] → T.IsBridge [g, x] → f ≠ g →
    s.secondary [f, x] ≠ s.secondary [g, x]

theorem Ready.sees (h : T.Ready x b s0) : T.Sees s0 b [x] :=
  sees_behind h.bridge h.secondary (h.subordinate ▸ BitVec.le_refl _) h.ne_zero h.only

theorem Inner.top (h : T.Inner x b s0 pre s) (y : Place) :
    s.busNumbers [y] = s0.busNumbers [y] :=
  h.numbers [y] fun _ _ he => nomatch he

theorem Inner.sees (h : T.Inner x b s0 pre s) (hr : T.Ready x b s0) : T.Sees s b [x] := by
  refine hr.sees.congr fun f p hp => h.numbers _ ?_
  rintro g - ⟨⟩
  exact hp hr.secondary

theorem Inner.nil (s0 : State) : T.Inner x b s0 [] s0 where
  freeBus := by simp [bridgesAt]
  devices := by simp
  numbers _ _ := rfl
  range _ h := nomatch h
  distinct _ h := nomatch h

/-- What the functions at `pre` and `post` need is left after `pre`. -/
theorem Inner.room (h : T.Inner x b s0 pre s) (hr : T.Ready x b s0) {post : List Place}
    (hbus : T.onBus [x] = pre ++ f :: post) :
    s.devices.length < 256 ∧
      (T.IsBridge [f, x] → s.freeBus.toNat + 2 ≤ 254) := by
  have hlen := congrArg List.length h.devices
  have hroom := hr.room
  have hnum := hr.numbers
  have hfree := h.freeBus
  rw [hbus] at hroom hnum
  have hsplit : T.bridgesAt [x] (pre ++ f :: post) =
      T.bridgesAt [x] pre + (T.bridgesAt [x] [f] + T.bridgesAt [x] post) := by
    rw [bridgesAt_append, ← bridgesAt_append [x] [f] post, List.singleton_append]
  rw [hsplit, bridgesAt_single] at hnum
  simp only [List.length_append, List.length_map, List.length_cons] at hlen hroom
  refine ⟨by omega, fun hbr => ?_⟩
  rw [if_pos hbr] at hnum
  omega

/-- One more function, that only its own numbers are written for. -/
theorem Inner.snoc {s' : State} (h : T.Inner x b s0 pre s) (hfresh : f ∉ pre)
    (hfree : s'.freeBus.toNat = s.freeBus.toNat + 2 * T.bridgesAt [x] [f])
    (hdev : s'.devices.map PciDevice.ident =
      s.devices.map PciDevice.ident ++ [T.ident b f [f, x]])
    (hnum : ∀ r, r ≠ [f, x] → s'.busNumbers r = s.busNumbers r)
    (hnew : T.IsBridge [f, x] → s'.subordinate [f, x] = s'.secondary [f, x] ∧
      (s'.secondary [f, x]).toNat = s.freeBus.toNat) :
    T.Inner x b s0 (pre ++ [f]) s' := by
  have hold : ∀ g ∈ pre, s'.secondary [g, x] = s.secondary [g, x] ∧
      s'.subordinate [g, x] = s.subordinate [g, x] := fun g hg => by
    have hne : ([g, x] : Path) ≠ [f, x] := by
      rintro ⟨⟩
      exact hfresh hg
    simp only [State.secondary, State.subordinate, hnum _ hne, and_self]
  have hone : T.IsBridge [f, x] → T.bridgesAt [x] [f] = 1 := fun hbr => by
    rw [bridgesAt_single, if_pos hbr]
  refine ⟨?_, ?_, fun r hr => ?_, ?_, ?_⟩
  · rw [hfree, h.freeBus, bridgesAt_append]
    omega
  · rw [hdev, h.devices, List.map_append, List.append_assoc, List.map_singleton]
  · rw [hnum r (hr f (by simp)), h.numbers r fun g hg => hr g (by simp [hg])]
  · intro g hg hbr
    rcases List.mem_append.mp hg with hg | hg
    · obtain ⟨h1, h2, h3⟩ := h.range g hg hbr
      rw [(hold g hg).1, (hold g hg).2]
      exact ⟨h1, h2, by omega⟩
    · obtain rfl := List.mem_singleton.mp hg
      obtain ⟨h1, h2⟩ := hnew hbr
      have hfree0 := h.freeBus
      have hone := hone hbr
      exact ⟨h1, by omega, by omega⟩
  · -- a new number is above all that have been given
    have habove : ∀ g ∈ pre, T.IsBridge [g, x] → T.IsBridge [f, x] →
        s'.secondary [g, x] ≠ s'.secondary [f, x] := fun g hg hgbr hfbr he => by
      have h1 := (h.range g hg hgbr).2.2
      rw [← (hold g hg).1, he, (hnew hfbr).2] at h1
      exact lt_irrefl _ h1
    intro g hg k hk hgbr hkbr hne
    rw [List.mem_append, List.mem_singleton] at hg hk
    rcases hg with hg | rfl <;> rcases hk with hk | rfl
    · rw [(hold g hg).1, (hold k hk).1]
      exact h.distinct g hg k hk hgbr hkbr hne
    · exact habove g hg hgbr hkbr
    · exact (habove k hk hkbr hgbr).symm
    · exact absurd rfl hne

/-- A bridge behind `x` gets the next number, and the bus behind it is not reached. -/
theorem inner_step (hr : T.Ready x b s0) {post : List Place}
    (hbus : T.onBus [x] = pre ++ f :: post) (h : T.Inner x b s0 pre s) (n : ℕ) :
    ∃ s', T.scanFunction (T.scanBus (n + 1)) b f s = some s' ∧
      T.Inner x b s0 (pre ++ [f]) s' := by
  have hf : [f, x] ∈ T.functions := mem_onBus.mp (by rw [hbus]; simp)
  have hfresh : f ∉ pre := fun hmem => by
    have hnd := T.nodup_onBus [x]
    rw [hbus] at hnd
    exact (List.disjoint_of_nodup_append hnd) hmem List.mem_cons_self
  obtain ⟨hlen, hnum⟩ := h.room hr hbus
  by_cases hbr : T.IsBridge [f, x]
  · have hnum := hnum hbr
    have hsees := h.sees hr
    obtain ⟨s1, hopen, hclose⟩ := scanFunction_bridge (T.scanBus (n + 1)) hsees hf hbr hlen
    have hfree1 : s1.freeBus.toNat = s.freeBus.toNat + 1 := by
      rw [hopen.freeBus, toNat_succ (by omega)]
    have hblind : T.Blind s1 s.freeBus := by
      refine blind_of_forwards (fun h0 => ?_) fun y hy hybr hfw => ?_
      · have hfree := h.freeBus
        have hpos := hr.free_pos
        rw [h0] at hfree
        exact absurd hfree (by simp; omega)
      · have htop : s1.busNumbers [y] = s0.busNumbers [y] :=
          (hopen.numbers [y] fun he => nomatch he).trans (h.top y)
        have hlt := hr.unused y s.freeBus hy hybr (by
          simpa only [State.Forwards, State.secondary, State.subordinate, htop] using hfw)
        have := h.freeBus
        omega
    have hsees1 : T.Sees s1 b [x] := hsees.congr fun g p hp => hopen.numbers _ (by
      rintro ⟨⟩
      exact hp ((hsees f [x] hf).mpr rfl).2)
    obtain ⟨s3, hc, hscan⟩ := hclose s1 (scanBus_blind hblind n) hsees1
    refine ⟨s3, hscan, h.snoc hfresh ?_ ?_ ?_ fun _ => ⟨?_, ?_⟩⟩
    · rw [bridgesAt_single, if_pos hbr, hc.freeBus, toNat_succ (by omega), hfree1]
    · rw [hc.devices, hopen.devices]
    · exact fun r hr => (hc.numbers r hr).trans (hopen.numbers r hr)
    · rw [hc.subordinate, hc.secondary, hopen.secondary, hopen.freeBus]
      exact BitVec.add_sub_cancel _ _
    · rw [hc.secondary, hopen.secondary]
  · obtain ⟨dev, hdev, hscan⟩ := scanFunction_endpoint (h.sees hr) hf hbr hlen
    refine ⟨_, hscan, h.snoc hfresh ?_ ?_ (fun _ _ => rfl) fun hbr' => absurd hbr' hbr⟩
    · rw [bridgesAt_single, if_neg hbr]
      rfl
    · rw [List.map_append, List.map_singleton, hdev]

/-- The scan of the bus behind `x`. -/
theorem inner_run (hr : T.Ready x b s0) (n : ℕ) :
    ∃ s, T.scanBus (n + 2) b s0 = some s ∧ T.Inner x b s0 (T.onBus [x]) s :=
  scanBus_spec (fun _ _ h => h.sees hr) (fun _ _ _ hbus _ h => inner_step hr hbus h n)
    (Inner.nil s0)

/-! ## The root bus -/

/-- What an entry for the function `q` says. -/
def entryOf (T : Tree) (s : State) (q : Path) : U8 × Place × U16 × U16 × U8 × U8 :=
  T.ident (s.busNumber q.tail) (q.headD (0, 0)) q

/-- The functions that the scan reaches from these places of the root bus. -/
def below (T : Tree) (f : Place) : List Path := [f] :: (T.onBus [f]).map fun g => [g, f]

def visited (T : Tree) (fs : List Place) : List Path := fs.flatMap T.below

/-- The number of bridges among these functions. -/
def bridgesIn (T : Tree) (qs : List Path) : ℕ := qs.countP fun q => decide (T.IsBridge q)

theorem onBus_of_not_bridge (hbr : ¬T.IsBridge [f]) : T.onBus [f] = [] :=
  List.eq_nil_iff_forall_not_mem.mpr fun g hg =>
    hbr (T.behind g [f] (mem_onBus.mp hg) (List.cons_ne_nil _ _)).2

theorem bridgesIn_below (f : Place) : T.bridgesIn (T.below f) =
    if T.IsBridge [f] then 1 + T.bridgesAt [f] (T.onBus [f]) else 0 := by
  have hmap : ((T.onBus [f]).map fun g => ([g, f] : Path)).countP
      (fun q => decide (T.IsBridge q)) = T.bridgesAt [f] (T.onBus [f]) := by
    rw [List.countP_map]
    rfl
  rw [bridgesIn, below, List.countP_cons, hmap]
  by_cases hbr : T.IsBridge [f]
  · simp [hbr, Nat.add_comm]
  · simp [hbr, onBus_of_not_bridge hbr, bridgesAt]

theorem visited_append (fs gs : List Place) :
    T.visited (fs ++ gs) = T.visited fs ++ T.visited gs := List.flatMap_append

theorem visited_cons (f : Place) (fs : List Place) :
    T.visited (f :: fs) = T.below f ++ T.visited fs := List.flatMap_cons

theorem mem_below {q : Path} : q ∈ T.below f ↔ q = [f] ∨ ∃ g ∈ T.onBus [f], q = [g, f] := by
  rw [below, List.mem_cons, List.mem_map]
  simp only [eq_comm]

theorem nodup_below (f : Place) : (T.below f).Nodup := by
  refine List.nodup_cons.mpr ⟨fun h => ?_, (T.nodup_onBus [f]).map fun g k h => ?_⟩
  · obtain ⟨g, -, hg⟩ := List.mem_map.mp h
    exact nomatch hg
  · exact (List.cons.inj h).1

theorem nodup_visited (T : Tree) : (T.visited (T.onBus [])).Nodup := by
  refine List.nodup_flatMap.mpr ⟨fun f _ => nodup_below f, ?_⟩
  refine (T.nodup_onBus []).imp fun {f g} hfg q hf hg => hfg ?_
  have hlast : ∀ {k}, q ∈ T.below k → q.getLast? = some k := fun hk => by
    rcases mem_below.mp hk with rfl | ⟨_, -, rfl⟩ <;> rfl
  exact Option.some.inj ((hlast hf).symm.trans (hlast hg))

/-- The scan visits the functions on the root bus and those behind one bridge. -/
theorem mem_visited {q : Path} :
    q ∈ T.visited (T.onBus []) ↔ q ∈ T.functions ∧ q.length ≤ 2 := by
  constructor
  · intro hq
    obtain ⟨f, hf, hq⟩ := List.mem_flatMap.mp hq
    rcases mem_below.mp hq with rfl | ⟨g, hg, rfl⟩
    · exact ⟨mem_onBus.mp hf, Nat.le_succ 1⟩
    · exact ⟨mem_onBus.mp hg, le_rfl⟩
  · rintro ⟨hq, hlen⟩
    match q, hq, hlen with
    | [], hq, _ => exact absurd hq T.ne_root
    | [f], hq, _ => exact List.mem_flatMap.mpr ⟨f, mem_onBus.mpr hq, mem_below.mpr (Or.inl rfl)⟩
    | [g, f], hq, _ =>
      have hf := (T.behind g [f] hq (List.cons_ne_nil _ _)).1
      exact List.mem_flatMap.mpr ⟨f, mem_onBus.mpr hf,
        mem_below.mpr (Or.inr ⟨g, mem_onBus.mpr hq, rfl⟩)⟩
    | _ :: _ :: _ :: _, _, hlen => exact absurd hlen (by simp)

theorem visited_subperm (T : Tree) : (T.visited (T.onBus [])).Subperm T.functions :=
  List.subperm_of_subset T.nodup_visited fun _ hq => (mem_visited.mp hq).1

/-- The scan of the root bus, after the functions at `pre`. -/
structure Outer (T : Tree) (pre : List Place) (s : State) : Prop where
  freeBus : s.freeBus.toNat = 1 + 2 * T.bridgesIn (T.visited pre)
  devices : s.devices.map PciDevice.ident = (T.visited pre).map (T.entryOf s)
  fresh : ∀ f, f ∉ pre → s.busNumbers [f] = T.start.busNumbers [f]
  range : ∀ f ∈ pre, T.IsBridge [f] → 0 < (s.secondary [f]).toNat ∧
    (s.secondary [f]).toNat ≤ (s.subordinate [f]).toNat ∧
      (s.subordinate [f]).toNat < s.freeBus.toNat
  apart : ∀ f ∈ pre, ∀ g ∈ pre, T.IsBridge [f] → T.IsBridge [g] → f ≠ g →
    s.subordinate [f] < s.secondary [g] ∨ s.subordinate [g] < s.secondary [f]
  inside : ∀ f ∈ pre, ∀ g ∈ T.onBus [f], T.IsBridge [g, f] →
    s.subordinate [g, f] = s.secondary [g, f] ∧ s.secondary [f] < s.secondary [g, f] ∧
      s.secondary [g, f] ≤ s.subordinate [f]
  distinct : ∀ f ∈ pre, ∀ g ∈ T.onBus [f], ∀ k ∈ T.onBus [f], T.IsBridge [g, f] →
    T.IsBridge [k, f] → g ≠ k → s.secondary [g, f] ≠ s.secondary [k, f]

/-- What the scan of one function of the root bus does. -/
structure Added (T : Tree) (f : Place) (s s' : State) : Prop where
  freeBus : s'.freeBus.toNat = s.freeBus.toNat + 2 * T.bridgesIn (T.below f)
  devices : s'.devices.map PciDevice.ident =
    s.devices.map PciDevice.ident ++ (T.below f).map (T.entryOf s')
  frame : ∀ r, r.getLast? ≠ some f → s'.busNumbers r = s.busNumbers r
  range : T.IsBridge [f] → (s'.secondary [f]).toNat = s.freeBus.toNat ∧
    (s'.secondary [f]).toNat ≤ (s'.subordinate [f]).toNat ∧
      (s'.subordinate [f]).toNat < s'.freeBus.toNat
  inside : ∀ g ∈ T.onBus [f], T.IsBridge [g, f] →
    s'.subordinate [g, f] = s'.secondary [g, f] ∧ s'.secondary [f] < s'.secondary [g, f] ∧
      s'.secondary [g, f] ≤ s'.subordinate [f]
  distinct : ∀ g ∈ T.onBus [f], ∀ k ∈ T.onBus [f], T.IsBridge [g, f] →
    T.IsBridge [k, f] → g ≠ k → s'.secondary [g, f] ≠ s'.secondary [k, f]

theorem Outer.start (T : Tree) : T.Outer [] T.start where
  freeBus := rfl
  devices := rfl
  fresh _ _ := rfl
  range _ h := nomatch h
  apart _ h := nomatch h
  inside _ h := nomatch h
  distinct _ h := nomatch h

theorem Added.old {s' : State} (h : T.Added f s s') {g : Place} (hg : g ≠ f) {r : Path}
    (hr : r.getLast? = some g) : s'.secondary r = s.secondary r ∧
      s'.subordinate r = s.subordinate r := by
  have hne : r.getLast? ≠ some f := by
    rw [hr]
    exact fun he => hg (Option.some.inj he)
  simp only [State.secondary, State.subordinate, h.frame r hne, and_self]

theorem entryOf_old {s' : State} (h : T.Added f s s') {g : Place} (hg : g ≠ f) {q : Path}
    (hq : q ∈ T.below g) : T.entryOf s' q = T.entryOf s q := by
  rcases mem_below.mp hq with rfl | ⟨k, -, rfl⟩
  · rfl
  · exact congrArg (fun b => T.ident b k [k, g]) (h.old hg (r := [g]) rfl).1

theorem Outer.snoc {s' : State} (h : T.Outer pre s) (hfresh : f ∉ pre) (ha : T.Added f s s') :
    T.Outer (pre ++ [f]) s' := by
  have hne : ∀ g ∈ pre, g ≠ f := fun g hg he => hfresh (he ▸ hg)
  have hvisited : T.visited (pre ++ [f]) = T.visited pre ++ T.below f := by
    rw [visited_append]
    exact congrArg _ (List.flatMap_singleton _ _)
  have hold : ∀ g ∈ pre, s'.secondary [g] = s.secondary [g] ∧
      s'.subordinate [g] = s.subordinate [g] := fun g hg => ha.old (hne g hg) rfl
  have holdIn : ∀ g ∈ pre, ∀ k, s'.secondary [k, g] = s.secondary [k, g] ∧
      s'.subordinate [k, g] = s.subordinate [k, g] := fun g hg k => ha.old (hne g hg) rfl
  refine ⟨?_, ?_, ?_, ?_, ?_, ?_, ?_⟩
  · rw [ha.freeBus, h.freeBus, hvisited, bridgesIn, bridgesIn, bridgesIn, List.countP_append]
    omega
  · rw [ha.devices, h.devices, hvisited, List.map_append]
    congr 1
    refine List.map_congr_left fun q hq => ?_
    obtain ⟨g, hg, hq⟩ := List.mem_flatMap.mp hq
    exact (entryOf_old ha (hne g hg) hq).symm
  · intro g hg
    rw [List.mem_append, List.mem_singleton, not_or] at hg
    rw [ha.frame [g] fun he => hg.2 (Option.some.inj he), h.fresh g hg.1]
  · intro g hg hbr
    have hle := ha.freeBus
    rw [List.mem_append, List.mem_singleton] at hg
    rcases hg with hg | rfl
    · obtain ⟨h1, h2, h3⟩ := h.range g hg hbr
      rw [(hold g hg).1, (hold g hg).2]
      exact ⟨h1, h2, by omega⟩
    · obtain ⟨h1, h2, h3⟩ := ha.range hbr
      have := h.freeBus
      exact ⟨by omega, h2, h3⟩
  · -- a new range starts above all that have been given
    have habove : ∀ g ∈ pre, T.IsBridge [g] → T.IsBridge [f] →
        s'.subordinate [g] < s'.secondary [f] := fun g hg hgbr hfbr => by
      rw [(hold g hg).2, BitVec.lt_def, (ha.range hfbr).1]
      exact (h.range g hg hgbr).2.2
    intro g hg k hk hgbr hkbr hgk
    rw [List.mem_append, List.mem_singleton] at hg hk
    rcases hg with hg | rfl <;> rcases hk with hk | rfl
    · rw [(hold g hg).1, (hold g hg).2, (hold k hk).1, (hold k hk).2]
      exact h.apart g hg k hk hgbr hkbr hgk
    · exact Or.inl (habove g hg hgbr hkbr)
    · exact Or.inr (habove k hk hkbr hgbr)
    · exact absurd rfl hgk
  · intro g hg k hk hbr
    rw [List.mem_append, List.mem_singleton] at hg
    rcases hg with hg | rfl
    · rw [(hold g hg).1, (hold g hg).2, (holdIn g hg k).1, (holdIn g hg k).2]
      exact h.inside g hg k hk hbr
    · exact ha.inside k hk hbr
  · intro g hg k hk l hl hkbr hlbr hkl
    rw [List.mem_append, List.mem_singleton] at hg
    rcases hg with hg | rfl
    · rw [(holdIn g hg k).1, (holdIn g hg l).1]
      exact h.distinct g hg k hk l hl hkbr hlbr hkl
    · exact ha.distinct k hk l hl hkbr hlbr hkl

theorem Added.of_endpoint {dev : PciDevice} (hbr : ¬T.IsBridge [f])
    (hdev : dev.ident = T.ident 0 f [f]) :
    T.Added f s { s with devices := s.devices ++ [dev] } := by
  have hnone := onBus_of_not_bridge hbr
  refine ⟨?_, ?_, fun _ _ => rfl, fun h => absurd h hbr, ?_, ?_⟩
  · rw [bridgesIn_below, if_neg hbr]
    rfl
  · rw [List.map_append, List.map_singleton, hdev, below, hnone]
    rfl
  · rw [hnone]
    exact fun g hg => nomatch hg
  · rw [hnone]
    exact fun g hg => nomatch hg

theorem Added.of_bridge {s1 s2 s3 : State} (hbr : T.IsBridge [f]) (ho : T.Opened 0 f [] s s1)
    (hr : T.Ready f s.freeBus s1) (hi : T.Inner f s.freeBus s1 (T.onBus [f]) s2)
    (hc : Closed [f] s2 s3) : T.Added f s s3 := by
  have hnum := hr.numbers
  have hfree1 : s1.freeBus.toNat = s.freeBus.toNat + 1 := by
    have hlt := s.freeBus.isLt
    have hpos : 0 < (s.freeBus.toNat + 1) % 256 := by
      have h := hr.free_pos
      rw [ho.freeBus, BitVec.toNat_add] at h
      exact h
    rw [ho.freeBus, toNat_succ (by omega)]
  have hfree2 := hi.freeBus
  have hfree3 : s3.freeBus.toNat = s2.freeBus.toNat + 1 := by
    rw [hc.freeBus, toNat_succ (by omega)]
  have hsec : s3.secondary [f] = s.freeBus := by
    rw [hc.secondary, ← ho.secondary]
    exact congrArg (getByte · 1) (hi.top f)
  have hsub : (s3.subordinate [f]).toNat = s2.freeBus.toNat - 1 := by
    rw [hc.subordinate]
    exact BitVec.toNat_sub_of_le (BitVec.le_def.mpr (by simp; omega))
  have hin : ∀ g, s3.secondary [g, f] = s2.secondary [g, f] ∧
      s3.subordinate [g, f] = s2.subordinate [g, f] := fun g => by
    have h := hc.numbers [g, f] fun he => nomatch he
    simp only [State.secondary, State.subordinate, h, and_self]
  refine ⟨?_, ?_, ?_, ?_, ?_, ?_⟩
  · rw [bridgesIn_below, if_pos hbr]
    omega
  · rw [hc.devices, hi.devices, ho.devices, List.append_assoc, below, List.map_cons, List.map_map]
    refine congrArg _ (congrArg _ (List.map_congr_left fun g _ => ?_))
    exact congrArg (fun b => T.ident b g [g, f]) hsec.symm
  · intro r hlast
    have hr1 : r ≠ [f] := by
      rintro rfl
      exact hlast rfl
    rw [hc.numbers r hr1, hi.numbers r, ho.numbers r hr1]
    rintro g - rfl
    exact hlast rfl
  · intro _
    rw [hsec, hsub]
    omega
  · intro g hg hgbr
    obtain ⟨h1, h2, h3⟩ := hi.range g hg hgbr
    rw [(hin g).1, (hin g).2, hsec, BitVec.lt_def, BitVec.le_def, hsub]
    exact ⟨h1, by omega, by omega⟩
  · intro g hg k hk hgbr hkbr hgk
    rw [(hin g).1, (hin k).1]
    exact hi.distinct g hg k hk hgbr hkbr hgk

/-- The scan of the root bus has room for a function and what is behind it. -/
theorem Outer.room (h : T.Outer pre s) {post : List Place}
    (hbus : T.onBus [] = pre ++ f :: post) :
    s.devices.length + 1 + (T.onBus [f]).length ≤ 256 ∧
      s.freeBus.toNat + 2 * T.bridgesIn (T.below f) ≤ 201 := by
  have hlen := congrArg List.length h.devices
  have hsplit : T.visited (T.onBus []) = T.visited pre ++ (T.below f ++ T.visited post) := by
    rw [hbus, visited_append, visited_cons]
  have hall := T.visited_subperm.length_le
  have hbridges : T.bridgesIn (T.visited (T.onBus [])) ≤ 100 := by
    refine le_trans (T.visited_subperm.countP_le _) ?_
    rw [List.countP_eq_length_filter]
    exact T.bridges_le
  have hfree := h.freeBus
  have hle := T.functions_le
  rw [hsplit] at hall hbridges
  simp only [bridgesIn, List.countP_append] at hbridges hfree ⊢
  simp only [List.length_append, List.length_map, below, List.length_cons] at hall hlen
  exact ⟨by omega, by omega⟩

/-- The bus behind a bridge of the root bus can be scanned. -/
theorem Outer.ready {s1 : State} (h : T.Outer pre s) {post : List Place}
    (hbus : T.onBus [] = pre ++ f :: post) (hbr : T.IsBridge [f])
    (ho : T.Opened 0 f [] s s1) : T.Ready f s.freeBus s1 := by
  obtain ⟨hroom, hnum⟩ := h.room hbus
  rw [bridgesIn_below, if_pos hbr] at hnum
  have hfree := h.freeBus
  have hfree1 : s1.freeBus.toNat = s.freeBus.toNat + 1 := by
    rw [ho.freeBus, toNat_succ (by omega)]
  -- no other bridge forwards a number from the counter on
  have hothers : ∀ y c, [y] ∈ T.functions → T.IsBridge [y] → y ≠ f → s1.Forwards [y] c →
      c.toNat < s.freeBus.toNat := by
    intro y c hy hybr hyf hfw
    have hsame := ho.numbers [y] fun he => hyf (List.cons.inj he).1
    simp only [State.Forwards, State.secondary, State.subordinate, hsame] at hfw
    by_cases hmem : y ∈ pre
    · exact lt_of_le_of_lt (BitVec.le_def.mp hfw.2) (h.range y hmem hybr).2.2
    · rw [h.fresh y hmem] at hfw
      rw [T.quiet [y] hy hybr c hfw, hfree]
      exact Nat.lt_of_lt_of_le Nat.one_pos (Nat.le_add_right _ _)
  have hlen := congrArg List.length ho.devices
  simp only [List.length_map, List.length_append, List.length_singleton] at hlen
  refine ⟨hbr, fun h0 => ?_, ho.secondary, ho.subordinate, fun y hy hybr hfw => ?_,
    fun y c hy hybr hfw => ?_, by omega, by omega, by omega⟩
  · rw [h0] at hfree
    exact absurd hfree (by simp; omega)
  · by_contra hyf
    exact lt_irrefl _ (hothers y _ hy hybr hyf hfw)
  · by_cases hyf : y = f
    · have hle := BitVec.le_def.mp hfw.2
      rw [hyf, ho.subordinate] at hle
      omega
    · have := hothers y c hy hybr hyf hfw
      omega

theorem outer_step (h : T.Outer pre s) {post : List Place}
    (hbus : T.onBus [] = pre ++ f :: post) (n : ℕ) :
    ∃ s', T.scanFunction (T.scanBus (n + 2)) 0 f s = some s' ∧ T.Outer (pre ++ [f]) s' := by
  have hf : [f] ∈ T.functions := mem_onBus.mp (by rw [hbus]; simp)
  have hfresh : f ∉ pre := fun hmem => by
    have hnd := T.nodup_onBus []
    rw [hbus] at hnd
    exact (List.disjoint_of_nodup_append hnd) hmem List.mem_cons_self
  have hsees := Topology.sees_root T.toTopology s
  have hlen : s.devices.length < 256 := by
    have := (h.room hbus).1
    omega
  by_cases hbr : T.IsBridge [f]
  · obtain ⟨s1, ho, hclose⟩ := scanFunction_bridge (T.scanBus (n + 2)) hsees hf hbr hlen
    have hr := h.ready hbus hbr ho
    obtain ⟨s2, hscan, hi⟩ := inner_run hr n
    obtain ⟨s3, hc, hscan3⟩ := hclose s2 hscan (Topology.sees_root _ _)
    exact ⟨s3, hscan3, h.snoc hfresh (Added.of_bridge hbr ho hr hi hc)⟩
  · obtain ⟨dev, hdev, hscan⟩ := scanFunction_endpoint hsees hf hbr hlen
    exact ⟨_, hscan, h.snoc hfresh (Added.of_endpoint hbr hdev)⟩

/-- The whole scan, which is three calls deep at most. -/
theorem outer_run (T : Tree) (n : ℕ) :
    ∃ s, T.scanBus (n + 3) 0 T.start = some s ∧ T.Outer (T.onBus []) s :=
  scanBus_spec (fun _ _ _ => Topology.sees_root _ _)
    (fun _ _ _ hbus _ h => outer_step h hbus n) (Outer.start T)

/-! ## What is recorded -/

/-- After the scan the number of a visited bus selects that bus. -/
theorem Outer.sees (h : T.Outer (T.onBus []) s) {p : Path}
    (hq : f :: p ∈ T.visited (T.onBus [])) : T.Sees s (s.busNumber p) p := by
  obtain ⟨hq, hlen⟩ := mem_visited.mp hq
  match p, hq, hlen with
  | [], _, _ => exact Topology.sees_root _ _
  | [x], hq, _ =>
    obtain ⟨hx, hbr⟩ := T.behind f [x] hq (List.cons_ne_nil _ _)
    obtain ⟨h1, h2, -⟩ := h.range x (mem_onBus.mpr hx) hbr
    refine sees_behind hbr rfl (BitVec.le_def.mpr h2) (fun h0 => ?_) fun y hy hybr hfw => ?_
    · rw [show s.secondary [x] = 0 from h0] at h1
      exact absurd h1 (by decide)
    · by_contra hyx
      rcases h.apart y (mem_onBus.mpr hy) x (mem_onBus.mpr hx) hybr hbr hyx with hlt | hlt
      · exact absurd hfw.2 (BitVec.not_le.mpr hlt)
      · exact absurd (BitVec.le_trans hfw.1 (BitVec.le_def.mpr h2)) (BitVec.not_le.mpr hlt)
  | _ :: _ :: _, _, hlen => exact absurd hlen (by simp)

/-- What `Records` says of an entry, by what is in it. -/
def RecordsIdent (T : Tree) (s : State) (i : U8 × Place × U16 × U16 × U8 × U8) (q : Path) : Prop :=
  T.hits s i.1 i.2.1 = [q] ∧ i.2.2 = (T.ident i.1 i.2.1 q).2.2

theorem records_iff (d : PciDevice) (q : Path) :
    T.Records s d q ↔ T.RecordsIdent s d.ident q := by
  simp only [Topology.Records, RecordsIdent, PciDevice.ident, ident, Prod.mk.injEq]

theorem Outer.recordsIdent_iff (h : T.Outer (T.onBus []) s) {q' : Path}
    (hq' : q' ∈ T.visited (T.onBus [])) (q : Path) :
    T.RecordsIdent s (T.entryOf s q') q ↔ q' = q := by
  have hmem := (mem_visited.mp hq').1
  have hhits : T.hits s (T.entryOf s q').1 (T.entryOf s q').2.1 = [q'] := by
    cases q' with
    | nil => exact absurd hmem T.ne_root
    | cons f p => exact (hits_of_sees (h.sees hq') f).trans (if_pos hmem)
  constructor
  · intro hr
    exact (List.cons.inj (hhits.symm.trans hr.1)).1
  · rintro rfl
    exact ⟨hhits, rfl⟩

/-- A function is recorded as often as the scan visits it. -/
theorem Outer.records_length (h : T.Outer (T.onBus []) s) (q : Path) :
    (s.devices.filter fun d => decide (T.Records s d q)).length =
      (T.visited (T.onBus [])).count q := by
  classical
  have hcount : ∀ ds : List PciDevice, (ds.filter fun d => decide (T.Records s d q)).length =
      (ds.map PciDevice.ident).countP fun i => decide (T.RecordsIdent s i q) := fun ds => by
    rw [← List.countP_eq_length_filter, List.countP_map]
    exact List.countP_congr fun d _ => by simp [records_iff]
  rw [hcount, h.devices, List.countP_map, List.count_eq_countP]
  exact List.countP_congr fun q' hq' => by simp [h.recordsIdent_iff hq' q]

theorem Outer.once_iff (h : T.Outer (T.onBus []) s) :
    (∀ q ∈ T.functions, (s.devices.filter fun d => decide (T.Records s d q)).length = 1) ↔
      ∀ q ∈ T.functions, q.length ≤ 2 := by
  refine forall₂_congr fun q hq => ?_
  rw [h.records_length, T.nodup_visited.count]
  split
  next hv => exact iff_of_true rfl (mem_visited.mp hv).2
  next hv => exact iff_of_false Nat.zero_ne_one fun hlen => hv (mem_visited.mpr ⟨hq, hlen⟩)

/-- The functions of a tree in which no function is behind two bridges. -/
theorem eq_or_eq_of_length_le {q : Path} (hq : q ∈ T.functions) (hlen : q.length ≤ 2) :
    (∃ f, q = [f] ∧ f ∈ T.onBus []) ∨
      ∃ f g, q = [g, f] ∧ f ∈ T.onBus [] ∧ g ∈ T.onBus [f] ∧ T.IsBridge [f] := by
  match q, hq, hlen with
  | [], hq, _ => exact absurd hq T.ne_root
  | [f], hq, _ => exact Or.inl ⟨f, rfl, mem_onBus.mpr hq⟩
  | [g, f], hq, _ =>
    obtain ⟨hf, hbr⟩ := T.behind g [f] hq (List.cons_ne_nil _ _)
    exact Or.inr ⟨f, g, rfl, mem_onBus.mpr hf, mem_onBus.mpr hq, hbr⟩
  | _ :: _ :: _ :: _, _, hlen => exact absurd hlen (by simp)

/-- After the scan everything is as it should be if and only if no function is behind a bridge
that is behind a bridge itself. -/
theorem Outer.enumerated_iff (h : T.Outer (T.onBus []) s) :
    T.Enumerated s ↔ ∀ q ∈ T.functions, q.length ≤ 2 := by
  refine ⟨fun he => h.once_iff.mp he.once, fun hlen => ⟨h.once_iff.mpr hlen, ?_, ?_, ?_⟩⟩
  · intro p f g hf hg hfbr hgbr hfg
    rcases eq_or_eq_of_length_le hf (hlen _ hf) with ⟨f', he, hf'⟩ | ⟨x, f', he, hx, hf', -⟩
    · obtain ⟨rfl, rfl⟩ := List.cons.inj he
      exact h.apart f hf' g (mem_onBus.mpr hg) hfbr hgbr hfg
    · obtain ⟨rfl, rfl⟩ := List.cons.inj he
      have hg' := mem_onBus.mpr hg
      have hne := h.distinct x hx f hf' g hg' hfbr hgbr hfg
      rw [(h.inside x hx f hf' hfbr).1, (h.inside x hx g hg' hgbr).1]
      rw [BitVec.lt_def, BitVec.lt_def]
      exact Nat.lt_or_gt_of_ne fun heq => hne (BitVec.eq_of_toNat_eq heq)
  · intro p f hp hf hbr
    rcases eq_or_eq_of_length_le hf (hlen _ hf) with ⟨f', he, -⟩ | ⟨x, f', he, hx, hf', -⟩
    · exact absurd (List.cons.inj he).2 hp
    · obtain ⟨rfl, rfl⟩ := List.cons.inj he
      obtain ⟨h1, h2, h3⟩ := h.inside x hx f hf' hbr
      rw [h1]
      exact ⟨BitVec.le_of_lt h2, h3⟩
  · intro q r hq hr hqbr hrbr hsuf
    have hown : ∀ x ∈ T.onBus [], T.IsBridge [x] → s.Forwards [x] (s.secondary [x]) :=
      fun x hx hbr => ⟨BitVec.le_refl _, BitVec.le_def.mpr (h.range x hx hbr).2.1⟩
    rcases eq_or_eq_of_length_le hr (hlen _ hr) with ⟨x, rfl, hx⟩ | ⟨x, g, rfl, hx, hg, hxbr⟩
    · rcases List.suffix_cons_iff.mp hsuf with rfl | hsuf
      · exact hown x hx hrbr
      · exact absurd hq (List.suffix_nil.mp hsuf ▸ T.ne_root)
    · obtain ⟨h1, h2, h3⟩ := h.inside x hx g hg hrbr
      rcases List.suffix_cons_iff.mp hsuf with rfl | hsuf
      · exact ⟨BitVec.le_refl _, h1 ▸ BitVec.le_refl _⟩
      · rcases List.suffix_cons_iff.mp hsuf with rfl | hsuf
        · exact ⟨BitVec.le_of_lt h2, h3⟩
        · exact absurd hq (List.suffix_nil.mp hsuf ▸ T.ne_root)

end Tree

/-- For every tree the scan ends, at a depth of three calls, and it enumerates the tree if and only
if no function is behind a bridge that is behind a bridge itself. -/
theorem pci_scan_enumerates_iff (T : Tree) (n : ℕ) : ∃ s, T.scanBus (n + 3) 0 T.start = some s ∧
    (T.Enumerated s ↔ ∀ q ∈ T.functions, q.length ≤ 2) := by
  obtain ⟨s, hscan, h⟩ := Tree.outer_run T n
  exact ⟨s, hscan, h.enumerated_iff⟩

/-- A bridge in slot 1 of the root bus, a bridge in slot 0 behind it, and an endpoint in slot 3
behind that one. -/
def bridgeBehindBridge : Tree where
  functions := [[(1, 0)], [(0, 0), (1, 0)], [(3, 0), (0, 0), (1, 0)]]
  conf q i := if i = 0 then 0x12348086 else if i = 3 ∧ q.length < 3 then 0x00010000 else 0
  clash _ _ := 0
  nodup := by decide
  ne_root := by decide
  behind f p h := by
    simp only [List.mem_cons, List.not_mem_nil, or_false] at h
    rcases h with h | h | h <;> obtain ⟨rfl, rfl⟩ := List.cons.inj h <;> decide
  present _ _ := by simp
  function_zero slot fn p h := by
    simp only [List.mem_cons, List.not_mem_nil, or_false] at h
    rcases h with h | h | h <;> obtain ⟨he, rfl⟩ := List.cons.inj h <;> cases he <;> decide
  multi slot fn p h := by
    simp only [List.mem_cons, List.not_mem_nil, or_false] at h
    rcases h with h | h | h <;> obtain ⟨he, rfl⟩ := List.cons.inj h <;> cases he <;> decide
  quiet _ _ _ b hb := by
    have hle : b ≤ 0 := by
      simpa [State.subordinate, Topology.start, busNumberReg, getByte] using hb.2
    exact BitVec.eq_of_toNat_eq (Nat.le_zero.mp (BitVec.le_def.mp hle))
  bridges_le := by decide
  functions_le := by decide

/-- The endpoint behind the second bridge is not recorded. -/
theorem pci_scan_misses : ∃ s, bridgeBehindBridge.scanBus 3 0 bridgeBehindBridge.start = some s ∧
    ¬bridgeBehindBridge.Enumerated s := by
  obtain ⟨s, hscan, h⟩ := Tree.outer_run bridgeBehindBridge 0
  refine ⟨s, hscan, fun he => ?_⟩
  exact absurd (h.enumerated_iff.mp he) (by decide)

end Jeos.Pci
