import Jeos.Initfs

/-!
# The device registry of `devfs.c`

`g_nodes` is an array of 64 nodes that are marked in use or free, and a free node keeps what it had.
`devfs_register` and `devfs_unregister` compare strings, `devfs_find` compares a length and bytes, and
`devfs_readdir` goes on behind the node it has returned last.

`Devices` is the finite map of at most 64 names that all of them are about. After any calls the
functions answer as that map says (`devfs_is_finite_map`). What they answer besides is `VFS_EINVAL`
for a call without a name or operations, and `VFS_ENOMEM` for a lookup without memory
(`refusals_besides`).
-/

namespace Jeos

namespace Devfs

set_option linter.unusedSectionVars false

open NameTable Vfs
open Initfs (OK EEXIST kstrcmp StringAt kstrcmp_eq_zero_iff)

/-! ## The functions -/

/-- `DEVFS_MAX_NODES`. -/
abbrev maxNodes : ℕ := 64

/-- A C string. -/
structure CString where
  bytes : List U8
  nul : 0 ∉ bytes
  length_lt : bytes.length < 2 ^ 64

/-- `struct devfs_node`. -/
structure DevfsNode where
  name : Fin 64 → U8
  nameLen : U16
  ino : U64
  mode : U32
  fops : U64
  priv : U64
  inUse : U8

/-- `g_nodes` and `g_next_ino`. -/
structure Registry where
  nodes : Fin maxNodes → DevfsNode
  nextIno : U32

/-- What `devfs_make_node_inode` copies from the node. -/
structure NodeInode where
  ino : U64
  mode : U32
  fops : U64
  priv : U64
  deriving DecidableEq

/-- The fields of `struct vfs_dirent` that `devfs_readdir` fills. Of the name these are the bytes
up to the 0. -/
structure Dirent where
  ino : U64
  reclen : U16
  type : U8
  name : List U8

/-- `kstrlen`. -/
def kstrlen (s : CString) : U64 := BitVec.ofNat 64 s.bytes.length

/-- A byte of the name. None behind its end is asked for. -/
def DevfsNode.char (n : DevfsNode) (k : ℕ) : U8 := if h : k < 64 then n.name ⟨k, h⟩ else 0

/-- The name as a string at address 0. -/
def DevfsNode.chars (n : DevfsNode) : Mem := fun a => n.char a.toNat

/-- `in_use && kstrcmp(name, ...) == 0`. -/
def isNamed (s : Registry) (name : List U8) (i : Fin maxNodes) : Bool :=
  (s.nodes i).inUse ≠ 0 ∧ kstrcmp (s.nodes i).chars 0 name = 0

/-- `memcpy(n->name, name, nlen + 1)`. -/
def DevfsNode.copyName (n : DevfsNode) (name : List U8) : Fin 64 → U8 :=
  fun k => (name ++ [0])[k.val]?.getD (n.name k)

/-- The node that `devfs_register` fills. -/
def DevfsNode.fill (n : DevfsNode) (name : CString) (ino : U32) (mode : U32) (fops priv : U64) :
    DevfsNode :=
  ⟨n.copyName name.bytes, (kstrlen name).setWidth 16, ino.setWidth 64, mode, fops, priv, 1⟩

/-- `devfs_register`. -/
def register (s : Registry) (name : Option CString) (mode : U32) (fops priv : U64) : Registry × ℤ :=
  match name with
  | none => (s, EINVAL)
  | some name =>
    if fops = 0 then (s, EINVAL)
    else
      let nlen := kstrlen name
      if nlen = 0 ∨ nlen ≥ 64 then (s, EINVAL)
      else
        match first (isNamed s name.bytes) with
        | some _ => (s, EEXIST)
        | none =>
          match first fun i => (s.nodes i).inUse = 0 with
          | none => (s, ENOMEM)
          | some i =>
            let n := (s.nodes i).fill name s.nextIno mode fops priv
            (⟨Function.update s.nodes i n, s.nextIno + 1⟩, OK)

/-- `devfs_unregister`. -/
def unregister (s : Registry) (name : Option CString) : Registry × ℤ :=
  match name with
  | none => (s, EINVAL)
  | some name =>
    match first (isNamed s name.bytes) with
    | some i => ({ s with nodes := Function.update s.nodes i { s.nodes i with inUse := 0 } }, OK)
    | none => (s, ENOENT)

/-- The test of `devfs_find`. -/
def isChild (s : Registry) (name : List U8) (i : Fin maxNodes) : Bool :=
  (s.nodes i).inUse ≠ 0 ∧ (s.nodes i).nameLen = BitVec.ofNat 16 name.length ∧
    ∀ j < name.length, (s.nodes i).char j = name[j]?.getD 0

/-- `devfs_dir_lookup` of a `child` with this name, where `page` tells whether `kalloc` succeeds. -/
def dirLookup (s : Registry) (name : List U8) (page : Bool) : ℤ × Option NodeInode :=
  match first (isChild s name) with
  | none => (ENOENT, none)
  | some i =>
    let n := s.nodes i
    if page then (OK, some ⟨n.ino, n.mode, n.fops, n.priv⟩) else (ENOMEM, none)

/-- The type of a directory entry. -/
def direntType (mode : U32) : U8 :=
  let type := mode &&& 0xf000
  if type = 0x2000 then 3 else if type = 0x6000 then 4 else if type = 0x8000 then 1 else 0

/-- The directory entry of a node. -/
def DevfsNode.dirent (n : DevfsNode) : Dirent :=
  ⟨n.ino, 272, direntType n.mode, (List.range n.nameLen.toNat).map n.char⟩

/-- The node is in use. -/
def used (s : Registry) (i : Fin maxNodes) : Bool := (s.nodes i).inUse ≠ 0

/-- `devfs_readdir` at a position, and the position it leaves. -/
def readdir (s : Registry) (pos : U64) : U64 × ℤ × Option Dirent :=
  match first (sinceSlot (used s) (pos.setWidth 32).toNat) with
  | none => (pos, ENOENT, none)
  | some i => (BitVec.ofNat 64 (i.val + 1), OK, some (s.nodes i).dirent)

/-- `devfs_readdir` from a position until the end of the directory. -/
def readdirPass (s : Registry) : ℕ → U64 → Option (List Dirent)
  | 0, _ => none
  | n + 1, pos =>
    match readdir s pos with
    | (_, _, none) => some []
    | (pos, _, some d) => (readdirPass s n pos).map (d :: ·)

/-- The registry of the image. -/
def boot : Registry := ⟨fun _ => ⟨fun _ => 0, 0, 0, 0, 0, 0, 0⟩, 2⟩

/-- A call that changes the registry. -/
inductive Call where
  | register (name : Option CString) (mode : U32) (fops priv : U64)
  | unregister (name : Option CString)

/-- A call, with its value. -/
def perform (s : Registry) : Call → Registry × ℤ
  | .register name mode fops priv => register s name mode fops priv
  | .unregister name => unregister s name

/-- The registry after some calls. -/
def afterCalls (calls : List Call) : Registry := calls.foldl (fun s c => (perform s c).1) boot

/-! ## The finite map -/

/-- What a registration says about a name. -/
structure Device where
  mode : U32
  fops : U64
  priv : U64

/-- The names present with their latest registrations, and the number of registrations so far. -/
structure Devices where
  map : List U8 → Option Device
  registrations : ℕ

/-- A name that can be registered. -/
def CString.Valid (name : CString) : Prop := name.bytes ≠ [] ∧ name.bytes.length < 64

open Classical in
/-- The value of a registration with a name and operations. -/
noncomputable def Devices.registerCode (D : Devices) (name : CString) : ℤ :=
  if ¬name.Valid then EINVAL
  else if D.map name.bytes ≠ none then EEXIST
  else if (keys D.map).ncard = maxNodes then ENOMEM
  else OK

open Classical in
/-- The map after a call, and the value of the call. -/
noncomputable def Devices.step (D : Devices) : Call → Devices × ℤ
  | .register (some name) mode fops priv =>
    if fops = 0 then (D, EINVAL)
    else if D.registerCode name = OK then
      (⟨Function.update D.map name.bytes (some ⟨mode, fops, priv⟩), D.registrations + 1⟩, OK)
    else (D, D.registerCode name)
  | .register none _ _ _ => (D, EINVAL)
  | .unregister (some name) =>
    if D.map name.bytes = none then (D, ENOENT)
    else ({ D with map := Function.update D.map name.bytes none }, OK)
  | .unregister none => (D, EINVAL)

/-- The map after some calls. -/
noncomputable def devices (calls : List Call) : Devices :=
  calls.foldl (fun D c => (D.step c).1) ⟨fun _ => none, 0⟩

/-! ## The names of the nodes -/

/-- The node is in use, with the name, the number and the registration. -/
structure NodeIs (n : DevfsNode) (name : List U8) (ino : U64) (d : Device) : Prop where
  inUse : n.inUse ≠ 0
  nameLen : n.nameLen = BitVec.ofNat 16 name.length
  short : name.length < 64
  nul : 0 ∉ name
  chars : ∀ k c, (name ++ [0])[k]? = some c → n.char k = c
  inode : (⟨n.ino, n.mode, n.fops, n.priv⟩ : NodeInode) = ⟨ino, d.mode, d.fops, d.priv⟩

variable {n : DevfsNode} {name name' : List U8} {ino : U64} {d : Device}

theorem lt_of_getElem?_end {k : ℕ} {c : U8} (h : (name ++ [0])[k]? = some c) : k ≤ name.length := by
  have : k < (name ++ [0]).length := (List.getElem?_eq_some_iff.1 h).1
  rw [List.length_append, List.length_singleton] at this
  omega

theorem chars_add (n : DevfsNode) {k : ℕ} (hk : k < 2 ^ 64) :
    n.chars (0 + BitVec.ofNat 64 k) = n.char k := by
  have h0 : (0 : U64) + BitVec.ofNat 64 k = BitVec.ofNat 64 k := BitVec.zero_add _
  rw [DevfsNode.chars, h0, BitVec.toNat_ofNat, Nat.mod_eq_of_lt hk]

/-- The loops over strings find the name. -/
theorem NodeIs.kstrcmp_iff (h : NodeIs n name ino d) (s : CString) :
    kstrcmp n.chars 0 s.bytes = 0 ↔ s.bytes = name := by
  have hname : StringAt n.chars 0 name := fun k c hk => by
    have := lt_of_getElem?_end hk
    have := h.short
    rw [chars_add n (by omega), h.chars k c hk]
  refine (kstrcmp_eq_zero_iff s.nul 0).trans ⟨fun hs => ?_, fun he => he ▸ hname⟩
  have hle := hs.length_le hname h.nul
  have hge := hname.length_le hs s.nul
  exact hs.eq hname (Nat.le_antisymm hge hle)

/-- `devfs_find` finds the name. -/
theorem NodeIs.child_iff (h : NodeIs n name ino d) (hlen : name'.length < 2 ^ 16) :
    (n.nameLen = BitVec.ofNat 16 name'.length ∧ ∀ j < name'.length, n.char j = name'[j]?.getD 0) ↔
      name' = name := by
  have hshort := h.short
  have hchar : ∀ j (hj : j < name.length), n.char j = name[j] := fun j hj =>
    h.chars j _ (by rw [List.getElem?_append_left hj, List.getElem?_eq_getElem hj])
  constructor
  · rintro ⟨hl, hc⟩
    have hll : name'.length = name.length := by
      have he := congrArg BitVec.toNat (h.nameLen.symm.trans hl)
      simp only [BitVec.toNat_ofNat] at he
      omega
    refine List.ext_getElem hll fun j hj hj' => ?_
    have := hc j hj
    rw [hchar j hj', List.getElem?_eq_getElem hj, Option.getD_some] at this
    exact this.symm
  · rintro rfl
    refine ⟨h.nameLen, fun j hj => ?_⟩
    rw [hchar j hj, List.getElem?_eq_getElem hj, Option.getD_some]

theorem nodeIs_fill {s : CString} {next mode : U32} {fops priv : U64} (hs : s.bytes.length < 64) :
    NodeIs (n.fill s next mode fops priv) s.bytes (next.setWidth 64) ⟨mode, fops, priv⟩ where
  inUse := show (1 : U8) ≠ 0 by decide
  nameLen := by
    refine BitVec.eq_of_toNat_eq ?_
    simp only [DevfsNode.fill, kstrlen, BitVec.toNat_setWidth, BitVec.toNat_ofNat]
    omega
  short := hs
  nul := s.nul
  chars k c hk := by
    have hle := lt_of_getElem?_end hk
    have hlt : k < 64 := by omega
    rw [DevfsNode.char, dif_pos hlt]
    simp only [DevfsNode.fill, DevfsNode.copyName, hk, Option.getD_some]
  inode := rfl

/-- The name of the directory entry. -/
theorem NodeIs.listed (h : NodeIs n name ino d) : n.dirent.name = name := by
  rw [DevfsNode.dirent]
  dsimp only
  have hshort := h.short
  have hlen : n.nameLen.toNat = name.length := by
    rw [h.nameLen, BitVec.toNat_ofNat, Nat.mod_eq_of_lt (by omega)]
  rw [hlen]
  refine List.ext_getElem (by simp) fun j hj hj' => ?_
  rw [List.getElem_map, List.getElem_range]
  exact h.chars j _ (by rw [List.getElem?_append_left hj', List.getElem?_eq_getElem hj'])

/-! ## The table of the nodes -/

/-- The nodes as slots : name, inode number and registration. -/
abbrev NodeTable := NameTable.Table maxNodes (List U8) (U64 × Device)

/-- What a node holds. -/
def SlotIs (n : DevfsNode) : Option (List U8 × U64 × Device) → Prop
  | none => n.inUse = 0
  | some (name, ino, d) => NodeIs n name ino d

/-- The nodes hold the table, which shows the map, and every registration has had the next number. -/
structure Invariant (s : Registry) (D : Devices) (T : NodeTable) : Prop where
  slots : ∀ i, SlotIs (s.nodes i) (T i)
  distinct : Distinct T
  map : ∀ name, D.map name = (toMap T name).map Prod.snd
  next : s.nextIno.toNat = 2 + D.registrations
  inos : ∀ i name ino d, T i = some (name, ino, d) → 2 ≤ ino.toNat ∧ ino.toNat < s.nextIno.toNat
  apart : ∀ i j name name' ino d d',
    T i = some (name, ino, d) → T j = some (name', ino, d') → i = j

variable {s : Registry} {D : Devices} {T : NodeTable} {i : Fin maxNodes}

theorem slot_eq_none_iff (h : Invariant s D T) (i : Fin maxNodes) :
    T i = none ↔ (s.nodes i).inUse = 0 := by
  have hi := h.slots i
  rcases he : T i with _ | ⟨name, ino, d⟩ <;> rw [he] at hi
  · exact iff_of_true rfl hi
  · exact iff_of_false (nomatch ·) (NodeIs.inUse hi)

theorem Invariant.isNamed_eq (h : Invariant s D T) (name : CString) (i : Fin maxNodes) :
    isNamed s name.bytes i = holds T name.bytes i := by
  have hi := h.slots i
  rw [Bool.eq_iff_iff, holds_iff, isNamed, decide_eq_true_iff]
  rcases he : T i with _ | ⟨name', ino, d⟩ <;> rw [he] at hi
  · exact iff_of_false (fun hc => hc.1 hi) fun ⟨_, hc⟩ => nomatch hc
  · rw [NodeIs.kstrcmp_iff hi name, and_iff_right (NodeIs.inUse hi)]
    constructor
    · rintro rfl
      exact ⟨_, rfl⟩
    · rintro ⟨v, hv⟩
      exact (Prod.mk.inj (Option.some.inj hv)).1.symm

theorem Invariant.isChild_eq (h : Invariant s D T) (hlen : name.length < 2 ^ 16)
    (i : Fin maxNodes) : isChild s name i = holds T name i := by
  have hi := h.slots i
  rw [Bool.eq_iff_iff, holds_iff, isChild, decide_eq_true_iff]
  rcases he : T i with _ | ⟨name', ino, d⟩ <;> rw [he] at hi
  · exact iff_of_false (fun hc => hc.1 hi) fun ⟨_, hc⟩ => nomatch hc
  · rw [NodeIs.child_iff hi hlen, and_iff_right (NodeIs.inUse hi)]
    constructor
    · rintro rfl
      exact ⟨_, rfl⟩
    · rintro ⟨v, hv⟩
      exact (Prod.mk.inj (Option.some.inj hv)).1.symm

theorem Invariant.map_eq_none_iff (h : Invariant s D T) : D.map name = none ↔ toMap T name = none := by
  rw [h.map, Option.map_eq_none_iff]

/-- There are as many names as nodes in use. -/
theorem Invariant.full_iff (h : Invariant s D T) :
    (keys D.map).ncard = maxNodes ↔ ∀ i, (s.nodes i).inUse ≠ 0 := by
  have hkeys : keys D.map = keys (toMap T) := Set.ext fun name => not_congr h.map_eq_none_iff
  rw [hkeys, h.distinct.ncard_keys_eq_iff]
  exact forall_congr' fun i => not_congr (slot_eq_none_iff h i)

/-- A name that is present was found at its slot. -/
theorem Invariant.map_of_slot (h : Invariant s D T) {ino : U64} {d : Device}
    (hi : T i = some (name, ino, d)) : D.map name = some d := by
  rw [h.map, h.distinct.toMap_eq_some_iff.2 ⟨i, hi⟩, Option.map_some]

theorem Invariant.exists_slot (h : Invariant s D T) (hm : D.map name = some d) :
    ∃ i ino, T i = some (name, ino, d) := by
  rw [h.map] at hm
  obtain ⟨⟨ino, d'⟩, hv, rfl⟩ := Option.map_eq_some_iff.1 hm
  obtain ⟨i, hi⟩ := h.distinct.toMap_eq_some_iff.1 hv
  exact ⟨i, ino, hi⟩

/-- A new name in a free node. -/
theorem Invariant.fill (h : Invariant s D T) {name : CString} {mode : U32} {fops priv : U64}
    (hvalid : name.Valid) (hnew : D.map name.bytes = none) (hfree : (s.nodes i).inUse = 0)
    (hcount : D.registrations + 1 < 2 ^ 32 - 2) :
    Invariant
      ⟨Function.update s.nodes i ((s.nodes i).fill name s.nextIno mode fops priv), s.nextIno + 1⟩
      ⟨Function.update D.map name.bytes (some ⟨mode, fops, priv⟩), D.registrations + 1⟩
      (Function.update T i (some (name.bytes, s.nextIno.setWidth 64, ⟨mode, fops, priv⟩))) := by
  have hslot := (slot_eq_none_iff h i).2 hfree
  have hnew' := h.map_eq_none_iff.1 hnew
  have hnext := h.next
  have hsucc : (s.nextIno + 1).toNat = s.nextIno.toNat + 1 := by
    rw [BitVec.toNat_add]
    exact Nat.mod_eq_of_lt (by change s.nextIno.toNat + 1 < 2 ^ 32; omega)
  have hino : (s.nextIno.setWidth 64).toNat = s.nextIno.toNat :=
    BitVec.toNat_setWidth_of_le (by norm_num)
  refine ⟨fun j => ?_, h.distinct.fill hnew' i, fun other => ?_, ?_, ?_, ?_⟩
  · by_cases hji : j = i
    · subst hji
      simp only [Function.update_self]
      exact nodeIs_fill hvalid.2
    · simp only [Function.update_of_ne hji]
      exact h.slots j
  · rw [h.distinct.toMap_fill hnew' hslot]
    by_cases ho : other = name.bytes
    · simp only [ho, Function.update_self, Option.map_some]
    · simp only [Function.update_of_ne ho, h.map]
  · change (s.nextIno + 1).toNat = _
    rw [hsucc, hnext, Nat.add_assoc]
  · intro j other ino d hj
    change _ ∧ ino.toNat < (s.nextIno + 1).toNat
    rw [hsucc]
    by_cases hji : j = i
    · rw [hji, Function.update_self] at hj
      obtain ⟨-, he⟩ := Prod.mk.inj (Option.some.inj hj)
      rw [← (Prod.mk.inj he).1, hino]
      omega
    · rw [Function.update_of_ne hji] at hj
      have := h.inos j other ino d hj
      omega
  · intro j k name₁ name₂ ino d₁ d₂ hj hk
    have hold : ∀ {l : Fin maxNodes} {other : List U8} {d : Device},
        T l = some (other, s.nextIno.setWidth 64, d) → False := fun hl => by
      have := (h.inos _ _ _ _ hl).2
      omega
    by_cases hji : j = i
    · by_cases hki : k = i
      · rw [hji, hki]
      · rw [hji, Function.update_self] at hj
        rw [Function.update_of_ne hki] at hk
        obtain ⟨-, he⟩ := Prod.mk.inj (Option.some.inj hj)
        rw [← (Prod.mk.inj he).1] at hk
        exact (hold hk).elim
    · rw [Function.update_of_ne hji] at hj
      by_cases hki : k = i
      · rw [hki, Function.update_self] at hk
        obtain ⟨-, he⟩ := Prod.mk.inj (Option.some.inj hk)
        rw [← (Prod.mk.inj he).1] at hj
        exact (hold hj).elim
      · rw [Function.update_of_ne hki] at hk
        exact h.apart j k name₁ name₂ ino d₁ d₂ hj hk

/-- A name that is present is taken out. -/
theorem Invariant.clear (h : Invariant s D T) {e : U64 × Device} (hi : T i = some (name, e)) :
    Invariant { s with nodes := Function.update s.nodes i { s.nodes i with inUse := 0 } }
      { D with map := Function.update D.map name none } (Function.update T i none) := by
  have hold : ∀ {j : Fin maxNodes} {e}, Function.update T i none j = some e → T j = some e := by
    intro j e hj
    by_cases hji : j = i
    · rw [hji, Function.update_self] at hj
      cases hj
    · rwa [Function.update_of_ne hji] at hj
  refine ⟨fun j => ?_, h.distinct.clear i, fun other => ?_, h.next,
    fun j _ _ _ hj => h.inos j _ _ _ (hold hj),
    fun j k _ _ _ _ _ hj hk => h.apart j k _ _ _ _ _ (hold hj) (hold hk)⟩
  · by_cases hji : j = i
    · subst hji
      simp only [Function.update_self]
      rfl
    · simp only [Function.update_of_ne hji]
      exact h.slots j
  · rw [h.distinct.toMap_clear hi]
    by_cases ho : other = name
    · simp only [ho, Function.update_self, Option.map_none]
    · simp only [Function.update_of_ne ho, h.map]

theorem valid_iff (name : CString) :
    name.Valid ↔ ¬(kstrlen name = 0 ∨ kstrlen name ≥ 64) := by
  have hlen : (kstrlen name).toNat = name.bytes.length :=
    (BitVec.toNat_ofNat ..).trans (Nat.mod_eq_of_lt name.length_lt)
  have hzero : kstrlen name = 0 ↔ name.bytes = [] := by
    rw [← List.length_eq_zero_iff, ← hlen]
    exact ⟨fun h => by rw [h]; rfl, fun h => BitVec.eq_of_toNat_eq h⟩
  rw [not_or, hzero, CString.Valid, ge_iff_le, BitVec.not_le, BitVec.lt_def, hlen]
  exact Iff.rfl

/-- A registration with a name and operations has its value from the map, and changes nothing or
fills a free node with a new name. -/
theorem Invariant.register_cases (h : Invariant s D T) (name : CString) (mode : U32) {fops : U64}
    (priv : U64) (hf : fops ≠ 0) :
    (D.registerCode name ≠ OK ∧
      register s (some name) mode fops priv = (s, D.registerCode name)) ∨
    (D.registerCode name = OK ∧ name.Valid ∧ D.map name.bytes = none ∧
      ∃ i, (s.nodes i).inUse = 0 ∧ register s (some name) mode fops priv =
        (⟨Function.update s.nodes i ((s.nodes i).fill name s.nextIno mode fops priv),
          s.nextIno + 1⟩, OK)) := by
  rw [Devices.registerCode, register]
  dsimp only
  rw [if_neg hf]
  by_cases hv : name.Valid
  swap
  · rw [if_pos hv, if_pos (not_not.1 fun hn => hv ((valid_iff name).2 hn))]
    exact Or.inl ⟨by decide, rfl⟩
  rw [if_neg (not_not.2 hv), if_neg ((valid_iff name).1 hv), first_congr (h.isNamed_eq name)]
  by_cases hnew : D.map name.bytes = none
  swap
  · obtain ⟨d, hd⟩ := Option.ne_none_iff_exists'.1 hnew
    obtain ⟨i, ino, hi⟩ := h.exists_slot hd
    rw [if_pos hnew, h.distinct.first_holds hi]
    exact Or.inl ⟨by decide, rfl⟩
  rw [if_neg (not_not.2 hnew), first_holds_eq_none (h.map_eq_none_iff.1 hnew)]
  dsimp only
  rcases hfree : first fun i => decide ((s.nodes i).inUse = 0) with _ | i
  · have hfull := h.full_iff.2 fun i => of_decide_eq_false (first_eq_none_iff.1 hfree i)
    rw [if_pos hfull]
    exact Or.inl ⟨by decide, rfl⟩
  · have hi : (s.nodes i).inUse = 0 := of_decide_eq_true (first_of_some hfree)
    rw [if_neg fun hc => h.full_iff.1 hc i hi]
    exact Or.inr ⟨rfl, hv, hnew, i, hi, rfl⟩

theorem Invariant.unregister (h : Invariant s D T) (name : CString) :
    (D.map name.bytes = none ∧ Devfs.unregister s (some name) = (s, ENOENT)) ∨
      (D.map name.bytes ≠ none ∧ (Devfs.unregister s (some name)).2 = OK ∧
        ∃ T', Invariant (Devfs.unregister s (some name)).1
          { D with map := Function.update D.map name.bytes none } T') := by
  rw [Devfs.unregister, first_congr (h.isNamed_eq name)]
  by_cases hm : D.map name.bytes = none
  · refine Or.inl ⟨hm, ?_⟩
    rw [first_holds_eq_none (h.map_eq_none_iff.1 hm)]
  · obtain ⟨d, hd⟩ := Option.ne_none_iff_exists'.1 hm
    obtain ⟨i, ino, hi⟩ := h.exists_slot hd
    rw [h.distinct.first_holds hi]
    exact Or.inr ⟨hm, rfl, _, h.clear hi⟩

/-! ## Runs -/

theorem registrations_le_step (D : Devices) (c : Call) :
    D.registrations ≤ (D.step c).1.registrations := by
  rcases c with ⟨_ | name, mode, fops, priv⟩ | ⟨_ | name⟩
  · exact Nat.le_refl _
  · rw [Devices.step]
    split_ifs
    · exact Nat.le_refl _
    · exact Nat.le_succ _
    · exact Nat.le_refl _
  · exact Nat.le_refl _
  · rw [Devices.step]
    split_ifs <;> exact Nat.le_refl _

/-- A call answers and acts as on the map. -/
theorem Invariant.step (h : Invariant s D T) (c : Call)
    (hcount : (D.step c).1.registrations < 2 ^ 32 - 2) :
    (perform s c).2 = (D.step c).2 ∧ ∃ T', Invariant (perform s c).1 (D.step c).1 T' := by
  rcases c with ⟨_ | name, mode, fops, priv⟩ | ⟨_ | name⟩
  · exact ⟨rfl, T, h⟩
  · by_cases hf : fops = 0
    · have hstep : D.step (.register (some name) mode fops priv) = (D, EINVAL) := if_pos hf
      have hcall : perform s (.register (some name) mode fops priv) = (s, EINVAL) := if_pos hf
      rw [hstep, hcall]
      exact ⟨rfl, T, h⟩
    rcases h.register_cases name mode priv hf with ⟨hno, hcall⟩ | ⟨hok, hv, hnew, i, hi, hcall⟩
    · have hstep : D.step (.register (some name) mode fops priv) = (D, D.registerCode name) :=
        (if_neg hf).trans (if_neg hno)
      rw [hstep, perform, hcall]
      exact ⟨rfl, T, h⟩
    · have hstep : D.step (.register (some name) mode fops priv) =
          (⟨Function.update D.map name.bytes (some ⟨mode, fops, priv⟩), D.registrations + 1⟩, OK) :=
        (if_neg hf).trans (if_pos hok)
      rw [hstep] at hcount ⊢
      rw [perform, hcall]
      exact ⟨rfl, _, h.fill hv hnew hi hcount⟩
  · exact ⟨rfl, T, h⟩
  · rcases h.unregister name with ⟨hm, hcall⟩ | ⟨hm, hcode, hinv⟩
    · have hstep : D.step (.unregister (some name)) = (D, ENOENT) := if_pos hm
      rw [hstep, perform, hcall]
      exact ⟨rfl, T, h⟩
    · have hstep : D.step (.unregister (some name)) =
          ({ D with map := Function.update D.map name.bytes none }, OK) := if_neg hm
      rw [hstep]
      exact ⟨hcode, hinv⟩

theorem invariant_boot : Invariant boot ⟨fun _ => none, 0⟩ fun _ => none where
  slots _ := rfl
  distinct := distinct_empty
  map name := by rw [toMap_empty, Option.map_none]
  next := rfl
  inos _ _ _ _ h := nomatch h
  apart _ _ _ _ _ _ _ h := nomatch h

theorem afterCalls_append (calls : List Call) (c : Call) :
    afterCalls (calls ++ [c]) = (perform (afterCalls calls) c).1 := by
  rw [afterCalls, List.foldl_append]
  rfl

theorem devices_append (calls : List Call) (c : Call) :
    devices (calls ++ [c]) = ((devices calls).step c).1 := by
  rw [devices, List.foldl_append]
  rfl

/-- After any calls the nodes show the map. -/
theorem exists_invariant (calls : List Call) (h : (devices calls).registrations < 2 ^ 32 - 2) :
    ∃ T, Invariant (afterCalls calls) (devices calls) T := by
  induction calls using List.reverseRecOn with
  | nil => exact ⟨_, invariant_boot⟩
  | append_singleton calls c ih =>
    rw [devices_append] at h ⊢
    obtain ⟨T, hT⟩ := ih (lt_of_le_of_lt (registrations_le_step _ c) h)
    rw [afterCalls_append]
    exact (hT.step c h).2

theorem registrations_step_le (D : Devices) (c : Call) :
    (D.step c).1.registrations ≤ D.registrations + 1 := by
  rcases c with ⟨_ | name, mode, fops, priv⟩ | ⟨_ | name⟩
  · exact Nat.le_succ _
  · rw [Devices.step]
    split_ifs
    · exact Nat.le_succ _
    · exact Nat.le_refl _
    · exact Nat.le_succ _
  · exact Nat.le_succ _
  · rw [Devices.step]
    split_ifs <;> exact Nat.le_succ _

theorem registrations_le_length (calls : List Call) :
    (devices calls).registrations ≤ calls.length := by
  induction calls using List.reverseRecOn with
  | nil => exact Nat.le_refl _
  | append_singleton calls c ih =>
    rw [devices_append, List.length_append, List.length_singleton]
    exact (registrations_step_le _ c).trans (Nat.succ_le_succ ih)

/-! ## Lookups and listings -/

theorem Invariant.lookup_absent (h : Invariant s D T) (hlen : name.length < 2 ^ 16)
    (hm : D.map name = none) (page : Bool) : dirLookup s name page = (ENOENT, none) := by
  rw [dirLookup, first_congr (h.isChild_eq hlen), first_holds_eq_none (h.map_eq_none_iff.1 hm)]

theorem Invariant.lookup_slot (h : Invariant s D T) (hlen : name.length < 2 ^ 16)
    (hi : T i = some (name, ino, d)) (page : Bool) : dirLookup s name page =
      if page then (OK, some ⟨ino, d.mode, d.fops, d.priv⟩) else (ENOMEM, none) := by
  have hnode := h.slots i
  rw [hi] at hnode
  rw [dirLookup, first_congr (h.isChild_eq hlen), h.distinct.first_holds hi]
  dsimp only
  rw [NodeIs.inode hnode]

/-- A lookup that succeeds has found a slot. -/
theorem Invariant.slot_of_lookup (h : Invariant s D T) (hlen : name.length < 2 ^ 16) {page : Bool}
    {v : NodeInode} (hl : dirLookup s name page = (OK, some v)) :
    ∃ i d, T i = some (name, v.ino, d) := by
  cases hm : D.map name with
  | none =>
    rw [h.lookup_absent hlen hm] at hl
    cases hl
  | some d =>
    obtain ⟨i, ino, hi⟩ := h.exists_slot hm
    rw [h.lookup_slot hlen hi] at hl
    split_ifs at hl
    · obtain rfl := Option.some.inj (Prod.mk.inj hl).2
      exact ⟨i, d, hi⟩
    · cases hl

theorem readdir_eq (s : Registry) {k : ℕ} (hk : k ≤ 64) : readdir s (BitVec.ofNat 64 k) =
    match first (sinceSlot (used s) k) with
    | none => (BitVec.ofNat 64 k, ENOENT, none)
    | some i => (BitVec.ofNat 64 (i.val + 1), OK, some (s.nodes i).dirent) := by
  have hpos : ((BitVec.ofNat 64 k).setWidth 32).toNat = k := by
    simp only [BitVec.toNat_setWidth, BitVec.toNat_ofNat]
    omega
  rw [readdir, hpos]

/-- A pass meets the nodes in use, in order. -/
theorem readdirPass_eq (s : Registry) : ∀ {fuel k : ℕ}, k ≤ 64 → 64 - k < fuel →
    readdirPass s fuel (BitVec.ofNat 64 k) =
      some ((slotsSince (used s) k).map fun i => (s.nodes i).dirent)
  | fuel + 1, k, hk, hf => by
    rw [readdirPass, readdir_eq s hk]
    rcases hfirst : first (sinceSlot (used s) k) with _ | i
    · rw [slotsSince_eq_nil hfirst]
      rfl
    · have hki := (sinceSlot_iff.1 (first_of_some hfirst)).1
      have hi : i.val < 64 := i.isLt
      dsimp only
      rw [readdirPass_eq s (by omega) (by omega), slotsSince_eq_cons hfirst]
      rfl

theorem Invariant.used_iff (h : Invariant s D T) (i : Fin maxNodes) :
    used s i = true ↔ ∃ name ino d, T i = some (name, ino, d) := by
  rw [used, decide_eq_true_iff]
  refine (not_congr (slot_eq_none_iff h i)).symm.trans (Option.ne_none_iff_exists'.trans ?_)
  exact ⟨fun ⟨⟨name, ino, d⟩, he⟩ => ⟨name, ino, d, he⟩, fun ⟨name, ino, d, he⟩ => ⟨_, he⟩⟩

/-- What a pass over the directory returns. -/
def entries (s : Registry) : List Dirent :=
  (slotsSince (used s) 0).map fun i => (s.nodes i).dirent

theorem Invariant.name_of_slot (h : Invariant s D T) (hi : T i = some (name, ino, d)) :
    (s.nodes i).dirent.name = name := by
  have hnode := h.slots i
  rw [hi] at hnode
  exact NodeIs.listed hnode

/-- Every name that is present is listed once. -/
theorem Invariant.listing (h : Invariant s D T) : ((entries s).map Dirent.name).Nodup ∧
    ∀ name, name ∈ (entries s).map Dirent.name ↔ D.map name ≠ none := by
  rw [entries, List.map_map]
  constructor
  · refine (slotsSince_nodup _ _).map_on fun i hi j hj hij => ?_
    obtain ⟨name, ino, d, he⟩ := (h.used_iff i).1 (mem_slotsSince.1 hi).2
    obtain ⟨name', ino', d', he'⟩ := (h.used_iff j).1 (mem_slotsSince.1 hj).2
    rw [Function.comp_apply, Function.comp_apply, h.name_of_slot he, h.name_of_slot he'] at hij
    exact h.distinct i j name _ _ he (hij ▸ he')
  · intro name
    rw [List.mem_map]
    constructor
    · rintro ⟨i, hi, hname⟩
      obtain ⟨other, ino, d, he⟩ := (h.used_iff i).1 (mem_slotsSince.1 hi).2
      rw [Function.comp_apply, h.name_of_slot he] at hname
      rw [← hname, h.map_of_slot he]
      exact Option.some_ne_none _
    · intro hm
      obtain ⟨d, hd⟩ := Option.ne_none_iff_exists'.1 hm
      obtain ⟨i, ino, he⟩ := h.exists_slot hd
      exact ⟨i, mem_slotsSince.2 ⟨Nat.zero_le _, (h.used_iff i).2 ⟨name, ino, d, he⟩⟩,
        h.name_of_slot he⟩

/-- A lookup finds an entry under its name and number. -/
theorem Invariant.lookup_entry (h : Invariant s D T) {e : Dirent} (he : e ∈ entries s) :
    ∃ v, dirLookup s e.name true = (OK, some v) ∧ e.ino = v.ino := by
  obtain ⟨i, hi, rfl⟩ := List.mem_map.1 he
  obtain ⟨name, ino, d, hslot⟩ := (h.used_iff i).1 (mem_slotsSince.1 hi).2
  have hnode := h.slots i
  rw [hslot] at hnode
  have hshort := NodeIs.short hnode
  rw [h.name_of_slot hslot]
  exact ⟨_, h.lookup_slot (by omega) hslot true, congrArg NodeInode.ino (NodeIs.inode hnode)⟩

/-! ## The registry is the map -/

/-- After any calls with fewer than `2 ^ 32 - 2` registrations the registry is the finite map of the
names present. A registration of a name with operations has the value `registerCode` says and adds
the name if that is `VFS_OK`, and `devfs_unregister` takes a name out. A lookup that gets its page
finds just the names present, as they were registered last. A pass over the directory lists each of
them once. Their inode numbers are distinct, and none is that of the root. -/
theorem devfs_is_finite_map (calls : List Call)
    (hcount : (devices calls).registrations < 2 ^ 32 - 2) :
    let s := afterCalls calls
    let D := devices calls
    (∀ name mode fops priv, name = none ∨ fops = 0 →
      register s name mode fops priv = (s, EINVAL)) ∧
    (∀ name mode fops priv, fops ≠ 0 →
      (register s (some name) mode fops priv).2 = D.registerCode name ∧
      (D.registerCode name ≠ OK → (register s (some name) mode fops priv).1 = s)) ∧
    (∀ name, (unregister s (some name)).2 = if D.map name.bytes = none then ENOENT else OK) ∧
    (∀ name : List U8, name.length < 2 ^ 16 →
      (∀ page, D.map name = none → dirLookup s name page = (ENOENT, none)) ∧
      ∀ d, D.map name = some d → ∃ ino,
        dirLookup s name true = (OK, some ⟨ino, d.mode, d.fops, d.priv⟩) ∧
        dirLookup s name false = (ENOMEM, none)) ∧
    (∃ es, (∀ fuel > 64, readdirPass s fuel 0 = some es) ∧ (es.map Dirent.name).Nodup ∧
      (∀ name, name ∈ es.map Dirent.name ↔ D.map name ≠ none) ∧
      ∀ e ∈ es, ∃ v, dirLookup s e.name true = (OK, some v) ∧ e.ino = v.ino) ∧
    ∀ name name' v v', name.length < 2 ^ 16 → name'.length < 2 ^ 16 →
      dirLookup s name true = (OK, some v) → dirLookup s name' true = (OK, some v') →
      v.ino ≠ 1 ∧ (v.ino = v'.ino → name = name') := by
  intro s D
  obtain ⟨T, h⟩ := exists_invariant calls hcount
  refine ⟨fun name mode fops priv hnull => ?_, fun name mode fops priv hf => ?_, fun name => ?_, fun name hlen => ?_, ?_,
    fun name name' v v' hlen hlen' hl hl' => ?_⟩
  · rcases name with _ | name
    · rfl
    · exact if_pos (hnull.resolve_left (Option.some_ne_none _))
  · rcases h.register_cases name mode priv hf with ⟨-, hcall⟩ | ⟨hok, -, -, i, -, hcall⟩
    · rw [hcall]
      exact ⟨rfl, fun _ => rfl⟩
    · rw [hcall]
      exact ⟨hok.symm, fun hno => absurd hok hno⟩
  · rcases h.unregister name with ⟨hm, hcall⟩ | ⟨hm, hcode, -⟩
    · exact (congrArg Prod.snd hcall).trans (if_pos hm).symm
    · exact hcode.trans (if_neg hm).symm
  · refine ⟨fun page hm => h.lookup_absent hlen hm page, fun d hd => ?_⟩
    obtain ⟨i, ino, hi⟩ := h.exists_slot hd
    exact ⟨ino, h.lookup_slot hlen hi true, h.lookup_slot hlen hi false⟩
  · exact ⟨entries s, fun fuel hf => readdirPass_eq s (Nat.zero_le _) hf, h.listing.1, h.listing.2,
      fun e he => h.lookup_entry he⟩
  · obtain ⟨i, d, hi⟩ := h.slot_of_lookup hlen hl
    obtain ⟨j, d', hj⟩ := h.slot_of_lookup hlen' hl'
    refine ⟨fun h1 => ?_, fun hino => ?_⟩
    · have := (h.inos i _ _ _ hi).1
      rw [h1] at this
      exact absurd this (by decide)
    · have hij := h.apart i j name name' v.ino d d' hi (hino ▸ hj)
      rw [hij, hj] at hi
      exact (Prod.mk.inj (Option.some.inj hi)).1.symm

/-- The name `null`. -/
def nullName : CString := ⟨[0x6e, 0x75, 0x6c, 0x6c], by decide, by decide⟩

/-- The name `fb`. -/
def fbName : CString := ⟨[0x66, 0x62], by decide, by decide⟩

/-- `null` is taken out and `fb` gets its node. -/
def sampleCalls : List Call :=
  [.register (some nullName) 0x21b6 0x1000 0, .unregister (some nullName),
    .register (some fbName) 0x21b0 0x2000 0]

theorem devfs_is_finite_map_sample :
    dirLookup (afterCalls sampleCalls) fbName.bytes true = (OK, some ⟨3, 0x21b0, 0x2000, 0⟩) ∧
      ∃ es, readdirPass (afterCalls sampleCalls) 65 0 = some es ∧
        (es.map Dirent.name).Nodup := by
  have hcount := registrations_le_length sampleCalls
  obtain ⟨-, -, -, -, ⟨es, hpass, hnodup, -⟩, -⟩ :=
    devfs_is_finite_map sampleCalls (lt_of_le_of_lt hcount (by decide))
  exact ⟨by decide, es, hpass 65 (by decide), hnodup⟩

/-- A good name without operations is refused, and a name that is present is not found when there is
no page for its inode. -/
theorem refusals_besides : nullName.Valid ∧
    (register boot (some nullName) 0x21b6 0 0).2 = EINVAL ∧
    (dirLookup (afterCalls sampleCalls) fbName.bytes true).1 = OK ∧
    dirLookup (afterCalls sampleCalls) fbName.bytes false = (ENOMEM, none) := by
  refine ⟨⟨by decide, by decide⟩, by decide, by decide, by decide⟩

end Devfs

end Jeos
