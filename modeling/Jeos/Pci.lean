import Mathlib.Data.List.FinRange
import Jeos.Lib.RegisterField
import Jeos.Types

/-!
# PCI enumeration

`pci_scan` of `pci.c` on a tree of bridges and other functions. A function is named by the places of
the bridges in front of it and its own (`Path`). A bridge forwards an access for bus `b` if `b`
lies between its secondary and its subordinate number, so what an address reaches depends on the
numbers that the scan writes (`Topology.hits`). An access that reaches nothing reads as all ones.

`Tree` is what the hardware promises before the scan : every device has a function 0, which says
if there are others, and no bridge forwards anything yet.
-/

set_option linter.unusedSectionVars false

namespace Jeos.Pci

open RegisterField

/-- Slot and function number on a bus. -/
abbrev Place := Fin 32 × Fin 8

/-- A function by its place and those of the bridges in front of it, the last bridge first. As a bus
it is the one behind that function, and `[]` is the root bus. -/
abbrev Path := List Place

instance neZero_slots : NeZero 32 := ⟨by decide⟩

instance neZero_functions : NeZero 8 := ⟨by decide⟩

instance : LawfulBEq Path := inferInstance

/-- The functions of a machine, their configuration registers before the scan, and what a read
returns that reaches more than one function. -/
structure Topology where
  functions : List Path
  conf : Path → ℕ → U32
  clash : List Path → ℕ → U32

/-- The register with the bus numbers of a bridge. -/
def busNumberReg : ℕ := 6

/-- The header type of a function. -/
def headerTypeOf (conf : ℕ → U32) : U8 := getByte (conf 3) 2

/-- A function with the header of a PCI-to-PCI bridge. -/
def Topology.IsBridge (T : Topology) (q : Path) : Prop := headerTypeOf (T.conf q) &&& 0x7F = 1

instance (T : Topology) (q : Path) : Decidable (T.IsBridge q) :=
  inferInstanceAs (Decidable (_ = _))

/-- `struct pci_device`, with the header as its 16 registers. -/
structure PciDevice where
  bus : U8
  place : Place
  vendorId : U16
  deviceId : U16
  headerType : U8
  intLine : U8
  hdr : ℕ → U32

/-- `dev->hdr.bridge` with a byte of its bus numbers replaced. -/
def PciDevice.setBusNumber (d : PciDevice) (k : ℕ) (v : U8) : PciDevice :=
  { d with hdr := Function.update d.hdr busNumberReg (setByte (d.hdr busNumberReg) k v) }

/-- The bus number registers of the bridges, the counter of `pci_bus_alloc`, and `pci_devices`. -/
structure State where
  busNumbers : Path → U32
  freeBus : U8
  devices : List PciDevice

namespace State

def secondary (s : State) (q : Path) : U8 := getByte (s.busNumbers q) 1

def subordinate (s : State) (q : Path) : U8 := getByte (s.busNumbers q) 2

/-- The bridge forwards accesses for bus `b`. -/
def Forwards (s : State) (q : Path) (b : U8) : Prop := s.secondary q ≤ b ∧ b ≤ s.subordinate q

instance (s : State) (q : Path) (b : U8) : Decidable (s.Forwards q b) :=
  inferInstanceAs (Decidable (_ ∧ _))

/-- The number of a bus. -/
def busNumber (s : State) : Path → U8
  | [] => 0
  | f :: p => s.secondary (f :: p)

/-- `pci_bus_alloc`. -/
def busAlloc (s : State) : U8 × State := (s.freeBus, { s with freeBus := s.freeBus + 1 })

end State

namespace Topology

variable (T : Topology)

/-- An access for bus `b` comes to the bus `p` : each bridge in front forwards it, and no bus on
the way is `b` itself. -/
def Comes (s : State) (b : U8) : Path → Prop
  | [] => True
  | f :: p => Comes s b p ∧ s.busNumber p ≠ b ∧ T.IsBridge (f :: p) ∧ s.Forwards (f :: p) b

instance decidableComes (s : State) (b : U8) : DecidablePred (T.Comes s b)
  | [] => .isTrue trivial
  | _ :: p =>
    have := decidableComes s b p
    inferInstanceAs (Decidable (_ ∧ _ ∧ _ ∧ _))

/-- Accesses for bus `b` are answered on the bus `p`. -/
def Selects (s : State) (b : U8) (p : Path) : Prop := T.Comes s b p ∧ s.busNumber p = b

instance (s : State) (b : U8) (p : Path) : Decidable (T.Selects s b p) :=
  inferInstanceAs (Decidable (_ ∧ _))

/-- The functions that an address reaches. -/
def hits (s : State) (b : U8) (f : Place) : List Path :=
  T.functions.filter fun q => decide (q.head? = some f ∧ T.Selects s b q.tail)

/-- A configuration register as it is now. -/
def reg (s : State) (q : Path) (i : ℕ) : U32 :=
  if i = busNumberReg ∧ T.IsBridge q then s.busNumbers q else T.conf q i

/-- `pci_read32`. -/
def read32 (s : State) (b : U8) (f : Place) (off : ℕ) : U32 :=
  match T.hits s b f with
  | [] => 0xFFFFFFFF
  | [q] => T.reg s q (off / 4)
  | qs => T.clash qs (off / 4)

/-- `pci_read16`. -/
def read16 (s : State) (b : U8) (f : Place) (off : ℕ) : U16 :=
  (T.read32 s b f off >>> (off % 4 / 2 * 16)).setWidth 16

/-- `pci_read8`. -/
def read8 (s : State) (b : U8) (f : Place) (off : ℕ) : U8 := getByte (T.read32 s b f off) (off % 4)

/-- `pci_write8`. The scan writes no register other than the bus numbers of bridges. -/
def write8 (s : State) (b : U8) (f : Place) (off : ℕ) (val : U8) : State :=
  let data := setByte (T.read32 s b f off) (off % 4) val
  { s with
    busNumbers := fun q =>
      if q ∈ T.hits s b f ∧ off / 4 = busNumberReg ∧ T.IsBridge q then data else s.busNumbers q }

/-- `pci_read_general_header` and `pci_read_bridge_header`, which read the same 16 registers. -/
def readHeader (s : State) (b : U8) (f : Place) (i : ℕ) : U32 := T.read32 s b f (i * 4)

/-- The entry of `pci_devices` for a function with this header. -/
def newDevice (b : U8) (f : Place) (htype : U8) (hdr : ℕ → U32) : PciDevice where
  bus := b
  place := f
  vendorId := (hdr 0).setWidth 16
  deviceId := (hdr 0 >>> 16).setWidth 16
  headerType := htype
  intLine := getByte (hdr 15) 0
  hdr := hdr

/-- `pci_scan_function`, where `scan` is the recursive call. -/
def scanFunction (scan : U8 → State → Option State) (b : U8) (f : Place) (s : State) :
    Option State :=
  if T.read16 s b f 0 = 0xFFFF then some s
  -- MAX_PCI_DEVICES
  else if s.devices.length ≥ 256 then some s
  else
    let idx := s.devices.length
    let htype := T.read8 s b f 0x0E
    let dev := newDevice b f htype (T.readHeader s b f)
    if htype &&& 0x7F = 1 then
      let (secondary, s) := s.busAlloc
      let dev := ((dev.setBusNumber 0 b).setBusNumber 1 secondary).setBusNumber 2 secondary
      let s := { s with devices := s.devices ++ [dev] }
      let s := T.write8 s b f 0x18 b
      let s := T.write8 s b f 0x19 secondary
      let s := T.write8 s b f 0x1A secondary
      (scan secondary s).map fun s =>
        let (next, s) := s.busAlloc
        let sub := next - 1
        let s := T.write8 s b f 0x1A sub
        { s with devices := s.devices.modify idx (·.setBusNumber 2 sub) }
    else some { s with devices := s.devices ++ [dev] }

/-- The functions of a device that `pci_scan_bus` looks at after function 0. -/
def laterFunctions : List (Fin 8) := [1, 2, 3, 4, 5, 6, 7]

/-- The body of the loop in `pci_scan_bus`. -/
def scanSlot (scan : U8 → State → Option State) (b : U8) (s : State) (slot : Fin 32) :
    Option State :=
  if T.read16 s b (slot, 0) 0 = 0xFFFF then some s
  else
    (T.scanFunction scan b (slot, 0) s).bind fun s =>
      if T.read8 s b (slot, 0) 0x0E &&& 0x80 ≠ 0 then
        laterFunctions.foldlM (fun s fn => T.scanFunction scan b (slot, fn) s) s
      else some s

/-- `pci_scan_bus` with at most the given depth of calls. -/
def scanBus : ℕ → U8 → State → Option State
  | 0, _, _ => none
  | n + 1, b, s => (List.finRange 32).foldlM (T.scanSlot (scanBus n) b) s

/-- Before the scan. -/
def start : State where
  busNumbers := fun q => T.conf q busNumberReg
  freeBus := 1
  devices := []

/-! ## What the scan is for -/

/-- The entry is one for the function `q` : its address reaches `q` alone, and it has the ids, the
header type and the interrupt line of `q`. -/
def Records (s : State) (d : PciDevice) (q : Path) : Prop :=
  T.hits s d.bus d.place = [q] ∧ d.vendorId = (T.conf q 0).setWidth 16 ∧
    d.deviceId = (T.conf q 0 >>> 16).setWidth 16 ∧ d.headerType = headerTypeOf (T.conf q) ∧
    d.intLine = getByte (T.conf q 15) 0

instance (s : State) (d : PciDevice) (q : Path) : Decidable (T.Records s d q) :=
  inferInstanceAs (Decidable (_ ∧ _ ∧ _ ∧ _ ∧ _))

/-- Every function is recorded exactly once. The ranges of two bridges on a bus are disjoint, and
the range of a bridge lies in that of the bridge in front of it and covers the buses below it. -/
structure Enumerated (s : State) : Prop where
  once : ∀ q ∈ T.functions, (s.devices.filter fun d => decide (T.Records s d q)).length = 1
  siblings : ∀ p f g, f :: p ∈ T.functions → g :: p ∈ T.functions → T.IsBridge (f :: p) →
    T.IsBridge (g :: p) → f ≠ g →
      s.subordinate (f :: p) < s.secondary (g :: p) ∨ s.subordinate (g :: p) < s.secondary (f :: p)
  nested : ∀ p f, p ≠ [] → f :: p ∈ T.functions → T.IsBridge (f :: p) →
    s.secondary p ≤ s.secondary (f :: p) ∧ s.subordinate (f :: p) ≤ s.subordinate p
  covers : ∀ q r, q ∈ T.functions → r ∈ T.functions → T.IsBridge q → T.IsBridge r → q <:+ r →
    s.Forwards q (s.secondary r)

end Topology

/-- A tree of at most 100 bridges and at most 256 functions, where no bridge forwards a bus from 1
on. -/
structure Tree extends Topology where
  nodup : functions.Nodup
  ne_root : [] ∉ functions
  behind : ∀ f p, f :: p ∈ functions → p ≠ [] → p ∈ functions ∧ toTopology.IsBridge p
  present : ∀ q ∈ functions, (conf q 0).setWidth 16 ≠ (0xFFFF : U16)
  function_zero : ∀ slot fn p, (slot, fn) :: p ∈ functions → (slot, 0) :: p ∈ functions
  multi : ∀ slot fn p, (slot, fn) :: p ∈ functions → fn ≠ 0 →
    headerTypeOf (conf ((slot, 0) :: p)) &&& 0x80 ≠ 0
  quiet : ∀ q ∈ functions, toTopology.IsBridge q → ∀ b, toTopology.start.Forwards q b → b = 0
  bridges_le : (functions.filter fun q => decide (toTopology.IsBridge q)).length ≤ 100
  functions_le : functions.length ≤ 256

end Jeos.Pci
