import Jeos.Seek
import Jeos.UserPointers

/-!
# `sys_fbinfo` and its structure

`sys_fbinfo` of `syscall.c` stores six values in the `struct fb_info` of the caller. The kernel declares
the first four as `u32`, and `syscall.h` of the user library declares all six as `unsigned long`. So the
kernel fills 32 bytes of the 48 of the user's structure : the program reads two values in each of the
first two fields, the last two in the third and the fourth, and what was there before in the others.

Nothing outside the structure changes, and the program reads what the kernel has just if all values but
the width are 0 (`fbinfo_survives_iff`). The console always has 32 bits per pixel.
-/

set_option linter.unusedSectionVars false

namespace Jeos.UserPointers

open ByteMemory

/-- The six values, as the kernel has them. -/
structure FbInfo where
  width : U32
  height : U32
  pitch : U32
  bpp : U32
  addr : U64
  size : U64

/-- The variables of `kconsole.c`. -/
structure Framebuffer where
  fbWidth : U32
  fbHeight : U32
  fbPitchU32 : U32
  fbAddr : U64

/-- `kconsole_get_info`, `kconsole_get_addr` and `kconsole_get_size`. -/
def Framebuffer.info (fb : Framebuffer) : FbInfo :=
  ⟨fb.fbWidth, fb.fbHeight, fb.fbPitchU32 * 4, 32, fb.fbAddr,
    kconsoleGetSize fb.fbHeight fb.fbPitchU32⟩

/-- `struct fb_info` of the user library. -/
abbrev userFbInfoFields : List CType := [.u64, .u64, .u64, .u64, .u64, .u64]

/-- The stores of `sys_fbinfo`. -/
def storeInfo (m : Mem) (info : U64) (v : FbInfo) : Mem :=
  let m := store32 m (fieldAddr fbInfoFields info 0) v.width
  let m := store32 m (fieldAddr fbInfoFields info 1) v.height
  let m := store32 m (fieldAddr fbInfoFields info 2) v.pitch
  let m := store32 m (fieldAddr fbInfoFields info 3) v.bpp
  let m := store64 m (fieldAddr fbInfoFields info 4) v.addr
  store64 m (fieldAddr fbInfoFields info 5) v.size

/-- `sys_fbinfo` where the console gives `v` : the memory and the value returned. -/
def sysFbinfoOn (m : Mem) (info : U64) (v : FbInfo) : Mem × U64 :=
  if validUserPtr info then (storeInfo m info v, 0) else (m, -1)

/-- Field `k` of the structure, as the program reads it. -/
def readField (m : Mem) (info : U64) (k : ℕ) : U64 := load64 m (fieldAddr userFbInfoFields info k)

/-- When the call returns 0 the program reads the six values, and nothing outside its structure has
changed. -/
def Survives (m : Mem) (info : U64) (v : FbInfo) : Prop :=
  (sysFbinfoOn m info v).2 = 0 →
    (∀ k < 6, readField (sysFbinfoOn m info v).1 info k =
      [v.width.setWidth 64, v.height.setWidth 64, v.pitch.setWidth 64, v.bpp.setWidth 64, v.addr,
        v.size].getD k 0) ∧
      ∀ x, ¬Within x info (CType.struct userFbInfoFields).size → (sysFbinfoOn m info v).1 x = m x

variable {m : Mem} {info : U64} {v : FbInfo}

/-! ## The bytes stored -/

theorem storeInfo_eq (m : Mem) (info : U64) (v : FbInfo) : storeInfo m info v =
    store64 (store64 (store32 (store32 (store32 (store32 m (info + BitVec.ofNat 64 0) v.width)
      (info + BitVec.ofNat 64 4) v.height) (info + BitVec.ofNat 64 8) v.pitch)
      (info + BitVec.ofNat 64 12) v.bpp) (info + BitVec.ofNat 64 16) v.addr)
      (info + BitVec.ofNat 64 24) v.size := rfl

/-- The kernel stores 32 bytes. -/
theorem storeInfo_of_not_within {x : U64} (hx : ¬Within x info 32) : storeInfo m info v x = m x := by
  have h : ∀ {i n : ℕ}, i + n ≤ 32 → ¬Within x (info + BitVec.ofNat 64 i) n := fun hi hw =>
    hx (hw.of_add hi (by norm_num))
  rw [storeInfo_eq, store64_of_not_within (h (by norm_num)), store64_of_not_within (h (by norm_num)),
    store32_of_not_within (h (by norm_num)), store32_of_not_within (h (by norm_num)),
    store32_of_not_within (h (by norm_num)), store32_of_not_within (h (by norm_num))]

theorem load32_store32_at {i j : ℕ} {w : U32} (hij : i + 4 ≤ j ∨ j + 4 ≤ i) (hi : i ≤ 32) (hj : j ≤ 32) :
    load32 (store32 m (info + BitVec.ofNat 64 j) w) (info + BitVec.ofNat 64 i) =
      load32 m (info + BitVec.ofNat 64 i) :=
  load32_store32_of_apart (apart_add info (by omega) (by omega) hij)

theorem load32_store64_at {i j : ℕ} {w : U64} (hij : i + 4 ≤ j ∨ j + 8 ≤ i) (hi : i ≤ 32) (hj : j ≤ 32) :
    load32 (store64 m (info + BitVec.ofNat 64 j) w) (info + BitVec.ofNat 64 i) =
      load32 m (info + BitVec.ofNat 64 i) :=
  load32_congr fun _ hx => store64_of_not_within
    (apart_add info (by omega) (by omega) hij _ hx)

/-- The first word of the structure has the width and the height. -/
theorem readField_zero : readField (storeInfo m info v) info 0 = v.height ++ v.width := by
  have hw : load32 (storeInfo m info v) (info + BitVec.ofNat 64 0) = v.width := by
    rw [storeInfo_eq, load32_store64_at, load32_store64_at, load32_store32_at, load32_store32_at,
      load32_store32_at, load32_store32_self (by norm_num)] <;> norm_num
  have hh : load32 (storeInfo m info v) (info + BitVec.ofNat 64 4) = v.height := by
    rw [storeInfo_eq, load32_store64_at, load32_store64_at, load32_store32_at, load32_store32_at,
      load32_store32_self (by norm_num)] <;> norm_num
  have h0 : info + BitVec.ofNat 64 0 = info := BitVec.add_zero info
  rw [h0] at hw
  rw [readField, show fieldAddr userFbInfoFields info 0 = info + BitVec.ofNat 64 0 from rfl, h0,
    load64_eq_append, hh, hw]

/-- The second one has the pitch and the bits of a pixel. -/
theorem readField_one : readField (storeInfo m info v) info 1 = v.bpp ++ v.pitch := by
  have hp : load32 (storeInfo m info v) (info + BitVec.ofNat 64 8) = v.pitch := by
    rw [storeInfo_eq, load32_store64_at, load32_store64_at, load32_store32_at,
      load32_store32_self (by norm_num)] <;> norm_num
  have hb : load32 (storeInfo m info v) (info + BitVec.ofNat 64 12) = v.bpp := by
    rw [storeInfo_eq, load32_store64_at, load32_store64_at, load32_store32_self (by norm_num)] <;>
      norm_num
  have hadd : info + BitVec.ofNat 64 8 + BitVec.ofNat 64 4 = info + BitVec.ofNat 64 12 :=
    BitVec.add_assoc info _ _
  rw [readField, show fieldAddr userFbInfoFields info 1 = info + BitVec.ofNat 64 8 from rfl,
    load64_eq_append, hadd, hp, hb]

theorem readField_two : readField (storeInfo m info v) info 2 = v.addr := by
  rw [readField, storeInfo_eq, show fieldAddr userFbInfoFields info 2 = info + BitVec.ofNat 64 16 from rfl,
    load64_store64_of_apart (apart_add info (by norm_num) (by norm_num) (Or.inl le_rfl)),
    load64_store64_self (by norm_num)]

theorem readField_three : readField (storeInfo m info v) info 3 = v.size := by
  rw [readField, storeInfo_eq, show fieldAddr userFbInfoFields info 3 = info + BitVec.ofNat 64 24 from rfl,
    load64_store64_self (by norm_num)]

/-- The last two words are as they were. -/
theorem readField_of_le {k : ℕ} (hk : 4 ≤ k) (hk6 : k < 6) :
    readField (storeInfo m info v) info k = readField m info k := by
  refine load64_congr fun x hx => storeInfo_of_not_within fun hw => ?_
  have hoff : fieldAddr userFbInfoFields info k = info + BitVec.ofNat 64 (8 * k) := by
    obtain rfl | rfl : k = 4 ∨ k = 5 := by omega
    · rfl
    · rfl
  rw [hoff, within_add_iff (by omega) (by norm_num)] at hx
  unfold Within at hw
  omega

/-! ## What the program reads -/

theorem append_eq_iff {hi lo x : U32} : (hi ++ lo : U64) = x.setWidth 64 ↔ hi = 0 ∧ lo = x := by
  have happ : (hi ++ lo : U64).toNat = hi.toNat * 2 ^ 32 + lo.toNat := by
    rw [BitVec.toNat_append, ← Nat.shiftLeft_add_eq_or_of_lt lo.isLt, Nat.shiftLeft_eq]
  have hx : (x.setWidth 64).toNat = x.toNat := by
    rw [BitVec.toNat_setWidth, Nat.mod_eq_of_lt (x.isLt.trans (by norm_num))]
  have := lo.isLt
  have := x.isLt
  rw [← BitVec.toNat_inj, ← BitVec.toNat_inj, ← BitVec.toNat_inj, happ, hx,
    show (0 : U32).toNat = 0 from rfl]
  omega

/-- What the program is to read is 0 except for the width, in the fields stored and in those that are
not. -/
structure AllZero (m : Mem) (info : U64) (v : FbInfo) : Prop where
  height : v.height = 0
  pitch : v.pitch = 0
  bpp : v.bpp = 0
  addr : v.addr = 0
  size : v.size = 0
  fourth : readField m info 4 = 0
  fifth : readField m info 5 = 0

theorem fields_eq_iff : (∀ k < 6, readField (storeInfo m info v) info k =
    [v.width.setWidth 64, v.height.setWidth 64, v.pitch.setWidth 64, v.bpp.setWidth 64, v.addr,
      v.size].getD k 0) ↔ AllZero m info v := by
  constructor
  · intro h
    obtain ⟨hh, -⟩ := append_eq_iff.1 (readField_zero.symm.trans (h 0 (by norm_num)))
    obtain ⟨hb, hp⟩ := append_eq_iff.1 (readField_one.symm.trans (h 1 (by norm_num)))
    have ha : v.addr = v.pitch.setWidth 64 := readField_two.symm.trans (h 2 (by norm_num))
    have hs : v.size = v.bpp.setWidth 64 := readField_three.symm.trans (h 3 (by norm_num))
    have h4 := (readField_of_le (by norm_num) (by norm_num)).symm.trans (h 4 (by norm_num))
    have h5 := (readField_of_le (by norm_num) (by norm_num)).symm.trans (h 5 (by norm_num))
    rw [hp, hh] at ha
    rw [hb] at hs
    exact ⟨hh, hp.trans hh, hb, ha, hs, h4.trans ha, h5.trans hs⟩
  · intro h k hk
    obtain rfl | rfl | rfl | rfl | rfl | rfl : k = 0 ∨ k = 1 ∨ k = 2 ∨ k = 3 ∨ k = 4 ∨ k = 5 := by omega
    · exact readField_zero.trans (append_eq_iff.2 ⟨h.height, rfl⟩)
    · exact readField_one.trans (append_eq_iff.2 ⟨h.bpp, h.pitch.trans h.height.symm⟩)
    · rw [readField_two, h.addr, h.pitch]
      rfl
    · rw [readField_three, h.size, h.bpp]
      rfl
    · rw [readField_of_le le_rfl (by norm_num), h.fourth, h.addr]
      rfl
    · rw [readField_of_le (by norm_num) (by norm_num), h.fifth, h.size]
      rfl

/-- A call that returns 0 changes nothing outside the structure of the program. -/
theorem storeInfo_outside {x : U64} (hx : ¬Within x info (CType.struct userFbInfoFields).size) :
    storeInfo m info v x = m x :=
  storeInfo_of_not_within fun hw => hx (lt_of_lt_of_le hw (by decide))

theorem survives_iff_of_valid (hp : validUserPtr info = true) :
    Survives m info v ↔ AllZero m info v := by
  rw [Survives, sysFbinfoOn, if_pos hp, fields_eq_iff]
  exact ⟨fun h => (h rfl).1, fun h _ => ⟨h, fun x hx => storeInfo_outside hx⟩⟩

theorem survives_of_invalid (hp : validUserPtr info = false) : Survives m info v := by
  intro h
  rw [sysFbinfoOn, hp] at h
  exact absurd (show (-1 : U64) = 0 from h) (by decide)

/-- The six values reach the program just if the pointer is refused, or all of them but the width are 0
and so is what it has in the last two fields. The values of the console never do. -/
theorem fbinfo_survives_iff (m : Mem) (info : U64) :
    (∀ v, Survives m info v ↔ validUserPtr info = false ∨ AllZero m info v) ∧
      ∀ fb : Framebuffer, Survives m info fb.info ↔ validUserPtr info = false := by
  have hall : ∀ v, Survives m info v ↔ validUserPtr info = false ∨ AllZero m info v := fun v => by
    cases hp : validUserPtr info with
    | false => exact iff_of_true (survives_of_invalid hp) (Or.inl rfl)
    | true =>
      rw [survives_iff_of_valid hp, or_iff_right Bool.noConfusion]
  refine ⟨hall, fun fb => (hall fb.info).trans (or_iff_left fun h => ?_)⟩
  exact absurd h.bpp (by decide : (32 : U32) ≠ 0)

/-- A screen of 1024 by 768 : the program reads the height as the upper half of the width. -/
theorem fbinfo_garbles : let fb : Framebuffer := ⟨1024, 768, 1024, 0xffff8000fd000000⟩
    let m := (sysFbinfoOn (fun _ => 0) 0x40000000 fb.info).1
    (sysFbinfoOn (fun _ => 0) 0x40000000 fb.info).2 = 0 ∧
      readField m 0x40000000 0 = 0x30000000400 ∧ readField m 0x40000000 2 = 0xffff8000fd000000 ∧
      readField m 0x40000000 4 = 0 ∧ ¬Survives (fun _ => 0) 0x40000000 fb.info := by
  have hp : validUserPtr 0x40000000 = true := by decide
  have hm : ∀ v, sysFbinfoOn (fun _ => 0) 0x40000000 v = (storeInfo (fun _ => 0) 0x40000000 v, 0) :=
    fun v => if_pos hp
  refine ⟨by rw [hm], by rw [hm]; exact readField_zero, by rw [hm]; exact readField_two, ?_, fun h => ?_⟩
  · rw [hm]
    refine (readField_of_le le_rfl (by norm_num)).trans ?_
    simp [readField, load64, readLE]
  · exact absurd ((survives_iff_of_valid hp).1 h).bpp (by decide : (32 : U32) ≠ 0)

end Jeos.UserPointers
