import Jeos.OpenFilesSpec
import Jeos.DiskTree

/-!
# Reading through shared descriptors

The descriptors that come from one `sys_open` by `sys_dup`, `sys_dup2` and `proc_fork` share the position of
the file. So whichever process reads, through whichever of them, gets what comes behind the last read,
and together the reads return the file from the position on, no byte twice and none left out
(`reads_in_order`), until somebody seeks or writes. `ext2_read` reads in this way
(`Contains.readsContent`).
-/

namespace Jeos.OpenFiles

open Replies
open Ext2 (Machine Ext2Priv Ext2Inode Io Volume Contains)

variable {κ ι : Type}

/-- The bytes of a reply. -/
def Reply.bytes : Reply → List U8
  | .data _ bytes => bytes
  | _ => []

section Spec

variable (D : Driver κ ι) (x : ℕ)

/-- The call reads the file `x`. -/
def reads (t : Spec κ ι) : Fin maxProcs × Call → Bool
  | (k, .sysRead fd _ _) => t.get k fd == some x
  | _ => false

/-- The call seeks in the file `x` or writes to it. -/
def moves (t : Spec κ ι) : Fin maxProcs × Call → Bool
  | (k, .sysSeek fd _ _) => t.get k fd == some x
  | (k, .sysWrite fd _ _ _) => t.get k fd == some x
  | _ => false

/-- What the reads of the file `x` return. -/
def bytesRead : Spec κ ι → List (Fin maxProcs × Call) → List Reply → List U8
  | t, e :: es, r :: rs =>
    (if reads x t e then r.bytes else []) ++ bytesRead (t.perform D e).2 es rs
  | _, _, _ => []

/-- The number of bytes that a call wants to read. -/
def wanted : Call → ℕ
  | .sysRead _ buf len => if validUserPtr buf ∧ buf ≠ 0 then (len.setWidth 32).toNat else 0
  | _ => 0

/-- The number of bytes that the reads of the file `x` want. -/
def bytesWanted : Spec κ ι → List (Fin maxProcs × Call) → ℕ
  | _, [] => 0
  | t, e :: es => (if reads x t e then wanted e.2 else 0) + bytesWanted (t.perform D e).2 es

/-- Nobody seeks in the file `x` or writes to it. -/
def OnlyRead : Spec κ ι → List (Fin maxProcs × Call) → Prop
  | _, [] => True
  | t, e :: es => moves x t e = false ∧ OnlyRead (t.perform D e).2 es

/-- Reading an inode gives its content from the position on. -/
def ReadsContent (i : ι) (content : List U8) : Prop :=
  ∃ read, D.read i = some read ∧ content.length < 2 ^ 63 ∧
    ∀ count pos fs, count.toNat < 2 ^ 32 → pos.toNat ≤ content.length →
      ∃ v fs', read count pos fs = ((v, (content.drop pos.toNat).take count.toNat,
        pos + BitVec.ofNat 64 (min count.toNat (content.length - pos.toNat))), fs')

end Spec

variable {D : Driver κ ι} {t : Spec κ ι} {k : Fin maxProcs} {x : ℕ} {f : Description ι}
  {content : List U8}

/-! ## Steps -/

theorem fileCall_of_ne {c : FileCall κ ι} (h : t.get k c.fd ≠ some x) :
    (t.fileCall k c).2.files.cells[x]? = t.files.cells[x]? := by
  rw [Spec.fileCall, Spec.file]
  split_ifs
  · cases hy : t.get k c.fd with
    | none => rfl
    | some y =>
      have hne : y ≠ x := fun he => h (he ▸ hy)
      rw [Option.bind_some]
      cases hcell : t.files.cells[y]? with
      | none => rfl
      | some g => exact List.getElem?_set_ne hne
  · rfl

theorem fileCall_of_eq {c : FileCall κ ι} (h : t.get k c.fd = some x)
    (hf : t.files.cells[x]? = some f) (hv : c.valid = true) :
    (t.fileCall k c).1 = (c.op f t.fs).1 ∧
      (t.fileCall k c).2.files.cells[x]? = some (c.op f t.fs).2.1 := by
  have hlt : x < t.files.cells.length := (List.getElem?_eq_some_iff.1 hf).1
  rw [Spec.fileCall, Spec.file, if_pos hv, h, Option.bind_some, hf]
  exact ⟨rfl, List.getElem?_set_self hlt⟩

theorem fileCall_of_not {c : FileCall κ ι} (hv : ¬c.valid = true) :
    t.fileCall k c = (.value (-1), t) := by
  rw [Spec.fileCall, if_neg hv]

theorem fstat_keeps (D : Driver κ ι) (f : Description ι) (fs : κ) (fd st : U64) :
    ((sysFstat D fd st).op f fs).2.1 = f := by
  change (if st = 0 then (Reply.value (-1), f, fs) else vfsFstat D f fs).2.1 = f
  split_ifs
  · rfl
  · rw [vfsFstat]
    cases D.getattr f.inode with
    | none => rfl
    | some getattr =>
      dsimp only
      split_ifs <;> rfl

/-- A new file comes behind the others. -/
theorem sysOpen_cells (path flags : U64) (name : List U8) (page : Option ℕ)
    (hf : t.files.cells[x]? = some f) :
    (t.sysOpen D k path name flags page).2.files.cells[x]? = some f := by
  rw [Spec.sysOpen]
  split_ifs
  · cases t.opened D name (openFlags flags) page with
    | mk inode fs =>
      cases inode with
      | none => exact hf
      | some inode =>
        dsimp only
        cases fdFree t.files.table k with
        | none => exact hf
        | some i =>
          dsimp only
          rw [(sameFiles_share _ _ _).cells]
          exact (List.getElem?_append_left (List.getElem?_eq_some_iff.1 hf).1).trans hf
  · exact hf

theorem SameFiles.cell {t' : Spec κ ι} (h : SameFiles t t') (hf : t.files.cells[x]? = some f) :
    t'.files.cells[x]? = some f := h.cells ▸ hf

/-- A call that neither reads the file nor moves in it leaves it alone. -/
theorem perform_keeps {e : Fin maxProcs × Call} (hr : reads x t e = false)
    (hm : moves x t e = false) (hf : t.files.cells[x]? = some f) :
    (t.perform D e).2.files.cells[x]? = some f := by
  obtain ⟨k, e⟩ := e
  cases e with
  | sysOpen path name flags page => exact sysOpen_cells path flags name page hf
  | sysClose fd => exact (sameFiles_sysClose t k fd).cell hf
  | sysDup fd => exact (sameFiles_sysDup t k fd).cell hf
  | sysDup2 oldFd newFd => exact (sameFiles_sysDup2 t k oldFd newFd).cell hf
  | sysRead fd buf len =>
    have hne : t.get k fd ≠ some x := beq_eq_false_iff_ne.1 hr
    exact (fileCall_of_ne hne).trans hf
  | sysWrite fd buf len data =>
    have hne : t.get k fd ≠ some x := beq_eq_false_iff_ne.1 hm
    exact (fileCall_of_ne hne).trans hf
  | sysSeek fd off whence =>
    have hne : t.get k fd ≠ some x := beq_eq_false_iff_ne.1 hm
    exact (fileCall_of_ne hne).trans hf
  | sysFstat fd st =>
    by_cases hx : t.get k fd = some x
    · by_cases hv : (sysFstat D fd st).valid = true
      · rw [← fstat_keeps D f t.fs fd st]
        exact (fileCall_of_eq hx hf hv).2
      · exact (congrArg (fun r => r.2.files.cells[x]?) (fileCall_of_not hv)).trans hf
    · exact (fileCall_of_ne hx).trans hf
  | procFork kstackOk pml4Ok => exact (sameFiles_procFork t k kstackOk pml4Ok).cell hf
  | sysExit => exact hf
  | reap => exact hf

/-- A read of the file returns the next bytes and goes behind them. -/
theorem perform_reads {e : Fin maxProcs × Call} (hr : reads x t e = true)
    (hf : t.files.cells[x]? = some f) (hc : ReadsContent D f.inode content)
    (hpos : f.pos.toNat ≤ content.length) :
    (t.perform D e).1.bytes = (content.drop f.pos.toNat).take (wanted e.2) ∧
      (t.perform D e).2.files.cells[x]? = some { f with
        pos := f.pos + BitVec.ofNat 64 (min (wanted e.2) (content.length - f.pos.toNat)) } := by
  obtain ⟨k, e⟩ := e
  cases e with
  | sysRead fd buf len =>
    have hx : t.get k fd = some x := eq_of_beq hr
    have hzero : some { f with
        pos := f.pos + BitVec.ofNat 64 (min 0 (content.length - f.pos.toNat)) } = some f := by
      rw [Nat.zero_min]
      exact congrArg (fun p => some { f with pos := p }) (BitVec.add_zero f.pos)
    change (t.fileCall k (sysRead D fd buf len)).1.bytes = _ ∧
      (t.fileCall k (sysRead D fd buf len)).2.files.cells[x]? = _
    dsimp only [wanted]
    by_cases hv : (sysRead D fd buf len).valid = true
    · obtain ⟨hreply, hcell⟩ := fileCall_of_eq hx hf hv
      have hop : (sysRead D fd buf len).op f t.fs =
        vfsRead D f t.fs buf ((len.setWidth 32).setWidth 64) := rfl
      rw [hreply, hcell, hop, vfsRead]
      by_cases hbuf : buf = 0
      · rw [if_pos hbuf, if_neg fun h => h.2 hbuf, hzero]
        exact ⟨rfl, rfl⟩
      · obtain ⟨read, hread, -, hbytes⟩ := hc
        have hcount : ((len.setWidth 32).setWidth 64 : U64).toNat = (len.setWidth 32).toNat :=
          BitVec.toNat_setWidth_of_le (by decide)
        obtain ⟨v, fs', hrun⟩ := hbytes ((len.setWidth 32).setWidth 64) f.pos t.fs
          (hcount ▸ (len.setWidth 32).isLt) hpos
        rw [if_neg hbuf, if_pos ⟨hv, hbuf⟩, hread]
        dsimp only
        rw [hrun, hcount]
        exact ⟨rfl, rfl⟩
    · have hwanted : ¬(validUserPtr buf = true ∧ buf ≠ 0) := fun h => hv h.1
      rw [fileCall_of_not hv, if_neg hwanted, hzero]
      exact ⟨rfl, hf⟩
  | _ => cases hr

/-! ## Runs -/

/-- All reads of the file together. -/
theorem bytesRead_eq {es : List (Fin maxProcs × Call)} (hes : OnlyRead D x t es)
    (hf : t.files.cells[x]? = some f) (hc : ReadsContent D f.inode content)
    (hpos : f.pos.toNat ≤ content.length) :
    bytesRead D x t es (answer (Spec.perform D) t es).1 =
      (content.drop f.pos.toNat).take (bytesWanted D x t es) := by
  induction es generalizing t f with
  | nil => rfl
  | cons e es ih =>
    obtain ⟨hm, hes⟩ := hes
    rw [answer, bytesRead, bytesWanted]
    cases hr : reads x t e with
    | false =>
      rw [if_neg Bool.false_ne_true, if_neg Bool.false_ne_true, Nat.zero_add]
      exact ih hes (perform_keeps hr hm hf) hc hpos
    | true =>
      obtain ⟨hbytes, hf'⟩ := perform_reads hr hf hc hpos
      have hlt : content.length < 2 ^ 63 := by
        obtain ⟨-, -, hlt, -⟩ := hc
        exact hlt
      generalize hn : min (wanted e.2) (content.length - f.pos.toNat) = n at hf'
      have hpos' : (f.pos + BitVec.ofNat 64 n).toNat = f.pos.toNat + n := by
        have hofNat : (BitVec.ofNat 64 n).toNat = n := by
          rw [BitVec.toNat_ofNat, Nat.mod_eq_of_lt (by omega)]
        rw [BitVec.toNat_add, hofNat, Nat.mod_eq_of_lt (by omega)]
      have hrest := ih hes hf' hc (by
        change (f.pos + BitVec.ofNat 64 n).toNat ≤ content.length
        omega)
      -- behind the end there is nothing to drop
      have hdrop : content.drop (f.pos.toNat + n) = content.drop (f.pos.toNat + wanted e.2) := by
        by_cases hle : wanted e.2 ≤ content.length - f.pos.toNat
        · rw [← hn, Nat.min_eq_left hle]
        · rw [List.drop_eq_nil_of_le (by omega), List.drop_eq_nil_of_le (by omega)]
      dsimp only at hrest
      rw [hpos', hdrop] at hrest
      rw [if_pos rfl, if_pos rfl, hbytes, hrest, List.take_add, List.drop_drop]

section Volume

variable {m : Machine} {p : Ext2Priv} {ei : Ext2Inode}

/-- `ext2_read`, with what it stores. -/
def ext2ReadOp (m : Machine) (p : Ext2Priv) (ei : Ext2Inode) (count pos : U64) (io : Io) :
    (U64 × List U8 × U64) × Io :=
  match Ext2.ext2Read m p ei (fun _ => 0) count pos io with
  | none => ((-1, [], pos), io)
  | some ((ret, out, pos), io) =>
    ((ret, if ret.toInt < 0 then [] else Ext2.bytesAt out 0 ret.toNat, pos), io)

theorem fileBytes_drop_take {size pos n : ℕ} (h : pos + n ≤ size) :
    ((Ext2.fileBytes m p ei 0 size).drop pos).take n = Ext2.fileBytes m p ei pos n := by
  refine List.ext_getElem ?_ fun i hi hi' => ?_
  · simp [Ext2.fileBytes]
    omega
  · simp [Ext2.fileBytes]

theorem readsContent_of_contains {D : Driver Io ι} {i : ι} (hv : Volume m p)
    (hc : Contains m p ei content) (hread : D.read i = some (ext2ReadOp m p ei)) :
    ReadsContent D i content := by
  have hlen : content.length = ei.size.toNat := by
    rw [hc.content, Ext2.fileBytes, List.length_map, List.length_range]
  have hsize := hc.size
  have hlt : ei.size.toNat < 2 ^ 63 := by
    have hb := hv.geometry.bounds
    have hmax := Ext2.maxBlocks_lt hv.geometry.size
    have hmul : Ext2.maxBlocks p * p.blockSize.toNat ≤ 2 ^ 32 * 4096 :=
      Nat.mul_le_mul (by omega) (by omega)
    omega
  refine ⟨_, hread, hlen ▸ hlt, fun count pos io hcount hpos => ?_⟩
  rw [hlen] at hpos ⊢
  have hov : pos.toNat + count.toNat < 2 ^ 64 := by omega
  generalize hn : min count.toNat (ei.size.toNat - pos.toNat) = n
  have hreadLen : Ext2.readLen m p ei pos.toNat count.toNat = n := by
    rw [Ext2.readLen, hn]
    refine Ext2.readable_eq (Nat.le_refl _) (fun j hj => ?_) (Or.inl rfl)
    exact hc.allocated _ (by omega)
  obtain ⟨out, io', hrun, hstored⟩ := Ext2.ext2Read_eq hv.geometry hv.reads (fun k => hv.allocs k 1) hsize
    hov (fun _ => 0) io
  rw [hreadLen] at hrun hstored
  have hbytes : Ext2.bytesAt out 0 n = (content.drop pos.toNat).take count.toNat := by
    have htake : (content.drop pos.toNat).take count.toNat = (content.drop pos.toNat).take n := by
      rw [List.take_eq_take_iff, List.length_drop, hlen]
      omega
    rw [hstored.bytesAt_eq, htake, hc.content, fileBytes_drop_take (by omega)]
  refine ⟨BitVec.ofNat 64 n, io', ?_⟩
  have hnat : (BitVec.ofNat 64 n).toNat = n := by
    rw [BitVec.toNat_ofNat, Nat.mod_eq_of_lt (by omega)]
  have hpositive : ¬(BitVec.ofNat 64 n).toInt < 0 := by
    rw [BitVec.toInt_eq_toNat_of_lt (by omega)]
    omega
  rw [ext2ReadOp, hrun]
  dsimp only
  rw [if_neg hpositive, hnat, hbytes]

end Volume

open Vfs.OnDisk (smallTreeDisk smallInode smallTree_volume smallTree_contains)

/-- The file of `smallTreeDisk`, whatever the path. -/
def smallFileDriver : Driver Io Unit where
  lookup _ _ fs := (some (), fs)
  openFile _ := some fun fs => (0, fs)
  read _ := some (ext2ReadOp smallTreeDisk Ext2.smallPriv (smallInode 0x81A4 2 2))
  write _ := none
  llseek _ := none
  getattr _ := some fun fs => ((0, ⟨5, 0o100644, 1, 0, 0, 2, 1, 0, 0, 0⟩), fs)
  putc _ _ fs := fs

end Jeos.OpenFiles
