import Jeos.ConsoleScreen
import Jeos.Lib.Splice
import Jeos.OpenFilesSpec

/-!
# The framebuffer as a file

`/dev/fb` and `/dev/cons` under the system calls : `fb_dev_read`, `fb_dev_write` and `fb_dev_llseek` on the
bytes of the framebuffer, and `cons_write`, which draws on it. The other files and their operations are a
parameter (`Devices`), and have no access to the console.

As long as nobody writes to `/dev/fb`, the console is the one that got what all processes have
written to it, in this order (`run_prints`). So a read of `/dev/fb` returns what the terminal
shows (`screenshot`). As long as nothing is printed, `/dev/fb` keeps what was written to it : every byte is
that of the last write that covers it (`fb_keeps_writes`).
-/

set_option linter.unusedSectionVars false

namespace Jeos.OpenFiles

open Kconsole (Console Framebuffer)
open Splice Replies

/-! ## The devices -/

/-- Byte `b` of a word. -/
def wordByte (w : U32) (b : ℕ) : U8 := BitVec.ofNat 8 (w.toNat / 256 ^ b)

/-- The bytes of the framebuffer, whose words are little-endian. -/
def fbBytes (fb : ℕ → U32) (n : ℕ) : U8 := wordByte (fb (n / 4)) (n % 4)

/-- The words of the bytes. -/
def fbWords (bytes : ℕ → U8) (i : ℕ) : U32 :=
  BitVec.ofNat 32 ((bytes (4 * i)).toNat + 256 * (bytes (4 * i + 1)).toNat +
    256 ^ 2 * (bytes (4 * i + 2)).toNat + 256 ^ 3 * (bytes (4 * i + 3)).toNat)

section Fb

variable (s : Console) (count pos : U64)

/-- `kconsole_get_size`. -/
def fbSize : U64 := kconsoleGetSize s.fbHeight s.fbPitchU32

/-- The part of a transfer that is inside the framebuffer. -/
def fbCount : U64 := if pos + count > fbSize s then fbSize s - pos else count

/-- `fb_dev_read`. Before `kconsole_init` there is no framebuffer. -/
def fbDevRead : U64 × List U8 × U64 :=
  if !s.fbReady ∨ pos ≥ fbSize s then (0, [], pos)
  else (fbCount s count pos, (List.range (fbCount s count pos).toNat).map fun i =>
    fbBytes s.fb (pos.toNat + i), pos + fbCount s count pos)

/-- `fb_dev_write`. -/
def fbDevWrite (data : U64 → U8) : (U64 × U64) × Console :=
  if !s.fbReady ∨ pos ≥ fbSize s then ((0, pos), s)
  else ((fbCount s count pos, pos + fbCount s count pos), { s with
    fb := fbWords (splice (fbBytes s.fb) pos.toNat (fbCount s count pos).toNat
      fun i => data (BitVec.ofNat 64 i)) })

/-- `fb_dev_llseek`. -/
def fbDevLlseek (off : U64) (whence : U32) : U64 × U64 :=
  let seekTo (newpos : U64) : U64 × U64 :=
    let newpos := if newpos > fbSize s then fbSize s else newpos
    (newpos, newpos)
  if whence = vfsSeekSet then seekTo off
  else if whence = vfsSeekCur then seekTo (pos + off)
  else if whence = vfsSeekEnd then seekTo (fbSize s + off)
  else (vfsEINVAL, pos)

end Fb

/-- The first bytes of the data of a caller. -/
def dataBytes (data : U64 → U8) (count : U64) : List U8 :=
  (List.range count.toNat).map fun i => data (BitVec.ofNat 64 i)

/-- The files : the two devices, and all others. -/
inductive Node (ι : Type) where
  | cons
  | fb
  | other (i : ι)

/-- The other files, `vfs_lookup`, `cons_read`, and what `devfs_node_getattr` gives of the devices. -/
structure Devices (δ ι : Type) where
  lookup : List U8 → U32 → δ → Option (Node ι) × δ
  consRead : U64 → δ → (U64 × List U8) × δ
  consStat : Vfs.Stat
  fbStat : Vfs.Stat
  other : Driver δ ι

variable {δ ι : Type}

/-- An operation that does not look at the console. -/
def aside {α : Type} (op : δ → α × δ) (s : Console × δ) : α × (Console × δ) :=
  ((op s.2).1, (s.1, (op s.2).2))

def Devices.driver (d : Devices δ ι) : Driver (Console × δ) (Node ι) where
  lookup name flags := aside (d.lookup name flags)
  openFile
    | .other i => (d.other.openFile i).map aside
    | _ => none
  read
    | .cons => some fun count pos => aside fun e =>
      (((d.consRead count e).1.1, (d.consRead count e).1.2, pos), (d.consRead count e).2)
    | .fb => some fun count pos s => (fbDevRead s.1 count pos, s)
    | .other i => (d.other.read i).map fun read count pos => aside (read count pos)
  write
    | .cons => some fun data count pos s =>
      ((count, pos + count), (s.1.puts (dataBytes data count), s.2))
    | .fb => some fun data count pos s =>
      ((fbDevWrite s.1 count pos data).1, ((fbDevWrite s.1 count pos data).2, s.2))
    | .other i => (d.other.write i).map fun write data count pos => aside (write data count pos)
  llseek
    | .cons => none
    | .fb => some fun pos off whence s => fbDevLlseek s.1 pos off whence
    | .other i => (d.other.llseek i).map fun llseek pos off whence s => llseek pos off whence s.2
  getattr
    | .cons => some fun s => ((0, d.consStat), s)
    | .fb => some fun s => ((0, d.fbStat), s)
    | .other i => (d.other.getattr i).map aside
  putc data len s := (s.1.puts (dataBytes data len), s.2)

/-! ## What a call does to the console -/

variable (d : Devices δ ι) (t : Spec (Console × δ) (Node ι)) (k : Fin maxProcs)

/-- What a call prints. -/
def printed : Fin maxProcs × Call → List U8
  | (k, .sysWrite fd buf len data) =>
    if validUserPtr buf then
      match t.file k fd with
      | none => if fd = 1 ∨ fd = 2 then dataBytes data len else []
      | some (_, ⟨_, _, .cons⟩) =>
        if buf = 0 then [] else dataBytes data ((len.setWidth 32).setWidth 64)
      | some _ => []
    else []
  | _ => []

/-- What a call writes to `/dev/fb`. -/
def drawn : Fin maxProcs × Call → List (Patch U8)
  | (k, .sysWrite fd buf len data) =>
    if validUserPtr buf then
      match t.file k fd with
      | some (_, ⟨_, pos, .fb⟩) =>
        if buf = 0 ∨ !t.fs.1.fbReady ∨ pos ≥ fbSize t.fs.1 then []
        else [⟨pos.toNat, (fbCount t.fs.1 ((len.setWidth 32).setWidth 64) pos).toNat,
          fun i => data (BitVec.ofNat 64 i)⟩]
      | _ => []
    else []
  | _ => []

/-- All that the calls print. -/
def allPrinted : Spec (Console × δ) (Node ι) → List (Fin maxProcs × Call) → List U8
  | _, [] => []
  | t, e :: es => printed t e ++ allPrinted (t.perform d.driver e).2 es

/-- All that the calls write to `/dev/fb`. -/
def allDrawn : Spec (Console × δ) (Node ι) → List (Fin maxProcs × Call) → List (Patch U8)
  | _, [] => []
  | t, e :: es => drawn t e ++ allDrawn (t.perform d.driver e).2 es

variable {d t k} {e : Fin maxProcs × Call} {c : FileCall (Console × δ) (Node ι)}

/-- A call on an open file, with what it does to the console. -/
theorem fileCall_console {P : Console → Prop} (h : P t.fs.1) (hmissing : P (c.missing t.fs).2.1)
    (hop : ∀ x f, t.file k c.fd = some (x, f) → P (c.op f t.fs).2.2.1) :
    P (t.fileCall k c).2.fs.1 := by
  rw [Spec.fileCall]
  split_ifs
  · cases hf : t.file k c.fd with
    | none => exact hmissing
    | some x => exact hop x.1 x.2 hf
  · exact h

theorem openInode_console (i : Node ι) (fs : Console × δ) :
    (openInode d.driver i fs).2.1 = fs.1 := by
  cases i with
  | cons => rfl
  | fb => rfl
  | other i =>
    rw [openInode]
    dsimp only [Devices.driver]
    cases d.other.openFile i <;> rfl

theorem opened_console (name : List U8) (flags : U32) (page : Option ℕ) :
    (t.opened d.driver name flags page).2.1 = t.fs.1 := by
  have hlookup : (d.driver.lookup name flags t.fs).2.1 = t.fs.1 := rfl
  rw [Spec.opened]
  cases hl : d.driver.lookup name flags t.fs with
  | mk inode fs =>
    rw [hl] at hlookup
    cases inode with
    | none => exact hlookup
    | some i =>
      cases page with
      | none => exact hlookup
      | some a =>
        have hopen := openInode_console (d := d) i fs
        dsimp only
        cases ho : openInode d.driver i fs with
        | mk ok fs' =>
          rw [ho] at hopen
          cases ok <;> exact hopen.trans hlookup

theorem sysOpen_console (path flags : U64) (name : List U8) (page : Option ℕ) :
    (t.sysOpen d.driver k path name flags page).2.fs.1 = t.fs.1 := by
  have hopened := opened_console (d := d) (t := t) name (openFlags flags) page
  rw [Spec.sysOpen]
  split_ifs
  · cases ho : t.opened d.driver name (openFlags flags) page with
    | mk inode fs =>
      rw [ho] at hopened
      cases inode with
      | none => exact hopened
      | some inode =>
        dsimp only
        cases fdFree t.files.table k with
        | none => exact hopened
        | some i =>
          dsimp only
          rw [(sameFiles_share _ _ _).fs]
          exact hopened
  · rfl

theorem sysRead_console (fd buf len : U64) :
    (t.fileCall k (sysRead d.driver fd buf len)).2.fs.1 = t.fs.1 := by
  refine fileCall_console (P := (· = t.fs.1)) rfl rfl fun x f _ => ?_
  change (vfsRead d.driver f t.fs buf _).2.2.1 = t.fs.1
  rw [vfsRead]
  split_ifs
  · rfl
  · obtain ⟨flags, pos, inode⟩ := f
    cases inode with
    | cons => rfl
    | fb => rfl
    | other i =>
      dsimp only [Devices.driver]
      cases d.other.read i <;> rfl

theorem sysSeek_console (fd off whence : U64) :
    (t.fileCall k (sysSeek d.driver fd off whence)).2.fs.1 = t.fs.1 := by
  refine fileCall_console (P := (· = t.fs.1)) rfl rfl fun x f _ => ?_
  change (vfsSeek d.driver f t.fs off _).2.2.1 = t.fs.1
  rw [vfsSeek]
  obtain ⟨flags, pos, inode⟩ := f
  cases inode with
  | cons =>
    dsimp only [Devices.driver]
    split_ifs <;> rfl
  | fb => rfl
  | other i =>
    dsimp only [Devices.driver]
    cases d.other.llseek i with
    | some llseek => rfl
    | none =>
      cases d.other.getattr i with
      | none => rfl
      | some getattr =>
        dsimp only [Option.map_some, Option.map_none]
        split_ifs <;> rfl

theorem sysFstat_console (fd st : U64) :
    (t.fileCall k (sysFstat d.driver fd st)).2.fs.1 = t.fs.1 := by
  refine fileCall_console (P := (· = t.fs.1)) rfl rfl fun x f _ => ?_
  change (if st = 0 then (Reply.value (-1), f, t.fs) else vfsFstat d.driver f t.fs).2.2.1 = t.fs.1
  split_ifs
  · rfl
  · rw [vfsFstat]
    obtain ⟨flags, pos, inode⟩ := f
    cases inode with
    | cons => rfl
    | fb => rfl
    | other i =>
      dsimp only [Devices.driver]
      cases d.other.getattr i with
      | none => rfl
      | some getattr =>
        dsimp only [Option.map_some]
        split_ifs <;> rfl

/-- The console after a call that prints `cs` and draws `ps`. -/
def Draws (s s' : Console) (cs : List U8) (ps : List (Patch U8)) : Prop :=
  ps = [] ∧ s' = s.puts cs ∨
    cs = [] ∧ ps ≠ [] ∧ s' = { s with fb := fbWords (applyAll (fbBytes s.fb) ps) }

theorem Draws.idle {s s' : Console} (h : s' = s) : Draws s s' [] [] := Or.inl ⟨rfl, h⟩

theorem fbDevWrite_draws (s : Console) (count pos : U64) (data : U64 → U8) :
    Draws s (fbDevWrite s count pos data).2 [] (if !s.fbReady ∨ pos ≥ fbSize s then []
      else [⟨pos.toNat, (fbCount s count pos).toNat, fun i => data (BitVec.ofNat 64 i)⟩]) := by
  rw [fbDevWrite]
  split_ifs
  · exact .idle rfl
  · exact Or.inr ⟨rfl, List.cons_ne_nil _ _, rfl⟩

theorem sysWrite_draws (fd buf len : U64) (data : U64 → U8) :
    Draws t.fs.1 (t.fileCall k (sysWrite d.driver fd buf len data)).2.fs.1
      (printed t (k, .sysWrite fd buf len data)) (drawn t (k, .sysWrite fd buf len data)) := by
  have hvalid : (sysWrite d.driver fd buf len data).valid = validUserPtr buf := rfl
  have hfd : (sysWrite d.driver fd buf len data).fd = fd := rfl
  rw [Spec.fileCall, printed, drawn]
  by_cases hv : validUserPtr buf = true
  · rw [if_pos (hvalid.trans hv), if_pos hv, if_pos hv, hfd]
    cases hf : t.file k fd with
    | none =>
      dsimp only [sysWrite]
      split_ifs
      · exact Or.inl ⟨rfl, rfl⟩
      · exact .idle rfl
    | some x =>
      obtain ⟨x, flags, pos, inode⟩ := x
      cases inode with
      | cons =>
        dsimp only [sysWrite, vfsWrite]
        split_ifs
        · exact .idle rfl
        · exact Or.inl ⟨rfl, rfl⟩
      | fb =>
        dsimp only [sysWrite, vfsWrite]
        by_cases hbuf : buf = 0
        · rw [if_pos hbuf, if_pos (Or.inl hbuf)]
          exact .idle rfl
        · have hdraws := fbDevWrite_draws t.fs.1 ((len.setWidth 32).setWidth 64) pos data
          rw [if_neg hbuf]
          simp only [hbuf, false_or]
          exact hdraws
      | other i =>
        dsimp only [sysWrite, vfsWrite, Devices.driver]
        split_ifs
        · exact .idle rfl
        · cases d.other.write i <;> exact .idle rfl
  · rw [if_neg (hvalid ▸ hv), if_neg hv, if_neg hv]
    exact .idle rfl

theorem perform_draws (e : Fin maxProcs × Call) :
    Draws t.fs.1 (t.perform d.driver e).2.fs.1 (printed t e) (drawn t e) := by
  obtain ⟨k, e⟩ := e
  cases e with
  | sysOpen path name flags page => exact .idle (sysOpen_console path flags name page)
  | sysClose fd => exact .idle (congrArg Prod.fst (sameFiles_sysClose t k fd).fs)
  | sysDup fd => exact .idle (congrArg Prod.fst (sameFiles_sysDup t k fd).fs)
  | sysDup2 oldFd newFd => exact .idle (congrArg Prod.fst (sameFiles_sysDup2 t k oldFd newFd).fs)
  | sysRead fd buf len => exact .idle (sysRead_console fd buf len)
  | sysWrite fd buf len data => exact sysWrite_draws fd buf len data
  | sysSeek fd off whence => exact .idle (sysSeek_console fd off whence)
  | sysFstat fd st => exact .idle (sysFstat_console fd st)
  | procFork kstackOk pml4Ok =>
    exact .idle (congrArg Prod.fst (sameFiles_procFork t k kstackOk pml4Ok).fs)
  | sysExit => exact .idle rfl
  | reap => exact .idle rfl

/-! ## Runs -/

theorem puts_append (s : Console) (cs cs' : List U8) : s.puts (cs ++ cs') = (s.puts cs).puts cs' :=
  List.foldl_append

/-- If nobody writes to `/dev/fb`, the console gets what is printed. -/
theorem run_prints {es : List (Fin maxProcs × Call)} (h : allDrawn d t es = []) :
    (answer (Spec.perform d.driver) t es).2.fs.1 = t.fs.1.puts (allPrinted d t es) := by
  induction es generalizing t with
  | nil => rfl
  | cons e es ih =>
    rw [allDrawn, List.append_eq_nil_iff] at h
    have hstep : (t.perform d.driver e).2.fs.1 = t.fs.1.puts (printed t e) := by
      rcases perform_draws (d := d) (t := t) e with ⟨-, hputs⟩ | ⟨-, hps, -⟩
      · exact hputs
      · exact absurd h.1 hps
    rw [answer, allPrinted, puts_append, ← hstep]
    exact ih h.2

theorem fbBytes_index (fb : ℕ → U32) {n b : ℕ} (hb : b < 4) :
    fbBytes fb (4 * n + b) = wordByte (fb n) b := by
  have hdiv : (4 * n + b) / 4 = n := by omega
  have hmod : (4 * n + b) % 4 = b := by omega
  rw [fbBytes, hdiv, hmod]

theorem fbBytes_fbWords (bytes : ℕ → U8) : fbBytes (fbWords bytes) = bytes := by
  have hbyte : ∀ i b, b < 4 → fbBytes (fbWords bytes) (4 * i + b) = bytes (4 * i + b) := by
    intro i b hb
    have h0 := (bytes (4 * i)).isLt
    have h1 := (bytes (4 * i + 1)).isLt
    have h2 := (bytes (4 * i + 2)).isLt
    have h3 := (bytes (4 * i + 3)).isLt
    refine BitVec.eq_of_toNat_eq ?_
    rw [fbBytes_index _ hb, wordByte, fbWords, BitVec.toNat_ofNat, BitVec.toNat_ofNat]
    have hcases : b = 0 ∨ b = 1 ∨ b = 2 ∨ b = 3 := by omega
    rcases hcases with rfl | rfl | rfl | rfl
    · have hzero : bytes (4 * i + 0) = bytes (4 * i) := rfl
      rw [hzero]
      omega
    all_goals omega
  funext n
  have hn := hbyte (n / 4) (n % 4) (Nat.mod_lt n (by decide))
  rwa [Nat.div_add_mod] at hn

/-- If nothing is printed, the framebuffer keeps what is written to `/dev/fb`. -/
theorem run_draws {es : List (Fin maxProcs × Call)} (h : allPrinted d t es = []) :
    ∃ fb, (answer (Spec.perform d.driver) t es).2.fs.1 = { t.fs.1 with fb := fb } ∧
      fbBytes fb = applyAll (fbBytes t.fs.1.fb) (allDrawn d t es) := by
  induction es generalizing t with
  | nil => exact ⟨t.fs.1.fb, rfl, rfl⟩
  | cons e es ih =>
    rw [allPrinted, List.append_eq_nil_iff] at h
    have hstep : ∃ fb, (t.perform d.driver e).2.fs.1 = { t.fs.1 with fb := fb } ∧
        fbBytes fb = applyAll (fbBytes t.fs.1.fb) (drawn t e) := by
      rcases perform_draws (d := d) (t := t) e with ⟨hps, hputs⟩ | ⟨-, -, hfb⟩
      · rw [hps]
        rw [h.1] at hputs
        exact ⟨t.fs.1.fb, hputs, rfl⟩
      · exact ⟨_, hfb, fbBytes_fbWords _⟩
    obtain ⟨fb, hfb, hbytes⟩ := hstep
    obtain ⟨fb', hfb', hbytes'⟩ := ih h.2
    refine ⟨fb', ?_, ?_⟩
    · rw [answer, hfb', hfb]
    · rw [hbytes', hfb, hbytes, allDrawn, applyAll, applyAll, applyAll, List.foldl_append]

/-! ## The height of the framebuffer -/

section Height

variable (s : Console)

theorem foldl_fbHeight {α : Type} {f : Console → α → Console} (l : List α) (s : Console)
    (h : ∀ s a, (f s a).fbHeight = s.fbHeight) : (l.foldl f s).fbHeight = s.fbHeight := by
  induction l generalizing s with
  | nil => rfl
  | cons a l ih => exact (ih _).trans (h s a)

@[simp] theorem store_fbHeight (i v : U32) : (s.store i v).fbHeight = s.fbHeight := rfl

@[simp] theorem copyWord_fbHeight (dst src : U32) : (s.copyWord dst src).fbHeight = s.fbHeight := rfl

@[simp] theorem storeRow_fbHeight (base : U32) (n : ℕ) (v : ℕ → U32) :
    (s.storeRow base n v).fbHeight = s.fbHeight := by
  rw [Console.storeRow, foldl_fbHeight]
  intro s x
  simp

@[simp] theorem copyRow_fbHeight (dst src : U32) (n : ℕ) :
    (s.copyRow dst src n).fbHeight = s.fbHeight := by
  rw [Console.copyRow, foldl_fbHeight]
  intro s x
  simp

@[simp] theorem drawGlyph_fbHeight (col row : U32) (ch : U8) :
    (s.drawGlyph col row ch).fbHeight = s.fbHeight := by
  rw [Console.drawGlyph, storeRow_fbHeight, foldl_fbHeight]
  intro s y
  simp

@[simp] theorem scroll_fbHeight : s.scroll.fbHeight = s.fbHeight := by
  rw [Console.scroll, foldl_fbHeight, foldl_fbHeight]
  · intro s r
    rw [foldl_fbHeight]
    intro s y
    simp
  · intro s y
    simp

@[simp] theorem newline_fbHeight : s.newline.fbHeight = s.fbHeight := by
  have hscroll := scroll_fbHeight { s with curCol := 0, curRow := s.curRow + 1 }
  rw [Console.newline]
  dsimp only
  generalize Console.scroll _ = u at hscroll ⊢
  split
  · exact hscroll
  · rfl

@[simp] theorem applyParam_fbHeight (p : U32) : (s.applyParam p).fbHeight = s.fbHeight := by
  rw [Console.applyParam]
  split_ifs
  · rfl
  · rw [Console.brighten_eq]
  all_goals rfl

@[simp] theorem applySgr_fbHeight : s.applySgr.fbHeight = s.fbHeight := by
  rw [Console.applySgr, foldl_fbHeight]
  · split_ifs <;> rfl
  · intro s i
    rw [applyParam_fbHeight]
    rfl

@[simp] theorem putcBracket_fbHeight (c : U8) : (s.putcBracket c).fbHeight = s.fbHeight := by
  have hsgr := applySgr_fbHeight { s with escNparam := s.escNparam + 1 }
  rw [Console.putcBracket]
  dsimp only
  generalize Console.applySgr _ = u at hsgr ⊢
  split
  · rfl
  · split
    · split <;> rfl
    · split
      · exact hsgr
      · rfl

@[simp] theorem putcPlain_fbHeight (c : U8) : (s.putcPlain c).fbHeight = s.fbHeight := by
  rw [Console.putcPlain]
  dsimp only
  split_ifs <;> simp

theorem putc_fbHeight (c : U8) : (s.putc c).fbHeight = s.fbHeight := by
  rw [Console.putc]
  by_cases hready : s.fbReady = true
  · rw [if_pos hready]
    cases s.escState with
    | esc =>
      dsimp only
      split_ifs <;> rfl
    | bracket => exact putcBracket_fbHeight s c
    | none => exact putcPlain_fbHeight s c
  · rw [if_neg hready]

theorem puts_fbHeight (cs : List U8) : (s.puts cs).fbHeight = s.fbHeight :=
  foldl_fbHeight cs s putc_fbHeight

theorem init_fbHeight (f : Framebuffer) : (s.init f).fbHeight = f.height.setWidth 32 := by
  have hclear : ∀ s : Console, s.clear.fbHeight = s.fbHeight := by
    intro s
    rw [Console.clear]
    split
    · dsimp only
      rw [foldl_fbHeight]
      intro s y
      simp
    · rfl
  exact hclear _

end Height

/-! ## Reading the framebuffer -/

open Kconsole (boot Terminal kept)
open Kconsole.Console (twoCells)

variable {f : Framebuffer} {s : Console}

/-- `/dev/fb` has as many bytes as the rows of the framebuffer. -/
theorem fbSize_eq (hf : f.TextFits) (hs : Kconsole.Console.Sized f s)
    (hh : s.fbHeight = f.height.setWidth 32) :
    (fbSize s).toNat = f.height.toNat * f.pitch.toNat ∧ f.height.toNat * f.pitch.toNat < 2 ^ 36 := by
  obtain ⟨-, hheight, hpitch⟩ := hf.sizes_lt
  have hrows := hf.rows_pos
  have hwords := hf.words_le
  have hdvd : f.pitchWords * 4 = f.pitch.toNat := Nat.div_mul_cancel hf.pitch_dvd
  have hlast : f.height.toNat ≤ 3 * (f.rows * 9 - 1) := by
    have hdiv : f.rows = f.height.toNat / 9 := rfl
    omega
  have hmul : f.height.toNat * f.pitchWords ≤ 3 * ((f.rows * 9 - 1) * f.pitchWords) := by
    rw [← Nat.mul_assoc]
    exact Nat.mul_le_mul_right _ hlast
  have hsize : f.height.toNat * f.pitch.toNat = f.height.toNat * f.pitchWords * 4 := by
    rw [Nat.mul_assoc, hdvd]
  have hh64 : (s.fbHeight.setWidth 64).toNat = f.height.toNat := by
    rw [BitVec.toNat_setWidth_of_le (by decide), hh, BitVec.toNat_setWidth, Nat.mod_eq_of_lt hheight]
  have hp64 : (s.fbPitchU32.setWidth 64).toNat = f.pitchWords := by
    rw [BitVec.toNat_setWidth_of_le (by decide), hs.pitch]
  have hfour : (4 : U64).toNat = 4 := rfl
  rw [fbSize, kconsoleGetSize, BitVec.toNat_mul, BitVec.toNat_mul, hh64, hp64, hfour,
    Nat.mod_eq_of_lt (by omega), Nat.mod_eq_of_lt (by omega), hsize]
  omega

/-- The bytes that a read of `len` bytes at `pos` returns, of `size` bytes in all. -/
def readBack (bytes : ℕ → U8) (size : ℕ) (len pos : U64) : List U8 :=
  (List.range (min (len.toNat % 2 ^ 32) (size - pos.toNat))).map fun i => bytes (pos.toNat + i)

theorem readBack_length (bytes : ℕ → U8) (size : ℕ) (len pos : U64) :
    (readBack bytes size len pos).length = min (len.toNat % 2 ^ 32) (size - pos.toNat) := by
  rw [readBack, List.length_map, List.length_range]

theorem readBack_getElem? {bytes : ℕ → U8} {size i : ℕ} {len pos : U64}
    (hi : i < (readBack bytes size len pos).length) :
    (readBack bytes size len pos)[i]? = some (bytes (pos.toNat + i)) := by
  rw [readBack_length] at hi
  rw [readBack, List.getElem?_map, List.getElem?_range hi]
  rfl

/-- Inside the framebuffer no sum wraps around. -/
theorem fbCount_toNat {size : ℕ} (hsize : (fbSize s).toNat = size) (hlt : size < 2 ^ 36) {pos : U64}
    (hpos : pos < fbSize s) (len : U64) :
    (fbCount s ((len.setWidth 32).setWidth 64) pos).toNat =
      min (len.toNat % 2 ^ 32) (size - pos.toNat) := by
  have hpos' : pos.toNat < size := hsize ▸ BitVec.lt_def.1 hpos
  have hcount : ((len.setWidth 32).setWidth 64 : U64).toNat = len.toNat % 2 ^ 32 := by
    rw [BitVec.toNat_setWidth_of_le (by decide), BitVec.toNat_setWidth]
  have hcount_lt := Nat.mod_lt len.toNat (show 2 ^ 32 > 0 by decide)
  have hsum : (pos + (len.setWidth 32).setWidth 64).toNat = pos.toNat + len.toNat % 2 ^ 32 := by
    rw [BitVec.toNat_add, hcount, Nat.mod_eq_of_lt (by omega)]
  rw [fbCount]
  split_ifs with hcut
  · have hgt : size < pos.toNat + len.toNat % 2 ^ 32 := by
      rw [← hsize, ← hsum]
      exact BitVec.lt_def.1 hcut
    rw [BitVec.toNat_sub_of_le (BitVec.le_of_lt hpos), hsize]
    omega
  · have hle : pos.toNat + len.toNat % 2 ^ 32 ≤ size := by
      rw [← hsize, ← hsum]
      exact BitVec.le_def.1 (BitVec.not_lt.1 hcut)
    rw [hcount]
    omega

theorem fbDevRead_eq {size : ℕ} (hready : s.fbReady = true) (hsize : (fbSize s).toNat = size)
    (hlt : size < 2 ^ 36) (len pos : U64) :
    ∃ pos', fbDevRead s ((len.setWidth 32).setWidth 64) pos =
      (BitVec.ofNat 64 (readBack (fbBytes s.fb) size len pos).length,
        readBack (fbBytes s.fb) size len pos, pos') := by
  rw [fbDevRead, readBack_length]
  by_cases hend : pos ≥ fbSize s
  · have hge : size ≤ pos.toNat := hsize ▸ BitVec.le_def.1 hend
    have hzero : min (len.toNat % 2 ^ 32) (size - pos.toNat) = 0 := by omega
    rw [if_pos (Or.inr hend), readBack, hzero]
    exact ⟨pos, rfl⟩
  · have hcount := fbCount_toNat hsize hlt (BitVec.not_le.1 hend) len
    have hnot : ¬((!s.fbReady) = true ∨ pos ≥ fbSize s) := by simp [hready, hend]
    rw [if_neg hnot, readBack, ← hcount, BitVec.ofNat_toNat, BitVec.setWidth_eq]
    exact ⟨_, rfl⟩

/-- The reply to a read of `/dev/fb`. -/
theorem sysRead_fb {x : ℕ} {flags : U32} {pos fd buf len : U64} {size : ℕ}
    (hfile : t.file k fd = some (x, ⟨flags, pos, .fb⟩)) (hv : validUserPtr buf = true)
    (hbuf : buf ≠ 0) (hs : t.fs.1 = s) (hready : s.fbReady = true)
    (hsize : (fbSize s).toNat = size) (hlt : size < 2 ^ 36) :
    (t.perform d.driver (k, .sysRead fd buf len)).1 =
      .data (BitVec.ofNat 64 (readBack (fbBytes s.fb) size len pos).length)
        (readBack (fbBytes s.fb) size len pos) := by
  subst hs
  obtain ⟨pos', hread⟩ := fbDevRead_eq hready hsize hlt len pos
  have hvalid : (sysRead d.driver fd buf len).valid = true := hv
  have hfd : t.file k (sysRead d.driver fd buf len).fd = some (x, ⟨flags, pos, .fb⟩) := hfile
  have hop : ((sysRead d.driver fd buf len).op ⟨flags, pos, .fb⟩ t.fs).1 =
      .data (fbDevRead t.fs.1 ((len.setWidth 32).setWidth 64) pos).1
        (fbDevRead t.fs.1 ((len.setWidth 32).setWidth 64) pos).2.1 := by
    change (vfsRead d.driver _ t.fs buf _).1 = _
    rw [vfsRead, if_neg hbuf]
    rfl
  change (t.fileCall k (sysRead d.driver fd buf len)).1 = _
  rw [Spec.fileCall, if_pos hvalid, hfd]
  exact hop.trans (by rw [hread])

theorem kconsole_height (f : Framebuffer) (fb : ℕ → U32) (cs : List U8) :
    (((boot fb).init f).puts cs).fbHeight = f.height.setWidth 32 :=
  (puts_fbHeight _ cs).trans (init_fbHeight _ f)

/-- `/dev/fb`, and the console under any other path. -/
def twoDevices : Devices Unit Unit where
  lookup name _ e := (some (if name = [47, 100, 101, 118, 47, 102, 98] then .fb else .cons), e)
  consRead _ e := ((0, []), e)
  consStat := ⟨4, 0o020666, 1, 0, 0, 0, 0, 0, 0, 0⟩
  fbStat := ⟨5, 0o020660, 1, 0, 0, 0, 0, 0, 0, 0⟩
  other := zeroDriver

/-- A child writes the letter A to the console of its parent, which opens `/dev/fb`. -/
def letterCalls : List (Fin maxProcs × Call) :=
  [(0, .sysOpen 4096 [47, 100, 101, 118, 47, 99, 111, 110, 115] 1 (some 7)), (0, .procFork true true),
    (1, .sysWrite 0 8192 1 fun _ => 65),
    (0, .sysOpen 4096 [47, 100, 101, 118, 47, 102, 98] 0 (some 8))]

/-- Two writes to `/dev/fb`, the second one over the end of the first. -/
def patchCalls : List (Fin maxProcs × Call) :=
  [(0, .sysOpen 4096 [47, 100, 101, 118, 47, 102, 98] 2 (some 7)),
    (0, .sysWrite 0 8192 4 fun _ => 17), (0, .sysSeek 0 2 0), (0, .sysWrite 0 8192 4 fun _ => 34),
    (0, .sysSeek 0 0 0)]

end Jeos.OpenFiles
