import RtThread.Filesystems.DfsElm
import Mathlib.Data.BitVec

/-!
# The position of an open file

`read`, `write` and `lseek` on a descriptor of a regular file on a FAT volume. The position
and the size are kept twice, in the descriptor and in the object of FatFs.
-/
namespace RtThread

/-- A failure that FatFs reports. -/
structure ElmFailure where
  result : FResult
  failed : result ≠ .ok

/-- What a call of FatFs meets. -/
structure ElmAnswer where
  /-- `validate` rejects the object. -/
  invalid : Option ElmFailure
  /-- The call is aborted on its way. -/
  abort : Option ElmFailure
  /-- Where an aborted call has come to, and how many bytes a write finds room for. -/
  moved : BitVec 32
  /-- How far the clusters of the file reach, with those that can still be added. -/
  room : BitVec 32

/-- The fields of `FIL` that the position depends on. -/
structure Fil where
  fptr : BitVec 32
  fsize : BitVec 32
  /-- `FA_WRITE`. -/
  writable : Bool
  /-- `FA__ERROR`. -/
  aborted : Bool
  deriving DecidableEq, Repr

/-- The descriptor and the object that its `data` points to. -/
structure ElmFile where
  pos : BitVec 32
  size : BitVec 32
  fil : Fil
  deriving DecidableEq, Repr

/-! ## FatFs -/

section FatFs

variable (fp : Fil) (answer : ElmAnswer)

/-- The checks at the start of a call, and what an aborted call leaves. -/
def fCall (run : FResult × BitVec 32 × Fil) : FResult × BitVec 32 × Fil :=
  match answer.invalid with
  | some failure => (failure.result, 0, fp)
  | none =>
    if fp.aborted then (.intErr, 0, fp)
    else
      match answer.abort with
      | some failure => (failure.result, 0, { fp with fptr := answer.moved, aborted := true })
      | none => run

/-- `f_read`: the result, the bytes read and the object. -/
def fRead (btr : BitVec 32) : FResult × BitVec 32 × Fil :=
  let remain := fp.fsize - fp.fptr
  let btr := if remain < btr then remain else btr
  fCall fp answer (.ok, btr, { fp with fptr := fp.fptr + btr })

/-- `f_write`: the result, the bytes written and the object. -/
def fWrite (btw : BitVec 32) : FResult × BitVec 32 × Fil :=
  if fp.writable then
    let btw := if fp.fsize + btw < fp.fsize then 0 else btw
    let bw := if answer.moved < btw then answer.moved else btw
    let fptr := fp.fptr + bw
    fCall fp answer (.ok, bw, { fp with
      fptr := fptr, fsize := if fp.fsize < fptr then fptr else fp.fsize })
  else fCall fp { answer with abort := none } (.denied, 0, fp)

/-- `f_lseek`: read-only it clips at the size, else it extends the file as far as there is
room. -/
def fLseek (ofs : BitVec 32) : FResult × BitVec 32 × Fil :=
  if fp.fsize < ofs then
    if fp.writable then
      let reach := if answer.room < ofs then answer.room else ofs
      let fptr := if fp.fsize < reach then reach else fp.fsize
      fCall fp answer (.ok, 0, { fp with fptr := fptr, fsize := fptr })
    else fCall fp answer (.ok, 0, { fp with fptr := fp.fsize })
  else fCall fp answer (.ok, 0, { fp with fptr := ofs })

end FatFs

/-! ## DFS -/

section Dfs

variable (d : ElmFile) (answer : ElmAnswer)

/-- What the driver returns for bytes that FatFs has moved. -/
def elmReturn (result : FResult) (bytes : BitVec 32) : ℤ :=
  if result = .ok then bytes.toInt else elmResultToDfs result

def dfsElmRead (len : BitVec 32) : ℤ × ElmFile :=
  let (result, byteRead, fd) := fRead d.fil answer len
  (elmReturn result byteRead, { d with pos := fd.fptr, fil := fd })

def dfsElmWrite (len : BitVec 32) : ℤ × ElmFile :=
  let (result, byteWrite, fd) := fWrite d.fil answer len
  (elmReturn result byteWrite, ⟨fd.fptr, fd.fsize, fd⟩)

def dfsElmLseek (offset : BitVec 32) : ℤ × ElmFile :=
  let (result, _, fd) := fLseek d.fil answer offset
  if result = .ok then (fd.fptr.toInt, { d with pos := fd.fptr, fil := fd })
  else (elmResultToDfs result, { d with fil := fd })

def dfsFileLseek (offset : BitVec 32) : ℤ × ElmFile :=
  let (result, d) := dfsElmLseek d answer offset
  if 0 ≤ result then (result, { d with pos := BitVec.ofInt 32 result }) else (result, d)

inductive Whence where
  | set
  | cur
  | «end»
  | other
  deriving DecidableEq, Repr

/-- Where a seek leads. -/
def seekTarget (offset : BitVec 32) : Whence → Option (BitVec 32)
  | .set => some offset
  | .cur => some (offset + d.pos)
  | .end => some (offset + d.size)
  | .other => none

/-- `lseek`: what it returns, if it succeeds. -/
def lseek (offset : BitVec 32) (whence : Whence) : Option (BitVec 32) × ElmFile :=
  match seekTarget d offset whence with
  | none => (none, d)
  | some offset =>
    if offset.toInt < 0 then (none, d)
    else
      let (result, d) := dfsFileLseek d answer offset
      if result < 0 then (none, d) else (some offset, d)

end Dfs

inductive FileCall where
  | read (len : BitVec 32)
  | write (len : BitVec 32)
  | lseek (offset : BitVec 32) (whence : Whence)
  deriving DecidableEq, Repr

/-- One call on the descriptor: what a successful one returns, and the file after it. -/
def fileCall (d : ElmFile) (call : FileCall) (answer : ElmAnswer) : Option (BitVec 32) × ElmFile :=
  match call with
  | .read len =>
    let (result, d) := dfsElmRead d answer len
    (if result < 0 then none else some (BitVec.ofInt 32 result), d)
  | .write len =>
    let (result, d) := dfsElmWrite d answer len
    (if result < 0 then none else some (BitVec.ofInt 32 result), d)
  | .lseek offset whence => lseek d answer offset whence

/-- The descriptor has the position and the size of FatFs. -/
def Synced (d : ElmFile) : Prop := d.pos = d.fil.fptr ∧ d.size = d.fil.fsize

instance (d : ElmFile) : Decidable (Synced d) := inferInstanceAs (Decidable (_ ∧ _))

/-- A successful call leaves the descriptor in step, and a seek returns the new position. -/
def CallRight (d : ElmFile) (call : FileCall) (answer : ElmAnswer) : Prop :=
  ∀ r, (fileCall d call answer).1 = some r → Synced (fileCall d call answer).2 ∧
    ∀ offset whence, call = .lseek offset whence → r = (fileCall d call answer).2.pos

/-- Every call of a session is right. -/
def SessionRight (d : ElmFile) : List (FileCall × ElmAnswer) → Prop
  | [] => True
  | (call, answer) :: calls =>
    CallRight d call answer ∧ SessionRight (fileCall d call answer).2 calls

/-- FatFs carries out a seek behind the end of the file. -/
def SeeksBeyond (d : ElmFile) (call : FileCall) (answer : ElmAnswer) : Prop :=
  ∃ offset whence target, call = .lseek offset whence ∧
    seekTarget d offset whence = some target ∧ 0 ≤ target.toInt ∧ d.fil.fsize < target ∧
    answer.invalid.isNone ∧ d.fil.aborted = false ∧ answer.abort.isNone

/-- No seek of a session leads behind the end that the file has at the time. -/
def SeeksWithin (d : ElmFile) : List (FileCall × ElmAnswer) → Prop
  | [] => True
  | (call, answer) :: calls =>
    ¬SeeksBeyond d call answer ∧ SeeksWithin (fileCall d call answer).2 calls

/-! ## One call -/

/-- What a call of FatFs can do: fail and leave the object or abort it, or run. -/
inductive FCallExit (fp : Fil) (answer : ElmAnswer) (run : FResult × BitVec 32 × Fil) :
    FResult × BitVec 32 × Fil → Prop
  | refused {r : FResult} (hr : r ≠ .ok)
      (hwhy : ¬(answer.invalid.isNone ∧ fp.aborted = false ∧ answer.abort.isNone)) :
      FCallExit fp answer run (r, 0, fp)
  | aborted {r : FResult} (hr : r ≠ .ok) (p : BitVec 32)
      (hwhy : ¬(answer.invalid.isNone ∧ fp.aborted = false ∧ answer.abort.isNone)) :
      FCallExit fp answer run (r, 0, { fp with fptr := p, aborted := true })
  | done (hinvalid : answer.invalid.isNone) (hfp : fp.aborted = false)
      (habort : answer.abort.isNone) : FCallExit fp answer run run

theorem fCall_exit (fp : Fil) (answer : ElmAnswer) (run : FResult × BitVec 32 × Fil) :
    FCallExit fp answer run (fCall fp answer run) := by
  rw [fCall]
  cases hinvalid : answer.invalid with
  | some failure => exact .refused failure.failed (by simp [hinvalid])
  | none =>
    by_cases hfp : fp.aborted = true
    · simp only [hfp, if_true]
      exact .refused (by decide) (by simp [hfp])
    · simp only [hfp]
      cases habort : answer.abort with
      | some failure => exact .aborted failure.failed _ (by simp [habort])
      | none => exact .done (by simp [hinvalid]) (by simpa using hfp) (by simp [habort])

theorem elmReturn_failed {r : FResult} (hr : r ≠ .ok) (bytes : BitVec 32) :
    elmReturn r bytes < 0 := by
  rw [elmReturn, if_neg hr]
  exact elmResultToDfs_neg hr

/-- In step, or of no more use. -/
def StillSynced (d : ElmFile) : Prop := d.fil.aborted = true ∨ Synced d

variable {d : ElmFile} {answer : ElmAnswer}

theorem fRead_exit (fp : Fil) (answer : ElmAnswer) (btr : BitVec 32) :
    ∃ n, FCallExit fp answer (.ok, n, { fp with fptr := fp.fptr + n }) (fRead fp answer btr) :=
  ⟨_, fCall_exit ..⟩

theorem read_right (h : StillSynced d) (len : BitVec 32) :
    CallRight d (.read len) answer ∧ StillSynced (fileCall d (.read len) answer).2 := by
  obtain ⟨n, hexit⟩ := fRead_exit d.fil answer len
  generalize hread : fRead d.fil answer len = exit at hexit
  cases hexit with
  | refused hr =>
    simp only [CallRight, fileCall, dfsElmRead, hread, if_pos (elmReturn_failed hr 0)]
    exact ⟨fun r hret => (by cases hret), h.imp id fun hs => ⟨rfl, hs.2⟩⟩
  | aborted hr p =>
    simp only [CallRight, fileCall, dfsElmRead, hread, if_pos (elmReturn_failed hr 0)]
    exact ⟨fun r hret => (by cases hret), .inl rfl⟩
  | done _ hfp _ =>
    have hs : Synced d := h.resolve_left (by simp [hfp])
    simp only [CallRight, fileCall, dfsElmRead, hread]
    exact ⟨fun r _ => ⟨⟨rfl, hs.2⟩, fun _ _ hcall => (by cases hcall)⟩, .inr ⟨rfl, hs.2⟩⟩

/-- A write puts both fields in step whatever it returns. -/
theorem write_right (d : ElmFile) (answer : ElmAnswer) (len : BitVec 32) :
    CallRight d (.write len) answer ∧ StillSynced (fileCall d (.write len) answer).2 :=
  ⟨fun _ _ => ⟨⟨rfl, rfl⟩, fun _ _ hcall => by cases hcall⟩, .inr ⟨rfl, rfl⟩⟩

/-- A position up to a target that is not negative is not negative. -/
theorem toInt_nonneg_of_le {p target : BitVec 32} (hp : p ≤ target) (ht : 0 ≤ target.toInt) :
    0 ≤ p.toInt := by
  rw [BitVec.le_def] at hp
  rw [BitVec.toInt_eq_toNat_cond] at ht ⊢
  have hlt := target.isLt
  split_ifs at ht ⊢ <;> omega

/-- A seek that FatFs refuses or aborts fails. -/
theorem fileLseek_failed {target : BitVec 32} {r : FResult} {fp : Fil} (hr : r ≠ .ok)
    (hseek : fLseek d.fil answer target = (r, 0, fp)) :
    dfsFileLseek d answer target = (elmResultToDfs r, { d with fil := fp }) := by
  have hneg := elmResultToDfs_neg hr
  simp only [dfsFileLseek, dfsElmLseek, hseek, if_neg hr]
  rw [if_neg (by omega)]

theorem fileLseek_done {target : BitVec 32} {fp : Fil} (hpos : 0 ≤ fp.fptr.toInt)
    (hseek : fLseek d.fil answer target = (.ok, 0, fp)) :
    dfsFileLseek d answer target = (fp.fptr.toInt, { d with pos := fp.fptr, fil := fp }) := by
  simp only [dfsFileLseek, dfsElmLseek, hseek, if_true, if_pos hpos, BitVec.ofInt_toInt]

/-- Where FatFs comes to, and the size that it leaves. -/
theorem fLseek_exit (fp : Fil) (answer : ElmAnswer) (ofs : BitVec 32) :
    ∃ fptr fsize, FCallExit fp answer (.ok, 0, { fp with fptr := fptr, fsize := fsize })
        (fLseek fp answer ofs) ∧ fptr ≤ ofs ∧
      (¬fp.fsize < ofs → fptr = ofs ∧ fsize = fp.fsize) ∧
      (fp.fsize < ofs → fsize = fp.fsize → fptr = fp.fsize) := by
  rw [fLseek]
  by_cases hbeyond : fp.fsize < ofs
  · simp only [if_pos hbeyond]
    by_cases hw : fp.writable = true
    · simp only [hw, if_true]
      refine ⟨_, _, fCall_exit .., ?_, fun hn => absurd hbeyond hn, fun _ h => h⟩
      rw [BitVec.le_def]
      rw [BitVec.lt_def] at hbeyond
      split_ifs with h₁ h₂ h₃ <;> rw [BitVec.lt_def] at * <;> omega
    · simp only [hw]
      refine ⟨_, fp.fsize, fCall_exit .., ?_, fun hn => absurd hbeyond hn, fun _ _ => rfl⟩
      exact BitVec.le_of_lt hbeyond
  · simp only [if_neg hbeyond]
    exact ⟨_, fp.fsize, fCall_exit .., BitVec.le_refl _, fun _ => ⟨rfl, rfl⟩,
      fun h => absurd h hbeyond⟩

/-- A seek that FatFs carries out is right when it does not lead behind the end. -/
theorem lseek_right_iff (h : StillSynced d) (offset : BitVec 32) (whence : Whence) :
    (CallRight d (.lseek offset whence) answer ↔ ¬SeeksBeyond d (.lseek offset whence) answer) ∧
      (¬SeeksBeyond d (.lseek offset whence) answer →
        StillSynced (fileCall d (.lseek offset whence) answer).2) := by
  have hbeyond_iff : ∀ target, seekTarget d offset whence = some target →
      (SeeksBeyond d (.lseek offset whence) answer ↔ 0 ≤ target.toInt ∧ d.fil.fsize < target ∧
        answer.invalid.isNone ∧ d.fil.aborted = false ∧ answer.abort.isNone) := by
    intro target htarget
    constructor
    · rintro ⟨o, w, t, hcall, ht, hrest⟩
      cases hcall
      obtain rfl := Option.some.inj (htarget.symm.trans ht)
      exact hrest
    · intro hrest
      exact ⟨offset, whence, target, rfl, htarget, hrest⟩
  simp only [CallRight, fileCall, lseek]
  cases htarget : seekTarget d offset whence with
  | none =>
    have hnot : ¬SeeksBeyond d (.lseek offset whence) answer := by
      rintro ⟨o, w, t, hcall, ht, -⟩
      cases hcall
      rw [htarget] at ht
      cases ht
    exact ⟨iff_of_true (fun r hret => by cases hret) hnot, fun _ => h⟩
  | some target =>
    rw [hbeyond_iff target htarget]
    simp only []
    by_cases hneg : target.toInt < 0
    · simp only [if_pos hneg]
      exact ⟨iff_of_true (fun r hret => by cases hret) (fun hb => by omega), fun _ => h⟩
    have hpos : 0 ≤ target.toInt := by omega
    simp only [if_neg hneg]
    obtain ⟨fptr, fsize, hexit, hle, hwithin, hbeyond⟩ := fLseek_exit d.fil answer target
    generalize hseek : fLseek d.fil answer target = exit at hexit
    cases hexit with
    | refused hr hwhy =>
      simp only [fileLseek_failed hr hseek, if_pos (elmResultToDfs_neg hr)]
      exact ⟨iff_of_true (fun r hret => by cases hret) (fun hb => hwhy hb.2.2), fun _ => h⟩
    | aborted hr p hwhy =>
      simp only [fileLseek_failed hr hseek, if_pos (elmResultToDfs_neg hr)]
      exact ⟨iff_of_true (fun r hret => by cases hret) (fun hb => hwhy hb.2.2), fun _ => .inl rfl⟩
    | done hinvalid hfp habort =>
      have hs : Synced d := h.resolve_left (by simp [hfp])
      have hfptr : 0 ≤ fptr.toInt := toInt_nonneg_of_le hle hpos
      simp only [fileLseek_done hfptr hseek, if_neg (Int.not_lt.mpr hfptr)]
      by_cases hb : d.fil.fsize < target
      · have hbroken : ¬(target = fptr ∧ d.size = fsize) := by
          rintro ⟨rfl, hsize⟩
          rw [hbeyond hb (hsize.symm.trans hs.2)] at hb
          exact absurd hb (BitVec.lt_irrefl _)
        refine ⟨iff_of_false (fun hright => ?_) (fun hn => hn ⟨hpos, hb, hinvalid, hfp, habort⟩),
          fun hn => absurd ⟨hpos, hb, hinvalid, hfp, habort⟩ hn⟩
        obtain ⟨hsync, hret⟩ := hright target rfl
        exact hbroken ⟨hret offset whence rfl, hsync.2⟩
      · obtain ⟨rfl, rfl⟩ := hwithin hb
        refine ⟨iff_of_true (fun r hret => ⟨⟨rfl, hs.2⟩, fun _ _ _ => ?_⟩) (fun hn => hb hn.2.1),
          fun _ => .inr ⟨rfl, hs.2⟩⟩
        exact (Option.some.inj hret).symm

/-! ## Sessions -/

theorem call_right_iff (h : StillSynced d) (call : FileCall) (answer : ElmAnswer) :
    (CallRight d call answer ↔ ¬SeeksBeyond d call answer) ∧
      (¬SeeksBeyond d call answer → StillSynced (fileCall d call answer).2) := by
  cases call with
  | read len =>
    obtain ⟨hright, hsynced⟩ := @read_right d answer h len
    exact ⟨iff_of_true hright (fun ⟨_, _, _, hcall, _⟩ => by cases hcall), fun _ => hsynced⟩
  | write len =>
    obtain ⟨hright, hsynced⟩ := write_right d answer len
    exact ⟨iff_of_true hright (fun ⟨_, _, _, hcall, _⟩ => by cases hcall), fun _ => hsynced⟩
  | lseek offset whence => exact lseek_right_iff h offset whence

theorem sessionRight_iff_of_stillSynced (h : StillSynced d) (calls : List (FileCall × ElmAnswer)) :
    SessionRight d calls ↔ SeeksWithin d calls := by
  induction calls generalizing d with
  | nil => exact Iff.rfl
  | cons head calls ih =>
    obtain ⟨call, answer⟩ := head
    obtain ⟨hiff, hsynced⟩ := call_right_iff h call answer
    rw [SessionRight, SeeksWithin, hiff]
    exact and_congr_right fun hwithin => ih (hsynced hwithin)

/-- A descriptor is in step when it has been opened. -/
theorem positions_tracked_iff (h : Synced d) (calls : List (FileCall × ElmAnswer)) :
    SessionRight d calls ↔ SeeksWithin d calls :=
  sessionRight_iff_of_stillSynced (.inr h) calls

/-- A file of ten bytes, opened at its start. -/
def tenBytes (writable : Bool) : ElmFile := ⟨0, 10, ⟨0, 10, writable, false⟩⟩

/-- Nothing fails, and there is room for a hundred bytes. -/
def plainAnswer : ElmAnswer := ⟨none, none, 100, 100⟩

theorem positions_tracked_iff_sample :
    SessionRight (tenBytes true) [(.read 4, plainAnswer), (.lseek 2 .cur, plainAnswer)] ↔
      SeeksWithin (tenBytes true) [(.read 4, plainAnswer), (.lseek 2 .cur, plainAnswer)] :=
  positions_tracked_iff ⟨rfl, rfl⟩ _

theorem seek_beyond_loses_track :
    Synced (tenBytes false) ∧ ¬SessionRight (tenBytes false) [(.lseek 20 .set, plainAnswer)] ∧
      ¬SessionRight (tenBytes true) [(.lseek 20 .set, plainAnswer)] := by
  refine ⟨⟨rfl, rfl⟩, fun hright => ?_, fun hright => ?_⟩
  · exact absurd ((hright.1 20 (by decide)).2 20 .set rfl) (by decide)
  · exact absurd (hright.1 20 (by decide)).1 (by decide)

end RtThread
