import RtThread.Filesystems.DfsElm
import RtThread.Filesystems.DfsFile
import RtThread.Kernel.Kservice
import RtThread.Kernel.VsnprintfTruncation

/-!
# The names that FatFs gets

Four operations of the driver print the volume number and the path into a block of 256
bytes and hand that to FatFs. `f_rename` takes its second name without a volume number, on
the volume of the first.
-/
namespace RtThread
open ByteMemory Vsnprintf

namespace ElmPath

/-- A call of FatFs, with the names that it is given. -/
inductive FatCall where
  | mkdir (path : List UInt8)
  | opendir (path : List UInt8)
  | «open» (path : List UInt8) (mode : BitVec 8)
  | unlink (path : List UInt8)
  | rename (oldPath newPath : List UInt8)
  | stat (path : List UInt8)
  deriving DecidableEq, Repr

/-- What an operation meets. -/
structure ElmEnv where
  /-- `elm_get_vol`, for a volume that has a number. -/
  vol : Option (Fin elmVolumes)
  /-- The address of the block of 256 bytes, and the memory at the time. -/
  driversFn : Option ℕ
  mem : Memory
  /-- `rt_malloc` of the directory or file object. -/
  object : Bool
  mkdir : FResult
  result : FResult

/-- `"%d:%s"` -/
def driverFormat : List UInt8 := [0x25, 0x64, 0x3A, 0x25, 0x73]

section Operations

variable (strings : BitVec 32 → List UInt8) (env : ElmEnv)

/-- The arguments of `rt_snprintf`; nothing is read behind the path. -/
def driverArgs (vol : ℕ) (path : BitVec 32) : Args :=
  Stream'.cons (BitVec.ofNat 32 vol) (Stream'.cons path (Stream'.const 0))

/-- The name that `rt_snprintf(drivers_fn, 256, "%d:%s", vol, path)` leaves. -/
def driversName (vol buf : ℕ) (path : BitVec 32) : List UInt8 :=
  readString (rtVsnprintf strings env.mem buf 256 driverFormat (driverArgs vol path)).2 buf 256

/-- The way from the path to the call of FatFs. -/
def withDriversName (path : BitVec 32) (run : List UInt8 → ℤ × List FatCall) :
    ℤ × List FatCall :=
  match env.vol with
  | none => (-dfsStatusEnoent, [])
  | some vol =>
    match env.driversFn with
    | none => (-dfsStatusEnomem, [])
    | some buf => run (driversName strings env vol buf path)

def dfsOWronly : BitVec 32 := 0x0000001
def dfsORdwr : BitVec 32 := 0x0000002
def dfsOAccmode : BitVec 32 := 0x0000003
def dfsOCreat : BitVec 32 := 0x0000100
def dfsOExcl : BitVec 32 := 0x0000200
def dfsOTrunc : BitVec 32 := 0x0001000

/-- The mode that `dfs_elm_open` makes of the flags. -/
def elmMode (flags : BitVec 32) : BitVec 8 :=
  let mode : BitVec 8 := 0x01
  let mode := if flags &&& dfsOWronly ≠ 0 then mode ||| 0x02 else mode
  let mode := if flags &&& dfsOAccmode &&& dfsORdwr ≠ 0 then mode ||| 0x02 else mode
  let mode := if flags &&& dfsOCreat ≠ 0 then mode ||| 0x10 else mode
  let mode := if flags &&& dfsOTrunc ≠ 0 then mode ||| 0x08 else mode
  if flags &&& dfsOExcl ≠ 0 then mode ||| 0x04 else mode

def dfsElmOpen (flags path : BitVec 32) : ℤ × List FatCall :=
  withDriversName strings env path fun name =>
    if flags &&& dfsODirectory ≠ 0 then
      let made := if flags &&& dfsOCreat ≠ 0 then [FatCall.mkdir name] else []
      if flags &&& dfsOCreat ≠ 0 ∧ env.mkdir ≠ .ok then (elmResultToDfs env.mkdir, made)
      else if env.object = false then (-dfsStatusEnomem, made)
      else (elmResultToDfs env.result, made ++ [.opendir name])
    else if env.object = false then (-dfsStatusEnomem, [])
    else (elmResultToDfs env.result, [.open name (elmMode flags)])

def dfsElmUnlink (path : BitVec 32) : ℤ × List FatCall :=
  withDriversName strings env path fun name => (elmResultToDfs env.result, [.unlink name])

def dfsElmRename (oldpath newpath : BitVec 32) : ℤ × List FatCall :=
  withDriversName strings env oldpath fun name =>
    (elmResultToDfs env.result, [.rename name (strings newpath)])

def dfsElmStat (path : BitVec 32) : ℤ × List FatCall :=
  withDriversName strings env path fun name => (elmResultToDfs env.result, [.stat name])

end Operations

/-- One of the four operations, with the addresses of its paths. -/
inductive ElmOperation where
  | «open» (flags path : BitVec 32)
  | unlink (path : BitVec 32)
  | rename (oldpath newpath : BitVec 32)
  | stat (path : BitVec 32)
  deriving DecidableEq, Repr

namespace ElmOperation

/-- The path that is printed. -/
def path : ElmOperation → BitVec 32
  | «open» _ path => path
  | unlink path => path
  | rename oldpath _ => oldpath
  | stat path => path

def run (strings : BitVec 32 → List UInt8) (env : ElmEnv) : ElmOperation → ℤ × List FatCall
  | «open» flags path => dfsElmOpen strings env flags path
  | unlink path => dfsElmUnlink strings env path
  | rename oldpath newpath => dfsElmRename strings env oldpath newpath
  | stat path => dfsElmStat strings env path

end ElmOperation

/-! ## The name that is printed -/

/-- The volume number, `:` and the path. -/
def volumeName (vol : ℕ) (path : List UInt8) : List UInt8 :=
  UInt8.ofNat (0x30 + vol) :: 0x3A :: path

variable {strings : BitVec 32 → List UInt8} {path : BitVec 32}

/-- The field of a volume number. -/
theorem numberField_volume (vol : Fin elmVolumes) :
    numberField (BitVec.ofNat 32 vol) 10 (-1) (-1) { noFlags with sign := true } =
      ⟨none, [UInt8.ofNat (0x30 + vol)], -2, 0, false, false⟩ := by
  have hsign : ∀ vol : Fin elmVolumes, signOf { noFlags with sign := true } (BitVec.ofNat 32 vol) =
      (none, BitVec.ofNat 32 vol) := by decide
  have hvol : ∀ vol : Fin elmVolumes, (BitVec.ofNat 32 vol).toNat = vol := by decide
  have hten : (BitVec.ofNat 32 vol).toNat < 10 := by
    rw [hvol]
    exact Nat.lt_trans vol.isLt (by decide)
  simp only [numberField, hsign, tmpDigits_of_lt_ten _ hten, hvol]
  rfl

theorem numberOf_volume (vol : Fin elmVolumes) (path : BitVec 32) :
    numberOf (directive [0x64, 0x3A, 0x25, 0x73] (driverArgs vol path)) =
      some ⟨none, [UInt8.ofNat (0x30 + vol)], -2, 0, false, false⟩ :=
  congrArg some (numberField_volume vol)

theorem directive_path (args : Args) : directive [0x73] args =
    ⟨noFlags, -1, -1, 0, some 0x73, [], args⟩ := rfl

theorem convertText_path (hpath : path ≠ 0) (args : Args) :
    convertText strings (directive [0x73] (Stream'.cons path args)) true = strings path := by
  have harg : stringArg strings (Stream'.cons path args).head = strings path := if_neg hpath
  have hpad : (-1 - (strings path).length : ℤ).toNat = 0 := by omega
  simp only [directive_path, convertText, stringText, harg]
  simp [hpad, noFlags]

/-- What the format makes of the two arguments. -/
theorem driverText (hpath : path ≠ 0) (vol : Fin elmVolumes) :
    formatText strings driverFormat (driverArgs vol path) = volumeName vol (strings path) := by
  have hrest : (directive [0x64, 0x3A, 0x25, 0x73] (driverArgs vol path)).rest =
      [0x3A, 0x25, 0x73] := rfl
  have hargs : argsAfter (directive [0x64, 0x3A, 0x25, 0x73] (driverArgs vol path)) =
      Stream'.cons path (Stream'.const 0) := rfl
  rw [driverFormat, formatText_percent, convertText_number (numberOf_volume vol path), hrest,
    hargs, formatText_char (by decide), formatText_percent, convertText_path hpath]
  have hend : (directive [0x73] (Stream'.cons path (Stream'.const 0))).rest = [] := rfl
  rw [hend, formatText_nil, List.append_nil]
  rfl

/-- The number of the volume is not padded behind a sign. -/
theorem driver_not_padsBeyond (vol : Fin elmVolumes) (path : BitVec 32) :
    ¬PadsBeyond strings 256 0 driverFormat (driverArgs vol path) := by
  have hrest : (directive [0x64, 0x3A, 0x25, 0x73] (driverArgs vol path)).rest =
      [0x3A, 0x25, 0x73] := rfl
  have hargs : argsAfter (directive [0x64, 0x3A, 0x25, 0x73] (driverArgs vol path)) =
      Stream'.cons path (Stream'.const 0) := rfl
  have hend : (directive [0x73] (Stream'.cons path (Stream'.const 0))).rest = [] := rfl
  rw [driverFormat, padsBeyond_percent, hrest, hargs, padsBeyond_char (by decide),
    padsBeyond_percent, hend]
  rintro (⟨hoffset, -⟩ | ⟨-, f, hf, -⟩ | hlater)
  · omega
  · exact absurd hf (by rintro ⟨⟩)
  · exact padsBeyond_nil _ _ _ hlater

variable {env : ElmEnv} {vol : Fin elmVolumes} {buf : ℕ}

/-- The name is what 255 bytes hold of the volume number, `:` and the path. -/
theorem driversName_eq (hpath : path ≠ 0) (hstring : Nonzero (strings path)) :
    driversName strings env vol buf path = (volumeName vol (strings path)).take 255 := by
  obtain ⟨m, hcall, hstored⟩ :=
    rtVsnprintf_of_fits (by decide) (driver_not_padsBeyond vol path) env.mem buf
  rw [driverText hpath] at hcall hstored
  have hname : Nonzero (volumeName vol (strings path)) := by
    have hdigit : ∀ vol : Fin elmVolumes, UInt8.ofNat (0x30 + vol) ≠ 0 := by decide
    intro c hc
    rcases List.mem_cons.mp hc with rfl | hc
    · exact hdigit vol
    rcases List.mem_cons.mp hc with rfl | hc
    · decide
    · exact hstring c hc
  rw [driversName, hcall]
  refine readString_eq hstored (fun c hc => hname c (List.mem_of_mem_take hc)) ?_
  rw [List.length_take]
  omega

/-- The name is complete when the path has at most 253 characters. -/
theorem driversName_eq_iff (hpath : path ≠ 0) (hstring : Nonzero (strings path)) :
    driversName strings env vol buf path = volumeName vol (strings path) ↔
      (strings path).length ≤ 253 := by
  have hlength : (volumeName vol (strings path)).length = (strings path).length + 2 := rfl
  rw [driversName_eq hpath hstring, List.take_eq_self_iff, hlength]
  omega

/-! ## The operations -/

/-- The names that a call of FatFs gets. -/
def FatCall.names : FatCall → List (List UInt8)
  | mkdir path => [path]
  | opendir path => [path]
  | «open» path _ => [path]
  | unlink path => [path]
  | rename oldPath newPath => [oldPath, newPath]
  | stat path => [path]

/-- The names that an operation stands for. The new name of a file has no volume number. -/
def ElmOperation.names (strings : BitVec 32 → List UInt8) (vol : ℕ) :
    ElmOperation → List (List UInt8)
  | rename oldpath newpath => [volumeName vol (strings oldpath), strings newpath]
  | op => [volumeName vol (strings op.path)]

/-- FatFs is called with the complete names, or the operation fails without a call. -/
def HandsOver (strings : BitVec 32 → List UInt8) (env : ElmEnv) (op : ElmOperation) : Prop :=
  (∀ call ∈ (op.run strings env).2, ∃ vol ∈ env.vol, call.names = op.names strings vol) ∧
    ((op.run strings env).2 = [] → (op.run strings env).1 < 0)

/-- The operation ends before it calls FatFs. -/
def Stops (env : ElmEnv) (op : ElmOperation) : Prop :=
  env.vol = none ∨ env.driversFn = none ∨
    ∃ flags path, op = .open flags path ∧ env.object = false ∧
      ¬(flags &&& dfsODirectory ≠ 0 ∧ flags &&& dfsOCreat ≠ 0)

/-- An operation that does not stop calls FatFs, and what it calls gets the printed name. -/
theorem run_calls {op : ElmOperation} (hvol : env.vol = some vol) (hbuf : env.driversFn = some buf)
    (hgo : ¬Stops env op) : (op.run strings env).2 ≠ [] ∧
      ∀ call ∈ (op.run strings env).2,
        call.names = driversName strings env vol buf op.path :: (op.names strings vol).tail := by
  cases op with
  | «open» flags path =>
    have hobject : flags &&& dfsODirectory ≠ 0 ∧ flags &&& dfsOCreat ≠ 0 ∨ env.object = true := by
      by_contra hnone
      rw [not_or, Bool.not_eq_true] at hnone
      exact hgo (Or.inr (Or.inr ⟨flags, path, rfl, hnone.2, hnone.1⟩))
    simp only [ElmOperation.run, dfsElmOpen, withDriversName, hvol, hbuf, ElmOperation.names,
      ElmOperation.path, List.tail_cons]
    rcases eq_or_ne (flags &&& dfsODirectory) 0 with hdirectory | hdirectory
    · have hmade : env.object = true := hobject.resolve_left fun h => h.1 hdirectory
      simp [hdirectory, hmade, FatCall.names]
    rcases eq_or_ne (flags &&& dfsOCreat) 0 with hcreat | hcreat
    · have hmade : env.object = true := hobject.resolve_left fun h => h.2 hcreat
      rw [if_pos hdirectory]
      simp [hcreat, hmade, FatCall.names]
    · rw [if_pos hdirectory]
      simp only [if_pos hcreat]
      split_ifs <;> simp [FatCall.names]
  | unlink path =>
    simp [ElmOperation.run, dfsElmUnlink, withDriversName, hvol, hbuf, ElmOperation.names,
      ElmOperation.path, FatCall.names]
  | rename oldpath newpath =>
    simp [ElmOperation.run, dfsElmRename, withDriversName, hvol, hbuf, ElmOperation.names,
      ElmOperation.path, FatCall.names]
  | stat path =>
    simp [ElmOperation.run, dfsElmStat, withDriversName, hvol, hbuf, ElmOperation.names,
      ElmOperation.path, FatCall.names]

/-- An operation that stops fails. -/
theorem run_stops {op : ElmOperation} (h : Stops env op) :
    (op.run strings env).2 = [] ∧ (op.run strings env).1 < 0 := by
  have hfails : -dfsStatusEnoent < 0 ∧ -dfsStatusEnomem < 0 := by decide
  have hnomem : 0 < dfsStatusEnomem := by decide
  have hway : ∀ (path : BitVec 32) (run : List UInt8 → ℤ × List FatCall),
      env.vol = none ∨ env.driversFn = none →
        (withDriversName strings env path run).2 = [] ∧
          (withDriversName strings env path run).1 < 0 := by
    intro path run hnone
    rw [withDriversName]
    cases hvol : env.vol with
    | none => exact ⟨rfl, hfails.1⟩
    | some vol =>
      cases hbuf : env.driversFn with
      | none => exact ⟨rfl, hfails.2⟩
      | some buf => simp [hvol, hbuf] at hnone
  rcases h with hnone | hnone | ⟨flags, path, rfl, hobject, hflags⟩
  · cases op <;> exact hway _ _ (Or.inl hnone)
  · cases op <;> exact hway _ _ (Or.inr hnone)
  · cases hvol : env.vol with
    | none => exact hway _ _ (Or.inl hvol)
    | some vol =>
      cases hbuf : env.driversFn with
      | none => exact hway _ _ (Or.inr hbuf)
      | some buf =>
        simp only [ElmOperation.run, dfsElmOpen, withDriversName, hvol, hbuf, hobject]
        rcases eq_or_ne (flags &&& dfsODirectory) 0 with hdirectory | hdirectory
        · simp [hdirectory, hnomem]
        · have hcreat : flags &&& dfsOCreat = 0 :=
            of_not_not fun hcreat => hflags ⟨hdirectory, hcreat⟩
          rw [if_pos hdirectory]
          simp [hcreat, hnomem]

/-- The names are handed over when the operation stops, and else when the path fits. -/
theorem hands_over_iff (op : ElmOperation) (hpath : op.path ≠ 0)
    (hstring : Nonzero (strings op.path)) :
    HandsOver strings env op ↔ Stops env op ∨ (strings op.path).length ≤ 253 := by
  by_cases hstops : Stops env op
  · obtain ⟨hnothing, hfails⟩ := @run_stops strings env op hstops
    have hover : HandsOver strings env op := ⟨fun call hcall => by simp [hnothing] at hcall,
      fun _ => hfails⟩
    exact iff_of_true hover (Or.inl hstops)
  · obtain ⟨vol, hvol⟩ : ∃ vol, env.vol = some vol :=
      Option.ne_none_iff_exists'.mp fun hnone => hstops (Or.inl hnone)
    obtain ⟨buf, hbuf⟩ : ∃ buf, env.driversFn = some buf :=
      Option.ne_none_iff_exists'.mp fun hnone => hstops (Or.inr (Or.inl hnone))
    obtain ⟨hcalls, hnames⟩ := @run_calls strings env vol buf op hvol hbuf hstops
    have hwhole : op.names strings vol =
        volumeName vol (strings op.path) :: (op.names strings vol).tail := by
      cases op <;> rfl
    rw [or_iff_right hstops, ← @driversName_eq_iff strings op.path env vol buf hpath hstring]
    constructor
    · rintro ⟨hover, -⟩
      obtain ⟨call, hcall⟩ := List.exists_mem_of_ne_nil _ hcalls
      obtain ⟨vol', hvol', hnamed⟩ := hover call hcall
      obtain rfl : vol' = vol := Option.some.inj (hvol'.symm.trans hvol)
      rw [hnames call hcall, hwhole] at hnamed
      exact (List.cons.inj hnamed).1
    · intro hname
      refine ⟨fun call hcall => ⟨vol, hvol, ?_⟩, fun hnothing => absurd hnothing hcalls⟩
      rw [hnames call hcall, hname, ← hwhole]

section Samples

def volumeZero : Fin elmVolumes := ⟨0, by decide⟩

/-- A volume and memory for everything. -/
def readyEnv : ElmEnv := ⟨some volumeZero, some 0x1000, fun _ => 0, true, .ok, .ok⟩

/-- All paths are the same one, with so many characters behind the slash. -/
def pathOf (n : ℕ) (_ : BitVec 32) : List UInt8 := 0x2F :: List.replicate n 0x61

theorem nonzero_pathOf (n : ℕ) (a : BitVec 32) : Nonzero (pathOf n a) := by
  intro c hc
  rcases List.mem_cons.mp hc with rfl | hc
  · decide
  · rw [List.eq_of_mem_replicate hc]
    decide

theorem volumeName_pathOf_length (vol n : ℕ) (a : BitVec 32) :
    (volumeName vol (pathOf n a)).length = n + 3 := by
  simp [volumeName, pathOf]

theorem volumeName_pathOf_take (vol n : ℕ) (a : BitVec 32) :
    (volumeName vol (pathOf (n + 1) a)).take (n + 3) = volumeName vol (pathOf n a) := by
  simp [volumeName, pathOf, List.take_replicate]

theorem hands_over_iff_short :
    HandsOver (pathOf 4) readyEnv (.rename 1 2) ↔
      Stops readyEnv (.rename 1 2) ∨ (pathOf 4 1).length ≤ 253 :=
  hands_over_iff (.rename 1 2) (by decide) (nonzero_pathOf 4 1)

/-- The file whose path has one character less is removed. -/
theorem long_path_unlinks_another :
    (ElmOperation.unlink 1).run (pathOf 253) readyEnv =
        (0, [.unlink (volumeName 0 (pathOf 252 1))]) ∧
      ¬HandsOver (pathOf 253) readyEnv (.unlink 1) := by
  have hcut : (volumeName volumeZero (pathOf 253 1)).take 255 = volumeName 0 (pathOf 252 1) :=
    volumeName_pathOf_take 0 252 1
  have hrun : (ElmOperation.unlink 1).run (pathOf 253) readyEnv =
      (0, [.unlink (volumeName 0 (pathOf 252 1))]) := by
    rw [← hcut, ← @driversName_eq _ 1 readyEnv volumeZero 0x1000 (by decide)
      (nonzero_pathOf 253 1)]
    rfl
  refine ⟨hrun, fun ⟨hover, _⟩ => ?_⟩
  rw [hrun] at hover
  obtain ⟨vol, -, hnames⟩ := hover _ List.mem_cons_self
  have hname := (List.cons.inj hnames).1
  have hlength := congrArg List.length hname
  rw [volumeName_pathOf_length, ElmOperation.path, volumeName_pathOf_length] at hlength
  omega

end Samples

end ElmPath
end RtThread
