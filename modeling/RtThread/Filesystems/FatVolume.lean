import RtThread.Filesystems.DfsElm
import RtThread.Library.BlockWindow
import RtThread.Library.ByteMemory
import Mathlib.Algebra.Ring.Nat

/-!
# The table of a FAT volume

The functions of FatFs that read and change the file allocation table: entries of 12, 16 or
32 bits, read and written through a window that holds one sector, with a second table that
copies the first. A call to the drive may fail at any time.
-/
namespace RtThread
open ByteMemory

/-! ## The drive

A sector and a buffer for one sector are functions, of which the bytes below the sector size
count. -/

/-- What the sectors hold, and for each call to come whether it fails and what it then
leaves in the buffer or on the sectors. -/
structure Drive where
  sectors : ℕ → Memory
  faults : ℕ → Option (ℕ → Memory)
  /-- `STA_NOINIT` of `disk_status`. -/
  noInit : Bool

namespace Drive

def afterCall (d : Drive) : Drive := { d with faults := fun i => d.faults (i + 1) }

/-- `disk_read` of one sector: whether it succeeds, and the buffer. -/
def diskRead (d : Drive) (sector : ℕ) : Bool × Memory × Drive :=
  match d.faults 0 with
  | none => (true, d.sectors sector, d.afterCall)
  | some junk => (false, junk sector, d.afterCall)

/-- `disk_write` of one sector. -/
def diskWrite (d : Drive) (buff : Memory) (sector : ℕ) : Bool × Drive :=
  match d.faults 0 with
  | none => (true, { d.afterCall with sectors := Function.update d.sectors sector buff })
  | some junk =>
    (false, { d.afterCall with sectors := Function.update d.sectors sector (junk sector) })

/-- `disk_ioctl` with `CTRL_SYNC`. -/
def ctrlSync (d : Drive) : Bool × Drive := (d.faults 0 |>.isNone, d.afterCall)

end Drive

/-! ## The volume -/

/-- The width of the entries. -/
inductive FatType where
  | fat12
  | fat16
  | fat32
  deriving DecidableEq, Repr

namespace FatType

/-- Every mark of a last cluster is at least this, less the reserved ones before it. -/
def lastLink : FatType → ℕ
  | fat12 => 0xFFF
  | fat16 => 0xFFFF
  | fat32 => 0x0FFFFFFF

/-- The bytes that `n` entries take. -/
def tableSize : FatType → ℕ → ℕ
  | fat12, n => n * 3 / 2 + n % 2
  | fat16, n => n * 2
  | fat32, n => n * 4

end FatType

/-- The fields of `FATFS` that `chk_mounted` sets once. -/
structure FatLayout where
  fsType : FatType
  csize : ℕ
  nFats : ℕ
  nRootdir : ℕ
  ssize : ℕ
  fsiSector : ℕ
  nFatent : ℕ
  fsize : ℕ
  fatbase : ℕ
  dirbase : ℕ
  database : ℕ
  deriving DecidableEq, Repr

/-- A layout whose parts fit one behind the other. -/
structure FatVolume extends FatLayout where
  ssize_pow : ∃ k, 9 ≤ k ∧ ssize = 2 ^ k
  csize_pow : ∃ k, csize = 2 ^ k
  fatbase_pos : 0 < fatbase
  nFats_pos : 0 < nFats
  nFatent_gt : 2 < nFatent
  nFatent_le : nFatent ≤ fsType.lastLink
  table_le : fsType.tableSize nFatent ≤ fsize * ssize
  database_ge : fatbase + nFats * fsize ≤ database
  sectors_le : database + (nFatent - 2) * csize ≤ 2 ^ 32

namespace FatVolume

variable (v : FatVolume)

theorem ssize_dvd : 512 ∣ v.ssize := by
  obtain ⟨k, hk, he⟩ := v.ssize_pow
  rw [he]
  exact Nat.pow_dvd_pow 2 hk

theorem ssize_pos : 0 < v.ssize := by
  obtain ⟨k, -, he⟩ := v.ssize_pow
  rw [he]
  exact Nat.two_pow_pos k

theorem csize_pos : 0 < v.csize := by
  obtain ⟨k, he⟩ := v.csize_pow
  rw [he]
  exact Nat.two_pow_pos k

end FatVolume

/-- The fields of `FATFS` that change while the volume is mounted. -/
structure FatFs where
  id : ℕ
  wflag : Bool
  fsiFlag : Bool
  lastClust : ℕ
  freeClust : ℕ
  winsect : ℕ
  win : Memory
  drive : Drive

/-- `clust2sect`. -/
def clust2sect (v : FatVolume) (clst : ℕ) : ℕ :=
  let clst := (clst + (2 ^ 32 - 2)) % 2 ^ 32
  if v.nFatent - 2 ≤ clst then 0 else clst * v.csize + v.database

/-! ## The window -/

/-- Reflects a FAT sector to the other copies, `n` of them. A failure goes unnoticed. -/
def writeCopies (v : FatVolume) (win : Memory) : ℕ → ℕ → Drive → Drive
  | 0, _, drive => drive
  | n + 1, wsect, drive =>
    writeCopies v win n (wsect + v.fsize) (drive.diskWrite win (wsect + v.fsize)).2

/-- The part of `move_window` that writes the window back if needed. -/
def writeBack (v : FatVolume) (fs : FatFs) : FResult × FatFs :=
  if fs.wflag then
    match fs.drive.diskWrite fs.win fs.winsect with
    | (false, drive) => (.diskErr, { fs with drive := drive })
    | (true, drive) =>
      if fs.winsect < v.fatbase + v.fsize then
        (.ok, { fs with
          wflag := false, drive := writeCopies v fs.win (v.nFats - 1) fs.winsect drive })
      else (.ok, { fs with wflag := false, drive := drive })
  else (.ok, fs)

/-- `move_window`. Moving to zero only writes the window back. -/
def moveWindow (v : FatVolume) (fs : FatFs) (sector : ℕ) : FResult × FatFs :=
  if fs.winsect = sector then (.ok, fs)
  else
    match writeBack v fs with
    | (.ok, fs) =>
      if sector = 0 then (.ok, fs)
      else
        match fs.drive.diskRead sector with
        | (true, win, drive) => (.ok, { fs with win := win, winsect := sector, drive := drive })
        | (false, win, drive) => (.diskErr, { fs with win := win, drive := drive })
    | failed => failed

/-- The FSInfo structure over the first 512 bytes of the window. -/
def fsInfo (fs : FatFs) : Memory :=
  let win := fill fs.win 0 0 512
  let win := store win 510 0xAA55 2
  let win := store win 0 0x41615252 4
  let win := store win 484 0x61417272 4
  let win := store win 488 fs.freeClust 4
  store win 492 fs.lastClust 4

/-- `sync`. -/
def syncFs (v : FatVolume) (fs : FatFs) : FResult × FatFs :=
  match moveWindow v fs 0 with
  | (.ok, fs) =>
    let fs :=
      if v.fsType = .fat32 ∧ fs.fsiFlag then
        { fs with
          winsect := 0, win := fsInfo fs, fsiFlag := false,
          drive := (fs.drive.diskWrite (fsInfo fs) v.fsiSector).2 }
      else fs
    match fs.drive.ctrlSync with
    | (true, drive) => (.ok, { fs with drive := drive })
    | (false, drive) => (.diskErr, { fs with drive := drive })
  | failed => failed

/-! ## Entries -/

/-- The answer of `get_fat` after an error of the drive. -/
def fatDiskError : ℕ := 0xFFFFFFFF

/-- `get_fat`. -/
def getFat (v : FatVolume) (fs : FatFs) (clst : ℕ) : ℕ × FatFs :=
  if clst < 2 ∨ v.nFatent ≤ clst then (1, fs)
  else
    match v.fsType with
    | .fat12 =>
      let bc := clst + clst / 2
      match moveWindow v fs (v.fatbase + bc / v.ssize) with
      | (.ok, fs) =>
        let wc := (fs.win (bc % v.ssize)).toNat
        let bc := bc + 1
        match moveWindow v fs (v.fatbase + bc / v.ssize) with
        | (.ok, fs) =>
          let wc := wc ||| (fs.win (bc % v.ssize)).toNat <<< 8
          (if clst % 2 = 1 then wc >>> 4 else wc &&& 0xFFF, fs)
        | (_, fs) => (fatDiskError, fs)
      | (_, fs) => (fatDiskError, fs)
    | .fat16 =>
      match moveWindow v fs (v.fatbase + clst / (v.ssize / 2)) with
      | (.ok, fs) => (load fs.win (clst * 2 % v.ssize) 2, fs)
      | (_, fs) => (fatDiskError, fs)
    | .fat32 =>
      match moveWindow v fs (v.fatbase + clst / (v.ssize / 4)) with
      | (.ok, fs) => (load fs.win (clst * 4 % v.ssize) 4 &&& 0x0FFFFFFF, fs)
      | (_, fs) => (fatDiskError, fs)

/-- The two bytes of an entry of 12 bits, one after the other. -/
def fat12Low (clst val : ℕ) (p : UInt8) : UInt8 :=
  if clst % 2 = 1 then (p &&& (0x0F : UInt8)) ||| (UInt8.ofNat val <<< (4 : UInt8))
  else UInt8.ofNat val

def fat12High (clst val : ℕ) (p : UInt8) : UInt8 :=
  if clst % 2 = 1 then UInt8.ofNat (val >>> 4)
  else (p &&& (0xF0 : UInt8)) ||| (UInt8.ofNat (val >>> 8) &&& (0x0F : UInt8))

/-- The switch of `put_fat`, but for the mark that all cases leave at the end. -/
def putEntry (v : FatVolume) (fs : FatFs) (clst val : ℕ) : FResult × FatFs :=
  match v.fsType with
  | .fat12 =>
    let bc := clst + clst / 2
    match moveWindow v fs (v.fatbase + bc / v.ssize) with
    | (.ok, fs) =>
      let p := bc % v.ssize
      let fs := { fs with
        win := Function.update fs.win p (fat12Low clst val (fs.win p)), wflag := true }
      let bc := bc + 1
      match moveWindow v fs (v.fatbase + bc / v.ssize) with
      | (.ok, fs) =>
        let p := bc % v.ssize
        (.ok, { fs with win := Function.update fs.win p (fat12High clst val (fs.win p)) })
      | failed => failed
    | failed => failed
  | .fat16 =>
    match moveWindow v fs (v.fatbase + clst / (v.ssize / 2)) with
    | (.ok, fs) => (.ok, { fs with win := store fs.win (clst * 2 % v.ssize) val 2 })
    | failed => failed
  | .fat32 =>
    match moveWindow v fs (v.fatbase + clst / (v.ssize / 4)) with
    | (.ok, fs) =>
      let p := clst * 4 % v.ssize
      (.ok, { fs with win := store fs.win p (val ||| load fs.win p 4 &&& 0xF0000000) 4 })
    | failed => failed

/-- `put_fat`. The window counts as changed whatever the result. -/
def putFat (v : FatVolume) (fs : FatFs) (clst val : ℕ) : FResult × FatFs :=
  if clst < 2 ∨ v.nFatent ≤ clst then (.intErr, fs)
  else
    let (res, fs) := putEntry v fs clst val
    (res, { fs with wflag := true })

/-! ## Chains -/

/-- The number of free clusters that is not known. -/
def freeUnknown : ℕ := 0xFFFFFFFF

/-- The number of free clusters changes by one, if it is known. -/
def FatFs.countFree (fs : FatFs) (n : ℕ) : FatFs :=
  if fs.freeClust = freeUnknown then fs
  else { fs with freeClust := (fs.freeClust + n) % 2 ^ 32, fsiFlag := true }

/-- The loop of `remove_chain`; `none` when the fuel runs out. -/
def removeLoop (v : FatVolume) : ℕ → FatFs → ℕ → Option (FResult × FatFs)
  | 0, fs, clst => if clst < v.nFatent then none else some (.ok, fs)
  | fuel + 1, fs, clst =>
    if clst < v.nFatent then
      let (nxt, fs) := getFat v fs clst
      if nxt = 0 then some (.ok, fs)
      else if nxt = 1 then some (.intErr, fs)
      else if nxt = fatDiskError then some (.diskErr, fs)
      else
        match putFat v fs clst 0 with
        | (.ok, fs) => removeLoop v fuel (fs.countFree 1) nxt
        | failed => some failed
    else some (.ok, fs)

/-- `remove_chain`. -/
def removeChain (v : FatVolume) (fs : FatFs) (clst : ℕ) : Option (FResult × FatFs) :=
  if clst < 2 ∨ v.nFatent ≤ clst then some (.intErr, fs)
  else removeLoop v v.nFatent fs clst

/-- How the search for a free cluster ends. -/
inductive FatSearch where
  | free (ncl : ℕ)
  | stop (answer : ℕ)
  deriving DecidableEq, Repr

/-- The search loop of `create_chain` from the cluster behind `ncl` on; `none` when the fuel
runs out. -/
def searchFree (v : FatVolume) (scl : ℕ) : ℕ → FatFs → ℕ → Option (FatSearch × FatFs)
  | 0, _, _ => none
  | fuel + 1, fs, ncl =>
    let ncl := ncl + 1
    let wrapped := v.nFatent ≤ ncl
    let ncl := if wrapped then 2 else ncl
    if wrapped ∧ scl < ncl then some (.stop 0, fs)
    else
      let (cs, fs) := getFat v fs ncl
      if cs = 0 then some (.free ncl, fs)
      else if cs = fatDiskError ∨ cs = 1 then some (.stop cs, fs)
      else if ncl = scl then some (.stop 0, fs)
      else searchFree v scl fuel fs ncl

/-- The counts when `create_chain` has taken a cluster. -/
def FatFs.take (fs : FatFs) (ncl : ℕ) : FatFs :=
  { fs with lastClust := ncl }.countFree (2 ^ 32 - 1)

/-- The end of `create_chain`: the new cluster is marked and linked. -/
def linkCluster (v : FatVolume) (fs : FatFs) (clst ncl : ℕ) : ℕ × FatFs :=
  let (res, fs) := putFat v fs ncl 0x0FFFFFFF
  let (res, fs) := if res = .ok ∧ clst ≠ 0 then putFat v fs clst ncl else (res, fs)
  if res = .ok then (ncl, fs.take ncl)
  else (if res = .diskErr then fatDiskError else 1, fs)

/-- The search of `create_chain` from `scl` on, and what follows. -/
def allocate (v : FatVolume) (fs : FatFs) (clst scl : ℕ) : Option (ℕ × FatFs) :=
  match searchFree v scl v.nFatent fs scl with
  | none => none
  | some (.stop answer, fs) => some (answer, fs)
  | some (.free ncl, fs) => some (linkCluster v fs clst ncl)

/-- `create_chain`. -/
def createChain (v : FatVolume) (fs : FatFs) (clst : ℕ) : Option (ℕ × FatFs) :=
  if clst = 0 then
    let scl := fs.lastClust
    allocate v fs clst (if scl = 0 ∨ v.nFatent ≤ scl then 1 else scl)
  else
    let (cs, fs) := getFat v fs clst
    if cs < 2 then some (1, fs)
    else if cs < v.nFatent then some (cs, fs)
    else allocate v fs clst clst

/-- What `f_truncate` does with the clusters behind `clst`. -/
def truncateChain (v : FatVolume) (fs : FatFs) (clst : ℕ) : Option (FResult × FatFs) :=
  let (ncl, fs) := getFat v fs clst
  if ncl = fatDiskError then some (.diskErr, fs)
  else if ncl = 1 then some (.intErr, fs)
  else if ncl < v.nFatent then
    match putFat v fs clst 0x0FFFFFFF with
    | (.ok, fs) => removeChain v fs ncl
    | failed => some failed
  else some (.ok, fs)

end RtThread
