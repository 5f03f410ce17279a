import RtThread.Filesystems.DfsFile
import RtThread.Kernel.DeviceCounting

/-!
# Mounting and unmounting

`dfs_mount` and `dfs_unmount` on the table of mounted filesystems, the devices and the heap, of
which only the numbers of the blocks in use are kept. `none` is an access through a null pointer,
outside a buffer, or an assertion that fails.
-/
namespace RtThread
open SlashPath

def dfsFilesystemsMax : ℕ := 2
def rtDeviceOflagRdwr : BitVec 16 := 0x003

/-- `struct dfs_filesystem` with the block that its path is in. -/
structure MountEntry where
  devId : Option ℕ
  path : Option (ℕ × List Char)
  ops : Option FilesystemOperation
  deriving DecidableEq

/-- What `rt_memset` leaves of an entry. -/
def MountEntry.zero : MountEntry := ⟨none, none, none⟩

def MountEntry.text (entry : MountEntry) : Option (List Char) := entry.path.map Prod.snd

def MountEntry.filesystem (entry : MountEntry) : DfsFilesystem FilesystemOperation :=
  ⟨entry.text, entry.ops⟩

structure MountSystem where
  entries : List MountEntry
  /-- The registered devices with their names. -/
  devices : List (List Char × Device Unit)
  /-- The blocks in use. -/
  live : List ℕ
  next : ℕ

/-- What the heap, the drivers and the stack give to a call of `dfs_mount`. -/
structure MountAnswers where
  memory : Bool
  probe : Answers
  stack : DfsFd
  device : DriverResults
  mount : ℤ

structure UnmountAnswers where
  memory : Bool
  device : DriverResults
  unmount : ℤ

/-- The search of `dfs_mount` from entry `i` on: `none` has met the path, otherwise `fs`. -/
def searchEntry (path : List Char) : List MountEntry → ℕ → Option ℕ → Option (Option ℕ)
  | [], _, fs => some fs
  | entry :: entries, i, fs =>
    if entry.ops = none then searchEntry path entries (i + 1) (if fs = none then some i else fs)
    else if entry.text = some path then none
    else searchEntry path entries (i + 1) fs

namespace MountSystem

def filesystems (s : MountSystem) : List (DfsFilesystem FilesystemOperation) :=
  s.entries.map MountEntry.filesystem

def alloc (s : MountSystem) : ℕ × MountSystem :=
  (s.next, { s with live := s.next :: s.live, next := s.next + 1 })

/-- `rt_free`, which does nothing for `RT_NULL`. -/
def free (s : MountSystem) : Option ℕ → MountSystem
  | some block => { s with live := s.live.erase block }
  | none => s

def setEntry (s : MountSystem) (fs : ℕ) (entry : MountEntry) : MountSystem :=
  { s with entries := s.entries.set fs entry }

/-- No name is a mount without a device; `none` is a name that no device has. -/
def findDevice (s : MountSystem) : Option (List Char) → Option (Option ℕ)
  | none => some none
  | some name => (s.devices.findIdx? fun dev => dev.1 = name).map some

/-- `rt_device_open` for a device: whether it returns `RT_EOK`. -/
def openDevice (s : MountSystem) (r : DriverResults) : Option ℕ → Option (Bool × MountSystem)
  | none => some (true, s)
  | some i => s.devices[i]?.bind fun (name, dev) =>
    (dev.rtDeviceOpen r.ops rtDeviceOflagRdwr).map fun (ret, dev) =>
      (ret.result = rtEok, { s with devices := s.devices.set i (name, dev) })

def closeDevice (s : MountSystem) (r : DriverResults) : Option ℕ → Option MountSystem
  | none => some s
  | some i => s.devices[i]?.bind fun (name, dev) =>
    (dev.rtDeviceClose r.ops).map fun (_, dev) =>
      { s with devices := s.devices.set i (name, dev) }

/-- The test that the mount point exists: it is opened and closed. The path of the descriptor is
the one block that `dfs_file_open` leaves. -/
def probe (s : MountSystem) (workingDirectory fullpath : List Char) (answers : MountAnswers) :
    Option (Bool × MountSystem) :=
  if fullpath = ['/'] ∨ fullpath = ['/', 'd', 'e', 'v'] then some (true, s)
  else
    (dfsFileOpen s.filesystems workingDirectory answers.probe answers.stack fullpath
      dfsODirectory).bind fun (result, fd, _) =>
        if result < 0 then some (false, s)
        else
          (dfsFileClose s.filesystems answers.probe fd).map fun (_, fd', _) =>
            if fd.path = none then (true, s)
            else
              let (block, s) := s.alloc
              -- the path of a descriptor that is not closed is not freed
              (true, if fd'.path = none then s.free block else s)

/-- The part of `dfs_mount` behind the search for an empty entry. -/
def mountOn (s : MountSystem) (fs : ℕ) (dev : Option ℕ) (block : ℕ) (fullpath : List Char)
    (ops : FilesystemOperation) (answers : MountAnswers) : Option (ℤ × MountSystem) :=
  let s := s.setEntry fs ⟨dev, some (block, fullpath), some ops⟩
  (s.openDevice answers.device dev).bind fun (opened, s) =>
    if opened then
      if answers.mount < 0 then
        (s.closeDevice answers.device dev).map fun s => (-1, (s.setEntry fs .zero).free block)
      else some (0, s)
    else some (-1, (s.setEntry fs .zero).free block)

def dfsMount (types : List (Option FilesystemOperation)) (s : MountSystem)
    (workingDirectory : List Char) (deviceName : Option (List Char)) (path type : List Char)
    (answers : MountAnswers) : Option (ℤ × MountSystem) :=
  match s.findDevice deviceName with
  | none => some (-1, s)
  | some dev =>
    (findType types type).bind fun
      | .failed result _ => some (result, s)
      | .found ops =>
        (normalizedText workingDirectory path answers.memory).bind fun
          | none => some (-1, s)
          | some fullpath =>
            let (block, s) := s.alloc
            (s.probe workingDirectory fullpath answers).bind fun (found, s) =>
              if found then
                -- the path as it was given is compared, not `fullpath`
                match searchEntry path s.entries 0 none with
                | some (some fs) => s.mountOn fs dev block fullpath ops answers
                | _ => some (-1, s.free block)
              else some (-1, s.free block)

def dfsUnmount (s : MountSystem) (workingDirectory specialfile : List Char)
    (answers : UnmountAnswers) : Option (ℤ × MountSystem) :=
  (normalizedText workingDirectory specialfile answers.memory).bind fun
    | none => some (-1, s)
    | some fullpath =>
      let (block, s) := s.alloc
      match s.entries.findIdx? fun entry => entry.text = some fullpath with
      | none => some (-1, s.free block)
      | some fs =>
        s.entries[fs]?.bind fun entry => entry.ops.bind fun ops =>
          if ops.hasUnmount = false ∨ answers.unmount < 0 then some (-1, s.free block)
          else
            (s.closeDevice answers.device entry.devId).map fun s =>
              (0, ((s.free (entry.path.map Prod.fst)).setEntry fs .zero).free block)

/-! ## The test of the mount point -/

/-- The mount point is found. -/
def ProbeFinds (s : MountSystem) (workingDirectory fullpath : List Char)
    (answers : MountAnswers) : Prop :=
  fullpath = ['/'] ∨ fullpath = ['/', 'd', 'e', 'v'] ∨ ∃ result fd calls,
    dfsFileOpen s.filesystems workingDirectory answers.probe answers.stack fullpath
      dfsODirectory = some (result, fd, calls) ∧ 0 ≤ result

/-- The mount point is opened, but the driver fails to close it. -/
def ProbeLeaks (s : MountSystem) (workingDirectory fullpath : List Char)
    (answers : MountAnswers) : Prop :=
  fullpath ≠ ['/'] ∧ fullpath ≠ ['/', 'd', 'e', 'v'] ∧ ∃ result fd calls,
    dfsFileOpen s.filesystems workingDirectory answers.probe answers.stack fullpath
      dfsODirectory = some (result, fd, calls) ∧ 0 ≤ result ∧
    ∃ result' fd' calls', dfsFileClose s.filesystems answers.probe fd =
      some (result', fd', calls') ∧ fd'.path ≠ none

section
variable {s s' : MountSystem} {workingDirectory fullpath path : List Char}
  {answers : MountAnswers} {found : Bool} {fd : DfsFd} {result : ℤ} {calls : List DriverCall}

/-- A descriptor without a path has none when it is closed. -/
theorem dfsFileClose_path {table : List (DfsFilesystem FilesystemOperation)} {fd' : DfsFd}
    {a : Answers} (h : dfsFileClose table a fd = some (result, fd', calls))
    (hpath : fd.path = none) : fd'.path = none := by
  obtain ⟨-, rfl⟩ | ⟨-, rfl⟩ := dfsFileClose_cases h
  · exact hpath
  · rfl

theorem ProbeLeaks.finds (h : s.ProbeLeaks workingDirectory fullpath answers) :
    s.ProbeFinds workingDirectory fullpath answers := by
  obtain ⟨-, -, result, fd, calls, hopen, hpos, -⟩ := h
  exact .inr (.inr ⟨result, fd, calls, hopen, hpos⟩)

/-- What is leaked by the test of the mount point. -/
def Leaked (s : MountSystem) (workingDirectory fullpath : List Char) (answers : MountAnswers)
    (block : ℕ) (leaked : List ℕ) : Prop :=
  (¬ s.ProbeLeaks workingDirectory fullpath answers ∧ leaked = []) ∨
    s.ProbeLeaks workingDirectory fullpath answers ∧ leaked = [block]

theorem probe_cases (h : s.probe workingDirectory fullpath answers = some (found, s')) :
    (found = true ↔ s.ProbeFinds workingDirectory fullpath answers) ∧
      ∃ leaked next, s.Leaked workingDirectory fullpath answers s.next leaked ∧
        s.next ≤ next ∧ (∀ block ∈ leaked, block < next) ∧
        s' = { s with live := leaked ++ s.live, next := next } := by
  unfold probe at h
  split at h
  · next hspecial =>
    obtain ⟨rfl, rfl⟩ := Prod.mk.inj (Option.some.inj h)
    refine ⟨iff_of_true rfl ?_, [], s.next, .inl ⟨fun hl => ?_, rfl⟩, Nat.le_refl _, by simp, rfl⟩
    · rcases hspecial with hroot | hdev
      · exact .inl hroot
      · exact .inr (.inl hdev)
    · exact hspecial.elim hl.1 hl.2.1
  · next hspecial =>
    obtain ⟨hroot, hdev⟩ := not_or.mp hspecial
    obtain ⟨⟨result, fd, calls⟩, hopen, h⟩ := Option.bind_eq_some_iff.mp h
    have hsame : ∀ {result₁ fd₁ calls₁}, dfsFileOpen s.filesystems workingDirectory answers.probe
        answers.stack fullpath dfsODirectory = some (result₁, fd₁, calls₁) →
        result₁ = result ∧ fd₁ = fd := by
      intro result₁ fd₁ calls₁ hopen₁
      rw [hopen, Option.some.injEq, Prod.mk.injEq, Prod.mk.injEq] at hopen₁
      exact ⟨hopen₁.1.symm, hopen₁.2.1.symm⟩
    dsimp only at h
    split at h
    · next hneg =>
      obtain ⟨rfl, rfl⟩ := Prod.mk.inj (Option.some.inj h)
      refine ⟨iff_of_false (by decide) ?_, [], s.next, .inl ⟨?_, rfl⟩, Nat.le_refl _, by simp, rfl⟩
      · rintro (hr | hd | ⟨result₁, fd₁, calls₁, hopen₁, hpos⟩)
        · exact hroot hr
        · exact hdev hd
        · rw [(hsame hopen₁).1] at hpos
          omega
      · rintro ⟨-, -, result₁, fd₁, calls₁, hopen₁, hpos, -⟩
        rw [(hsame hopen₁).1] at hpos
        omega
    · next hpos =>
      have hfinds : s.ProbeFinds workingDirectory fullpath answers :=
        .inr (.inr ⟨result, fd, calls, hopen, by omega⟩)
      obtain ⟨⟨result', fd', calls'⟩, hclose, h⟩ := Option.map_eq_some_iff.mp h
      have hleaks : s.ProbeLeaks workingDirectory fullpath answers ↔ fd'.path ≠ none := by
        constructor
        · rintro ⟨-, -, result₁, fd₁, calls₁, hopen₁, -, result₂, fd₂, calls₂, hclose₂, hpath⟩
          rw [(hsame hopen₁).2, hclose, Option.some.injEq, Prod.mk.injEq, Prod.mk.injEq] at hclose₂
          rwa [hclose₂.2.1]
        · intro hpath
          exact ⟨hroot, hdev, result, fd, calls, hopen, by omega, result', fd', calls', hclose,
            hpath⟩
      dsimp only at h
      split at h
      · next hnone =>
        obtain ⟨rfl, rfl⟩ := Prod.mk.inj h
        have hno := mt hleaks.mp (not_not_intro (dfsFileClose_path hclose hnone))
        exact ⟨iff_of_true rfl hfinds, [], s.next, .inl ⟨hno, rfl⟩, Nat.le_refl _, by simp, rfl⟩
      · obtain ⟨rfl, rfl⟩ := Prod.mk.inj h
        refine ⟨iff_of_true rfl hfinds, ?_⟩
        split
        · next hnone =>
          refine ⟨[], s.next + 1, .inl ⟨mt hleaks.mp (not_not_intro hnone), rfl⟩, Nat.le_succ _,
            by simp, ?_⟩
          simp [alloc, free]
        · next hkept =>
          exact ⟨[s.next], s.next + 1, .inr ⟨hleaks.mpr hkept, rfl⟩, Nat.le_succ _, by simp, rfl⟩

/-! ## The ways through a mount -/

/-- The devices behind `openDevice`, and whether it has succeeded. -/
inductive DeviceOpened (devices : List (List Char × Device Unit)) (r : DriverResults) :
    Option ℕ → Bool → List (List Char × Device Unit) → Prop
  | noDevice : DeviceOpened devices r none true devices
  | device {i : ℕ} {name : List Char} {dev dev' : Device Unit} {ret : OpenReturn}
      (hi : devices[i]? = some (name, dev))
      (hopen : dev.rtDeviceOpen r.ops rtDeviceOflagRdwr = some (ret, dev')) :
      DeviceOpened devices r (some i) (ret.result = rtEok) (devices.set i (name, dev'))

inductive DeviceClosed (devices : List (List Char × Device Unit)) (r : DriverResults) :
    Option ℕ → List (List Char × Device Unit) → Prop
  | noDevice : DeviceClosed devices r none devices
  | device {i : ℕ} {name : List Char} {dev dev' : Device Unit} {result : ℤ}
      (hi : devices[i]? = some (name, dev)) (hclose : dev.rtDeviceClose r.ops = some (result, dev')) :
      DeviceClosed devices r (some i) (devices.set i (name, dev'))

theorem openDevice_cases {r : DriverResults} {dev : Option ℕ} {opened : Bool}
    (h : s.openDevice r dev = some (opened, s')) : ∃ devices,
      s' = { s with devices := devices } ∧ DeviceOpened s.devices r dev opened devices := by
  cases dev with
  | none =>
    obtain ⟨rfl, rfl⟩ := Prod.mk.inj (Option.some.inj h)
    exact ⟨_, rfl, .noDevice⟩
  | some i =>
    obtain ⟨⟨name, dev⟩, hi, h⟩ := Option.bind_eq_some_iff.mp h
    obtain ⟨⟨ret, dev'⟩, hopen, h⟩ := Option.map_eq_some_iff.mp h
    obtain ⟨rfl, rfl⟩ := Prod.mk.inj h
    exact ⟨_, rfl, .device hi hopen⟩

theorem closeDevice_cases {r : DriverResults} {dev : Option ℕ}
    (h : s.closeDevice r dev = some s') : ∃ devices,
      s' = { s with devices := devices } ∧ DeviceClosed s.devices r dev devices := by
  cases dev with
  | none =>
    obtain rfl := Option.some.inj h
    exact ⟨_, rfl, .noDevice⟩
  | some i =>
    obtain ⟨⟨name, dev⟩, hi, h⟩ := Option.bind_eq_some_iff.mp h
    obtain ⟨⟨result, dev'⟩, hclose, rfl⟩ := Option.map_eq_some_iff.mp h
    exact ⟨_, rfl, .device hi hclose⟩

/-- How a mount ends that has its device, its type and its path, in the block `s.next`. -/
inductive MountCase (s : MountSystem) (workingDirectory : List Char) (dev : Option ℕ)
    (path fullpath : List Char) (ops : FilesystemOperation) (answers : MountAnswers) :
    ℤ → MountSystem → Prop
  | unfound {next : ℕ} (hfinds : ¬ s.ProbeFinds workingDirectory fullpath answers)
      (hnext : s.next ≤ next) :
      MountCase s workingDirectory dev path fullpath ops answers (-1) { s with next := next }
  | unplaced {next : ℕ} {leaked : List ℕ} (hfinds : s.ProbeFinds workingDirectory fullpath answers)
      (hleaked : s.Leaked workingDirectory fullpath answers (s.next + 1) leaked)
      (hnext : s.next ≤ next) (hlt : ∀ block ∈ leaked, block < next)
      (hsearch : ∀ fs, searchEntry path s.entries 0 none ≠ some (some fs)) :
      MountCase s workingDirectory dev path fullpath ops answers (-1)
        { s with live := leaked ++ s.live, next := next }
  | failed {next fs : ℕ} {leaked : List ℕ} {devices : List (List Char × Device Unit)}
      (hfinds : s.ProbeFinds workingDirectory fullpath answers)
      (hleaked : s.Leaked workingDirectory fullpath answers (s.next + 1) leaked)
      (hnext : s.next ≤ next) (hlt : ∀ block ∈ leaked, block < next)
      (hsearch : searchEntry path s.entries 0 none = some (some fs))
      (hdevices : DeviceOpened s.devices answers.device dev false devices ∨
        answers.mount < 0 ∧ ∃ opened, DeviceOpened s.devices answers.device dev true opened ∧
          DeviceClosed opened answers.device dev devices) :
      MountCase s workingDirectory dev path fullpath ops answers (-1)
        { entries := s.entries.set fs .zero
          devices := devices
          live := leaked ++ s.live
          next := next }
  | mounted {next fs : ℕ} {leaked : List ℕ} {devices : List (List Char × Device Unit)}
      (hfinds : s.ProbeFinds workingDirectory fullpath answers)
      (hleaked : s.Leaked workingDirectory fullpath answers (s.next + 1) leaked)
      (hnext : s.next < next) (hlt : ∀ block ∈ leaked, block < next)
      (hsearch : searchEntry path s.entries 0 none = some (some fs))
      (hdevices : DeviceOpened s.devices answers.device dev true devices)
      (hmount : 0 ≤ answers.mount) :
      MountCase s workingDirectory dev path fullpath ops answers 0
        { entries := s.entries.set fs ⟨dev, some (s.next, fullpath), some ops⟩
          devices := devices
          live := leaked ++ s.next :: s.live
          next := next }

/-- The block of the path is not one that is leaked. -/
theorem Leaked.erase {leaked : List ℕ} {block : ℕ} (live : List ℕ)
    (h : s.Leaked workingDirectory fullpath answers (block + 1) leaked) :
    (leaked ++ block :: live).erase block = leaked ++ live := by
  obtain ⟨-, rfl⟩ | ⟨-, rfl⟩ := h
  · simp
  · simp

/-- The call has found the device, the type and the path. -/
structure Starts (s : MountSystem) (types : List (Option FilesystemOperation))
    (workingDirectory : List Char) (deviceName : Option (List Char)) (path type : List Char)
    (answers : MountAnswers) (dev : Option ℕ) (ops : FilesystemOperation) (fullpath : List Char) :
    Prop where
  device : s.findDevice deviceName = some dev
  type : findType types type = some (.found ops)
  text : normalizedText workingDirectory path answers.memory = some (some fullpath)

theorem findType_failed {types : List (Option FilesystemOperation)} {type : List Char}
    {errno : ℤ} (h : findType types type = some (.failed result errno)) : result = -1 := by
  obtain ⟨found, -, h⟩ := Option.map_eq_some_iff.mp h
  cases found with
  | none => exact (TypeFound.failed.inj h).1.symm
  | some ops =>
    dsimp only at h
    split at h
    · contradiction
    · exact (TypeFound.failed.inj h).1.symm

/-- The device and the driver, once the entry is found. -/
theorem mountOn_cases {dev : Option ℕ} {ops : FilesystemOperation} {next fs : ℕ} {leaked : List ℕ}
    (hfinds : s.ProbeFinds workingDirectory fullpath answers)
    (hleaked : s.Leaked workingDirectory fullpath answers (s.next + 1) leaked)
    (hnext : s.next < next) (hlt : ∀ block ∈ leaked, block < next)
    (hsearch : searchEntry path s.entries 0 none = some (some fs))
    (h : mountOn { s with live := leaked ++ s.next :: s.live, next := next } fs dev s.next fullpath
      ops answers = some (result, s')) :
    MountCase s workingDirectory dev path fullpath ops answers result s' := by
  have hlive := hleaked.erase s.live
  obtain ⟨⟨opened, s₂⟩, hopen, h⟩ := Option.bind_eq_some_iff.mp h
  obtain ⟨devices, rfl, hdevices⟩ := openDevice_cases hopen
  simp only [setEntry, free, List.set_set, hlive] at h hdevices
  split at h
  · next hopened =>
    subst hopened
    split at h
    · next hmount =>
      obtain ⟨s₃, hclose, h⟩ := Option.map_eq_some_iff.mp h
      obtain ⟨devices', rfl, hdevices'⟩ := closeDevice_cases hclose
      simp only [List.set_set, hlive] at h
      obtain ⟨rfl, rfl⟩ := Prod.mk.inj h
      exact .failed hfinds hleaked (Nat.le_of_lt hnext) hlt hsearch
        (.inr ⟨hmount, devices, hdevices, hdevices'⟩)
    · next hmount =>
      obtain ⟨rfl, rfl⟩ := Prod.mk.inj (Option.some.inj h)
      exact .mounted hfinds hleaked hnext hlt hsearch hdevices (not_lt.mp hmount)
  · next hopened =>
    obtain ⟨rfl, rfl⟩ := Prod.mk.inj (Option.some.inj h)
    rw [eq_false_of_ne_true hopened] at hdevices
    exact .failed hfinds hleaked (Nat.le_of_lt hnext) hlt hsearch (.inl hdevices)

theorem dfsMount_cases {types : List (Option FilesystemOperation)}
    {deviceName : Option (List Char)} {type : List Char}
    (h : dfsMount types s workingDirectory deviceName path type answers = some (result, s')) :
    (result = -1 ∧ s' = s ∧
      ¬ ∃ dev ops fullpath,
        s.Starts types workingDirectory deviceName path type answers dev ops fullpath) ∨
    ∃ dev ops fullpath,
      s.Starts types workingDirectory deviceName path type answers dev ops fullpath ∧
        MountCase s workingDirectory dev path fullpath ops answers result s' := by
  unfold dfsMount at h
  split at h
  · next hdevice =>
    obtain ⟨rfl, rfl⟩ := Prod.mk.inj (Option.some.inj h)
    refine .inl ⟨rfl, rfl, ?_⟩
    rintro ⟨dev, ops, fullpath, hstarts⟩
    rw [hstarts.device] at hdevice
    contradiction
  · next dev hdevice =>
    obtain ⟨found, htype, h⟩ := Option.bind_eq_some_iff.mp h
    cases found with
    | failed result' errno =>
      obtain ⟨rfl, rfl⟩ := Prod.mk.inj (Option.some.inj h)
      refine .inl ⟨findType_failed htype, rfl, ?_⟩
      rintro ⟨dev, ops, fullpath, hstarts⟩
      simp [hstarts.type] at htype
    | found ops =>
      obtain ⟨text, htext, h⟩ := Option.bind_eq_some_iff.mp h
      cases text with
      | none =>
        obtain ⟨rfl, rfl⟩ := Prod.mk.inj (Option.some.inj h)
        refine .inl ⟨rfl, rfl, ?_⟩
        rintro ⟨dev, ops, fullpath, hstarts⟩
        rw [hstarts.text] at htext
        simp at htext
      | some fullpath =>
        refine .inr ⟨dev, ops, fullpath, ⟨hdevice, htype, htext⟩, ?_⟩
        obtain ⟨⟨found, s₁⟩, hprobe, h⟩ := Option.bind_eq_some_iff.mp h
        obtain ⟨hfinds, leaked, next, hleaked, hnext, hlt, rfl⟩ := probe_cases hprobe
        change found = true ↔ s.ProbeFinds workingDirectory fullpath answers at hfinds
        change s.Leaked workingDirectory fullpath answers (s.next + 1) leaked at hleaked
        have hnext : s.next + 1 ≤ next := hnext
        have hlive := hleaked.erase s.live
        dsimp only at h
        split at h
        · next hfound =>
          have hfinds := hfinds.mp hfound
          split at h
          · next fs hsearch => exact mountOn_cases hfinds hleaked hnext hlt hsearch h
          · next hsearch =>
            obtain ⟨rfl, rfl⟩ := Prod.mk.inj (Option.some.inj h)
            rw [free, hlive]
            exact .unplaced hfinds hleaked (Nat.le_of_lt hnext) hlt hsearch
        · next hfound =>
          obtain ⟨rfl, rfl⟩ := Prod.mk.inj (Option.some.inj h)
          have hno : ¬ s.ProbeFinds workingDirectory fullpath answers := fun hf =>
            hfound (hfinds.mpr hf)
          obtain ⟨-, rfl⟩ | ⟨hleaks, -⟩ := hleaked
          · rw [free, hlive]
            exact .unfound hno (Nat.le_of_lt hnext)
          · exact absurd hleaks.finds hno

/-! ## The ways through an unmount -/

/-- The call finds entry `fs`, whose driver lets go of it. -/
structure Unmounts (s : MountSystem) (workingDirectory specialfile : List Char)
    (answers : UnmountAnswers) (fs : ℕ) (fullpath : List Char) : Prop where
  text : normalizedText workingDirectory specialfile answers.memory = some (some fullpath)
  entry : s.entries.findIdx? (fun entry => entry.text = some fullpath) = some fs
  driver : ∀ entry ops, s.entries[fs]? = some entry → entry.ops = some ops →
    ops.hasUnmount = true
  result : 0 ≤ answers.unmount

inductive UnmountCase (s : MountSystem) (workingDirectory specialfile : List Char)
    (answers : UnmountAnswers) : ℤ → MountSystem → Prop
  | failed {next : ℕ}
      (h : ¬ ∃ fs fullpath, s.Unmounts workingDirectory specialfile answers fs fullpath) :
      UnmountCase s workingDirectory specialfile answers (-1) { s with next := next }
  | unmounted {next fs : ℕ} {live : List ℕ} {fullpath : List Char}
      {devices : List (List Char × Device Unit)} {entry : MountEntry}
      (h : s.Unmounts workingDirectory specialfile answers fs fullpath)
      (hentry : s.entries[fs]? = some entry)
      (hdevices : DeviceClosed s.devices answers.device entry.devId devices) :
      UnmountCase s workingDirectory specialfile answers 0
        { entries := s.entries.set fs .zero, devices := devices, live := live, next := next }

theorem dfsUnmount_cases {specialfile : List Char} {a : UnmountAnswers}
    (h : s.dfsUnmount workingDirectory specialfile a = some (result, s')) :
    UnmountCase s workingDirectory specialfile a result s' := by
  obtain ⟨text, htext, h⟩ := Option.bind_eq_some_iff.mp h
  cases text with
  | none =>
    obtain ⟨rfl, rfl⟩ := Prod.mk.inj (Option.some.inj h)
    refine .failed ?_
    rintro ⟨fs, fullpath, hunmounts⟩
    have := hunmounts.text
    simp [htext] at this
  | some fullpath =>
    have hsame : ∀ {fs fullpath'}, s.Unmounts workingDirectory specialfile a fs fullpath' →
        fullpath' = fullpath := fun hunmounts =>
      Option.some.inj (Option.some.inj (hunmounts.text.symm.trans htext))
    have herase : (s.next :: s.live).erase s.next = s.live := by simp
    simp only [alloc, free, herase] at h
    split at h
    · next hnone =>
      obtain ⟨rfl, rfl⟩ := Prod.mk.inj (Option.some.inj h)
      refine .failed ?_
      rintro ⟨fs, fullpath', hunmounts⟩
      have hentry := hunmounts.entry
      rw [hsame hunmounts, hnone] at hentry
      contradiction
    · next fs hfs =>
      obtain ⟨entry, hentry, h⟩ := Option.bind_eq_some_iff.mp h
      obtain ⟨ops, hops, h⟩ := Option.bind_eq_some_iff.mp h
      split at h
      · next hrefused =>
        obtain ⟨rfl, rfl⟩ := Prod.mk.inj (Option.some.inj h)
        refine .failed ?_
        rintro ⟨fs', fullpath', hunmounts⟩
        have hentry' := hunmounts.entry
        rw [hsame hunmounts, hfs, Option.some.injEq] at hentry'
        subst hentry'
        have hhas := hunmounts.driver entry ops hentry hops
        have hresult := hunmounts.result
        rcases hrefused with hno | hneg
        · rw [hhas] at hno
          contradiction
        · omega
      · next hok =>
        obtain ⟨hhas, hresult⟩ := not_or.mp hok
        obtain ⟨s₁, hclose, h⟩ := Option.map_eq_some_iff.mp h
        obtain ⟨devices, rfl, hdevices⟩ := closeDevice_cases hclose
        obtain ⟨rfl, rfl⟩ := Prod.mk.inj h
        have hunmounts : s.Unmounts workingDirectory specialfile a fs fullpath := by
          refine ⟨htext, hfs, fun entry' ops' hentry' hops' => ?_, by omega⟩
          obtain rfl := Option.some.inj (hentry.symm.trans hentry')
          obtain rfl := Option.some.inj (hops.symm.trans hops')
          simpa using hhas
        cases entry.path with
        | none => exact .unmounted hunmounts hentry hdevices
        | some path => exact .unmounted hunmounts hentry hdevices

end
end MountSystem
end RtThread
