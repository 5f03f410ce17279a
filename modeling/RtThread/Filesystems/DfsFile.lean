import RtThread.Filesystems.DfsFd

/-!
# Operations on paths

`dfs_file_open`, `dfs_file_unlink`, `dfs_file_stat` and `dfs_file_rename` normalise their paths,
look up the filesystem and call its driver. A result is `none` when the code goes through a null
pointer or outside a buffer; otherwise it comes with the calls that the driver has got.
-/
namespace RtThread
open SlashPath

def dfsFOpen : BitVec 32 := 0x01000000
def dfsFDirectory : BitVec 32 := 0x02000000
def dfsODirectory : BitVec 32 := 0x0200000

/-- The operations on one path that a driver has. -/
inductive PathOp where
  | openFile (flags : BitVec 32)
  | unlink
  | stat
  deriving DecidableEq

def FilesystemOperation.has (ops : FilesystemOperation) : PathOp → Bool
  | .openFile _ => ops.hasOpen
  | .unlink => ops.hasUnlink
  | .stat => ops.hasStat

/-- A call of a function of a driver, with the address of the filesystem. -/
inductive DriverCall where
  | onPath (op : PathOp) (fs : ℕ) (path : Option (List Char))
  | close (fs : ℕ) (path : Option (List Char))
  | rename (fs : ℕ) (oldpath newpath : Option (List Char))
  deriving DecidableEq

/-- Whether the allocations of a call get memory, in their order, and what the driver answers. -/
structure Answers where
  memory : ℕ → Bool
  driver : DriverCall → ℤ

section
variable (table : List (DfsFilesystem FilesystemOperation)) (workingDirectory : List Char)
  (answers : Answers)

/-- `fd->path` when the driver is called: the whole path or a copy of a part of it. -/
def openedPath (fs : MountPoint) (fullpath : List Char) : Option (List Char) :=
  if fs.ops.fullpath then some fullpath
  else if answers.memory 1 then some ((dfsSubdir fs.path fullpath).getD ['/'])
  else none

/-- The descriptor behind a successful open. -/
def openedFd (fd : DfsFd) (flags : BitVec 32) : DfsFd :=
  let fd := { fd with flags := fd.flags ||| dfsFOpen }
  if flags &&& dfsODirectory ≠ 0 then
    { fd with type := ftDirectory, flags := fd.flags ||| dfsFDirectory }
  else fd

/-- The descriptor is not `RT_NULL` for the callers in the repository. -/
def dfsFileOpen (fd : DfsFd) (pathname : List Char) (flags : BitVec 32) :
    Option (ℤ × DfsFd × List DriverCall) :=
  (normalizedText workingDirectory pathname (answers.memory 0)).bind fun
    | none => some (-1, fd, [])
    | some fullpath =>
      match mountPoint table fullpath with
      | none => some (-dfsStatusEnoent, fd, [])
      | some fs =>
        let fd := { fd with
          fs := some fs.address
          type := ftRegular
          flags := flags
          size := 0
          pos := 0
          path := openedPath answers fs fullpath }
        if fs.ops.hasOpen then
          let call := .onPath (.openFile flags) fs.address fd.path
          let result := answers.driver call
          if result < 0 then some (result, { fd with path := none }, [call])
          else some (0, openedFd fd flags, [call])
        else some (-dfsStatusEnosys, { fd with path := none }, [])

/-- `none` goes through `fd->fs` or its operations when they are `RT_NULL`. -/
def dfsFileClose (fd : DfsFd) : Option (ℤ × DfsFd × List DriverCall) :=
  fd.fs.bind fun fs => table[fs]?.bind fun entry => entry.ops.map fun ops =>
    let calls := if ops.hasClose then [.close fs fd.path] else []
    let result := if ops.hasClose then answers.driver (.close fs fd.path) else 0
    if result < 0 then (result, fd, calls) else (result, { fd with path := none }, calls)

def dfsFileUnlink (fds : List DfsFd) (pathname : List Char) : Option (ℤ × List DriverCall) :=
  (normalizedText workingDirectory pathname (answers.memory 0)).bind fun
    | none => some (-dfsStatusEinval, [])
    | some fullpath =>
      match mountPoint table fullpath with
      | none => some (-dfsStatusEnoent, [])
      | some fs =>
        (fdIsOpen table fds workingDirectory fullpath (answers.memory 1)).bind fun isOpen =>
          if isOpen = 0 then some (-dfsStatusEbusy, [])
          else if fs.ops.hasUnlink then
            let call := .onPath .unlink fs.address
              (if fs.ops.fullpath then some fullpath
              else some ((dfsSubdir fs.path fullpath).getD ['/']))
            some (answers.driver call, [call])
          else some (-dfsStatusEnosys, [])

/-- The attributes of a mount point are those of a directory; the driver is not asked. -/
def dfsFileStat (pathname : List Char) : Option (ℤ × List DriverCall) :=
  (normalizedText workingDirectory pathname (answers.memory 0)).bind fun
    | none => some (-1, [])
    | some fullpath =>
      match mountPoint table fullpath with
      | none => some (-dfsStatusEnoent, [])
      | some fs =>
        if fullpath = ['/'] ∨ dfsSubdir fs.path fullpath = none then some (0, [])
        else if fs.ops.hasStat then
          let call := .onPath .stat fs.address
            (if fs.ops.fullpath then some fullpath else dfsSubdir fs.path fullpath)
          some (answers.driver call, [call])
        else some (-dfsStatusEnosys, [])

def dfsFileRename (oldpath newpath : List Char) : Option (ℤ × List DriverCall) :=
  (normalizedText workingDirectory oldpath (answers.memory 0)).bind fun
    | none => some (-dfsStatusEnoent, [])
    | some oldfullpath =>
      (normalizedText workingDirectory newpath (answers.memory 1)).bind fun
        | none => some (-dfsStatusEnoent, [])
        | some newfullpath =>
          match mountPoint table oldfullpath, mountPoint table newfullpath with
          | none, none => none -- equal pointers: `oldfs->ops` is read
          | some oldfs, some newfs =>
            if oldfs.address = newfs.address then
              if oldfs.ops.hasRename then
                let call :=
                  if oldfs.ops.fullpath then
                    .rename oldfs.address (some oldfullpath) (some newfullpath)
                  else
                    .rename oldfs.address (dfsSubdir oldfs.path oldfullpath)
                      (dfsSubdir newfs.path newfullpath)
                some (answers.driver call, [call])
              else some (-dfsStatusEnosys, [])
            else some (-dfsStatusExdev, [])
          | _, _ => some (-dfsStatusExdev, [])

end

/-! ## What a path operation is for -/

inductive PathCall where
  | onPath (op : PathOp) (pathname : CString)
  | rename (oldpath newpath : CString)

section
variable (table : MountTable FilesystemOperation) (workingDirectory : CString) (answers : Answers)
  (fds : List DfsFd) (fd : DfsFd)

def perform : PathCall → Option (ℤ × List DriverCall)
  | .onPath (.openFile flags) pathname =>
    (dfsFileOpen table.entries workingDirectory.text answers fd pathname.text flags).map
      fun (result, _, calls) => (result, calls)
  | .onPath .unlink pathname =>
    dfsFileUnlink table.entries workingDirectory.text answers fds pathname.text
  | .onPath .stat pathname =>
    dfsFileStat table.entries workingDirectory.text answers pathname.text
  | .rename oldpath newpath =>
    dfsFileRename table.entries workingDirectory.text answers oldpath.text newpath.text

/-- The names of the path, if it normalises. -/
def namesOf (pathname : CString) : Option (List (List Char)) :=
  target (joinedPath workingDirectory.text pathname.text)

/-- The path does not normalise, or no filesystem is mounted above it. -/
def Unmounted (memory : Bool) (pathname : CString) : Prop :=
  memory = false ∨ namesOf workingDirectory pathname = none ∨
    ∃ names, namesOf workingDirectory pathname = some names ∧ Unserved table.entries names

/-- What the driver of a filesystem is handed for a path. -/
def driverPath (fs : MountPoint) (names : List (List Char)) : List Char :=
  if fs.ops.fullpath then path names else belowMount fs names

/-- The operation is answered without the driver. -/
def Declined (op : PathOp) (fs : MountPoint) (names : List (List Char)) (result : ℤ) : Prop :=
  fs.ops.has op = false ∧ result < 0 ∨
    op = .unlink ∧ result < 0 ∧
      fdIsOpen table.entries fds workingDirectory.text (path names) (answers.memory 1) = some 0 ∨
    op = .stat ∧ result = 0 ∧ names = components fs.path

/-- What the function returns when the driver has been called. -/
def PathOp.returned (op : PathOp) (result : ℤ) : ℤ :=
  match op with
  | .openFile _ => if result < 0 then result else 0
  | _ => result

/-- The outcomes that a path operation may have. -/
inductive Outcome : PathCall → ℤ × List DriverCall → Prop
  | unmounted {op pathname result} (hresult : result < 0)
      (h : Unmounted table workingDirectory (answers.memory 0) pathname) :
      Outcome (.onPath op pathname) (result, [])
  | declined {op pathname names fs result}
      (hnames : namesOf workingDirectory pathname = some names)
      (hfs : Serves table.entries fs names)
      (h : Declined table workingDirectory answers fds op fs names result) :
      Outcome (.onPath op pathname) (result, [])
  | called {op pathname names fs call} (hnames : namesOf workingDirectory pathname = some names)
      (hfs : Serves table.entries fs names)
      (hcall : call = .onPath op fs.address (some (driverPath fs names))) :
      Outcome (.onPath op pathname) (op.returned (answers.driver call), [call])
  | renameUnmounted {oldpath newpath result} (hresult : result < 0)
      (h : Unmounted table workingDirectory (answers.memory 0) oldpath ∨
        Unmounted table workingDirectory (answers.memory 1) newpath) :
      Outcome (.rename oldpath newpath) (result, [])
  | renameElsewhere {oldpath newpath names names' fs fs'}
      (hnames : namesOf workingDirectory oldpath = some names)
      (hnames' : namesOf workingDirectory newpath = some names')
      (hfs : Serves table.entries fs names) (hfs' : Serves table.entries fs' names')
      (hne : fs ≠ fs') : Outcome (.rename oldpath newpath) (-dfsStatusExdev, [])
  | renameMissing {oldpath newpath names names' fs}
      (hnames : namesOf workingDirectory oldpath = some names)
      (hnames' : namesOf workingDirectory newpath = some names')
      (hfs : Serves table.entries fs names) (hfs' : Serves table.entries fs names')
      (h : fs.ops.hasRename = false) : Outcome (.rename oldpath newpath) (-dfsStatusEnosys, [])
  | renamed {oldpath newpath names names' fs call}
      (hnames : namesOf workingDirectory oldpath = some names)
      (hnames' : namesOf workingDirectory newpath = some names')
      (hfs : Serves table.entries fs names) (hfs' : Serves table.entries fs names')
      (hcall : call = .rename fs.address (some (driverPath fs names))
        (some (driverPath fs names'))) :
      Outcome (.rename oldpath newpath) (answers.driver call, [call])

/-- The call comes to an end, with one of the outcomes. -/
def Dispatches (call : PathCall) : Prop :=
  ∃ r, perform table workingDirectory answers fds fd call = some r ∧
    Outcome table workingDirectory answers fds call r

/-- The text that a path is normalised to. -/
def textOf (memory : Bool) (pathname : CString) : Option (Option (List Char)) :=
  normalizedText workingDirectory.text pathname.text memory

/-- When a path operation does its work. -/
def DispatchOk : PathCall → Prop
  | .onPath op pathname =>
    textOf workingDirectory (answers.memory 0) pathname ≠ none ∧
    ∀ fullpath fs, textOf workingDirectory (answers.memory 0) pathname = some (some fullpath) →
      mountPoint table.entries fullpath = some fs →
        match op with
        | .openFile _ =>
          fs.ops.hasOpen = true → fs.ops.fullpath = true ∨ answers.memory 1 = true
        | .unlink =>
          fdIsOpen table.entries fds workingDirectory.text fullpath (answers.memory 1) ≠ none
        | .stat => True
  | .rename oldpath newpath =>
    textOf workingDirectory (answers.memory 0) oldpath ≠ none ∧
    ∀ oldfullpath, textOf workingDirectory (answers.memory 0) oldpath = some (some oldfullpath) →
      textOf workingDirectory (answers.memory 1) newpath ≠ none ∧
      ∀ newfullpath, textOf workingDirectory (answers.memory 1) newpath = some (some newfullpath) →
        ¬ (mountPoint table.entries oldfullpath = none ∧
          mountPoint table.entries newfullpath = none) ∧
        ∀ fs, mountPoint table.entries oldfullpath = some fs →
          mountPoint table.entries newfullpath = some fs → fs.ops.hasRename = true →
            fs.ops.fullpath = false → oldfullpath ≠ fs.path ∧ newfullpath ≠ fs.path

end

/-- A close that the driver refuses changes nothing, any other one takes the path away. -/
theorem dfsFileClose_cases {table : List (DfsFilesystem FilesystemOperation)} {answers : Answers}
    {d d' : DfsFd} {result : ℤ} {calls : List DriverCall}
    (h : dfsFileClose table answers d = some (result, d', calls)) :
    (result < 0 ∧ d' = d) ∨ (¬ result < 0 ∧ d' = { d with path := none }) := by
  obtain ⟨fs, -, h⟩ := Option.bind_eq_some_iff.mp h
  obtain ⟨entry, -, h⟩ := Option.bind_eq_some_iff.mp h
  obtain ⟨ops, -, h⟩ := Option.map_eq_some_iff.mp h
  dsimp only at h
  by_cases hneg : (if ops.hasClose then answers.driver (.close fs d.path) else 0) < 0
  · rw [if_pos hneg] at h
    obtain ⟨rfl, rfl, -⟩ := by simpa only [Prod.mk.injEq] using h
    exact .inl ⟨hneg, rfl⟩
  · rw [if_neg hneg] at h
    obtain ⟨rfl, rfl, -⟩ := by simpa only [Prod.mk.injEq] using h
    exact .inr ⟨hneg, rfl⟩

/-! ## Where a path leads -/

section
variable {table : MountTable FilesystemOperation} {workingDirectory : CString}
  {memory : Bool} {pathname : CString}

/-- What is known of a path on a mounted filesystem. -/
structure OnMounted (table : MountTable FilesystemOperation) (workingDirectory : CString)
    (memory : Bool) (pathname : CString) (names : List (List Char)) (fs : MountPoint) : Prop where
  allocated : memory = true
  named : namesOf workingDirectory pathname = some names
  stack : ∀ c ∈ names, IsName c ∧ nul ∉ c
  text : textOf workingDirectory memory pathname = some (some (path names))
  lookup : mountPoint table.entries (path names) = some fs
  serves : Serves table.entries fs names

/-- What normalising a path and looking up its filesystem comes to. -/
inductive Located (table : MountTable FilesystemOperation) (workingDirectory : CString)
    (memory : Bool) (pathname : CString) : Prop
  | outside (htext : textOf workingDirectory memory pathname = none)
  | invalid (htext : textOf workingDirectory memory pathname = some none)
      (h : Unmounted table workingDirectory memory pathname)
  | unmounted {fullpath : List Char}
      (htext : textOf workingDirectory memory pathname = some (some fullpath))
      (hlookup : mountPoint table.entries fullpath = none)
      (h : Unmounted table workingDirectory memory pathname)
  | mounted {names : List (List Char)} {fs : MountPoint}
      (h : OnMounted table workingDirectory memory pathname names fs)

theorem located (table : MountTable FilesystemOperation) (workingDirectory : CString)
    (memory : Bool) (pathname : CString) : Located table workingDirectory memory pathname := by
  have hcase := normalizedText_case workingDirectory pathname memory
  generalize htext : normalizedText workingDirectory.text pathname.text memory = text at hcase
  cases hcase with
  | outside h => exact .outside htext
  | null h =>
    refine .invalid htext ?_
    cases memory with
    | false => exact .inl rfl
    | true => exact .inr (.inl (h rfl))
  | relative h hhead =>
    exact .unmounted htext (mountPoint_relative table hhead) (.inr (.inl h))
  | @absolute names hmemory h hstack =>
    obtain ⟨hnone, hunserved⟩ | ⟨fs, hsome, hserves⟩ := mountPoint_cases table hstack
    · exact .unmounted htext hnone (.inr (.inr ⟨names, h, hunserved⟩))
    · exact .mounted ⟨hmemory, h, hstack, htext, hsome, hserves⟩

/-- A text lies on a mounted filesystem or on none. -/
theorem located_text (table : MountTable FilesystemOperation) {fullpath : List Char}
    (htext : textOf workingDirectory memory pathname = some (some fullpath)) :
    (mountPoint table.entries fullpath = none ∧ Unmounted table workingDirectory memory pathname) ∨
      ∃ names fs, fullpath = path names ∧
        OnMounted table workingDirectory memory pathname names fs := by
  cases located table workingDirectory memory pathname with
  | outside hnone | invalid hnone =>
    rw [htext] at hnone
    cases hnone
  | unmounted htext' hlookup h =>
    obtain rfl := Option.some.inj (Option.some.inj (htext'.symm.trans htext))
    exact .inl ⟨hlookup, h⟩
  | mounted h =>
    obtain rfl := Option.some.inj (Option.some.inj (h.text.symm.trans htext))
    exact .inr ⟨_, _, rfl, h⟩

theorem unmounted_of_null (htext : textOf workingDirectory memory pathname = some none) :
    Unmounted table workingDirectory memory pathname := by
  cases located table workingDirectory memory pathname with
  | invalid _ h => exact h
  | outside hother | unmounted hother =>
    rw [htext] at hother
    cases hother
  | mounted h =>
    have hother := h.text
    rw [htext] at hother
    cases hother

theorem OnMounted.same {names : List (List Char)} {fs fs' : MountPoint} {fullpath : List Char}
    (h : OnMounted table workingDirectory memory pathname names fs)
    (htext : textOf workingDirectory memory pathname = some (some fullpath))
    (hlookup : mountPoint table.entries fullpath = some fs') : fullpath = path names ∧ fs' = fs := by
  obtain rfl := Option.some.inj (Option.some.inj (htext.symm.trans h.text))
  exact ⟨rfl, Option.some.inj (hlookup.symm.trans h.lookup)⟩

/-- A driver that gets no full path is handed what is below the mount point. -/
theorem Serves.driverPath_eq {fs : MountPoint} {names : List (List Char)}
    (h : Serves table.entries fs names) (hstack : ∀ c ∈ names, IsName c ∧ nul ∉ c) :
    (if fs.ops.fullpath then path names else (dfsSubdir fs.path (path names)).getD ['/']) =
      driverPath fs names := by
  have hsubdir := h.subdir_eq fun c hc => (hstack c hc).1
  have hbelow : (dfsSubdir fs.path (path names)).getD ['/'] = belowMount fs names := by
    rw [hsubdir]
    split
    · next he => rw [belowMount, he, List.drop_length]; rfl
    · rfl
  rw [hbelow, driverPath]

/-- The path is the mount point itself exactly if `dfs_subdir` gives nothing. -/
theorem Serves.at_mount {fs : MountPoint} {names : List (List Char)}
    (h : Serves table.entries fs names) (hstack : ∀ c ∈ names, IsName c ∧ nul ∉ c) :
    path names = fs.path ↔ names = components fs.path := by
  obtain ⟨hmount, hcomponents⟩ := h.mount_path
  constructor
  · intro he
    rw [← he, components_path fun c hc => (hstack c hc).1]
  · intro he
    rw [he, ← hmount]

end

/-! ## The operations -/

section
variable {table : MountTable FilesystemOperation} {workingDirectory : CString} {answers : Answers}
  {fds : List DfsFd} {fd : DfsFd} {op : PathOp} {pathname : CString}

/-- A call that goes through a null pointer or outside a buffer has no outcome. -/
theorem not_dispatches {call : PathCall}
    (h : perform table workingDirectory answers fds fd call = none) :
    ¬ Dispatches table workingDirectory answers fds fd call := by
  rintro ⟨r, hr, -⟩
  rw [h] at hr
  contradiction

theorem perform_outside (htext : textOf workingDirectory (answers.memory 0) pathname = none) :
    perform table workingDirectory answers fds fd (.onPath op pathname) = none := by
  unfold textOf at htext
  cases op with
  | openFile flags => simp [perform, dfsFileOpen, htext]
  | unlink => simp [perform, dfsFileUnlink, htext]
  | stat => simp [perform, dfsFileStat, htext]

theorem perform_invalid (htext : textOf workingDirectory (answers.memory 0) pathname = some none) :
    ∃ result < 0, perform table workingDirectory answers fds fd (.onPath op pathname) =
      some (result, []) := by
  unfold textOf at htext
  cases op with
  | openFile flags => exact ⟨-1, by decide, by simp [perform, dfsFileOpen, htext]⟩
  | unlink => exact ⟨-dfsStatusEinval, by decide, by simp [perform, dfsFileUnlink, htext]⟩
  | stat => exact ⟨-1, by decide, by simp [perform, dfsFileStat, htext]⟩

theorem perform_unmounted {fullpath : List Char}
    (htext : textOf workingDirectory (answers.memory 0) pathname = some (some fullpath))
    (hlookup : mountPoint table.entries fullpath = none) :
    ∃ result < 0, perform table workingDirectory answers fds fd (.onPath op pathname) =
      some (result, []) := by
  unfold textOf at htext
  refine ⟨-dfsStatusEnoent, by decide, ?_⟩
  cases op with
  | openFile flags => simp [perform, dfsFileOpen, htext, hlookup]
  | unlink => simp [perform, dfsFileUnlink, htext, hlookup]
  | stat => simp [perform, dfsFileStat, htext, hlookup]

/-- Any outcome of a path on a mounted filesystem is the one of that filesystem. -/
theorem Outcome.on_mounted {names : List (List Char)} {fs : MountPoint}
    {r : ℤ × List DriverCall}
    (h : Outcome table workingDirectory answers fds (.onPath op pathname) r)
    (hmemory : answers.memory 0 = true)
    (hnames : namesOf workingDirectory pathname = some names)
    (hfs : Serves table.entries fs names) :
    (∃ result, r = (result, []) ∧
      Declined table workingDirectory answers fds op fs names result) ∨
    ∃ result, r = (result, [.onPath op fs.address (some (driverPath fs names))]) := by
  cases h with
  | unmounted hresult h =>
    obtain hmem | hnone | ⟨names', hnames', hunserved⟩ := h
    · rw [hmemory] at hmem
      contradiction
    · rw [hnames] at hnone
      contradiction
    · obtain rfl := Option.some.inj (hnames.symm.trans hnames')
      have hentry := List.mem_of_getElem? hfs.entry
      exact absurd hfs.covers (hunserved _ hentry fs.path ⟨rfl, by simp⟩)
  | declined hnames' hfs' h =>
    obtain rfl := Option.some.inj (hnames.symm.trans hnames')
    obtain rfl := hfs.unique hfs'
    exact .inl ⟨_, rfl, h⟩
  | called hnames' hfs' hcall =>
    obtain rfl := Option.some.inj (hnames.symm.trans hnames')
    obtain rfl := hfs.unique hfs'
    exact .inr ⟨_, by rw [hcall]⟩

variable {names : List (List Char)} {fs : MountPoint}

theorem openedPath_eq (hfs : Serves table.entries fs names)
    (hstack : ∀ c ∈ names, IsName c ∧ nul ∉ c) :
    openedPath answers fs (path names) =
      if fs.ops.fullpath = true ∨ answers.memory 1 = true then some (driverPath fs names)
      else none := by
  rw [← hfs.driverPath_eq hstack, openedPath]
  cases fs.ops.fullpath <;> cases answers.memory 1 <;> rfl

theorem perform_open {flags : BitVec 32}
    (h : OnMounted table workingDirectory (answers.memory 0) pathname names fs) :
    perform table workingDirectory answers fds fd (.onPath (.openFile flags) pathname) =
      some (if fs.ops.hasOpen then
          ((PathOp.openFile flags).returned (answers.driver
            (.onPath (.openFile flags) fs.address (openedPath answers fs (path names)))),
          [.onPath (.openFile flags) fs.address (openedPath answers fs (path names))])
        else (-dfsStatusEnosys, [])) := by
  have htext := h.text
  unfold textOf at htext
  simp only [perform, dfsFileOpen, htext, Option.bind_some, h.lookup, PathOp.returned]
  split
  · split <;> rfl
  · rfl

theorem dispatches_open {flags : BitVec 32}
    (h : OnMounted table workingDirectory (answers.memory 0) pathname names fs) :
    Dispatches table workingDirectory answers fds fd (.onPath (.openFile flags) pathname) ↔
      (fs.ops.hasOpen = true → fs.ops.fullpath = true ∨ answers.memory 1 = true) := by
  rw [Dispatches, perform_open h, openedPath_eq h.serves h.stack]
  constructor
  · rintro ⟨r, hr, hout⟩ hopen
    rw [if_pos hopen] at hr
    obtain rfl := Option.some.inj hr
    by_contra hno
    rw [if_neg hno] at hout
    obtain ⟨result, hr, -⟩ | ⟨result, hr⟩ := hout.on_mounted h.allocated h.named h.serves
    · simp at hr
    · simp at hr
  · intro hmem
    refine ⟨_, rfl, ?_⟩
    by_cases hopen : fs.ops.hasOpen = true
    · rw [if_pos hopen, if_pos (hmem hopen)]
      exact .called h.named h.serves rfl
    · rw [if_neg hopen]
      exact .declined h.named h.serves (.inl ⟨eq_false_of_ne_true hopen, by decide⟩)

theorem perform_unlink
    (h : OnMounted table workingDirectory (answers.memory 0) pathname names fs) :
    perform table workingDirectory answers fds fd (.onPath .unlink pathname) =
      (fdIsOpen table.entries fds workingDirectory.text (path names) (answers.memory 1)).bind
        fun isOpen => some
          (if isOpen = 0 then (-dfsStatusEbusy, [])
          else if fs.ops.hasUnlink then
            (answers.driver (.onPath .unlink fs.address (some (driverPath fs names))),
              [.onPath .unlink fs.address (some (driverPath fs names))])
          else (-dfsStatusEnosys, [])) := by
  have htext := h.text
  unfold textOf at htext
  simp only [perform, dfsFileUnlink, htext, Option.bind_some, h.lookup]
  rw [← h.serves.driverPath_eq h.stack]
  congr 1
  funext isOpen
  split
  · rfl
  · split
    · split <;> rfl
    · rfl

theorem dispatches_unlink
    (h : OnMounted table workingDirectory (answers.memory 0) pathname names fs) :
    Dispatches table workingDirectory answers fds fd (.onPath .unlink pathname) ↔
      fdIsOpen table.entries fds workingDirectory.text (path names) (answers.memory 1) ≠ none := by
  rw [Dispatches, perform_unlink h]
  cases hopen : fdIsOpen table.entries fds workingDirectory.text (path names)
    (answers.memory 1) with
  | none => simp
  | some isOpen =>
    refine iff_of_true ⟨_, rfl, ?_⟩ (Option.some_ne_none _)
    split
    · next hzero =>
      exact .declined h.named h.serves (.inr (.inl ⟨rfl, by decide, by rw [hopen, hzero]⟩))
    · split
      · exact .called h.named h.serves rfl
      · next hhas =>
        exact .declined h.named h.serves (.inl ⟨eq_false_of_ne_true hhas, by decide⟩)

theorem dispatches_stat
    (h : OnMounted table workingDirectory (answers.memory 0) pathname names fs) :
    Dispatches table workingDirectory answers fds fd (.onPath .stat pathname) := by
  have htext := h.text
  unfold textOf at htext
  have hstack : ∀ c ∈ names, IsName c := fun c hc => (h.stack c hc).1
  have hsubdir := h.serves.subdir_eq hstack
  rw [Dispatches]
  simp only [perform, dfsFileStat, htext, Option.bind_some, h.lookup]
  by_cases hmount : names = components fs.path
  · rw [if_pos (.inr (hsubdir.trans (if_pos hmount)))]
    exact ⟨_, rfl, .declined h.named h.serves (.inr (.inr ⟨rfl, rfl, hmount⟩))⟩
  · rw [if_neg hmount] at hsubdir
    have hroot : path names ≠ ['/'] := by
      intro hroot
      have hempty : names = [] := path_injective hstack (by simp) hroot
      have hcovers := h.serves.covers
      rw [hempty, List.prefix_nil] at hcovers
      exact hmount (hempty.trans hcovers.symm)
    rw [if_neg (by simp [hroot, hsubdir]), hsubdir]
    split
    · refine ⟨_, rfl, .called h.named h.serves ?_⟩
      rw [driverPath]
      split <;> rfl
    · next hhas =>
      exact ⟨_, rfl, .declined h.named h.serves (.inl ⟨eq_false_of_ne_true hhas, by decide⟩)⟩

theorem dispatches_onPath : Dispatches table workingDirectory answers fds fd (.onPath op pathname) ↔
    DispatchOk table workingDirectory answers fds (.onPath op pathname) := by
  cases located table workingDirectory (answers.memory 0) pathname with
  | outside htext =>
    exact iff_of_false (not_dispatches (perform_outside htext)) fun hok => hok.1 htext
  | invalid htext h =>
    obtain ⟨result, hresult, hperform⟩ := perform_invalid htext
    refine iff_of_true ⟨_, hperform, .unmounted hresult h⟩ ⟨by simp [htext], ?_⟩
    intro fullpath fs htext'
    simp [htext] at htext'
  | unmounted htext hlookup h =>
    obtain ⟨result, hresult, hperform⟩ := perform_unmounted htext hlookup
    refine iff_of_true ⟨_, hperform, .unmounted hresult h⟩ ⟨by simp [htext], ?_⟩
    intro fullpath' fs htext' hlookup'
    obtain rfl := Option.some.inj (Option.some.inj (htext.symm.trans htext'))
    rw [hlookup] at hlookup'
    contradiction
  | mounted h =>
    have hinside : textOf workingDirectory (answers.memory 0) pathname ≠ none := by simp [h.text]
    cases op with
    | openFile flags =>
      rw [dispatches_open h]
      refine ⟨fun hok => ⟨hinside, fun fullpath fs' ht hl => ?_⟩,
        fun hok => hok.2 _ _ h.text h.lookup⟩
      obtain ⟨-, rfl⟩ := h.same ht hl
      exact hok
    | unlink =>
      rw [dispatches_unlink h]
      refine ⟨fun hok => ⟨hinside, fun fullpath fs' ht hl => ?_⟩,
        fun hok => hok.2 _ _ h.text h.lookup⟩
      obtain ⟨rfl, -⟩ := h.same ht hl
      exact hok
    | stat => exact iff_of_true (dispatches_stat h) ⟨hinside, fun _ _ _ _ => trivial⟩

/-! ## Renaming -/

variable {oldpath newpath : CString} {names' : List (List Char)}

/-- Any outcome of renaming on mounted filesystems is the one of these filesystems. -/
theorem Outcome.rename_mounted {fs' : MountPoint} {r : ℤ × List DriverCall}
    (h : Outcome table workingDirectory answers fds (.rename oldpath newpath) r)
    (hold : OnMounted table workingDirectory (answers.memory 0) oldpath names fs)
    (hnew : OnMounted table workingDirectory (answers.memory 1) newpath names' fs') :
    r.2 = [] ∨ r.2 = [.rename fs.address (some (driverPath fs names))
      (some (driverPath fs names'))] := by
  cases h with
  | renameUnmounted => exact .inl rfl
  | renameElsewhere => exact .inl rfl
  | renameMissing => exact .inl rfl
  | renamed hnames hnames' hfs hfs' hcall =>
    obtain rfl := Option.some.inj (hold.named.symm.trans hnames)
    obtain rfl := Option.some.inj (hnew.named.symm.trans hnames')
    obtain rfl := hold.serves.unique hfs
    exact .inr (by rw [hcall])

/-- What is handed over by renaming is right unless a path is the mount point itself. -/
theorem rename_paths
    (hold : OnMounted table workingDirectory (answers.memory 0) oldpath names fs)
    (hnew : OnMounted table workingDirectory (answers.memory 1) newpath names' fs) :
    (if fs.ops.fullpath then DriverCall.rename fs.address (some (path names)) (some (path names'))
      else .rename fs.address (dfsSubdir fs.path (path names)) (dfsSubdir fs.path (path names'))) =
      .rename fs.address (some (driverPath fs names)) (some (driverPath fs names')) ↔
    (fs.ops.fullpath = false → path names ≠ fs.path ∧ path names' ≠ fs.path) := by
  rw [Ne, Ne, hold.serves.at_mount hold.stack, hnew.serves.at_mount hnew.stack]
  rw [hold.serves.subdir_eq fun c hc => (hold.stack c hc).1,
    hnew.serves.subdir_eq fun c hc => (hnew.stack c hc).1]
  unfold driverPath
  cases fs.ops.fullpath with
  | true => simp
  | false =>
    by_cases hn : names = components fs.path <;> by_cases hn' : names' = components fs.path <;>
      simp [hn, hn']

/-- Renaming with both texts: the rest of the function. -/
theorem dispatches_rename_mounted {fs' : MountPoint}
    (hold : OnMounted table workingDirectory (answers.memory 0) oldpath names fs)
    (hnew : OnMounted table workingDirectory (answers.memory 1) newpath names' fs') :
    Dispatches table workingDirectory answers fds fd (.rename oldpath newpath) ↔
      (fs = fs' → fs.ops.hasRename = true → fs.ops.fullpath = false →
        path names ≠ fs.path ∧ path names' ≠ fs.path) := by
  have htext := hold.text
  have htext' := hnew.text
  unfold textOf at htext htext'
  simp only [Dispatches, perform, dfsFileRename, htext, htext', Option.bind_some, hold.lookup,
    hnew.lookup]
  by_cases hsame : fs.address = fs'.address
  · obtain rfl := hold.serves.ext hnew.serves hsame
    have hpaths := rename_paths hold hnew
    by_cases hhas : fs.ops.hasRename = true
    · simp only [if_pos, hhas, true_imp_iff]
      rw [← hpaths]
      constructor
      · rintro ⟨r, hr, hout⟩
        obtain rfl := Option.some.inj hr
        obtain hnone | hcall := hout.rename_mounted hold hnew
        · contradiction
        · exact (List.cons.inj hcall).1
      · intro hcall
        exact ⟨_, rfl, .renamed hold.named hnew.named hold.serves hnew.serves hcall⟩
    · simp only [if_pos, if_neg hhas]
      exact iff_of_true ⟨_, rfl, .renameMissing hold.named hnew.named hold.serves hnew.serves
        (eq_false_of_ne_true hhas)⟩ fun _ htrue => absurd htrue hhas
  · have hne : fs ≠ fs' := fun he => hsame (congrArg MountPoint.address he)
    simp only [if_neg hsame]
    exact iff_of_true ⟨_, rfl, .renameElsewhere hold.named hnew.named hold.serves hnew.serves hne⟩
      fun he => absurd he hne

/-- The condition on renaming, once both paths have a text. -/
theorem renameOk_iff {oldfullpath newfullpath : List Char}
    (hold : textOf workingDirectory (answers.memory 0) oldpath = some (some oldfullpath))
    (hnew : textOf workingDirectory (answers.memory 1) newpath = some (some newfullpath)) :
    DispatchOk table workingDirectory answers fds (.rename oldpath newpath) ↔
      ¬ (mountPoint table.entries oldfullpath = none ∧
        mountPoint table.entries newfullpath = none) ∧
      ∀ fs, mountPoint table.entries oldfullpath = some fs →
        mountPoint table.entries newfullpath = some fs → fs.ops.hasRename = true →
          fs.ops.fullpath = false → oldfullpath ≠ fs.path ∧ newfullpath ≠ fs.path := by
  refine ⟨fun hok => (hok.2 _ hold).2 _ hnew, fun h => ⟨by simp [hold], fun text htext => ?_⟩⟩
  obtain rfl := Option.some.inj (Option.some.inj (hold.symm.trans htext))
  refine ⟨by simp [hnew], fun text' htext' => ?_⟩
  obtain rfl := Option.some.inj (Option.some.inj (hnew.symm.trans htext'))
  exact h

theorem dispatches_rename_texts {oldfullpath newfullpath : List Char}
    (hold : textOf workingDirectory (answers.memory 0) oldpath = some (some oldfullpath))
    (hnew : textOf workingDirectory (answers.memory 1) newpath = some (some newfullpath)) :
    Dispatches table workingDirectory answers fds fd (.rename oldpath newpath) ↔
      DispatchOk table workingDirectory answers fds (.rename oldpath newpath) := by
  rw [renameOk_iff hold hnew]
  have hold' := hold
  have hnew' := hnew
  unfold textOf at hold' hnew'
  obtain ⟨hlookup, h⟩ | ⟨names, fs, rfl, hon⟩ := located_text table hold
  · obtain ⟨hlookup', h'⟩ | ⟨names', fs', rfl, hon'⟩ := located_text table hnew
    · refine iff_of_false (not_dispatches ?_) fun hok => hok.1 ⟨hlookup, hlookup'⟩
      simp [perform, dfsFileRename, hold', hnew', hlookup, hlookup']
    · refine iff_of_true ⟨(-dfsStatusExdev, []), ?_, .renameUnmounted (by decide) (.inl h)⟩
        ⟨by simp [hon'.lookup], by simp [hlookup]⟩
      simp [perform, dfsFileRename, hold', hnew', hlookup, hon'.lookup]
  · obtain ⟨hlookup', h'⟩ | ⟨names', fs', rfl, hon'⟩ := located_text table hnew
    · refine iff_of_true ⟨(-dfsStatusExdev, []), ?_, .renameUnmounted (by decide) (.inr h')⟩
        ⟨by simp [hon.lookup], by simp [hlookup']⟩
      simp [perform, dfsFileRename, hold', hnew', hon.lookup, hlookup']
    · rw [dispatches_rename_mounted hon hon', hon.lookup, hon'.lookup]
      constructor
      · refine fun hok => ⟨by simp, fun g hg hg' => ?_⟩
        obtain rfl := Option.some.inj hg
        exact hok (Option.some.inj hg').symm
      · rintro hok rfl
        exact hok.2 _ rfl rfl

theorem dispatches_rename : Dispatches table workingDirectory answers fds fd
      (.rename oldpath newpath) ↔
    DispatchOk table workingDirectory answers fds (.rename oldpath newpath) := by
  cases hold : textOf workingDirectory (answers.memory 0) oldpath with
  | none =>
    refine iff_of_false (not_dispatches ?_) fun hok => hok.1 hold
    unfold textOf at hold
    simp [perform, dfsFileRename, hold]
  | some text =>
    cases text with
    | none =>
      refine iff_of_true ⟨(-dfsStatusEnoent, []), ?_, .renameUnmounted (by decide)
        (.inl (unmounted_of_null hold))⟩ ⟨by simp [hold], by simp [hold]⟩
      unfold textOf at hold
      simp [perform, dfsFileRename, hold]
    | some oldfullpath =>
      cases hnew : textOf workingDirectory (answers.memory 1) newpath with
      | none =>
        refine iff_of_false (not_dispatches ?_) fun hok => (hok.2 _ hold).1 hnew
        unfold textOf at hold hnew
        simp [perform, dfsFileRename, hold, hnew]
      | some text' =>
        cases text' with
        | none =>
          refine iff_of_true ⟨(-dfsStatusEnoent, []), ?_, .renameUnmounted (by decide)
            (.inr (unmounted_of_null hnew))⟩ ⟨by simp [hold], by simp [hnew]⟩
          unfold textOf at hold hnew
          simp [perform, dfsFileRename, hold, hnew]
        | some newfullpath => exact dispatches_rename_texts hold hnew

/-- Path operations dispatch to the right driver with the right path exactly when normalising stays
inside its buffer, the copy of the path is allocated, `fd_is_open` meets no descriptor without a
path, and renaming is given a mounted path and no mount point. -/
theorem dispatches_iff (table : MountTable FilesystemOperation) (workingDirectory : CString)
    (answers : Answers) (fds : List DfsFd) (fd : DfsFd) (call : PathCall) :
    Dispatches table workingDirectory answers fds fd call ↔
      DispatchOk table workingDirectory answers fds call := by
  cases call with
  | onPath op pathname => exact dispatches_onPath
  | rename oldpath newpath => exact dispatches_rename

end

def noMounts : MountTable FilesystemOperation := ⟨[], by simp, by simp⟩

def root : CString := ⟨['/'], rootDirectory.noNul⟩

/-- Renaming where nothing is mounted reads through a null pointer. -/
theorem rename_reads_null : ¬ Dispatches noMounts root ⟨fun _ => true, fun _ => 0⟩ [] .zero
    (.rename ⟨['/', 'a'], by decide⟩ ⟨['/', 'b'], by decide⟩) := by
  have hnone : perform noMounts root ⟨fun _ => true, fun _ => 0⟩ [] .zero
    (.rename ⟨['/', 'a'], by decide⟩ ⟨['/', 'b'], by decide⟩) = none := by decide +kernel
  exact not_dispatches hnone

end RtThread
