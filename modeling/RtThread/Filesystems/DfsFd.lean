import RtThread.Filesystems.DfsNormalizeResult
import RtThread.Filesystems.DfsOps

/-!
# File descriptors

The table of descriptors, and `fd_is_open`, which looks for a path in it. A pointer to an entry of
`filesystem_table` is the index of the entry, and `none` is `RT_NULL`.
-/
namespace RtThread
open SlashPath Normalizer

def dfsFdMax : ℕ := 4
def dfsFdMagic : BitVec 16 := 0xfdfd
def ftRegular : BitVec 16 := 0
def ftDirectory : BitVec 16 := 2

/-- `struct dfs_fd`. -/
structure DfsFd where
  magic : BitVec 16
  type : BitVec 16
  path : Option (List Char)
  refCount : ℤ
  fs : Option ℕ
  flags : BitVec 32
  size : ℕ
  pos : ℤ
  deriving DecidableEq

/-- What `rt_memset` leaves of a descriptor. -/
def DfsFd.zero : DfsFd := ⟨0, 0, none, 0, none, 0, 0, 0⟩

instance : Inhabited DfsFd := ⟨.zero⟩

def DfsFilesystem.withAddress {Ops : Type} (address : ℕ) (fs : DfsFilesystem Ops) :
    DfsFilesystem (ℕ × Ops) := ⟨fs.path, fs.ops.map fun ops => (address, ops)⟩

/-- The entries of `filesystem_table`, each with its address. -/
def addressed {Ops : Type} (table : List (DfsFilesystem Ops)) : List (DfsFilesystem (ℕ × Ops)) :=
  table.mapIdx DfsFilesystem.withAddress

/-- What a pointer to a mounted filesystem leads to. -/
structure MountPoint where
  address : ℕ
  path : List Char
  ops : FilesystemOperation
  deriving DecidableEq

/-- `dfs_filesystem_lookup` with the entry that it points to. -/
def mountPoint (table : List (DfsFilesystem FilesystemOperation)) (path : List Char) :
    Option MountPoint :=
  (dfsFilesystemLookup (addressed table) path).bind fun fs =>
    fs.path.bind fun mount => fs.ops.map fun ops => ⟨ops.1, mount, ops.2⟩

/-- The string that `dfs_normalize_path` returns; `none` is an access outside the buffer. -/
def normalizedText (workingDirectory filename : List Char) (memory : Bool) :
    Option (Option (List Char)) :=
  (dfsNormalizePath workingDirectory none filename memory).bind fun
    | none => some none
    | some buffer => (cString buffer).map some

/-- The first descriptor without a reference. -/
def fdNew (fds : List DfsFd) : Option (ℕ × List DfsFd) :=
  (fds.findIdx? fun fd => ¬ fd.refCount > 0).map fun idx =>
    (idx, fds.modify idx fun d => { d with refCount := 1, magic := dfsFdMagic })

def fdGet (fds : List DfsFd) (fd : ℕ) : Option (List DfsFd) :=
  fds[fd]?.bind fun d =>
    if d.magic ≠ dfsFdMagic then none else some (fds.set fd { d with refCount := d.refCount + 1 })

def DfsFd.put (fd : DfsFd) : DfsFd :=
  let fd := { fd with refCount := fd.refCount - 1 }
  if fd.refCount = 0 then .zero else fd

def fdPut (fds : List DfsFd) (fd : ℕ) : List DfsFd := fds.modify fd DfsFd.put

/-- The loop of `fd_is_open`; `none` compares with a path that is `RT_NULL`. -/
def searchFd (fs : ℕ) (mountpath : List Char) : List DfsFd → Option ℤ
  | [] => some (-1)
  | fd :: fds =>
    if fd.fs = none then searchFd fs mountpath fds
    else if fd.fs = some fs then
      fd.path.bind fun path => if path = mountpath then some 0 else searchFd fs mountpath fds
    else searchFd fs mountpath fds

/-- What `fd_is_open` compares with the paths of the descriptors. -/
def mountPath (fs : MountPoint) (fullpath : List Char) : List Char :=
  if fs.path = ['/'] then fullpath else fullpath.drop fs.path.length

def fdIsOpen (table : List (DfsFilesystem FilesystemOperation)) (fds : List DfsFd)
    (workingDirectory pathname : List Char) (memory : Bool) : Option ℤ :=
  (normalizedText workingDirectory pathname memory).bind fun
    | none => some (-1)
    | some fullpath =>
      match mountPoint table fullpath with
      | none => some (-1)
      | some fs => searchFd fs.address (mountPath fs fullpath) fds

/-! ## The text of a path -/

/-- What is left of a path: the text is resolved if it stands for the names of a path. -/
inductive TextCase (memory : Bool) (names : Option (List (List Char))) :
    Option (Option (List Char)) → Prop
  | outside (h : names = none) : TextCase memory names none
  | null (h : memory = true → names = none) : TextCase memory names (some none)
  | relative {result : List Char} (h : names = none) (hhead : result.head? ≠ some '/') :
      TextCase memory names (some (some result))
  | absolute {stack : List (List Char)} (hmemory : memory = true) (h : names = some stack)
      (hstack : ∀ c ∈ stack, IsName c ∧ nul ∉ c) :
      TextCase memory names (some (some (path stack)))

theorem joinedPath_nul {directory filename : List Char} (hdirectory : nul ∉ directory)
    (hfilename : nul ∉ filename) : nul ∉ joinedPath directory filename := by
  unfold joinedPath
  split
  · simp only [List.mem_append, List.mem_cons, not_or]
    exact ⟨hdirectory, by decide, hfilename⟩
  · exact hfilename

theorem normalizedText_case (workingDirectory filename : CString) (memory : Bool) :
    TextCase memory (target (joinedPath workingDirectory.text filename.text))
      (normalizedText workingDirectory.text filename.text memory) := by
  cases memory with
  | false =>
    have htext : normalizedText workingDirectory.text filename.text false = some none := rfl
    rw [htext]
    exact .null fun h => absurd h (by decide)
  | true =>
    have hcase := dfsNormalizePath_case workingDirectory.text none rfl
      (joinedPath_nul workingDirectory.noNul filename.noNul)
    rw [Option.getD_none] at hcase
    unfold normalizedText
    generalize dfsNormalizePath workingDirectory.text none filename.text true = result at hcase ⊢
    cases hcase with
    | outside h => exact .outside h
    | null h => exact .null fun _ => h
    | relative h hstring hhead =>
      simp only [Option.bind_some, hstring, Option.map_some]
      exact .relative h hhead
    | absolute h hstack hstring =>
      simp only [Option.bind_some, hstring, Option.map_some]
      exact .absolute rfl h hstack

/-- A normalised path is its own text. -/
theorem normalizedText_path (workingDirectory : List Char) {stack : List (List Char)}
    (hstack : ∀ c ∈ stack, IsName c ∧ nul ∉ c) :
    normalizedText workingDirectory (path stack) true = some (some (path stack)) := by
  obtain ⟨buffer, hbuffer, hstring⟩ := dfsNormalizePath_path workingDirectory none hstack
  simp only [normalizedText, hbuffer, Option.bind_some, hstring, Option.map_some]

/-! ## The filesystem of a path -/

section
variable {Ops : Type} {table : List (DfsFilesystem Ops)} {i : ℕ}

theorem mem_addressed {fs : DfsFilesystem (ℕ × Ops)} (h : fs ∈ addressed table) :
    ∃ i, ∃ entry : DfsFilesystem Ops, table[i]? = some entry ∧ fs = entry.withAddress i := by
  obtain ⟨i, hi, rfl⟩ := List.mem_mapIdx.mp h
  exact ⟨i, table[i], List.getElem?_eq_getElem hi, rfl⟩

theorem addressed_mounted {entry : DfsFilesystem Ops} {mount : List Char} :
    (entry.withAddress i).Mounted mount ↔ entry.Mounted mount := by
  simp [DfsFilesystem.Mounted, DfsFilesystem.withAddress]

theorem addressed_mem {entry : DfsFilesystem Ops} (h : table[i]? = some entry) :
    entry.withAddress i ∈ addressed table := by
  obtain ⟨hi, rfl⟩ := List.getElem?_eq_some_iff.mp h
  exact List.mem_mapIdx.mpr ⟨i, hi, rfl⟩

/-- The same mounts with addresses. -/
def MountTable.addressed (table : MountTable Ops) : MountTable (ℕ × Ops) where
  entries := RtThread.addressed table.entries
  normal fs hfs mount hmount := by
    obtain ⟨i, entry, hi, rfl⟩ := mem_addressed hfs
    exact table.normal entry (List.mem_of_getElem? hi) mount (addressed_mounted.mp hmount)
  distinct := by
    rw [List.pairwise_iff_getElem]
    intro i j hi hj hlt mount hmount hmount'
    simp only [RtThread.addressed, List.length_mapIdx] at hi hj
    simp only [RtThread.addressed, List.getElem_mapIdx] at hmount hmount'
    exact (List.pairwise_iff_getElem.mp table.distinct) i j hi hj hlt mount
      (addressed_mounted.mp hmount) (addressed_mounted.mp hmount')

/-- No used entry is mounted above the path. -/
def Unserved (table : List (DfsFilesystem Ops)) (names : List (List Char)) : Prop :=
  ∀ entry ∈ table, ∀ mount, entry.Mounted mount → ¬ components mount <+: names

/-- A text that does not start at the root is under no mount point. -/
theorem lookup_relative (table : MountTable Ops) {text : List Char}
    (hhead : text.head? ≠ some '/') : dfsFilesystemLookup table.entries text = none := by
  have hrounds : ∀ entries ⊆ table.entries,
      entries.foldl (lookupRound text) (none, 0) = (none, 0) := by
    intro entries hentries
    induction entries with
    | nil => rfl
    | cons entry entries ih =>
      obtain ⟨hentry, hentries⟩ := List.cons_subset.mp hentries
      have hround : lookupRound text (none, 0) entry = (none, 0) := by
        by_cases hmounted : ∃ mount, entry.Mounted mount
        · obtain ⟨mount, hmounted⟩ := hmounted
          obtain ⟨hnormal, hnul⟩ := table.normal entry hentry mount hmounted
          have hne : strncmp mount text mount.length ≠ 0 := by
            rw [Ne, strncmp_eq_zero hnul, hnormal.eq_path.1]
            rintro ⟨rest, rfl⟩
            exact hhead rfl
          rw [lookupRound_mounted text (none, 0) hmounted, if_pos (.inr hne)]
        · exact lookupRound_unmounted text (none, 0) fun mount hm => hmounted ⟨mount, hm⟩
      rw [List.foldl_cons, hround, ih hentries]
  rw [dfsFilesystemLookup, hrounds _ (List.Subset.refl _)]

end

/-- The lookup gives an entry of the table. -/
theorem lookup_mem {Ops : Type} {table : List (DfsFilesystem Ops)} {path : List Char}
    {fs : DfsFilesystem Ops} (h : dfsFilesystemLookup table path = some fs) : fs ∈ table := by
  have hrounds : ∀ (rest : List (DfsFilesystem Ops)) (found : Option (DfsFilesystem Ops) × ℕ),
      (∀ fs, found.1 = some fs → fs ∈ table) → rest ⊆ table →
      ∀ fs, (rest.foldl (lookupRound path) found).1 = some fs → fs ∈ table := by
    intro rest
    induction rest with
    | nil => exact fun found hfound _ => hfound
    | cons iter rest ih =>
      intro found hfound hrest
      obtain ⟨hiter, hrest⟩ := List.cons_subset.mp hrest
      refine ih _ (fun fs hfs => ?_) hrest
      unfold lookupRound at hfs
      split at hfs
      · dsimp only at hfs
        split at hfs
        · exact hfound fs hfs
        · split at hfs
          · exact hfound fs hfs
          · obtain rfl := Option.some.inj hfs
            exact hiter
      · exact hfound fs hfs
  exact hrounds table (none, 0) (by simp) (List.Subset.refl _) fs h

theorem mountPoint_entry {table : List (DfsFilesystem FilesystemOperation)} {path : List Char}
    {fs : MountPoint} (h : mountPoint table path = some fs) :
    table[fs.address]? = some ⟨some fs.path, some fs.ops⟩ := by
  obtain ⟨found, hlookup, h⟩ := Option.bind_eq_some_iff.mp h
  obtain ⟨i, entry, hi, rfl⟩ := mem_addressed (lookup_mem hlookup)
  obtain ⟨mount, hmount, h⟩ := Option.bind_eq_some_iff.mp h
  obtain ⟨ops, hops, rfl⟩ := Option.map_eq_some_iff.mp h
  obtain ⟨ops', hops', rfl⟩ := Option.map_eq_some_iff.mp hops
  obtain ⟨entryPath, entryOps⟩ := entry
  obtain rfl : entryPath = some mount := hmount
  obtain rfl : entryOps = some ops' := hops'
  exact hi

/-- `fs` is mounted at the longest prefix of the path that the names make up. -/
structure Serves (table : List (DfsFilesystem FilesystemOperation)) (fs : MountPoint)
    (names : List (List Char)) : Prop where
  entry : table[fs.address]? = some ⟨some fs.path, some fs.ops⟩
  covers : components fs.path <+: names
  longest : ∀ i entry mount, table[i]? = some entry → i ≠ fs.address → entry.Mounted mount →
    components mount <+: names → (components mount).length < (components fs.path).length

section
variable {table : MountTable FilesystemOperation} {names : List (List Char)} {fs : MountPoint}

theorem mountPoint_relative (table : MountTable FilesystemOperation) {text : List Char}
    (hhead : text.head? ≠ some '/') : mountPoint table.entries text = none := by
  have hlookup : dfsFilesystemLookup (addressed table.entries) text = none :=
    lookup_relative table.addressed hhead
  rw [mountPoint, hlookup, Option.bind_none]

/-- The lookup finds the filesystem that serves the path, if there is one. -/
theorem mountPoint_cases (table : MountTable FilesystemOperation)
    (hnames : ∀ c ∈ names, IsName c ∧ nul ∉ c) :
    (mountPoint table.entries (path names) = none ∧ Unserved table.entries names) ∨
      ∃ fs, mountPoint table.entries (path names) = some fs ∧ Serves table.entries fs names := by
  have hname : ∀ c ∈ names, IsName c := fun c hc => (hnames c hc).1
  let p : AbsPath := ⟨path names, normal_path hname, nul_not_mem_path hnames⟩
  have hfound := lookup_found table.addressed p
  have hlookup : dfsFilesystemLookup (addressed table.entries) (path names) =
      (table.addressed.entries.foldl (lookupRound p.text) (none, 0)).1 := rfl
  rw [mountPoint, hlookup]
  generalize table.addressed.entries.foldl (lookupRound p.text) (none, 0) = found at hfound ⊢
  have hcovers_iff : ∀ i (entry : DfsFilesystem FilesystemOperation) mount,
      (entry.withAddress i).Covers mount p.text ↔
        entry.Mounted mount ∧ components mount <+: names := by
    intro i entry mount
    rw [DfsFilesystem.Covers, addressed_mounted, components_path hname]
  cases hfound with
  | nothing h =>
    refine .inl ⟨rfl, fun entry hentry mount hmounted hcovers => ?_⟩
    obtain ⟨i, hi⟩ := List.mem_iff_getElem?.mp hentry
    exact h _ (addressed_mem hi) mount ((hcovers_iff i entry mount).mpr ⟨hmounted, hcovers⟩)
  | @entry fs mount hmem hcovers hlongest =>
    obtain ⟨i, entry, hi, rfl⟩ := mem_addressed hmem
    obtain ⟨hmounted, hbegins⟩ := (hcovers_iff i entry mount).mp hcovers
    obtain ⟨entryPath, entryOps⟩ := entry
    obtain ⟨rfl, hops⟩ := hmounted
    obtain ⟨ops, rfl⟩ := Option.ne_none_iff_exists'.mp hops
    refine .inr ⟨⟨i, mount, ops⟩, rfl, hi, hbegins, ?_⟩
    intro j entry' mount' hj hne hmounted' hbegins'
    have hmem' := addressed_mem hj
    have hcovers' := (hcovers_iff j entry' mount').mpr ⟨hmounted', hbegins'⟩
    refine table.addressed.length_lt hmem hmem' hcovers hcovers' ?_ (hlongest _ hmem' _ hcovers')
    intro he
    obtain ⟨-, hops'⟩ := DfsFilesystem.mk.inj he
    obtain ⟨ops', -, hops'⟩ := Option.map_eq_some_iff.mp hops'
    exact hne (Prod.mk.inj hops').1

theorem Serves.ext {fs' : MountPoint} {names' : List (List Char)}
    (h : Serves table.entries fs names) (h' : Serves table.entries fs' names')
    (haddress : fs.address = fs'.address) : fs = fs' := by
  have hentry := h.entry
  rw [haddress, h'.entry] at hentry
  obtain ⟨hpath, hops⟩ := DfsFilesystem.mk.inj (Option.some.inj hentry)
  cases fs
  cases fs'
  simp only [Option.some.injEq] at hpath hops haddress
  rw [haddress, hpath, hops]

/-- The filesystem that serves a path is unique. -/
theorem Serves.unique {fs' : MountPoint} (h : Serves table.entries fs names)
    (h' : Serves table.entries fs' names) : fs = fs' := by
  refine h.ext h' ?_
  by_contra hne
  have hlt := h.longest _ _ _ h'.entry (fun he => hne he.symm) ⟨rfl, by simp⟩ h'.covers
  have hlt' := h'.longest _ _ _ h.entry hne ⟨rfl, by simp⟩ h.covers
  omega

theorem Serves.lookup (h : Serves table.entries fs names)
    (hstack : ∀ c ∈ names, IsName c ∧ nul ∉ c) :
    mountPoint table.entries (path names) = some fs := by
  obtain ⟨-, hunserved⟩ | ⟨fs', hfs', hserves⟩ := mountPoint_cases table hstack
  · exact absurd h.covers (hunserved _ (List.mem_of_getElem? h.entry) fs.path ⟨rfl, by simp⟩)
  · rw [hfs', h.unique hserves]

theorem Serves.mount_path (h : Serves table.entries fs names) :
    fs.path = path (components fs.path) ∧ ∀ c ∈ components fs.path, IsName c := by
  obtain ⟨hnormal, -⟩ := table.normal _ (List.mem_of_getElem? h.entry) fs.path ⟨rfl, by simp⟩
  exact hnormal.eq_path

/-- The path below the mount point, `/` for the mount point itself. -/
def belowMount (fs : MountPoint) (names : List (List Char)) : List Char :=
  path (names.drop (components fs.path).length)

theorem Serves.subdir_eq (h : Serves table.entries fs names)
    (hnames : ∀ c ∈ names, IsName c) :
    dfsSubdir fs.path (path names) =
      if names = components fs.path then none else some (belowMount fs names) := by
  obtain ⟨hmount, -⟩ := h.mount_path
  obtain ⟨rest, hrest⟩ := h.covers
  have hall : ∀ c ∈ components fs.path ++ rest, IsName c := by rwa [hrest]
  have hsubdir := dfsSubdir_path hall
  rw [← hmount, hrest] at hsubdir
  rw [hsubdir, belowMount, ← hrest, List.drop_left]
  simp

end
end RtThread
