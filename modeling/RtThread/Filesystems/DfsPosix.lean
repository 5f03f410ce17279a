import RtThread.Filesystems.DfsFile
import RtThread.Library.PairedRows

/-!
# Opening and closing files

`open` and `close` on the table of descriptors, one call after the other.
-/
namespace RtThread

section
variable (table : List (DfsFilesystem FilesystemOperation)) (answers : Answers)

/-- `open`; `none` is an access that `dfs_file_open` must not make. -/
def posixOpen (workingDirectory : List Char) (fds : List DfsFd) (file : List Char)
    (flags : BitVec 32) : Option (ℤ × List DfsFd × List DriverCall) :=
  match fdNew fds with
  | none => some (-1, fds, [])
  | some (fd, fds) =>
    (fdGet fds fd).bind fun fds => fds[fd]?.bind fun d =>
      (dfsFileOpen table workingDirectory answers d file flags).map fun (result, d, calls) =>
        let fds := fds.set fd d
        if result < 0 then (-1, fdPut (fdPut fds fd) fd, calls)
        else ((fd : ℤ), fdPut fds fd, calls)

/-- `close`; `none` is an access that `dfs_file_close` must not make. -/
def posixClose (fds : List DfsFd) (fd : ℕ) : Option (ℤ × List DfsFd × List DriverCall) :=
  match fdGet fds fd with
  | none => some (-1, fds, [])
  | some fds =>
    fds[fd]?.bind fun d =>
      (dfsFileClose table answers d).map fun (result, d, calls) =>
        let fds := fdPut (fds.set fd d) fd
        if result < 0 then (-1, fds, calls) else (0, fdPut fds fd, calls)

end

section
variable {table : List (DfsFilesystem FilesystemOperation)} {answers : Answers}
  {workingDirectory file : List Char} {fds fds' : List DfsFd} {flags : BitVec 32}
  {d : DfsFd} {fd : ℕ} {result : ℤ} {calls : List DriverCall}

/-! ## The descriptor that is opened -/

/-- The ways through `dfs_file_open`. -/
inductive FileOpenCase (table : List (DfsFilesystem FilesystemOperation)) (answers : Answers)
    (workingDirectory file : List Char) (d : DfsFd) : ℤ → DfsFd → Prop
  | failed {result : ℤ} {d' : DfsFd} (hresult : result < 0) (href : d'.refCount = d.refCount) :
      FileOpenCase table answers workingDirectory file d result d'
  | opened {fullpath : List Char} {fs : MountPoint} {d' : DfsFd}
      (htext : normalizedText workingDirectory file (answers.memory 0) = some (some fullpath))
      (hlookup : mountPoint table fullpath = some fs) (href : d'.refCount = d.refCount)
      (hmagic : d'.magic = d.magic) (hfs : d'.fs = some fs.address)
      (hpath : d'.path = openedPath answers fs fullpath) :
      FileOpenCase table answers workingDirectory file d 0 d'

theorem openedFd_same (d : DfsFd) (flags : BitVec 32) :
    (openedFd d flags).refCount = d.refCount ∧ (openedFd d flags).magic = d.magic ∧
      (openedFd d flags).fs = d.fs ∧ (openedFd d flags).path = d.path := by
  unfold openedFd
  dsimp only
  split <;> exact ⟨rfl, rfl, rfl, rfl⟩

theorem dfsFileOpen_cases {d' : DfsFd}
    (h : dfsFileOpen table workingDirectory answers d file flags = some (result, d', calls)) :
    FileOpenCase table answers workingDirectory file d result d' := by
  obtain ⟨text, htext, h⟩ := Option.bind_eq_some_iff.mp h
  cases text with
  | none =>
    simp only [Option.some.injEq, Prod.mk.injEq] at h
    obtain ⟨rfl, rfl, -⟩ := h
    exact .failed (by decide) rfl
  | some fullpath =>
    dsimp only at h
    split at h
    · simp only [Option.some.injEq, Prod.mk.injEq] at h
      obtain ⟨rfl, rfl, -⟩ := h
      exact .failed (by decide) rfl
    · next fs hlookup =>
      split at h
      · split at h
        · next hneg =>
          simp only [Option.some.injEq, Prod.mk.injEq] at h
          obtain ⟨rfl, rfl, -⟩ := h
          exact .failed hneg rfl
        · simp only [Option.some.injEq, Prod.mk.injEq] at h
          obtain ⟨rfl, rfl, -⟩ := h
          obtain ⟨href, hmagic, hfs, hpath⟩ := openedFd_same
            { d with
              fs := some fs.address
              type := ftRegular
              flags := flags
              size := 0
              pos := 0
              path := openedPath answers fs fullpath } flags
          exact .opened htext hlookup href hmagic hfs hpath
      · simp only [Option.some.injEq, Prod.mk.injEq] at h
        obtain ⟨rfl, rfl, -⟩ := h
        exact .failed (by decide) rfl

/-! ## The table of descriptors -/

/-- Slot `fd` has no reference. -/
def FreeSlot (fds : List DfsFd) (fd : ℕ) : Prop := ∃ d, fds[fd]? = some d ∧ d.refCount ≤ 0

theorem fdNew_some {fds' : List DfsFd} (h : fdNew fds = some (fd, fds')) :
    ∃ d, fds[fd]? = some d ∧ d.refCount ≤ 0 ∧
      fds' = fds.set fd { d with refCount := 1, magic := dfsFdMagic } := by
  obtain ⟨idx, hidx, he⟩ := Option.map_eq_some_iff.mp h
  obtain ⟨rfl, rfl⟩ := Prod.mk.inj he
  obtain ⟨hlt, hfree, -⟩ := List.findIdx?_eq_some_iff_getElem.mp hidx
  refine ⟨fds[idx], List.getElem?_eq_getElem hlt, by simpa using hfree, ?_⟩
  rw [List.modify_eq_set, List.getElem?_eq_getElem hlt]
  rfl

theorem fdPut_set (hlt : fd < fds.length) (d : DfsFd) :
    fdPut (fds.set fd d) fd = fds.set fd d.put := by
  rw [fdPut, List.modify_eq_set, List.getElem?_set_self hlt]
  simp

theorem DfsFd.put_two (h : d.refCount = 2) : d.put = { d with refCount := 1 } := by
  simp [DfsFd.put, h]

theorem DfsFd.put_one (h : d.refCount = 1) : d.put = .zero := by
  simp [DfsFd.put, h]

/-- The ways through `open`. -/
inductive OpenCall (table : List (DfsFilesystem FilesystemOperation)) (answers : Answers)
    (workingDirectory file : List Char) (fds : List DfsFd) : ℤ → List DfsFd → Prop
  | full : OpenCall table answers workingDirectory file fds (-1) fds
  | failed {fd : ℕ} (hslot : FreeSlot fds fd) :
      OpenCall table answers workingDirectory file fds (-1) (fds.set fd .zero)
  | opened {fd : ℕ} {fullpath : List Char} {fs : MountPoint} {d : DfsFd} (hslot : FreeSlot fds fd)
      (htext : normalizedText workingDirectory file (answers.memory 0) = some (some fullpath))
      (hlookup : mountPoint table fullpath = some fs) (href : d.refCount = 1)
      (hmagic : d.magic = dfsFdMagic) (hfs : d.fs = some fs.address)
      (hpath : d.path = openedPath answers fs fullpath) :
      OpenCall table answers workingDirectory file fds fd (fds.set fd d)

theorem posixOpen_cases
    (h : posixOpen table answers workingDirectory fds file flags = some (result, fds', calls)) :
    OpenCall table answers workingDirectory file fds result fds' := by
  unfold posixOpen at h
  split at h
  · simp only [Option.some.injEq, Prod.mk.injEq] at h
    obtain ⟨rfl, rfl, -⟩ := h
    exact .full
  · next fd fds₁ hnew =>
    obtain ⟨d, hd, hfree, rfl⟩ := fdNew_some hnew
    obtain ⟨hlt, -⟩ := List.getElem?_eq_some_iff.mp hd
    have hget : fdGet (fds.set fd { d with refCount := 1, magic := dfsFdMagic }) fd =
        some (fds.set fd { d with refCount := 2, magic := dfsFdMagic }) := by
      simp [fdGet, List.getElem?_set_self hlt]
    have hslot : FreeSlot fds fd := ⟨d, hd, hfree⟩
    simp only [hget, Option.bind_some, List.getElem?_set_self hlt] at h
    obtain ⟨⟨result₁, d', calls₁⟩, hopen, h⟩ := Option.map_eq_some_iff.mp h
    rw [List.set_set] at h
    cases dfsFileOpen_cases hopen with
    | failed hneg href =>
      rw [if_pos hneg, fdPut_set hlt, fdPut_set hlt, DfsFd.put_two href,
        DfsFd.put_one rfl] at h
      simp only [Prod.mk.injEq] at h
      obtain ⟨rfl, rfl, -⟩ := h
      exact .failed hslot
    | opened htext hlookup href hmagic hfs hpath =>
      rw [if_neg (Int.lt_irrefl 0), fdPut_set hlt, DfsFd.put_two href] at h
      simp only [Prod.mk.injEq] at h
      obtain ⟨rfl, rfl, -⟩ := h
      exact .opened hslot htext hlookup rfl hmagic hfs hpath

/-- The ways through `close` for a descriptor that no other call holds. -/
inductive CloseCall (table : List (DfsFilesystem FilesystemOperation)) (fds : List DfsFd)
    (fd : ℕ) : ℤ → List DfsFd → Prop
  | invalid (h : ∀ d, fds[fd]? = some d → d.magic ≠ dfsFdMagic) : CloseCall table fds fd (-1) fds
  | failed {d : DfsFd} (hd : fds[fd]? = some d) : CloseCall table fds fd (-1) fds
  | closed {d : DfsFd} (hd : fds[fd]? = some d) (hmagic : d.magic = dfsFdMagic) :
      CloseCall table fds fd 0 (fds.set fd .zero)

theorem posixClose_cases (hrefs : ∀ d, fds[fd]? = some d → d.magic = dfsFdMagic → d.refCount = 1)
    (h : posixClose table answers fds fd = some (result, fds', calls)) :
    CloseCall table fds fd result fds' := by
  unfold posixClose at h
  split at h
  · next hget =>
    simp only [Option.some.injEq, Prod.mk.injEq] at h
    obtain ⟨rfl, rfl, -⟩ := h
    refine .invalid fun d hd hmagic => ?_
    simp [fdGet, hd, hmagic] at hget
  · next fds₁ hget =>
    obtain ⟨d, hd, hget⟩ := Option.bind_eq_some_iff.mp hget
    obtain ⟨hlt, -⟩ := List.getElem?_eq_some_iff.mp hd
    split at hget
    · contradiction
    · next hmagic =>
      have hmagic := not_not.mp hmagic
      obtain rfl := Option.some.inj hget
      have href := hrefs d hd hmagic
      simp only [List.getElem?_set_self hlt, Option.bind_some, href] at h
      obtain ⟨⟨result₁, d', calls₁⟩, hclose, h⟩ := Option.map_eq_some_iff.mp h
      rw [List.set_set, fdPut_set hlt] at h
      obtain ⟨hneg, rfl⟩ | ⟨hneg, rfl⟩ := dfsFileClose_cases hclose
      · rw [if_pos hneg, DfsFd.put_two rfl] at h
        obtain ⟨rfl, rfl, -⟩ := by simpa only [Prod.mk.injEq] using h
        have hsame : fds.set fd { d with refCount := 1 } = fds := by
          rw [← href]
          exact List.set_self_of_getElem? hd
        rw [hsame]
        exact .failed hd
      · rw [if_neg hneg, DfsFd.put_two rfl, fdPut_set hlt, DfsFd.put_one rfl] at h
        obtain ⟨rfl, rfl, -⟩ := by simpa only [Prod.mk.injEq, List.set_set] using h
        exact .closed hd hmagic

end
end RtThread
