import Mathlib.Data.Set.Finite.Basic
import RtThread.Filesystems.DfsPosix
import RtThread.Library.Transition

/-!
# The check for open files

`fd_is_open` looks for a descriptor by the path below the mount point, while `dfs_file_open` stores
the path that it hands to the driver. For the root filesystem they are the same; below another mount
point they differ for a driver with full paths, and for the mount point itself.
-/
namespace RtThread
open SlashPath Transition

/-- The descriptors, with the full path that each open one was opened with. -/
structure OpenFiles where
  fds : List DfsFd
  openedAs : List (Option (List Char))
  /-- Some answer about an open file was wrong. -/
  wrong : Bool
  deriving DecidableEq

inductive FileInput where
  | openFile (workingDirectory file : CString) (flags : BitVec 32) (answers : Answers)
  | close (fd : ℕ) (answers : Answers)
  | isOpen (workingDirectory pathname : CString) (memory : Bool)
  | unlink (workingDirectory pathname : CString) (answers : Answers)

namespace OpenFiles

/-- A descriptor is open that was opened with the same full path. -/
def openAs (s : OpenFiles) (workingDirectory pathname : CString) : Bool :=
  match textOf workingDirectory true pathname with
  | some (some fullpath) => some fullpath ∈ s.openedAs
  | _ => false

variable (table : MountTable FilesystemOperation)

def step (s : OpenFiles) : FileInput → Option (OpenFiles × ℤ)
  | .openFile workingDirectory file flags answers =>
    (posixOpen table.entries answers workingDirectory.text s.fds file.text flags).map
      fun (result, fds, _) =>
        let fullpath := (textOf workingDirectory (answers.memory 0) file).join
        let openedAs := if result < 0 then s.openedAs else s.openedAs.set result.toNat fullpath
        ({ s with fds := fds, openedAs := openedAs }, result)
  | .close fd answers =>
    (posixClose table.entries answers s.fds fd).map fun (result, fds, _) =>
      let openedAs := if result < 0 then s.openedAs else s.openedAs.set fd none
      ({ s with fds := fds, openedAs := openedAs }, result)
  | .isOpen workingDirectory pathname memory =>
    (fdIsOpen table.entries s.fds workingDirectory.text pathname.text memory).map fun result =>
      let right := decide (result = 0) == s.openAs workingDirectory pathname
      ({ s with wrong := s.wrong || !right }, result)
  | .unlink workingDirectory pathname answers =>
    (dfsFileUnlink table.entries workingDirectory.text answers s.fds pathname.text).map
      fun (result, calls) =>
        let refused := calls == []
        ({ s with wrong := s.wrong || s.openAs workingDirectory pathname && !refused }, result)

def machine : Machine OpenFiles FileInput ℤ := ⟨step table⟩

def initial : OpenFiles :=
  ⟨List.replicate dfsFdMax .zero, List.replicate dfsFdMax none, false⟩

/-- `fd_is_open` answers 0 for the paths that are open and for no others, and no open path has been
removed. -/
def Agrees (s : OpenFiles) : Prop :=
  s.wrong = false ∧ ∀ workingDirectory pathname, textOf workingDirectory true pathname ≠ none →
    fdIsOpen table.entries s.fds workingDirectory.text pathname.text true =
      some (if s.openAs workingDirectory pathname then 0 else -1)

/-- The driver is handed what `fd_is_open` compares with. -/
def Comparable (fs : MountPoint) (fullpath : List Char) : Prop :=
  fs.path = ['/'] ∨ fs.ops.fullpath = false ∧ fullpath ≠ fs.path

/-- The condition on a call. -/
def CallOk (s : OpenFiles) : FileInput → Prop
  | .openFile workingDirectory file flags answers =>
    ∀ result fds calls,
      posixOpen table.entries answers workingDirectory.text s.fds file.text flags =
        some (result, fds, calls) → 0 ≤ result →
      ∀ fullpath fs, textOf workingDirectory (answers.memory 0) file = some (some fullpath) →
        mountPoint table.entries fullpath = some fs →
          Comparable fs fullpath ∧ (fs.ops.fullpath = true ∨ answers.memory 1 = true)
  | .close _ _ => True
  | .isOpen workingDirectory pathname memory =>
    s.openAs workingDirectory pathname = true → memory = true
  | .unlink workingDirectory pathname answers =>
    s.openAs workingDirectory pathname = true →
      ∀ fullpath fs, textOf workingDirectory (answers.memory 0) pathname = some (some fullpath) →
        mountPoint table.entries fullpath = some fs →
          answers.memory 1 = true ∨ fs.ops.hasUnlink = false

/-! ## What is compared -/

section
variable {table : MountTable FilesystemOperation} {fs : MountPoint}
  {names names' : List (List Char)} {answers : Answers}

theorem mountPath_eq (h : Serves table.entries fs names) :
    mountPath fs (path names) =
      if fs.path = ['/'] then path names
      else if names = components fs.path then [] else belowMount fs names := by
  obtain ⟨hmount, -⟩ := h.mount_path
  obtain ⟨rest, hrest⟩ := h.covers
  unfold mountPath
  split
  · rfl
  · next hroot =>
    have hne : components fs.path ≠ [] := by
      intro he
      rw [he] at hmount
      exact hroot hmount
    by_cases he : rest = []
    · rw [he, List.append_nil] at hrest
      rw [if_pos hrest.symm, ← hrest, ← hmount, List.drop_length]
    · have hself : names ≠ components fs.path := by
        intro hself
        rw [hself] at hrest
        exact he (by simpa using hrest)
      rw [if_neg hself, belowMount, ← hrest, List.drop_left, path_append hne he, ← hmount,
        List.drop_left]

theorem belowMount_injective (h : Serves table.entries fs names)
    (h' : Serves table.entries fs names') (hnames : ∀ c ∈ names, IsName c)
    (hnames' : ∀ c ∈ names', IsName c) (he : belowMount fs names = belowMount fs names') :
    names = names' := by
  obtain ⟨rest, rfl⟩ := h.covers
  obtain ⟨rest', rfl⟩ := h'.covers
  rw [belowMount, belowMount, List.drop_left, List.drop_left] at he
  rw [path_injective (fun c hc => hnames c (List.mem_append_right _ hc))
    (fun c hc => hnames' c (List.mem_append_right _ hc)) he]

/-- Two paths on a filesystem are compared by their names. -/
theorem mountPath_injective (h : Serves table.entries fs names)
    (h' : Serves table.entries fs names') (hnames : ∀ c ∈ names, IsName c)
    (hnames' : ∀ c ∈ names', IsName c)
    (he : mountPath fs (path names) = mountPath fs (path names')) : names = names' := by
  rw [mountPath_eq h, mountPath_eq h'] at he
  split at he
  · exact path_injective hnames hnames' he
  · split at he
    · next hn =>
      split at he
      · next hn' => rw [hn, hn']
      · exact absurd he.symm (List.cons_ne_nil _ _)
    · split at he
      · exact absurd he (List.cons_ne_nil _ _)
      · exact belowMount_injective h h' hnames hnames' he

theorem driverPath_eq_mountPath_iff (h : Serves table.entries fs names)
    (hstack : ∀ c ∈ names, IsName c ∧ nul ∉ c) :
    driverPath fs names = mountPath fs (path names) ↔ Comparable fs (path names) := by
  have hnames : ∀ c ∈ names, IsName c := fun c hc => (hstack c hc).1
  obtain ⟨hmount, hcomponents⟩ := h.mount_path
  have hat := h.at_mount hstack
  obtain ⟨rest, hrest⟩ := h.covers
  rw [mountPath_eq h, driverPath, Comparable]
  by_cases hroot : fs.path = ['/']
  · simp [hroot, belowMount]
  · have hne : components fs.path ≠ [] := by
      intro he
      rw [he] at hmount
      exact hroot hmount
    simp only [hroot, if_false, false_or]
    by_cases hself : names = components fs.path
    · rw [if_pos hself]
      refine iff_of_false ?_ fun hc => hc.2 (hat.mpr hself)
      split <;> exact List.cons_ne_nil _ _
    · rw [if_neg hself]
      cases fs.ops.fullpath with
      | true =>
        refine iff_of_false (fun he => ?_) (by simp)
        rw [if_pos rfl, belowMount, ← hrest, List.drop_left] at he
        rw [← hrest] at hnames
        have hlen := congrArg List.length (path_injective hnames
          (fun c hc => hnames c (List.mem_append_right _ hc)) he)
        rw [List.length_append] at hlen
        exact hne (List.length_eq_zero_iff.mp (by omega))
      | false => simpa [hat] using hself

theorem openedPath_iff (h : Serves table.entries fs names)
    (hstack : ∀ c ∈ names, IsName c ∧ nul ∉ c) :
    openedPath answers fs (path names) = some (mountPath fs (path names)) ↔
      Comparable fs (path names) ∧ (fs.ops.fullpath = true ∨ answers.memory 1 = true) := by
  rw [openedPath_eq h hstack, ← driverPath_eq_mountPath_iff h hstack]
  split
  · next hmem => simp [hmem]
  · next hmem => simp [hmem]

end

/-! ## The search -/

section
variable {fds : List DfsFd} {a : ℕ} {m : List Char}

theorem searchFd_eq (h : ∀ fd ∈ fds, fd.fs = some a → fd.path ≠ none) :
    searchFd a m fds =
      some (if ∃ fd ∈ fds, fd.fs = some a ∧ fd.path = some m then 0 else -1) := by
  induction fds with
  | nil => simp [searchFd]
  | cons fd fds ih =>
    have ih := ih fun fd' hfd' => h fd' (List.mem_cons_of_mem fd hfd')
    have hhead := h fd List.mem_cons_self
    rw [searchFd]
    by_cases hnone : fd.fs = none
    · rw [if_pos hnone, ih]
      simp [hnone]
    · rw [if_neg hnone]
      by_cases hfs : fd.fs = some a
      · obtain ⟨p, hp⟩ := Option.ne_none_iff_exists'.mp (hhead hfs)
        rw [if_pos hfs, hp, Option.bind_some, ih]
        by_cases hpm : p = m
        · simp [hpm, hfs, hp]
        · simp [hpm, hp]
      · rw [if_neg hfs, ih]
        simp [hfs]

theorem searchFd_zero (h : searchFd a m fds = some 0) :
    ∃ fd ∈ fds, fd.fs = some a ∧ fd.path = some m := by
  induction fds with
  | nil => simp [searchFd] at h
  | cons fd fds ih =>
    have hrest : searchFd a m fds = some 0 → ∃ fd' ∈ fd :: fds, fd'.fs = some a ∧
        fd'.path = some m := by
      intro hs
      obtain ⟨fd', hmem, hfd'⟩ := ih hs
      exact ⟨fd', List.mem_cons_of_mem fd hmem, hfd'⟩
    unfold searchFd at h
    split at h
    · exact hrest h
    · split at h
      · next hfs =>
        obtain ⟨p, hp, h⟩ := Option.bind_eq_some_iff.mp h
        split at h
        · next hpm => exact ⟨fd, List.mem_cons_self, hfs, by rw [hp, hpm]⟩
        · exact hrest h
      · exact hrest h

/-- A descriptor without a path is met when no other one is found. -/
theorem searchFd_none {fd : DfsFd} (hmem : fd ∈ fds) (hfs : fd.fs = some a) (hpath : fd.path = none)
    (hno : ∀ fd' ∈ fds, fd'.fs = some a → fd'.path ≠ some m) : searchFd a m fds = none := by
  induction fds with
  | nil => exact absurd hmem List.not_mem_nil
  | cons fd' fds ih =>
    have hno' := hno fd' List.mem_cons_self
    have hrest : fd ∈ fds → searchFd a m fds = none := fun hm =>
      ih hm fun fd'' hfd'' => hno fd'' (List.mem_cons_of_mem fd' hfd'')
    rw [searchFd]
    rcases List.mem_cons.mp hmem with rfl | hmem
    · rw [if_neg (by simp [hfs]), if_pos hfs, hpath, Option.bind_none]
    · have hrest := hrest hmem
      split
      · exact hrest
      · split
        · next hfs' =>
          cases hp : fd'.path with
          | none => rfl
          | some p =>
            have hpm : p ≠ m := fun he => hno' hfs' (by rw [hp, he])
            rw [Option.bind_some, if_neg hpm, hrest]
        · exact hrest

end
/-! ## The table of descriptors -/

/-- An entry of the table: free, or open and stored as it is looked for. -/
inductive Slot (table : MountTable FilesystemOperation) : DfsFd → Option (List Char) → Prop
  | free : Slot table .zero none
  | used {d : DfsFd} {names : List (List Char)} {fs : MountPoint} (href : d.refCount = 1)
      (hmagic : d.magic = dfsFdMagic) (hstack : ∀ c ∈ names, IsName c ∧ nul ∉ c)
      (hserves : Serves table.entries fs names) (hfs : d.fs = some fs.address)
      (hpath : d.path = some (mountPath fs (path names)))
      (hcomparable : Comparable fs (path names)) : Slot table d (some (path names))

structure Inv (table : MountTable FilesystemOperation) (s : OpenFiles) : Prop where
  right : s.wrong = false
  slots : List.Forall₂ (Slot table) s.fds s.openedAs

section
variable {table : MountTable FilesystemOperation} {s s' : OpenFiles} {i : ℕ} {d : DfsFd}
  {o : Option (List Char)} {names : List (List Char)} {fs : MountPoint}

theorem Inv.exists_slot (h : Inv table s) (hd : d ∈ s.fds) :
    ∃ i : ℕ, ∃ o, s.fds[i]? = some d ∧ s.openedAs[i]? = some o ∧ Slot table d o := by
  obtain ⟨i, hi⟩ := List.mem_iff_getElem?.mp hd
  obtain ⟨o, ho, hslot⟩ := h.slots.exists_right hi
  exact ⟨i, o, hi, ho, hslot⟩

theorem Inv.exists_fd (h : Inv table s) (ho : o ∈ s.openedAs) :
    ∃ i : ℕ, ∃ d, s.fds[i]? = some d ∧ s.openedAs[i]? = some o ∧ Slot table d o := by
  obtain ⟨i, hi⟩ := List.mem_iff_getElem?.mp ho
  obtain ⟨d, hd, hslot⟩ := h.slots.exists_left hi
  exact ⟨i, d, hd, hi, hslot⟩

/-- An open file has a path that lies on its filesystem. -/
theorem Inv.mem_openedAs (h : Inv table s) {fullpath : List Char}
    (hmem : some fullpath ∈ s.openedAs) : ∃ names fs d, fullpath = path names ∧ d ∈ s.fds ∧
      (∀ c ∈ names, IsName c ∧ nul ∉ c) ∧ Serves table.entries fs names ∧
      d.fs = some fs.address ∧ d.path = some (mountPath fs (path names)) := by
  obtain ⟨i, d, hd, -, hslot⟩ := h.exists_fd hmem
  generalize ho : some fullpath = o at hslot
  cases hslot with
  | free => contradiction
  | used _ _ hstack hserves hfs hpath _ =>
    obtain rfl := Option.some.inj ho
    exact ⟨_, _, d, rfl, List.mem_of_getElem? hd, hstack, hserves, hfs, hpath⟩

/-- A descriptor that compares equal was opened with the same names. -/
theorem Inv.same_names (h : Inv table s) (hstack : ∀ c ∈ names, IsName c ∧ nul ∉ c)
    (hserves : Serves table.entries fs names) (hd : d ∈ s.fds) (hfs : d.fs = some fs.address)
    (hpath : d.path = some (mountPath fs (path names))) :
    some (path names) ∈ s.openedAs ∧ Comparable fs (path names) := by
  obtain ⟨i, o, -, ho, hslot⟩ := h.exists_slot hd
  cases hslot with
  | free => contradiction
  | @used _ names' fs' _ _ hstack' hserves' hfs' hpath' hcomparable =>
    obtain rfl := hserves'.ext hserves (Option.some.inj (hfs'.symm.trans hfs))
    obtain rfl := mountPath_injective hserves' hserves (fun c hc => (hstack' c hc).1)
      (fun c hc => (hstack c hc).1) (Option.some.inj (hpath'.symm.trans hpath))
    exact ⟨List.mem_of_getElem? ho, hcomparable⟩

theorem Inv.fd_path (h : Inv table s) (hd : d ∈ s.fds) {a : ℕ} (hfs : d.fs = some a) :
    d.path ≠ none := by
  obtain ⟨i, o, -, -, hslot⟩ := h.exists_slot hd
  cases hslot with
  | free => contradiction
  | used _ _ _ _ _ hpath _ => simp [hpath]

/-- On a mounted filesystem the search finds the open paths. -/
theorem Inv.searchFd_eq (h : Inv table s) (hstack : ∀ c ∈ names, IsName c ∧ nul ∉ c)
    (hserves : Serves table.entries fs names) :
    searchFd fs.address (mountPath fs (path names)) s.fds =
      some (if some (path names) ∈ s.openedAs then 0 else -1) := by
  rw [OpenFiles.searchFd_eq fun fd hfd hfs => h.fd_path hfd hfs]
  congr 2
  refine propext ⟨?_, fun hmem => ?_⟩
  · rintro ⟨fd, hfd, hfs, hpath⟩
    exact (h.same_names hstack hserves hfd hfs hpath).1
  · obtain ⟨names', fs', d, he, hd, hstack', hserves', hfs, hpath⟩ := h.mem_openedAs hmem
    obtain rfl := path_injective (fun c hc => (hstack c hc).1) (fun c hc => (hstack' c hc).1) he
    obtain rfl := hserves.unique hserves'
    exact ⟨d, hd, hfs, hpath⟩

theorem Inv.agrees (h : Inv table s) : Agrees table s := by
  refine ⟨h.right, fun workingDirectory pathname hinside => ?_⟩
  unfold fdIsOpen
  change (textOf workingDirectory true pathname).bind _ = _
  cases located table workingDirectory true pathname with
  | outside htext => exact absurd htext hinside
  | invalid htext _ => simp [openAs, htext]
  | unmounted htext hlookup _ =>
    have hclosed : s.openAs workingDirectory pathname = false := by
      simp only [openAs, htext, decide_eq_false_iff_not]
      intro hmem
      obtain ⟨names, fs, d, rfl, -, hstack, hserves, -, -⟩ := h.mem_openedAs hmem
      rw [hserves.lookup hstack] at hlookup
      contradiction
    simp [htext, hlookup, hclosed]
  | mounted hon =>
    simp only [openAs, hon.text, Option.bind_some, hon.lookup, decide_eq_true_eq]
    exact h.searchFd_eq hon.stack hon.serves

/-! ## One call -/

/-- What happens to the table of descriptors in a call. -/
inductive FilesCase (table : MountTable FilesystemOperation) (s : OpenFiles) :
    FileInput → OpenFiles → Prop
  | same {i : FileInput} (hok : CallOk table s i) : FilesCase table s i s
  | freed {workingDirectory file : CString} {flags : BitVec 32} {answers : Answers} {fd : ℕ}
      (hslot : FreeSlot s.fds fd)
      (hok : CallOk table s (.openFile workingDirectory file flags answers)) :
      FilesCase table s (.openFile workingDirectory file flags answers)
        { s with fds := s.fds.set fd .zero }
  | opened {workingDirectory file : CString} {flags : BitVec 32} {answers : Answers} {fd : ℕ}
      {d : DfsFd} {names : List (List Char)} {fs : MountPoint} (hslot : FreeSlot s.fds fd)
      (hstack : ∀ c ∈ names, IsName c ∧ nul ∉ c)
      (htext : textOf workingDirectory (answers.memory 0) file = some (some (path names)))
      (hserves : Serves table.entries fs names) (href : d.refCount = 1)
      (hmagic : d.magic = dfsFdMagic) (hfs : d.fs = some fs.address)
      (hpath : d.path = openedPath answers fs (path names))
      (hok : CallOk table s (.openFile workingDirectory file flags answers) ↔
        Comparable fs (path names) ∧ (fs.ops.fullpath = true ∨ answers.memory 1 = true)) :
      FilesCase table s (.openFile workingDirectory file flags answers)
        { s with
          fds := s.fds.set fd d
          openedAs := s.openedAs.set fd (some (path names)) }
  | closed {fd : ℕ} {answers : Answers} :
      FilesCase table s (.close fd answers)
        { s with fds := s.fds.set fd .zero, openedAs := s.openedAs.set fd none }
  | answered {i : FileInput} {wrong : Bool} (hright : CallOk table s i ↔ wrong = false) :
      FilesCase table s i { s with wrong := wrong }

/-- An open path is found in the table, given memory for the comparison. -/
theorem Inv.fdIsOpen_eq (h : Inv table s) {workingDirectory pathname : CString}
    {memory : Bool} {result : ℤ}
    (hresult : fdIsOpen table.entries s.fds workingDirectory.text pathname.text memory =
      some result) :
    result = if memory = true ∧ s.openAs workingDirectory pathname = true then 0 else -1 := by
  cases memory with
  | false =>
    have hfailed : fdIsOpen table.entries s.fds workingDirectory.text pathname.text false =
      some (-1) := rfl
    simpa using Option.some.inj (hresult.symm.trans hfailed)
  | true =>
    have hinside : textOf workingDirectory true pathname ≠ none := by
      intro hnone
      unfold textOf at hnone
      simp [fdIsOpen, hnone] at hresult
    have hagrees := h.agrees.2 workingDirectory pathname hinside
    simpa using Option.some.inj (hresult.symm.trans hagrees)

/-- An open path lies on a mounted filesystem. -/
theorem Inv.onMounted (h : Inv table s) {workingDirectory pathname : CString}
    (hopen : s.openAs workingDirectory pathname = true) :
    ∃ names fs, OnMounted table workingDirectory true pathname names fs ∧
      some (path names) ∈ s.openedAs := by
  cases located table workingDirectory true pathname with
  | outside htext => simp [openAs, htext] at hopen
  | invalid htext _ => simp [openAs, htext] at hopen
  | unmounted htext hlookup _ =>
    simp only [openAs, htext, decide_eq_true_eq] at hopen
    obtain ⟨names, fs, d, rfl, -, hstack, hserves, -, -⟩ := h.mem_openedAs hopen
    rw [hserves.lookup hstack] at hlookup
    contradiction
  | @mounted names fs hon =>
    simp only [openAs, hon.text, decide_eq_true_eq] at hopen
    exact ⟨names, fs, hon, hopen⟩

/-- An open path on a mounted filesystem is removed only if there is no memory for the
comparison. -/
theorem Inv.unlink_mounted (h : Inv table s) {workingDirectory pathname : CString}
    {answers : Answers} {result : ℤ} {calls : List DriverCall}
    (hon : OnMounted table workingDirectory (answers.memory 0) pathname names fs)
    (hmem : some (path names) ∈ s.openedAs)
    (hunlink : dfsFileUnlink table.entries workingDirectory.text answers s.fds pathname.text =
      some (result, calls)) :
    (answers.memory 1 = true ∨ fs.ops.hasUnlink = false) ↔ calls = [] := by
  have hperform : perform table workingDirectory answers s.fds .zero
    (.onPath .unlink pathname) = _ := perform_unlink hon
  change dfsFileUnlink _ _ _ _ _ = _ at hperform
  rw [hunlink] at hperform
  let full : CString := ⟨path names, Normalizer.nul_not_mem_path hon.stack⟩
  have hopen : s.openAs workingDirectory full = true := by
    have htext : textOf workingDirectory true full = some (some (path names)) :=
      normalizedText_path workingDirectory.text hon.stack
    simpa only [openAs, htext, decide_eq_true_eq] using hmem
  obtain ⟨isOpen, hisOpen, he⟩ := Option.bind_eq_some_iff.mp hperform.symm
  have hvalue : isOpen = if answers.memory 1 = true ∧ s.openAs workingDirectory full = true
    then 0 else -1 := h.fdIsOpen_eq hisOpen
  simp only [hopen, and_true] at hvalue
  cases hnext : answers.memory 1 with
  | true =>
    rw [hnext, if_pos rfl] at hvalue
    rw [if_pos hvalue] at he
    simp only [Option.some.injEq, Prod.mk.injEq] at he
    exact iff_of_true (.inl rfl) he.2.symm
  | false =>
    rw [hnext, if_neg (by decide)] at hvalue
    rw [if_neg (by rw [hvalue]; decide)] at he
    cases hhas : fs.ops.hasUnlink with
    | true =>
      simp only [hhas, if_true, Option.some.injEq, Prod.mk.injEq] at he
      simp [← he.2]
    | false =>
      simp only [hhas, Bool.false_eq_true, if_false, Option.some.injEq, Prod.mk.injEq] at he
      exact iff_of_true (.inr rfl) he.2.symm

theorem Inv.unlink_calls (h : Inv table s) {workingDirectory pathname : CString}
    {answers : Answers} {result : ℤ} {calls : List DriverCall}
    (hopen : s.openAs workingDirectory pathname = true)
    (hunlink : dfsFileUnlink table.entries workingDirectory.text answers s.fds pathname.text =
      some (result, calls)) :
    CallOk table s (.unlink workingDirectory pathname answers) ↔ calls = [] := by
  obtain ⟨names, fs, hon, hmem⟩ := h.onMounted hopen
  cases hmemory : answers.memory 0 with
  | false =>
    -- nothing is normalised, and nothing removed
    have htext : textOf workingDirectory (answers.memory 0) pathname = some none := by
      rw [hmemory]
      rfl
    obtain ⟨result', -, hfailed⟩ : ∃ result' < 0,
      perform table workingDirectory answers s.fds .zero (.onPath .unlink pathname) =
        some (result', []) := perform_invalid htext
    change dfsFileUnlink _ _ _ _ _ = _ at hfailed
    rw [hunlink, Option.some.injEq, Prod.mk.injEq] at hfailed
    refine iff_of_true (fun _ fullpath fs' htext' => ?_) hfailed.2
    simp [htext] at htext'
  | true =>
    have hon' : OnMounted table workingDirectory (answers.memory 0) pathname names fs := by
      rwa [hmemory]
    rw [← h.unlink_mounted hon' hmem hunlink]
    refine ⟨fun hok => hok hopen _ _ hon'.text hon'.lookup, fun hok _ fullpath fs' ht hl => ?_⟩
    obtain ⟨-, rfl⟩ := hon'.same ht hl
    exact hok

theorem Inv.step_cases (h : Inv table s) {i : FileInput} {o : ℤ}
    (hs : (machine table).step s i = some (s', o)) : FilesCase table s i s' := by
  cases i with
  | openFile workingDirectory file flags answers =>
    obtain ⟨⟨result, fds, calls⟩, hopen, he⟩ := Option.map_eq_some_iff.mp hs
    obtain ⟨rfl, rfl⟩ := Prod.mk.inj he
    have hfailed : result < 0 → CallOk table s (.openFile workingDirectory file flags answers) := by
      intro hneg _ _ _ hopen' hnonneg
      rw [hopen, Option.some.injEq, Prod.mk.injEq] at hopen'
      omega
    cases posixOpen_cases hopen with
    | full => exact .same (hfailed (by decide))
    | failed hslot => exact .freed hslot (hfailed (by decide))
    | @opened fd fullpath fs d hslot htext hlookup href hmagic hfs hpath =>
      have hnonneg : ¬ (fd : ℤ) < 0 := by omega
      have hok : CallOk table s (.openFile workingDirectory file flags answers) ↔
          Comparable fs fullpath ∧ (fs.ops.fullpath = true ∨ answers.memory 1 = true) := by
        refine ⟨fun hok => hok _ _ _ hopen (by omega) _ _ htext hlookup, ?_⟩
        intro hok _ _ _ _ _ fullpath' fs' htext' hlookup'
        obtain rfl := Option.some.inj (Option.some.inj (htext.symm.trans htext'))
        obtain rfl := Option.some.inj (hlookup.symm.trans hlookup')
        exact hok
      have htext' : textOf workingDirectory (answers.memory 0) file = some (some fullpath) := htext
      obtain ⟨hnone, -⟩ | ⟨names, fs', rfl, hon⟩ := located_text table htext'
      · rw [hlookup] at hnone
        contradiction
      · obtain rfl := (hon.same htext' hlookup).2
        simp only [if_neg hnonneg, Int.toNat_natCast, htext', Option.join_some]
        exact .opened hslot hon.stack htext' hon.serves href hmagic hfs hpath hok
  | close fd answers =>
    obtain ⟨⟨result, fds, calls⟩, hclose, he⟩ := Option.map_eq_some_iff.mp hs
    obtain ⟨rfl, rfl⟩ := Prod.mk.inj he
    have hrefs : ∀ d, s.fds[fd]? = some d → d.magic = dfsFdMagic → d.refCount = 1 := by
      intro d hd hmagic
      obtain ⟨i, o, -, -, hslot⟩ := h.exists_slot (List.mem_of_getElem? hd)
      cases hslot with
      | free => exact absurd hmagic (by decide)
      | used href => exact href
    cases posixClose_cases hrefs hclose with
    | invalid => exact .same trivial
    | failed => exact .same trivial
    | closed => exact .closed
  | isOpen workingDirectory pathname memory =>
    obtain ⟨result, hresult, he⟩ := Option.map_eq_some_iff.mp hs
    obtain ⟨rfl, rfl⟩ := Prod.mk.inj he
    refine .answered ?_
    rw [h.right, Bool.false_or, h.fdIsOpen_eq hresult, CallOk]
    cases memory <;> cases s.openAs workingDirectory pathname <;> simp
  | unlink workingDirectory pathname answers =>
    obtain ⟨⟨result, calls⟩, hunlink, he⟩ := Option.map_eq_some_iff.mp hs
    obtain ⟨rfl, rfl⟩ := Prod.mk.inj he
    refine .answered ?_
    rw [h.right, Bool.false_or]
    cases hopen : s.openAs workingDirectory pathname with
    | false => simp [CallOk, hopen]
    | true =>
      rw [h.unlink_calls hopen hunlink]
      simp

/-- A slot whose descriptor has no reference is empty already. -/
theorem Inv.set_zero (h : Inv table s) {fd : ℕ} (hslot : FreeSlot s.fds fd) :
    s.fds.set fd .zero = s.fds := by
  obtain ⟨d, hd, href⟩ := hslot
  obtain ⟨o, -, hslot⟩ := h.slots.exists_right hd
  cases hslot with
  | free => exact List.set_self_of_getElem? hd
  | used href' => omega

/-- A slot is replaced in both tables. -/
theorem Inv.set (h : Inv table s) (fd : ℕ) (hslot : Slot table d o) :
    Inv table { s with fds := s.fds.set fd d, openedAs := s.openedAs.set fd o } :=
  ⟨h.right, h.slots.set fd hslot⟩

theorem Inv.step (h : Inv table s) {i : FileInput} {out : ℤ} (hok : CallOk table s i)
    (hs : (machine table).step s i = some (s', out)) : Inv table s' := by
  cases h.step_cases hs with
  | same => exact h
  | freed hslot _ =>
    rw [h.set_zero hslot]
    exact h
  | opened hslot hstack htext hserves href hmagic hfs hpath hok' =>
    obtain ⟨hcomparable, hmemory⟩ := hok'.mp hok
    refine h.set _ (.used href hmagic hstack hserves hfs ?_ hcomparable)
    rw [hpath, (openedPath_iff hserves hstack).mpr ⟨hcomparable, hmemory⟩]
  | closed => exact h.set _ .free
  | answered hright => exact ⟨hright.mp hok, h.slots⟩

/-! ## An open that is not found -/

theorem exists_new_component (known : List (List Char)) :
    ∃ c, IsName c ∧ nul ∉ c ∧ c ∉ known := by
  let name : ℕ → List Char := fun n => List.replicate (n + 1) 'a'
  have hinj : Function.Injective name := by
    intro m n he
    simpa [name] using congrArg List.length he
  obtain ⟨_, ⟨n, rfl⟩, hnew⟩ :=
    (Set.infinite_range_of_injective hinj).exists_notMem_finset known.toFinset
  have hchars : ∀ c ∈ name n, c = 'a' := fun c hc => List.eq_of_mem_replicate hc
  refine ⟨name n, ⟨by simp [name], fun hm => ?_, fun he => ?_, fun he => ?_⟩, fun hm => ?_,
    by simpa using hnew⟩
  · exact absurd (hchars _ hm) (by decide)
  · exact absurd (hchars '.' (by rw [he]; decide)) (by decide)
  · exact absurd (hchars '.' (by rw [he]; decide)) (by decide)
  · exact absurd (hchars _ hm) (by decide)

/-- Below each mount point there is a path that is neither mounted nor open. -/
theorem exists_closed_path (s : OpenFiles) (hserves : Serves table.entries fs names) :
    ∃ names', (∀ c ∈ names', IsName c ∧ nul ∉ c) ∧ Serves table.entries fs names' ∧
      some (path names') ∉ s.openedAs := by
  obtain ⟨c, hname, hnul, hnew⟩ := exists_new_component
    ((table.entries.flatMap fun entry => components (entry.path.getD [])) ++
      s.openedAs.flatMap fun o => components (o.getD []))
  simp only [List.mem_append, List.mem_flatMap, not_or, not_exists, not_and] at hnew
  obtain ⟨hmounts, hopen⟩ := hnew
  obtain ⟨-, hcomponents⟩ := hserves.mount_path
  obtain ⟨-, hmountnul⟩ := table.normal _ (List.mem_of_getElem? hserves.entry) fs.path
    ⟨rfl, by simp⟩
  have hstack : ∀ d ∈ components fs.path ++ [c], IsName d ∧ nul ∉ d := by
    intro d hd
    rcases List.mem_append.mp hd with hd | hd
    · exact ⟨hcomponents d hd, fun hm => hmountnul (mem_of_mem_components hd hm)⟩
    · rw [List.mem_singleton.mp hd]
      exact ⟨hname, hnul⟩
  refine ⟨components fs.path ++ [c], hstack, ⟨hserves.entry, List.prefix_append _ _, ?_⟩, ?_⟩
  · intro i entry mount hi hne hmounted hcovers
    rcases List.prefix_concat_iff.mp hcovers with he | hcovers
    · refine absurd ?_ (hmounts entry (List.mem_of_getElem? hi))
      rw [hmounted.1, Option.getD_some, he]
      simp
    · exact hserves.longest i entry mount hi hne hmounted (hcovers.trans hserves.covers)
  · intro hmem
    refine hopen _ hmem ?_
    rw [Option.getD_some, components_path fun d hd => (hstack d hd).1]
    simp

theorem fdIsOpen_path (workingDirectory : List Char) (fds : List DfsFd)
    (hstack : ∀ c ∈ names, IsName c ∧ nul ∉ c) (hserves : Serves table.entries fs names) :
    fdIsOpen table.entries fds workingDirectory (path names) true =
      searchFd fs.address (mountPath fs (path names)) fds := by
  simp only [fdIsOpen, normalizedText_path workingDirectory hstack, Option.bind_some,
    hserves.lookup hstack]

/-- A file that is not stored as it is looked for is not found. -/
theorem Inv.opened_ok (h : Inv table s) {fd : ℕ} {answers : Answers} (hlt : fd < s.fds.length)
    (hstack : ∀ c ∈ names, IsName c ∧ nul ∉ c) (hserves : Serves table.entries fs names)
    (hfs : d.fs = some fs.address) (hpath : d.path = openedPath answers fs (path names))
    (hagrees : Agrees table { s with
      fds := s.fds.set fd d
      openedAs := s.openedAs.set fd (some (path names)) }) :
    Comparable fs (path names) ∧ (fs.ops.fullpath = true ∨ answers.memory 1 = true) := by
  have hanswer : ∀ names', (hstack' : ∀ c ∈ names', IsName c ∧ nul ∉ c) →
      Serves table.entries fs names' →
      searchFd fs.address (mountPath fs (path names')) (s.fds.set fd d) =
        some (if some (path names') ∈ s.openedAs.set fd (some (path names)) then 0 else -1) := by
    intro names' hstack' hserves'
    have htext := normalizedText_path root.text hstack'
    have hright := hagrees.2 root ⟨path names', Normalizer.nul_not_mem_path hstack'⟩
      (by simp [textOf, htext])
    rw [fdIsOpen_path root.text _ hstack' hserves'] at hright
    simpa only [openAs, textOf, htext, decide_eq_true_eq] using hright
  have hset : ∀ fd' ∈ s.fds.set fd d, fd' = d ∨ fd' ∈ s.fds := fun fd' hfd' =>
    (List.mem_or_eq_of_mem_set hfd').symm
  have hd : d ∈ s.fds.set fd d := List.mem_set hlt d
  have hmemory : fs.ops.fullpath = true ∨ answers.memory 1 = true := by
    by_contra hno
    have hnone : d.path = none := by rw [hpath, openedPath_eq hserves hstack, if_neg hno]
    obtain ⟨names', hstack', hserves', hclosed⟩ := exists_closed_path s hserves
    have hno' : ∀ fd' ∈ s.fds.set fd d, fd'.fs = some fs.address →
        fd'.path ≠ some (mountPath fs (path names')) := by
      intro fd' hfd' hfs' hp
      rcases hset fd' hfd' with rfl | hfd'
      · rw [hnone] at hp
        contradiction
      · exact hclosed (h.same_names hstack' hserves' hfd' hfs' hp).1
    have hsearch := searchFd_none hd hfs hnone hno'
    rw [hanswer names' hstack' hserves'] at hsearch
    contradiction
  refine ⟨?_, hmemory⟩
  have hsearch := hanswer names hstack hserves
  rw [if_pos (List.mem_set (by rw [← h.slots.length_eq]; exact hlt) _)] at hsearch
  obtain ⟨fd', hfd', hfs', hp⟩ := searchFd_zero hsearch
  rcases hset fd' hfd' with rfl | hfd'
  · exact ((openedPath_iff hserves hstack).mp (hpath.symm.trans hp)).1
  · exact (h.same_names hstack hserves hfd' hfs' hp).2

theorem Inv.ok (h : Inv table s) {i : FileInput} {out : ℤ}
    (hs : (machine table).step s i = some (s', out)) (hagrees : Agrees table s') :
    CallOk table s i := by
  cases h.step_cases hs with
  | same hok => exact hok
  | freed _ hok => exact hok
  | opened hslot hstack htext hserves href hmagic hfs hpath hok' =>
    obtain ⟨d', hd', -⟩ := hslot
    obtain ⟨hlt, -⟩ := List.getElem?_eq_some_iff.mp hd'
    exact hok'.mpr (h.opened_ok hlt hstack hserves hfs hpath hagrees)
  | closed => trivial
  | answered hright => exact hright.mpr hagrees.1

theorem inv_initial (table : MountTable FilesystemOperation) : Inv table initial :=
  ⟨rfl, .replicate .free dfsFdMax⟩

/-- The check agrees with the open files, and keeps them from being removed, exactly when every file
that is opened is stored as it is looked for, and the comparisons get their memory. -/
theorem is_open_agrees_iff (table : MountTable FilesystemOperation) (is : List FileInput) :
    (machine table).Always (Agrees table) initial is ↔
      (machine table).Meets (CallOk table) initial is :=
  Machine.always_iff_meets (fun _ h => h.agrees) (fun _ _ _ _ h hok hs => h.step hok hs)
    (fun _ _ _ _ h hs hagrees => h.ok hs hagrees) (inv_initial table)

end

def mnt : CString := ⟨['/', 'm', 'n', 't'], by decide⟩

/-- The type `elm` mounted on `/mnt`. -/
def elmOnMnt : MountTable FilesystemOperation where
  entries := [⟨some mnt.text, some elmOperation⟩]
  normal := by
    intro fs hfs mount hmounted
    obtain rfl := List.mem_singleton.mp hfs
    obtain rfl := Option.some.inj hmounted.1
    have hnames : ∀ c ∈ [['m', 'n', 't']], IsName c := by decide
    exact ⟨normal_path hnames, mnt.noNul⟩
  distinct := by simp

/-- The descriptor of an open directory at a mount point holds `/`, which is not looked for. -/
theorem mount_point_not_found : ¬ (machine elmOnMnt).Always (Agrees elmOnMnt) initial
    [.openFile root mnt dfsODirectory ⟨fun _ => true, fun _ => 0⟩] := by
  intro h
  obtain ⟨⟨s, o⟩, hs, hfound⟩ := Option.map_eq_some_iff.mp
    (show ((machine elmOnMnt).step initial
      (.openFile root mnt dfsODirectory ⟨fun _ => true, fun _ => 0⟩)).map
        (fun r => (fdIsOpen elmOnMnt.entries r.1.fds root.text mnt.text true,
          r.1.openAs root mnt)) = some (some (-1), true) by decide +kernel)
  obtain ⟨hclosed, hopen⟩ := Prod.mk.inj hfound
  have hagrees := (h.2 s o hs).head.2 root mnt (by decide +kernel)
  rw [hclosed, hopen] at hagrees
  contradiction

end OpenFiles
end RtThread
