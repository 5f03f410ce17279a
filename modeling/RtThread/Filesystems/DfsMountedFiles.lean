import RtThread.Filesystems.DfsMountTable
import RtThread.Filesystems.DfsPosix

/-!
# Open files and mounted filesystems

A descriptor points to the entry of its filesystem, and `dfs_unmount` does not look at the
descriptors before it clears the entry.
-/
namespace RtThread
open Transition

/-- The mounted filesystems and the descriptors, with the operations of the filesystem that each
open descriptor was opened on. -/
structure MountedFiles where
  sys : MountSystem
  fds : List DfsFd
  openedOn : List (Option FilesystemOperation)

inductive MountedFilesInput where
  | mounting (i : MountInput)
  | openFile (workingDirectory file : CString) (flags : BitVec 32) (answers : Answers)
  | close (fd : ℕ) (answers : Answers)

namespace MountedFiles
open MountSystem

/-- The entry that a descriptor points to. -/
def entryOf (entries : List MountEntry) (fd : DfsFd) : Option MountEntry :=
  fd.fs.bind fun fs => entries[fs]?

variable (types : List (Option FilesystemOperation))

def step (s : MountedFiles) : MountedFilesInput → Option (MountedFiles × ℤ)
  | .mounting (.mount workingDirectory deviceName path type answers) =>
    (dfsMount types s.sys workingDirectory.text deviceName path.text type answers).map
      fun (result, sys) => ({ s with sys := sys }, result)
  | .mounting (.unmount workingDirectory specialfile answers) =>
    (s.sys.dfsUnmount workingDirectory.text specialfile.text answers).map
      fun (result, sys) => ({ s with sys := sys }, result)
  | .openFile workingDirectory file flags answers =>
    (posixOpen s.sys.filesystems answers workingDirectory.text s.fds file.text flags).map
      fun (result, fds, _) =>
        let ops := (fds[result.toNat]?.bind (entryOf s.sys.entries)).bind MountEntry.ops
        let openedOn := if result < 0 then s.openedOn else s.openedOn.set result.toNat ops
        ({ s with fds := fds, openedOn := openedOn }, result)
  | .close fd answers =>
    (posixClose s.sys.filesystems answers s.fds fd).map fun (result, fds, _) =>
      let openedOn := if result < 0 then s.openedOn else s.openedOn.set fd none
      ({ s with fds := fds, openedOn := openedOn }, result)

def machine : Machine MountedFiles MountedFilesInput ℤ := ⟨step types⟩

def initial (devices : List (List Char × BitVec 16)) : MountedFiles where
  sys := (MountTableState.initial devices).sys
  fds := List.replicate dfsFdMax .zero
  openedOn := List.replicate dfsFdMax none

/-- The entry of a descriptor is mounted, with the operations `ops`. -/
def StillMounted (s : MountedFiles) (fd : DfsFd) (ops : FilesystemOperation) : Prop :=
  ∃ entry, entryOf s.sys.entries fd = some entry ∧ entry.ops = some ops ∧ entry.text ≠ none

/-- Every open descriptor points to a filesystem that is still mounted. -/
def NoneDangling (s : MountedFiles) : Prop :=
  ∀ (i : ℕ) fd ops, s.fds[i]? = some fd → s.openedOn[i]? = some (some ops) →
    s.StillMounted fd ops

/-- The condition on a call: no descriptor points to a filesystem that is unmounted. -/
def CallOk (s : MountedFiles) : MountedFilesInput → Prop
  | .mounting (.unmount workingDirectory specialfile answers) =>
    ∀ fs fullpath, s.sys.Unmounts workingDirectory.text specialfile.text answers fs fullpath →
      ∀ fd ∈ s.fds, fd.fs ≠ some fs
  | _ => True

/-! ## The invariant -/

/-- A descriptor is free, or open on a mounted filesystem. -/
inductive Slot (s : MountedFiles) : DfsFd → Option FilesystemOperation → Prop
  | free : Slot s .zero none
  | used {fd : DfsFd} {ops : FilesystemOperation} (href : fd.refCount = 1)
      (hmagic : fd.magic = dfsFdMagic) (hmounted : s.StillMounted fd ops) : Slot s fd (some ops)

def Inv (s : MountedFiles) : Prop := List.Forall₂ (Slot s) s.fds s.openedOn

section
variable {types : List (Option FilesystemOperation)} {s s' : MountedFiles}
  {i : MountedFilesInput} {o : ℤ} {sys : MountSystem} {n : ℕ} {fd : DfsFd}
  {ops : Option FilesystemOperation}

theorem inv_initial (devices : List (List Char × BitVec 16)) : (initial devices).Inv :=
  .replicate .free dfsFdMax

theorem Inv.noneDangling (h : s.Inv) : s.NoneDangling := by
  intro i fd ops hfd ho
  generalize hops : some ops = o at ho
  cases List.Forall₂.rel h hfd ho with
  | free => contradiction
  | used _ _ hmounted =>
    obtain rfl := Option.some.inj hops
    exact hmounted

/-- The entries that are kept keep the descriptors on them. -/
theorem Inv.keep (h : s.Inv)
    (hkeeps : ∀ fd ∈ s.fds, ∀ fs, fd.fs = some fs → ∀ entry, s.sys.entries[fs]? = some entry →
      entry.ops ≠ none → sys.entries[fs]? = some entry) : Inv { s with sys := sys } := by
  refine List.Forall₂.imp_of_mem h fun fd o hfd hslot => ?_
  cases hslot with
  | free => exact .free
  | used href hmagic hmounted =>
    obtain ⟨entry, hentry, hops, htext⟩ := hmounted
    obtain ⟨fs, hfs, hentry⟩ := Option.bind_eq_some_iff.mp hentry
    have hkept := hkeeps fd hfd fs hfs entry hentry (by simp [hops])
    exact .used href hmagic ⟨entry, by rw [entryOf, hfs]; exact hkept, hops, htext⟩

/-- The tables may be replaced while the entries stay. -/
theorem Slot.same_entries {fds : List DfsFd} {openedOn : List (Option FilesystemOperation)}
    (h : Slot s fd ops) : Slot { s with fds := fds, openedOn := openedOn } fd ops := by
  cases h with
  | free => exact .free
  | used href hmagic hmounted => exact .used href hmagic hmounted

theorem Inv.set (h : s.Inv) (n : ℕ) (hslot : Slot s fd ops) :
    Inv { s with fds := s.fds.set n fd, openedOn := s.openedOn.set n ops } :=
  (List.Forall₂.set h n hslot).imp fun _ _ hslot => hslot.same_entries

/-! ## One call -/

/-- A mount leaves the entries in use alone. -/
theorem keeps_used {workingDirectory path fullpath : List Char} {dev : Option ℕ}
    {op : FilesystemOperation} {answers : MountAnswers} {result : ℤ} {sys' : MountSystem}
    (h : MountCase sys workingDirectory dev path fullpath op answers result sys') {fs : ℕ}
    {entry : MountEntry} (hentry : sys.entries[fs]? = some entry) (hops : entry.ops ≠ none) :
    sys'.entries[fs]? = some entry := by
  have hset : ∀ {fs' entry'}, searchEntry path sys.entries 0 none = some (some fs') →
      (sys.entries.set fs' entry')[fs]? = some entry := by
    intro fs' entry' hsearch
    obtain hnone | ⟨-, empty, hempty, hnone⟩ := searchEntry_some hsearch
    · contradiction
    · have hne : fs' ≠ fs := by
        rintro rfl
        rw [Nat.sub_zero, hentry] at hempty
        obtain rfl := Option.some.inj hempty
        exact hops hnone
      rwa [List.getElem?_set_ne hne]
  cases h with
  | unfound => exact hentry
  | unplaced => exact hentry
  | failed _ _ _ _ hsearch => exact hset hsearch
  | mounted _ _ _ _ hsearch => exact hset hsearch

theorem filesystems_entry {fs : MountPoint}
    (h : sys.filesystems[fs.address]? = some ⟨some fs.path, some fs.ops⟩) :
    ∃ entry, sys.entries[fs.address]? = some entry ∧ entry.ops = some fs.ops ∧
      entry.text ≠ none := by
  rw [filesystems, List.getElem?_map] at h
  obtain ⟨entry, hentry, he⟩ := Option.map_eq_some_iff.mp h
  obtain ⟨htext, hops⟩ := DfsFilesystem.mk.inj he
  exact ⟨entry, hentry, hops, by simp [htext]⟩

theorem Inv.step (h : s.Inv) (hok : CallOk s i) (hs : (machine types).step s i = some (s', o)) :
    s'.Inv := by
  cases i with
  | mounting i =>
    cases i with
    | mount workingDirectory deviceName path type answers =>
      obtain ⟨⟨result, sys⟩, hmount, he⟩ := Option.map_eq_some_iff.mp hs
      obtain ⟨rfl, rfl⟩ := Prod.mk.inj he
      obtain ⟨-, rfl, -⟩ | ⟨dev, op, fullpath, -, hcase⟩ := dfsMount_cases hmount
      · exact h
      · exact h.keep fun _ _ _ _ _ hentry hops => keeps_used hcase hentry hops
    | unmount workingDirectory specialfile answers =>
      obtain ⟨⟨result, sys⟩, hunmount, he⟩ := Option.map_eq_some_iff.mp hs
      obtain ⟨rfl, rfl⟩ := Prod.mk.inj he
      cases dfsUnmount_cases hunmount with
      | failed => exact h.keep fun _ _ _ _ _ hentry _ => hentry
      | @unmounted _ fs _ _ _ _ hunmounts =>
        refine h.keep fun fd hfd fs' hfs' entry hentry _ => ?_
        have hne : fs ≠ fs' := by
          rintro rfl
          exact hok fs _ hunmounts fd hfd hfs'
        rwa [List.getElem?_set_ne hne]
  | openFile workingDirectory file flags answers =>
    obtain ⟨⟨result, fds, calls⟩, hopen, he⟩ := Option.map_eq_some_iff.mp hs
    obtain ⟨rfl, rfl⟩ := Prod.mk.inj he
    cases posixOpen_cases hopen with
    | full => exact h
    | @failed n hslot =>
      obtain ⟨fd, hfd, href⟩ := hslot
      obtain ⟨o, -, hcase⟩ := List.Forall₂.exists_right h hfd
      cases hcase with
      | free =>
        rw [List.set_self_of_getElem? hfd]
        exact h
      | used href' => omega
    | @opened n fullpath fs fd hslot htext hlookup href hmagic hfs hpath =>
      obtain ⟨fd₀, hfd₀, -⟩ := hslot
      obtain ⟨hlt, -⟩ := List.getElem?_eq_some_iff.mp hfd₀
      obtain ⟨entry, hentry, hops, htext⟩ := filesystems_entry (mountPoint_entry hlookup)
      have hentryOf : entryOf s.sys.entries fd = some entry := by rw [entryOf, hfs]; exact hentry
      have hnonneg : ¬ (n : ℤ) < 0 := by omega
      simp only [if_neg hnonneg, Int.toNat_natCast, List.getElem?_set_self hlt, Option.bind_some,
        hentryOf, hops]
      exact h.set n (.used href hmagic ⟨entry, hentryOf, hops, htext⟩)
  | close n answers =>
    obtain ⟨⟨result, fds, calls⟩, hclose, he⟩ := Option.map_eq_some_iff.mp hs
    obtain ⟨rfl, rfl⟩ := Prod.mk.inj he
    have hrefs : ∀ d, s.fds[n]? = some d → d.magic = dfsFdMagic → d.refCount = 1 := by
      intro d hd hmagic
      obtain ⟨o, -, hcase⟩ := List.Forall₂.exists_right h hd
      cases hcase with
      | free => exact absurd hmagic (by decide)
      | used href => exact href
    cases posixClose_cases hrefs hclose with
    | invalid => exact h
    | failed => exact h
    | closed => exact h.set n .free

/-- An unmounted filesystem with an open descriptor is seen in the next state. -/
theorem Inv.ok (h : s.Inv) (hs : (machine types).step s i = some (s', o))
    (hgood : s'.NoneDangling) : CallOk s i := by
  rcases i with (_ | ⟨workingDirectory, specialfile, answers⟩) | _ | _
  · trivial
  · intro fs fullpath hunmounts fd hfd hfs
    obtain ⟨⟨result, sys⟩, hunmount, he⟩ := Option.map_eq_some_iff.mp hs
    obtain ⟨rfl, rfl⟩ := Prod.mk.inj he
    cases dfsUnmount_cases hunmount with
    | failed hno => exact hno ⟨fs, fullpath, hunmounts⟩
    | @unmounted _ fs' _ _ fullpath' _ hunmounts' hentry =>
      obtain rfl := Option.some.inj (Option.some.inj (hunmounts.text.symm.trans hunmounts'.text))
      obtain rfl := Option.some.inj (hunmounts.entry.symm.trans hunmounts'.entry)
      obtain ⟨n, hn⟩ := List.mem_iff_getElem?.mp hfd
      obtain ⟨ops, hops, hcase⟩ := List.Forall₂.exists_right h hn
      cases hcase with
      | free => contradiction
      | used =>
        obtain ⟨entry', hentry', hops', -⟩ := hgood n fd _ hn hops
        obtain ⟨hlt, -⟩ := List.getElem?_eq_some_iff.mp hentry
        rw [entryOf, hfs, Option.bind_some, List.getElem?_set_self hlt] at hentry'
        obtain rfl := Option.some.inj hentry'
        contradiction
  · trivial
  · trivial

end

end MountedFiles
end RtThread
