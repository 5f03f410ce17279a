import Mathlib.Algebra.BigOperators.Group.Finset.Basic
import Mathlib.Algebra.Order.BigOperators.Group.Finset
import RtThread.Library.Transition
import RtThread.Filesystems.DfsPosix

/-!
# Calls on one descriptor number

`fd_new`, `fd_get` and `fd_put` hold the lock of the filesystems, and what a call does between them
runs without it. A thread is somewhere inside `open`, `read`, `write`, `lseek` or `close`, and the
threads take their steps in any order.
-/
namespace RtThread
open Transition

/-- What `fd_new` does with the descriptor that it finds. -/
def DfsFd.claim (fd : DfsFd) : Option DfsFd :=
  if fd.refCount > 0 then none else some { fd with refCount := 1, magic := dfsFdMagic }

def DfsFd.get (fd : DfsFd) : Option DfsFd :=
  if fd.magic ≠ dfsFdMagic then none else some { fd with refCount := fd.refCount + 1 }

theorem fdNew_claim {fds fds' : List DfsFd} {i : ℕ} (h : fdNew fds = some (i, fds')) :
    ∃ fd fd', fds[i]? = some fd ∧ fd.claim = some fd' ∧ fds' = fds.set i fd' := by
  obtain ⟨fd, hfd, hfree, rfl⟩ := fdNew_some h
  exact ⟨fd, _, hfd, if_neg (not_lt.mpr hfree), rfl⟩

theorem fdGet_get {fds : List DfsFd} {i : ℕ} {fd : DfsFd} (h : fds[i]? = some fd) :
    fdGet fds i = fd.get.map (fds.set i) := by
  simp only [fdGet, h, Option.bind_some, DfsFd.get]
  split <;> rfl

inductive TransferCall where
  | read
  | write
  | lseek
  deriving DecidableEq

/-- How far a thread is in a call on the descriptor. -/
inductive FdCall where
  | idle
  | opening
  | openingFile
  | driverOpening (flags : BitVec 32)
  | transferring (call : TransferCall)
  | closing
  | driverClosing
  /-- One `fd_put` is left, two are left, or the second of the two. -/
  | putting
  | puttingBoth
  | puttingLast
  deriving DecidableEq

/-- The references of the call from `fd_get`. -/
def FdCall.held : FdCall → ℕ
  | .idle | .opening | .puttingLast => 0
  | .openingFile | .driverOpening _ | .transferring _ | .closing | .driverClosing => 1
  | .putting | .puttingBoth => 1

/-- The reference of `fd_new`, while it belongs to the call and not to the open file. -/
def FdCall.owned : FdCall → ℕ
  | .opening | .openingFile | .driverOpening _ | .puttingBoth | .puttingLast => 1
  | .idle | .transferring _ | .closing | .driverClosing | .putting => 0

inductive FdAction where
  | fdNew
  | fdGet
  /-- The path is not normalised, or no filesystem serves it. -/
  | lookupFails
  | lookup (fs : ℕ) (path : Option (List Char)) (flags : BitVec 32)
  /-- The driver answers; one without the operation refuses to open. -/
  | driverOpened (result : ℤ)
  | begin (call : TransferCall)
  /-- `lseek` has a `whence` or an offset that is not valid. -/
  | invalid
  | transferred (flags : BitVec 32) (size : ℕ) (pos : ℤ)
  | beginClose
  /-- The driver is called to close; one without the operation closes at once. -/
  | driverClose
  | driverClosed (result : ℤ)
  | fdPut
  deriving DecidableEq

/-- A descriptor with what has happened on it: whether a null pointer was followed, whether the
driver was called to close while another call had a reference, and the files. -/
structure FdSlot where
  fd : DfsFd
  wild : Bool
  overlapped : Bool
  isOpen : Bool
  opens : ℕ
  closes : ℕ
  deriving DecidableEq

namespace FdSlot

/-- One step of a call; `others` says that another call has a reference from `fd_get`. -/
def act (others : Bool) (s : FdSlot) : FdCall → FdAction → Option (FdSlot × FdCall)
  | .idle, .fdNew => s.fd.claim.map fun fd => ({ s with fd := fd }, .opening)
  | .opening, .fdGet =>
    match s.fd.get with
    | none => some ({ s with wild := true }, .idle) -- `fd_put` gets `RT_NULL`
    | some fd => some ({ s with fd := fd }, .openingFile)
  | .openingFile, .lookupFails => some (s, .puttingBoth)
  | .openingFile, .lookup fs path flags =>
    let fd := { s.fd with
      fs := some fs
      type := ftRegular
      flags := flags
      size := 0
      pos := 0
      path := path }
    some ({ s with fd := fd }, .driverOpening flags)
  | .driverOpening flags, .driverOpened result =>
    if result < 0 then some ({ s with fd := { s.fd with path := none } }, .puttingBoth)
    else
      some ({ s with fd := openedFd s.fd flags, isOpen := true, opens := s.opens + 1 }, .putting)
  | .idle, .begin call =>
    match s.fd.get with
    | none => some (s, .idle)
    | some fd => some ({ s with fd := fd }, .transferring call)
  | .transferring .lseek, .invalid => some (s, .putting)
  | .transferring call, .transferred flags size pos =>
    if s.fd.fs = none then
      if call = .lseek then some (s, .putting) else some ({ s with wild := true }, .idle)
    else
      some ({ s with fd := { s.fd with flags := flags, size := size, pos := pos } }, .putting)
  | .idle, .beginClose =>
    match s.fd.get with
    | none => some (s, .idle)
    | some fd => some ({ s with fd := fd }, .closing)
  | .closing, .driverClose =>
    if s.fd.fs = none then some ({ s with wild := true }, .idle)
    else
      some ({ s with overlapped := s.overlapped || others, closes := s.closes + 1 },
        .driverClosing)
  | .driverClosing, .driverClosed result =>
    if result < 0 then some (s, .putting)
    else some ({ s with fd := { s.fd with path := none }, isOpen := false }, .puttingBoth)
  | .putting, .fdPut => some ({ s with fd := s.fd.put }, .idle)
  | .puttingBoth, .fdPut => some ({ s with fd := s.fd.put }, .puttingLast)
  | .puttingLast, .fdPut => some ({ s with fd := s.fd.put }, .idle)
  | _, _ => none

/-- A thread that is alone with the descriptor. -/
def alone : Machine (FdSlot × FdCall) FdAction Unit :=
  ⟨fun s a => (s.1.act false s.2 a).map fun s' => (s', ())⟩

/-! ## Calls that run alone -/

section
variable {table : List (DfsFilesystem FilesystemOperation)} {answers : Answers} {s : FdSlot}
  {workingDirectory file : List Char} {fds fds' : List DfsFd} {flags : BitVec 32} {fd d : DfsFd}
  {i : ℕ} {result : ℤ} {calls : List DriverCall}

theorem close_alone (hfd : fds[i]? = some s.fd)
    (h : posixClose table answers fds i = some (result, fds', calls)) :
    ∃ as s' os, alone.run (s, .idle) as = some ((s', .idle), os) ∧
      fds' = fds.set i s'.fd := by
  obtain ⟨hlt, -⟩ := List.getElem?_eq_some_iff.mp hfd
  unfold posixClose at h
  rw [fdGet_get hfd] at h
  cases hgot : s.fd.get with
  | none =>
    simp only [hgot, Option.map_none, Option.some.injEq, Prod.mk.injEq] at h
    refine ⟨[.beginClose], s, [()], by simp [Machine.run, alone, act, hgot], ?_⟩
    rw [← h.2.1, List.set_self_of_getElem? hfd]
  | some d =>
    simp only [hgot, Option.map_some, List.getElem?_set_self hlt, Option.bind_some] at h
    obtain ⟨⟨answer, d', calls₁⟩, hclose, he⟩ := Option.map_eq_some_iff.mp h
    dsimp only at he
    have hfs : d.fs ≠ none := by
      obtain ⟨fs, hfs, -⟩ := Option.bind_eq_some_iff.mp hclose
      rw [hfs]
      exact Option.some_ne_none fs
    rw [List.set_set, fdPut_set hlt] at he
    obtain ⟨hneg, rfl⟩ | ⟨hneg, rfl⟩ := dfsFileClose_cases hclose
    · rw [if_pos hneg] at he
      obtain ⟨-, rfl, -⟩ := by simpa only [Prod.mk.injEq] using he
      exact ⟨[.beginClose, .driverClose, .driverClosed answer, .fdPut],
        { s with fd := d'.put, closes := s.closes + 1 }, [(), (), (), ()],
        by simp [Machine.run, alone, act, hgot, hfs, hneg], rfl⟩
    · rw [if_neg hneg, fdPut_set hlt] at he
      obtain ⟨-, rfl, -⟩ := by simpa only [Prod.mk.injEq] using he
      exact ⟨[.beginClose, .driverClose, .driverClosed answer, .fdPut, .fdPut],
        { s with
          fd := { d with path := none }.put.put
          isOpen := false
          closes := s.closes + 1 }, [(), (), (), (), ()],
        by simp [Machine.run, alone, act, hgot, hfs, hneg], rfl⟩

theorem fileOpen_alone (h : dfsFileOpen table workingDirectory answers s.fd file flags =
      some (result, d, calls)) :
    ∃ as s' os, alone.run (s, .openingFile) as =
      some ((s', if result < 0 then .puttingBoth else .putting), os) ∧ s'.fd = d := by
  obtain ⟨text, -, h⟩ := Option.bind_eq_some_iff.mp h
  cases text with
  | none =>
    obtain ⟨rfl, rfl, -⟩ := by simpa only [Option.some.injEq, Prod.mk.injEq] using h
    exact ⟨[.lookupFails], s, [()], rfl, rfl⟩
  | some fullpath =>
    dsimp only at h
    split at h
    · obtain ⟨rfl, rfl, -⟩ := by simpa only [Option.some.injEq, Prod.mk.injEq] using h
      exact ⟨[.lookupFails], s, [()], rfl, rfl⟩
    · next fs _ =>
      split at h
      · split at h
        · next hneg =>
          obtain ⟨rfl, rfl, -⟩ := by simpa only [Option.some.injEq, Prod.mk.injEq] using h
          exact ⟨[.lookup fs.address (openedPath answers fs fullpath) flags,
            .driverOpened (answers.driver (.onPath (.openFile flags) fs.address
              (openedPath answers fs fullpath)))], _, [(), ()],
            by simp [Machine.run, alone, act, hneg]; rfl, rfl⟩
        · next hneg =>
          obtain ⟨rfl, rfl, -⟩ := by simpa only [Option.some.injEq, Prod.mk.injEq] using h
          exact ⟨[.lookup fs.address (openedPath answers fs fullpath) flags, .driverOpened 0], _,
            [(), ()], by simp [Machine.run, alone, act]; rfl, rfl⟩
      · obtain ⟨rfl, rfl, -⟩ := by simpa only [Option.some.injEq, Prod.mk.injEq] using h
        exact ⟨[.lookup fs.address (openedPath answers fs fullpath) flags,
          .driverOpened (-dfsStatusEnosys)], _, [(), ()], rfl, rfl⟩

theorem open_alone {fds₁ : List DfsFd} (hnew : fdNew fds = some (i, fds₁))
    (hfd : fds[i]? = some s.fd)
    (h : posixOpen table answers workingDirectory fds file flags =
      some (result, fds', calls)) :
    ∃ as s' os, alone.run (s, .idle) as = some ((s', .idle), os) ∧ fds' = fds.set i s'.fd := by
  obtain ⟨fd, hfd', hfree, rfl⟩ := fdNew_some hnew
  obtain rfl := Option.some.inj (hfd.symm.trans hfd')
  obtain ⟨hlt, -⟩ := List.getElem?_eq_some_iff.mp hfd
  have hclaim : s.fd.claim = some { s.fd with refCount := 1, magic := dfsFdMagic } :=
    if_neg (not_lt.mpr hfree)
  have hget : DfsFd.get { s.fd with refCount := 1, magic := dfsFdMagic } =
      some { s.fd with refCount := 2, magic := dfsFdMagic } := rfl
  have hbegin : alone.run (s, .idle) [.fdNew, .fdGet] = some
      (({ s with fd := { s.fd with refCount := 2, magic := dfsFdMagic } }, .openingFile),
        [(), ()]) := by
    simp [Machine.run, alone, act, hclaim, hget]
  unfold posixOpen at h
  simp only [hnew, fdGet_get (List.getElem?_set_self hlt), hget, Option.map_some, Option.bind_some,
    List.set_set, List.getElem?_set_self hlt] at h
  obtain ⟨⟨answer, d, calls₁⟩, hopen, he⟩ := Option.map_eq_some_iff.mp h
  obtain ⟨as, s', os, hrun, rfl⟩ := fileOpen_alone
    (s := { s with fd := { s.fd with refCount := 2, magic := dfsFdMagic } }) hopen
  have hrun := Machine.run_append hbegin hrun
  dsimp only at he
  rw [fdPut_set hlt] at he
  split at he
  · next hneg =>
    rw [fdPut_set hlt] at he
    obtain ⟨-, rfl, -⟩ := by simpa only [Prod.mk.injEq] using he
    rw [if_pos hneg] at hrun
    exact ⟨_, { s' with fd := s'.fd.put.put }, _,
      Machine.run_append hrun (show alone.run (s', .puttingBoth) [.fdPut, .fdPut] = _ from rfl), rfl⟩
  · next hneg =>
    obtain ⟨-, rfl, -⟩ := by simpa only [Prod.mk.injEq] using he
    rw [if_neg hneg] at hrun
    exact ⟨_, { s' with fd := s'.fd.put }, _,
      Machine.run_append hrun (show alone.run (s', .putting) [.fdPut] = _ from rfl), rfl⟩

end
end FdSlot

/-- The descriptor and the calls of the threads on it. -/
structure FdSystem (T : Type) where
  slot : FdSlot
  call : T → FdCall

namespace FdSystem

variable {T : Type} [DecidableEq T] [Fintype T]

/-- A call of another thread has a reference from `fd_get`. -/
def Others (s : FdSystem T) (t : T) : Prop := ∃ u, u ≠ t ∧ (s.call u).held ≠ 0

instance (s : FdSystem T) (t : T) : Decidable (s.Others t) :=
  inferInstanceAs (Decidable (∃ _, _))

def step (s : FdSystem T) (i : T × FdAction) : Option (FdSystem T × Unit) :=
  (s.slot.act (s.Others i.1) (s.call i.1) i.2).map fun (slot, c) =>
    (⟨slot, Function.update s.call i.1 c⟩, ())

def machine : Machine (FdSystem T) (T × FdAction) Unit := ⟨step⟩

def initial : FdSystem T := ⟨⟨.zero, false, false, false, 0, 0⟩, fun _ => .idle⟩

/-- The slot of the descriptor is free. -/
def Free (s : FdSystem T) : Prop := s.slot.fd.refCount = 0 ∧ s.slot.fd.magic = 0

/-- The file is closed and all references are put. -/
def Finished (s : FdSystem T) : Prop :=
  s.slot.isOpen = false ∧ ∀ t, (s.call t).held + (s.call t).owned = 0

/-- The driver closes a file once for each time that it has opened one, alone, and the slot is
free when nothing is left on it. -/
structure Good (s : FdSystem T) : Prop where
  tame : s.slot.wild = false
  alone : s.slot.overlapped = false
  nonneg : 0 ≤ s.slot.fd.refCount
  atMost : s.slot.closes ≤ s.slot.opens
  free_iff : s.Free ↔ s.Finished
  balanced : s.Free → s.slot.closes = s.slot.opens

/-- The condition on a step: the descriptor has its filesystem when it is used, and the driver is
called to close a file that it was not called to close before, with no other call at work. -/
def StepOk (s : FdSystem T) (i : T × FdAction) : Prop :=
  match s.call i.1, i.2 with
  | .transferring call, .transferred _ _ _ => call = .lseek ∨ s.slot.fd.fs ≠ none
  | .closing, .driverClose =>
    s.slot.fd.fs ≠ none ∧ s.slot.closes < s.slot.opens ∧ ¬ s.Others i.1
  | _, _ => True

/-! ## The invariant -/

def references (c : FdCall) : ℕ := c.held + c.owned

def openFile (slot : FdSlot) : ℕ := if slot.isOpen then 1 else 0

/-- Each reference that is counted belongs to a call or to the open file. -/
structure Inv (s : FdSystem T) : Prop where
  tame : s.slot.wild = false
  alone : s.slot.overlapped = false
  count : s.slot.fd.refCount = ∑ t, references (s.call t) + openFile s.slot
  owner : ∑ t, (s.call t).owned + openFile s.slot ≤ 1
  magic : s.slot.fd.magic = if s.slot.fd.refCount = 0 then 0 else dfsFdMagic
  closing : ∀ t, s.call t = .driverClosing → s.slot.isOpen = true ∧
    s.slot.closes = s.slot.opens ∧ ∀ u, s.call u = .driverClosing → u = t
  closed : s.slot.isOpen = false → s.slot.closes = s.slot.opens
  opened : s.slot.closes ≤ s.slot.opens ∧ s.slot.opens ≤ s.slot.closes + 1

variable {s s' : FdSystem T} {t : T} {call c : FdCall} {slot : FdSlot}

omit [DecidableEq T] in
theorem inv_initial : (initial : FdSystem T).Inv := by
  have hreferences : ∑ _t : T, references .idle = 0 := Finset.sum_eq_zero fun _ _ => rfl
  have howned : ∑ _t : T, FdCall.idle.owned = 0 := Finset.sum_eq_zero fun _ _ => rfl
  refine ⟨rfl, rfl, ?_, ?_, rfl, fun t h => ?_, fun _ => rfl, ⟨le_rfl, Nat.zero_le 1⟩⟩
  · rw [initial, hreferences]
    rfl
  · rw [initial, howned]
    exact Nat.zero_le 1
  · cases h

omit [DecidableEq T] in
theorem Inv.good (h : s.Inv) : s.Good := by
  have hfree : s.Free ↔ s.slot.fd.refCount = 0 := by
    refine ⟨And.left, fun hzero => ⟨hzero, ?_⟩⟩
    rw [h.magic, if_pos hzero]
  have hfinished : s.slot.fd.refCount = 0 ↔ s.Finished := by
    rw [h.count, ← Nat.cast_add, Nat.cast_eq_zero, Nat.add_eq_zero_iff, Finset.sum_eq_zero_iff,
      and_comm]
    simp [Finished, references, openFile]
  refine ⟨h.tame, h.alone, ?_, h.opened.1, hfree.trans hfinished, fun hf => ?_⟩
  · rw [h.count]
    exact Int.natCast_nonneg _
  · exact h.closed (hfinished.mp (hfree.mp hf)).1

/-! ## One step -/

theorem sum_update (f : FdCall → ℕ) (call : T → FdCall) (t : T) (c : FdCall) :
    ∑ u, f (Function.update call t c u) + f (call t) = ∑ u, f (call u) + f c := by
  have hrest : ∑ u ∈ Finset.univ.erase t, f (Function.update call t c u) =
      ∑ u ∈ Finset.univ.erase t, f (call u) :=
    Finset.sum_congr rfl fun u hu => by rw [Function.update_of_ne (Finset.ne_of_mem_erase hu)]
  rw [← Finset.add_sum_erase _ _ (Finset.mem_univ t),
    ← Finset.add_sum_erase _ (fun u => f (call u)) (Finset.mem_univ t), hrest,
    Function.update_self]
  omega

/-- A step keeps the counts when what it does to the descriptor fits what it does to its call. -/
theorem Inv.next (h : s.Inv) (htame : slot.wild = false) (halone : slot.overlapped = false)
    (hcount : slot.fd.refCount + references (s.call t) + openFile s.slot =
      s.slot.fd.refCount + references c + openFile slot)
    (howner : ∑ u, (s.call u).owned + c.owned + openFile slot ≤ 1 + (s.call t).owned)
    (hmagic : slot.fd.magic = if slot.fd.refCount = 0 then 0 else dfsFdMagic)
    (hclosing : ∀ u, Function.update s.call t c u = .driverClosing → slot.isOpen = true ∧
      slot.closes = slot.opens ∧ ∀ v, Function.update s.call t c v = .driverClosing → v = u)
    (hclosed : slot.isOpen = false → slot.closes = slot.opens)
    (hopened : slot.closes ≤ slot.opens ∧ slot.opens ≤ slot.closes + 1) :
    Inv ⟨slot, Function.update s.call t c⟩ := by
  refine ⟨htame, halone, ?_, ?_, hmagic, hclosing, hclosed, hopened⟩
  · have hsum := sum_update references s.call t c
    have hold := h.count
    dsimp only at hold ⊢
    omega
  · have hsum := sum_update FdCall.owned s.call t c
    dsimp only
    omega

/-- The same for a step that leaves the file as it is. -/
theorem Inv.quiet (h : s.Inv) {fd : DfsFd} (hc : c ≠ .driverClosing)
    (hcount : fd.refCount + references (s.call t) = s.slot.fd.refCount + references c)
    (howner : c.owned ≤ (s.call t).owned)
    (hmagic : fd.magic = if fd.refCount = 0 then 0 else dfsFdMagic) :
    Inv ⟨{ s.slot with fd := fd }, Function.update s.call t c⟩ := by
  have hown := h.owner
  refine h.next h.tame h.alone ?_ ?_ hmagic (fun u hu => ?_) h.closed h.opened
  · simp only [openFile] at hown ⊢
    omega
  · simp only [openFile] at hown ⊢
    omega
  · have hkept : ∀ v, Function.update s.call t c v = .driverClosing → s.call v = .driverClosing := by
      intro v hv
      rw [Function.update_apply] at hv
      split at hv
      · exact absurd hv hc
      · exact hv
    obtain ⟨hopen, hequal, huniq⟩ := h.closing u (hkept u hu)
    exact ⟨hopen, hequal, fun v hv => huniq v (hkept v hv)⟩

omit [DecidableEq T] in
theorem Inv.references_le (h : s.Inv) (t : T) :
    (references (s.call t) : ℤ) ≤ s.slot.fd.refCount := by
  have hsum := Finset.single_le_sum (f := fun t => references (s.call t))
    (fun _ _ => Nat.zero_le _) (Finset.mem_univ t)
  have hcount := h.count
  omega

omit [DecidableEq T] in
/-- The file is not open while a call has the reference of `fd_new`. -/
theorem Inv.not_open (h : s.Inv) (howned : (s.call t).owned = 1) : s.slot.isOpen = false := by
  have hsum := Finset.single_le_sum (f := fun t => (s.call t).owned)
    (fun _ _ => Nat.zero_le _) (Finset.mem_univ t)
  have howner := h.owner
  by_contra hopen
  rw [openFile, if_pos (by simpa using hopen)] at howner
  omega

omit [DecidableEq T] in
theorem Inv.get_cases (h : s.Inv) :
    (s.slot.fd.refCount = 0 ∧ s.slot.fd.get = none) ∨
      s.slot.fd.get = some { s.slot.fd with refCount := s.slot.fd.refCount + 1 } ∧
        0 < s.slot.fd.refCount ∧ s.slot.fd.magic = dfsFdMagic := by
  have hmagic := h.magic
  have hnonneg := h.good.nonneg
  by_cases hzero : s.slot.fd.refCount = 0
  · rw [if_pos hzero] at hmagic
    exact .inl ⟨hzero, if_pos (by rw [hmagic]; decide)⟩
  · rw [if_neg hzero] at hmagic
    exact .inr ⟨if_neg (not_not.mpr hmagic), by omega, hmagic⟩

/-- A call takes a reference. -/
theorem Inv.takes (h : s.Inv) (hcall : s.call t = call) {fd : DfsFd}
    (hget : s.slot.fd.get = some fd) (hc : c ≠ .driverClosing)
    (hreferences : references c = references call + 1) (howner : c.owned ≤ call.owned) :
    Inv ⟨{ s.slot with fd := fd }, Function.update s.call t c⟩ := by
  subst hcall
  obtain ⟨-, hnone⟩ | ⟨hsome, hpos, hmagic⟩ := h.get_cases
  · rw [hnone] at hget
    cases hget
  · obtain rfl := Option.some.inj (hsome.symm.trans hget)
    refine h.quiet hc ?_ howner ?_
    · dsimp only
      omega
    · dsimp only
      rw [if_neg (by omega), hmagic]

/-- A call puts a reference. -/
theorem Inv.puts (h : s.Inv) (hcall : s.call t = call) (hc : c ≠ .driverClosing)
    (hreferences : references call = references c + 1) (howner : c.owned ≤ call.owned) :
    Inv ⟨{ s.slot with fd := s.slot.fd.put }, Function.update s.call t c⟩ := by
  subst hcall
  have hle := h.references_le t
  have hput : s.slot.fd.put.refCount = s.slot.fd.refCount - 1 := by
    unfold DfsFd.put
    dsimp only
    split
    · next hzero => exact hzero.symm
    · rfl
  refine h.quiet hc ?_ howner ?_
  · omega
  · unfold DfsFd.put
    dsimp only
    split
    · rfl
    · exact h.magic.trans (if_neg (by omega))

/-- `fd_new` finds the slot free. -/
theorem Inv.claims (h : s.Inv) {fd : DfsFd} (hcall : s.call t = .idle)
    (hclaim : s.slot.fd.claim = some fd) :
    Inv ⟨{ s.slot with fd := fd }, Function.update s.call t .opening⟩ := by
  unfold DfsFd.claim at hclaim
  split at hclaim
  · cases hclaim
  · next hfree =>
    obtain rfl := Option.some.inj hclaim
    have hgood := h.good
    have hzero : s.slot.fd.refCount = 0 := le_antisymm (not_lt.mp hfree) hgood.nonneg
    have hmagic : s.slot.fd.magic = 0 := by rw [h.magic, if_pos hzero]
    obtain ⟨hclosed, hreferences⟩ := hgood.free_iff.mp ⟨hzero, hmagic⟩
    have hnone : ∀ u, s.call u ≠ .driverClosing := by
      intro u hu
      have hu' := hreferences u
      rw [hu] at hu'
      cases hu'
    have howned : ∑ u, (s.call u).owned = 0 :=
      Finset.sum_eq_zero fun u _ => (Nat.add_eq_zero_iff.mp (hreferences u)).2
    refine h.next h.tame h.alone ?_ ?_ rfl (fun u hu => ?_) h.closed h.opened
    · rw [hzero, hcall]
      change 1 + 0 + _ = 0 + 1 + _
      rfl
    · rw [howned, hcall, openFile, hclosed]
      decide
    · rw [Function.update_apply] at hu
      split at hu
      · cases hu
      · exact absurd hu (hnone u)

/-- The fields that count references are the same. -/
theorem Inv.fields (h : s.Inv) (hcall : s.call t = call) {fd : DfsFd}
    (href : fd.refCount = s.slot.fd.refCount) (hmagic : fd.magic = s.slot.fd.magic)
    (hc : c ≠ .driverClosing) (hreferences : references c = references call)
    (howner : c.owned ≤ call.owned) :
    Inv ⟨{ s.slot with fd := fd }, Function.update s.call t c⟩ := by
  subst hcall
  exact h.quiet hc (by rw [href, hreferences]) howner (by rw [href, hmagic, h.magic])

theorem Inv.driverOpened (h : s.Inv) {flags : BitVec 32}
    (hcall : s.call t = .driverOpening flags) :
    Inv ⟨{ s.slot with
      fd := openedFd s.slot.fd flags
      isOpen := true
      opens := s.slot.opens + 1 }, Function.update s.call t .putting⟩ := by
  have hclosed := h.not_open (t := t) (by rw [hcall]; rfl)
  have hequal := h.closed hclosed
  have howner := h.owner
  obtain ⟨href, hmagic, -⟩ := openedFd_same s.slot.fd flags
  refine h.next h.tame h.alone ?_ ?_ ?_ (fun u hu => ?_) (fun hopen => ?_) ?_
  · rw [hcall, openFile, hclosed]
    dsimp only
    rw [href]
    change _ + 2 + 0 = _ + 1 + 1
    omega
  · rw [hcall]
    change ∑ u, (s.call u).owned + 0 + 1 ≤ 1 + 1
    omega
  · dsimp only
    rw [href, hmagic, h.magic]
  · rw [Function.update_apply] at hu
    split at hu
    · cases hu
    · obtain ⟨hopen, -⟩ := h.closing u hu
      rw [hclosed] at hopen
      cases hopen
  · cases hopen
  · dsimp only
    omega

/-- The driver is called to close while no other call has a reference. -/
theorem Inv.driverClose (h : s.Inv) (hcall : s.call t = .closing)
    (hless : s.slot.closes < s.slot.opens) (hothers : ¬ s.Others t) :
    Inv ⟨{ s.slot with
      overlapped := s.slot.overlapped || decide (s.Others t)
      closes := s.slot.closes + 1 }, Function.update s.call t .driverClosing⟩ := by
  have hopen : s.slot.isOpen = true := by
    by_contra hopen
    have hequal := h.closed (by simpa using hopen)
    omega
  have howner := h.owner
  have hequal : s.slot.closes + 1 = s.slot.opens := by
    have hopened := h.opened
    omega
  have honly : ∀ u, Function.update s.call t .driverClosing u = .driverClosing → u = t := by
    intro u hu
    by_contra hne
    rw [Function.update_of_ne hne] at hu
    exact hothers ⟨u, hne, by rw [hu]; decide⟩
  refine h.next h.tame ?_ ?_ ?_ h.magic (fun u hu => ?_) (fun hclosed => ?_) ?_
  · simp [h.alone, hothers]
  · simp [hcall, references, FdCall.held, FdCall.owned, openFile]
  · rw [hcall]
    change ∑ u, (s.call u).owned + 0 + openFile s.slot ≤ 1 + 0
    omega
  · exact ⟨hopen, hequal, fun v hv => (honly v hv).trans (honly u hu).symm⟩
  · rw [hopen] at hclosed
    cases hclosed
  · dsimp only
    omega

theorem Inv.driverClosed (h : s.Inv) (hcall : s.call t = .driverClosing) :
    Inv ⟨{ s.slot with fd := { s.slot.fd with path := none }, isOpen := false },
      Function.update s.call t .puttingBoth⟩ := by
  obtain ⟨hopen, hequal, honly⟩ := h.closing t hcall
  have howner := h.owner
  refine h.next h.tame h.alone ?_ ?_ h.magic (fun u hu => ?_) (fun _ => hequal) h.opened
  · simp only [hcall, references, FdCall.held, FdCall.owned, openFile, hopen]
    push_cast
    omega
  · rw [openFile, if_pos hopen] at howner
    rw [hcall]
    change ∑ u, (s.call u).owned + 1 + 0 ≤ 1 + 0
    omega
  · rw [Function.update_apply] at hu
    split at hu
    · cases hu
    · next hne => exact absurd (honly u hu) hne

theorem step_inv (h : s.Inv) {i : T × FdAction} {o : Unit} (hok : s.StepOk i)
    (hs : s.step i = some (s', o)) : s'.Inv := by
  obtain ⟨t, action⟩ := i
  obtain ⟨⟨slot, c⟩, hact, he⟩ := Option.map_eq_some_iff.mp hs
  obtain ⟨rfl, -⟩ := Prod.mk.inj he
  dsimp only at hact
  simp only [StepOk] at hok
  generalize hcall : s.call t = call at hact hok
  unfold FdSlot.act at hact
  split at hact
  · obtain ⟨fd, hclaim, he⟩ := Option.map_eq_some_iff.mp hact
    obtain ⟨rfl, rfl⟩ := Prod.mk.inj he
    exact h.claims hcall hclaim
  · split at hact
    · next hget =>
      obtain ⟨hzero, -⟩ | ⟨hsome, -⟩ := h.get_cases
      · have hle := h.references_le t
        rw [hcall, hzero] at hle
        exact absurd hle (by decide)
      · rw [hsome] at hget
        cases hget
    · next fd hget =>
      obtain ⟨rfl, rfl⟩ := Prod.mk.inj (Option.some.inj hact)
      exact h.takes hcall hget FdCall.noConfusion rfl le_rfl
  · obtain ⟨rfl, rfl⟩ := Prod.mk.inj (Option.some.inj hact)
    exact h.fields hcall rfl rfl FdCall.noConfusion rfl le_rfl
  · obtain ⟨rfl, rfl⟩ := Prod.mk.inj (Option.some.inj hact)
    exact h.fields hcall rfl rfl FdCall.noConfusion rfl le_rfl
  · split at hact
    · obtain ⟨rfl, rfl⟩ := Prod.mk.inj (Option.some.inj hact)
      exact h.fields hcall rfl rfl FdCall.noConfusion rfl le_rfl
    · obtain ⟨rfl, rfl⟩ := Prod.mk.inj (Option.some.inj hact)
      exact h.driverOpened hcall
  · split at hact
    · obtain ⟨rfl, rfl⟩ := Prod.mk.inj (Option.some.inj hact)
      exact h.fields hcall rfl rfl FdCall.noConfusion rfl le_rfl
    · next fd hget =>
      obtain ⟨rfl, rfl⟩ := Prod.mk.inj (Option.some.inj hact)
      exact h.takes hcall hget FdCall.noConfusion rfl le_rfl
  · obtain ⟨rfl, rfl⟩ := Prod.mk.inj (Option.some.inj hact)
    exact h.fields hcall rfl rfl FdCall.noConfusion rfl le_rfl
  · split at hact
    · split at hact
      · obtain ⟨rfl, rfl⟩ := Prod.mk.inj (Option.some.inj hact)
        exact h.fields hcall rfl rfl FdCall.noConfusion rfl le_rfl
      · next hfs hne => exact (hok.elim hne (absurd hfs)).elim
    · obtain ⟨rfl, rfl⟩ := Prod.mk.inj (Option.some.inj hact)
      exact h.fields hcall rfl rfl FdCall.noConfusion rfl le_rfl
  · split at hact
    · obtain ⟨rfl, rfl⟩ := Prod.mk.inj (Option.some.inj hact)
      exact h.fields hcall rfl rfl FdCall.noConfusion rfl le_rfl
    · next fd hget =>
      obtain ⟨rfl, rfl⟩ := Prod.mk.inj (Option.some.inj hact)
      exact h.takes hcall hget FdCall.noConfusion rfl le_rfl
  · obtain ⟨hfs, hless, hothers⟩ := hok
    rw [if_neg hfs] at hact
    obtain ⟨rfl, rfl⟩ := Prod.mk.inj (Option.some.inj hact)
    exact h.driverClose hcall hless hothers
  · split at hact
    · obtain ⟨rfl, rfl⟩ := Prod.mk.inj (Option.some.inj hact)
      exact h.fields hcall rfl rfl FdCall.noConfusion rfl le_rfl
    · obtain ⟨rfl, rfl⟩ := Prod.mk.inj (Option.some.inj hact)
      exact h.driverClosed hcall
  · obtain ⟨rfl, rfl⟩ := Prod.mk.inj (Option.some.inj hact)
    exact h.puts hcall FdCall.noConfusion rfl le_rfl
  · obtain ⟨rfl, rfl⟩ := Prod.mk.inj (Option.some.inj hact)
    exact h.puts hcall FdCall.noConfusion rfl le_rfl
  · obtain ⟨rfl, rfl⟩ := Prod.mk.inj (Option.some.inj hact)
    exact h.puts hcall FdCall.noConfusion rfl (Nat.zero_le 1)
  · contradiction

/-- A step against the condition shows at once. -/
theorem stepOk_of_good {i : T × FdAction} {o : Unit} (hs : s.step i = some (s', o))
    (h : s'.Good) : s.StepOk i := by
  obtain ⟨t, action⟩ := i
  obtain ⟨⟨slot, c⟩, hact, he⟩ := Option.map_eq_some_iff.mp hs
  obtain ⟨rfl, -⟩ := Prod.mk.inj he
  unfold StepOk
  dsimp only at hact ⊢
  split
  · next call flags size pos hcall =>
    by_contra hbad
    obtain ⟨hread, hfs⟩ := not_or.mp hbad
    rw [hcall, FdSlot.act, if_pos (not_not.mp hfs), if_neg hread] at hact
    obtain ⟨rfl, rfl⟩ := Prod.mk.inj (Option.some.inj hact)
    exact absurd h.tame (by simp)
  · next hcall =>
    rw [hcall, FdSlot.act] at hact
    split at hact
    · obtain ⟨rfl, rfl⟩ := Prod.mk.inj (Option.some.inj hact)
      exact absurd h.tame (by simp)
    · next hfs =>
      obtain ⟨rfl, rfl⟩ := Prod.mk.inj (Option.some.inj hact)
      exact ⟨hfs, h.atMost, of_decide_eq_false (Bool.or_eq_false_iff.mp h.alone).2⟩
  · trivial

/-- The calls on a descriptor do what they are for, in every order of their steps, as long as each
close finds the file open and no other call at work. -/
theorem descriptors_accounted_iff (is : List (T × FdAction)) :
    machine.Always Good (initial : FdSystem T) is ↔ machine.Meets StepOk initial is :=
  Machine.always_iff_meets (fun _ h => h.good) (fun _ _ _ _ h hok hs => step_inv h hok hs)
    (fun _ _ _ _ _ hs h => stepOk_of_good hs h) inv_initial

/-- Two threads close a file at the same time: both have a reference before the first of them
asks the driver. -/
def bothClose : List (Bool × FdAction) :=
  [(true, .fdNew), (true, .fdGet), (true, .lookup 0 (some ['/', 'a']) 0), (true, .driverOpened 0),
    (true, .fdPut), (true, .beginClose), (false, .beginClose), (true, .driverClose),
    (true, .driverClosed 0), (false, .driverClose), (true, .fdPut), (true, .fdPut),
    (false, .driverClosed 0), (false, .fdPut), (false, .fdPut)]

theorem closed_twice : ∃ s os, machine.run (initial : FdSystem Bool) bothClose = some (s, os) ∧
    s.slot.opens = 1 ∧ s.slot.closes = 2 ∧ s.slot.fd.refCount = -1 ∧ ¬ s.Good := by
  obtain ⟨⟨s, os⟩, hrun, hend⟩ := Option.map_eq_some_iff.mp
    (show (machine.run (initial : FdSystem Bool) bothClose).map
      (fun r => (r.1.slot.opens, r.1.slot.closes, r.1.slot.fd.refCount)) = some (1, 2, -1) by
        decide +kernel)
  obtain ⟨hopens, hend⟩ := Prod.mk.inj hend
  obtain ⟨hcloses, hcount⟩ := Prod.mk.inj hend
  refine ⟨s, os, hrun, hopens, hcloses, hcount, fun h => ?_⟩
  have hatMost := h.atMost
  dsimp only at hopens hcloses
  omega

end FdSystem
end RtThread
