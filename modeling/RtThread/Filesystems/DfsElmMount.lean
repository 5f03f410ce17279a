import RtThread.Filesystems.DfsElm
import Mathlib.Data.Multiset.Basic
import Mathlib.Data.Multiset.AddSub

/-!
# Mounting a FAT volume

`dfs_elm_mount`, `dfs_elm_unmount` and `dfs_elm_mkfs` over the table of devices, the work
areas that FatFs has registered and the blocks that are allocated. What a device, the heap
and FatFs answer comes from outside.
-/
namespace RtThread

/-- A registered work area: where it is, and the mutex that it holds. -/
structure ElmWork where
  address : ℕ
  sobj : ℕ
  deriving DecidableEq, Repr

structure ElmState (D : Type) where
  /-- `disk[]`. -/
  disk : ℕ → Option D
  /-- `FatFs[]`. -/
  fatFs : ℕ → Option ElmWork
  /-- The blocks that are allocated. -/
  live : Multiset ℕ

/-- `_MAX_SS`. -/
def maxSs : ℕ := 4096

/-- A call of `dfs_elm_mount`, with what it meets. -/
structure MountCall (D : Type) where
  devId : D
  /-- The answer to `RT_DEVICE_CTRL_BLK_GETGEOME`, when it succeeds. -/
  bytesPerSector : Option ℕ
  /-- `rt_malloc(sizeof(FATFS))`. -/
  fat : Option ℕ
  /-- The mutex that `ff_cre_syncobj` creates. -/
  sobj : Option ℕ
  /-- `rt_malloc(sizeof(DIR))`. -/
  dir : Option ℕ
  /-- `f_opendir` of the root directory. -/
  openRoot : FResult

/-- What `dfs_elm_mount` returns, what it leaves in `fs->data` and the state after it. -/
structure MountResult (D : Type) where
  status : ℤ
  data : Option ℕ
  state : ElmState D

section Models

variable {D : Type} [DecidableEq D]

/-- `get_disk`. -/
def getDisk (st : ElmState D) (id : Option D) : Option ℕ :=
  (List.range elmVolumes).find? fun index => st.disk index = id

namespace ElmState

variable (st : ElmState D)

def setDisk (index : ℕ) (id : Option D) : ElmState D :=
  { st with disk := Function.update st.disk index id }

/-- `rt_free`. -/
def free (block : ℕ) : ElmState D := { st with live := st.live.erase block }

/-- What `rt_malloc` gave out. -/
def malloc (block : ℕ) : ElmState D := { st with live := block ::ₘ st.live }

end ElmState

/-- `f_mount`, where `ff_cre_syncobj` creates `sobj`. -/
def fMount (st : ElmState D) (vol : ℕ) (fs : Option ℕ) (sobj : Option ℕ) :
    FResult × ElmState D :=
  if elmVolumes ≤ vol then (.invalidDrive, st)
  else
    let st := match st.fatFs vol with
      | some rfs => st.free rfs.sobj
      | none => st
    match fs with
    | some address =>
      match sobj with
      | some sobj => (.ok, { st.malloc sobj with
          fatFs := Function.update st.fatFs vol (some ⟨address, sobj⟩) })
      | none => (.intErr, st)
    | none => (.ok, { st with fatFs := Function.update st.fatFs vol none })

/-- The label `__err`. -/
def mountFailed (st : ElmState D) (index fat : ℕ) (status : ℤ) : MountResult D :=
  let st := (fMount st index none none).2
  ⟨status, none, (st.setDisk index none).free fat⟩

def dfsElmMount (st : ElmState D) (call : MountCall D) : MountResult D :=
  match getDisk st none with
  | none => ⟨-dfsStatusEnoent, none, st⟩
  | some index =>
    let st := st.setDisk index (some call.devId)
    if ∃ n ∈ call.bytesPerSector, maxSs < n then ⟨-dfsStatusEinval, none, st⟩
    else
      match call.fat with
      | none => ⟨-dfsStatusEnomem, none, st.setDisk index none⟩
      | some fat =>
        let st := st.malloc fat
        match fMount st index (some fat) call.sobj with
        | (.ok, st) =>
          match call.dir with
          | none => mountFailed st index fat (-dfsStatusEnomem)
          | some dir =>
            let st := st.malloc dir
            if call.openRoot = .ok then ⟨0, some fat, st.free dir⟩
            else mountFailed st index fat (elmResultToDfs call.openRoot)
        | (result, st) => mountFailed st index fat (elmResultToDfs result)

/-- `dfs_elm_unmount` of a filesystem with its device and its `fs->data`. -/
def dfsElmUnmount (st : ElmState D) (devId : D) (data : ℕ) : ℤ × ElmState D :=
  match getDisk st (some devId) with
  | none => (-dfsStatusEnoent, st)
  | some index =>
    match fMount st index none none with
    | (.ok, st) => (0, (st.setDisk index none).free data)
    | (result, st) => (elmResultToDfs result, st)

/-- A call of `dfs_elm_mkfs`, with what it meets. -/
structure MkfsCall (D : Type) where
  devId : D
  fat : Option ℕ
  sobj : Option ℕ
  /-- `f_mkfs`. -/
  mkfs : FResult

def dfsElmMkfs (st : ElmState D) (call : MkfsCall D) : ℤ × ElmState D :=
  match getDisk st (some call.devId) with
  | some _ => (elmResultToDfs call.mkfs, st)
  | none =>
    match getDisk st none with
    | none => (-dfsStatusEnospc, st)
    | some index =>
      match call.fat with
      | none => (-dfsStatusEnomem, st)
      | some fat =>
        let st := (st.malloc fat).setDisk index (some call.devId)
        let st := (fMount st index (some fat) call.sobj).2
        -- `f_mount` still reads the work area that has just been freed.
        let st := st.free fat
        let st := (fMount st index none none).2
        (elmResultToDfs call.mkfs, st.setDisk index none)

/-- No work area is registered for a volume without a device. -/
def ElmInv (st : ElmState D) : Prop := ∀ i, st.disk i = none → st.fatFs i = none

/-- The states that the calls of the driver lead to. -/
inductive ElmReachable : ElmState D → Prop
  | start (live : Multiset ℕ) : ElmReachable ⟨fun _ => none, fun _ => none, live⟩
  | mount {st : ElmState D} (h : ElmReachable st) (call : MountCall D) :
      ElmReachable (dfsElmMount st call).state
  | unmount {st : ElmState D} (h : ElmReachable st) (devId : D) (data : ℕ) :
      ElmReachable (dfsElmUnmount st devId data).2
  | mkfs {st : ElmState D} (h : ElmReachable st) (call : MkfsCall D) :
      ElmReachable (dfsElmMkfs st call).2

variable {st : ElmState D} {index : ℕ}

theorem getDisk_some {id : Option D} (h : getDisk st id = some index) :
    index < elmVolumes ∧ st.disk index = id := by
  have hmem := List.mem_of_find?_eq_some h
  have hid := List.find?_some h
  exact ⟨List.mem_range.mp hmem, by simpa using hid⟩

/-! ## f_mount -/

omit [DecidableEq D] in
/-- Registering a work area for a volume without one. -/
theorem fMount_register (hvol : index < elmVolumes) (hfree : st.fatFs index = none)
    (fat sobj : ℕ) : fMount st index (some fat) (some sobj) = (.ok, { st.malloc sobj with
      fatFs := Function.update st.fatFs index (some ⟨fat, sobj⟩) }) := by
  rw [fMount, if_neg (Nat.not_le.mpr hvol)]
  simp only [hfree]

omit [DecidableEq D] in
theorem fMount_no_mutex (hvol : index < elmVolumes) (hfree : st.fatFs index = none) (fat : ℕ) :
    fMount st index (some fat) none = (.intErr, st) := by
  rw [fMount, if_neg (Nat.not_le.mpr hvol)]
  simp only [hfree]

omit [DecidableEq D] in
theorem fMount_unregister (hvol : index < elmVolumes) (sobj : Option ℕ) :
    fMount st index none sobj = (.ok, { st with
      live := (st.fatFs index).elim st.live fun rfs => st.live.erase rfs.sobj,
      fatFs := Function.update st.fatFs index none }) := by
  rw [fMount, if_neg (Nat.not_le.mpr hvol)]
  cases hwork : st.fatFs index <;> simp only [ElmState.free, Option.elim]

/-! ## dfs_elm_mount -/

/-- What every exit of `dfs_elm_mount` leaves, when the volume that it takes has no work area. -/
inductive MountExit (st : ElmState D) (call : MountCall D) : MountResult D → Prop
  | noVolume (h : getDisk st none = none) : MountExit st call ⟨-dfsStatusEnoent, none, st⟩
  | oversized {index n : ℕ} (h : getDisk st none = some index)
      (hn : call.bytesPerSector = some n) (hbig : maxSs < n) :
      MountExit st call ⟨-dfsStatusEinval, none, st.setDisk index (some call.devId)⟩
  | undone {index : ℕ} (h : getDisk st none = some index)
      (hsize : ∀ n ∈ call.bytesPerSector, n ≤ maxSs)
      (hmissing : call.fat = none ∨ call.sobj = none ∨ call.dir = none) {status : ℤ}
      (hstatus : status ≠ 0) : MountExit st call ⟨status, none, st⟩
  | rootFails {index fat sobj dir : ℕ} (h : getDisk st none = some index)
      (hsize : ∀ n ∈ call.bytesPerSector, n ≤ maxSs) (hfat : call.fat = some fat)
      (hsobj : call.sobj = some sobj) (hdir : call.dir = some dir) (hroot : call.openRoot ≠ .ok) :
      MountExit st call
        ⟨elmResultToDfs call.openRoot, none, { st with live := dir ::ₘ st.live }⟩
  | mounted {index fat sobj dir : ℕ} (h : getDisk st none = some index)
      (hsize : ∀ n ∈ call.bytesPerSector, n ≤ maxSs) (hfat : call.fat = some fat)
      (hsobj : call.sobj = some sobj) (hdir : call.dir = some dir) (hroot : call.openRoot = .ok) :
      MountExit st call ⟨0, some fat,
        { disk := Function.update st.disk index (some call.devId)
          fatFs := Function.update st.fatFs index (some ⟨fat, sobj⟩)
          live := sobj ::ₘ fat ::ₘ st.live }⟩

omit [DecidableEq D] in
/-- A free volume that has been claimed is given back. -/
theorem disk_restored (hdisk : st.disk index = none) (id : Option D) :
    Function.update (Function.update st.disk index id) index none = st.disk := by
  rw [Function.update_idem, ← hdisk, Function.update_eq_self]

omit [DecidableEq D] in
theorem fatFs_restored (hfree : st.fatFs index = none) (work : Option ElmWork) :
    Function.update (Function.update st.fatFs index work) index none = st.fatFs := by
  rw [Function.update_idem, ← hfree, Function.update_eq_self]

theorem dfsElmMount_exit (hinv : ElmInv st) (call : MountCall D) :
    MountExit st call (dfsElmMount st call) := by
  rw [dfsElmMount]
  cases hindex : getDisk st none with
  | none => exact .noVolume hindex
  | some index =>
    obtain ⟨hvol, hdisk⟩ := getDisk_some hindex
    have hfree := hinv index hdisk
    simp only []
    by_cases hbig : ∃ n ∈ call.bytesPerSector, maxSs < n
    · rw [if_pos hbig]
      obtain ⟨n, hn, hbig⟩ := hbig
      exact .oversized hindex hn hbig
    rw [if_neg hbig]
    have hsize : ∀ n ∈ call.bytesPerSector, n ≤ maxSs := fun n hn =>
      Nat.le_of_not_lt fun hlt => hbig ⟨n, hn, hlt⟩
    cases hfat : call.fat with
    | none =>
      have hstate : (st.setDisk index (some call.devId)).setDisk index none = st := by
        simp only [ElmState.setDisk, disk_restored hdisk]
      simp only [hstate]
      exact .undone hindex hsize (.inl hfat) (by decide)
    | some fat =>
      have hfree₁ : ((st.setDisk index (some call.devId)).malloc fat).fatFs index = none := hfree
      cases hsobj : call.sobj with
      | none =>
        simp only [fMount_no_mutex hvol hfree₁]
        simp only [mountFailed, fMount_unregister hvol]
        simp only [ElmState.setDisk, ElmState.malloc, ElmState.free, hfree, Option.elim,
          disk_restored hdisk, Multiset.erase_cons_head]
        rw [show Function.update st.fatFs index none = st.fatFs from
          hfree ▸ Function.update_eq_self ..]
        exact .undone hindex hsize (.inr (.inl hsobj)) (by decide)
      | some sobj =>
        simp only [fMount_register hvol hfree₁]
        cases hdir : call.dir with
        | none =>
          simp only [mountFailed, fMount_unregister hvol]
          simp only [ElmState.setDisk, ElmState.malloc, ElmState.free, Function.update_self,
            Option.elim, disk_restored hdisk, fatFs_restored hfree, Multiset.erase_cons_head]
          exact .undone hindex hsize (.inr (.inr hdir)) (by decide)
        | some dir =>
          by_cases hroot : call.openRoot = .ok
          · simp only [if_pos hroot, ElmState.setDisk, ElmState.malloc, ElmState.free,
              Multiset.erase_cons_head]
            exact .mounted hindex hsize hfat hsobj hdir hroot
          · simp only [if_neg hroot, mountFailed, fMount_unregister hvol]
            simp only [ElmState.setDisk, ElmState.malloc, ElmState.free, Function.update_self,
              Option.elim, disk_restored hdisk, fatFs_restored hfree]
            rw [Multiset.cons_swap dir sobj, Multiset.erase_cons_head, Multiset.cons_swap dir fat,
              Multiset.erase_cons_head]
            exact .rootFails hindex hsize hfat hsobj hdir hroot

/-! ## The invariant -/

namespace ElmInv

theorem mount (hinv : ElmInv st) (call : MountCall D) : ElmInv (dfsElmMount st call).state := by
  have hexit := dfsElmMount_exit hinv call
  generalize dfsElmMount st call = r at hexit ⊢
  intro i hi
  cases hexit with
  | noVolume => exact hinv i hi
  | @oversized index =>
    by_cases hne : i = index
    · simp [ElmState.setDisk, hne] at hi
    · exact hinv i ((Function.update_of_ne hne ..).symm.trans hi)
  | undone => exact hinv i hi
  | rootFails => exact hinv i hi
  | @mounted index =>
    by_cases hne : i = index
    · simp [hne] at hi
    · exact (Function.update_of_ne hne ..).trans
        (hinv i ((Function.update_of_ne hne ..).symm.trans hi))

theorem unmount (hinv : ElmInv st) (devId : D) (data : ℕ) :
    ElmInv (dfsElmUnmount st devId data).2 := by
  rw [dfsElmUnmount]
  cases hindex : getDisk st (some devId) with
  | none => exact hinv
  | some index =>
    simp only [fMount_unregister (getDisk_some hindex).1]
    intro i hi
    by_cases hne : i = index
    · rw [hne]
      exact Function.update_self ..
    · refine (Function.update_of_ne hne ..).trans (hinv i ?_)
      exact (Function.update_of_ne hne ..).symm.trans hi

theorem mkfs (hinv : ElmInv st) (call : MkfsCall D) : ElmInv (dfsElmMkfs st call).2 := by
  rw [dfsElmMkfs]
  cases getDisk st (some call.devId) with
  | some => exact hinv
  | none =>
    cases hindex : getDisk st none with
    | none => exact hinv
    | some index =>
      obtain ⟨hvol, hdisk⟩ := getDisk_some hindex
      have hfree := hinv index hdisk
      cases call.fat with
      | none => exact hinv
      | some fat =>
        have hfree₁ : ((st.malloc fat).setDisk index (some call.devId)).fatFs index = none := hfree
        intro i
        cases call.sobj with
        | none =>
          simp only [fMount_no_mutex hvol hfree₁, fMount_unregister hvol]
          simp only [ElmState.setDisk, ElmState.malloc, ElmState.free, disk_restored hdisk]
          rw [show Function.update st.fatFs index none = st.fatFs from
            hfree ▸ Function.update_eq_self ..]
          exact hinv i
        | some sobj =>
          simp only [fMount_register hvol hfree₁, fMount_unregister hvol]
          simp only [ElmState.setDisk, ElmState.malloc, ElmState.free, disk_restored hdisk,
            fatFs_restored hfree]
          exact hinv i

theorem of_reachable (h : ElmReachable st) : ElmInv st := by
  induction h with
  | start => exact fun _ _ => rfl
  | mount _ call ih => exact ih.mount call
  | unmount _ devId data ih => exact ih.unmount devId data
  | mkfs _ call ih => exact ih.mkfs call

end ElmInv

/-! ## What a failed mount leaves -/

/-- A mount that fails leaves the table of devices, no work area for the volume that it took,
and no block that it allocated. -/
def MountClean (st : ElmState D) (call : MountCall D) : Prop :=
  (dfsElmMount st call).status ≠ 0 →
    (dfsElmMount st call).state.disk = st.disk ∧
      (∀ index, getDisk st none = some index →
        (dfsElmMount st call).state.fatFs index = none) ∧
      (dfsElmMount st call).state.live = st.live

/-- The sectors are too large, or everything succeeds up to the root directory and that cannot
be opened. -/
def Faulty (call : MountCall D) : Prop :=
  (∃ n ∈ call.bytesPerSector, maxSs < n) ∨
    call.fat.isSome ∧ call.sobj.isSome ∧ call.dir.isSome ∧ call.openRoot ≠ .ok

/-- One mount after the other fails. -/
inductive FailedMounts : ElmState D → List (MountCall D) → ElmState D → Prop
  | nil (st : ElmState D) : FailedMounts st [] st
  | cons {st st' : ElmState D} {call : MountCall D} {calls : List (MountCall D)}
      (hfail : (dfsElmMount st call).status ≠ 0)
      (hrest : FailedMounts (dfsElmMount st call).state calls st') :
      FailedMounts st (call :: calls) st'

theorem mountClean_iff_of_inv (hinv : ElmInv st) (call : MountCall D) :
    MountClean st call ↔ ((getDisk st none).isSome → ¬Faulty call) := by
  have hexit := dfsElmMount_exit hinv call
  rw [MountClean]
  generalize dfsElmMount st call = r at hexit
  cases hexit with
  | noVolume h => simp [h]
  | @oversized index n h hn hbig =>
    have hfaulty : Faulty call := .inl ⟨n, hn, hbig⟩
    have hdisk : (st.setDisk index (some call.devId)).disk ≠ st.disk := by
      intro he
      have hat : Function.update st.disk index (some call.devId) index = st.disk index :=
        congrFun he index
      rw [Function.update_self, (getDisk_some h).2] at hat
      exact absurd hat (by simp)
    simp [h, hfaulty, hdisk, dfsStatusEinval]
  | @undone index h hsize hmissing status hstatus =>
    have hfaulty : ¬Faulty call := by
      rintro (⟨n, hn, hbig⟩ | ⟨hfat, hsobj, hdir, -⟩)
      · exact absurd (hsize n hn) (Nat.not_le.mpr hbig)
      · rcases hmissing with he | he | he <;> simp [he] at hfat hsobj hdir
    have hfree := hinv index (getDisk_some h).2
    simp [h, hfaulty, hfree]
  | @rootFails index fat sobj dir h hsize hfat hsobj hdir hroot =>
    have hfaulty : Faulty call := .inr ⟨by simp [hfat], by simp [hsobj], by simp [hdir], hroot⟩
    have hstatus : elmResultToDfs call.openRoot ≠ 0 := mt elmResultToDfs_eq_zero.mp hroot
    have hlive : dir ::ₘ st.live ≠ st.live := fun he =>
      absurd (congrArg Multiset.card he) (by simp)
    simp [h, hfaulty, hstatus, hlive]
  | mounted h hsize hfat hsobj hdir hroot =>
    have hfaulty : ¬Faulty call := by
      rintro (⟨n, hn, hbig⟩ | ⟨-, -, -, hne⟩)
      · exact absurd (hsize n hn) (Nat.not_le.mpr hbig)
      · exact hne hroot
    simp [hfaulty]

/-- A failure of the other kinds leaves the state as it was. -/
theorem state_of_failed (hinv : ElmInv st) {call : MountCall D} (hgood : ¬Faulty call)
    (hfail : (dfsElmMount st call).status ≠ 0) : (dfsElmMount st call).state = st := by
  have hexit := dfsElmMount_exit hinv call
  generalize dfsElmMount st call = r at hexit hfail
  cases hexit with
  | noVolume => rfl
  | oversized h hn hbig => exact absurd (.inl ⟨_, hn, hbig⟩) hgood
  | undone => rfl
  | rootFails h hsize hfat hsobj hdir hroot =>
    exact absurd (.inr ⟨by simp [hfat], by simp [hsobj], by simp [hdir], hroot⟩) hgood
  | mounted => exact absurd rfl hfail

theorem state_of_failedMounts (hinv : ElmInv st) {calls : List (MountCall D)} {st' : ElmState D}
    (hrun : FailedMounts st calls st') (hgood : ∀ call ∈ calls, ¬Faulty call) : st' = st := by
  induction hrun with
  | nil => rfl
  | cons hfail _ ih =>
    have hstate := state_of_failed hinv (hgood _ List.mem_cons_self) hfail
    rw [hstate] at ih
    exact ih hinv fun call hcall => hgood call (List.mem_cons_of_mem _ hcall)

theorem failed_mount_clean_iff (h : ElmReachable st) :
    (∀ call, MountClean st call ↔ ((getDisk st none).isSome → ¬Faulty call)) ∧
      ∀ calls st', FailedMounts st calls st' → (∀ call ∈ calls, ¬Faulty call) → st' = st :=
  ⟨mountClean_iff_of_inv (.of_reachable h), fun _ _ => state_of_failedMounts (.of_reachable h)⟩

end Models

theorem failed_mount_clean_iff_start :
    (∀ call : MountCall ℕ, MountClean ⟨fun _ => none, fun _ => none, 0⟩ call ↔
        ((getDisk (⟨fun _ => none, fun _ => none, 0⟩ : ElmState ℕ) none).isSome →
          ¬Faulty call)) ∧
      ∀ calls st', FailedMounts (⟨fun _ => none, fun _ => none, 0⟩ : ElmState ℕ) calls st' →
        (∀ call ∈ calls, ¬Faulty call) → st' = ⟨fun _ => none, fun _ => none, 0⟩ :=
  failed_mount_clean_iff (.start 0)

/-- A device that holds no FAT volume. -/
def unformatted : MountCall ℕ := ⟨1, some 512, some 0x100, some 0x200, some 0x300, .noFilesystem⟩

theorem unformatted_mount_leaks :
    ElmReachable (⟨fun _ => none, fun _ => none, 0⟩ : ElmState ℕ) ∧
      ¬MountClean ⟨fun _ => none, fun _ => none, 0⟩ unformatted := by
  refine ⟨.start 0, fun hclean => ?_⟩
  rw [mountClean_iff_of_inv (.of_reachable (.start 0))] at hclean
  exact hclean rfl (.inr ⟨rfl, rfl, rfl, by decide⟩)

end RtThread
