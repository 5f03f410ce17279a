import RtThread.Filesystems.DfsOps

/-!
# The results of FatFs

What the functions of FatFs return and the status that DFS makes of it.
-/
namespace RtThread

def dfsStatusEio : ℤ := 5
def dfsStatusEnomem : ℤ := 12
def dfsStatusEexist : ℤ := 17
def dfsStatusEisdir : ℤ := 21
def dfsStatusEnospc : ℤ := 28
def dfsStatusErofs : ℤ := 30

/-- `FRESULT`. -/
inductive FResult where
  | ok
  | diskErr
  | intErr
  | notReady
  | noFile
  | noPath
  | invalidName
  | denied
  | exist
  | invalidObject
  | writeProtected
  | invalidDrive
  | notEnabled
  | noFilesystem
  | mkfsAborted
  | timeout
  | locked
  | notEnoughCore
  | tooManyOpenFiles
  deriving DecidableEq, Repr

/-- `elm_result_to_dfs`. -/
def elmResultToDfs : FResult → ℤ
  | .ok => 0
  | .noFile | .noPath | .noFilesystem => -dfsStatusEnoent
  | .invalidName => -dfsStatusEinval
  | .exist | .invalidObject => -dfsStatusEexist
  | .diskErr | .notReady | .intErr => -dfsStatusEio
  | .writeProtected | .denied => -dfsStatusErofs
  | .mkfsAborted => -dfsStatusEinval
  | _ => -1

/-- Every failure of FatFs is one of DFS. -/
theorem elmResultToDfs_neg {r : FResult} (h : r ≠ .ok) : elmResultToDfs r < 0 := by
  cases r <;> first | exact absurd rfl h | decide

theorem elmResultToDfs_eq_zero {r : FResult} : elmResultToDfs r = 0 ↔ r = .ok := by
  constructor
  · intro h
    by_contra hne
    have hneg := elmResultToDfs_neg hne
    omega
  · rintro rfl
    rfl

/-- `_VOLUMES`. -/
def elmVolumes : ℕ := 2

end RtThread
