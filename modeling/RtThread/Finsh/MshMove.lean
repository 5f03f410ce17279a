import RtThread.Filesystems.DfsFd

/-!
# Moving a file in the shell

`cmd_mv` over what the files of all drivers hold. A place is where the driver of a path
looks for it, so that two paths can lead to one place. An existing file at the
destination is unlinked before the rename, whatever becomes of that.
-/
namespace RtThread

/-- What is at a place. -/
inductive MvNode where
  | file (data : List UInt8)
  | dir
  deriving DecidableEq, Repr

/-- What all the places hold. -/
abbrev MvStore (L : Type) := L → Option MvNode

/-- What the command meets. -/
structure MvEnv (L : Type) where
  workingDirectory : List Char
  /-- The place of a normalised path. -/
  place : List Char → L
  /-- A directory can be opened: there are a descriptor and memory, and the driver does it. -/
  listable : Bool
  /-- A file can be opened. -/
  readable : Bool
  /-- `rt_malloc` of the path below the destination. -/
  memory : Bool
  /-- `unlink` succeeds for an existing file. -/
  unlinkable : Bool
  /-- `ops->rename`, when both paths are of one filesystem and there is memory for them. -/
  rename : MvStore L → L → L → Option (MvStore L)

namespace Msh

variable {L : Type} (env : MvEnv L)

/-- Where an argument leads, if it leads anywhere. -/
def locate (path : List Char) : Option L :=
  match normalizedText env.workingDirectory path true with
  | some (some fullpath) => some (env.place fullpath)
  | _ => none

/-- What an argument leads to. -/
def nodeAt (st : MvStore L) (path : List Char) : Option MvNode := (locate env path).bind st

/-- `open(path, O_DIRECTORY, 0)` succeeds. -/
def opensDirectory (st : MvStore L) (path : List Char) : Bool :=
  match nodeAt env st path with
  | some .dir => env.listable
  | _ => false

/-- `open(path, O_RDONLY, 0)` succeeds. -/
def opensFile (st : MvStore L) (path : List Char) : Bool :=
  match nodeAt env st path with
  | some (.file _) => env.readable
  | _ => false

/-- `unlink`. -/
def unlinkFile [DecidableEq L] (st : MvStore L) (path : List Char) : MvStore L :=
  match locate env path with
  | none => st
  | some l => if env.unlinkable then Function.update st l none else st

/-- `rename`. -/
def renamePath (st : MvStore L) (oldpath newpath : List Char) : MvStore L :=
  match locate env oldpath, locate env newpath with
  | some old, some new => (env.rename st old new).getD st
  | _, _ => st

def dfsPathMax : ℕ := 256

/-- The end of a path, from its last `/` on. -/
def lastPart (path : List Char) : List Char :=
  let name := (path.reverse.takeWhile (· ≠ '/')).reverse
  if '/' ∈ path then '/' :: name else name

/-- `rt_snprintf(dest, DFS_PATH_MAX - 1, "%s/%s", argv[2], src)`. -/
def destBelow (source dest : List Char) : List Char :=
  (dest ++ '/' :: lastPart source).take (dfsPathMax - 2)

/-- `cmd_mv` with its arguments behind the name of the command. -/
def cmdMv [DecidableEq L] (st : MvStore L) : List (List Char) → MvStore L
  | [source, dest] =>
    if opensDirectory env st dest then
      if env.memory then renamePath env st source (destBelow source dest) else st
    else
      let st := if opensFile env st dest then unlinkFile env st dest else st
      renamePath env st source dest
  | _ => st

/-! ## What a move keeps -/

/-- What drivers do when `ops->rename` succeeds: the node moves, and a file is replaced by
a file only. -/
structure Renames (env : MvEnv L) : Prop where
  moved : ∀ {st st' old new}, env.rename st old new = some st' →
    ∃ n, st old = some n ∧ st' new = some n
  replaced : ∀ {st st' old new b}, env.rename st old new = some st' → st new = some (.file b) →
    old = new ∨ ∃ a, st old = some (.file a)

/-- The second argument of the rename. -/
def destination (st : MvStore L) (source dest : List Char) : List Char :=
  if opensDirectory env st dest then destBelow source dest else dest

/-- No data are lost between two states. -/
structure KeepsData (source dest : List Char) (st st' : MvStore L) : Prop where
  kept : ∀ a, nodeAt env st source = some (.file a) →
    nodeAt env st' source = some (.file a) ∨ nodeAt env st' dest = some (.file a)
  replaced : ∀ b, nodeAt env st dest = some (.file b) → nodeAt env st' dest = some (.file b) ∨
    ∃ a, nodeAt env st source = some (.file a) ∧ nodeAt env st' dest = some (.file a)

variable {env} {st : MvStore L} {source dest : List Char}

theorem keepsData_refl : KeepsData env source dest st st :=
  ⟨fun _ h => .inl h, fun _ h => .inl h⟩

theorem nodeAt_of_locate {l : L} {path : List Char} (h : locate env path = some l) :
    nodeAt env st path = st l := by rw [nodeAt, h, Option.bind_some]

/-- A rename alone keeps all data. -/
theorem renamePath_keepsData (hrename : Renames env) :
    KeepsData env source dest st (renamePath env st source dest) := by
  unfold renamePath
  split
  · next old new hold hnew =>
    cases hdone : env.rename st old new with
    | none => exact keepsData_refl
    | some st' =>
      obtain ⟨n, hn, hn'⟩ := hrename.moved hdone
      constructor
      · intro a ha
        rw [nodeAt_of_locate hold, hn] at ha
        exact .inr (by rw [nodeAt_of_locate hnew, Option.getD_some, hn', ha])
      · intro b hb
        rw [nodeAt_of_locate hnew] at hb
        rw [nodeAt_of_locate hnew, nodeAt_of_locate hold, Option.getD_some, hn', hn]
        rcases hrename.replaced hdone hb with rfl | ⟨a, ha⟩
        · exact .inl (hn.symm.trans hb)
        · exact .inr ⟨a, hn.symm.trans ha, hn.symm.trans ha⟩
  · exact keepsData_refl

theorem opensDirectory_of_opensFile (h : opensFile env st dest = true) :
    opensDirectory env st dest = false := by
  unfold opensFile at h
  unfold opensDirectory
  split at h
  · next b hb => rw [hb]
  · contradiction

/-- The command unlinks a file at the destination. -/
def Unlinks (env : MvEnv L) (st : MvStore L) (dest : List Char) : Prop :=
  opensFile env st dest = true ∧ env.unlinkable = true

variable [DecidableEq L]

/-- The source is another file, and the rename behind the unlinking succeeds. -/
def Replaces (env : MvEnv L) (st : MvStore L) (source dest : List Char) : Prop :=
  ∃ a old new, locate env source = some old ∧ locate env dest = some new ∧ old ≠ new ∧
    st old = some (.file a) ∧ (env.rename (Function.update st new none) old new).isSome = true

variable (source) in
theorem cmdMv_not_unlinks (h : ¬Unlinks env st dest) :
    cmdMv env st [source, dest] = renamePath env st source (destination env st source dest) ∨
      cmdMv env st [source, dest] = st := by
  rw [cmdMv, destination]
  by_cases hdir : opensDirectory env st dest = true
  · rw [if_pos hdir, if_pos hdir]
    split
    · exact .inl rfl
    · exact .inr rfl
  · rw [if_neg hdir, if_neg hdir]
    refine .inl (congrArg (renamePath env · source dest) ?_)
    split
    · next hopen =>
      unfold unlinkFile
      split
      · rfl
      · exact if_neg fun hunlink => h ⟨hopen, hunlink⟩
    · rfl

variable (source) in
theorem cmdMv_unlinks (h : Unlinks env st dest) : ∃ new b, locate env dest = some new ∧
    st new = some (.file b) ∧ destination env st source dest = dest ∧
    cmdMv env st [source, dest] = renamePath env (Function.update st new none) source dest := by
  obtain ⟨hopen, hunlink⟩ := h
  have hdir := opensDirectory_of_opensFile hopen
  cases hnew : locate env dest with
  | none => simp [opensFile, nodeAt, hnew] at hopen
  | some new =>
    have hb : ∃ b, st new = some (.file b) := by
      rw [opensFile, nodeAt_of_locate hnew] at hopen
      split at hopen
      · next b hb => exact ⟨b, hb⟩
      · contradiction
    obtain ⟨b, hb⟩ := hb
    refine ⟨new, b, rfl, hb, ?_, ?_⟩
    · rw [destination, hdir]
      rfl
    · simp [cmdMv, hdir, hopen, unlinkFile, hnew, hunlink]

/-- What was unlinked has to be replaced. -/
theorem unlinked_keepsData_iff (hrename : Renames env) (hunlinks : Unlinks env st dest) :
    KeepsData env source (destination env st source dest) st (cmdMv env st [source, dest]) ↔
      Replaces env st source dest := by
  obtain ⟨new, b, hnew, hb, hdest, hmv⟩ := cmdMv_unlinks source hunlinks
  rw [hdest, hmv]
  constructor
  · intro hkeeps
    have hgone : nodeAt env (Function.update st new none) dest = none := by
      rw [nodeAt_of_locate hnew, Function.update_self]
    have hthere : ∃ a, nodeAt env (renamePath env (Function.update st new none) source dest) dest =
        some (.file a) := by
      rcases hkeeps.replaced b (by rw [nodeAt_of_locate hnew, hb]) with h | ⟨a, -, h⟩
      · exact ⟨b, h⟩
      · exact ⟨a, h⟩
    obtain ⟨a, hthere⟩ := hthere
    unfold renamePath at hthere
    split at hthere
    · next old new' hold hnew' =>
      obtain rfl : new' = new := Option.some.inj (hnew'.symm.trans hnew)
      cases hdone : env.rename (Function.update st new' none) old new' with
      | none =>
        rw [hdone, Option.getD_none, hgone] at hthere
        contradiction
      | some st' =>
        obtain ⟨n, hn, hn'⟩ := hrename.moved hdone
        have hne : old ≠ new' := by
          rintro rfl
          rw [Function.update_self] at hn
          contradiction
        rw [Function.update_of_ne hne] at hn
        rw [hdone, Option.getD_some, nodeAt_of_locate hnew, hn'] at hthere
        exact ⟨a, old, new', hold, hnew, hne, hn.trans hthere, by rw [hdone]; rfl⟩
    · rw [hgone] at hthere
      contradiction
  · rintro ⟨a, old, new', hold, hnew', hne, ha, hsome⟩
    obtain rfl : new' = new := Option.some.inj (hnew'.symm.trans hnew)
    obtain ⟨st', hdone⟩ := Option.isSome_iff_exists.mp hsome
    obtain ⟨n, hn, hn'⟩ := hrename.moved hdone
    rw [Function.update_of_ne hne, ha] at hn
    have hresult : renamePath env (Function.update st new' none) source dest = st' := by
      simp [renamePath, hold, hnew, hdone]
    have hthere : nodeAt env st' dest = some (.file a) := by
      rw [nodeAt_of_locate hnew, hn', hn]
    have hsource : nodeAt env st source = some (.file a) := by rw [nodeAt_of_locate hold, ha]
    rw [hresult]
    constructor
    · intro c hc
      rw [hsource] at hc
      exact .inr (hthere.trans hc)
    · exact fun c _ => .inr ⟨a, hsource, hthere⟩

end Msh

open Msh

/-- A move keeps all data exactly when it does not unlink the destination, or the source is
another file and comes to be there. -/
theorem move_keeps_data_iff {L : Type} [DecidableEq L] (env : MvEnv L) (hrename : Renames env)
    (st : MvStore L) (source dest : List Char) :
    KeepsData env source (destination env st source dest) st (cmdMv env st [source, dest]) ↔
      ¬Unlinks env st dest ∨ Replaces env st source dest := by
  by_cases hunlinks : Unlinks env st dest
  · rw [unlinked_keepsData_iff hrename hunlinks, or_iff_right (not_not.mpr hunlinks)]
  · refine iff_of_true ?_ (.inl hunlinks)
    rcases cmdMv_not_unlinks source hunlinks with h | h
    · rw [h]
      exact renamePath_keepsData hrename
    · rw [h]
      exact keepsData_refl

/-- A driver that renames what is there to where nothing is. -/
def renamingDriver : MvEnv (List Char) where
  workingDirectory := ['/']
  place := id
  listable := true
  readable := true
  memory := true
  unlinkable := true
  rename st old new := (st old).bind fun n =>
    if st new = none then some (Function.update (Function.update st old none) new (some n))
    else none

theorem renamingDriver_renames : Renames renamingDriver := by
  constructor
  · intro st st' old new h
    obtain ⟨n, hn, h⟩ := Option.bind_eq_some_iff.mp h
    split at h
    · obtain rfl := Option.some.inj h
      exact ⟨n, hn, Function.update_self _ _ _⟩
    · contradiction
  · intro st st' old new b h hb
    obtain ⟨n, -, h⟩ := Option.bind_eq_some_iff.mp h
    rw [hb, if_neg (by simp)] at h
    contradiction

/-- A file at `/b`, and perhaps one at `/a`. -/
def storeWith (a : Option (List UInt8)) : MvStore (List Char) := fun path =>
  if path = ['/', 'b'] then some (.file [1])
  else if path = ['/', 'a'] then a.map .file
  else none

theorem move_keeps_data_replaced : KeepsData renamingDriver ['/', 'a']
    (destination renamingDriver (storeWith (some [2])) ['/', 'a'] ['/', 'b']) (storeWith (some [2]))
    (cmdMv renamingDriver (storeWith (some [2])) [['/', 'a'], ['/', 'b']]) :=
  (move_keeps_data_iff renamingDriver renamingDriver_renames (storeWith (some [2])) ['/', 'a']
    ['/', 'b']).mpr (.inr ⟨[2], ['/', 'a'], ['/', 'b'], by decide +kernel, by decide +kernel,
      by decide, rfl, by decide +kernel⟩)

/-- `mv /a /b` without a file `/a` deletes `/b`. -/
theorem missing_source_deletes : ¬KeepsData renamingDriver ['/', 'a']
    (destination renamingDriver (storeWith none) ['/', 'a'] ['/', 'b']) (storeWith none)
    (cmdMv renamingDriver (storeWith none) [['/', 'a'], ['/', 'b']]) := by
  have hunlinks : Unlinks renamingDriver (storeWith none) ['/', 'b'] :=
    ⟨by decide +kernel, rfl⟩
  have hsource : locate renamingDriver ['/', 'a'] = some ['/', 'a'] := by decide +kernel
  rw [unlinked_keepsData_iff renamingDriver_renames hunlinks]
  rintro ⟨a, old, new, hold, -, -, ha, -⟩
  obtain rfl : old = ['/', 'a'] := Option.some.inj (hold.symm.trans hsource)
  contradiction

end RtThread
