import RtThread.Library.Procedure
import Mathlib.Data.List.Basic

/-!
# Copying files and directories

`copyfile`, `copydir` and `copy` of `dfs_file.c`, over one tree of directories and files.
Paths are the names on the way from the root, as `dfs_normalize_path` leaves them; the
block of the path of a descriptor is that of the normalised path. A driver keeps its own
object for each successful open, which `fd->data` points to. Messages are left out.
-/
namespace RtThread
open Procedures

abbrev FileName := List Char
abbrev FilePath := List FileName

/-- What a path leads to; a directory lists its entries in order. -/
inductive FileNode where
  | file (data : List UInt8)
  | dir (entries : List (FileName × FileNode))

namespace FileNode

def entries : FileNode → List (FileName × FileNode)
  | .file _ => []
  | .dir es => es

def find : FileNode → FilePath → Option FileNode
  | n, [] => some n
  | n, name :: path => (n.entries.lookup name).bind fun child => child.find path

/-- The tree with another node at a path; only the last name may be new. -/
def put : FileNode → FilePath → FileNode → FileNode
  | _, [], new => new
  | .file data, _ :: _, _ => .file data
  | .dir es, name :: path, new =>
    match es.lookup name with
    | some child =>
      .dir (es.map fun e => if e.1 = name then (e.1, child.put path new) else e)
    | none => if path = [] then .dir (es ++ [(name, new)]) else .dir es

def isDir : FileNode → Bool
  | .file _ => false
  | .dir _ => true

end FileNode

/-- The object of a driver behind an open file or directory. -/
structure OpenFile where
  path : FilePath
  pos : ℕ
  /-- How often it was closed. -/
  closes : ℕ
  deriving DecidableEq, Repr

/-- `struct dfs_fd`. -/
structure CopyFd where
  /-- The type is `FT_DIRECTORY`. -/
  directory : Bool
  /-- `fd->data`: the number of the object of the driver. -/
  data : Option ℕ
  /-- `fd->path` is not null. -/
  path : Bool
  deriving DecidableEq, Repr

/-- What the functions meet. -/
structure CopyEnv where
  /-- Whether an allocation succeeds. -/
  memory : ℕ → Bool
  /-- `fd_new` finds a descriptor. -/
  descriptor : Bool
  /-- The driver lists `.` and `..` first. -/
  listsDots : Bool
  /-- What a driver lists for an object that was closed, at a time. -/
  stale : ℕ → ℕ → Option FileName

structure CopyState where
  root : FileNode
  /-- The objects of the drivers, in the order of their opening. -/
  opened : List OpenFile
  /-- The static `fd` of the file. -/
  fd : CopyFd
  /-- The number of allocations so far. -/
  allocations : ℕ
  /-- The number of blocks allocated and not freed. -/
  blocks : ℕ

namespace DfsCopy

abbrev CopyProc (α : Type) := Proc CopyState α

def rtMalloc (env : CopyEnv) : CopyProc Bool := do
  let k ← Proc.read (·.allocations)
  if env.memory k then
    Proc.modify fun s => { s with allocations := k + 1, blocks := s.blocks + 1 }
    pure true
  else
    Proc.modify fun s => { s with allocations := k + 1 }
    pure false

def rtFree : CopyProc Unit := Proc.modify fun s => { s with blocks := s.blocks - 1 }

/-! ## The drivers -/

/-- The flags with which a path is opened. -/
inductive OpenMode where
  /-- `DFS_O_RDONLY`. -/
  | read
  /-- `DFS_O_WRONLY | DFS_O_CREAT`. -/
  | write
  /-- `DFS_O_DIRECTORY`. -/
  | list
  /-- `DFS_O_DIRECTORY | DFS_O_CREAT`. -/
  | create
  deriving DecidableEq, Repr

def OpenMode.directory : OpenMode → Bool
  | .read => false
  | .write => false
  | .list => true
  | .create => true

/-- The tree after an open, when the driver can do it. -/
def openedRoot (root : FileNode) (path : FilePath) : OpenMode → Option FileNode
  | .read =>
    match root.find path with
    | some (.file _) => some root
    | _ => none
  | .write =>
    match root.find path with
    | some (.file _) => some root
    | some (.dir _) => none
    | none =>
      match root.find path.dropLast with
      | some (.dir _) => some (root.put path (.file []))
      | _ => none
  | .list =>
    match root.find path with
    | some (.dir _) => some root
    | _ => none
  | .create =>
    match root.find path with
    | some _ => none
    | none =>
      match root.find path.dropLast with
      | some (.dir _) => some (root.put path (.dir []))
      | _ => none

/-- `ops->open`. -/
def opsOpen (path : FilePath) (mode : OpenMode) : CopyProc (Option ℕ) := do
  let root ← Proc.read fun s => openedRoot s.root path mode
  match root with
  | none => pure none
  | some root =>
    let h ← Proc.read (·.opened.length)
    Proc.modify fun s => { s with root := root, opened := s.opened ++ [⟨path, 0, 0⟩] }
    pure (some h)

/-- `ops->close`. -/
def opsClose (h : ℕ) : CopyProc Unit :=
  Proc.modify fun s => { s with
    opened := s.opened.modify h fun f => { f with closes := f.closes + 1 } }

/-- The names that a directory lists. -/
def listing (env : CopyEnv) (root : FileNode) (path : FilePath) : List FileName :=
  (if env.listsDots then [['.'], ['.', '.']] else []) ++
    ((root.find path).map fun n => n.entries.map Prod.fst).getD []

/-- `ops->getdents` for one entry; `none` when there is none left. -/
def opsGetdents (env : CopyEnv) (h : ℕ) : CopyProc (Option FileName) := do
  let name ← Proc.read fun s =>
    match s.opened[h]? with
    | none => none
    | some f => if f.closes = 0 then (listing env s.root f.path)[f.pos]? else env.stale h f.pos
  Proc.modify fun s => { s with opened := s.opened.modify h fun f => { f with pos := f.pos + 1 } }
  pure name

/-- The data of the file behind an object. -/
def fileData (s : CopyState) (h : ℕ) : List UInt8 :=
  match (s.opened[h]?).bind fun f => s.root.find f.path with
  | some (.file data) => data
  | _ => []

/-- `ops->read`. -/
def opsRead (h length : ℕ) : CopyProc (List UInt8) := do
  let bytes ← Proc.read fun s =>
    ((fileData s h).drop ((s.opened[h]?.map (·.pos)).getD 0)).take length
  Proc.modify fun s => { s with
    opened := s.opened.modify h fun f => { f with pos := f.pos + bytes.length } }
  pure bytes

/-- `ops->write`: it writes all the bytes. -/
def opsWrite (h : ℕ) (bytes : List UInt8) : CopyProc ℕ := do
  Proc.modify fun s =>
    match s.opened[h]? with
    | none => s
    | some f =>
      let data := fileData s h
      let data := data.take f.pos ++ bytes ++ data.drop (f.pos + bytes.length)
      { s with root := s.root.put f.path (.file data) }
  Proc.modify fun s => { s with
    opened := s.opened.modify h fun f => { f with pos := f.pos + bytes.length } }
  pure bytes.length

/-! ## The functions on descriptors -/

/-- `dfs_file_open`: whether it succeeds, and the descriptor. -/
def dfsFileOpen (env : CopyEnv) (fd : CopyFd) (path : FilePath) (mode : OpenMode) :
    CopyProc (Bool × CopyFd) := do
  if ← rtMalloc env then
    match ← opsOpen path mode with
    | none =>
      rtFree
      pure (false, { fd with directory := false, path := false })
    | some h => pure (true, ⟨mode.directory, some h, true⟩)
  else pure (false, fd)

/-- `dfs_file_close`: the descriptor. -/
def dfsFileClose (fd : CopyFd) : CopyProc CopyFd := do
  match fd.data with
  | none => pure ()
  | some h => opsClose h
  if fd.path then rtFree
  pure { fd with path := false }

/-- `dfs_file_getdents` for one entry; `none` for a result that is not positive. -/
def dfsFileGetdents (env : CopyEnv) (fd : CopyFd) : CopyProc (Option FileName) :=
  match fd.directory, fd.data with
  | true, some h => opsGetdents env h
  | _, _ => pure none

def dfsFileRead (fd : CopyFd) (length : ℕ) : CopyProc (List UInt8) :=
  match fd.data with
  | none => pure []
  | some h => opsRead h length

def dfsFileWrite (fd : CopyFd) (bytes : List UInt8) : CopyProc ℕ :=
  match fd.data with
  | none => pure 0
  | some h => opsWrite h bytes

/-- `dfs_file_stat`: whether the path leads to a directory, when it leads anywhere. -/
def dfsFileStat (env : CopyEnv) (path : FilePath) : CopyProc (Option Bool) := do
  if ← rtMalloc env then
    let isDir ← Proc.read fun s => (s.root.find path).map FileNode.isDir
    rtFree
    pure isDir
  else pure none

/-- `mkdir`, with a descriptor of the table. -/
def mkdir (env : CopyEnv) (path : FilePath) : CopyProc Unit := do
  if env.descriptor then
    let (ok, d) ← dfsFileOpen env ⟨false, none, false⟩ path .create
    if ok then
      let _ ← dfsFileClose d

/-! ## Copying -/

def bufSz : ℕ := 4096

/-- `dfs_file_open` of the static descriptor. -/
def openFd (env : CopyEnv) (path : FilePath) (mode : OpenMode) : CopyProc Bool := do
  let fd ← Proc.read (·.fd)
  let (ok, fd) ← dfsFileOpen env fd path mode
  Proc.modify fun s => { s with fd := fd }
  pure ok

/-- `dfs_file_close` of the static descriptor. -/
def closeFd : CopyProc Unit := do
  let fd ← Proc.read (·.fd)
  let fd ← dfsFileClose fd
  Proc.modify fun s => { s with fd := fd }

/-- One round of the loop of `copyfile`. -/
def copyfileRound (srcFd : CopyFd) : CopyProc (Unit ⊕ Unit) := do
  let bytes ← dfsFileRead srcFd bufSz
  if bytes.length > 0 then
    let fd ← Proc.read (·.fd)
    let length ← dfsFileWrite fd bytes
    if length ≠ bytes.length then pure (.inr ()) else pure (.inl ())
  else pure (.inr ())

def copyfile (env : CopyEnv) (src dst : FilePath) : CopyProc Unit := do
  if ← rtMalloc env then
    let (ok, srcFd) ← dfsFileOpen env ⟨false, none, false⟩ src .read
    if !ok then rtFree
    else if ← openFd env dst .write then
      Proc.loop (fun (_ : Unit) => copyfileRound srcFd) ()
      let _ ← dfsFileClose srcFd
      closeFd
      rtFree
    else
      rtFree
      let _ ← dfsFileClose srcFd

/-- The work of `copydir` for one entry that is not `.` or `..`; the flag is whether the loop goes
on. `below` is `copydir` for the directories below. -/
def copyEntry (env : CopyEnv) (below : FilePath → FilePath → CopyProc Unit) (src dst : FilePath)
    (name : FileName) : CopyProc Bool := do
  if ← rtMalloc env then
    if ← rtMalloc env then
      match ← dfsFileStat env (src ++ [name]) with
      | none => pure true
      | some isDir =>
        if isDir then
          mkdir env (dst ++ [name])
          below (src ++ [name]) (dst ++ [name])
        else copyfile env (src ++ [name]) (dst ++ [name])
        rtFree
        rtFree
        pure true
    else
      rtFree
      pure false
  else pure false

/-- One round of the loop of `copydir`. -/
def copydirRound (env : CopyEnv) (below : FilePath → FilePath → CopyProc Unit)
    (src dst : FilePath) : CopyProc (Unit ⊕ Unit) := do
  let fd ← Proc.read (·.fd)
  match ← dfsFileGetdents env fd with
  | none => pure (.inr ())
  | some name =>
    if name = ['.', '.'] ∨ name = ['.'] then pure (.inl ())
    else if ← copyEntry env below src dst name then pure (.inl ())
    else pure (.inr ())

/-- `copydir`, for calls nested to a depth. -/
def copydir (env : CopyEnv) : ℕ → FilePath → FilePath → CopyProc Unit
  | 0, _, _ => Proc.never
  | depth + 1, src, dst => do
    if ← openFd env src .list then
      Proc.loop (fun (_ : Unit) => copydirRound env (copydir env depth) src dst) ()
      closeFd

/-- `copy`. -/
def copy (env : CopyEnv) (depth : ℕ) (src dst : FilePath) : CopyProc Unit := do
  match ← dfsFileStat env src with
  | none => pure ()
  | some srcIsDir =>
    match srcIsDir, ← dfsFileStat env dst with
    | true, some false => pure ()
    | false, some true =>
      if ← rtMalloc env then
        copyfile env src (dst ++ src.getLast?.toList)
        rtFree
    | false, _ => copyfile env src dst
    | true, some true =>
      if ← rtMalloc env then
        mkdir env (dst ++ src.getLast?.toList)
        copydir env depth src (dst ++ src.getLast?.toList)
        rtFree
    | true, none =>
      mkdir env dst
      copydir env depth src dst

end DfsCopy
end RtThread
