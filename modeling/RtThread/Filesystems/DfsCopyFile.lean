import RtThread.Filesystems.DfsCopyEmpty

/-!
# When a file is copied

`copyfile` opens its destination without `DFS_O_TRUNC` and writes the blocks of the source
over what is there. A longer destination keeps its end.
-/
namespace RtThread
open Procedures

namespace FileNode

/-- A node is found where it replaced another. -/
theorem find_put_of_find {n m new : FileNode} {p : FilePath} (h : n.find p = some m) :
    (n.put p new).find p = some new := by
  induction p generalizing n with
  | nil => rfl
  | cons a p ih =>
    cases n with
    | file data => simp [find, entries] at h
    | dir fs =>
      cases hlookup : fs.lookup a with
      | none => simp [find, entries, hlookup] at h
      | some child =>
        rw [find, entries, hlookup] at h
        rw [put, hlookup, find, entries, lookup_replace, if_pos rfl, hlookup]
        exact ih h

end FileNode

namespace DfsCopy

variable {env : CopyEnv} {s s' : CopyState} {src dst : FilePath} {a b : List UInt8} {i j p : ℕ}

/-- The copy of a file is under way, with `p` bytes behind it: the source and the rest of the
destination are as they were. -/
structure Copying (src dst : FilePath) (a b : List UInt8) (i j p : ℕ) (s : CopyState) : Prop where
  source : s.root.find src = some (.file a)
  written : s.root.find dst = some (.file (a.take p ++ b.drop p))
  reading : s.opened[i]? = some ⟨src, p, 0⟩
  writing : s.opened[j]? = some ⟨dst, p, 0⟩
  fd : s.fd = ⟨false, some j, true⟩
  le : p ≤ a.length

/-- A write at the position puts the bytes there. -/
theorem opsWrite_returns {f : OpenFile} (data : List UInt8) (hf : s.opened[j]? = some f)
    (hdata : s.root.find f.path = some (.file data)) (bytes : List UInt8) :
    (opsWrite j bytes).Returns s bytes.length (moved { s with
      root := s.root.put f.path
        (.file (data.take f.pos ++ bytes ++ data.drop (f.pos + bytes.length))) } j bytes.length) := by
  have hfile : fileData s j = data := by simp [fileData, hf, hdata]
  simp [opsWrite, hf, hfile, moved]

theorem next_block (hp : p ≤ a.length) (b : List UInt8) (n : ℕ) :
    let block := (a.drop p).take n
    (a.take p ++ b.drop p).take p ++ block ++ (a.take p ++ b.drop p).drop (p + block.length) =
      a.take (p + block.length) ++ b.drop (p + block.length) := by
  intro block
  have hlen : (a.take p).length = p := List.length_take_of_le hp
  have hold : (a.take p ++ b.drop p).take p = a.take p := by simp [hlen]
  have hnil : (a.take p).drop (p + block.length) = [] :=
    List.drop_eq_nil_of_le (by omega)
  have hrest : (a.take p ++ b.drop p).drop (p + block.length) = b.drop (p + block.length) := by
    rw [List.drop_append, hnil, hlen, List.nil_append, List.drop_drop, Nat.add_sub_cancel_left]
  have hnew : a.take (p + block.length) = a.take p ++ block := by
    rw [List.take_add]
    congr 1
    simp [block]
  rw [hold, hrest, hnew]

/-- One round copies the next block. -/
theorem Copying.round (h : Copying src dst a b i j p s) (hij : i ≠ j) (hout : ¬dst <+: src)
    (hin : ¬src <+: dst) (hmore : p < a.length) : ∃ q s', p < q ∧
      (copyfileRound ⟨false, some i, true⟩).Returns s (.inl ()) s' ∧
      Copying src dst a b i j q s' := by
  let block := (a.drop p).take bufSz
  have hblock : block.length = min bufSz (a.length - p) := by simp [block]
  have hpos : 0 < block.length := by
    rw [hblock, bufSz]
    omega
  have hread : (dfsFileRead ⟨false, some i, true⟩ bufSz).Returns s block
      (moved s i block.length) := by
    have hdata : fileData s i = a := by simp [fileData, h.reading, h.source]
    simp [dfsFileRead, opsRead, hdata, h.reading, moved, block]
  have hf : (moved s i block.length).opened[j]? = some ⟨dst, p, 0⟩ := by
    simp [moved, hij, h.writing]
  have hwrite : (dfsFileWrite ⟨false, some j, true⟩ block).Returns (moved s i block.length)
      block.length _ :=
    opsWrite_returns (a.take p ++ b.drop p) hf h.written block
  have hfd : (Proc.read (·.fd) : CopyProc CopyFd).Returns (moved s i block.length)
      ⟨false, some j, true⟩ (moved s i block.length) :=
    Proc.returns_read.mpr ⟨h.fd.symm, rfl⟩
  refine ⟨p + block.length, moved { moved s i block.length with
    root := s.root.put dst (.file ((a.take p ++ b.drop p).take p ++ block ++
      (a.take p ++ b.drop p).drop (p + block.length))) } j block.length, by omega, ?_, ?_⟩
  · rw [copyfileRound, Proc.returns_bind_of hread, if_pos hpos, Proc.returns_bind_of hfd,
      Proc.returns_bind_of hwrite, if_neg (by simp)]
    exact Proc.returns_pure.mpr ⟨rfl, rfl⟩
  · refine ⟨?_, ?_, ?_, ?_, h.fd, by omega⟩
    · exact (FileNode.find_put_other hout hin).trans h.source
    · refine (FileNode.find_put_of_find h.written).trans ?_
      exact congrArg (fun data => some (FileNode.file data)) (next_block h.le b bufSz)
    · simp [moved, Ne.symm hij, h.reading]
    · simp [moved, hij, h.writing]

/-- The loop of `copyfile` copies everything. -/
theorem Copying.loop (h : Copying src dst a b i j p s) (hij : i ≠ j) (hout : ¬dst <+: src)
    (hin : ¬src <+: dst) : ∃ s',
      (Proc.loop (fun (_ : Unit) => copyfileRound ⟨false, some i, true⟩) ()).Returns s () s' ∧
      Copying src dst a b i j a.length s' := by
  induction hn : a.length - p using Nat.strongRecOn generalizing p s with
  | ind n ih =>
    rcases Nat.lt_or_eq_of_le h.le with hmore | rfl
    · obtain ⟨q, t, hq, hround, ht⟩ := h.round hij hout hin hmore
      obtain ⟨s', hloop, hs'⟩ := ih (a.length - q) (by omega) ht rfl
      exact ⟨s', Proc.returns_loop.mpr (.inr ⟨(), t, hround, hloop⟩), hs'⟩
    · have hdata : fileData s i = a := by simp [fileData, h.reading, h.source]
      have hread : (dfsFileRead ⟨false, some i, true⟩ bufSz).Returns s [] (moved s i 0) := by
        simp [dfsFileRead, opsRead, hdata, h.reading, moved]
      refine ⟨moved s i 0, Proc.returns_loop.mpr (.inl ?_), ?_⟩
      · rw [copyfileRound, Proc.returns_bind_of hread]
        exact Proc.returns_pure.mpr ⟨rfl, rfl⟩
      · refine ⟨h.source, h.written, ?_, ?_, h.fd, h.le⟩
        · simp [moved, h.reading]
        · simp [moved, hij, h.writing]

/-- The content of a file, or nothing when there is none. -/
def content (root : FileNode) (path : FilePath) : List UInt8 :=
  match root.find path with
  | some (.file data) => data
  | _ => []

/-- What an open for writing leaves at the path. -/
theorem find_openedRoot {root root' : FileNode}
    (hopen : openedRoot root dst .write = some root') :
    root'.find dst = some (.file (content root dst)) := by
  unfold openedRoot at hopen
  cases hfind : root.find dst with
  | none =>
    cases hparent : root.find dst.dropLast with
    | none => simp [hfind, hparent] at hopen
    | some parent =>
      cases parent with
      | file data => simp [hfind, hparent] at hopen
      | dir es =>
        simp only [hfind, hparent, Option.some.injEq] at hopen
        rw [← hopen, FileNode.find_put_self hfind hparent, content, hfind]
  | some node =>
    cases node with
    | file data =>
      simp only [hfind, Option.some.injEq] at hopen
      rw [← hopen, hfind, content, hfind]
    | dir es => simp [hfind] at hopen

/-- Nothing is below a file. -/
theorem find_file (data : List UInt8) {q : FilePath} (hq : q ≠ []) :
    (FileNode.file data).find q = none := by
  cases q with
  | nil => contradiction
  | cons x q => rfl

/-- Neither of two files is below the other. -/
theorem apart_of_open {root root' : FileNode} (hsrc : root.find src = some (.file a))
    (hopen : openedRoot root dst .write = some root') (hne : src ≠ dst) :
    ¬dst <+: src ∧ ¬src <+: dst := by
  constructor
  · rintro ⟨q, rfl⟩
    have hq : q ≠ [] := by
      rintro rfl
      simp at hne
    rw [FileNode.find_append] at hsrc
    unfold openedRoot at hopen
    cases hfind : root.find dst with
    | none => simp [hfind] at hsrc
    | some node =>
      cases node with
      | file data => simp [hfind, find_file data hq] at hsrc
      | dir es => simp [hfind] at hopen
  · rintro ⟨q, rfl⟩
    have hq : q ≠ [] := by
      rintro rfl
      simp at hne
    have hnone : root.find (src ++ q) = none := by
      rw [FileNode.find_append, hsrc, Option.bind_some, find_file a hq]
    have hparent : root.find (src ++ q).dropLast = (FileNode.file a).find q.dropLast := by
      rw [List.dropLast_append_of_ne_nil hq, FileNode.find_append, hsrc, Option.bind_some]
    unfold openedRoot at hopen
    by_cases hlast : q.dropLast = []
    · simp [hnone, hparent, hlast, FileNode.find] at hopen
    · simp [hnone, hparent, find_file a hlast] at hopen

/-- Opening for writing changes nothing else. -/
theorem find_openedRoot_other {root root' : FileNode} {q : FilePath}
    (hopen : openedRoot root dst .write = some root') (hout : ¬dst <+: q) (hin : ¬q <+: dst) :
    root'.find q = root.find q := by
  unfold openedRoot at hopen
  cases hfind : root.find dst with
  | none =>
    cases hparent : root.find dst.dropLast with
    | none => simp [hfind, hparent] at hopen
    | some parent =>
      cases parent with
      | file data => simp [hfind, hparent] at hopen
      | dir es =>
        simp only [hfind, hparent, Option.some.injEq] at hopen
        rw [← hopen, FileNode.find_put_other hout hin]
  | some node =>
    cases node with
    | file data =>
      simp only [hfind, Option.some.injEq] at hopen
      rw [← hopen]
    | dir es => simp [hfind] at hopen

theorem closeFd_returns {k : ℕ} (hdata : s.fd.data = some k) (hpath : s.fd.path = true) :
    closeFd.Returns s () { s with
      opened := s.opened.modify k fun f => { f with closes := f.closes + 1 }
      blocks := s.blocks - 1, fd := { s.fd with path := false } } := by
  have hread : (Proc.read (·.fd) : CopyProc CopyFd).Returns s s.fd s :=
    Proc.returns_read.mpr ⟨rfl, rfl⟩
  refine (Proc.returns_bind_of hread).mpr ?_
  refine (Proc.returns_bind_of (dfsFileClose_returns hdata hpath s)).mpr ?_
  exact Proc.returns_modify.mpr rfl

/-- The copy writes the source over what is at the destination. -/
theorem copyfile_writes (hmem : ∀ k, env.memory k = true) {root' : FileNode}
    (hsrc : s.root.find src = some (.file a)) (hopen : openedRoot s.root dst .write = some root')
    (hne : src ≠ dst) : ∃ s', (copyfile env src dst).Returns s () s' ∧
      s'.root.find src = some (.file a) ∧
      s'.root.find dst = some (.file (a ++ (content s.root dst).drop a.length)) := by
  obtain ⟨hout, hin⟩ := apart_of_open hsrc hopen hne
  have hread : openedRoot s.root src .read = some s.root := by simp [openedRoot, hsrc]
  let t : CopyState := { s with allocations := s.allocations + 1, blocks := s.blocks + 1 }
  let v : CopyState := { t with
    root := s.root, opened := s.opened ++ [⟨src, 0, 0⟩]
    allocations := t.allocations + 1, blocks := t.blocks + 1 }
  let w : CopyState :=
    { root := root', opened := v.opened ++ [⟨dst, 0, 0⟩]
      fd := ⟨false, some v.opened.length, true⟩
      allocations := v.allocations + 1, blocks := v.blocks + 1 }
  have hsrcOpen : (dfsFileOpen env ⟨false, none, false⟩ src .read).Returns t
      (true, ⟨false, some s.opened.length, true⟩) v :=
    dfsFileOpen_returns (s := t) hmem ⟨false, none, false⟩ hread
  have hdstOpen : (openFd env dst .write).Returns v true w := openFd_returns (s := v) hmem hopen
  have hstart : Copying src dst a (content s.root dst) s.opened.length v.opened.length 0 w := by
    refine ⟨(find_openedRoot_other hopen hout hin).trans hsrc, ?_, ?_, ?_, rfl, Nat.zero_le _⟩
    · simpa using find_openedRoot hopen
    · simp [w, v]
    · simp [w]
  have hij : s.opened.length ≠ v.opened.length := by simp [v]
  obtain ⟨x, hloop, hx⟩ := hstart.loop hij hout hin
  let y : CopyState := { x with
    opened := x.opened.modify s.opened.length fun f => { f with closes := f.closes + 1 }
    blocks := x.blocks - 1 }
  let z : CopyState := { y with
    opened := y.opened.modify v.opened.length fun f => { f with closes := f.closes + 1 }
    blocks := y.blocks - 1, fd := { x.fd with path := false } }
  have hclose : (dfsFileClose ⟨false, some s.opened.length, true⟩).Returns x
      ⟨false, some s.opened.length, false⟩ y := dfsFileClose_returns rfl rfl x
  have hcloseFd : closeFd.Returns y () z :=
    closeFd_returns (by rw [show y.fd = x.fd from rfl, hx.fd])
      (by rw [show y.fd = x.fd from rfl, hx.fd])
  refine ⟨{ z with blocks := z.blocks - 1 }, ?_, hx.source, ?_⟩
  · refine (Proc.returns_bind_of (rtMalloc_returns hmem s)).mpr ?_
    rw [if_pos rfl]
    refine (Proc.returns_bind_of hsrcOpen).mpr ?_
    dsimp only
    rw [if_neg (by decide)]
    refine (Proc.returns_bind_of hdstOpen).mpr ?_
    rw [if_pos rfl]
    refine (Proc.returns_bind_of hloop).mpr ((Proc.returns_bind_of hclose).mpr ?_)
    exact (Proc.returns_bind_of hcloseFd).mpr (Proc.returns_modify.mpr rfl)
  · exact hx.written.trans (by rw [List.take_length])

end DfsCopy

/-- A file is copied exactly unless there is a longer one at the destination. -/
theorem copyfile_exact_iff (env : CopyEnv) (s : CopyState) (hmem : ∀ k, env.memory k = true)
    (src dst : FilePath) (a : List UInt8) (hsrc : s.root.find src = some (.file a))
    (hopen : (DfsCopy.openedRoot s.root dst .write).isSome = true) (hne : src ≠ dst) :
    (∃ s', (DfsCopy.copyfile env src dst).Returns s () s' ∧ s'.root.find dst = some (.file a) ∧
      s'.root.find src = some (.file a)) ↔
      ∀ b, s.root.find dst = some (.file b) → b.length ≤ a.length := by
  obtain ⟨root', hroot⟩ := Option.isSome_iff_exists.mp hopen
  obtain ⟨s', hr, hsource, hwritten⟩ := DfsCopy.copyfile_writes hmem hsrc hroot hne
  constructor
  · rintro ⟨t, ht, hcopied, -⟩ b hb
    obtain ⟨-, rfl⟩ := hr.unique ht
    rw [hwritten, DfsCopy.content, hb] at hcopied
    have hlen := congrArg List.length (FileNode.file.inj (Option.some.inj hcopied))
    simp only [List.length_append, List.length_drop] at hlen
    omega
  · intro hshort
    refine ⟨s', hr, ?_, hsource⟩
    have hdrop : (DfsCopy.content s.root dst).drop a.length = [] := by
      refine List.drop_eq_nil_of_le ?_
      unfold DfsCopy.content
      split
      · next b hb => exact hshort b hb
      · exact Nat.zero_le _
    rw [hwritten, hdrop, List.append_nil]

/-- A directory with a file and another one at the top. -/
def twoFiles (a b : List UInt8) : CopyState :=
  ⟨.dir [(['a'], .file a), (['b'], .file b)], [], ⟨false, none, false⟩, 0, 0⟩

theorem copyfile_exact_shorter : ∃ s', (DfsCopy.copyfile
    ⟨fun _ => true, true, false, fun _ _ => none⟩ [['a']] [['b']]).Returns (twoFiles [1, 2] [3]) ()
      s' ∧ s'.root.find [['b']] = some (.file [1, 2]) ∧
      s'.root.find [['a']] = some (.file [1, 2]) :=
  (copyfile_exact_iff ⟨fun _ => true, true, false, fun _ _ => none⟩ (twoFiles [1, 2] [3])
    (fun _ => rfl) [['a']] [['b']] [1, 2] rfl rfl (by decide)).mpr fun b hb => by
      obtain rfl : [3] = b := FileNode.file.inj (Option.some.inj hb)
      decide

/-- One byte over three: the last two stay. -/
theorem longer_destination_kept : ∃ s', (DfsCopy.copyfile
    ⟨fun _ => true, true, false, fun _ _ => none⟩ [['a']] [['b']]).Returns (twoFiles [1] [7, 8, 9])
      () s' ∧ s'.root.find [['b']] = some (.file [1, 8, 9]) := by
  have hopen : DfsCopy.openedRoot (twoFiles [1] [7, 8, 9]).root [['b']] .write =
    some (twoFiles [1] [7, 8, 9]).root := rfl
  have hsrc : (twoFiles [1] [7, 8, 9]).root.find [['a']] = some (.file [1]) := rfl
  let env : CopyEnv := ⟨fun _ => true, true, false, fun _ _ => none⟩
  have hmem : ∀ k, env.memory k = true := fun _ => rfl
  obtain ⟨s', hr, -, hwritten⟩ := DfsCopy.copyfile_writes hmem hsrc hopen (by decide)
  exact ⟨s', hr, hwritten⟩

end RtThread
