import RtThread.Filesystems.DfsCopyTree

/-!
# When a directory is copied

`copydir` lists its directory through the static descriptor, and its first entry takes that
descriptor for itself: nothing refers to the listed directory any more, and nobody closes
it. A directory without entries is copied.
-/
namespace RtThread
open Procedures
namespace DfsCopy

variable {env : CopyEnv} {s s' : CopyState} {h : ℕ}

/-! ## With memory -/

theorem rtMalloc_returns (hmem : ∀ k, env.memory k = true) (s : CopyState) :
    (rtMalloc env).Returns s true
      { s with allocations := s.allocations + 1, blocks := s.blocks + 1 } := by
  simp [rtMalloc, hmem]

theorem dfsFileStat_returns (hmem : ∀ k, env.memory k = true) (s : CopyState) (path : FilePath) :
    (dfsFileStat env path).Returns s ((s.root.find path).map FileNode.isDir)
      { s with allocations := s.allocations + 1 } := by
  refine (Proc.returns_bind_of (rtMalloc_returns hmem s)).mpr ?_
  simp [rtFree]

theorem opsOpen_returns (s : CopyState) (path : FilePath) (mode : OpenMode) {root : FileNode}
    (hroot : openedRoot s.root path mode = some root) :
    (opsOpen path mode).Returns s (some s.opened.length)
      { s with root := root, opened := s.opened ++ [⟨path, 0, 0⟩] } := by
  simp [opsOpen, hroot]

theorem dfsFileOpen_returns (hmem : ∀ k, env.memory k = true) (fd : CopyFd) {path : FilePath}
    {mode : OpenMode} {root : FileNode} (hroot : openedRoot s.root path mode = some root) :
    (dfsFileOpen env fd path mode).Returns s (true, ⟨mode.directory, some s.opened.length, true⟩)
      { s with
        root := root, opened := s.opened ++ [⟨path, 0, 0⟩]
        allocations := s.allocations + 1, blocks := s.blocks + 1 } := by
  refine (Proc.returns_bind_of (rtMalloc_returns hmem s)).mpr ?_
  rw [if_pos rfl]
  let t : CopyState := { s with allocations := s.allocations + 1, blocks := s.blocks + 1 }
  have hopen := opsOpen_returns t path mode hroot
  refine (Proc.returns_bind_of hopen).mpr ?_
  exact Proc.returns_pure.mpr ⟨rfl, rfl⟩

theorem openFd_returns (hmem : ∀ k, env.memory k = true) {path : FilePath}
    {mode : OpenMode} {root : FileNode} (hroot : openedRoot s.root path mode = some root) :
    (openFd env path mode).Returns s true
      { root := root, opened := s.opened ++ [⟨path, 0, 0⟩]
        fd := ⟨mode.directory, some s.opened.length, true⟩
        allocations := s.allocations + 1, blocks := s.blocks + 1 } := by
  have hread : (Proc.read (·.fd) : CopyProc CopyFd).Returns s s.fd s :=
    Proc.returns_read.mpr ⟨rfl, rfl⟩
  refine (Proc.returns_bind_of hread).mpr ?_
  refine (Proc.returns_bind_of (dfsFileOpen_returns hmem s.fd hroot)).mpr ?_
  simp

theorem dfsFileClose_returns {fd : CopyFd} {k : ℕ} (hdata : fd.data = some k)
    (hpath : fd.path = true) (s : CopyState) :
    (dfsFileClose fd).Returns s { fd with path := false }
      { s with
        opened := s.opened.modify k fun f => { f with closes := f.closes + 1 }
        blocks := s.blocks - 1 } := by
  obtain ⟨directory, data, path⟩ := fd
  obtain rfl : data = some k := hdata
  obtain rfl : path = true := hpath
  simp [dfsFileClose, opsClose, rtFree]

theorem modify_last {α : Type} (l : List α) (a : α) (g : α → α) :
    (l ++ [a]).modify l.length g = l ++ [g a] := by
  induction l with
  | nil => rfl
  | cons b l ih => exact congrArg (b :: ·) ih

theorem mkdir_returns (hmem : ∀ k, env.memory k = true) (hfd : env.descriptor = true)
    {path : FilePath} {root : FileNode} (hroot : openedRoot s.root path .create = some root) :
    (mkdir env path).Returns s ()
      { s with
        root := root, opened := s.opened ++ [⟨path, 0, 1⟩]
        allocations := s.allocations + 1 } := by
  unfold mkdir
  rw [if_pos hfd]
  refine (Proc.returns_bind_of (dfsFileOpen_returns hmem _ hroot)).mpr ?_
  refine (Proc.returns_bind_of (dfsFileClose_returns rfl rfl _)).mpr ?_
  simp [modify_last]
/-! ## What the first entry takes -/

/-- The static descriptor refers to the object opened last. -/
theorem lost_of_open {f : OpenFile} (hf : s.opened[h]? = some f) (hc : f.closes = 0)
    (root : FileNode) (path : FilePath) (directory : Bool) (m n : ℕ) :
    Lost h ⟨root, s.opened ++ [⟨path, 0, 0⟩], ⟨directory, some s.opened.length, true⟩, m, n⟩ := by
  have hlt : h < s.opened.length := (List.getElem?_eq_some_iff.mp hf).1
  refine ⟨⟨f, ?_, hc⟩, ?_⟩
  · rw [List.getElem?_append_left hlt, hf]
  · exact fun he => absurd (Option.some.inj he) (Nat.ne_of_gt hlt)

theorem copydir_takes (hmem : ∀ k, env.memory k = true) {f : OpenFile}
    (hf : s.opened[h]? = some f) (hc : f.closes = 0) {src dst : FilePath}
    {es : List (FileName × FileNode)} (hsrc : s.root.find src = some (.dir es)) {depth : ℕ}
    {u : Unit} (hr : (copydir env depth src dst).Returns s u s') : Lost h s' := by
  cases depth with
  | zero => exact absurd hr Proc.returns_never
  | succ depth =>
    have hroot : openedRoot s.root src .list = some s.root := by simp [openedRoot, hsrc]
    have hrest := (Proc.returns_bind_of (openFd_returns hmem hroot)).mp hr
    rw [if_pos rfl] at hrest
    have hclose : Proc.Triple (Lost h) (do
        Proc.loop (fun (_ : Unit) => copydirRound env (copydir env depth) src dst) ()
        closeFd : CopyProc Unit) fun _ => Lost h :=
      (lost_loop (lost_copydirRound (lost_copydir depth) src dst)).bind fun _ => lost_closeFd
    exact hclose _ _ _ (lost_of_open hf hc _ _ _ _ _) hrest

theorem copyfile_takes (hmem : ∀ k, env.memory k = true) {f : OpenFile}
    (hf : s.opened[h]? = some f) (hc : f.closes = 0) {src dst : FilePath} {data : List UInt8}
    {es : List (FileName × FileNode)} (hsrc : s.root.find src = some (.file data))
    (hdst : s.root.find dst = none) (hparent : s.root.find dst.dropLast = some (.dir es))
    {u : Unit} (hr : (copyfile env src dst).Returns s u s') : Lost h s' := by
  have hread : openedRoot s.root src .read = some s.root := by simp [openedRoot, hsrc]
  have hwrite : openedRoot s.root dst .write = some (s.root.put dst (.file [])) := by
    simp [openedRoot, hdst, hparent]
  have hlt : h < s.opened.length := (List.getElem?_eq_some_iff.mp hf).1
  have hr := (Proc.returns_bind_of (rtMalloc_returns hmem s)).mp hr
  rw [if_pos rfl] at hr
  let t : CopyState := { s with allocations := s.allocations + 1, blocks := s.blocks + 1 }
  have hr := (Proc.returns_bind_of
    (dfsFileOpen_returns (s := t) hmem ⟨false, none, false⟩ hread)).mp hr
  dsimp only at hr
  rw [if_neg (by decide)] at hr
  let v : CopyState := { t with
    root := s.root, opened := s.opened ++ [⟨src, 0, 0⟩]
    allocations := t.allocations + 1, blocks := t.blocks + 1 }
  have hr := (Proc.returns_bind_of (openFd_returns (s := v) hmem hwrite)).mp hr
  rw [if_pos rfl] at hr
  have hfv : v.opened[h]? = some f := by
    rw [show v.opened = s.opened ++ [⟨src, 0, 0⟩] from rfl, List.getElem?_append_left hlt, hf]
  refine lost_copyRest _ ?_ _ _ _ (lost_of_open hfv hc _ _ _ _ _) hr
  exact fun he => absurd (Option.some.inj he) (Nat.ne_of_gt hlt)

theorem lost_entryEnd : Proc.Triple (Lost h) (do
    rtFree
    rtFree
    pure true : CopyProc Bool) fun _ => Lost h :=
  lost_rtFree.bind fun _ => lost_rtFree.bind fun _ => Proc.triple_pure fun _ hs => hs

/-- Whether it is a directory or a file, the first entry takes the static descriptor. -/
theorem copyEntry_takes (hmem : ∀ k, env.memory k = true) (hfd : env.descriptor = true)
    {f : OpenFile} (hf : s.opened[h]? = some f) (hc : f.closes = 0) {src dst : FilePath}
    {name : FileName} {node : FileNode} (hsrc : s.root.find (src ++ [name]) = some node)
    (hdst : s.root.find dst = some (.dir [])) (hinside : ¬src <+: dst) {depth : ℕ} {ok : Bool}
    (hr : (copyEntry env (copydir env depth) src dst name).Returns s ok s') : Lost h s' := by
  have hnone : s.root.find (dst ++ [name]) = none := by
    simp [FileNode.find_append, hdst, FileNode.find, FileNode.entries]
  have hparent : s.root.find (dst ++ [name]).dropLast = some (.dir []) := by simpa using hdst
  let t : CopyState := { s with allocations := s.allocations + 1, blocks := s.blocks + 1 }
  let v : CopyState := { t with allocations := t.allocations + 1, blocks := t.blocks + 1 }
  let w : CopyState := { v with allocations := v.allocations + 1 }
  have hr := (Proc.returns_bind_of (rtMalloc_returns hmem s)).mp hr
  rw [if_pos rfl] at hr
  have hr := (Proc.returns_bind_of (rtMalloc_returns hmem t)).mp hr
  rw [if_pos rfl] at hr
  have hr := (Proc.returns_bind_of (dfsFileStat_returns hmem v (src ++ [name]))).mp hr
  rw [show v.root.find (src ++ [name]) = some node from hsrc] at hr
  cases node with
  | file data =>
    obtain ⟨u, x, hcopy, hend⟩ := Proc.returns_bind.mp hr
    have hlost : Lost h x :=
      copyfile_takes (s := w) hmem hf hc hsrc hnone hparent hcopy
    exact lost_entryEnd x ok s' hlost hend
  | dir fs =>
    have hroot : openedRoot w.root (dst ++ [name]) .create =
        some (s.root.put (dst ++ [name]) (.dir [])) := by
      simp [openedRoot, show w.root = s.root from rfl, hnone, hdst]
    have hr := (Proc.returns_bind_of (mkdir_returns (s := w) hmem hfd hroot)).mp hr
    obtain ⟨u, x, hcopy, hend⟩ := Proc.returns_bind.mp hr
    have hlt : h < s.opened.length := (List.getElem?_eq_some_iff.mp hf).1
    have hout : ¬dst ++ [name] <+: src ++ [name] := by
      intro hp
      obtain ⟨q, hq⟩ := hp
      rw [← hq, FileNode.find_append, hnone] at hsrc
      contradiction
    have hin : ¬src ++ [name] <+: dst ++ [name] := by
      intro hp
      refine hinside ?_
      have hlen := hp.length_le
      have hsrcp : src <+: dst ++ [name] := (List.prefix_append src [name]).trans hp
      refine List.prefix_of_prefix_length_le hsrcp (List.prefix_append dst [name]) ?_
      simpa using hlen
    have hsrc' : (s.root.put (dst ++ [name]) (.dir [])).find (src ++ [name]) = some (.dir fs) := by
      rw [FileNode.find_put_other hout hin, hsrc]
    have hopen : (w.opened ++ [⟨dst ++ [name], 0, 1⟩])[h]? = some f :=
      (List.getElem?_append_left hlt).trans hf
    have hlost : Lost h x := copydir_takes hmem hopen hc hsrc' hcopy
    exact lost_entryEnd x ok s' hlost hend

/-! ## Listing the source -/

/-- The state with an object further on. -/
def moved (s : CopyState) (h n : ℕ) : CopyState :=
  { s with opened := s.opened.modify h fun f => { f with pos := f.pos + n } }

theorem moved_moved (s : CopyState) (h m n : ℕ) :
    moved (moved s h m) h n = moved s h (m + n) := by
  simp [moved, List.modify_modify_eq, Function.comp_def, Nat.add_assoc]

/-- The names that a driver lists first. -/
def dots (env : CopyEnv) : List FileName := if env.listsDots then [['.'], ['.', '.']] else []

variable (env) in
theorem dots_dot {k : ℕ} {name : FileName} (h : (dots env)[k]? = some name) :
    name = ['.', '.'] ∨ name = ['.'] := by
  have hmem := List.mem_of_getElem? h
  unfold dots at hmem
  split at hmem
  · rcases List.mem_cons.mp hmem with rfl | hmem
    · exact .inr rfl
    · exact .inl (List.mem_singleton.mp hmem)
  · contradiction

/-- The loop of `copydir` lists the source, with `k` names behind it. -/
structure Listing (src : FilePath) (es : List (FileName × FileNode)) (h k : ℕ) (s : CopyState) :
    Prop where
  fd : s.fd = ⟨true, some h, true⟩
  opened : s.opened[h]? = some ⟨src, k, 0⟩
  source : s.root.find src = some (.dir es)

variable {src dst : FilePath} {es : List (FileName × FileNode)} {k : ℕ}

theorem Listing.moved (hl : Listing src es h k s) : Listing src es h (k + 1) (moved s h 1) :=
  ⟨hl.fd, by simp [DfsCopy.moved, hl.opened], hl.source⟩

variable (env) in
theorem Listing.getdents (hl : Listing src es h k s) :
    (dfsFileGetdents env s.fd).Returns s (dots env ++ es.map Prod.fst)[k]?
      (DfsCopy.moved s h 1) := by
  rw [hl.fd]
  simp [dfsFileGetdents, opsGetdents, hl.opened, listing, hl.source, FileNode.entries, dots,
    DfsCopy.moved]

/-- A round works on the next name. -/
theorem Listing.round (hl : Listing src es h k s) {name : FileName}
    (hname : (dots env ++ es.map Prod.fst)[k]? = some name)
    {below : FilePath → FilePath → CopyProc Unit} {r : Unit ⊕ Unit} :
    (copydirRound env below src dst).Returns s r s' ↔
      Proc.Returns (if name = ['.', '.'] ∨ name = ['.'] then pure (.inl ())
        else do
          if ← copyEntry env below src dst name then pure (.inl ())
          else pure (.inr ())) (DfsCopy.moved s h 1) r s' := by
  have hread : (Proc.read (·.fd) : CopyProc CopyFd).Returns s s.fd s :=
    Proc.returns_read.mpr ⟨rfl, rfl⟩
  have hget := hl.getdents env
  rw [hname] at hget
  exact (Proc.returns_bind_of hread).trans (Proc.returns_bind_of hget)

variable (env dst) in
theorem Listing.round_dot (hl : Listing src es h k s) (hk : k < (dots env).length)
    (below : FilePath → FilePath → CopyProc Unit) {r : Unit ⊕ Unit} :
    (copydirRound env below src dst).Returns s r s' ↔ r = .inl () ∧ s' = DfsCopy.moved s h 1 := by
  have hname : (dots env ++ es.map Prod.fst)[k]? = some (dots env)[k] := by
    rw [List.getElem?_append_left hk, List.getElem?_eq_getElem hk]
  rw [hl.round hname, if_pos (dots_dot env (List.getElem?_eq_getElem hk)),
    Proc.returns_pure]

/-- Without entries the loop ends after the dots. -/
theorem Listing.round_end (hl : Listing src [] h (dots env).length s)
    {below : FilePath → FilePath → CopyProc Unit} :
    (copydirRound env below src dst).Returns s (.inr ()) (DfsCopy.moved s h 1) := by
  have hread : (Proc.read (·.fd) : CopyProc CopyFd).Returns s s.fd s :=
    Proc.returns_read.mpr ⟨rfl, rfl⟩
  have hget := hl.getdents env
  rw [show (dots env ++ [].map Prod.fst)[(dots env).length]? = none by simp] at hget
  refine (Proc.returns_bind_of hread).mpr ((Proc.returns_bind_of hget).mpr ?_)
  exact Proc.returns_pure.mpr ⟨rfl, rfl⟩

variable (env dst) in
theorem Listing.loop_end (below : FilePath → FilePath → CopyProc Unit) (n : ℕ)
    (hl : Listing src [] h k s) (hn : k + n = (dots env).length) :
    (Proc.loop (fun (_ : Unit) => copydirRound env below src dst) ()).Returns s ()
      (DfsCopy.moved s h (n + 1)) := by
  induction n generalizing k s with
  | zero =>
    obtain rfl : k = (dots env).length := by omega
    exact Proc.returns_loop.mpr (.inl hl.round_end)
  | succ n ih =>
    have hround := (hl.round_dot env dst (by omega) below).mpr
      ⟨rfl, rfl⟩
    have hloop := ih hl.moved (by omega)
    rw [moved_moved, Nat.add_comm 1] at hloop
    exact Proc.returns_loop.mpr (.inr ⟨(), _, hround, hloop⟩)

theorem Listing.round_lost (hmem : ∀ k, env.memory k = true) (hfd : env.descriptor = true)
    {name : FileName} {node : FileNode} {rest : List (FileName × FileNode)}
    (hname : ¬(name = ['.', '.'] ∨ name = ['.'])) (hinside : ¬src <+: dst)
    (hl : Listing src ((name, node) :: rest) h (dots env).length s)
    (hdst : s.root.find dst = some (.dir [])) {depth : ℕ} {r : Unit ⊕ Unit}
    (hr : (copydirRound env (copydir env depth) src dst).Returns s r s') : Lost h s' := by
  have hget : (dots env ++ ((name, node) :: rest).map Prod.fst)[(dots env).length]? =
      some name := by simp
  have hr := (hl.round hget).mp hr
  rw [if_neg hname] at hr
  obtain ⟨ok, t, hentry, hend⟩ := Proc.returns_bind.mp hr
  have hsrc : s.root.find (src ++ [name]) = some node := by
    simp [FileNode.find_append, hl.source, FileNode.find, FileNode.entries]
  have hlost : Lost h t := copyEntry_takes (s := DfsCopy.moved s h 1) hmem hfd
    hl.moved.opened rfl hsrc hdst hinside hentry
  split at hend
  · exact (Proc.returns_pure.mp hend).2 ▸ hlost
  · exact (Proc.returns_pure.mp hend).2 ▸ hlost

/-- The loop of `copydir` loses its directory at the first entry. -/
theorem Listing.loop_lost (hmem : ∀ k, env.memory k = true) (hfd : env.descriptor = true)
    {name : FileName} {node : FileNode} {rest : List (FileName × FileNode)}
    (hname : ¬(name = ['.', '.'] ∨ name = ['.'])) (hinside : ¬src <+: dst)
    (hl : Listing src ((name, node) :: rest) h 0 s) (hdst : s.root.find dst = some (.dir []))
    {depth : ℕ} {u : Unit}
    (hr : (Proc.loop (fun (_ : Unit) => copydirRound env (copydir env depth) src dst) ()).Returns
      s u s') : Lost h s' := by
  have hinv : Proc.Triple
      (fun s => Lost h s ∨ s.root.find dst = some (.dir []) ∧
        ∃ k ≤ (dots env).length, Listing src ((name, node) :: rest) h k s)
      (Proc.loop (fun (_ : Unit) => copydirRound env (copydir env depth) src dst) ())
      fun _ => Lost h := by
    refine Proc.triple_loop (I := fun _ s => Lost h s ∨ s.root.find dst = some (.dir []) ∧
        ∃ k ≤ (dots env).length, Listing src ((name, node) :: rest) h k s) (fun _ => ?_) ()
    intro s r s' hs hr
    rcases hs with hs | ⟨hdst, k, hk, hl⟩
    · have hs' := lost_copydirRound (lost_copydir depth) src dst s r s' hs hr
      cases r with
      | inl _ => exact .inl hs'
      | inr _ => exact hs'
    · rcases Nat.lt_or_ge k (dots env).length with hlt | hge
      · obtain ⟨rfl, rfl⟩ := (hl.round_dot env dst hlt _).mp hr
        exact .inr ⟨hdst, k + 1, hlt, hl.moved⟩
      · obtain rfl : k = (dots env).length := by omega
        have hs' : Lost h s' := hl.round_lost hmem hfd hname hinside hdst hr
        cases r with
        | inl _ => exact .inl hs'
        | inr _ => exact hs'
  exact hinv s u s' (.inr ⟨hdst, 0, Nat.zero_le _, hl⟩) hr

/-! ## The whole copy -/

/-- What `copy` of a directory is for. -/
structure Copied (src dst : FilePath) (s s' : CopyState) : Prop where
  copied : s'.root.find dst = s.root.find src
  source : s'.root.find src = s.root.find src
  /-- What was opened was closed once. -/
  closed : ∀ f ∈ s'.opened.drop s.opened.length, f.closes = 1
  freed : s'.blocks = s.blocks

theorem Lost.not_copied {s₀ : CopyState} (hl : Lost h s) (hnew : s₀.opened.length ≤ h) :
    ¬Copied src dst s₀ s := by
  intro hc
  obtain ⟨f, hf, hcloses⟩ := hl.opened
  have hmem : f ∈ s.opened.drop s₀.opened.length := by
    refine List.mem_of_getElem? (i := h - s₀.opened.length) ?_
    rw [List.getElem?_drop, Nat.add_sub_cancel' hnew, hf]
  have := hc.closed f hmem
  omega

/-- With memory and a source that is a directory, `copy` to a new path makes the directory and
copies the entries. -/
theorem copy_new_dir (hmem : ∀ k, env.memory k = true) (hfd : env.descriptor = true)
    {fs : List (FileName × FileNode)} (hsrc : s.root.find src = some (.dir es))
    (hdst : s.root.find dst = none) (hparent : s.root.find dst.dropLast = some (.dir fs))
    {depth : ℕ} {u : Unit} :
    (copy env depth src dst).Returns s u s' ↔ (copydir env depth src dst).Returns
      { s with
        root := s.root.put dst (.dir []), opened := s.opened ++ [⟨dst, 0, 1⟩]
        allocations := s.allocations + 3 } u s' := by
  let t : CopyState := { s with allocations := s.allocations + 1 }
  let v : CopyState := { t with allocations := t.allocations + 1 }
  have hroot : openedRoot v.root dst .create = some (s.root.put dst (.dir [])) := by
    simp [openedRoot, show v.root = s.root from rfl, hdst, hparent]
  have hstat := dfsFileStat_returns hmem s src
  rw [hsrc] at hstat
  have hstat' := dfsFileStat_returns hmem t dst
  rw [show t.root.find dst = none from hdst] at hstat'
  unfold copy
  rw [Proc.returns_bind_of hstat]
  dsimp only [Option.map_some, Option.map_none, FileNode.isDir]
  rw [Proc.returns_bind_of hstat']
  dsimp only [Option.map_none]
  exact Proc.returns_bind_of (mkdir_returns (s := v) hmem hfd hroot)

/-- The state in which `copydir` starts its loop. -/
def listed (s : CopyState) (src : FilePath) : CopyState :=
  { root := s.root, opened := s.opened ++ [⟨src, 0, 0⟩], fd := ⟨true, some s.opened.length, true⟩
    allocations := s.allocations + 1, blocks := s.blocks + 1 }

theorem listing_listed (hsrc : s.root.find src = some (.dir es)) :
    Listing src es s.opened.length 0 (listed s src) :=
  ⟨rfl, by simp [listed], hsrc⟩

theorem copydir_listed (hmem : ∀ k, env.memory k = true) (hsrc : s.root.find src = some (.dir es))
    {depth : ℕ} {u : Unit} :
    (copydir env (depth + 1) src dst).Returns s u s' ↔ Proc.Returns (do
      Proc.loop (fun (_ : Unit) => copydirRound env (copydir env depth) src dst) ()
      closeFd) (listed s src) u s' := by
  have hroot : openedRoot s.root src .list = some s.root := by simp [openedRoot, hsrc]
  exact Proc.returns_bind_of (openFd_returns hmem hroot)

/-- An empty directory is listed to its end, and closed. -/
theorem copydir_empty (hmem : ∀ k, env.memory k = true) (hsrc : s.root.find src = some (.dir [])) :
    (copydir env 1 src dst).Returns s ()
      { s with
        opened := s.opened ++ [⟨src, (dots env).length + 1, 1⟩]
        fd := ⟨true, some s.opened.length, false⟩, allocations := s.allocations + 1 } := by
  have hloop := (listing_listed hsrc).loop_end env dst (copydir env 0) (dots env).length
    (Nat.zero_add _)
  refine (copydir_listed hmem hsrc).mpr ((Proc.returns_bind_of hloop).mpr ?_)
  have hread : (Proc.read (·.fd) : CopyProc CopyFd).Returns (moved (listed s src) s.opened.length
      ((dots env).length + 1)) ⟨true, some s.opened.length, true⟩ _ :=
    Proc.returns_read.mpr ⟨rfl, rfl⟩
  refine (Proc.returns_bind_of hread).mpr ?_
  refine (Proc.returns_bind_of (dfsFileClose_returns rfl rfl _)).mpr ?_
  simp [moved, listed, modify_last]

/-- A directory with an entry is lost by its loop. -/
theorem copydir_lost (hmem : ∀ k, env.memory k = true) (hfd : env.descriptor = true)
    {name : FileName} {node : FileNode} {rest : List (FileName × FileNode)}
    (hname : ¬(name = ['.', '.'] ∨ name = ['.'])) (hinside : ¬src <+: dst)
    (hsrc : s.root.find src = some (.dir ((name, node) :: rest)))
    (hdst : s.root.find dst = some (.dir [])) {depth : ℕ} {u : Unit}
    (hr : (copydir env depth src dst).Returns s u s') : Lost s.opened.length s' := by
  cases depth with
  | zero => exact absurd hr Proc.returns_never
  | succ depth =>
    obtain ⟨v, t, hloop, hclose⟩ := Proc.returns_bind.mp ((copydir_listed hmem hsrc).mp hr)
    have hlost := (listing_listed hsrc).loop_lost hmem hfd hname hinside hdst hloop
    exact lost_closeFd t u s' hlost hclose

end DfsCopy

/-- With memory, a directory is copied to a new path exactly when it has no entries. -/
theorem copy_tree_iff (env : CopyEnv) (s : CopyState) (hmem : ∀ k, env.memory k = true)
    (hfd : env.descriptor = true) (src dst : FilePath) (es fs : List (FileName × FileNode))
    (hsrc : s.root.find src = some (.dir es)) (hdst : s.root.find dst = none)
    (hparent : s.root.find dst.dropLast = some (.dir fs)) (hinside : ¬src <+: dst)
    (hnames : ∀ e ∈ es, ¬(e.1 = ['.', '.'] ∨ e.1 = ['.'])) :
    (∃ depth s', (DfsCopy.copy env depth src dst).Returns s () s' ∧
      DfsCopy.Copied src dst s s') ↔ es = [] := by
  have hout : ¬dst <+: src := by
    rintro ⟨q, rfl⟩
    rw [FileNode.find_append, hdst] at hsrc
    contradiction
  have hsrc' : (s.root.put dst (.dir [])).find src = some (.dir es) := by
    rw [FileNode.find_put_other hout hinside, hsrc]
  have hdst' : (s.root.put dst (.dir [])).find dst = some (.dir []) :=
    FileNode.find_put_self hdst hparent
  constructor
  · rintro ⟨depth, s', hr, hcopied⟩
    cases es with
    | nil => rfl
    | cons e rest =>
      have hr := (DfsCopy.copy_new_dir hmem hfd hsrc hdst hparent).mp hr
      have hlost := DfsCopy.copydir_lost hmem hfd (hnames e List.mem_cons_self) hinside hsrc'
        hdst' hr
      exact absurd hcopied (hlost.not_copied (by simp))
  · rintro rfl
    refine ⟨1, _, (DfsCopy.copy_new_dir hmem hfd hsrc hdst hparent).mpr
      (DfsCopy.copydir_empty hmem hsrc'), ?_⟩
    refine ⟨hdst'.trans hsrc.symm, hsrc'.trans hsrc.symm, ?_, rfl⟩
    simp

theorem copy_tree_empty : ∃ depth s', (DfsCopy.copy ⟨fun _ => true, true, true, fun _ _ => none⟩
    depth [['a']] [['b']]).Returns ⟨.dir [(['a'], .dir [])], [], ⟨false, none, false⟩, 0, 0⟩ () s' ∧
      DfsCopy.Copied [['a']] [['b']]
        ⟨.dir [(['a'], .dir [])], [], ⟨false, none, false⟩, 0, 0⟩ s' :=
  (copy_tree_iff ⟨fun _ => true, true, true, fun _ _ => none⟩
    ⟨.dir [(['a'], .dir [])], [], ⟨false, none, false⟩, 0, 0⟩ (fun _ => rfl) rfl [['a']] [['b']]
    [] [(['a'], .dir [])] rfl rfl rfl (by decide) (by simp)).mpr rfl

/-- The directory `a` with the file `f` is copied to `b`: `a` is never closed, and the copy of
the file is closed twice. -/
theorem file_loses_directory : ∃ s', (DfsCopy.copy ⟨fun _ => true, true, false, fun _ _ => none⟩
    1 [['a']] [['b']]).Returns
      ⟨.dir [(['a'], .dir [(['f'], .file [1])])], [], ⟨false, none, false⟩, 0, 0⟩ () s' ∧
    s'.opened.map (fun f => (f.path, f.closes)) = [([['b']], 1), ([['a']], 0),
      ([['a'], ['f']], 1), ([['b'], ['f']], 2)] ∧
    ¬DfsCopy.Copied [['a']] [['b']]
      ⟨.dir [(['a'], .dir [(['f'], .file [1])])], [], ⟨false, none, false⟩, 0, 0⟩ s' := by
  obtain ⟨r, hr, hopened⟩ := Option.map_eq_some_iff.mp
    (show (((DfsCopy.copy ⟨fun _ => true, true, false, fun _ _ => none⟩ 1 [['a']] [['b']]).run 5
      ⟨.dir [(['a'], .dir [(['f'], .file [1])])], [], ⟨false, none, false⟩, 0, 0⟩).map fun r =>
        r.2.opened) = some [⟨[['b']], 0, 1⟩, ⟨[['a']], 1, 0⟩, ⟨[['a'], ['f']], 1, 1⟩,
          ⟨[['b'], ['f']], 1, 2⟩] by decide +kernel)
  refine ⟨r.2, ⟨5, hr⟩, by rw [hopened]; rfl, fun hc => ?_⟩
  have hclosed := hc.closed ⟨[['a']], 1, 0⟩ (by rw [hopened]; decide)
  exact absurd hclosed (by decide)

end RtThread
