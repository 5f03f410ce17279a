import RtThread.Filesystems.DfsCopy

/-!
# Objects that nothing refers to

An open object of a driver that the static descriptor does not refer to stays so: copying
opens new objects, and closes only those it opened and the one of the static descriptor.
-/
namespace RtThread
open Procedures

/-! ## The tree -/

namespace FileNode

theorem find_append (n : FileNode) (p q : FilePath) :
    n.find (p ++ q) = (n.find p).bind fun m => m.find q := by
  induction p generalizing n with
  | nil => rfl
  | cons a p ih =>
    rw [List.cons_append, find, find, Option.bind_assoc]
    exact congrArg _ (funext fun child => ih child)

theorem lookup_replace (es : List (FileName × FileNode)) (a b : FileName) (new : FileNode) :
    (es.map fun e => if e.1 = a then (e.1, new) else e).lookup b =
      if b = a then (es.lookup a).map fun _ => new else es.lookup b := by
  induction es with
  | nil => simp
  | cons e es ih =>
    obtain ⟨c, m⟩ := e
    by_cases hc : c = a
    · subst hc
      by_cases hb : b = c
      · simp [hb]
      · simp [List.lookup_cons, hb, ih, beq_eq_false_iff_ne.mpr hb]
    · by_cases hb : b = a
      · subst hb
        have hne : (b == c) = false := beq_eq_false_iff_ne.mpr (Ne.symm hc)
        simp [List.lookup_cons, hc, hne, ih]
      · simp [List.lookup_cons, hc, hb, ih]

/-- A new node is found where it was put. -/
theorem find_put_self {n new : FileNode} {p : FilePath} {es : List (FileName × FileNode)}
    (hnone : n.find p = none) (hparent : n.find p.dropLast = some (.dir es)) :
    (n.put p new).find p = some new := by
  induction p generalizing n with
  | nil => rfl
  | cons a p ih =>
    cases n with
    | file data =>
      cases p with
      | nil => simp [find] at hparent
      | cons b p => simp [find, entries] at hparent
    | dir fs =>
      cases hlookup : fs.lookup a with
      | none =>
        cases p with
        | nil => simp [put, hlookup, find, entries, List.lookup_append]
        | cons b p => simp [find, entries, hlookup] at hparent
      | some child =>
        cases p with
        | nil => simp [find, entries, hlookup] at hnone
        | cons b p =>
          have hsome : (FileNode.dir fs).find (a :: b :: p) = child.find (b :: p) := by
            simp [find, entries, hlookup]
          have hdrop : (FileNode.dir fs).find (a :: (b :: p).dropLast) =
              child.find (b :: p).dropLast := by simp [find, entries, hlookup]
          rw [hsome] at hnone
          rw [List.dropLast_cons_of_ne_nil (List.cons_ne_nil b p), hdrop] at hparent
          rw [put, hlookup, find, entries, lookup_replace, if_pos rfl, hlookup]
          exact ih hnone hparent

/-- Nodes off the path are the same. -/
theorem find_put_other {n new : FileNode} {p q : FilePath} (hpq : ¬p <+: q) (hqp : ¬q <+: p) :
    (n.put p new).find q = n.find q := by
  induction p generalizing n q with
  | nil => exact absurd List.nil_prefix hpq
  | cons a p ih =>
    cases q with
    | nil => exact absurd List.nil_prefix hqp
    | cons b q =>
      cases n with
      | file data => rfl
      | dir fs =>
        cases hlookup : fs.lookup a with
        | none =>
          simp only [put, hlookup]
          split
          · next hp =>
            subst hp
            have hne : b ≠ a := by
              rintro rfl
              exact hpq (List.prefix_append [b] q)
            simp [find, entries, List.lookup_append, List.lookup_cons,
              beq_eq_false_iff_ne.mpr hne]
          · rfl
        | some child =>
          rw [put, hlookup, find, find, entries, entries, lookup_replace]
          by_cases hb : b = a
          · subst hb
            rw [if_pos rfl, hlookup]
            refine ih (fun h => hpq ?_) fun h => hqp ?_
            · exact (List.prefix_cons_inj b).mpr h
            · exact (List.prefix_cons_inj b).mpr h
          · rw [if_neg hb]

end FileNode

namespace DfsCopy

variable {env : CopyEnv} {s s' : CopyState} {h : ℕ}

/-! ## An object that nothing refers to -/

/-- An open object that the static descriptor does not refer to. -/
structure Lost (h : ℕ) (s : CopyState) : Prop where
  opened : ∃ f, s.opened[h]? = some f ∧ f.closes = 0
  fd : s.fd.data ≠ some h

theorem Lost.lt (hl : Lost h s) : h < s.opened.length := by
  obtain ⟨f, hf, -⟩ := hl.opened
  exact (List.getElem?_eq_some_iff.mp hf).1

theorem Lost.same (hl : Lost h s) (ho : s'.opened = s.opened) (hf : s'.fd = s.fd) : Lost h s' := by
  obtain ⟨hopened, hfd⟩ := hl
  rw [← ho] at hopened
  rw [← hf] at hfd
  exact ⟨hopened, hfd⟩

/-- Moving the position of any object, or closing another one. -/
theorem Lost.modify (hl : Lost h s) {k : ℕ} {g : OpenFile → OpenFile}
    (hg : k = h → ∀ f, (g f).closes = f.closes) (ho : s'.opened = s.opened.modify k g)
    (hf : s'.fd = s.fd) : Lost h s' := by
  obtain ⟨⟨f, hget, hcloses⟩, hfd⟩ := hl
  refine ⟨?_, hf ▸ hfd⟩
  rw [ho, List.getElem?_modify, hget]
  by_cases hk : k = h
  · exact ⟨g f, by simp [hk], (hg hk f).trans hcloses⟩
  · exact ⟨f, by simp [hk], hcloses⟩

theorem Lost.moved (hl : Lost h s) (k n : ℕ) :
    Lost h { s with opened := s.opened.modify k fun f => { f with pos := f.pos + n } } :=
  hl.modify (g := fun f => { f with pos := f.pos + n }) (fun _ _ => rfl) rfl rfl

theorem lost_rtMalloc : Proc.Triple (Lost h) (rtMalloc env) fun _ => Lost h := by
  refine Proc.triple_read.bind fun k => ?_
  split
  · refine (Proc.triple_modify (Q := fun _ => Lost h) fun s hs => ?_).bind fun _ =>
      Proc.triple_pure fun s hs => hs
    exact hs.1.same rfl rfl
  · refine (Proc.triple_modify (Q := fun _ => Lost h) fun s hs => ?_).bind fun _ =>
      Proc.triple_pure fun s hs => hs
    exact hs.1.same rfl rfl

theorem lost_rtFree : Proc.Triple (Lost h) rtFree fun _ => Lost h :=
  Proc.triple_modify fun _ hs => hs.same rfl rfl

theorem lost_opsOpen (path : FilePath) (mode : OpenMode) :
    Proc.Triple (Lost h) (opsOpen path mode) fun r s => Lost h s ∧ r ≠ some h := by
  refine Proc.triple_read.bind fun root => ?_
  cases root with
  | none => exact Proc.triple_pure fun s hs => ⟨hs.1, by simp⟩
  | some root =>
    refine Proc.triple_read.bind fun k => ?_
    refine (Proc.triple_modify (Q := fun _ s => Lost h s ∧ k ≠ h) fun s hs => ?_).bind fun _ =>
      Proc.triple_pure fun s hs => ⟨hs.1, by simpa using hs.2⟩
    obtain ⟨⟨hl, -⟩, rfl⟩ := hs
    refine ⟨⟨?_, hl.fd⟩, Nat.ne_of_gt hl.lt⟩
    obtain ⟨f, hf, hcloses⟩ := hl.opened
    exact ⟨f, by rw [List.getElem?_append_left hl.lt, hf], hcloses⟩

theorem lost_opsClose {k : ℕ} (hk : k ≠ h) :
    Proc.Triple (Lost h) (opsClose k) fun _ => Lost h :=
  Proc.triple_modify fun _ hs => hs.modify (fun he => absurd he hk) rfl rfl

theorem lost_dfsFileOpen (fd : CopyFd) (hfd : fd.data ≠ some h) (path : FilePath)
    (mode : OpenMode) : Proc.Triple (Lost h) (dfsFileOpen env fd path mode)
      fun r s => Lost h s ∧ r.2.data ≠ some h := by
  refine lost_rtMalloc.bind fun ok => ?_
  split
  · refine (lost_opsOpen path mode).bind fun r => ?_
    cases r with
    | none =>
      refine (lost_rtFree.weaken (fun s hs => hs.1) fun _ _ hs => hs).bind fun _ =>
        Proc.triple_pure fun s hs => ⟨hs, hfd⟩
    | some k => exact Proc.triple_pure fun s hs => hs
  · exact Proc.triple_pure fun s hs => ⟨hs, hfd⟩

theorem lost_dfsFileClose (fd : CopyFd) (hfd : fd.data ≠ some h) :
    Proc.Triple (Lost h) (dfsFileClose fd) fun r s => Lost h s ∧ r.data ≠ some h := by
  obtain ⟨directory, data, path⟩ := fd
  have hrest : Proc.Triple (Lost h) (do
      if path then rtFree
      pure (⟨directory, data, false⟩ : CopyFd) : CopyProc CopyFd)
      fun r s => Lost h s ∧ r.data ≠ some h := by
    split
    · exact lost_rtFree.bind fun _ => Proc.triple_pure fun s hs => ⟨hs, hfd⟩
    · exact Proc.triple_pure fun s hs => ⟨hs, hfd⟩
  cases data with
  | none => exact hrest
  | some k =>
    have hk : k ≠ h := fun hk => hfd (congrArg some hk)
    exact (lost_opsClose hk).bind fun _ => hrest

theorem lost_opsGetdents (k : ℕ) : Proc.Triple (Lost h) (opsGetdents env k) fun _ => Lost h := by
  refine Proc.triple_read.bind fun name => ?_
  refine (Proc.triple_modify (Q := fun _ => Lost h) fun s hs => ?_).bind fun _ =>
    Proc.triple_pure fun s hs => hs
  exact hs.1.moved _ _

theorem lost_dfsFileGetdents (fd : CopyFd) :
    Proc.Triple (Lost h) (dfsFileGetdents env fd) fun _ => Lost h := by
  unfold dfsFileGetdents
  split
  · exact lost_opsGetdents _
  · exact Proc.triple_pure fun s hs => hs

theorem lost_dfsFileRead (fd : CopyFd) (length : ℕ) :
    Proc.Triple (Lost h) (dfsFileRead fd length) fun _ => Lost h := by
  unfold dfsFileRead
  split
  · exact Proc.triple_pure fun s hs => hs
  · refine Proc.triple_read.bind fun bytes => ?_
    refine (Proc.triple_modify (Q := fun _ => Lost h) fun s hs => ?_).bind fun _ =>
      Proc.triple_pure fun s hs => hs
    exact hs.1.moved _ _

theorem lost_opsWrite (k : ℕ) (bytes : List UInt8) :
    Proc.Triple (Lost h) (opsWrite k bytes) fun _ => Lost h := by
  refine (Proc.triple_modify (Q := fun _ => Lost h) fun s hs => ?_).bind fun _ => ?_
  · split
    · exact hs
    · exact hs.same rfl rfl
  · refine (Proc.triple_modify (Q := fun _ => Lost h) fun s hs => ?_).bind fun _ =>
      Proc.triple_pure fun s hs => hs
    exact hs.moved _ _

theorem lost_dfsFileWrite (fd : CopyFd) (bytes : List UInt8) :
    Proc.Triple (Lost h) (dfsFileWrite fd bytes) fun _ => Lost h := by
  unfold dfsFileWrite
  split
  · exact Proc.triple_pure fun s hs => hs
  · exact lost_opsWrite _ bytes

theorem lost_dfsFileStat (path : FilePath) :
    Proc.Triple (Lost h) (dfsFileStat env path) fun _ => Lost h := by
  refine lost_rtMalloc.bind fun ok => ?_
  split
  · refine Proc.triple_read.bind fun isDir => ?_
    refine (lost_rtFree.weaken (fun s hs => hs.1) fun _ _ hs => hs).bind fun _ =>
      Proc.triple_pure fun s hs => hs
  · exact Proc.triple_pure fun s hs => hs

/-- The descriptor of `mkdir` is not the lost object, as that one was there before. -/
theorem lost_mkdir (path : FilePath) :
    Proc.Triple (Lost h) (mkdir env path) fun _ => Lost h := by
  unfold mkdir
  split
  · refine (lost_dfsFileOpen _ (by simp) path .create).bind fun r => ?_
    obtain ⟨ok, d⟩ := r
    dsimp only
    split
    · intro s a s' hs hr
      obtain ⟨d', t, hclose, hrest⟩ := Proc.returns_bind.mp hr
      obtain ⟨-, rfl⟩ := Proc.returns_pure.mp hrest
      exact (lost_dfsFileClose d hs.2 s d' _ hs.1 hclose).1
    · exact Proc.triple_pure fun s hs => hs.1
  · exact Proc.triple_pure fun s hs => hs

theorem lost_openFd (path : FilePath) (mode : OpenMode) :
    Proc.Triple (Lost h) (openFd env path mode) fun _ => Lost h := by
  refine Proc.triple_read.bind fun fd => ?_
  intro s ok s' hs hr
  obtain ⟨hl, rfl⟩ := hs
  obtain ⟨r, t, hopen, hrest⟩ := Proc.returns_bind.mp hr
  obtain ⟨hl', hfd⟩ := lost_dfsFileOpen s.fd hl.fd path mode s r t hl hopen
  obtain ⟨u, v, hmodify, hpure⟩ := Proc.returns_bind.mp hrest
  obtain rfl := Proc.returns_modify.mp hmodify
  obtain ⟨-, rfl⟩ := Proc.returns_pure.mp hpure
  exact ⟨hl'.opened, hfd⟩

theorem lost_closeFd : Proc.Triple (Lost h) closeFd fun _ => Lost h := by
  refine Proc.triple_read.bind fun fd => ?_
  intro s u s' hs hr
  obtain ⟨hl, rfl⟩ := hs
  obtain ⟨d, t, hclose, hmodify⟩ := Proc.returns_bind.mp hr
  obtain ⟨hl', hfd⟩ := lost_dfsFileClose s.fd hl.fd s d t hl hclose
  obtain rfl := Proc.returns_modify.mp hmodify
  exact ⟨hl'.opened, hfd⟩

theorem lost_copyfileRound (srcFd : CopyFd) :
    Proc.Triple (Lost h) (copyfileRound srcFd) fun _ => Lost h := by
  refine (lost_dfsFileRead srcFd bufSz).bind fun bytes => ?_
  split
  · refine Proc.triple_read.bind fun fd => ?_
    refine ((lost_dfsFileWrite fd bytes).weaken (fun s hs => hs.1) fun _ _ hs => hs).bind
      fun length => ?_
    split
    · exact Proc.triple_pure fun s hs => hs
    · exact Proc.triple_pure fun s hs => hs
  · exact Proc.triple_pure fun s hs => hs

/-- A loop that never refers to the object. -/
theorem lost_loop {body : CopyProc (Unit ⊕ Unit)}
    (hbody : Proc.Triple (Lost h) body fun _ => Lost h) :
    Proc.Triple (Lost h) (Proc.loop (fun (_ : Unit) => body) ()) fun _ => Lost h := by
  refine Proc.triple_loop (I := fun _ => Lost h) (fun _ => ?_) ()
  refine hbody.weaken (fun s hs => hs) fun r s hs => ?_
  cases r with
  | inl _ => exact hs
  | inr _ => exact hs

/-- What `copyfile` does with both files open. -/
theorem lost_copyRest (srcFd : CopyFd) (hfd : srcFd.data ≠ some h) :
    Proc.Triple (Lost h) (do
      Proc.loop (fun (_ : Unit) => copyfileRound srcFd) ()
      let _ ← dfsFileClose srcFd
      closeFd
      rtFree : CopyProc Unit) fun _ => Lost h := by
  refine (lost_loop (lost_copyfileRound srcFd)).bind fun _ => ?_
  refine ((lost_dfsFileClose srcFd hfd).weaken (fun s hs => hs) fun _ _ hs => hs.1).bind fun _ => ?_
  exact lost_closeFd.bind fun _ => lost_rtFree

theorem lost_copyfile (src dst : FilePath) :
    Proc.Triple (Lost h) (copyfile env src dst) fun _ => Lost h := by
  refine lost_rtMalloc.bind fun ok => ?_
  split
  · refine (lost_dfsFileOpen _ (by simp) src .read).bind fun r => ?_
    obtain ⟨ok, srcFd⟩ := r
    intro s u s' hs
    refine Proc.Triple.weaken (P := Lost h) (Q := fun _ => Lost h) ?_ (fun s hs => hs)
      (fun _ _ hs => hs) s u s' hs.1
    dsimp only
    split
    · exact lost_rtFree
    · refine (lost_openFd dst .write).bind fun ok => ?_
      split
      · exact lost_copyRest srcFd hs.2
      · refine lost_rtFree.bind fun _ => ?_
        exact ((lost_dfsFileClose srcFd hs.2).weaken (fun s hs => hs) fun _ _ hs => hs.1).bind
          fun _ => Proc.triple_pure fun s hs => hs
  · exact Proc.triple_pure fun s hs => hs

theorem lost_copyEntry {below : FilePath → FilePath → CopyProc Unit}
    (hbelow : ∀ src dst, Proc.Triple (Lost h) (below src dst) fun _ => Lost h)
    (src dst : FilePath) (name : FileName) :
    Proc.Triple (Lost h) (copyEntry env below src dst name) fun _ => Lost h := by
  refine lost_rtMalloc.bind fun ok => ?_
  split
  · refine lost_rtMalloc.bind fun ok => ?_
    split
    · refine (lost_dfsFileStat (src ++ [name])).bind fun isDir => ?_
      have hend : Proc.Triple (Lost h) (do
          rtFree
          rtFree
          pure true : CopyProc Bool) fun _ => Lost h :=
        lost_rtFree.bind fun _ => lost_rtFree.bind fun _ => Proc.triple_pure fun s hs => hs
      cases isDir with
      | none => exact Proc.triple_pure fun s hs => hs
      | some isDir =>
        cases isDir with
        | false => exact (lost_copyfile _ _).bind fun _ => hend
        | true => exact (lost_mkdir _).bind fun _ => (hbelow _ _).bind fun _ => hend
    · exact lost_rtFree.bind fun _ => Proc.triple_pure fun s hs => hs
  · exact Proc.triple_pure fun s hs => hs

theorem lost_copydirRound {below : FilePath → FilePath → CopyProc Unit}
    (hbelow : ∀ src dst, Proc.Triple (Lost h) (below src dst) fun _ => Lost h)
    (src dst : FilePath) :
    Proc.Triple (Lost h) (copydirRound env below src dst) fun _ => Lost h := by
  refine Proc.triple_read.bind fun fd => ?_
  refine ((lost_dfsFileGetdents fd).weaken (fun s hs => hs.1) fun _ _ hs => hs).bind fun name => ?_
  cases name with
  | none => exact Proc.triple_pure fun s hs => hs
  | some name =>
    dsimp only
    split
    · exact Proc.triple_pure fun s hs => hs
    · refine (lost_copyEntry hbelow src dst name).bind fun more => ?_
      split
      · exact Proc.triple_pure fun s hs => hs
      · exact Proc.triple_pure fun s hs => hs

theorem lost_copydir (depth : ℕ) (src dst : FilePath) :
    Proc.Triple (Lost h) (copydir env depth src dst) fun _ => Lost h := by
  induction depth generalizing src dst with
  | zero => exact Proc.triple_never
  | succ depth ih =>
    refine (lost_openFd src .list).bind fun ok => ?_
    split
    · exact (lost_loop (lost_copydirRound ih src dst)).bind fun _ => lost_closeFd
    · exact Proc.triple_pure fun s hs => hs


end DfsCopy
end RtThread
