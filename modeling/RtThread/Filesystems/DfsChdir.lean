import RtThread.Filesystems.DfsPosix
import RtThread.Library.Transition

/-!
# The working directory

`chdir` normalises its argument, asks `opendir` for the result and copies it to the buffer that the
next normalisation reads.
-/
namespace RtThread
open SlashPath Normalizer Transition

def dfsPathMax : ℕ := 256

/-- `strncpy` over a whole buffer of `n` characters. -/
def strncpy (src : List Char) (n : ℕ) : List Char :=
  src.take n ++ List.replicate (n - src.length) nul

section
variable (table : List (DfsFilesystem FilesystemOperation)) (answers : Answers)

/-- The descriptor of the directory, if it is opened and there is memory for the stream. -/
def opendir (memory : Bool) (workingDirectory : List Char) (fds : List DfsFd) (name : List Char) :
    Option (Option ℕ × List DfsFd) :=
  match fdNew fds with
  | none => some (none, fds)
  | some (fd, fds) =>
    (fdGet fds fd).bind fun fds => fds[fd]?.bind fun d =>
      (dfsFileOpen table workingDirectory answers d name dfsODirectory).bind fun (result, d, _) =>
        let fds := fds.set fd d
        if result ≥ 0 then
          if memory then some (some fd, fdPut fds fd)
          else (dfsFileClose table answers d).map fun (_, d, _) =>
            (none, fdPut (fdPut (fds.set fd d) fd) fd)
        else some (none, fdPut (fdPut fds fd) fd)

def closedir (fds : List DfsFd) (fd : ℕ) : Option (List DfsFd) :=
  match fdGet fds fd with
  | none => some fds
  | some fds =>
    fds[fd]?.bind fun d => (dfsFileClose table answers d).map fun (_, d, _) =>
      fdPut (fdPut (fds.set fd d) fd) fd

end

/-- What a call of `chdir` meets: memory for the path, what `opendir` meets, memory for the
stream. -/
structure ChdirAnswers where
  path : Bool
  file : Answers
  stream : Bool

/-- The buffer of the working directory, with the names that `opendir` has accepted and whether an
access left its buffer. -/
structure Workdir where
  buffer : List Char
  fds : List DfsFd
  accepted : List (List Char)
  wild : Bool
  deriving DecidableEq

namespace Workdir

/-- Only a relative name reads the working directory. -/
def directory (s : Workdir) (name : List Char) : Option (List Char) :=
  if charAt name 0 ≠ '/' then cString s.buffer else some []

def normalize (s : Workdir) (name : List Char) (memory : Bool) : Option (Option (List Char)) :=
  (s.directory name).bind fun directory => normalizedText directory name memory

section
variable (table : List (DfsFilesystem FilesystemOperation))

def opendir (s : Workdir) (answers : ChdirAnswers) (name : List Char) :
    Option (Option ℕ × List DfsFd) :=
  (s.directory name).bind fun directory =>
    RtThread.opendir table answers.file answers.stream directory s.fds name

/-- `none` is an access outside a buffer. -/
def chdir (s : Workdir) (answers : ChdirAnswers) : Option (List Char) → Option (ℤ × Workdir)
  | none => (cString s.buffer).map fun _ => (0, s)
  | some path =>
    if path.length > dfsPathMax then some (-1, s)
    else
      (s.normalize path answers.path).bind fun
        | none => some (-1, s)
        | some fullpath =>
          (s.opendir table answers fullpath).bind fun
            | (none, fds) => some (-1, { s with fds := fds })
            | (some d, fds) =>
              (closedir table answers.file fds d).map fun fds =>
                (0, { s with
                  buffer := strncpy fullpath dfsPathMax
                  fds := fds
                  accepted := fullpath :: s.accepted })

def step (s : Workdir) (i : Option CString × ChdirAnswers) : Option (Workdir × ℤ) :=
  match s.chdir table i.2 (i.1.map CString.text) with
  | none => some ({ s with wild := true }, -1)
  | some (result, s') => some (s', result)

def machine : Machine Workdir (Option CString × ChdirAnswers) ℤ := ⟨step table⟩

/-- The root is the working directory from the start. -/
def initial (fds : List DfsFd) : Workdir := ⟨strncpy ['/'] dfsPathMax, fds, [['/']], false⟩

/-- The buffer holds a string, the normalised path of a directory that `opendir` has accepted. -/
structure Good (s : Workdir) : Prop where
  tame : s.wild = false
  length : s.buffer.length = dfsPathMax
  string : ∃ text, cString s.buffer = some text ∧ Normal text ∧ text ∈ s.accepted

/-- `opendir` gets the normalised path and refuses it. -/
def Refused (s : Workdir) (path : List Char) (answers : ChdirAnswers) : Prop :=
  ∃ fullpath fds, s.normalize path answers.path = some (some fullpath) ∧
    s.opendir table answers fullpath = some (none, fds)

/-- The condition on a call: a path that leads to one level above the root, or to a directory whose
path fills the buffer, is refused. -/
def CallOk (s : Workdir) : Option CString × ChdirAnswers → Prop
  | (none, _) => True
  | (some path, answers) =>
    path.text.length ≤ dfsPathMax → answers.path = true → ∀ directory,
      s.directory path.text = some directory →
      lowest 0 (components (joinedPath directory path.text)) = -1 ∨
        (∃ stack, resolve [] (components (joinedPath directory path.text)) = some stack ∧
          dfsPathMax ≤ (SlashPath.path stack).length) →
      s.Refused table path.text answers

end

/-! ## The buffer -/

theorem length_strncpy (src : List Char) (n : ℕ) : (strncpy src n).length = n := by
  rw [strncpy, List.length_append, List.length_take, List.length_replicate]
  omega

theorem cString_strncpy {src : List Char} {n : ℕ} (hsrc : nul ∉ src) (hlt : src.length < n) :
    cString (strncpy src n) = some src := by
  obtain ⟨k, hk⟩ : ∃ k, n - src.length = k + 1 := ⟨n - src.length - 1, by omega⟩
  rw [strncpy, List.take_of_length_le hlt.le, hk, List.replicate_succ]
  exact cString_append hsrc _

/-- A text that fills the buffer has no terminator there. -/
theorem cString_strncpy_full {src : List Char} {n : ℕ} (hsrc : nul ∉ src) (hle : n ≤ src.length) :
    cString (strncpy src n) = none := by
  rw [strncpy, Nat.sub_eq_zero_of_le hle, List.replicate_zero, List.append_nil, cString, if_neg]
  exact fun hmem => hsrc (List.mem_of_mem_take hmem)

theorem nul_not_mem_of_cString {buffer text : List Char} (h : cString buffer = some text) :
    nul ∉ text := by
  unfold cString at h
  split at h
  · obtain rfl := Option.some.inj h
    intro hmem
    have hall := List.all_eq_true.mp (List.all_takeWhile (l := buffer)) nul hmem
    simp at hall
  · cases h

variable {table : List (DfsFilesystem FilesystemOperation)} {s s' : Workdir}
  {dir name : List Char} {answers : ChdirAnswers} {fds : List DfsFd}

theorem Good.names (h : s.Good) : ∃ stack, (∀ c ∈ stack, IsName c ∧ nul ∉ c) ∧
    cString s.buffer = some (path stack) := by
  obtain ⟨text, hstring, hnormal, -⟩ := h.string
  obtain ⟨stack, hstack, rfl⟩ := normal_iff.mp hnormal
  refine ⟨stack, fun c hc => ⟨hstack c hc, fun hmem => ?_⟩, hstring⟩
  refine nul_not_mem_of_cString hstring (mem_of_mem_components (c := c) ?_ hmem)
  rwa [components_path hstack]

theorem good_initial (fds : List DfsFd) : (initial fds).Good where
  tame := rfl
  length := length_strncpy ['/'] dfsPathMax
  string := ⟨['/'], cString_strncpy (by decide) (by decide), .inl rfl, List.mem_singleton_self _⟩

/-! ## The path of a call -/

/-- Whatever the argument is, an absolute text is normalised. -/
theorem Good.directory (h : s.Good) (path : CString) : ∃ dir : CString,
    s.directory path.text = some dir.text ∧
      (joinedPath dir.text path.text).head? = some '/' := by
  by_cases habs : charAt path.text 0 = '/'
  · refine ⟨⟨[], List.not_mem_nil⟩, if_neg (not_not.mpr habs), ?_⟩
    rw [joinedPath, if_neg (not_not.mpr habs)]
    rcases htext : path.text with _ | ⟨c, rest⟩
    · rw [htext] at habs
      exact absurd habs (by decide)
    · rw [htext, charAt_cons] at habs
      rw [habs]
      rfl
  · obtain ⟨stack, hstack, hstring⟩ := h.names
    refine ⟨⟨SlashPath.path stack, nul_not_mem_path hstack⟩,
      (if_pos habs).trans hstring, ?_⟩
    rw [joinedPath, if_pos habs]
    rfl

/-- The normalised path is read alone, from any directory. -/
theorem directory_path (s : Workdir) (stack : List (List Char)) :
    s.directory (SlashPath.path stack) = some [] :=
  if_neg (not_not.mpr rfl)

theorem normalize_eq (hdir : s.directory name = some dir) (memory : Bool) :
    s.normalize name memory = normalizedText dir name memory := by
  rw [normalize, hdir, Option.bind_some]

theorem nul_not_mem_normalized {memory : Bool} {text : List Char}
    (h : s.normalize name memory = some (some text)) : nul ∉ text := by
  obtain ⟨dir, -, h⟩ := Option.bind_eq_some_iff.mp h
  obtain ⟨buffer, -, h⟩ := Option.bind_eq_some_iff.mp h
  cases buffer with
  | none => cases h
  | some buffer =>
    obtain ⟨text', hstring, h⟩ := Option.map_eq_some_iff.mp h
    obtain rfl := Option.some.inj h
    exact nul_not_mem_of_cString hstring

/-! ## Opening and closing the directory -/

theorem dfsFileClose_some {fd : DfsFd} {fs : MountPoint} {fullpath : List Char}
    (hfs : fd.fs = some fs.address) (hlookup : mountPoint table fullpath = some fs)
    (answers : Answers) : ∃ r, dfsFileClose table answers fd = some r := by
  rw [dfsFileClose, hfs, Option.bind_some, mountPoint_entry hlookup, Option.bind_some,
    Option.map_some]
  exact ⟨_, rfl⟩

theorem dfsFileOpen_some {fd : DfsFd} {text : Option (List Char)} {flags : BitVec 32}
    {answers : Answers}
    (htext : normalizedText dir name (answers.memory 0) = some text) :
    ∃ r, dfsFileOpen table dir answers fd name flags = some r := by
  rw [dfsFileOpen, htext, Option.bind_some]
  cases text with
  | none => exact ⟨_, rfl⟩
  | some fullpath =>
    dsimp only
    split
    · exact ⟨_, rfl⟩
    · split
      · split <;> exact ⟨_, rfl⟩
      · exact ⟨_, rfl⟩

/-- A directory whose path is normalised is opened or refused, and what is opened is closed. -/
theorem opendir_total {text : Option (List Char)} {file : Answers} (memory : Bool)
    (fds : List DfsFd) (htext : normalizedText dir name (file.memory 0) = some text) :
    ∃ d fds', RtThread.opendir table file memory dir fds name = some (d, fds') ∧
      ∀ fd, d = some fd → ∃ fds'', closedir table file fds' fd = some fds'' := by
  unfold RtThread.opendir
  split
  · exact ⟨none, fds, rfl, fun fd hfd => by cases hfd⟩
  · next fd fds₁ hnew =>
    obtain ⟨d, hd, -, rfl⟩ := fdNew_some hnew
    obtain ⟨hlt, -⟩ := List.getElem?_eq_some_iff.mp hd
    have hget : fdGet (fds.set fd { d with refCount := 1, magic := dfsFdMagic }) fd =
        some (fds.set fd { d with refCount := 2, magic := dfsFdMagic }) := by
      simp [fdGet, List.getElem?_set_self hlt]
    obtain ⟨⟨result, d', calls⟩, hopen⟩ : ∃ r, dfsFileOpen table dir file
        { d with refCount := 2, magic := dfsFdMagic } name dfsODirectory = some r :=
      dfsFileOpen_some htext
    simp only [hget, Option.bind_some, List.getElem?_set_self hlt, hopen, List.set_set]
    cases dfsFileOpen_cases hopen with
    | failed hneg =>
      rw [if_neg (not_le.mpr hneg)]
      exact ⟨none, _, rfl, fun fd hfd => by cases hfd⟩
    | @opened fullpath fs _ _ hlookup href hmagic hfs _ =>
      rw [if_pos le_rfl]
      cases memory with
      | false =>
        obtain ⟨r, hclose⟩ := dfsFileClose_some hfs hlookup file
        rw [if_neg Bool.false_ne_true, hclose]
        exact ⟨none, _, rfl, fun fd hfd => by cases hfd⟩
      | true =>
        refine ⟨some fd, _, if_pos rfl, fun fd' hfd' => ?_⟩
        obtain rfl := Option.some.inj hfd'
        have hput : d'.put = { d' with refCount := 1 } := DfsFd.put_two href
        have hagain : fdGet (fdPut (fds.set fd d') fd) fd =
            some (fds.set fd { d' with refCount := 2 }) := by
          rw [fdPut_set hlt, hput]
          simp [fdGet, List.getElem?_set_self hlt, hmagic]
        have hfs' : ({ d' with refCount := 2 } : DfsFd).fs = some fs.address := hfs
        obtain ⟨r, hclose⟩ := dfsFileClose_some hfs' hlookup file
        unfold closedir
        simp only [hagain, List.getElem?_set_self hlt, Option.bind_some, hclose, Option.map_some]
        exact ⟨_, rfl⟩

/-! ## One call -/

variable {path : CString} {result : ℤ} {stack : List (List Char)} {fullpath : List Char}

/-- Without its root a path is not absolute. -/
theorem normalize_lost (hdir : s.directory path.text = some dir) (hnul : nul ∉ dir)
    (habs : (joinedPath dir path.text).head? = some '/')
    (hlow : lowest 0 (components (joinedPath dir path.text)) = -1) :
    s.normalize path.text true = none ∨
      ∃ fullpath, s.normalize path.text true = some (some fullpath) ∧ ¬ Normal fullpath := by
  rw [normalize_eq hdir]
  have hclimbs : target (joinedPath dir path.text) = none := by
    rw [target, if_pos habs]
    exact (resolve_eq_none_iff [] _).mpr (by simp [hlow])
  have hcase := normalizedText_case ⟨dir, hnul⟩ path true
  rw [hclimbs] at hcase
  generalize htext : normalizedText dir path.text true = text at hcase ⊢
  cases hcase with
  | outside => exact .inl rfl
  | null =>
    obtain ⟨hlow', -⟩ | ⟨-, hne⟩ | ⟨hlow', -⟩ := dfsNormalizePath_cases dir none rfl
      (joinedPath_nul hnul path.noNul) habs
    · exact absurd hlow' (by rw [Option.getD_none, hlow]; decide)
    · refine absurd ?_ hne
      unfold normalizedText at htext
      obtain ⟨buffer, hbuffer, htext⟩ := Option.bind_eq_some_iff.mp htext
      cases buffer with
      | none => exact hbuffer
      | some buffer =>
        obtain ⟨text, -, htext⟩ := Option.map_eq_some_iff.mp htext
        cases htext
    · exact absurd hlow' (by rw [Option.getD_none, hlow]; decide)
  | @relative fullpath _ hhead =>
    refine .inr ⟨fullpath, rfl, fun hnormal => hhead ?_⟩
    rw [hnormal.eq_path.1]
    rfl
  | absolute _ h => cases h

theorem normalize_null (hdir : s.directory path.text = some dir) (hnul : nul ∉ dir)
    (habs : (joinedPath dir path.text).head? = some '/')
    (hlow : lowest 0 (components (joinedPath dir path.text)) < -1) :
    s.normalize path.text true = some none := by
  obtain ⟨-, hnull⟩ | ⟨hlow', -⟩ | ⟨hlow', -⟩ := dfsNormalizePath_cases dir none rfl
    (joinedPath_nul hnul path.noNul) habs
  · rw [normalize_eq hdir, normalizedText, hnull, Option.bind_some]
  · rw [Option.getD_none] at hlow'
    omega
  · rw [Option.getD_none] at hlow'
    omega

theorem normalize_path (hdir : s.directory path.text = some dir) (hnul : nul ∉ dir)
    (habs : (joinedPath dir path.text).head? = some '/')
    (hresolve : resolve [] (components (joinedPath dir path.text)) = some stack) :
    s.normalize path.text true = some (some (SlashPath.path stack)) ∧
      ∀ c ∈ stack, IsName c ∧ nul ∉ c := by
  have hlow : ¬ lowest 0 (components (joinedPath dir path.text)) < 0 := by
    intro hlow
    have hnone := (resolve_eq_none_iff [] (components (joinedPath dir path.text))).mpr hlow
    rw [hresolve] at hnone
    cases hnone
  obtain ⟨hlow', -⟩ | ⟨hlow', -⟩ | ⟨-, stack', buffer, hresolve', hstack, hbuffer, hstring⟩ :=
    dfsNormalizePath_cases dir none rfl (joinedPath_nul hnul path.noNul) habs
  · rw [Option.getD_none] at hlow'
    omega
  · rw [Option.getD_none] at hlow'
    omega
  · rw [Option.getD_none] at hresolve'
    obtain rfl := Option.some.inj (hresolve.symm.trans hresolve')
    rw [normalize_eq hdir, normalizedText, hbuffer, Option.bind_some]
    simp only [hstring, Option.map_some]
    exact ⟨trivial, hstack⟩

/-- What a call does with a path that is normalised. -/
inductive ChdirCase (table : List (DfsFilesystem FilesystemOperation)) (s : Workdir)
    (path fullpath : List Char) (answers : ChdirAnswers) : Workdir → Prop
  | outside (h : ∀ d fds, s.opendir table answers fullpath = some (d, fds) →
      ∃ fd, d = some fd ∧ closedir table answers.file fds fd = none) :
      ChdirCase table s path fullpath answers { s with wild := true }
  | refused {fds : List DfsFd} (h : s.Refused table path answers) :
      ChdirCase table s path fullpath answers { s with fds := fds }
  | stored {fds : List DfsFd} : ChdirCase table s path fullpath answers
      { s with
        buffer := strncpy fullpath dfsPathMax
        fds := fds
        accepted := fullpath :: s.accepted }

theorem step_some (hlen : ¬ path.text.length > dfsPathMax)
    (hnorm : s.normalize path.text answers.path = some (some fullpath))
    (hs : step table s (some path, answers) = some (s', result)) :
    ChdirCase table s path.text fullpath answers s' := by
  unfold step at hs
  simp only [Option.map_some, chdir, if_neg hlen, hnorm, Option.bind_some] at hs
  cases hopen : s.opendir table answers fullpath with
  | none =>
    simp only [hopen, Option.bind_none, Option.some.injEq, Prod.mk.injEq] at hs
    obtain ⟨rfl, -⟩ := hs
    exact .outside fun d fds h => by cases hopen.symm.trans h
  | some r =>
    obtain ⟨d, fds⟩ := r
    simp only [hopen, Option.bind_some] at hs
    cases d with
    | none =>
      simp only [Option.some.injEq, Prod.mk.injEq] at hs
      obtain ⟨rfl, -⟩ := hs
      exact .refused ⟨fullpath, fds, hnorm, hopen⟩
    | some d =>
      cases hclose : closedir table answers.file fds d with
      | none =>
        simp only [hclose, Option.map_none, Option.some.injEq, Prod.mk.injEq] at hs
        obtain ⟨rfl, -⟩ := hs
        refine .outside fun d' fds' h => ⟨d, ?_⟩
        obtain ⟨rfl, rfl⟩ := Prod.mk.inj (Option.some.inj (hopen.symm.trans h))
        exact ⟨rfl, hclose⟩
      | some fds' =>
        simp only [hclose, Option.map_some, Option.some.injEq, Prod.mk.injEq] at hs
        obtain ⟨rfl, -⟩ := hs
        exact .stored

/-- `opendir` and `closedir` stay inside their buffers on a normalised path. -/
theorem opendir_path (s : Workdir) (hstack : ∀ c ∈ stack, IsName c ∧ nul ∉ c)
    (answers : ChdirAnswers) :
    ∃ d fds, s.opendir table answers (SlashPath.path stack) = some (d, fds) ∧
      ∀ fd, d = some fd → ∃ fds', closedir table answers.file fds fd = some fds' := by
  rw [Workdir.opendir, directory_path, Option.bind_some]
  cases hmemory : answers.file.memory 0 with
  | false =>
    have hnull : normalizedText [] (SlashPath.path stack) false = some none := rfl
    exact opendir_total _ _ (by rw [hmemory, hnull])
  | true => exact opendir_total _ _ (by rw [hmemory]; exact normalizedText_path [] hstack)

/-- A path that resolves, and leaves room for the terminator, is stored or refused. -/
theorem Good.step_resolved (h : s.Good) {dir : CString} (hlen : ¬ path.text.length > dfsPathMax)
    (hdir : s.directory path.text = some dir.text)
    (habs : (joinedPath dir.text path.text).head? = some '/')
    (hmemory : answers.path = true)
    (hresolve : resolve [] (components (joinedPath dir.text path.text)) = some stack)
    (hlt : (SlashPath.path stack).length < dfsPathMax)
    (hs : step table s (some path, answers) = some (s', result)) : s'.Good := by
  obtain ⟨hnorm, hstack⟩ := normalize_path hdir dir.noNul habs hresolve
  rw [← hmemory] at hnorm
  cases step_some hlen hnorm hs with
  | outside hout =>
    obtain ⟨d, fds, hopen, hclose⟩ := s.opendir_path hstack answers
    obtain ⟨fd, rfl, hnone⟩ := hout d fds hopen
    obtain ⟨fds', hsome⟩ := hclose fd rfl
    cases hnone.symm.trans hsome
  | refused => exact ⟨h.tame, h.length, h.string⟩
  | stored =>
    refine ⟨h.tame, length_strncpy _ _, SlashPath.path stack,
      cString_strncpy (nul_not_mem_path hstack) hlt,
      normal_path fun c hc => (hstack c hc).1, List.mem_cons_self⟩

theorem step_inv {i : Option CString × ChdirAnswers} (h : s.Good) (hok : s.CallOk table i)
    (hs : step table s i = some (s', result)) : s'.Good := by
  obtain ⟨path, answers⟩ := i
  cases path with
  | none =>
    obtain ⟨text, hstring, -⟩ := h.string
    simp only [step, Option.map_none, chdir, hstring, Option.map_some, Option.some.injEq,
      Prod.mk.injEq] at hs
    exact hs.1 ▸ h
  | some path =>
    by_cases hlen : path.text.length > dfsPathMax
    · simp only [step, Option.map_some, chdir, if_pos hlen, Option.some.injEq,
        Prod.mk.injEq] at hs
      exact hs.1 ▸ h
    obtain ⟨dir, hdir, habs⟩ := h.directory path
    have hkept : s.normalize path.text answers.path = some none → s'.Good := by
      intro hnull
      simp only [step, Option.map_some, chdir, if_neg hlen, hnull, Option.bind_some,
        Option.some.injEq, Prod.mk.injEq] at hs
      exact hs.1 ▸ h
    cases hmemory : answers.path with
    | false =>
      refine hkept ?_
      rw [hmemory, normalize_eq hdir]
      rfl
    | true =>
      rw [hmemory] at hkept
      by_cases hbad : lowest 0 (components (joinedPath dir.text path.text)) = -1 ∨
          ∃ stack, resolve [] (components (joinedPath dir.text path.text)) = some stack ∧
            dfsPathMax ≤ (SlashPath.path stack).length
      · obtain ⟨fullpath, fds, hnorm, hopen⟩ := hok (not_lt.mp hlen) hmemory dir.text hdir hbad
        simp only [step, Option.map_some, chdir, if_neg hlen, hnorm, Option.bind_some, hopen,
          Option.some.injEq, Prod.mk.injEq] at hs
        obtain ⟨rfl, -⟩ := hs
        exact ⟨h.tame, h.length, h.string⟩
      · obtain ⟨hlow, hshort⟩ := not_or.mp hbad
        cases hresolve : resolve [] (components (joinedPath dir.text path.text)) with
        | none =>
          refine hkept (normalize_null hdir dir.noNul habs ?_)
          have hneg := (resolve_eq_none_iff [] _).mp hresolve
          rw [List.length_nil, Nat.cast_zero] at hneg
          omega
        | some stack =>
          exact h.step_resolved hlen hdir habs hmemory hresolve
            (not_le.mp fun hle => hshort ⟨stack, hresolve, hle⟩) hs

/-- A path that must not be stored shows in the buffer, unless it is refused. -/
theorem refused_of_good (hlen : ¬ path.text.length > dfsPathMax)
    (hnorm : s.normalize path.text answers.path = some (some fullpath))
    (hbad : Normal fullpath → dfsPathMax ≤ fullpath.length)
    (hs : step table s (some path, answers) = some (s', result)) (h : s'.Good) :
    s.Refused table path.text answers := by
  have hnul := nul_not_mem_normalized hnorm
  cases step_some hlen hnorm hs with
  | outside => exact absurd h.tame (by simp)
  | refused hrefused => exact hrefused
  | stored =>
    obtain ⟨text, hstring, hnormal, -⟩ := h.string
    dsimp only at hstring
    by_cases hlt : fullpath.length < dfsPathMax
    · rw [cString_strncpy hnul hlt] at hstring
      obtain rfl := Option.some.inj hstring
      exact absurd (hbad hnormal) (not_le.mpr hlt)
    · rw [cString_strncpy_full hnul (not_lt.mp hlt)] at hstring
      cases hstring

theorem callOk_of_good {i : Option CString × ChdirAnswers} (h : s.Good)
    (hs : step table s i = some (s', result)) (h' : s'.Good) : s.CallOk table i := by
  obtain ⟨_ | path, answers⟩ := i
  · trivial
  intro hlen hmemory dir' hdir' hbad
  obtain ⟨dir, hdir, habs⟩ := h.directory path
  obtain rfl := Option.some.inj (hdir.symm.trans hdir')
  have hlen := not_lt.mpr hlen
  obtain hlow | ⟨stack, hresolve, hlong⟩ := hbad
  · obtain hnone | ⟨fullpath, hnorm, hnormal⟩ := normalize_lost hdir dir.noNul habs hlow
    · rw [← hmemory] at hnone
      simp only [step, Option.map_some, chdir, if_neg hlen, hnone, Option.bind_none,
        Option.some.injEq, Prod.mk.injEq] at hs
      obtain ⟨rfl, -⟩ := hs
      exact absurd h'.tame (by simp)
    · rw [← hmemory] at hnorm
      exact refused_of_good hlen hnorm (fun hn => absurd hn hnormal) hs h'
  · obtain ⟨hnorm, -⟩ := normalize_path hdir dir.noNul habs hresolve
    rw [← hmemory] at hnorm
    exact refused_of_good hlen hnorm (fun _ => hlong) hs h'

/-- The working directory stays what it is for as long as each call keeps the root and the room for
the terminator. -/
theorem workdir_canonical_iff (table : List (DfsFilesystem FilesystemOperation)) (fds : List DfsFd)
    (is : List (Option CString × ChdirAnswers)) :
    (machine table).Always Good (initial fds) is ↔
      (machine table).Meets (CallOk table) (initial fds) is :=
  Machine.always_iff_meets (fun _ h => h) (fun _ _ _ _ h hok hs => step_inv h hok hs)
    (fun _ _ _ _ h hs h' => callOk_of_good h hs h') (good_initial fds)

/-- One level above the root the first slash is lost, and `b` is stored. -/
theorem root_lost : ∃ s os, (machine [⟨some ['/'], some elmOperation⟩]).run (initial [.zero])
    [(some ⟨['/', '.', '.', '/', 'b'], by decide⟩,
      ⟨true, ⟨fun _ => true, fun _ => 0⟩, true⟩)] = some (s, os) ∧
    cString s.buffer = some ['b'] ∧ ¬ s.Good := by
  obtain ⟨⟨s, os⟩, hrun, hend⟩ := Option.map_eq_some_iff.mp
    (show ((machine [⟨some ['/'], some elmOperation⟩]).run (initial [.zero])
      [(some ⟨['/', '.', '.', '/', 'b'], by decide⟩,
        ⟨true, ⟨fun _ => true, fun _ => 0⟩, true⟩)]).map (fun r => cString r.1.buffer) =
      some (some ['b']) by decide +kernel)
  refine ⟨s, os, hrun, hend, fun h => ?_⟩
  obtain ⟨text, hstring, hnormal, -⟩ := h.string
  obtain rfl := Option.some.inj (hend.symm.trans hstring)
  cases hnormal.eq_path.1

end Workdir
end RtThread
