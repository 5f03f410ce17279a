import RtThread.Finsh.Shell
import RtThread.Kernel.Kservice
import RtThread.Library.CommonPrefix

/-!
# Tab completion

`msh_auto_complete` with `msh_auto_complete_path`, which write into the line behind the
pointer that they are given.
-/
namespace RtThread
open ByteMemory CommonPrefix

namespace MshComplete

def strCommon (str1 str2 : List UInt8) : ℕ := common str1 str2

/-- The name of an entry of the system call table, which the linker has from an identifier. -/
structure SyscallName where
  chars : List UInt8
  identifier : ∀ c ∈ chars, c = 0x5F ∨ 0x30 ≤ c ∧ c ≤ 0x39 ∨ 0x41 ≤ c ∧ c ≤ 0x5A ∨
    0x61 ≤ c ∧ c ≤ 0x7A

/-- The member `d_name` of a directory entry. -/
structure DirentName where
  chars : List UInt8
  nonzero : Nonzero chars
  short : chars.length < 256

/-- What the completion meets. -/
structure CompletionEnv where
  /-- `_syscall_table_begin` to `_syscall_table_end`. -/
  syscalls : List SyscallName
  cwd : List UInt8
  cwd_ne : cwd ≠ []
  /-- `rt_malloc(256)` succeeds. -/
  memory : Bool
  /-- The entries that `opendir` and `readdir` give for a path. -/
  opendir : List UInt8 → Option (List DirentName)

/-- One name of a loop that compares: `min_length` and the first match. -/
def scanName (common : List UInt8 → List UInt8 → ℕ) (typed : List UInt8)
    (r : ℕ × Option (List UInt8)) (name : List UInt8) : ℕ × Option (List UInt8) :=
  if name.take typed.length = typed then
    let r := if r.1 = 0 then (name.length, some name) else r
    let length := common name (r.2.getD [])
    (if length < r.1 then length else r.1, r.2)
  else r

def scanNames (common : List UInt8 → List UInt8 → ℕ) (typed : List UInt8)
    (names : List (List UInt8)) : ℕ × Option (List UInt8) :=
  names.foldl (scanName common typed) (0, none)

/-- Where the part behind the last `/` starts, with the position and what was found so far. -/
def slashLoop (index pos : ℕ) : List UInt8 → ℕ
  | [] => index
  | c :: rest => slashLoop (if c = 0x2F then pos + 1 else index) (pos + 1) rest

def afterSlash (path : List UInt8) : ℕ := slashLoop 0 0 path

section Completion

variable (env : CompletionEnv)

/-- What is put into `full_path` to open the directory. -/
def parentPath (path : List UInt8) : List UInt8 :=
  (if path.head? = some 0x2F then []
    else if env.cwd.getLast? = some 0x2F then env.cwd else env.cwd ++ [0x2F]) ++
    path.take (afterSlash path)

/-- Nothing when the block of 256 bytes overflows. -/
def mshAutoCompletePath (m : Memory) (path : ℕ) : Option Memory :=
  let p := readString m path (2 ^ 32)
  if env.memory = false then some m
  else if 256 ≤ (parentPath env p).length then none
  else
    match env.opendir (parentPath env p) with
    | none => some m
    | some dir =>
      let index := path + afterSlash p
      let typed := p.drop (afterSlash p)
      if typed = [] then some m
      else
        match scanNames (fun name fullPath => strCommon name fullPath) typed
          (dir.map DirentName.chars) with
        | (minLength, fullPath) =>
          -- `memcpy` of so many bytes, and the zero behind them.
          if minLength ≠ 0 then some (strcpy m index ((fullPath.getD []).take minLength))
          else some m

/-- `"__cmd_"` -/
def cmdName : List UInt8 := [0x5F, 0x5F, 0x63, 0x6D, 0x64, 0x5F]

/-- The names of the commands, in the order of the table. -/
def commandNames : List (List UInt8) :=
  (env.syscalls.filter fun s => s.chars.take 6 = cmdName).map fun s => s.chars.drop 6

/-- The last blank behind the first character, searched from a position down. -/
def lastBlank (text : List UInt8) : ℕ → Option ℕ
  | 0 => none
  | i + 1 => if text[i + 1]? = some 0x20 then some (i + 1) else lastBlank text i

/-- The second half of `msh_auto_complete`. -/
def completeCommand (m : Memory) (line : ℕ) : Memory :=
  let typed := readString m line (2 ^ 32)
  match scanNames (fun cmdName namePtr => strCommon namePtr cmdName) typed (commandNames env) with
  | (minLength, some namePtr) => rtStrncpy m line namePtr minLength
  | (_, none) => m

def mshAutoComplete (m : Memory) (line : ℕ) : Option Memory :=
  let text := readString m line (2 ^ 32)
  if text = [] then some m
  else
    (match lastBlank text text.length with
      | some i => mshAutoCompletePath env m (line + i + 1)
      | none => some m).map fun m => completeCommand env m line

end Completion

/-! ## The loop over the names -/

/-- The completion of a text by names: their longest common prefix, if some begin with it. -/
structure Completed (typed : List UInt8) (names : List (List UInt8)) (result : List UInt8) :
    Prop where
  unchanged : (∀ name ∈ names, ¬typed <+: name) → result = typed
  extended : (∃ name ∈ names, typed <+: name) →
    IsLongest {name | name ∈ names ∧ typed <+: name} result

variable {typed : List UInt8} {names : List (List UInt8)} {f : List UInt8 → List UInt8 → ℕ}

theorem Completed.unique {r r' : List UInt8} (h : Completed typed names r)
    (h' : Completed typed names r') : r = r' := by
  by_cases hmatch : ∃ name ∈ names, typed <+: name
  · exact (h.extended hmatch).unique (h'.extended hmatch)
  · have hnone : ∀ name ∈ names, ¬typed <+: name := fun name hname hp => hmatch ⟨name, hname, hp⟩
    rw [h.unchanged hnone, h'.unchanged hnone]

theorem take_eq_iff_begins {name : List UInt8} : name.take typed.length = typed ↔ typed <+: name :=
  ⟨fun h => h ▸ List.take_prefix _ _, fun h => (List.prefix_iff_eq_take.mp h).symm⟩

/-- Names that do not match are passed over. -/
theorem foldl_filter (r : ℕ × Option (List UInt8)) :
    names.foldl (scanName f typed) r =
      (names.filter fun name => name.take typed.length = typed).foldl (scanName f typed) r := by
  induction names generalizing r with
  | nil => rfl
  | cons name names ih =>
    by_cases hname : name.take typed.length = typed
    · rw [List.filter_cons_of_pos (by simpa using hname), List.foldl_cons, List.foldl_cons, ih]
    · rw [List.filter_cons_of_neg (by simpa using hname), List.foldl_cons, ih, scanName,
        if_neg hname]

/-- Behind the first match every other one is compared with it. -/
theorem foldl_matches {first : List UInt8} (hf : ∀ s t, f s t = common t s) (htyped : typed ≠ [])
    (hfirst : typed <+: first) {others : List (List UInt8)} (hothers : ∀ t ∈ others, typed <+: t)
    {k : ℕ} (hk : typed.length ≤ k) :
    others.foldl (scanName f typed) (k, some first) = (commonWith first k others, some first) := by
  have hpos : 0 < typed.length := List.length_pos_iff.mpr htyped
  induction others generalizing k with
  | nil => rfl
  | cons t others ih =>
    have ht : typed <+: t := hothers t List.mem_cons_self
    have hcommon : typed.length ≤ common first t := (prefix_iff_le_common hfirst).mp ht
    have hstep : scanName f typed (k, some first) t = (min k (common first t), some first) := by
      rw [scanName, if_pos (take_eq_iff_begins.mpr ht)]
      simp only [if_neg (show ¬k = 0 by omega), Option.getD_some, hf]
      rw [Nat.min_def]
      split_ifs <;> simp <;> omega
    rw [List.foldl_cons, hstep,
      ih (fun t' ht' => hothers t' (List.mem_cons_of_mem t ht')) (Nat.le_min.mpr ⟨hk, hcommon⟩)]
    rfl

theorem scanNames_none (h : ∀ name ∈ names, ¬typed <+: name) :
    scanNames f typed names = (0, none) := by
  have hfilter : (names.filter fun name => name.take typed.length = typed) = [] := by
    rw [List.filter_eq_nil_iff]
    intro name hname hmatch
    exact h name hname (take_eq_iff_begins.mp (of_decide_eq_true hmatch))
  rw [scanNames, foldl_filter, hfilter, List.foldl_nil]

/-- The loop finds the longest common prefix, as the beginning of the first match. -/
theorem scanNames_some (hf : ∀ s t, f s t = common t s) (htyped : typed ≠ [])
    (h : ∃ name ∈ names, typed <+: name) :
    ∃ minLength first, scanNames f typed names = (minLength, some first) ∧
      minLength ≤ first.length ∧ minLength ≠ 0 ∧
      IsLongest {name | name ∈ names ∧ typed <+: name} (first.take minLength) := by
  have hmem : ∀ name, name ∈ (names.filter fun name => name.take typed.length = typed) ↔
      name ∈ names ∧ typed <+: name := by
    intro name
    rw [List.mem_filter, decide_eq_true_eq, take_eq_iff_begins]
  cases hmatches : names.filter fun name => name.take typed.length = typed with
  | nil =>
    obtain ⟨name, hname⟩ := h
    have hfound := (hmem name).mpr hname
    rw [hmatches] at hfound
    exact absurd hfound List.not_mem_nil
  | cons first others =>
    rw [hmatches] at hmem
    have hprefix : ∀ t ∈ first :: others, typed <+: t := fun t ht => ((hmem t).mp ht).2
    have hfirst : typed <+: first := hprefix first List.mem_cons_self
    have hothers : ∀ t ∈ others, typed <+: t := fun t ht => hprefix t (List.mem_cons_of_mem _ ht)
    have hstart : scanName f typed (0, none) first = (first.length, some first) := by
      rw [scanName, if_pos (take_eq_iff_begins.mpr hfirst)]
      simp [hf, common_self]
    have hmin : typed.length ≤ commonWith first first.length others :=
      le_commonWith.mpr ⟨hfirst.length_le, fun t ht =>
        (prefix_iff_le_common hfirst).mp (hothers t ht)⟩
    have hpos : 0 < typed.length := List.length_pos_iff.mpr htyped
    refine ⟨commonWith first first.length others, first, ?_, commonWith_le, by omega, ?_⟩
    · rw [scanNames, foldl_filter, hmatches, List.foldl_cons, hstart,
        foldl_matches hf htyped hfirst hothers hfirst.length_le]
    · have hset : {name | name ∈ names ∧ typed <+: name} = {t | t ∈ first :: others} :=
        Set.ext fun name => (hmem name).symm
      rw [hset]
      exact isLongest_take first others

/-! ## The parts of the line -/

theorem slashLoop_le {index pos : ℕ} {rest : List UInt8} (h : index ≤ pos) :
    slashLoop index pos rest ≤ pos + rest.length := by
  induction rest generalizing index pos with
  | nil => simpa [slashLoop] using h
  | cons c rest ih =>
    have hrest := @ih (if c = 0x2F then pos + 1 else index) (pos + 1) (by split_ifs <;> omega)
    rw [slashLoop, List.length_cons]
    omega

theorem afterSlash_le (path : List UInt8) : afterSlash path ≤ path.length := by
  have h := @slashLoop_le 0 0 path (Nat.le_refl 0)
  rwa [Nat.zero_add] at h

theorem lastBlank_some {text : List UInt8} {n i : ℕ} (h : lastBlank text n = some i) :
    text[i]? = some 0x20 := by
  induction n with
  | zero => exact absurd h (by simp [lastBlank])
  | succ n ih =>
    rw [lastBlank] at h
    split_ifs at h with hblank
    · exact Option.some.inj h ▸ hblank
    · exact ih h

/-- A command has no blank in its name, so that none begins with a line that has one. -/
theorem not_prefix_command {env : CompletionEnv} {text name : List UInt8}
    (hname : name ∈ commandNames env) (hblank : 0x20 ∈ text) : ¬text <+: name := by
  intro hp
  obtain ⟨s, -, rfl⟩ := List.mem_map.mp hname
  have hmem : (0x20 : UInt8) ∈ s.chars := List.mem_of_mem_drop (hp.subset hblank)
  exact absurd (s.identifier 0x20 hmem) (by decide)

/-- What is completed: what stands before it, the text and the names that may follow. -/
structure Part where
  head : List UInt8
  typed : List UInt8
  names : List (List UInt8)

/-- Behind a blank the last component of a path is completed, by the names in its directory. -/
def pathPart (env : CompletionEnv) (text : List UInt8) (i : ℕ) : Part :=
  let path := text.drop (i + 1)
  ⟨text.take (i + 1 + afterSlash path), path.drop (afterSlash path),
    ((env.opendir (parentPath env path)).getD []).map DirentName.chars⟩

def part (env : CompletionEnv) (text : List UInt8) : Part :=
  match lastBlank text text.length with
  | some i => pathPart env text i
  | none => ⟨[], text, commandNames env⟩

theorem pathPart_text (env : CompletionEnv) (text : List UInt8) (i : ℕ) :
    (pathPart env text i).head ++ (pathPart env text i).typed = text := by
  rw [pathPart]
  simp only [List.drop_drop]
  exact List.take_append_drop _ _

/-- The blank is in what stands before the component. -/
theorem blank_mem_head {env : CompletionEnv} {text : List UInt8} {i : ℕ}
    (h : text[i]? = some 0x20) : 0x20 ∈ (pathPart env text i).head := by
  have htake : (text.take (i + 1 + afterSlash (text.drop (i + 1))))[i]? = some 0x20 := by
    rw [List.getElem?_take_of_lt (by omega), h]
  exact List.mem_of_getElem? htake

variable {env : CompletionEnv} {m : Memory} {line i : ℕ} {text : List UInt8}

/-- A completed text has no zero and is short. -/
theorem nonzero_of_isLongest {r : List UInt8} {dir : List DirentName}
    (h : ∃ name ∈ dir.map DirentName.chars, typed <+: name)
    (hr : IsLongest {name | name ∈ dir.map DirentName.chars ∧ typed <+: name} r) :
    Nonzero r ∧ r.length < 256 := by
  obtain ⟨name, hname, hp⟩ := h
  have hrname : r <+: name := hr.common name ⟨hname, hp⟩
  obtain ⟨entry, -, rfl⟩ := List.mem_map.mp hname
  exact ⟨fun c hc => entry.nonzero c (hrname.subset hc),
    Nat.lt_of_le_of_lt hrname.length_le entry.short⟩

theorem nonzero_of_completed {r : List UInt8} {dir : List DirentName}
    (h : Completed typed (dir.map DirentName.chars) r) (htyped : Nonzero typed) : Nonzero r := by
  by_cases hmatch : ∃ name ∈ dir.map DirentName.chars, typed <+: name
  · exact (nonzero_of_isLongest hmatch (h.extended hmatch)).1
  · rw [h.unchanged fun name hname hp => hmatch ⟨name, hname, hp⟩]
    exact htyped

/-- The directory can be named in the block of 256 bytes, or no block is used. -/
def ParentFits (env : CompletionEnv) (path : List UInt8) : Prop :=
  env.memory = true → (parentPath env path).length < 256

theorem mshAutoCompletePath_overflow (hstring : ByteMemory.CString m line text)
    (hnonzero : Nonzero text) (hlen : text.length < finshCmdSize)
    (h : ¬ParentFits env text) : mshAutoCompletePath env m line = none := by
  rw [ParentFits, Classical.not_imp, Nat.not_lt] at h
  have hread : readString m line (2 ^ 32) = text :=
    readString_eq hstring hnonzero (Nat.lt_trans hlen (by decide))
  simp only [mshAutoCompletePath, hread]
  rw [if_neg (by simp [h.1]), if_pos h.2]

/-- Nothing is completed: the directory is listed, or there is no memory. -/
def Lists (env : CompletionEnv) (q : Part) : Prop := env.memory = false ∨ q.typed = []

/-- What the path completion leaves: the component is completed, unless it is empty or there
is no memory. -/
theorem mshAutoCompletePath_spec (hstring : ByteMemory.CString m line text)
    (hnonzero : Nonzero text) (hlen : text.length < finshCmdSize)
    (hblank : text[i]? = some 0x20) (hfits : ParentFits env (text.drop (i + 1))) :
    ∃ m' r, mshAutoCompletePath env m (line + i + 1) = some m' ∧
      ByteMemory.CString m' line ((pathPart env text i).head ++ r) ∧ Nonzero r ∧ r.length < 256 ∧
      (Lists env (pathPart env text i) → r = (pathPart env text i).typed) ∧
      (¬Lists env (pathPart env text i) →
        Completed (pathPart env text i).typed (pathPart env text i).names r) := by
  have hi : i < text.length := (List.getElem?_eq_some_iff.mp hblank).1
  set path := text.drop (i + 1) with hpath
  set q := pathPart env text i with hq
  have hwhole : q.head ++ q.typed = text := pathPart_text env text i
  have hread : readString m (line + i + 1) (2 ^ 32) = path := by
    have hrest := hstring.drop (show i + 1 ≤ text.length by omega)
    refine readString_eq hrest (fun c hc => hnonzero c (List.mem_of_mem_drop hc)) ?_
    rw [List.length_drop]
    have hsize : finshCmdSize = 80 := rfl
    omega
  have htyped : Nonzero q.typed ∧ q.typed.length < 256 := by
    refine ⟨fun c hc => hnonzero c (hwhole ▸ List.mem_append_right _ hc), ?_⟩
    have hsum := congrArg List.length hwhole
    rw [List.length_append] at hsum
    have hsize : finshCmdSize = 80 := rfl
    omega
  -- The line stays as it is.
  have hkept : ∀ m', m' = m → ByteMemory.CString m' line (q.head ++ q.typed) := by
    rintro _ rfl
    rwa [hwhole]
  simp only [mshAutoCompletePath, hread]
  cases hmemory : env.memory with
  | false =>
    exact ⟨m, q.typed, if_pos rfl, hkept m rfl, htyped.1, htyped.2, fun _ => rfl,
      fun h => absurd (Or.inl hmemory) h⟩
  | true =>
  simp only [Bool.true_eq_false, if_false, if_neg (Nat.not_le.mpr (hfits hmemory))]
  by_cases hempty : q.typed = []
  · have hpart : path.drop (afterSlash path) = [] := hempty
    refine ⟨m, q.typed, ?_, hkept m rfl, htyped.1, htyped.2, fun _ => rfl,
      fun h => absurd (Or.inr hempty) h⟩
    simp only [hpart, if_true]
    split <;> rfl
  have hpart : path.drop (afterSlash path) = q.typed := rfl
  have hcompletes : ¬Lists env q := by simp [Lists, hmemory, hempty]
  cases hdir : env.opendir (parentPath env path) with
  | none =>
    have hnames : q.names = [] := by
      rw [hq, pathPart]
      simp only [← hpath, hdir]
      rfl
    refine ⟨m, q.typed, rfl, hkept m rfl, htyped.1, htyped.2, fun _ => rfl, fun _ =>
      ⟨fun _ => rfl, ?_⟩⟩
    rintro ⟨name, hname, -⟩
    rw [hnames] at hname
    exact absurd hname List.not_mem_nil
  | some dir =>
    have hnames : q.names = dir.map DirentName.chars := by
      rw [hq, pathPart]
      simp only [← hpath, hdir]
      rfl
    simp only [hpart, if_neg hempty, ← hnames]
    by_cases hmatch : ∃ name ∈ q.names, q.typed <+: name
    · obtain ⟨minLength, first, hscan, -, hpos, hlongest⟩ :=
        scanNames_some (f := fun name fullPath => strCommon name fullPath)
          (fun s t => common_comm s t) hempty hmatch
      obtain ⟨hclean, hshort⟩ := nonzero_of_isLongest (hnames ▸ hmatch) (hnames ▸ hlongest)
      rw [hscan]
      simp only [if_pos hpos, Option.getD_some]
      refine ⟨_, first.take minLength, rfl, ?_, hclean, hshort, fun h => absurd h hcompletes,
        fun _ => ⟨fun hnone => absurd hmatch fun ⟨name, hname, hp⟩ => hnone name hname hp,
          fun _ => hlongest⟩⟩
      have hstart : i + 1 + afterSlash path ≤ text.length := by
        have hle := afterSlash_le path
        have hlength : path.length = text.length - (i + 1) := List.length_drop
        omega
      have hover := @strcpy_over m line _ text (first.take minLength) hstring hstart
      have hhead : q.head = text.take (i + 1 + afterSlash path) := rfl
      rw [hhead]
      have haddress : line + i + 1 + afterSlash path = line + (i + 1 + afterSlash path) := by omega
      rwa [haddress]
    · have hnone : ∀ name ∈ q.names, ¬q.typed <+: name := fun name hname hp =>
        hmatch ⟨name, hname, hp⟩
      rw [scanNames_none hnone]
      exact ⟨m, q.typed, rfl, hkept m rfl, htyped.1, htyped.2, fun _ => rfl,
        fun _ => ⟨fun _ => rfl, fun h => absurd h hmatch⟩⟩

/-! ## The commands -/

variable {m' : Memory} {full : List UInt8}

/-- Without a matching command the line stays. -/
theorem completeCommand_none (hstring : ByteMemory.CString m line full) (hnonzero : Nonzero full)
    (hlen : full.length < 2 ^ 32) (h : ∀ name ∈ commandNames env, ¬full <+: name) :
    completeCommand env m line = m := by
  rw [completeCommand]
  simp only [readString_eq hstring hnonzero hlen, scanNames_none h]

/-- The longest common prefix is copied over the line, without a zero behind it. -/
theorem completeCommand_some (hstring : ByteMemory.CString m line full) (hnonzero : Nonzero full)
    (hlen : full.length < 2 ^ 32) (hfull : full ≠ [])
    (h : ∃ name ∈ commandNames env, full <+: name) :
    ∃ r, IsLongest {name | name ∈ commandNames env ∧ full <+: name} r ∧
      Holds (completeCommand env m line) line r ∧
      completeCommand env m line (line + r.length) = m (line + r.length) := by
  obtain ⟨minLength, first, hscan, hle, -, hlongest⟩ :=
    scanNames_some (f := fun cmdName namePtr => strCommon namePtr cmdName) (fun _ _ => rfl) hfull h
  have hcopy : completeCommand env m line = rtStrncpy m line first minLength := by
    rw [completeCommand]
    simp only [readString_eq hstring hnonzero hlen, hscan]
  refine ⟨first.take minLength, hlongest, hcopy ▸ rtStrncpy_holds, ?_⟩
  rw [hcopy, List.length_take_of_le hle]
  exact rtStrncpy_outside (Or.inr (Nat.le_refl _))

/-- The characters of a command are not zero. -/
theorem nonzero_of_command {r : List UInt8}
    (h : ∃ name ∈ commandNames env, full <+: name)
    (hr : IsLongest {name | name ∈ commandNames env ∧ full <+: name} r) : Nonzero r := by
  obtain ⟨name, hname, hp⟩ := h
  have hrname : r <+: name := hr.common name ⟨hname, hp⟩
  obtain ⟨s, -, rfl⟩ := List.mem_map.mp hname
  intro c hc hzero
  have hmem : c ∈ s.chars := List.mem_of_mem_drop (hrname.subset hc)
  exact absurd (s.identifier c hmem) (by rw [hzero]; decide)

/-! ## The whole completion -/

/-- After the completion the line is what stands before the part and the part completed, and
fits in its buffer. -/
def Completes (env : CompletionEnv) (m : Memory) (line : ℕ) (text : List UInt8) : Prop :=
  ∃ m' r, mshAutoComplete env m line = some m' ∧
    Completed (part env text).typed (part env text).names r ∧
    ByteMemory.CString m' line ((part env text).head ++ r) ∧
    ((part env text).head ++ r).length < finshCmdSize

/-- The matching names and the line leave room for their longest common prefix. -/
def RoomFor (q : Part) (P : List UInt8 → Prop) : Prop :=
  ∀ r, IsLongest {name | name ∈ q.names ∧ q.typed <+: name} r →
    (q.head ++ r).length < finshCmdSize ∧ P r

/-- When the completion goes right. -/
def GoesRight (env : CompletionEnv) (m : Memory) (line : ℕ) (text : List UInt8) : Prop :=
  match lastBlank text text.length with
  | some i =>
    ParentFits env (text.drop (i + 1)) ∧
      (Completed (part env text).typed (part env text).names (part env text).typed ∨
        ¬Lists env (part env text) ∧ RoomFor (part env text) fun _ => True)
  | none =>
    Completed text (commandNames env) text ∨
      text ≠ [] ∧ RoomFor (part env text) fun r => m (line + r.length) = 0

/-- A line with a blank is completed by its path alone. -/
theorem completes_path_iff (hstring : ByteMemory.CString m line text) (hnonzero : Nonzero text)
    (hlen : text.length < finshCmdSize) (hlast : lastBlank text text.length = some i) :
    Completes env m line text ↔ GoesRight env m line text := by
  have hblank := lastBlank_some hlast
  have hread : readString m line (2 ^ 32) = text :=
    readString_eq hstring hnonzero (Nat.lt_trans hlen (by decide))
  have htext : text ≠ [] := by
    rintro rfl
    exact absurd hblank (by simp)
  have hpart : part env text = pathPart env text i := by
    rw [part, hlast]
  have hrun : mshAutoComplete env m line = (mshAutoCompletePath env m (line + i + 1)).map
      fun m => completeCommand env m line := by
    rw [mshAutoComplete]
    simp only [hread, if_neg htext, hlast]
  rw [GoesRight, hlast]
  simp only [Completes, hpart]
  set q := pathPart env text i with hq
  have hwhole : q.head ++ q.typed = text := pathPart_text env text i
  by_cases hfits : ParentFits env (text.drop (i + 1))
  swap
  · -- The block overflows.
    have hrest : mshAutoCompletePath env m (line + i + 1) = none := by
      have hi : i < text.length := (List.getElem?_eq_some_iff.mp hblank).1
      have hshort : (text.drop (i + 1)).length < finshCmdSize := by
        rw [List.length_drop]
        omega
      exact mshAutoCompletePath_overflow (hstring.drop hi)
        (fun c hc => hnonzero c (List.mem_of_mem_drop hc)) hshort hfits
    refine iff_of_false ?_ fun h => hfits h.1
    rintro ⟨m', r, hresult, -⟩
    rw [hrun, hrest] at hresult
    exact absurd hresult (by simp)
  obtain ⟨m₁, r, hpath, hline, hclean, hshort, hlists, hcompletes⟩ :=
    mshAutoCompletePath_spec hstring hnonzero hlen hblank hfits
  rw [← hq] at hline hlists hcompletes
  have hnonzero' : Nonzero (q.head ++ r) := fun c hc =>
    (List.mem_append.mp hc).elim
      (fun hc => hnonzero c (hwhole ▸ List.mem_append_left _ hc)) (hclean c)
  have hheadlen : q.head.length ≤ text.length := by
    rw [← hwhole, List.length_append]
    exact Nat.le_add_right _ _
  have hlen' : (q.head ++ r).length < 2 ^ 32 := by
    have hsize : finshCmdSize = 80 := rfl
    rw [List.length_append]
    omega
  -- No command begins with the line, which has a blank.
  have hdone : mshAutoComplete env m line = some m₁ := by
    rw [hrun, hpath, Option.map_some, completeCommand_none hline hnonzero' hlen']
    exact fun name hname =>
      not_prefix_command hname (List.mem_append_left _ (blank_mem_head hblank))
  rw [and_iff_right hfits]
  constructor
  · rintro ⟨m', r', hresult, hcompleted, hstring', hfit⟩
    obtain rfl : m₁ = m' := Option.some.inj (hdone.symm.trans hresult)
    have hclean' : Nonzero (q.head ++ r') := fun c hc =>
      (List.mem_append.mp hc).elim (fun hc => hnonzero c (hwhole ▸ List.mem_append_left _ hc))
        (nonzero_of_completed hcompleted
          (fun c hc => hnonzero c (hwhole ▸ List.mem_append_right _ hc)) c)
    obtain rfl : r = r' := List.append_cancel_left (cString_unique hline hnonzero' hstring' hclean')
    by_cases hmatch : ∃ name ∈ q.names, q.typed <+: name
    · by_cases hlisted : Lists env q
      · exact Or.inl (hlists hlisted ▸ hcompleted)
      · refine Or.inr ⟨hlisted, fun r' hr' => ⟨?_, trivial⟩⟩
        rwa [hr'.unique (hcompleted.extended hmatch)]
    · exact Or.inl ⟨fun _ => rfl, fun h => absurd h hmatch⟩
  · intro hright
    have hcompleted : Completed q.typed q.names r := by
      by_cases hlisted : Lists env q
      · rw [hlists hlisted]
        exact hright.elim id fun h => absurd hlisted h.1
      · exact hcompletes hlisted
    refine ⟨m₁, r, hdone, hcompleted, hline, ?_⟩
    by_cases hsame : r = q.typed
    · rwa [hsame, hwhole]
    · have hmatch : ∃ name ∈ q.names, q.typed <+: name := by
        by_contra hnone
        exact hsame (hcompleted.unchanged fun name hname hp => hnone ⟨name, hname, hp⟩)
      rcases hright with hright | ⟨-, hroom⟩
      · exact absurd (hcompleted.unique hright) hsame
      · exact (hroom r (hcompleted.extended hmatch)).1

/-- A line without a blank is completed as a command. -/
theorem completes_command_iff (hstring : ByteMemory.CString m line text)
    (hnonzero : Nonzero text) (hlen : text.length < finshCmdSize)
    (hlast : lastBlank text text.length = none) :
    Completes env m line text ↔ GoesRight env m line text := by
  have hread : readString m line (2 ^ 32) = text :=
    readString_eq hstring hnonzero (Nat.lt_trans hlen (by decide))
  have hpart : part env text = ⟨[], text, commandNames env⟩ := by
    rw [part, hlast]
  rw [GoesRight, hlast]
  simp only [Completes, RoomFor, hpart, List.nil_append]
  by_cases hmatch : ∃ name ∈ commandNames env, text <+: name
  swap
  · -- Nothing matches, and the line stays.
    have hnone : ∀ name ∈ commandNames env, ¬text <+: name := fun name hname hp =>
      hmatch ⟨name, hname, hp⟩
    have hsame : Completed text (commandNames env) text := ⟨fun _ => rfl, fun h => absurd h hmatch⟩
    have hdone : mshAutoComplete env m line = some m := by
      rw [mshAutoComplete]
      simp only [hread, hlast, Option.map_some,
        completeCommand_none hstring hnonzero (Nat.lt_trans hlen (by decide)) hnone, ite_self]
    exact iff_of_true ⟨m, text, hdone, hsame, hstring, hlen⟩ (Or.inl hsame)
  by_cases hempty : text = []
  · -- The commands are listed.
    have hdone : mshAutoComplete env m line = some m := by
      rw [mshAutoComplete]
      simp only [hread, if_pos hempty]
    rw [or_iff_left fun h => h.1 hempty]
    constructor
    · rintro ⟨m', r, hresult, hcompleted, hstring', -⟩
      obtain rfl : m = m' := Option.some.inj (hdone.symm.trans hresult)
      have hclean := nonzero_of_command hmatch (hcompleted.extended hmatch)
      obtain rfl := cString_unique hstring hnonzero hstring' hclean
      exact hcompleted
    · exact fun hsame => ⟨m, text, hdone, hsame, hstring, hlen⟩
  obtain ⟨r, hlongest, hholds, hbehind⟩ := completeCommand_some hstring hnonzero
    (Nat.lt_trans hlen (by decide)) hempty hmatch
  have hdone : mshAutoComplete env m line = some (completeCommand env m line) := by
    rw [mshAutoComplete]
    simp only [hread, if_neg hempty, hlast, Option.map_some]
  constructor
  · rintro ⟨m', r', hresult, hcompleted, hstring', hfit⟩
    obtain rfl : completeCommand env m line = m' := Option.some.inj (hdone.symm.trans hresult)
    obtain rfl := hlongest.unique (hcompleted.extended hmatch)
    refine Or.inr ⟨hempty, fun r' hr' => ?_⟩
    rw [hr'.unique hlongest, ← hbehind]
    exact ⟨hfit, hstring'.2⟩
  · intro hright
    have hroom : r.length < finshCmdSize ∧ m (line + r.length) = 0 := by
      rcases hright with hsame | ⟨-, hroom⟩
      · rw [hlongest.unique (hsame.extended hmatch)]
        exact ⟨hlen, hstring.2⟩
      · exact hroom r hlongest
    exact ⟨_, r, hdone, ⟨fun hnone => absurd hmatch fun ⟨name, hname, hp⟩ => hnone name hname hp,
      fun _ => hlongest⟩, ⟨hholds, hbehind.trans hroom.2⟩, hroom.1⟩

/-- For every line the completion goes right under exactly these conditions. -/
theorem completion_iff (env : CompletionEnv) (hstring : ByteMemory.CString m line text)
    (hnonzero : Nonzero text) (hlen : text.length < finshCmdSize) :
    Completes env m line text ↔ GoesRight env m line text := by
  cases hlast : lastBlank text text.length with
  | none => exact completes_command_iff hstring hnonzero hlen hlast
  | some i => exact completes_path_iff hstring hnonzero hlen hlast

section Samples

/-- The command `ls` and a directory with one long name. -/
def sampleEnv : CompletionEnv where
  syscalls := [⟨[0x5F, 0x5F, 0x63, 0x6D, 0x64, 0x5F, 0x6C, 0x73], by decide +kernel⟩]
  cwd := [0x2F]
  cwd_ne := by decide
  memory := true
  opendir _ := some [⟨List.replicate 100 0x61, by decide +kernel, by decide +kernel⟩]

/-- The line at address 0. -/
def lineMemory (text : List UInt8) : Memory := fun a => text.getD a 0

theorem completion_iff_l :
    Completes sampleEnv (lineMemory [0x6C]) 0 [0x6C] ↔
      GoesRight sampleEnv (lineMemory [0x6C]) 0 [0x6C] :=
  completion_iff sampleEnv (by decide +kernel) (by decide +kernel) (by decide)

/-- `ls a` is completed by a name of 100 characters. -/
theorem long_name_overflows_line :
    ByteMemory.CString (lineMemory [0x6C, 0x73, 0x20, 0x61]) 0 [0x6C, 0x73, 0x20, 0x61] ∧
      ¬Completes sampleEnv (lineMemory [0x6C, 0x73, 0x20, 0x61]) 0 [0x6C, 0x73, 0x20, 0x61] := by
  have hstring : ByteMemory.CString (lineMemory [0x6C, 0x73, 0x20, 0x61]) 0
      [0x6C, 0x73, 0x20, 0x61] := by decide
  have hlast : lastBlank [0x6C, 0x73, 0x20, 0x61] 4 = some 2 := by decide
  set long : List UInt8 := List.replicate 100 0x61 with hlong
  have hpart : part sampleEnv [0x6C, 0x73, 0x20, 0x61] =
      ⟨[0x6C, 0x73, 0x20], [0x61], [long]⟩ := rfl
  have hlength : long.length = 100 := List.length_replicate
  have hbegins : [0x61] <+: long := ⟨List.replicate 99 0x61, rfl⟩
  have hlongest : IsLongest {name | name ∈ [long] ∧ [0x61] <+: name} long :=
    ⟨fun s hs => List.mem_singleton.mp hs.1 ▸ List.prefix_refl _,
      fun l hl => hl long ⟨List.mem_singleton_self _, hbegins⟩⟩
  refine ⟨hstring, fun hcompletes => ?_⟩
  have hright := (completes_path_iff hstring (by decide +kernel) (by decide) hlast).mp hcompletes
  rw [GoesRight, show lastBlank [0x6C, 0x73, 0x20, 0x61] [(0x6C : UInt8), 0x73, 0x20, 0x61].length =
    some 2 from hlast, hpart] at hright
  rcases hright.2 with hsame | ⟨-, hroom⟩
  · have heq := hlongest.unique
      (hsame.extended ⟨long, List.mem_singleton_self _, hbegins⟩)
    exact absurd (congrArg List.length heq) (by rw [hlength]; decide)
  · have hfit := (hroom long hlongest).1
    rw [List.length_append, hlength] at hfit
    exact absurd hfit (by decide)

end Samples

end MshComplete
end RtThread
