import RtThread.Library.CStrings

/-!
# Splitting a command line

`msh_split` over the bytes of the line and the cells of `argv`. It cuts the line in
place: the blanks behind a word and the quote behind a string become zeros.
-/
namespace RtThread
open ByteMemory

namespace Msh

def rtFinshArgMax : ℕ := 10

def quote : UInt8 := 0x22
def backslash : UInt8 := 0x5C

/-- A blank or a tab. -/
def isBlank (c : UInt8) : Bool := c == 0x20 || c == 0x09

/-- The variables of `msh_split`; `ptr` is `cmd + position` throughout. -/
structure SplitState where
  mem : Memory
  /-- The cells from `argv` on, those behind the array included. -/
  argv : ℕ → ℕ
  argc : ℕ
  position : ℕ

section Loops

variable (cmd length : ℕ)

/-- The loop that strips blanks and tabs. -/
def stripBlanks (mem : Memory) (position : ℕ) : Memory × ℕ :=
  if isBlank (mem (cmd + position)) = true ∧ position < length then
    stripBlanks (Function.update mem (cmd + position) 0) (position + 1)
  else (mem, position)
termination_by length - position

/-- The loop that skips a string. -/
def skipString (mem : Memory) (position : ℕ) : ℕ :=
  if mem (cmd + position) ≠ quote ∧ position < length then
    if mem (cmd + position) = backslash ∧ mem (cmd + position + 1) = quote then
      skipString mem (position + 2)
    else skipString mem (position + 1)
  else position
termination_by length - position

/-- The loop that skips a word. -/
def skipWord (mem : Memory) (position : ℕ) : ℕ :=
  if isBlank (mem (cmd + position)) = false ∧ position < length then
    skipWord mem (position + 1)
  else position
termination_by length - position

/-- The outer loop. -/
def mshSplitFrom : ℕ → SplitState → Option SplitState
  | 0, _ => none
  | fuel + 1, st =>
    if st.position < length then
      let (mem, position) := stripBlanks cmd length st.mem st.position
      if length ≤ position then some { st with mem := mem, position := position }
      else if mem (cmd + position) = quote then
        let argv := Function.update st.argv st.argc (cmd + (position + 1))
        let position := skipString cmd length mem (position + 1)
        if length ≤ position then some ⟨mem, argv, st.argc + 1, position⟩
        else mshSplitFrom fuel
          ⟨Function.update mem (cmd + position) 0, argv, st.argc + 1, position + 1⟩
      else
        let argv := Function.update st.argv st.argc (cmd + position)
        let position := skipWord cmd length mem position
        if length ≤ position then some ⟨mem, argv, st.argc + 1, position⟩
        else mshSplitFrom fuel ⟨mem, argv, st.argc + 1, position⟩
    else some st

/-- `msh_split`: the memory and the cells that it leaves, and what it returns. -/
def mshSplit (mem : Memory) (argv : ℕ → ℕ) : Option SplitState :=
  mshSplitFrom cmd length (length + 1) ⟨mem, argv, 0, 0⟩

end Loops

/-! ## What a line says -/

/-- What follows an opening quote: the content of the string, and what follows the closing
quote if there is one. -/
inductive Quoted : List UInt8 → List UInt8 → Option (List UInt8) → Prop
  | unterminated : Quoted [] [] none
  | close (s : List UInt8) : Quoted (quote :: s) [] (some s)
  | escaped {s body : List UInt8} {rest : Option (List UInt8)} (h : Quoted s body rest) :
      Quoted (backslash :: quote :: s) (backslash :: quote :: body) rest
  | plain {c : UInt8} {s body : List UInt8} {rest : Option (List UInt8)} (hc : c ≠ quote)
      (hescape : ¬(c = backslash ∧ s.head? = some quote)) (h : Quoted s body rest) :
      Quoted (c :: s) (c :: body) rest

/-- The arguments in a line, from a place between two of them on. -/
inductive Arguments : List UInt8 → List (List UInt8) → Prop
  | nil : Arguments [] []
  | blank {c : UInt8} {s : List UInt8} {args : List (List UInt8)} (hc : isBlank c = true)
      (h : Arguments s args) : Arguments (c :: s) args
  /-- A maximal run of non-blank characters that no quote opens. -/
  | word {c : UInt8} {w s : List UInt8} {args : List (List UInt8)} (hquote : c ≠ quote)
      (hword : ∀ d ∈ c :: w, isBlank d = false) (hmax : ∀ d ∈ s.head?, isBlank d = true)
      (h : Arguments s args) : Arguments (c :: w ++ s) ((c :: w) :: args)
  | string {s body rest : List UInt8} {args : List (List UInt8)}
      (hquoted : Quoted s body (some rest)) (h : Arguments rest args) :
      Arguments (quote :: s) (body :: args)
  | unterminated {s body : List UInt8} (hquoted : Quoted s body none) :
      Arguments (quote :: s) [body]

theorem exists_quoted : ∀ s : List UInt8, ∃ body rest, Quoted s body rest
  | [] => ⟨[], none, .unterminated⟩
  | [c] => by
    by_cases hc : c = quote
    · exact ⟨[], some [], hc ▸ .close []⟩
    · exact ⟨[c], none, .plain hc (by simp) .unterminated⟩
  | c :: d :: s => by
    obtain ⟨body, rest, h⟩ := exists_quoted (d :: s)
    obtain ⟨body', rest', h'⟩ := exists_quoted s
    by_cases hc : c = quote
    · exact ⟨[], some (d :: s), hc ▸ .close _⟩
    · by_cases hescape : c = backslash ∧ d = quote
      · obtain ⟨rfl, rfl⟩ := hescape
        exact ⟨_, _, .escaped h'⟩
      · exact ⟨_, _, .plain hc (by simpa using hescape) h⟩

namespace Quoted

variable {s body body' : List UInt8} {rest rest' : Option (List UInt8)}

/-- The string is the text up to the closing quote. -/
theorem text_eq (h : Quoted s body rest) :
    s = body ++ rest.elim [] fun r => quote :: r := by
  induction h with
  | unterminated => rfl
  | close s => rfl
  | escaped _ ih => rw [ih]; rfl
  | plain _ _ _ ih => rw [ih]; rfl

theorem unique (h : Quoted s body rest) (h' : Quoted s body' rest') :
    body = body' ∧ rest = rest' := by
  induction h generalizing body' with
  | unterminated => cases h'; exact ⟨rfl, rfl⟩
  | close s =>
    cases h' with
    | close => exact ⟨rfl, rfl⟩
    | plain hc _ _ => exact absurd rfl hc
  | escaped _ ih =>
    cases h' with
    | escaped h' =>
      obtain ⟨rfl, rfl⟩ := ih h'
      exact ⟨rfl, rfl⟩
    | plain _ hescape _ => exact absurd ⟨rfl, rfl⟩ hescape
  | plain hc hescape _ ih =>
    cases h' with
    | close => exact absurd rfl hc
    | escaped h' => exact absurd ⟨rfl, rfl⟩ hescape
    | plain _ _ h' =>
      obtain ⟨rfl, rfl⟩ := ih h'
      exact ⟨rfl, rfl⟩

end Quoted

/-- A maximal run ends in one place. -/
theorem run_unique {w w' s s' : List UInt8} (h : w ++ s = w' ++ s')
    (hw : ∀ d ∈ w, isBlank d = false) (hw' : ∀ d ∈ w', isBlank d = false)
    (hs : ∀ d ∈ s.head?, isBlank d = true) (hs' : ∀ d ∈ s'.head?, isBlank d = true) :
    w = w' ∧ s = s' := by
  induction w generalizing w' with
  | nil =>
    cases w' with
    | nil => exact ⟨rfl, h⟩
    | cons d w' =>
      have hd := hs d (by simp [show s = d :: (w' ++ s') from h])
      rw [hw' d List.mem_cons_self] at hd
      exact absurd hd Bool.false_ne_true
  | cons c w ih =>
    cases w' with
    | nil =>
      have hc := hs' c (by simp [← show c :: (w ++ s) = s' from h])
      rw [hw c List.mem_cons_self] at hc
      exact absurd hc Bool.false_ne_true
    | cons d w' =>
      obtain ⟨rfl, htail⟩ := List.cons.inj h
      obtain ⟨rfl, rfl⟩ := ih htail (fun d hd => hw d (List.mem_cons_of_mem _ hd))
        fun d hd => hw' d (List.mem_cons_of_mem _ hd)
      exact ⟨rfl, rfl⟩

theorem isBlank_quote : isBlank quote = false := rfl

/-- A line says one list of arguments. -/
theorem Arguments.unique {s s' : List UInt8} {args args' : List (List UInt8)}
    (h : Arguments s args) (h' : Arguments s' args') (hs : s = s') : args = args' := by
  induction h generalizing s' args' with
  | nil => cases h' <;> simp at hs ⊢
  | blank hc _ ih =>
    cases h' with
    | nil => simp at hs
    | blank _ h' => exact ih h' (List.cons.inj hs).2
    | word _ hword' _ _ =>
      obtain ⟨rfl, -⟩ := List.cons.inj hs
      simp [hc] at hword'
    | string _ _ =>
      obtain ⟨rfl, -⟩ := List.cons.inj hs
      simp [isBlank_quote] at hc
    | unterminated _ =>
      obtain ⟨rfl, -⟩ := List.cons.inj hs
      simp [isBlank_quote] at hc
  | word hquote hword hmax _ ih =>
    cases h' with
    | nil => simp at hs
    | blank hc' _ =>
      obtain ⟨rfl, -⟩ := List.cons.inj hs
      simp [hc'] at hword
    | word _ hword' hmax' h' =>
      obtain ⟨hw, rfl⟩ := run_unique hs hword hword' hmax hmax'
      rw [hw, ih h' rfl]
    | string _ _ => exact absurd (List.cons.inj hs).1 hquote
    | unterminated _ => exact absurd (List.cons.inj hs).1 hquote
  | string hquoted _ ih =>
    cases h' with
    | nil => simp at hs
    | blank hc' _ =>
      obtain ⟨rfl, -⟩ := List.cons.inj hs
      simp [isBlank_quote] at hc'
    | word hquote' _ _ _ => exact absurd (List.cons.inj hs).1.symm hquote'
    | string hquoted' h' =>
      obtain ⟨-, rfl⟩ := List.cons.inj hs
      obtain ⟨rfl, hrest⟩ := hquoted.unique hquoted'
      rw [ih h' (Option.some.inj hrest)]
    | unterminated hquoted' =>
      obtain ⟨-, rfl⟩ := List.cons.inj hs
      exact absurd (hquoted.unique hquoted').2 (by simp)
  | unterminated hquoted =>
    cases h' with
    | nil => simp at hs
    | blank hc' _ =>
      obtain ⟨rfl, -⟩ := List.cons.inj hs
      simp [isBlank_quote] at hc'
    | word hquote' _ _ _ => exact absurd (List.cons.inj hs).1.symm hquote'
    | string hquoted' h' =>
      obtain ⟨-, rfl⟩ := List.cons.inj hs
      exact absurd (hquoted.unique hquoted').2 (by simp)
    | unterminated hquoted' =>
      obtain ⟨-, rfl⟩ := List.cons.inj hs
      rw [(hquoted.unique hquoted').1]

/-! ## The loops -/

section LoopSpecs

variable {cmd length : ℕ} {mem : Memory}

/-- The blanks in front are stripped. -/
theorem stripBlanks_eq {s : List UInt8} {position : ℕ} (hs : Holds mem (cmd + position) s)
    (hlen : position + s.length = length) :
    ∃ blanks rest, s = blanks ++ rest ∧ (∀ d ∈ blanks, isBlank d = true) ∧
      (∀ d ∈ rest.head?, isBlank d = false) ∧
      stripBlanks cmd length mem position =
        (fill mem (cmd + position) 0 blanks.length, position + blanks.length) := by
  induction s generalizing mem position with
  | nil =>
    rw [List.length_nil] at hlen
    refine ⟨[], [], rfl, by simp, by simp, ?_⟩
    rw [stripBlanks, if_neg (by omega)]
    simp
  | cons c s ih =>
    rw [List.length_cons] at hlen
    rw [stripBlanks, hs.1]
    by_cases hc : isBlank c = true
    · rw [if_pos ⟨hc, by omega⟩]
      have hs' : Holds (Function.update mem (cmd + position) 0) (cmd + (position + 1)) s :=
        hs.2.congr fun i hi _ => Function.update_of_ne (by omega) ..
      obtain ⟨blanks, rest, rfl, hblanks, hrest, heq⟩ := ih hs' (by omega)
      refine ⟨c :: blanks, rest, rfl, by simpa [hc] using hblanks, hrest, ?_⟩
      rw [heq, ← Nat.add_assoc cmd, fill_update_before, List.length_cons, Nat.add_right_comm,
        Nat.add_assoc position]
    · rw [if_neg (fun h => hc h.1)]
      exact ⟨[], c :: s, rfl, by simp, by simpa using hc, by simp⟩

/-- A word is skipped up to the blank behind it. -/
theorem skipWord_eq {s : List UInt8} {position : ℕ} (hs : Holds mem (cmd + position) s)
    (hlen : position + s.length = length) :
    ∃ w rest, s = w ++ rest ∧ (∀ d ∈ w, isBlank d = false) ∧
      (∀ d ∈ rest.head?, isBlank d = true) ∧
      skipWord cmd length mem position = position + w.length := by
  induction s generalizing position with
  | nil =>
    rw [List.length_nil] at hlen
    refine ⟨[], [], rfl, by simp, by simp, ?_⟩
    rw [skipWord, if_neg (by omega)]
    rfl
  | cons c s ih =>
    rw [List.length_cons] at hlen
    rw [skipWord, hs.1]
    by_cases hc : isBlank c = false
    · have hs' : Holds mem (cmd + (position + 1)) s := hs.2
      rw [if_pos ⟨hc, by omega⟩]
      obtain ⟨w, rest, rfl, hw, hrest, heq⟩ := ih hs' (by omega)
      refine ⟨c :: w, rest, rfl, by simpa [hc] using hw, hrest, ?_⟩
      rw [heq, List.length_cons]
      omega
    · rw [if_neg (fun h => hc h.1)]
      exact ⟨[], c :: s, rfl, by simp, by simpa using hc, rfl⟩

/-- A string is skipped up to the quote that closes it. -/
theorem skipString_eq {s body : List UInt8} {rest : Option (List UInt8)} {position : ℕ}
    (h : Quoted s body rest) (hs : Holds mem (cmd + position) s)
    (hlen : position + s.length = length) (hend : mem (cmd + length) = 0) :
    skipString cmd length mem position = position + body.length := by
  induction h generalizing position with
  | unterminated =>
    rw [List.length_nil] at hlen
    rw [skipString, if_neg (by omega)]
    rfl
  | close s =>
    rw [skipString, if_neg (by simp [hs.1])]
    rfl
  | @escaped s _ _ _ ih =>
    rw [List.length_cons, List.length_cons] at hlen
    obtain ⟨hc, hd, hs⟩ := hs
    have hne : mem (cmd + position) ≠ quote := by rw [hc]; decide
    have hs' : Holds mem (cmd + (position + 2)) s := hs
    have hrest := ih hs' (by omega)
    have hlt : position < length := by omega
    rw [skipString, if_pos ⟨hne, hlt⟩, if_pos ⟨hc, hd⟩, hrest, List.length_cons,
      List.length_cons]
    omega
  | @plain c s _ _ hc hescape _ ih =>
    rw [List.length_cons] at hlen
    have hnext : ¬(mem (cmd + position) = backslash ∧ mem (cmd + position + 1) = quote) := by
      rintro ⟨hb, hq⟩
      rw [hs.1] at hb
      cases s with
      | nil =>
        rw [show cmd + position + 1 = cmd + length by simp at hlen; omega, hend] at hq
        exact absurd hq (by decide)
      | cons d s => exact hescape ⟨hb, congrArg some (hs.2.1.symm.trans hq)⟩
    have hs' : Holds mem (cmd + (position + 1)) s := hs.2
    rw [skipString, if_pos ⟨by rwa [hs.1], by omega⟩, if_neg hnext, ih hs' (by omega),
      List.length_cons]
    omega

end LoopSpecs

/-! ## The whole line -/

/-- What the outer loop does from a state with `s` still to read: it adds these arguments. -/
structure Cuts (cmd length : ℕ) (s : List UInt8) (st st' : SplitState)
    (args : List (List UInt8)) : Prop where
  argc_eq : st'.argc = st.argc + args.length
  cells : ∀ i, i < st.argc ∨ st'.argc ≤ i → st'.argv i = st.argv i
  inLine : ∀ i, st.argc ≤ i → i < st'.argc → cmd ≤ st'.argv i ∧ st'.argv i ≤ cmd + length
  outside : ∀ a, a < cmd + st.position ∨ cmd + length ≤ a → st'.mem a = st.mem a
  strings : ∀ i (h : i < args.length), CString st'.mem (st'.argv (st.argc + i)) args[i]
  /-- A blank at the place becomes the end of what is in front of it. -/
  cut : ∀ c ∈ s.head?, isBlank c = true → st'.mem (cmd + st.position) = 0

namespace Cuts

variable {cmd length : ℕ} {s blanks rest w : List UInt8} {st st₁ st' : SplitState}
  {args : List (List UInt8)} {p : ℕ}

theorem refl (cmd length : ℕ) (st : SplitState) : Cuts cmd length [] st st [] :=
  ⟨rfl, fun _ _ => rfl, fun _ h h' => absurd h (Nat.not_le.mpr h'), fun _ _ => rfl,
    fun _ h => absurd h (by simp), by simp⟩

/-- One argument, and those that follow it. -/
theorem cons (h : Cuts cmd length rest st₁ st' args) (hargc : st₁.argc = st.argc + 1)
    (hargv : st₁.argv = Function.update st.argv st.argc p) (hp : cmd ≤ p ∧ p ≤ cmd + length)
    (hpos : st.position ≤ st₁.position)
    (hmem : ∀ a, a < cmd + st.position ∨ cmd + length ≤ a → st₁.mem a = st.mem a)
    (hw : CString st'.mem p w) (hs : ∀ c ∈ s.head?, isBlank c = false) :
    Cuts cmd length s st st' (w :: args) := by
  have hargc' := h.argc_eq
  have hat : st'.argv st.argc = p := by
    rw [h.cells _ (by omega), hargv, Function.update_self]
  refine ⟨by rw [List.length_cons]; omega, fun i hi => ?_, fun i hi hi' => ?_, fun a ha => ?_,
    fun i hi => ?_, fun c hc hblank => ?_⟩
  · rw [h.cells i (by omega), hargv, Function.update_of_ne (by omega)]
  · rcases Nat.eq_or_lt_of_le hi with rfl | hi
    · rwa [hat]
    · exact h.inLine i (by omega) hi'
  · rw [h.outside a (by omega), hmem a ha]
  · cases i with
    | zero => exact hat.symm ▸ hw
    | succ i =>
      have hi := h.strings i (by simpa using hi)
      rwa [hargc, Nat.add_assoc, Nat.add_comm 1] at hi
  · rw [hs c hc] at hblank
    exact absurd hblank Bool.false_ne_true

/-- Blanks in front of the arguments. -/
theorem of_blanks (h : Cuts cmd length rest
      { st with mem := fill st.mem (cmd + st.position) 0 blanks.length,
                position := st.position + blanks.length } st' args)
    (hlen : st.position + blanks.length ≤ length)
    (hrest : ∀ d ∈ rest.head?, isBlank d = false) :
    Cuts cmd length (blanks ++ rest) st st' args := by
  refine ⟨h.argc_eq, h.cells, h.inLine, fun a ha => ?_, h.strings, fun c hc hblank => ?_⟩
  · rw [h.outside a (by simp only; omega)]
    exact fill_outside _ _ (by omega)
  · cases blanks with
    | nil =>
      rw [hrest c hc] at hblank
      exact absurd hblank Bool.false_ne_true
    | cons b blanks =>
      rw [List.length_cons] at h
      rw [h.outside _ (by simp only; omega)]
      exact fill_inside _ _ (Nat.le_refl _) (by omega)

end Cuts

theorem Arguments.of_blanks {blanks rest : List UInt8} {args : List (List UInt8)}
    (hblanks : ∀ d ∈ blanks, isBlank d = true) (h : Arguments rest args) :
    Arguments (blanks ++ rest) args := by
  induction blanks with
  | nil => exact h
  | cons b blanks ih =>
    exact .blank (hblanks b List.mem_cons_self) (ih fun d hd => hblanks d (List.mem_cons_of_mem b hd))

/-- With so much fuel the outer loop cuts what is left of the line. -/
def RunsOn (cmd length fuel : ℕ) : Prop :=
  ∀ (s : List UInt8) (st : SplitState), Holds st.mem (cmd + st.position) s →
    st.position + s.length = length → st.mem (cmd + length) = 0 → s.length < fuel →
    ∃ st' args, mshSplitFrom cmd length fuel st = some st' ∧ Arguments s args ∧
      Cuts cmd length s st st' args

section Rounds

variable {cmd length fuel argc position : ℕ} {argv : ℕ → ℕ} {mem : Memory} {s : List UInt8}

theorem string_cuts (ih : RunsOn cmd length fuel) (hs : Holds mem (cmd + position) (quote :: s))
    (hlen : position + (s.length + 1) = length) (hend : mem (cmd + length) = 0)
    (hfuel : s.length < fuel) :
    ∃ st' args, (if length ≤ skipString cmd length mem (position + 1) then
        some ⟨mem, Function.update argv argc (cmd + (position + 1)), argc + 1,
          skipString cmd length mem (position + 1)⟩
      else mshSplitFrom cmd length fuel
        ⟨Function.update mem (cmd + skipString cmd length mem (position + 1)) 0,
          Function.update argv argc (cmd + (position + 1)), argc + 1,
          skipString cmd length mem (position + 1) + 1⟩) = some st' ∧
      Arguments (quote :: s) args ∧
      Cuts cmd length (quote :: s) ⟨mem, argv, argc, position⟩ st' args := by
  have hs₁ : Holds mem (cmd + (position + 1)) s := hs.2
  obtain ⟨body, after, hquoted⟩ := exists_quoted s
  have hhead : ∀ c ∈ (quote :: s).head?, isBlank c = false := by simp [isBlank_quote]
  rw [skipString_eq hquoted hs₁ (by omega) hend]
  obtain rfl := hquoted.text_eq
  have hbody : Holds mem (cmd + (position + 1)) body := (holds_append.mp hs₁).1
  cases after with
  | none =>
    have hclose : position + 1 + body.length = length := by simp at hlen; omega
    rw [if_pos (Nat.le_of_eq hclose.symm)]
    refine ⟨_, _, rfl, .unterminated hquoted, Cuts.cons (.refl ..) rfl rfl (by omega)
      (show position ≤ position + 1 + body.length by omega) (fun _ _ => rfl) ⟨hbody, ?_⟩ hhead⟩
    rw [show cmd + (position + 1) + body.length = cmd + length by omega]
    exact hend
  | some after =>
    have hclose : position + 1 + body.length + 1 + after.length = length := by
      simp at hlen
      omega
    have hfuel' : after.length < fuel := by simp at hfuel; omega
    rw [if_neg (by omega)]
    have hafter : Holds mem (cmd + (position + 1) + body.length + 1) after :=
      (holds_append.mp hs₁).2.2
    set close := position + 1 + body.length with hc
    obtain ⟨st', args, hrun, hargs, hcuts⟩ := ih after
      ⟨Function.update mem (cmd + close) 0, Function.update argv argc (cmd + (position + 1)),
        argc + 1, close + 1⟩
      (by
        rw [show cmd + (position + 1) + body.length + 1 = cmd + (close + 1) by omega] at hafter
        exact hafter.congr fun i hi _ => Function.update_of_ne (by omega) ..)
      hclose ((Function.update_of_ne (by omega) ..).trans hend) hfuel'
    refine ⟨st', _, hrun, .string hquoted hargs, hcuts.cons rfl rfl (by omega)
      (show position ≤ close + 1 by omega)
      (fun a ha => Function.update_of_ne (by simp only at ha; omega) ..) ⟨?_, ?_⟩ hhead⟩
    · refine hbody.congr fun i hi hi' => ?_
      rw [hcuts.outside i (.inl (show i < cmd + (close + 1) by omega))]
      exact Function.update_of_ne (by omega) ..
    · rw [show cmd + (position + 1) + body.length = cmd + close by omega,
        hcuts.outside _ (.inl (show cmd + close < cmd + (close + 1) by omega))]
      exact Function.update_self ..

theorem word_cuts (ih : RunsOn cmd length fuel) {c : UInt8} (hquote : c ≠ quote)
    (hblank : isBlank c = false) (hs : Holds mem (cmd + position) (c :: s))
    (hlen : position + (s.length + 1) = length) (hend : mem (cmd + length) = 0)
    (hfuel : s.length < fuel) :
    ∃ st' args, (if length ≤ skipWord cmd length mem position then
        some ⟨mem, Function.update argv argc (cmd + position), argc + 1,
          skipWord cmd length mem position⟩
      else mshSplitFrom cmd length fuel ⟨mem, Function.update argv argc (cmd + position), argc + 1,
        skipWord cmd length mem position⟩) = some st' ∧
      Arguments (c :: s) args ∧ Cuts cmd length (c :: s) ⟨mem, argv, argc, position⟩ st' args := by
  have hhead : ∀ d ∈ (c :: s).head?, isBlank d = false := by simpa using hblank
  obtain ⟨w, rest, hsplit, hw, hrest, hskip⟩ := skipWord_eq hs hlen
  rw [hskip]
  -- The first character is none of the blanks, so that the word has it.
  obtain ⟨w, rfl⟩ : ∃ w', w = c :: w' := by
    cases w with
    | nil =>
      rw [hrest c (by simp [← show c :: s = rest from hsplit])] at hblank
      exact absurd hblank (by decide)
    | cons d w => exact ⟨w, by rw [(List.cons.inj hsplit).1]⟩
  rw [hsplit] at hs hhead ⊢
  have hsum : s.length = w.length + rest.length := by
    simpa using congrArg List.length (List.cons.inj hsplit).2
  have hword : Holds mem (cmd + position) (c :: w) := (holds_append.mp hs).1
  have hafter : Holds mem (cmd + (position + (c :: w).length)) rest := by
    rw [← Nat.add_assoc]
    exact (holds_append.mp hs).2
  set stop := position + (c :: w).length with hstop
  rw [List.length_cons] at hstop
  have hstring : ∀ mem' : Memory, (∀ a, a < cmd + stop → mem' a = mem a) →
      mem' (cmd + stop) = 0 → CString mem' (cmd + position) (c :: w) := by
    intro mem' hmem hzero
    refine ⟨hword.congr fun i _ hi' => hmem i (by rw [List.length_cons] at hi'; omega), ?_⟩
    rw [List.length_cons, show cmd + position + (w.length + 1) = cmd + stop by omega]
    exact hzero
  by_cases hall : length ≤ stop
  · obtain rfl := List.eq_nil_of_length_eq_zero (show rest.length = 0 by omega)
    rw [if_pos hall]
    refine ⟨_, _, rfl, .word hquote hw (by simp) .nil, Cuts.cons (.refl ..) rfl rfl (by omega)
      (show position ≤ stop by omega) (fun _ _ => rfl) (hstring _ (fun _ _ => rfl) ?_) hhead⟩
    rw [show stop = length by simp at hsum; omega]
    exact hend
  · rw [if_neg hall]
    obtain ⟨st', args, hrun, hargs, hcuts⟩ := ih rest
      ⟨mem, Function.update argv argc (cmd + position), argc + 1, stop⟩ hafter
      (show stop + rest.length = length by omega) hend (by omega)
    refine ⟨st', _, hrun, .word hquote hw hrest hargs, hcuts.cons rfl rfl (by omega)
      (show position ≤ stop by omega) (fun _ _ => rfl)
      (hstring _ (fun a ha => hcuts.outside a (.inl ha)) ?_) hhead⟩
    cases rest with
    | nil => simp at hsum; omega
    | cons d rest => exact hcuts.cut d rfl (hrest d rfl)

end Rounds

theorem runsOn (cmd length fuel : ℕ) : RunsOn cmd length fuel := by
  induction fuel with
  | zero => exact fun s st _ _ _ hfuel => absurd hfuel (Nat.not_lt_zero _)
  | succ fuel ih =>
    intro s st hs hlen hend hfuel
    rw [mshSplitFrom]
    by_cases hpos : st.position < length
    · rw [if_pos hpos]
      obtain ⟨blanks, rest, rfl, hblanks, hrest, hstrip⟩ := stripBlanks_eq hs hlen
      rw [List.length_append] at hlen hfuel
      simp only [hstrip]
      have hs' : Holds (fill st.mem (cmd + st.position) 0 blanks.length)
          (cmd + (st.position + blanks.length)) rest := by
        rw [← Nat.add_assoc]
        exact (holds_append.mp hs).2.congr fun i hi _ => fill_outside _ _ (by omega)
      have hend' : fill st.mem (cmd + st.position) 0 blanks.length (cmd + length) = 0 := by
        rw [fill_outside _ _ (by omega), hend]
      suffices hround : ∃ st' args, _ = some st' ∧ Arguments rest args ∧
          Cuts cmd length rest
            { st with mem := fill st.mem (cmd + st.position) 0 blanks.length,
                      position := st.position + blanks.length } st' args by
        obtain ⟨st', args, hrun, hargs, hcuts⟩ := hround
        exact ⟨st', args, hrun, hargs.of_blanks hblanks, hcuts.of_blanks (by omega) hrest⟩
      cases rest with
      | nil =>
        rw [List.length_nil] at hlen
        rw [if_pos (by omega)]
        exact ⟨_, [], rfl, .nil, .refl ..⟩
      | cons c rest =>
        rw [List.length_cons] at hlen hfuel
        rw [if_neg (by omega), hs'.1]
        by_cases hc : c = quote
        · subst hc
          rw [if_pos rfl]
          exact string_cuts ih hs' (by omega) hend' (by omega)
        · rw [if_neg hc]
          exact word_cuts ih hc (hrest c rfl) hs' (by omega) hend' (by omega)
    · rw [if_neg hpos]
      obtain rfl := List.eq_nil_of_length_eq_zero (show s.length = 0 by omega)
      exact ⟨st, [], rfl, .nil, .refl cmd length st⟩

/-- `msh_split` returns the arguments of the line, each of them a string, and writes nothing
but bytes of the line and cells of `argv`. -/
def SplitsLine (mem : Memory) (cmd : ℕ) (line : List UInt8) : Prop :=
  ∀ argv : ℕ → ℕ, ∃ st' args, mshSplit cmd line.length mem argv = some st' ∧
    Arguments line args ∧ st'.argc = args.length ∧
    (∀ i (h : i < args.length), CString st'.mem (st'.argv i) args[i]) ∧
    (∀ a, a < cmd ∨ cmd + line.length ≤ a → st'.mem a = mem a) ∧
    ∀ i, rtFinshArgMax ≤ i → st'.argv i = argv i

section Lines

variable {mem : Memory} {cmd : ℕ} {line : List UInt8}

theorem mshSplit_cuts (h : CString mem cmd line) (argv : ℕ → ℕ) :
    ∃ st' args, mshSplit cmd line.length mem argv = some st' ∧ Arguments line args ∧
      Cuts cmd line.length line ⟨mem, argv, 0, 0⟩ st' args :=
  runsOn cmd line.length _ line ⟨mem, argv, 0, 0⟩ h.1 (Nat.zero_add _) h.2 (Nat.lt_succ_self _)

theorem splitsLine_of_few (h : CString mem cmd line)
    (hfew : ∀ args, Arguments line args → args.length ≤ rtFinshArgMax) :
    SplitsLine mem cmd line := by
  intro argv
  obtain ⟨st', args, hrun, hargs, hcuts⟩ := mshSplit_cuts h argv
  have hargc : st'.argc = args.length := hcuts.argc_eq.trans (Nat.zero_add _)
  refine ⟨st', args, hrun, hargs, hargc, fun i hi => ?_, hcuts.outside, fun i hi => ?_⟩
  · have hstring := hcuts.strings i hi
    rwa [Nat.zero_add] at hstring
  · exact hcuts.cells i (.inr (by have := hfew args hargs; omega))

/-- The cell behind the array is overwritten when there are too many arguments. -/
theorem not_splitsLine_of_many (h : CString mem cmd line) {args : List (List UInt8)}
    (hargs : Arguments line args) (hmany : rtFinshArgMax < args.length) :
    ¬SplitsLine mem cmd line := by
  intro hsplits
  obtain ⟨st', args', hrun, -, -, -, -, hcells⟩ := hsplits fun _ => cmd + line.length + 1
  obtain ⟨st, args₁, hrun', hargs₁, hcuts⟩ := mshSplit_cuts h fun _ => cmd + line.length + 1
  obtain rfl := Option.some.inj (hrun.symm.trans hrun')
  obtain rfl := hargs.unique hargs₁ rfl
  have hargc := hcuts.argc_eq
  have hin := hcuts.inLine rtFinshArgMax (Nat.zero_le _) (by simp only at hargc; omega)
  rw [hcells _ (Nat.le_refl _)] at hin
  omega

theorem line_split_iff (h : CString mem cmd line) :
    SplitsLine mem cmd line ↔
      ∀ args, Arguments line args → args.length ≤ rtFinshArgMax := by
  refine ⟨fun hsplits args hargs => ?_, splitsLine_of_few h⟩
  exact Nat.le_of_not_lt fun hmany => not_splitsLine_of_many h hargs hmany hsplits

end Lines

/-- So many words of one letter. -/
def letters (n : ℕ) : List UInt8 := (List.replicate n [0x61, 0x20]).flatten

theorem arguments_letters (n : ℕ) : Arguments (letters n) (List.replicate n [0x61]) := by
  induction n with
  | zero => exact .nil
  | succ n ih =>
    rw [letters, List.replicate_succ, List.flatten_cons, List.replicate_succ]
    exact .word (w := []) (by decide +kernel) (by decide +kernel) (fun d hd => by cases hd; rfl)
      (.blank (by decide +kernel) ih)

/-- The memory with a text at the address 0. -/
def textMemory (s : List UInt8) : Memory := fun a => s.getD a 0

theorem line_split_iff_sample :
    CString (textMemory (letters 3)) 0 (letters 3) ∧
      (SplitsLine (textMemory (letters 3)) 0 (letters 3) ↔
        ∀ args, Arguments (letters 3) args → args.length ≤ rtFinshArgMax) :=
  ⟨by decide, line_split_iff (by decide)⟩

theorem eleven_words_overflow :
    CString (textMemory (letters 11)) 0 (letters 11) ∧
      ¬SplitsLine (textMemory (letters 11)) 0 (letters 11) :=
  ⟨by decide, not_splitsLine_of_many (by decide) (arguments_letters 11) (by decide)⟩

end Msh
end RtThread
