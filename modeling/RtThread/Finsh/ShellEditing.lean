import RtThread.Finsh.ShellBuffer

/-!
# Editing a line in the shell

The shell beside an editor that does what the keys say: a character goes in at the cursor, a
backspace takes the one before it away, the arrows move the cursor, and both carriage return and
line feed submit the line.
-/
namespace RtThread
open Transition

def backspace : BitVec 8 := 0x08
def delete : BitVec 8 := 0x7f

/-- The characters of ASCII that show. -/
def Printable (b : BitVec 8) : Prop := 0x20 ≤ b.toNat ∧ b.toNat < 0x7f

instance (b : BitVec 8) : Decidable (Printable b) := inferInstanceAs (Decidable (_ ∧ _))

/-- A character is none of the bytes that control the shell. -/
theorem Printable.ne {ch : BitVec 8} (h : Printable ch) : ch ≠ 0 ∧ ch ≠ escape ∧ ch ≠ carriageReturn ∧
    ch ≠ lineFeed ∧ ch ≠ 0x09 ∧ ch ≠ delete ∧ ch ≠ backspace := by
  refine ⟨?_, ?_, ?_, ?_, ?_, ?_, ?_⟩
  all_goals
    rintro rfl
    exact absurd h (by decide)

/-- The line on both sides of the cursor, and how far the bytes of an arrow have come. -/
structure Editor where
  stat : InputStat
  left : List (BitVec 8)
  right : List (BitVec 8)
  deriving DecidableEq

namespace Editor

def empty : Editor := ⟨.waitNormal, [], []⟩

def line (e : Editor) : List (BitVec 8) := e.left ++ e.right

def moveLeft (e : Editor) : Editor :=
  match e.left.getLast? with
  | none => e
  | some c => { e with left := e.left.dropLast, right := c :: e.right }

def moveRight (e : Editor) : Editor :=
  match e.right with
  | [] => e
  | c :: right => { e with left := e.left ++ [c], right := right }

/-- The next byte, and the line if it submits one. -/
def feed (e : Editor) (b : BitVec 8) : Editor × Option (List (BitVec 8)) :=
  match e.stat with
  | .waitSpecKey => ({ e with stat := .waitFuncKey }, none)
  | .waitFuncKey =>
    let e := { e with stat := .waitNormal }
    (if b = 0x44 then e.moveLeft else e.moveRight, none)
  | .waitNormal =>
    if b = escape then ({ e with stat := .waitSpecKey }, none)
    else if b = carriageReturn ∨ b = lineFeed then
      ({ e with left := [], right := [] }, some e.line)
    else if b = delete ∨ b = backspace then ({ e with left := e.left.dropLast }, none)
    else ({ e with left := e.left ++ [b] }, none)

/-- The bytes of one round, with what is submitted. -/
def feedAll (e : Editor) : List (BitVec 8) → Editor × List (List (BitVec 8))
  | [] => (e, [])
  | b :: bs =>
    let (e, line) := e.feed b
    let (e, lines) := e.feedAll bs
    (e, line.toList ++ lines)

/-- The bytes that may come next: of characters, of the left and right arrow, of backspaces and of
line ends. -/
def Typable (e : Editor) (b : BitVec 8) : Prop :=
  match e.stat with
  | .waitSpecKey => b = 0x5b
  | .waitFuncKey => b = 0x44 ∨ b = 0x43
  | .waitNormal =>
    b = escape ∨ b = carriageReturn ∨ b = lineFeed ∨ b = delete ∨ b = backspace ∨ Printable b

instance (b : BitVec 8) : ∀ e : Editor, Decidable (e.Typable b)
  | ⟨.waitSpecKey, _, _⟩ => inferInstanceAs (Decidable (b = 0x5b))
  | ⟨.waitFuncKey, _, _⟩ => inferInstanceAs (Decidable (b = 0x44 ∨ b = 0x43))
  | ⟨.waitNormal, _, _⟩ => inferInstanceAs (Decidable (_ ∨ _))

variable {e : Editor} {b : BitVec 8}

theorem feed_end (hstat : e.stat = .waitNormal) (hb : b = carriageReturn ∨ b = lineFeed) :
    e.feed b = (empty, some e.line) := by
  obtain ⟨stat, left, right⟩ := e
  obtain rfl : stat = .waitNormal := hstat
  obtain rfl | rfl := hb
  · rfl
  · rfl

theorem feed_printable (hstat : e.stat = .waitNormal) (hb : Printable b) :
    e.feed b = ({ e with left := e.left ++ [b] }, none) := by
  obtain ⟨-, hescape, hcr, hlf, -, hdelete, hbackspace⟩ := Printable.ne hb
  obtain ⟨stat, left, right⟩ := e
  obtain rfl : stat = .waitNormal := hstat
  rw [feed, if_neg hescape, if_neg (not_or.mpr ⟨hcr, hlf⟩),
    if_neg (not_or.mpr ⟨hdelete, hbackspace⟩)]

/-- In an empty line only a character leaves something. -/
theorem feed_empty (h : empty.Typable b) (hend : ¬ (b = carriageReturn ∨ b = lineFeed)) :
    (empty.feed b).2 = none ∧ (Printable b ∨ (empty.feed b).1.line = []) := by
  obtain rfl | hcr | hlf | rfl | rfl | hb : b = escape ∨ b = carriageReturn ∨ b = lineFeed ∨
    b = delete ∨ b = backspace ∨ Printable b := h
  · exact ⟨rfl, .inr rfl⟩
  · exact absurd (.inl hcr) hend
  · exact absurd (.inr hlf) hend
  · exact ⟨rfl, .inr rfl⟩
  · exact ⟨rfl, .inr rfl⟩
  · rw [feed_printable rfl hb]
    exact ⟨rfl, .inl hb⟩

theorem Typable.ne_zero (h : empty.Typable b) : b ≠ 0 := by
  rintro rfl
  have hnone : ¬ ((0 : BitVec 8) = escape ∨ (0 : BitVec 8) = carriageReturn ∨
    (0 : BitVec 8) = lineFeed ∨ (0 : BitVec 8) = delete ∨ (0 : BitVec 8) = backspace ∨
    Printable 0) := by decide
  exact hnone h

@[simp] theorem feedAll_single (e : Editor) (b : BitVec 8) :
    e.feedAll [b] = ((e.feed b).1, (e.feed b).2.toList) := by
  simp [feedAll]

/-- No carriage return stands inside an arrow. -/
theorem Typable.ne_carriageReturn (h : e.Typable b) (hstat : e.stat ≠ .waitNormal) :
    b ≠ carriageReturn := by
  obtain ⟨stat, left, right⟩ := e
  cases stat with
  | waitNormal => exact absurd rfl hstat
  | waitSpecKey =>
    have hb : b = 0x5b := h
    rw [hb]
    decide
  | waitFuncKey =>
    obtain rfl | rfl : b = 0x44 ∨ b = 0x43 := h
    · decide
    · decide

end Editor

def notEmpty (lines : List (List (BitVec 8))) : List (List (BitVec 8)) := lines.filter (· ≠ [])

/-- The bytes that a round takes from the device. -/
def Received.bytes (r : Received) : List (BitVec 8) :=
  r.ch :: if r.ch = carriageReturn then r.next.toList else []

/-- The shell and the editor, with the lines that are not empty: those that `msh_exec` got and those
that were submitted. -/
structure Editing where
  shell : Option FinshShell
  editor : Editor
  executed : List (List (BitVec 8))
  submitted : List (List (BitVec 8))

/-! ## One key -/

namespace FinshShell

/-- The shell holds what the editor holds. -/
structure Tracks (s : FinshShell) (e : Editor) : Prop where
  text : s.Holds e.left e.right
  history : s.HistoryOk
  stat : s.stat = e.stat

variable {s : FinshShell} {e : Editor} {r : Received} {ch : BitVec 8}

namespace Tracks

theorem edited (h : s.Tracks e) {left right : List (BitVec 8)} (hline : IsLine (left ++ right)) :
    (s.edited left right).Tracks { e with left := left, right := right } :=
  ⟨s.edited_holds hline, ⟨h.history.length, h.history.lines, h.history.count, h.history.current⟩,
    h.stat⟩

theorem withStat (h : s.Tracks e) (stat : InputStat) :
    Tracks { s with stat := stat } { e with stat := stat } :=
  ⟨h.text.withStat stat,
    ⟨h.history.length, h.history.lines, h.history.count, h.history.current⟩, rfl⟩

theorem left (h : s.Tracks e) : ∃ s', s.leftKey = some s' ∧ s'.Tracks e.moveLeft := by
  obtain ⟨stat, left, right⟩ := e
  cases left using List.reverseRecOn with
  | nil => exact ⟨s, h.text.leftKey_start, h⟩
  | append_singleton left c _ =>
    have hmove : Editor.moveLeft ⟨stat, left ++ [c], right⟩ = ⟨stat, left, c :: right⟩ := by
      simp [Editor.moveLeft]
    rw [hmove]
    refine ⟨_, h.text.leftKey, h.edited ?_⟩
    rw [← List.singleton_append, ← List.append_assoc]
    exact h.text.isLine

theorem right (h : s.Tracks e) : ∃ s', s.rightKey = some s' ∧ s'.Tracks e.moveRight := by
  obtain ⟨stat, left, _ | ⟨c, right⟩⟩ := e
  · exact ⟨s, h.text.rightKey_end, h⟩
  · refine ⟨_, h.text.rightKey, h.edited ?_⟩
    rw [List.append_assoc]
    exact h.text.isLine

theorem erase (h : s.Tracks e) :
    ∃ s', s.backspaceKey = some s' ∧ s'.Tracks { e with left := e.left.dropLast } := by
  obtain ⟨stat, left, right⟩ := e
  cases left using List.reverseRecOn with
  | nil => exact ⟨s, h.text.backspaceKey_start, h⟩
  | append_singleton left c _ =>
    rw [List.dropLast_concat]
    exact ⟨_, h.text.backspaceKey, h.edited h.text.isLine.erase⟩

theorem insert (h : s.Tracks e) (hch : ch ≠ 0) (hroom : e.line.length + 1 < finshCmdSize) :
    ∃ s', s.normalChar ch = some s' ∧ s'.Tracks { e with left := e.left ++ [ch] } :=
  ⟨_, h.text.normalChar hch hroom, h.edited (h.text.isLine.insert hch hroom)⟩

theorem submit (h : s.Tracks e) (echo : Bool) : ∃ s', s.lineEnd echo = some (s', e.line) ∧
    s'.Tracks { e with left := [], right := [] } := by
  obtain ⟨s', hend, htext, hhistory, hstat⟩ := h.text.lineEnd h.history echo
  exact ⟨s', hend, htext, hhistory, hstat.trans h.stat⟩

end Tracks

/-! ## One round -/

theorem handle_of_decode {stat : InputStat} {key : Key}
    (h : Key.decode s.stat r = (stat, key)) :
    s.handle r = FinshShell.press { s with stat := stat } r.echo key := by
  rw [handle, h]

namespace Tracks

/-- A byte of an arrow, and the arrow at its last byte. -/
theorem arrow (h : s.Tracks e) (hstat : e.stat ≠ .waitNormal) (htyped : e.Typable r.ch) :
    ∃ s', s.handle r = some (s', (e.feed r.ch).2) ∧ s'.Tracks (e.feed r.ch).1 := by
  have hsame := h.stat
  obtain ⟨stat, left, right⟩ := e
  dsimp only at hsame hstat
  cases stat with
  | waitNormal => exact absurd rfl hstat
  | waitSpecKey =>
    have hch : r.ch = 0x5b := htyped
    have hdecode : Key.decode s.stat r = (.waitFuncKey, .pending) := by
      rw [hsame, Key.decode, hch]
      rfl
    exact ⟨_, handle_of_decode hdecode, h.withStat .waitFuncKey⟩
  | waitFuncKey =>
    obtain hch | hch : r.ch = 0x44 ∨ r.ch = 0x43 := htyped
    · have hdecode : Key.decode s.stat r = (.waitNormal, .left) := by
        rw [hsame, Key.decode, hch]
        rfl
      obtain ⟨s', hleft, htracks⟩ := (h.withStat .waitNormal).left
      rw [handle_of_decode hdecode, press, hleft, hch]
      exact ⟨s', rfl, htracks⟩
    · have hdecode : Key.decode s.stat r = (.waitNormal, .right) := by
        rw [hsame, Key.decode, hch]
        rfl
      obtain ⟨s', hright, htracks⟩ := (h.withStat .waitNormal).right
      rw [handle_of_decode hdecode, press, hright, hch]
      exact ⟨s', rfl, htracks⟩

/-- Either byte of a backspace. -/
theorem erased (h : s.Tracks e) (hstat : e.stat = .waitNormal)
    (hch : r.ch = delete ∨ r.ch = backspace) :
    ∃ s', s.handle r = some (s', (e.feed r.ch).2) ∧ s'.Tracks (e.feed r.ch).1 := by
  have hsame := h.stat
  obtain ⟨stat, left, right⟩ := e
  obtain rfl : stat = .waitNormal := hstat
  dsimp only at hsame
  have hdecode : Key.decode s.stat r = (.waitNormal, .erase) := by
    rw [hsame, Key.decode, Key.ofNormal]
    obtain hch | hch := hch <;> rw [hch] <;> rfl
  obtain ⟨s', herase, htracks⟩ := (h.withStat .waitNormal).erase
  rw [handle_of_decode hdecode, press, herase]
  obtain hch | hch := hch <;> rw [hch] <;> exact ⟨s', rfl, htracks⟩

/-- A byte that belongs to no arrow and is no carriage return. -/
theorem normal (h : s.Tracks e) (hstat : e.stat = .waitNormal) (htyped : e.Typable r.ch)
    (hfits : (e.feed r.ch).1.line.length < finshCmdSize) (hcr : r.ch ≠ carriageReturn) :
    ∃ s', s.handle r = some (s', (e.feed r.ch).2) ∧ s'.Tracks (e.feed r.ch).1 := by
  have hsame := h.stat
  obtain ⟨stat, left, right⟩ := e
  obtain rfl : stat = .waitNormal := hstat
  dsimp only at hsame
  have h' := h.withStat .waitNormal
  obtain hch | hch | hch | hch | hch | hch : r.ch = escape ∨ r.ch = carriageReturn ∨
    r.ch = lineFeed ∨ r.ch = delete ∨ r.ch = backspace ∨ Printable r.ch := htyped
  · have hdecode : Key.decode s.stat r = (.waitSpecKey, .pending) := if_pos hch
    rw [handle_of_decode hdecode, hch]
    exact ⟨_, rfl, h.withStat .waitSpecKey⟩
  · exact absurd hch hcr
  · have hdecode : Key.decode s.stat r = (.waitNormal, .submit) := by
      rw [hsame, Key.decode, Key.ofNormal, hch]
      rfl
    obtain ⟨s', hend, htracks⟩ := h'.submit r.echo
    rw [handle_of_decode hdecode, press, hend, hch]
    exact ⟨s', rfl, htracks⟩
  · exact h.erased rfl (.inl hch)
  · exact h.erased rfl (.inr hch)
  · obtain ⟨hzero, hescape, -, hlf, htab, hdelete, hbackspace⟩ := Printable.ne hch
    have hend : ¬ (r.ch = carriageReturn ∨ r.ch = lineFeed) := not_or.mpr ⟨hcr, hlf⟩
    have herase : ¬ (r.ch = 0x7f ∨ r.ch = 0x08) := not_or.mpr ⟨hdelete, hbackspace⟩
    have hkey : Key.ofNormal r = .insert r.ch := by
      rw [Key.ofNormal, if_neg hcr, if_neg htab, if_neg herase, Key.ofChar, if_neg hend]
    have hdecode : Key.decode s.stat r = (.waitNormal, .insert r.ch) := by
      rw [hsame, Key.decode, if_neg hescape, hkey]
    have hfeed : Editor.feed ⟨.waitNormal, left, right⟩ r.ch =
        (⟨.waitNormal, left ++ [r.ch], right⟩, none) := Editor.feed_printable rfl hch
    rw [hfeed] at hfits ⊢
    obtain ⟨s', hinsert, htracks⟩ := h'.insert hzero (by
      simp only [Editor.line, List.length_append, List.length_singleton] at hfits ⊢
      omega)
    rw [handle_of_decode hdecode, press, hinsert]
    exact ⟨s', rfl, htracks⟩

/-- A carriage return with a line end behind it, or with nothing. -/
theorem lineEnd (h : s.Tracks e) (hstat : e.stat = .waitNormal) (hcr : r.ch = carriageReturn)
    (hnext : ∀ next, r.next = some next → next = carriageReturn ∨ next = lineFeed) :
    ∃ s', s.handle r = some (s', some e.line) ∧ s'.Tracks .empty := by
  have hkey : Key.ofNormal r = .submit := by
    rw [Key.ofNormal, if_pos hcr]
    cases hr : r.next with
    | none => rfl
    | some next =>
      obtain rfl | rfl := hnext next hr
      · rfl
      · rfl
  have hdecode : Key.decode s.stat r = (.waitNormal, .submit) := by
    rw [h.stat, hstat, Key.decode, hkey, hcr]
    rfl
  have h' := h.withStat .waitNormal
  obtain ⟨s', hend, htracks⟩ := h'.submit r.echo
  rw [handle_of_decode hdecode, press, hend]
  exact ⟨s', rfl, htracks⟩

/-- Anything else behind a carriage return is inserted. -/
theorem swallowed (h : s.Tracks e) (hstat : e.stat = .waitNormal) (hcr : r.ch = carriageReturn)
    {next : BitVec 8} (hnext : r.next = some next) (hzero : next ≠ 0)
    (hend : ¬ (next = carriageReturn ∨ next = lineFeed)) :
    s.handle r = (FinshShell.normalChar { s with stat := .waitNormal } next).map (·, none) := by
  have hkey : Key.ofNormal r = .insert next := by
    rw [Key.ofNormal, if_pos hcr, hnext]
    dsimp only
    rw [if_neg hzero, Key.ofChar, if_neg hend]
  have hdecode : Key.decode s.stat r = (.waitNormal, .insert next) := by
    rw [h.stat, hstat, Key.decode, hkey, hcr]
    rfl
  rw [handle_of_decode hdecode, press]

/-- What stands behind a carriage return ends the same line, or starts the next one. -/
theorem followed (h : s.Tracks e) (hstat : e.stat = .waitNormal) (hcr : r.ch = carriageReturn)
    {next : BitVec 8} (hnext : r.next = some next)
    (hok : next = carriageReturn ∨ next = lineFeed ∨ (Printable next ∧ s.linePosition = 0)) :
    ∃ s' line, s.handle r = some (s', line) ∧
      s'.Tracks (Editor.empty.feed next).1 ∧
      notEmpty line.toList =
        notEmpty (e.line :: (Editor.empty.feed next).2.toList) := by
  by_cases hend : next = carriageReturn ∨ next = lineFeed
  · obtain ⟨s', hhandle, htracks⟩ := h.lineEnd hstat hcr fun next' hn => by
      obtain rfl := Option.some.inj (hnext.symm.trans hn)
      exact hend
    rw [Editor.feed_end rfl hend]
    exact ⟨s', _, hhandle, htracks, by simp [notEmpty, Editor.line, Editor.empty, List.filter_cons]⟩
  · obtain hcr' | hlf | ⟨hprintable, hposition⟩ := hok
    · exact absurd (.inl hcr') hend
    · exact absurd (.inr hlf) hend
    · obtain ⟨stat, left, right⟩ := e
      obtain rfl : stat = .waitNormal := hstat
      rw [h.text.position] at hposition
      obtain ⟨rfl, rfl⟩ := List.append_eq_nil_iff.mp (List.length_eq_zero_iff.mp hposition)
      obtain ⟨s', hinsert, htracks⟩ := (h.withStat .waitNormal).insert hprintable.ne.1 (by decide)
      rw [Editor.feed_printable rfl hprintable]
      refine ⟨s', none, ?_, htracks, rfl⟩
      rw [h.swallowed rfl hcr hnext hprintable.ne.1 hend, hinsert]
      rfl

end Tracks

end FinshShell

namespace Editing

def step (s : Editing) (r : Received) : Option (Editing × Unit) :=
  (FinshShell.step s.shell r).map fun (shell, line) =>
    let (editor, lines) := s.editor.feedAll r.bytes
    (⟨shell, editor, s.executed ++ notEmpty line.toList, s.submitted ++ notEmpty lines⟩, ())

def machine : Machine Editing Received Unit := ⟨step⟩

def initial : Editing := ⟨some .initial, .empty, [], []⟩

/-- The domain: the keys of an editor whose line stays below `FINSH_CMD_SIZE` characters. -/
def Typed (s : Editing) (r : Received) : Prop :=
  s.editor.Typable r.ch ∧ (s.editor.feed r.ch).1.line.length < finshCmdSize ∧
    ∀ next ∈ r.next, r.ch = carriageReturn → (s.editor.feed r.ch).1.Typable next

/-- The shell has executed what was submitted, and has the line and the cursor of the editor. -/
def Agrees (s : Editing) : Prop :=
  s.executed = s.submitted ∧
    ∃ shell, s.shell = some shell ∧ shell.Holds s.editor.left s.editor.right

/-- The condition on a round: what the shell finds behind a carriage return is a line end, or
a character for a line that was empty. -/
def RoundOk (s : Editing) (r : Received) : Prop :=
  ∀ next ∈ r.next, r.ch = carriageReturn →
    next = carriageReturn ∨ next = lineFeed ∨
      (Printable next ∧ ∀ shell ∈ s.shell, shell.linePosition = 0)

instance (s : Editing) (r : Received) : Decidable (s.Typed r) :=
  inferInstanceAs (Decidable (_ ∧ _ ∧ ∀ next ∈ r.next, _))

/-! ## Runs -/

/-- The shell holds what the editor holds, and both have passed on the same lines. -/
structure Inv (s : Editing) : Prop where
  lines : s.executed = s.submitted
  shell : ∃ shell, s.shell = some shell ∧ shell.Tracks s.editor

variable {s s' : Editing} {r : Received} {o : Unit}

theorem inv_initial : initial.Inv where
  lines := rfl
  shell := ⟨.initial, rfl, ⟨FinshShell.isLine_nil, rfl⟩, FinshShell.sound_initial.history, rfl⟩

theorem Inv.agrees (h : s.Inv) : s.Agrees := by
  obtain ⟨shell, hshell, htracks⟩ := h.shell
  exact ⟨h.lines, shell, hshell, htracks.text⟩

/-- A round in which the shell and the editor do the same. -/
theorem Inv.next (h : s.Inv) {shell shell' : FinshShell} {line : Option (List (BitVec 8))}
    (hshell : s.shell = some shell) (hhandle : shell.handle r = some (shell', line))
    (htracks : shell'.Tracks (s.editor.feedAll r.bytes).1)
    (hlines : notEmpty line.toList = notEmpty (s.editor.feedAll r.bytes).2)
    (hs : s.step r = some (s', o)) : s'.Inv := by
  simp only [step, hshell, FinshShell.step, Option.map_some, hhandle, Option.some.injEq,
    Prod.mk.injEq] at hs
  obtain ⟨rfl, -⟩ := hs
  exact ⟨by dsimp only; rw [h.lines, hlines], shell', rfl, htracks⟩

/-- A round with a single byte. -/
theorem Inv.next_single (h : s.Inv) {shell shell' : FinshShell} (hshell : s.shell = some shell)
    (hbytes : r.bytes = [r.ch])
    (hhandle : shell.handle r = some (shell', (s.editor.feed r.ch).2))
    (htracks : shell'.Tracks (s.editor.feed r.ch).1) (hs : s.step r = some (s', o)) : s'.Inv := by
  refine h.next hshell hhandle ?_ ?_ hs
  · rw [hbytes, Editor.feedAll_single]
    exact htracks
  · rw [hbytes, Editor.feedAll_single]

/-- What the editor makes of a carriage return with a byte behind it. -/
theorem feedAll_followed (hstat : s.editor.stat = .waitNormal) (hcr : r.ch = carriageReturn)
    {next : BitVec 8} (hnext : r.next = some next) : s.editor.feedAll r.bytes =
      ((Editor.empty.feed next).1, s.editor.line :: (Editor.empty.feed next).2.toList) := by
  rw [Received.bytes, if_pos hcr, hnext, hcr]
  simp [Editor.feedAll, s.editor.feed_end hstat (.inl rfl)]

theorem step_inv (hdom : s.Typed r) (h : s.Inv) (hok : s.RoundOk r)
    (hs : s.step r = some (s', o)) : s'.Inv := by
  obtain ⟨shell, hshell, htracks⟩ := h.shell
  obtain ⟨htyped, hfits, -⟩ := hdom
  by_cases hstat : s.editor.stat = .waitNormal
  · by_cases hcr : r.ch = carriageReturn
    · cases hnext : r.next with
      | none =>
        have hbytes : r.bytes = [r.ch] := by
          rw [Received.bytes, if_pos hcr, hnext]
          rfl
        obtain ⟨shell', hhandle, htracks'⟩ := htracks.lineEnd hstat hcr fun next hn => by
          rw [hnext] at hn
          cases hn
        have hfeed := s.editor.feed_end hstat (.inl hcr)
        have hline : shell.handle r = some (shell', (s.editor.feed r.ch).2) := by
          rw [hfeed, hhandle]
        refine h.next_single hshell hbytes hline ?_ hs
        rw [hfeed]
        exact htracks'
      | some next =>
        have hok : next = carriageReturn ∨ next = lineFeed ∨
            (Printable next ∧ shell.linePosition = 0) :=
          (hok next hnext hcr).imp_right fun hok => hok.imp_right fun hok =>
            ⟨hok.1, hok.2 shell hshell⟩
        obtain ⟨shell', line, hhandle, htracks', hlines⟩ := htracks.followed hstat hcr hnext hok
        refine h.next hshell hhandle ?_ ?_ hs
        all_goals rw [feedAll_followed hstat hcr hnext]
        · exact htracks'
        · exact hlines
    · have hbytes : r.bytes = [r.ch] := by rw [Received.bytes, if_neg hcr]
      obtain ⟨shell', hhandle, htracks'⟩ := htracks.normal hstat htyped hfits hcr
      exact h.next_single hshell hbytes hhandle htracks' hs
  · have hbytes : r.bytes = [r.ch] := by
      rw [Received.bytes, if_neg (htyped.ne_carriageReturn hstat)]
    obtain ⟨shell', hhandle, htracks'⟩ := htracks.arrow hstat htyped
    exact h.next_single hshell hbytes hhandle htracks' hs

/-- A carriage return that is swallowed shows at once. -/
theorem roundOk_of_agrees (hdom : s.Typed r) (h : s.Inv) (hs : s.step r = some (s', o))
    (h' : s'.Agrees) : s.RoundOk r := by
  intro next hnext hcr
  by_cases hend : next = carriageReturn ∨ next = lineFeed
  · exact hend.imp_right .inl
  obtain ⟨shell, hshell, htracks⟩ := h.shell
  obtain ⟨htyped, -, hbehind⟩ := hdom
  have hstat : s.editor.stat = .waitNormal := by
    by_contra hstat
    exact htyped.ne_carriageReturn hstat hcr
  have hall := feedAll_followed hstat hcr hnext
  have htypable : Editor.empty.Typable next := by
    have htypable := hbehind next hnext hcr
    rwa [hcr, s.editor.feed_end hstat (.inl rfl)] at htypable
  obtain ⟨hsilent, hleft⟩ := Editor.feed_empty htypable hend
  have hhandle := htracks.swallowed hstat hcr hnext htypable.ne_zero hend
  rw [hsilent] at hall
  cases hnormal : FinshShell.normalChar { shell with stat := .waitNormal } next with
  | none =>
    rw [hnormal, Option.map_none] at hhandle
    simp only [step, hshell, FinshShell.step, Option.map_some, hhandle, Option.some.injEq,
      Prod.mk.injEq] at hs
    obtain ⟨rfl, -⟩ := hs
    obtain ⟨-, shell', hnone, -⟩ := h'
    cases hnone
  | some shell' =>
    rw [hnormal, Option.map_some] at hhandle
    simp only [step, hshell, FinshShell.step, Option.map_some, hhandle, hall, Option.some.injEq,
      Prod.mk.injEq] at hs
    obtain ⟨rfl, -⟩ := hs
    obtain ⟨hlines, shell'', hsame, hholds⟩ := h'
    obtain rfl := Option.some.inj hsame
    have hempty : s.editor.line = [] := by
      by_contra hne
      rw [h.lines] at hlines
      simp [notEmpty, hne] at hlines
    have hposition : shell.linePosition = 0 := by
      rw [htracks.text.position]
      exact congrArg List.length hempty
    obtain hprintable | hleft := hleft
    · exact .inr (.inr ⟨hprintable, fun shell' hs' => by
        obtain rfl := Option.some.inj (hshell.symm.trans hs')
        exact hposition⟩)
    · -- a byte of control that went into the line
      obtain ⟨shell'', hinsert, htracks'⟩ := (htracks.withStat .waitNormal).insert
        htypable.ne_zero (show s.editor.line.length + 1 < finshCmdSize by rw [hempty]; decide)
      obtain rfl := Option.some.inj (hnormal.symm.trans hinsert)
      have hzero := hholds.position
      have hone := htracks'.text.position
      rw [show _ ++ _ = [] from hleft] at hzero
      rw [hone, List.length_append, List.length_append] at hzero
      simp at hzero

/-- The shell executes what is submitted, in lines that fit, as long as it finds nothing behind
a carriage return that belongs to the next line. -/
theorem editing_agrees_iff (rs : List Received) (h : machine.Meets Typed initial rs) :
    machine.Always Agrees initial rs ↔ machine.Meets RoundOk initial rs :=
  Machine.always_iff_meets_within (fun _ h => h.agrees)
    (fun _ _ _ _ hdom h hok hs => step_inv hdom h hok hs)
    (fun _ _ _ _ hdom h hs h' => roundOk_of_agrees hdom h hs h') inv_initial h

/-- A byte, and what is there already when it is read. -/
def arrives (ch : BitVec 8) (next : Option (BitVec 8)) (h : ch ≠ 0) : Received :=
  { FinshShell.typed with ch, next, ch_ne := h }

theorem carriageReturn_ne_zero : carriageReturn ≠ 0 := by decide

/-- `a`, and a line end on its own. -/
def typedLine : List Received :=
  [FinshShell.typed, arrives carriageReturn none carriageReturn_ne_zero]

theorem typedLine_agrees : machine.Meets Typed initial typedLine ∧
    (machine.Always Agrees initial typedLine ↔ machine.Meets RoundOk initial typedLine) := by
  have htyped : machine.Meets Typed initial typedLine := by decide +kernel
  exact ⟨htyped, editing_agrees_iff typedLine htyped⟩

/-- `a` and `b`, each with a carriage return, that have all arrived when the shell reads. -/
def twoLines : List Received :=
  [FinshShell.typed, arrives carriageReturn (some 0x62) carriageReturn_ne_zero,
    arrives carriageReturn none carriageReturn_ne_zero]

theorem carriage_return_swallowed : ∃ s os, machine.run initial twoLines = some (s, os) ∧
    machine.Meets Typed initial twoLines ∧ s.executed = [[0x61, 0x62]] ∧
    s.submitted = [[0x61], [0x62]] ∧ ¬ s.Agrees := by
  obtain ⟨⟨s, os⟩, hrun, hend⟩ := Option.map_eq_some_iff.mp
    (show (machine.run initial twoLines).map (fun r => (r.1.executed, r.1.submitted)) =
      some ([[0x61, 0x62]], [[0x61], [0x62]]) by decide +kernel)
  obtain ⟨hexecuted, hsubmitted⟩ := Prod.mk.inj hend
  refine ⟨s, os, hrun, by decide +kernel, hexecuted, hsubmitted, fun h => ?_⟩
  have hlines := h.1
  dsimp only at hexecuted hsubmitted
  rw [hexecuted, hsubmitted] at hlines
  exact absurd hlines (by decide)

end Editing
end RtThread
