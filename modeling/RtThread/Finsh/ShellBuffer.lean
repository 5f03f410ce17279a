import Mathlib.Data.List.Induction
import RtThread.Finsh.Shell
import RtThread.Library.Transition

/-!
# The line buffer of the shell

The line is a text and zeros behind it, with the cursor between two parts of the text. Each key is
an operation on the two parts.
-/
namespace RtThread
open Transition

namespace Key

/-- What a key brings into the line is no terminator, and it fits. -/
def Ok : Key → Prop
  | .complete completion => 0 ∉ completion ∧ completion.length < finshCmdSize
  | .insert ch => ch ≠ 0
  | _ => True

theorem ofChar_ok {ch : BitVec 8} (hch : ch ≠ 0) : (ofChar ch).Ok := by
  unfold ofChar
  split
  · trivial
  · exact hch

theorem ofNormal_ok (r : Received) : (ofNormal r).Ok := by
  unfold ofNormal
  split
  · split
    · split
      · exact ofChar_ok (by decide)
      · next hnext => exact ofChar_ok hnext
    · exact ofChar_ok (by decide)
  · split
    · exact ⟨r.completion_ne, r.completion_fits⟩
    · split
      · trivial
      · exact ofChar_ok r.ch_ne

theorem decode_ok (stat : InputStat) (r : Received) : (decode stat r).2.Ok := by
  unfold decode
  split
  · trivial
  · cases stat with
    | waitNormal => exact ofNormal_ok r
    | waitSpecKey =>
      dsimp only
      split
      · trivial
      · exact ofNormal_ok r
    | waitFuncKey =>
      dsimp only
      split_ifs
      · trivial
      · trivial
      · trivial
      · trivial
      · exact ofNormal_ok r

end Key

namespace FinshShell

/-- A text in a line, with zeros behind it. -/
def padded (text : List (BitVec 8)) : List (BitVec 8) :=
  text ++ List.replicate (finshCmdSize - text.length) 0

/-- A text that leaves room for its terminator. -/
structure IsLine (text : List (BitVec 8)) : Prop where
  nonzero : 0 ∉ text
  fits : text.length < finshCmdSize

variable {s s' : FinshShell} {text left right : List (BitVec 8)} {ch : BitVec 8}

/-! ## Strings in the buffer -/

theorem IsLine.padded_eq (h : IsLine text) :
    padded text = text ++ 0 :: List.replicate (finshCmdSize - text.length - 1) 0 := by
  obtain ⟨k, hk⟩ : ∃ k, finshCmdSize - text.length = k + 1 :=
    ⟨finshCmdSize - text.length - 1, by have := h.fits; omega⟩
  rw [padded, hk, List.replicate_succ, Nat.add_sub_cancel]

theorem length_padded (h : text.length ≤ finshCmdSize) : (padded text).length = finshCmdSize := by
  rw [padded, List.length_append, List.length_replicate]
  omega

theorem strlen_append (hnonzero : 0 ∉ text) (rest : List (BitVec 8)) :
    strlen (text ++ 0 :: rest) = some text.length := by
  induction text with
  | nil => rfl
  | cons c text ih =>
    obtain ⟨hc, htext⟩ := not_or.mp (mt List.mem_cons.mpr hnonzero)
    have hrest := ih htext
    unfold strlen at hrest ⊢
    rw [List.cons_append, List.findIdx?_cons, if_neg (by simpa using Ne.symm hc), hrest]
    rfl

theorem IsLine.strlen (h : IsLine text) : strlen (padded text) = some text.length := by
  rw [h.padded_eq]
  exact strlen_append h.nonzero _

/-- From anywhere in the text the string ends at its end. -/
theorem IsLine.strlen_drop (h : IsLine (left ++ right)) :
    FinshShell.strlen ((padded (left ++ right)).drop left.length) = some right.length := by
  rw [h.padded_eq, List.append_assoc, List.drop_left]
  exact strlen_append (fun hmem => h.nonzero (List.mem_append_right _ hmem)) _

theorem storeByte_append (before : List (BitVec 8)) (c : BitVec 8) (rest : List (BitVec 8))
    (ch : BitVec 8) :
    storeByte (before ++ c :: rest) before.length ch = some (before ++ ch :: rest) := by
  rw [storeByte, if_pos (by simp)]
  simp

/-- A part moves one byte on, and a byte goes before it. -/
theorem memmove_insert (before part : List (BitVec 8)) (c : BitVec 8) (rest : List (BitVec 8))
    (ch : BitVec 8) :
    (memmove (before ++ (part ++ c :: rest)) (before.length + 1) before.length part.length).bind
      (storeByte · before.length ch) = some (before ++ ch :: (part ++ rest)) := by
  obtain ⟨x, tail, hx⟩ : ∃ x tail, part ++ c :: rest = x :: tail :=
    List.exists_cons_of_ne_nil (by simp)
  have htake : (before ++ (part ++ c :: rest)).take (before.length + 1) = before ++ [x] := by
    rw [hx, List.take_length_add_append]
    rfl
  have hmoved : ((before ++ (part ++ c :: rest)).drop before.length).take part.length = part := by
    rw [List.drop_left, List.take_left]
  have hdrop : (before ++ (part ++ c :: rest)).drop (before.length + 1 + part.length) = rest := by
    rw [Nat.add_assoc, List.drop_length_add_append, Nat.add_comm, List.drop_length_add_append]
    rfl
  rw [memmove, if_pos (by simp; omega), htake, hmoved, hdrop, Option.bind_some, List.append_assoc,
    List.append_assoc, List.singleton_append]
  exact storeByte_append before x (part ++ rest) ch

/-- A part moves one byte back, over the byte before it. -/
theorem memmove_erase (before part : List (BitVec 8)) (c : BitVec 8) (rest : List (BitVec 8))
    (ch : BitVec 8) :
    (memmove (before ++ c :: (part ++ rest)) before.length (before.length + 1) part.length).bind
      (storeByte · (before.length + part.length) ch) = some (before ++ (part ++ ch :: rest)) := by
  obtain ⟨init, x, hx⟩ : ∃ init x, c :: part = init ++ [x] :=
    ⟨_, _, (List.dropLast_append_getLast (List.cons_ne_nil c part)).symm⟩
  have hlength : part.length = init.length := by
    have hlength := congrArg List.length hx
    simpa using hlength
  have hmoved : ((before ++ c :: (part ++ rest)).drop (before.length + 1)).take part.length =
      part := by
    rw [List.drop_length_add_append]
    exact List.take_left
  have hdrop : (before ++ c :: (part ++ rest)).drop (before.length + part.length) = x :: rest := by
    rw [List.drop_length_add_append, ← List.cons_append, hx, hlength, List.append_assoc,
      List.drop_left]
    rfl
  rw [memmove, if_pos (by simp; omega), List.take_left, hmoved, hdrop, Option.bind_some,
    ← List.length_append, ← List.append_assoc]
  exact storeByte_append (before ++ part) x rest ch

theorem IsLine.erase (h : IsLine (left ++ [ch] ++ right)) : IsLine (left ++ right) := by
  obtain ⟨hnonzero, hfits⟩ := h
  refine ⟨fun hmem => hnonzero ?_, ?_⟩
  · simp only [List.mem_append] at hmem ⊢
    exact hmem.imp_left .inl
  · simp only [List.length_append, List.length_singleton] at hfits ⊢
    omega

theorem IsLine.insert (h : IsLine (left ++ right)) (hch : ch ≠ 0)
    (hroom : (left ++ right).length + 1 < finshCmdSize) : IsLine (left ++ [ch] ++ right) := by
  refine ⟨fun hmem => ?_, ?_⟩
  · simp only [List.mem_append, List.mem_singleton] at hmem
    obtain (hleft | rfl) | hright := hmem
    · exact h.nonzero (List.mem_append_left _ hleft)
    · exact hch rfl
    · exact h.nonzero (List.mem_append_right _ hright)
  · simp only [List.length_append, List.length_singleton] at hroom ⊢
    omega

/-! ## The text on both sides of the cursor -/

/-- The shell with a text in its line. -/
def edited (s : FinshShell) (left right : List (BitVec 8)) : FinshShell :=
  { s with
    line := padded (left ++ right)
    linePosition := (left ++ right).length
    lineCurpos := left.length }

structure Holds (s : FinshShell) (left right : List (BitVec 8)) : Prop where
  isLine : IsLine (left ++ right)
  state : s = s.edited left right

theorem edited_holds (s : FinshShell) (h : IsLine (left ++ right)) :
    (s.edited left right).Holds left right := ⟨h, rfl⟩

namespace Holds

theorem line (h : s.Holds left right) : s.line = padded (left ++ right) := by
  rw [h.state]
  rfl

theorem position (h : s.Holds left right) : s.linePosition = (left ++ right).length := by
  rw [h.state]
  rfl

theorem curpos (h : s.Holds left right) : s.lineCurpos = left.length := by
  rw [h.state]
  rfl

theorem succ8_position (h : s.Holds left right) :
    succ8 s.linePosition = (left ++ right).length + 1 := by
  have hfits : (left ++ right).length < 80 := h.isLine.fits
  rw [succ8, h.position]
  omega

theorem leftKey_start (h : s.Holds [] right) : s.leftKey = some s := by
  rw [leftKey, h.curpos]
  rfl

theorem leftKey (h : s.Holds (left ++ [ch]) right) :
    s.leftKey = some (s.edited left (ch :: right)) := by
  have hfits : (left ++ [ch] ++ right).length < 80 := h.isLine.fits
  have hcurpos := h.curpos
  simp only [List.length_append, List.length_singleton] at hfits hcurpos
  have hpred : pred8 s.lineCurpos = left.length := by
    rw [pred8, hcurpos]
    omega
  have hline := h.line
  have hposition := h.position
  rw [List.append_assoc, List.singleton_append] at hline hposition
  rw [FinshShell.leftKey, if_pos (by omega), hpred, edited, ← hline, ← hposition]

theorem rightKey_end (h : s.Holds left []) : s.rightKey = some s := by
  rw [rightKey, h.curpos, h.position, List.append_nil, if_neg (Nat.lt_irrefl _)]

theorem rightKey (h : s.Holds left (ch :: right)) :
    s.rightKey = some (s.edited (left ++ [ch]) right) := by
  have hfits : (left ++ ch :: right).length < 80 := h.isLine.fits
  have hlt : s.lineCurpos < s.linePosition := by
    rw [h.curpos, h.position, List.length_append, List.length_cons]
    omega
  have hread : s.line[s.lineCurpos]? = some ch := by
    rw [h.line, h.curpos, padded, List.append_assoc, List.getElem?_append_right (Nat.le_refl _)]
    simp
  have hsucc : succ8 s.lineCurpos = (left ++ [ch]).length := by
    rw [List.length_append, List.length_cons] at hfits
    rw [succ8, h.curpos, List.length_append, List.length_singleton]
    omega
  have hline := h.line
  have hposition := h.position
  rw [← List.singleton_append, ← List.append_assoc] at hline hposition
  rw [FinshShell.rightKey, if_pos hlt, hread, Option.map_some, hsucc, edited, ← hline, ← hposition]

theorem backspaceKey_start (h : s.Holds [] right) : s.backspaceKey = some s :=
  if_pos h.curpos

theorem backspaceKey (h : s.Holds (left ++ [ch]) right) :
    s.backspaceKey = some (s.edited left right) := by
  have hfits : (left ++ [ch] ++ right).length < 80 := h.isLine.fits
  have hcurpos := h.curpos
  have hposition := h.position
  simp only [List.length_append, List.length_singleton] at hfits hcurpos hposition
  have hpred : pred8 s.lineCurpos = left.length := by
    rw [pred8, hcurpos]
    omega
  have hpred' : pred8 s.linePosition = left.length + right.length := by
    rw [pred8, hposition]
    omega
  have hkept := h.isLine.erase
  have hline : s.line = left ++ ch :: (right ++
      List.replicate (finshCmdSize - (left ++ [ch] ++ right).length) 0) := by
    rw [h.line, padded, List.append_assoc, List.append_assoc]
    rfl
  have hzeros : padded (left ++ right) = left ++ (right ++
      0 :: List.replicate (finshCmdSize - (left ++ [ch] ++ right).length) 0) := by
    have hcount : finshCmdSize - (left ++ right).length - 1 =
        finshCmdSize - (left ++ [ch] ++ right).length := by
      simp only [List.length_append, List.length_singleton]
      omega
    rw [hkept.padded_eq, List.append_assoc, hcount]
  rw [FinshShell.backspaceKey, if_neg (by omega)]
  dsimp only
  rw [hpred, hpred']
  split
  · have hlength : left.length + right.length - left.length = right.length := by omega
    rw [← Option.bind_assoc, hlength, hline, memmove_erase, Option.bind_some, ← hzeros,
      hkept.strlen_drop, Option.map_some, edited, List.length_append]
  · next hright =>
    obtain rfl : right = [] := List.length_eq_zero_iff.mp (by omega)
    rw [List.nil_append] at hline hzeros
    rw [hline, List.length_nil, Nat.add_zero, storeByte_append, Option.map_some, ← hzeros, edited,
      List.append_nil]

/-- The line in which a byte is inserted. -/
theorem normalChar_line (h : s.Holds left right) (ch : BitVec 8) :
    (if s.lineCurpos < s.linePosition then
      (memmove s.line (s.lineCurpos + 1) s.lineCurpos (s.linePosition - s.lineCurpos)).bind
        (storeByte · s.lineCurpos ch)
    else storeByte s.line s.linePosition ch) =
      some (left ++ ch :: (right ++
        List.replicate (finshCmdSize - (left ++ right).length - 1) 0)) := by
  have hline := h.line
  rw [h.isLine.padded_eq, List.append_assoc] at hline
  have hposition := h.position
  rw [List.length_append] at hposition
  rw [h.curpos, hposition, hline]
  split
  · rw [Nat.add_sub_cancel_left]
    exact memmove_insert left right 0 _ ch
  · next hright =>
    obtain rfl : right = [] := List.length_eq_zero_iff.mp (by omega)
    rw [List.length_nil, Nat.add_zero, List.nil_append, List.nil_append]
    exact storeByte_append left 0 _ ch

/-- An insertion in the middle is shown, up to the end of the string. -/
theorem normalChar_cases (h : s.Holds left right) {line : List (BitVec 8)}
    (hline : line = left ++ ch :: (right ++
      List.replicate (finshCmdSize - (left ++ right).length - 1) 0)) :
    s.normalChar ch =
      (if s.lineCurpos < s.linePosition ∧ s.echoMode = true then
        (FinshShell.strlen (line.drop left.length)).map fun _ => line
      else some line).map fun line =>
        if (left ++ right).length + 1 ≥ 80 then
          { s with line := line, linePosition := 0, lineCurpos := 0 }
        else
          { s with
            line := line
            linePosition := (left ++ right).length + 1
            lineCurpos := left.length + 1 } := by
  have hfits : (left ++ right).length < 80 := h.isLine.fits
  have hstored := h.normalChar_line ch
  rw [← hline] at hstored
  have hsucc : succ8 s.lineCurpos = left.length + 1 := by
    rw [List.length_append] at hfits
    rw [succ8, h.curpos]
    omega
  have hsmall : ¬ s.linePosition ≥ finshCmdSize := by
    rw [h.position]
    exact Nat.not_le.mpr h.isLine.fits
  rw [FinshShell.normalChar, if_neg hsmall, hsucc, h.succ8_position]
  congr 1
  split at hstored
  · next hlt =>
    rw [if_pos hlt, ← Option.bind_assoc, hstored, Option.bind_some, h.curpos]
    cases s.echoMode with
    | false => rw [if_neg Bool.false_ne_true, if_neg (fun hboth => by cases hboth.2)]
    | true => rw [if_pos rfl, if_pos ⟨by rwa [h.curpos] at hlt, rfl⟩]
  · next hge => rw [if_neg hge, if_neg (fun hboth => hge hboth.1), hstored]

theorem normalChar (h : s.Holds left right) (hch : ch ≠ 0)
    (hroom : (left ++ right).length + 1 < finshCmdSize) :
    s.normalChar ch = some (s.edited (left ++ [ch]) right) := by
  have hkept := h.isLine.insert hch hroom
  have hpadded : padded (left ++ [ch] ++ right) = left ++ ch :: (right ++
      List.replicate (finshCmdSize - (left ++ right).length - 1) 0) := by
    have hcount : finshCmdSize - (left ++ [ch] ++ right).length =
        finshCmdSize - (left ++ right).length - 1 := by
      simp only [List.length_append, List.length_singleton]
      omega
    rw [padded, hcount, List.append_assoc, List.append_assoc]
    rfl
  have hshown : FinshShell.strlen ((padded (left ++ [ch] ++ right)).drop left.length) =
      some (ch :: right).length := by
    rw [List.append_assoc] at hkept ⊢
    exact hkept.strlen_drop
  have hresult : ¬ (left ++ right).length + 1 ≥ 80 := Nat.not_le.mpr hroom
  have hcursor : (left ++ [ch]).length = left.length + 1 := List.length_append
  have hlength : (left ++ right).length + 1 = (left ++ [ch] ++ right).length := by
    simp only [List.length_append, List.length_singleton]
    omega
  rw [h.normalChar_cases hpadded, hshown, Option.map_some, ite_self, Option.map_some,
    if_neg hresult, hlength, ← hcursor, edited]

/-- Without room for the byte the line is left without a terminator. -/
theorem normalChar_full (h : s.Holds left right) (hch : ch ≠ 0)
    (hfull : (left ++ right).length + 1 = finshCmdSize) (hs : s.normalChar ch = some s') :
    s'.linePosition = 0 ∧ s'.line[0]? ≠ some 0 := by
  have hzeros : finshCmdSize - (left ++ right).length - 1 = 0 := by omega
  rw [h.normalChar_cases rfl, hzeros, List.replicate_zero, List.append_nil] at hs
  obtain ⟨line, hline, hs⟩ := Option.map_eq_some_iff.mp hs
  have hge : (left ++ right).length + 1 ≥ 80 := Nat.le_of_eq hfull.symm
  rw [if_pos hge] at hs
  obtain rfl : left ++ ch :: right = line := by
    split at hline
    · obtain ⟨_, -, hline⟩ := Option.map_eq_some_iff.mp hline
      exact hline
    · exact Option.some.inj hline
  subst hs
  refine ⟨rfl, fun hzero => ?_⟩
  have hmem := List.mem_of_getElem? hzero
  obtain hleft | hmem := List.mem_append.mp hmem
  · exact h.isLine.nonzero (List.mem_append_left _ hleft)
  · obtain rfl | hright := List.mem_cons.mp hmem
    · exact hch rfl
    · exact h.isLine.nonzero (List.mem_append_right _ hright)

/-- The completion is as much of the line as it covers. -/
theorem tabKey (h : s.Holds left right) {completion : List (BitVec 8)} (hnonzero : 0 ∉ completion)
    (hfits : completion.length < finshCmdSize) :
    ∃ text, IsLine text ∧ s.tabKey completion = some (s.edited text []) := by
  have hline := h.line
  have hisLine := h.isLine
  generalize left ++ right = old at hline hisLine
  have hroom := hisLine.fits
  have hkept : IsLine (completion ++ old.drop completion.length) := by
    refine ⟨fun hmem => ?_, ?_⟩
    · obtain hmem | hmem := List.mem_append.mp hmem
      · exact hnonzero hmem
      · exact hisLine.nonzero (List.mem_of_mem_drop hmem)
    · rw [List.length_append, List.length_drop]
      omega
  have hwritten : completion ++ (padded old).drop completion.length =
      padded (completion ++ old.drop completion.length) := by
    have hcount : finshCmdSize - old.length - (completion.length - old.length) =
        finshCmdSize - (completion ++ old.drop completion.length).length := by
      rw [List.length_append, List.length_drop]
      omega
    rw [padded, List.drop_append, List.drop_replicate, hcount, padded, List.append_assoc]
  have hsmall : (completion ++ old.drop completion.length).length < 80 := hkept.fits
  refine ⟨_, hkept, ?_⟩
  rw [FinshShell.tabKey, hline, hisLine.strlen, Option.bind_some,
    if_pos (by rw [length_padded (Nat.le_of_lt hroom)]; exact Nat.le_of_lt hfits), hwritten]
  dsimp only
  rw [hkept.strlen, Option.map_some, Nat.mod_eq_of_lt (by omega), edited, List.append_nil]

/-! ## The history -/

end Holds

/-- The lines of the history are texts, and the cursor in it stands at one of them or behind. -/
structure HistoryOk (s : FinshShell) : Prop where
  length : s.cmdHistory.length = finshHistoryLines
  lines : ∀ row ∈ s.cmdHistory, ∃ text, IsLine text ∧ row = padded text
  count : s.historyCount ≤ finshHistoryLines
  current : s.currentHistory ≤ s.historyCount

theorem isLine_nil : IsLine [] := ⟨List.not_mem_nil, by decide⟩

theorem HistoryOk.historyToLine (h : s.HistoryOk) (index : ℕ) (hindex : index < s.historyCount) :
    ∃ text, IsLine text ∧ FinshShell.historyToLine { s with currentHistory := index } =
      some ({ s with currentHistory := index }.edited text []) := by
  have hlt : index < s.cmdHistory.length := by
    have := h.count
    rw [h.length]
    omega
  obtain ⟨text, hline, hrow⟩ := h.lines s.cmdHistory[index] (List.getElem_mem hlt)
  refine ⟨text, hline, ?_⟩
  have hfits : text.length < 80 := hline.fits
  rw [FinshShell.historyToLine, List.getElem?_eq_getElem hlt, Option.bind_some, hrow, hline.strlen,
    Option.map_some, Nat.mod_eq_of_lt (by omega), edited, List.append_nil]

theorem HistoryOk.upKey (h : s.HistoryOk) : ∃ index, index ≤ s.historyCount ∧
    (s.upKey = some { s with currentHistory := index } ∨ ∃ text, IsLine text ∧
      s.upKey = some ({ s with currentHistory := index }.edited text [])) := by
  have hcurrent := h.current
  unfold FinshShell.upKey
  split
  · obtain ⟨text, hline, hrecall⟩ := h.historyToLine (s.currentHistory - 1) (by omega)
    exact ⟨s.currentHistory - 1, by omega, .inr ⟨text, hline, hrecall⟩⟩
  · exact ⟨0, Nat.zero_le _, .inl rfl⟩

theorem HistoryOk.downKey (h : s.HistoryOk) : ∃ index, index ≤ s.historyCount ∧
    (s.downKey = some { s with currentHistory := index } ∨ ∃ text, IsLine text ∧
      s.downKey = some ({ s with currentHistory := index }.edited text [])) := by
  unfold FinshShell.downKey
  split
  · next hlt =>
    obtain ⟨text, hline, hrecall⟩ := h.historyToLine _ hlt
    exact ⟨s.currentHistory + 1, by omega, .inr ⟨text, hline, hrecall⟩⟩
  · split
    · obtain ⟨text, hline, hrecall⟩ := h.historyToLine (s.historyCount - 1) (by omega)
      exact ⟨s.historyCount - 1, by omega, .inr ⟨text, hline, hrecall⟩⟩
    · exact ⟨s.currentHistory, h.current, .inl rfl⟩

theorem Holds.historyLine (h : s.Holds left right) :
    s.historyLine = some (padded (left ++ right)) := by
  have hle : s.linePosition ≤ s.line.length := by
    rw [h.line, h.position, length_padded (Nat.le_of_lt h.isLine.fits)]
    exact Nat.le_of_lt h.isLine.fits
  rw [FinshShell.historyLine, if_pos hle, h.position, h.line, padded, List.take_left]

/-- The history with its new line. -/
theorem Holds.shellPushHistory (h : s.Holds left right) (hhistory : s.HistoryOk) :
    ∃ rows count, s.shellPushHistory =
        some { s with cmdHistory := rows, historyCount := count, currentHistory := count } ∧
      HistoryOk { s with cmdHistory := rows, historyCount := count, currentHistory := count } := by
  have hrow : ∃ text, IsLine text ∧ padded (left ++ right) = padded text := ⟨_, h.isLine, rfl⟩
  unfold FinshShell.shellPushHistory
  split
  · rw [h.historyLine, Option.map_some]
    split
    · refine ⟨_, _, rfl, ?_, fun row hmem => ?_, Nat.le_refl _, Nat.le_refl _⟩
      · rw [List.length_append, List.length_tail, hhistory.length]
        rfl
      · obtain hmem | hmem := List.mem_append.mp hmem
        · exact hhistory.lines row (List.mem_of_mem_tail hmem)
        · rw [List.mem_singleton.mp hmem]
          exact hrow
    · next hroom =>
      refine ⟨_, _, rfl, ?_, fun row hmem => ?_, Nat.lt_of_not_le hroom, Nat.le_refl _⟩
      · rw [List.length_set, hhistory.length]
      · obtain hmem | rfl := List.mem_or_eq_of_mem_set hmem
        · exact hhistory.lines row hmem
        · exact hrow
  · exact ⟨_, _, rfl, hhistory.length, hhistory.lines, hhistory.count, Nat.le_refl _⟩

/-- The end of a line passes the text on and keeps it. -/
theorem Holds.lineEnd (h : s.Holds left right) (hhistory : s.HistoryOk) (echo : Bool) :
    ∃ s', s.lineEnd echo = some (s', left ++ right) ∧ s'.Holds [] [] ∧ s'.HistoryOk ∧
      s'.stat = s.stat := by
  obtain ⟨rows, count, hpush, hkept⟩ := h.shellPushHistory hhistory
  have htake : (padded (left ++ right)).take (left ++ right).length = left ++ right :=
    List.take_left
  refine ⟨{ s with
    cmdHistory := rows
    historyCount := count
    currentHistory := count
    echoMode := echo
    line := List.replicate finshCmdSize 0
    linePosition := 0
    lineCurpos := 0 }, ?_, ⟨isLine_nil, rfl⟩,
    ⟨hkept.length, hkept.lines, hkept.count, hkept.current⟩, rfl⟩
  rw [FinshShell.lineEnd, hpush, Option.bind_some, h.line, h.isLine.strlen, Option.map_some, htake]

/-! ## Runs of the loop -/

/-- A shell without a state has left its buffers. -/
def step (s : Option FinshShell) (r : Received) :
    Option (Option FinshShell × Option (List (BitVec 8))) :=
  s.map fun shell =>
    match shell.handle r with
    | none => (none, none)
    | some (shell', line) => (some shell', line)

def machine : Machine (Option FinshShell) Received (Option (List (BitVec 8))) := ⟨step⟩

/-- The cursors stand in the line, and it ends where the text does. -/
def Good (s : Option FinshShell) : Prop :=
  ∃ shell, s = some shell ∧ shell.lineCurpos ≤ shell.linePosition ∧
    shell.linePosition < finshCmdSize ∧ shell.line[shell.linePosition]? = some 0

/-- The condition on a round: no byte is inserted that needs the last place of the line. -/
def RoundOk (s : Option FinshShell) (r : Received) : Prop :=
  ∀ shell ch, s = some shell → (Key.decode shell.stat r).2 = .insert ch →
    shell.linePosition + 1 < finshCmdSize

/-- The shell holds a text and its history. -/
structure Sound (s : FinshShell) : Prop where
  text : ∃ left right, s.Holds left right
  history : s.HistoryOk

theorem Holds.withStat (h : s.Holds left right) (stat : InputStat) :
    Holds { s with stat := stat } left right :=
  ⟨h.isLine, congrArg (fun s : FinshShell => { s with stat := stat }) h.state⟩

theorem sound_initial : initial.Sound where
  text := ⟨[], [], isLine_nil, rfl⟩
  history := by
    refine ⟨rfl, fun row hmem => ⟨[], isLine_nil, ?_⟩, Nat.zero_le _, Nat.le_refl _⟩
    exact List.eq_of_mem_replicate hmem

theorem Sound.good (h : s.Sound) : Good (some s) := by
  obtain ⟨left, right, hholds⟩ := h.text
  refine ⟨s, rfl, ?_, ?_, ?_⟩
  · rw [hholds.curpos, hholds.position, List.length_append]
    exact Nat.le_add_right _ _
  · rw [hholds.position]
    exact hholds.isLine.fits
  · rw [hholds.position, hholds.line, hholds.isLine.padded_eq,
      List.getElem?_append_right (Nat.le_refl _), Nat.sub_self]
    rfl

/-- Only the history and the text make a shell sound. -/
theorem Sound.edited (h : s.Sound) (hline : IsLine (left ++ right)) :
    (s.edited left right).Sound :=
  ⟨⟨left, right, s.edited_holds hline⟩,
    ⟨h.history.length, h.history.lines, h.history.count, h.history.current⟩⟩

theorem Sound.edited_text (h : s.Sound) (hline : IsLine text) : (s.edited text []).Sound :=
  h.edited (by rwa [List.append_nil])

theorem Sound.withHistory (h : s.Sound) {index : ℕ} (hindex : index ≤ s.historyCount) :
    Sound { s with currentHistory := index } := by
  obtain ⟨left, right, hholds⟩ := h.text
  exact ⟨⟨left, right, hholds.isLine,
    congrArg (fun s : FinshShell => { s with currentHistory := index }) hholds.state⟩,
    ⟨h.history.length, h.history.lines, h.history.count, hindex⟩⟩

theorem Sound.withStat (h : s.Sound) (stat : InputStat) : Sound { s with stat := stat } := by
  obtain ⟨left, right, hholds⟩ := h.text
  exact ⟨⟨left, right, hholds.withStat stat⟩,
    ⟨h.history.length, h.history.lines, h.history.count, h.history.current⟩⟩

/-- Every key keeps the shell sound, as long as there is room for what it inserts. -/
theorem Sound.press (h : s.Sound) {key : Key} (hkey : key.Ok) (echo : Bool)
    (hroom : ∀ ch, key = .insert ch → s.linePosition + 1 < finshCmdSize) :
    ∃ s' line, s.press echo key = some (s', line) ∧ s'.Sound := by
  obtain ⟨left, right, hholds⟩ := h.text
  cases key with
  | pending => exact ⟨s, none, rfl, h⟩
  | up =>
    obtain ⟨index, hindex, hup | ⟨text, hline, hup⟩⟩ := h.history.upKey
    · exact ⟨_, none, congrArg (Option.map (·, none)) hup, h.withHistory hindex⟩
    · exact ⟨_, none, congrArg (Option.map (·, none)) hup, (h.withHistory hindex).edited_text hline⟩
  | down =>
    obtain ⟨index, hindex, hdown | ⟨text, hline, hdown⟩⟩ := h.history.downKey
    · exact ⟨_, none, congrArg (Option.map (·, none)) hdown, h.withHistory hindex⟩
    · exact ⟨_, none, congrArg (Option.map (·, none)) hdown,
        (h.withHistory hindex).edited_text hline⟩
  | right =>
    cases right with
    | nil => exact ⟨s, none, congrArg (Option.map (·, none)) hholds.rightKey_end, h⟩
    | cons c right =>
      refine ⟨_, none, congrArg (Option.map (·, none)) hholds.rightKey, h.edited ?_⟩
      rw [List.append_assoc]
      exact hholds.isLine
  | left =>
    cases left using List.reverseRecOn with
    | nil => exact ⟨s, none, congrArg (Option.map (·, none)) hholds.leftKey_start, h⟩
    | append_singleton left c _ =>
      refine ⟨_, none, congrArg (Option.map (·, none)) hholds.leftKey, h.edited ?_⟩
      rw [← List.singleton_append, ← List.append_assoc]
      exact hholds.isLine
  | complete completion =>
    obtain ⟨text, hline, htab⟩ := hholds.tabKey hkey.1 hkey.2
    exact ⟨_, none, congrArg (Option.map (·, none)) htab, h.edited_text hline⟩
  | erase =>
    cases left using List.reverseRecOn with
    | nil => exact ⟨s, none, congrArg (Option.map (·, none)) hholds.backspaceKey_start, h⟩
    | append_singleton left c _ =>
      exact ⟨_, none, congrArg (Option.map (·, none)) hholds.backspaceKey,
        h.edited hholds.isLine.erase⟩
  | submit =>
    obtain ⟨s', hend, hholds', hhistory, -⟩ := hholds.lineEnd h.history echo
    exact ⟨s', some (left ++ right), by rw [FinshShell.press, hend]; rfl,
      ⟨[], [], hholds'⟩, hhistory⟩
  | insert ch =>
    have hfits := hroom ch rfl
    rw [hholds.position] at hfits
    exact ⟨_, none, congrArg (Option.map (·, none)) (hholds.normalChar hkey hfits),
      h.edited (hholds.isLine.insert hkey hfits)⟩

theorem step_inv {s : FinshShell} (h : s.Sound) {r : Received} (hok : RoundOk (some s) r)
    {s' : Option FinshShell} {line : Option (List (BitVec 8))}
    (hs : step (some s) r = some (s', line)) : ∃ shell, s' = some shell ∧ shell.Sound := by
  obtain ⟨shell, line', hhandle, hsound⟩ := (h.withStat (Key.decode s.stat r).1).press
    (Key.decode_ok s.stat r) r.echo (fun ch hch => hok s ch rfl hch)
  have hhandle : s.handle r = some (shell, line') := hhandle
  simp only [step, hhandle, Option.map_some, Option.some.injEq, Prod.mk.injEq] at hs
  exact ⟨shell, hs.1.symm, hsound⟩

/-- A byte in the last place of the line shows at once. -/
theorem roundOk_of_good {s : FinshShell} (h : s.Sound) {r : Received} {s' : Option FinshShell}
    {line : Option (List (BitVec 8))} (hs : step (some s) r = some (s', line)) (h' : Good s') :
    RoundOk (some s) r := by
  rintro _ ch ⟨⟩ hch
  by_contra hfull
  obtain ⟨shell, rfl, -, hlt, hend⟩ := h'
  obtain ⟨left, right, hholds⟩ := (h.withStat (Key.decode s.stat r).1).text
  have hkey := Key.decode_ok s.stat r
  rw [hch] at hkey
  have hposition := hholds.position
  have hfits := hholds.isLine.fits
  dsimp only at hposition
  have hhandle : s.handle r = (FinshShell.normalChar { s with stat := (Key.decode s.stat r).1 }
      ch).map (·, none) := by
    change FinshShell.press _ _ (Key.decode s.stat r).2 = _
    rw [hch]
    rfl
  cases hnormal : FinshShell.normalChar { s with stat := (Key.decode s.stat r).1 } ch with
  | none =>
    rw [hnormal, Option.map_none] at hhandle
    simp [step, hhandle] at hs
  | some shell' =>
    rw [hnormal, Option.map_some] at hhandle
    simp only [step, hhandle, Option.map_some, Option.some.injEq, Prod.mk.injEq] at hs
    obtain ⟨rfl, -⟩ := hs
    obtain ⟨hzero, hline⟩ := hholds.normalChar_full hkey (by omega) hnormal
    rw [hzero] at hend
    exact hline hend

def SoundState (s : Option FinshShell) : Prop := ∃ shell, s = some shell ∧ shell.Sound

/-- The line keeps its terminator and the shell its buffers for as long as nothing is inserted in a
line of 79 characters. -/
theorem line_terminated_iff (rs : List Received) :
    machine.Always Good (some initial) rs ↔ machine.Meets RoundOk (some initial) rs := by
  refine Machine.always_iff_meets (fun s (h : SoundState s) => ?_) (fun s r s' line h hok hs => ?_)
    (fun s r s' line h hs h' => ?_) ⟨initial, rfl, sound_initial⟩
  · obtain ⟨shell, rfl, h⟩ := h
    exact h.good
  · obtain ⟨shell, rfl, h⟩ := h
    exact step_inv h hok hs
  · obtain ⟨shell, rfl, h⟩ := h
    exact roundOk_of_good h hs h'

/-- The byte `a` as it is typed. -/
def typed : Received := ⟨0x61, none, [], true, by decide, List.not_mem_nil, by decide⟩

/-- Eighty characters fill the line, and nothing ends it. -/
theorem line_filled : ∃ shell os,
    machine.run (some initial) (List.replicate 80 typed) = some (some shell, os) ∧
      shell.linePosition = 0 ∧ shell.line = List.replicate 80 0x61 ∧ ¬ Good (some shell) := by
  obtain ⟨⟨s, os⟩, hrun, hend⟩ := Option.map_eq_some_iff.mp
    (show (machine.run (some initial) (List.replicate 80 typed)).map
      (fun r => r.1.map fun shell => (shell.linePosition, shell.line)) =
        some (some (0, List.replicate 80 0x61)) by decide +kernel)
  obtain ⟨shell, rfl, hshell⟩ := Option.map_eq_some_iff.mp hend
  obtain ⟨hposition, hline⟩ := Prod.mk.inj hshell
  refine ⟨shell, os, hrun, hposition, hline, ?_⟩
  rintro ⟨_, ⟨⟩, -, -, hnul⟩
  rw [hposition, hline] at hnul
  exact absurd hnul (by decide)

end FinshShell
end RtThread
