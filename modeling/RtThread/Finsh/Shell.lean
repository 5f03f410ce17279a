import Mathlib.Data.List.Basic
import Mathlib.Tactic.Common

/-!
# The shell of finsh

`finsh_thread_entry` reads bytes from its device, edits a line with them and passes the line to
`msh_exec`. Every access to the line and to the history is checked: `none` is an access outside.
-/
namespace RtThread

def finshCmdSize : ℕ := 80
def finshHistoryLines : ℕ := 5

inductive InputStat where
  | waitNormal
  | waitSpecKey
  | waitFuncKey
  deriving DecidableEq

/-- The cursors are numbers below 256. -/
structure FinshShell where
  stat : InputStat
  echoMode : Bool
  currentHistory : ℕ
  historyCount : ℕ
  cmdHistory : List (List (BitVec 8))
  line : List (BitVec 8)
  linePosition : ℕ
  lineCurpos : ℕ
  deriving DecidableEq

/-- What the loop reads in one round. -/
structure Received where
  ch : BitVec 8
  /-- What the second read finds, after a carriage return. -/
  next : Option (BitVec 8)
  /-- What the line is completed to, at a tab. -/
  completion : List (BitVec 8)
  /-- The echo mode that a command leaves. -/
  echo : Bool
  ch_ne : ch ≠ 0
  completion_ne : 0 ∉ completion
  completion_fits : completion.length < finshCmdSize

/-- What a byte, with those before it, asks for. -/
inductive Key where
  | pending
  | up
  | down
  | right
  | left
  | complete (completion : List (BitVec 8))
  | erase
  | submit
  | insert (ch : BitVec 8)
  deriving DecidableEq

def carriageReturn : BitVec 8 := 0x0d
def lineFeed : BitVec 8 := 0x0a
def escape : BitVec 8 := 0x1b

namespace Key

def ofChar (ch : BitVec 8) : Key :=
  if ch = carriageReturn ∨ ch = lineFeed then .submit else .insert ch

/-- A byte that belongs to no control sequence. -/
def ofNormal (r : Received) : Key :=
  if r.ch = carriageReturn then
    match r.next with
    | some next => if next = 0 then .ofChar carriageReturn else .ofChar next
    | none => .ofChar carriageReturn
  else if r.ch = 0x09 then .complete r.completion
  else if r.ch = 0x7f ∨ r.ch = 0x08 then .erase
  else .ofChar r.ch

/-- The key, and the state in which the next byte is read. -/
def decode (stat : InputStat) (r : Received) : InputStat × Key :=
  if r.ch = escape then (.waitSpecKey, .pending)
  else
    match stat with
    | .waitSpecKey =>
      if r.ch = 0x5b then (.waitFuncKey, .pending) else (.waitNormal, .ofNormal r)
    | .waitFuncKey =>
      (.waitNormal,
        if r.ch = 0x41 then .up
        else if r.ch = 0x42 then .down
        else if r.ch = 0x44 then .left
        else if r.ch = 0x43 then .right
        else .ofNormal r)
    | .waitNormal => (.waitNormal, .ofNormal r)

end Key

namespace FinshShell

/-- The length of the string at the start of the bytes, if it ends there. -/
def strlen (bytes : List (BitVec 8)) : Option ℕ := bytes.findIdx? (· = 0)

def storeByte (line : List (BitVec 8)) (i : ℕ) (ch : BitVec 8) : Option (List (BitVec 8)) :=
  if i < line.length then some (line.set i ch) else none

def memmove (line : List (BitVec 8)) (dst src n : ℕ) : Option (List (BitVec 8)) :=
  if dst + n ≤ line.length ∧ src + n ≤ line.length then
    some (line.take dst ++ (line.drop src).take n ++ line.drop (dst + n))
  else none

/-- `x ++` and `x --` on eight bits. -/
def succ8 (x : ℕ) : ℕ := (x + 1) % 256
def pred8 (x : ℕ) : ℕ := (x + 255) % 256

/-- The line of the history: the command and zeros. -/
def historyLine (s : FinshShell) : Option (List (BitVec 8)) :=
  if s.linePosition ≤ s.line.length then
    some (s.line.take s.linePosition ++ List.replicate (finshCmdSize - s.linePosition) 0)
  else none

def shellPushHistory (s : FinshShell) : Option FinshShell :=
  if s.linePosition ≠ 0 then
    s.historyLine.map fun row =>
      if s.historyCount ≥ finshHistoryLines then
        { s with
          cmdHistory := s.cmdHistory.tail ++ [row]
          historyCount := finshHistoryLines
          currentHistory := finshHistoryLines }
      else
        { s with
          cmdHistory := s.cmdHistory.set s.historyCount row
          historyCount := s.historyCount + 1
          currentHistory := s.historyCount + 1 }
  else some { s with currentHistory := s.historyCount }

/-- The command of the history is copied to the line and shown. -/
def historyToLine (s : FinshShell) : Option FinshShell :=
  s.cmdHistory[s.currentHistory]?.bind fun row => (strlen row).map fun length =>
    { s with line := row, linePosition := length % 256, lineCurpos := length % 256 }

def upKey (s : FinshShell) : Option FinshShell :=
  if s.currentHistory > 0 then historyToLine { s with currentHistory := s.currentHistory - 1 }
  else some { s with currentHistory := 0 }

def downKey (s : FinshShell) : Option FinshShell :=
  if s.currentHistory + 1 < s.historyCount then
    historyToLine { s with currentHistory := s.currentHistory + 1 }
  else if s.historyCount ≠ 0 then historyToLine { s with currentHistory := s.historyCount - 1 }
  else some s

def leftKey (s : FinshShell) : Option FinshShell :=
  if s.lineCurpos ≠ 0 then some { s with lineCurpos := pred8 s.lineCurpos } else some s

def rightKey (s : FinshShell) : Option FinshShell :=
  if s.lineCurpos < s.linePosition then
    s.line[s.lineCurpos]?.map fun _ => { s with lineCurpos := succ8 s.lineCurpos }
  else some s

/-- The completion is written over the line. -/
def tabKey (s : FinshShell) (completion : List (BitVec 8)) : Option FinshShell :=
  (strlen s.line).bind fun _ =>
    if completion.length ≤ s.line.length then
      -- zeros stand behind the text, so that a completed path has its terminator
      let line := completion ++ s.line.drop completion.length
      (strlen line).map fun length =>
        { s with line := line, linePosition := length % 256, lineCurpos := length % 256 }
    else none

def backspaceKey (s : FinshShell) : Option FinshShell :=
  if s.lineCurpos = 0 then some s
  else
    let linePosition := pred8 s.linePosition
    let lineCurpos := pred8 s.lineCurpos
    if linePosition > lineCurpos then
      (memmove s.line lineCurpos (lineCurpos + 1) (linePosition - lineCurpos)).bind fun line =>
        (storeByte line linePosition 0).bind fun line =>
          (strlen (line.drop lineCurpos)).map fun _ =>
            { s with line := line, linePosition := linePosition, lineCurpos := lineCurpos }
    else
      (storeByte s.line linePosition 0).map fun line =>
        { s with line := line, linePosition := linePosition, lineCurpos := lineCurpos }

/-- The end of a line, with the string that `msh_exec` gets. -/
def lineEnd (s : FinshShell) (echo : Bool) : Option (FinshShell × List (BitVec 8)) :=
  s.shellPushHistory.bind fun s => (strlen s.line).map fun length =>
    ({ s with
      echoMode := echo
      line := List.replicate finshCmdSize 0
      linePosition := 0
      lineCurpos := 0 }, s.line.take length)

def normalChar (s : FinshShell) (ch : BitVec 8) : Option FinshShell :=
  let linePosition := if s.linePosition ≥ finshCmdSize then 0 else s.linePosition
  let stored :=
    if s.lineCurpos < linePosition then
      (memmove s.line (s.lineCurpos + 1) s.lineCurpos (linePosition - s.lineCurpos)).bind
        fun line => (storeByte line s.lineCurpos ch).bind fun line =>
          if s.echoMode then (strlen (line.drop s.lineCurpos)).map fun _ => line else some line
    else storeByte s.line linePosition ch
  stored.map fun line =>
    if succ8 linePosition ≥ 80 then { s with line := line, linePosition := 0, lineCurpos := 0 }
    else
      { s with
        line := line
        linePosition := succ8 linePosition
        lineCurpos := succ8 s.lineCurpos }

/-- What a key does, with the string for `msh_exec` if the line ends. -/
def press (s : FinshShell) (echo : Bool) : Key → Option (FinshShell × Option (List (BitVec 8)))
  | .pending => some (s, none)
  | .up => s.upKey.map (·, none)
  | .down => s.downKey.map (·, none)
  | .right => s.rightKey.map (·, none)
  | .left => s.leftKey.map (·, none)
  | .complete completion => (s.tabKey completion).map (·, none)
  | .erase => s.backspaceKey.map (·, none)
  | .submit => (s.lineEnd echo).map fun (s, line) => (s, some line)
  | .insert ch => (s.normalChar ch).map (·, none)

/-- One round of the loop that reads. -/
def handle (s : FinshShell) (r : Received) : Option (FinshShell × Option (List (BitVec 8))) :=
  let (stat, key) := Key.decode s.stat r
  press { s with stat := stat } r.echo key

/-- The shell when its thread starts. -/
def initial : FinshShell where
  stat := .waitNormal
  echoMode := true
  currentHistory := 0
  historyCount := 0
  cmdHistory := List.replicate finshHistoryLines (List.replicate finshCmdSize 0)
  line := List.replicate finshCmdSize 0
  linePosition := 0
  lineCurpos := 0

end FinshShell
end RtThread
