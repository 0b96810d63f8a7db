import Restore.Shared.Bytes
import Restore.Shared.StdString
import Restore.Shared.Stdio

/-! # `CmdLine` of `access_cmdline.cpp`

Keys come in through `read`, one call of `readLine` for each, and everything that `write` sends
to the terminal is kept. A `read` may fail or, after an escape character, deliver fewer bytes
than asked for; a `write` takes all its bytes. Sizes that the source keeps in an `int` are
natural numbers. -/

namespace Restore

open StdString

/-- A `char` as the `int` that it is promoted to. -/
def charToInt (c : UInt8) : Int := c.toInt8.toInt

inductive Fault
  /-- A position past the end of a string. -/
  | outOfRange
  /-- An iterator that is not one of the current vector, or used where it has no element. -/
  | iterator
  /-- The `npos` of a failed search, given to `erase`. -/
  | notFound
  deriving DecidableEq, Repr

structure CmdLine where
  history : List Str
  /-- A position in `history`, `none` for an iterator that `push_back` has invalidated. -/
  curr : Option ℕ
  hints : List Str
  prompt : Str
  cmd : Str
  cmdBuffer : Str
  mIndex : ℕ
  c : UInt8
  lastKey : Int
  /-- What has been written to `out_fd` so far. -/
  out : Str
  /-- What `printf` has put into `stdout` so far. -/
  stdout : Str
  deriving DecidableEq, Repr

namespace CmdLine

/-- A position that the library has found in range. -/
def inRange {α : Type*} : Option α → Except Fault α
  | some a => .ok a
  | none => .error .outOfRange

/-- `*it` and the like. -/
def onElement {α : Type*} : Option α → Except Fault α
  | some a => .ok a
  | none => .error .iterator

/-! ## Output -/

def write (s : CmdLine) (bytes : Str) : CmdLine := { s with out := s.out ++ bytes }

def left (s : CmdLine) (n : ℕ) : CmdLine := s.write (List.replicate n Byte.backspace)

def space (s : CmdLine) (n : ℕ) : CmdLine := s.write (List.replicate n Byte.space)

def backSpace (s : CmdLine) (n : ℕ) : CmdLine := ((s.left n).space n).left n

def clearLine (s : CmdLine) : Except Fault CmdLine :=
  -- past the end of `cmd` the count `r` would be negative
  if s.mIndex ≤ s.cmd.length then
    let r := s.cmd.length - s.mIndex
    .ok (((s.space r).left r).backSpace s.mIndex)
  else .error .outOfRange

def writeLine (s : CmdLine) (buf : Str) : CmdLine := s.write buf

/-! ## Hints -/

def addHint (s : CmdLine) (hint : Str) : CmdLine :=
  if hint ∈ s.hints then s else { s with hints := s.hints ++ [hint] }

def addHints (s : CmdLine) (cmds : List Str) : CmdLine := cmds.foldl addHint s

/-- The locals of the matching loop of `compareHints`. -/
structure Matching where
  haveSpace : Bool := false
  common : List Str := []
  possible : Str := []
  i : ℕ := 0
  lenMin : ℕ := 65535
  deriving DecidableEq, Repr

def Matching.step (cmd : Str) (willSubCmd : Bool) (m : Matching) (hint : Str) : Matching :=
  let haveSpace := m.haveSpace || (find [Byte.space] hint).isSome
  if hint.length > cmd.length ∧ hint.take cmd.length = cmd ∧
      (willSubCmd ∨ !willSubCmd ∧ !haveSpace) then
    let i := m.i + 1
    { haveSpace
      common := m.common ++ [hint]
      possible := m.possible ++ hint ++ [Byte.space] ++ if i % 4 = 0 then [Byte.newline] else []
      i
      lenMin := if hint.length < m.lenMin then hint.length else m.lenMin }
  else { m with haveSpace }

/-- `cmd.substr(0, cmd.find(' '))`. -/
def mainCmd (cmd : Str) : Str :=
  match find [Byte.space] cmd with
  | some n => cmd.take n
  | none => cmd

/-- `n = possible->find(main_cmd.c_str()); possible->erase(n, main_cmd.length());`, so many
times. -/
def eraseMainCmd (mainCmd : Str) : ℕ → Str → Except Fault Str
  | 0, possible => .ok possible
  | times + 1, possible =>
      match find (cStr mainCmd) possible with
      | some n => do eraseMainCmd mainCmd times (← inRange (erase possible n (some mainCmd.length)))
      | none => .error .notFound

/-- The loop that extends `common_str` from index `i` on, with `rounds` rounds to go. `x` is 0
where two matches differ. -/
def commonStr (common : List Str) : ℕ → ℕ → Str
  | 0, _ => []
  | rounds + 1, i =>
      let first := (common.headD []).getD i 0
      let x := if common.all fun hint => hint.getD i 0 == first then first else 0
      if x ≠ 0 then x :: commonStr common rounds (i + 1) else []

/-- `compareHints(&possible, &append_str)`: the returned count and both strings. -/
def compareHints (s : CmdLine) (possible appendStr : Str) : Except Fault (ℕ × Str × Str) :=
  if s.cmd.length = 0 then .ok (0, possible, appendStr)
  else
    let willSubCmd := (find [Byte.space] s.cmd).isSome
    let m := s.hints.foldl (Matching.step s.cmd willSubCmd) {}
    if m.common.length < 2 then .ok (m.common.length, m.possible, appendStr)
    else do
      let possible ←
        if willSubCmd then eraseMainCmd (mainCmd s.cmd) m.i m.possible else pure m.possible
      return (m.common.length, possible,
        appendStr ++ commonStr m.common (m.lenMin - s.cmd.length) s.cmd.length)

/-! ## Keys -/

/-- What the enter key makes of the trimmed line: a new prompt, a new entry, or nothing but a
new position. -/
def enterLine (s : CmdLine) (cmd : Str) : Except Fault CmdLine :=
  if cmd = [] then pure (s.writeLine s.prompt)
  else do
    let last ← onElement s.history.getLast?
    if last ≠ cmd then
      let s := if cmd ≠ bytesOf "exit" then
        { s with history := s.history ++ [cmd], curr := none } else s
      return { s with curr := some s.history.length }
    else return { s with curr := some s.history.length }

/-- The new state and the line that `readLine` returns. -/
def enterKey (s : CmdLine) : Except Fault (CmdLine × Str) := do
  let s := s.write [s.c]
  let cmd ← inRange (erase s.cmd 0 (findFirstNotOf [Byte.space] s.cmd))
  let cmd ← inRange (eraseTail whitespace cmd)
  let s ← s.enterLine cmd
  return ({ s with cmd := [], cmdBuffer := [], mIndex := 0 }, cmd)

def tabKey (s : CmdLine) : Except Fault CmdLine := do
  let (count, possibleCmd, appendStr) ← s.compareHints [] []
  if count > 1 ∧ s.lastKey = charToInt s.c then
    let possibleCmd := [Byte.newline] ++ possibleCmd ++ [Byte.newline]
    let s := (s.writeLine possibleCmd).writeLine s.prompt
    let cmd := s.cmd ++ appendStr
    return { s with cmd, mIndex := cmd.length }.writeLine cmd
  else if count = 1 then
    let s := (← s.clearLine).writeLine possibleCmd
    return { s with cmd := possibleCmd, mIndex := possibleCmd.length, lastKey := 0 }
  else return s

def backspaceKey (s : CmdLine) : Except Fault CmdLine := do
  if s.mIndex > 0 then
    let s ← s.clearLine
    let lastPart ← inRange (substr s.cmd s.mIndex)
    let mIndex := s.mIndex - 1
    let cmd ← inRange (erase s.cmd mIndex (some 1))
    return ({ s with cmd, mIndex }.writeLine cmd).left lastPart.length
  else return s

/-- Replaces the line on the screen and in `cmd`. -/
def replaceLine (s : CmdLine) (line : Str) : Except Fault CmdLine := do
  let s := (← s.clearLine).writeLine line
  return { s with cmd := line, mIndex := line.length }

/-- Where the up key takes `curr`: not back from the first entry, and over an entry that is on
the line already. -/
def upCurr (s : CmdLine) (curr : ℕ) : Except Fault ℕ :=
  if curr = 0 then pure curr
  else do
    let curr := curr - 1
    if (← onElement s.history[curr]?) = s.cmd ∧ curr ≠ 0 then pure (curr - 1) else pure curr

def upKey (s : CmdLine) : Except Fault CmdLine := do
  let curr ← s.upCurr (← onElement s.curr)
  replaceLine { s with curr := some curr } (← onElement s.history[curr]?)

def downKey (s : CmdLine) : Except Fault CmdLine := do
  let curr ← onElement s.curr
  if curr = s.history.length then return s
  else if curr = s.history.length - 1 then
    let s ← if s.cmdBuffer.length ≠ 0 then s.replaceLine s.cmdBuffer else pure s
    return { s with curr := some (curr + 1) }
  else
    replaceLine { s with curr := some (curr + 1) } (← onElement s.history[curr + 1]?)

def leftKey (s : CmdLine) : CmdLine := { s.write [Byte.backspace] with mIndex := s.mIndex - 1 }

def rightKey (s : CmdLine) : Except Fault CmdLine := do
  let b ← inRange s.cmd[s.mIndex]?
  return { s.write [b] with mIndex := s.mIndex + 1 }

/-- The branches that follow an escape character and the two bytes `b`. -/
def escapeKey (s : CmdLine) (b : UInt8 × UInt8) : Except Fault CmdLine :=
  if b = (0x5B, 0x41) ∧ s.history.length > 0 then s.upKey
  else if b = (0x5B, 0x42) ∧ s.history.length > 0 then s.downKey
  else if b = (0x5B, 0x44) ∧ s.mIndex > 0 then pure s.leftKey
  else if b = (0x5B, 0x43) ∧ s.mIndex < s.cmd.length then s.rightKey
  else pure s

def insertKey (s : CmdLine) : Except Fault CmdLine := do
  let s ← s.clearLine
  let lastPart ← inRange (substr s.cmd s.mIndex)
  let cmd ← inRange (insert s.cmd s.mIndex s.c)
  let s := ({ s with cmd, cmdBuffer := cmd }.writeLine cmd).left lastPart.length
  return { s with mIndex := s.mIndex + 1 }

/-- What `read(in_fd, &c, 1)` does. -/
inductive KeyRead
  | byte (b : UInt8)
  | endOfFile
  | error
  deriving DecidableEq, Repr

def KeyRead.len : KeyRead → Int
  | .byte _ => 1
  | .endOfFile => 0
  | .error => -1

/-- What one call of `readLine` finds: the key, the uninitialised array `b[2]`, and the bytes
that `read(in_fd, b, 2)` delivers into it. -/
structure Input where
  key : KeyRead
  stack : UInt8 × UInt8 := (0, 0)
  escape : List UInt8 := []
  deriving DecidableEq, Repr

def Input.b (inp : Input) : UInt8 × UInt8 :=
  (inp.escape.getD 0 inp.stack.1, inp.escape.getD 1 inp.stack.2)

/-- `read(in_fd, &c, 1)`. -/
def readKey (s : CmdLine) : KeyRead → CmdLine
  | .byte b => { s with c := b }
  | .endOfFile | .error => s

def printLen (s : CmdLine) (len : Int) : CmdLine :=
  { s with stdout := s.stdout ++ bytesOf "len = " ++ bytesOf (toString len) ++ [Byte.newline] }

/-- The branches of `readLine`. -/
def handle (s : CmdLine) (inp : Input) : Except Fault (CmdLine × Str) :=
  if s.c = Byte.newline then s.enterKey
  else (·, []) <$>
    if s.c = Byte.tab then s.tabKey
    else if s.c = Byte.delete ∨ s.c = Byte.backspace then s.backspaceKey
    else if s.c = Byte.escape then s.escapeKey inp.b
    else if isPrint s.c then s.insertKey
    else pure (s.printLen inp.key.len)

def readLine (s : CmdLine) (inp : Input) : Except Fault (CmdLine × Str) := do
  let (s, res) ← (s.readKey inp.key).handle inp
  return ({ s with lastKey := charToInt s.c }, res)

/-- Calls of `readLine`, one after the other. -/
def run (s : CmdLine) : List Input → Except Fault CmdLine
  | [] => .ok s
  | inp :: inputs => do
      let (s, _) ← s.readLine inp
      s.run inputs

/-! ## The history file -/

/-- A loop over a list that is left once the counter `i`, checked after each round, has passed
500. -/
def upTo500 {α : Type*} : ℕ → List α → List α
  | _, [] => []
  | i, x :: xs => x :: if i > 500 then [] else upTo500 (i + 1) xs

/-- `cmdRTrim(s)`. -/
def cmdRTrim (s : Str) : Str := (eraseTail whitespace s).getD s

/-- The lines that `readHistory` collects in `tmp`, from the contents of the file. -/
def readLines (file : Str) : List Str :=
  (Stdio.fgetsLoop 1024 file.length file).filterMap fun buf =>
    if (cStr buf).length > 0 then some (cmdRTrim (cStr buf)) else none

/-- `none` stands for a file that cannot be opened. -/
def readHistory (s : CmdLine) : Option Str → CmdLine
  | some file => { s with history := s.history ++ upTo500 0 (readLines file).reverse }
  | none => { s with history := s.history ++ [bytesOf "help"] }

/-- What `writeBackHistory` leaves in the file. -/
def writeBackHistory (s : CmdLine) : Str :=
  (upTo500 0 s.history.reverse).flatMap fun entry => cStr entry ++ [Byte.newline]

/-! ## Construction -/

/-- The members as the constructor has set them when it calls `init`. It leaves `c` and
`last_key` alone. -/
def fresh (prompt : Str) (c : UInt8) (lastKey : Int) : CmdLine :=
  ⟨[], none, [], prompt, [], [], 0, c, lastKey, [], []⟩

def init (s : CmdLine) (file : Option Str) : CmdLine :=
  let s := (s.writeLine s.prompt).readHistory file
  { s with curr := some s.history.length }

end CmdLine

end Restore
