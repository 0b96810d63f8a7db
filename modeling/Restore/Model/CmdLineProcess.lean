import Restore.Model.CmdLine

/-! # `CmdLineProcess` of `logger_test.cpp`

The thread that reads commands. Each turn of its loop is one call of `readLine`. -/

namespace Restore.LoggerTest

/-- What the thread works on. `stdout` is that of its `cmdLine`. -/
structure Console where
  cmdLine : CmdLine
  stopRunning : Bool
  skipOutput : Bool
  /-- The loop has been left. -/
  exited : Bool

namespace Console

/-- `CmdLine cmd_line("logger test > ", ".test_history")`, with `file` the contents of the
history file and `c` and `lastKey` what the constructor leaves unset. -/
def start (file : Option Str) (c : UInt8) (lastKey : Int) : Console where
  cmdLine := (CmdLine.fresh (bytesOf "logger test > ") c lastKey).init file
  stopRunning := false
  skipOutput := false
  exited := false

def printf (w : Console) (text : Str) : Console :=
  { w with cmdLine := { w.cmdLine with stdout := w.cmdLine.stdout ++ text } }

/-- The comparisons of `cmd`. `coreNum` is the text of `GlobalRte.core_num`. -/
def command (coreNum : Str) (w : Console) (cmd : Str) : Console :=
  if cmd = bytesOf "stop" then { w with stopRunning := true, exited := true }
  else
    let w :=
      if cmd = bytesOf "core_num" then w.printf (coreNum ++ bytesOf " \n")
      else if cmd = bytesOf "skip_output" then { w with skipOutput := true }
      else if cmd = bytesOf "no_skip_output" then { w with skipOutput := false }
      else w
    w.printf (bytesOf "logger test > ")

/-- One turn of the loop, with what its `readLine` would find. -/
def turn (coreNum : Str) (w : Console) (inp : CmdLine.Input) : Except Fault Console :=
  if w.exited then .ok w
  else if w.stopRunning then .ok { w with exited := true }
  else do
    let (cmdLine, cmd) ← w.cmdLine.readLine inp
    let w := { w with cmdLine }
    return if cmd.length > 0 then w.command coreNum cmd else w

def run (coreNum : Str) (w : Console) : List CmdLine.Input → Except Fault Console
  | [] => .ok w
  | inp :: inputs => do (← w.turn coreNum inp).run coreNum inputs

end Console

end Restore.LoggerTest
