import Restore.Model.Util
import Restore.Shared.Stdio
import Mathlib.Algebra.Order.Ring.Int

/-! # `Rte` of `rte.cpp`

The constructor gets the text of `.config`, `none` if the file cannot be opened, and what
`sysconf` says. `atoi` is `strtol` cut down to an `int`, and `strtol` stops at the bounds of a
`long`. -/

namespace Restore

namespace Config

/-- `isspace` in the "C" locale. -/
def isSpace (c : UInt8) : Bool := c == Byte.space || (9 ≤ c && c ≤ 13)

def isDigit (c : UInt8) : Bool := 0x30 ≤ c && c ≤ 0x39

/-- `strtol(s, NULL, 10)`. -/
def strtol (s : Str) : ℤ :=
  let (isNegative, digits) := match s.dropWhile isSpace with
    | 0x2D :: s => (true, s)
    | 0x2B :: s => (false, s)
    | s => (false, s)
  let n : ℕ := (digits.takeWhile isDigit).foldl (fun n c => 10 * n + (c.toNat - 0x30)) 0
  max (-2 ^ 63) (min (2 ^ 63 - 1) (if isNegative then -n else n))

def atoi (s : Str) : Int32 := Int32.ofInt (strtol s)

end Config

open Config

structure Rte where
  coreNum : Int64
  packetCoreNum : Int32 := 8
  loggerCoreNum : Int32 := 1
  isGzip : Bool := false
  pcapFile : Str := bytesOf "./test.pcap"
  deriving DecidableEq, Repr

namespace Rte

/-- The comparisons of `key`. -/
def assign (rte : Rte) (key value : Str) : Rte :=
  if key = bytesOf "packet_core_num" then { rte with packetCoreNum := atoi (cStr value) }
  else if key = bytesOf "logger_core_num" then { rte with loggerCoreNum := atoi (cStr value) }
  else if key = bytesOf "is_gzip" then
    if value = bytesOf "true" ∨ value = bytesOf "TRUE" then { rte with isGzip := true }
    else { rte with isGzip := false }
  else if key = bytesOf "pcap_file" then { rte with pcapFile := value }
  else rte

/-- The body of the loop. -/
def readLine (rte : Rte) (buf : Str) : Option Rte := do
  let line ← Util.trim (cStr buf)
  let (found, key, value) ← Util.getKeyValueWithEqualSign line
  if found ≠ 0 then some (rte.assign key value) else some rte

/-- The constructor. -/
def init (coreNum : Int64) (config : Option Str) : Option Rte :=
  match config with
  | none => some { coreNum }
  | some text => (Stdio.fgetsLoop 1024 text.length text).foldlM readLine { coreNum }

end Rte

end Restore
