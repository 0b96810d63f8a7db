import Mathlib.Data.Int.Notation
import Mathlib.Data.Nat.Notation

/-! # `ClockTime` of `clock_time.h`

The reading of the clock comes in with each call that may take one. The cycle counter and what is
computed in floating point are left out. -/

namespace Restore

/-- `struct timespec`. -/
structure Timespec where
  sec : ℤ
  nsec : ℤ
  deriving DecidableEq, Repr

/-- `val0` and `val1` are the slots of `val_`. -/
structure ClockTime where
  val0 : Timespec := ⟨0, 0⟩
  val1 : Timespec := ⟨0, 0⟩
  idx : UInt64 := 0
  deriving DecidableEq, Repr

/-- What `PrintDuration` prints of its result. -/
structure Duration where
  sec : ℤ
  ms : ℤ
  us : ℤ
  ns : ℤ
  deriving DecidableEq, Repr

def duration (tp : Timespec) : Duration where
  sec := tp.sec
  ms := (tp.nsec.tdiv 1000).tdiv 1000
  us := (tp.nsec.tmod (1000 * 1000)).tdiv 1000
  ns := tp.nsec.tmod 1000

namespace ClockTime

/-- `val_[i] = tp` -/
def setVal (c : ClockTime) (i : UInt64) (tp : Timespec) : ClockTime :=
  if i = 0 then { c with val0 := tp } else { c with val1 := tp }

def gatherNow (now : Timespec) (c : ClockTime) : ClockTime :=
  { c.setVal (c.idx &&& 1) now with idx := c.idx + 1 }

def checkUpdateLater (c : ClockTime) : Bool :=
  if c.val1.sec < c.val0.sec then true
  else if c.val1.sec = c.val0.sec then
    if c.val1.nsec < c.val0.nsec then true else false
  else false

/-- `tp1` after the call, `none` if the assertion fails. -/
def minusTimespec (tp1 tp2 : Timespec) : Option Timespec :=
  if tp1.sec ≥ tp2.sec then
    if tp1.sec > tp2.sec then
      if tp1.nsec < tp2.nsec then
        some ⟨tp1.sec - 1 - tp2.sec, tp1.nsec + (1000 * 1000 * 1000 - tp2.nsec)⟩
      else some ⟨tp1.sec - tp2.sec, tp1.nsec - tp2.nsec⟩
    else some ⟨0, tp1.nsec - tp2.nsec⟩
  else none

/-- The clock is read only if `CheckUpdateLater` says so. The difference stays in `val_[1]`. -/
def printDuration (now : Timespec) (c : ClockTime) : Option (ClockTime × Duration) := do
  let c := if c.checkUpdateLater then { c with val1 := now } else c
  let tp ← minusTimespec c.val1 c.val0
  some ({ c with val1 := tp }, duration tp)

end ClockTime

end Restore
