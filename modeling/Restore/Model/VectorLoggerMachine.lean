import Restore.Model.VectorLogger
import Mathlib.Logic.Function.Basic
import Mathlib.Logic.Relation

/-! # Threads on a logger with `VECTOR_TEST`

Any number of threads in `push_back` and one thread in `checkRotate`. Each step is a call on
`m_mutex`, an access to `m_data`, or a round of the drain loop on members that no other thread
uses. A vector's `push_back` and `swap` read `m_data` and then write it. -/

namespace Restore.Logger

open Pcap

/-- Where a thread stands in `push_back`. -/
inductive PushPc
  | idle
  | locking (packet : PcapPacket)
  | loading (packet : PcapPacket)
  | storing (packet : PcapPacket) (data : List PcapPacket)
  | unlocking

/-- Where the logger thread stands in `checkRotate`. -/
inductive RotatePc
  | idle
  /-- In front of the second `if`. -/
  | sizing (clock : VectorClock) (isTimeOut : Bool)
  | locking (clock : VectorClock) (isTimeOut : Bool)
  | loading (clock : VectorClock) (isTimeOut : Bool)
  /-- In `swap`, with the packets that it has read. -/
  | storing (clock : VectorClock) (isTimeOut : Bool) (data : List PcapPacket)
  | unlocking (clock : VectorClock) (isTimeOut : Bool) (data : List PcapPacket)
  /-- In the drain loop, with the packets that it has yet to format. -/
  | draining (isTimeOut : Bool) (rest : List PcapPacket)

/-- `none` is the logger thread, and `some t` a thread that calls `push_back`. -/
structure VectorWorld (ι Z : Type*) where
  /-- The thread that holds `m_mutex`. -/
  mutex : Option (Option ι)
  logger : VectorLogger Z
  pushBack : ι → PushPc
  checkRotate : RotatePc
  /-- The calls so far, in order. The program does not see them. -/
  calls : List (Option ι × VectorLogger.Event)
  /-- Those that have taken effect, in order, with what they return. -/
  order : List (Option ι × VectorLogger.Event × Int)

/-- A scheduler's choice: a thread enters a call, or takes its next step. -/
inductive VectorAction (ι : Type*)
  | pushBack (t : ι) (packet : PcapPacket)
  | producer (t : ι)
  | checkRotate (clock : VectorClock)
  | logger

namespace VectorWorld

variable {ι Z : Type*} [DecidableEq ι]

/-- The threads on the logger `l`, with no call begun. -/
def start (l : VectorLogger Z) : VectorWorld ι Z := ⟨none, l, fun _ => .idle, .idle, [], []⟩

def goto (w : VectorWorld ι Z) (t : ι) (pc : PushPc) : VectorWorld ι Z :=
  { w with pushBack := Function.update w.pushBack t pc }

/-- The next step of the thread `t` in `push_back`. -/
def runPush (w : VectorWorld ι Z) (t : ι) : VectorWorld ι Z :=
  match w.pushBack t with
  | .idle => w
  | .locking packet =>
      match w.mutex with
      | none => { w.goto t (.loading packet) with mutex := some (some t) }
      | some _ => w
  | .loading packet => w.goto t (.storing packet w.logger.data)
  | .storing packet data =>
      { w.goto t .unlocking with
        logger := { w.logger with data := data ++ [packet] }
        order := w.order ++ [(some t, .pushBack packet, 0)] }
  | .unlocking => { w.goto t .idle with mutex := none }

/-- The next step of the logger thread. -/
def runRotate (env : Env Z) (w : VectorWorld ι Z) : VectorWorld ι Z :=
  match w.checkRotate with
  | .idle => w
  | .sizing clock isTimeOut =>
      if isTimeOut || decide (kVectorThreshold.toNat ≤ w.logger.data.length) then
        { w with checkRotate := .locking clock isTimeOut }
      else { w with checkRotate := .idle, order := w.order ++ [(none, .checkRotate clock, 0)] }
  | .locking clock isTimeOut =>
      match w.mutex with
      | none => { w with mutex := some none, checkRotate := .loading clock isTimeOut }
      | some _ => w
  | .loading clock isTimeOut =>
      { w with checkRotate := .storing clock isTimeOut w.logger.data }
  | .storing clock isTimeOut data =>
      let members := w.logger.members
      let books := { members.books with dequeued := members.books.dequeued ++ data }
      { w with
        logger := ⟨[], { members with books }⟩
        checkRotate := .unlocking clock isTimeOut data
        order := w.order ++ [(none, .checkRotate clock, 1)] }
  | .unlocking clock isTimeOut data =>
      { w with
        mutex := none
        logger := { w.logger with
          members := { w.logger.members with serialCnt := 0 }.getFileGenTime env clock.now }
        checkRotate := .draining isTimeOut data }
  | .draining isTimeOut (packet :: rest) =>
      { w with
        logger := { w.logger with members := w.logger.members.drainOne env packet }
        checkRotate := .draining isTimeOut rest }
  | .draining isTimeOut [] =>
      let members := w.logger.members
      { w with
        logger := { w.logger with
          members := if isTimeOut && members.serialCnt == 0 then members.outputFile env
            else members }
        checkRotate := .idle }

/-- `none` is a division by an `m_rotate_cycle` of 0. -/
def next (env : Env Z) (w : VectorWorld ι Z) : VectorAction ι → Option (VectorWorld ι Z)
  | .pushBack t packet =>
      match w.pushBack t with
      | .idle =>
          some { w.goto t (.locking packet) with
            calls := w.calls ++ [(some t, .pushBack packet)] }
      | _ => some w
  | .producer t => some (w.runPush t)
  | .checkRotate clock =>
      let members := w.logger.members
      let isTimeOut := members.timeOut clock.uptime
      match w.checkRotate with
      | .idle =>
          if isTimeOut ∧ members.rotateCycle = 0 then none
          else some { w with
            logger := { w.logger with members := VectorLogger.countRotation members clock }
            checkRotate := .sizing clock isTimeOut
            calls := w.calls ++ [(none, .checkRotate clock)] }
      | _ => some w
  | .logger => some (w.runRotate env)

/-! ## Runs -/

def Step (env : Env Z) (w w' : VectorWorld ι Z) : Prop := ∃ a, w.next env a = some w'

/-- What threads can bring about on the logger `l`. -/
def Reachable (env : Env Z) (l : VectorLogger Z) (w : VectorWorld ι Z) : Prop :=
  Relation.ReflTransGen (Step env) (start l) w

end VectorWorld

namespace VectorLogger

variable {Z : Type*}

/-- A whole call, with what it returns. -/
def call (env : Env Z) (l : VectorLogger Z) : Event → Option (VectorLogger Z × Int)
  | .pushBack packet => some (l.pushBack packet)
  | .checkRotate clock => l.checkRotate env clock

end VectorLogger

end Restore.Logger
