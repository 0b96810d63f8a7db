import Restore.Model.LoggerMachine
import Restore.Model.LoggerTest

/-! # The program `logger_test.cpp` at work

Each packet thread pushes the packets of its group `kTimes` times over, until the command `stop`
or a signal sets `StopRunning`. One logger thread checks the logger, as with `logger_core_num` 1. -/

namespace Restore.LoggerTest

open BuffRing Pcap Logger

def kTimes : ℕ := 100

/-- Where a thread stands in `PacketGet`. -/
inductive PacketPc
  /-- At the top of the `while` loop. -/
  | looping (cnt : ℕ)
  /-- In the `for` loop, with the packets that it has yet to push. -/
  | pushing (cnt : ℕ) (rest : List PcapPacket)
  | exited (cnt : ℕ)
  deriving DecidableEq

structure TestWorld where
  logger : LoggerWorld Int32
  packetGet : Int32 → PacketPc
  /-- `LoggerWrite` has returned. -/
  loggerExited : Bool
  stopRunning : Bool
  skipOutput : Bool
  /-- The calls of `push_back` so far, in order. The program does not see them. -/
  issued : List (Int32 × PcapPacket)

/-- A scheduler's choice: a thread takes its next step, or a command or a signal sets a flag. -/
inductive TestAction
  | packetThread (id : Int32)
  | loggerThread (isTimeOut : Bool)
  | stopRunning
  | skipOutput (skip : Bool)

namespace TestWorld

/-- The threads right after `ThreadInit`. -/
def start (mem : RingMem Pushed) : TestWorld where
  logger := .start mem
  packetGet _ := .looping 0
  loggerExited := false
  stopRunning := false
  skipOutput := false
  issued := []

/-- The next step of the packet thread `id`, whose `ppv` is `ppv id`. -/
def runPacket (c : RingConfig) (fresh : ℕ → Pushed) (ppv : Int32 → List PcapPacket)
    (w : TestWorld) (id : Int32) : TestWorld :=
  match w.logger.ring.machine.pc (some id) with
  | .idle =>
      match w.packetGet id with
      | .looping cnt =>
          if w.stopRunning ∨ cnt = kTimes then
            { w with packetGet := Function.update w.packetGet id (.exited cnt) }
          else { w with packetGet := Function.update w.packetGet id (.pushing cnt (ppv id)) }
      | .pushing cnt (p :: rest) =>
          { w with
            logger := w.logger.next c fresh (.pushBack id p)
            packetGet := Function.update w.packetGet id (.pushing cnt rest)
            issued := w.issued ++ [(id, p)] }
      | .pushing cnt [] =>
          { w with packetGet := Function.update w.packetGet id (.looping (cnt + 1)) }
      | .exited _ => w
  | _ => { w with logger := w.logger.next c fresh (.producer id) }

/-- The next step of `LoggerWrite`. -/
def runLogger (c : RingConfig) (fresh : ℕ → Pushed) (w : TestWorld) (isTimeOut : Bool) :
    TestWorld :=
  match w.logger.check with
  | .idle =>
      if w.loggerExited then w
      else if w.stopRunning then { w with loggerExited := true }
      else if w.skipOutput then w
      else { w with logger := w.logger.next c fresh (.checkRotate isTimeOut) }
  | _ => { w with logger := w.logger.next c fresh .logger }

def next (c : RingConfig) (fresh : ℕ → Pushed) (ppv : Int32 → List PcapPacket) (w : TestWorld) :
    TestAction → TestWorld
  | .packetThread id => w.runPacket c fresh ppv id
  | .loggerThread isTimeOut => w.runLogger c fresh isTimeOut
  | .stopRunning => { w with stopRunning := true }
  | .skipOutput skip => { w with skipOutput := skip }

/-! ## Runs -/

/-- The thread is one that `ThreadInit` starts. -/
def Started (rte : Rte) : TestAction → Prop
  | .packetThread id => id ∈ threadIds rte.packetCoreNum
  | _ => True

instance (rte : Rte) : DecidablePred (Started rte)
  | .packetThread id => inferInstanceAs (Decidable (id ∈ threadIds rte.packetCoreNum))
  | .loggerThread _ | .stopRunning | .skipOutput _ => inferInstanceAs (Decidable True)

/-- A step in `push_back` finds room for its packet, and takes no head that has gone all the way
round since its load. -/
def HasRoom (c : RingConfig) (w : TestWorld) : TestAction → Prop
  | .packetThread id =>
      w.logger.HasRoom c (.producer id) ∧ w.logger.Unmoved c (.producer id)
  | _ => True

/-- Any step of the started threads. -/
def Step (rte : Rte) (c : RingConfig) (fresh : ℕ → Pushed) (ppv : Int32 → List PcapPacket)
    (w w' : TestWorld) : Prop :=
  ∃ a, w' = w.next c fresh ppv a ∧ Started rte a

def Reachable (rte : Rte) (c : RingConfig) (fresh : ℕ → Pushed) (ppv : Int32 → List PcapPacket)
    (mem : RingMem Pushed) (w : TestWorld) : Prop :=
  Relation.ReflTransGen (Step rte c fresh ppv) (start mem) w

/-- What the started threads can bring about if every `push_back` finds room for its packet. -/
def ReachableWithRoom (rte : Rte) (c : RingConfig) (fresh : ℕ → Pushed)
    (ppv : Int32 → List PcapPacket) (mem : RingMem Pushed) (w : TestWorld) : Prop :=
  Relation.ReflTransGen
    (fun w w' => ∃ a, w' = w.next c fresh ppv a ∧ Started rte a ∧ w.HasRoom c a) (start mem) w

end TestWorld

end Restore.LoggerTest
