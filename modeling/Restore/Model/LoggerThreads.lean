import Restore.Model.LoggerTest
import Restore.Model.Logger

/-! # The threads of `logger_test.cpp` on one ring

`ThreadInit` starts packet threads that call `push_back` and logger threads that call
`checkRotate`, all on the one `gLogger`. Of these calls this keeps what they do to its ring:
`DoEnqueue`, `DoDequeue` and `RingCount`, which a thread may enter whenever it is idle. -/

namespace Restore

open BuffRing Pcap Logger

namespace LoggerTest

/-- The threads of `gThreads`. -/
inductive ThreadId
  | packet (id : Int32)
  | logger (id : Int32)
  deriving DecidableEq

/-- The action is not an `AtomicCAS` on a head that has gone all the way round since its
load. -/
def Unmoved (c : RingConfig) (w : World ThreadId PcapPacket) :
    Action ThreadId PcapPacket → Prop
  | .run t => w.Unmoved c t
  | _ => True

/-- The action is not a `DoDequeue` that begins while another logger thread is in one. -/
def Apart (w : World ThreadId PcapPacket) : Action ThreadId PcapPacket → Prop
  | .enter (.logger id) _ => ∀ id', id' ≠ id → (w.machine.pc (.logger id')).side? = none
  | _ => True

end LoggerTest

namespace Rte

open LoggerTest

/-- `ThreadInit` starts the thread. -/
def Starts (rte : Rte) : ThreadId → Prop
  | .packet id => id ∈ threadIds rte.packetCoreNum
  | .logger id => id ∈ threadIds rte.loggerCoreNum

/-- The action is a call of `PacketGet` or `LoggerWrite` by a started thread, or a step. -/
def Allows (rte : Rte) : Action ThreadId PcapPacket → Prop
  | .enter (.packet id) call =>
      rte.Starts (.packet id) ∧ ∃ packet, call = ⟨.prod, fun _ => packet, 1⟩
  | .enter (.logger id) call =>
      rte.Starts (.logger id) ∧ ∃ fresh, call = ⟨.cons, fresh, kVectorThreshold⟩
  | .enterCount (.logger id) => rte.Starts (.logger id)
  | .enterCount (.packet _) => False
  | .run _ => True

def Step (rte : Rte) (c : RingConfig) (w w' : World ThreadId PcapPacket) : Prop :=
  ∃ a, w' = w.next c a ∧ rte.Allows a ∧ Unmoved c w a

/-- A step that keeps the `DoDequeue` calls of logger threads apart. -/
def StepApart (rte : Rte) (c : RingConfig) (w w' : World ThreadId PcapPacket) : Prop :=
  ∃ a, w' = w.next c a ∧ rte.Allows a ∧ Unmoved c w a ∧ Apart w a

/-- What the started threads can bring about on a ring with memory `mem`. -/
def Reaches (rte : Rte) (c : RingConfig) (mem : RingMem PcapPacket)
    (w : World ThreadId PcapPacket) : Prop :=
  Relation.ReflTransGen (rte.Step c) (World.start mem) w

def ReachesApart (rte : Rte) (c : RingConfig) (mem : RingMem PcapPacket)
    (w : World ThreadId PcapPacket) : Prop :=
  Relation.ReflTransGen (rte.StepApart c) (World.start mem) w

end Rte

end Restore
