import Restore.Model.Logger

/-! # Threads on one logger

Any number of threads in `push_back` and one thread in `checkRotate`, on the ring that
`init` builds. Each step is a step of a ring call, or one line that `makeCsvLog` formats.
An idle check is counted as dequeuing nothing. The counts that `checkRotate` prints are
left out. -/

namespace Restore.Logger

open BuffRing Pcap

/-- A packet with the number of its `push_back` call, which the program does not see. -/
structure Pushed where
  number : ℕ
  packet : PcapPacket
  deriving DecidableEq

/-- Where the logger thread stands in `checkRotate`. -/
inductive CheckPc
  | idle
  /-- In the `RingFreeCount` of the second `if`. -/
  | counting
  /-- In front of `DoDequeue`. -/
  | triggered
  | dequeuing
  /-- In the drain loop, with the packets that it has yet to format. -/
  | draining (rest : List Pushed)

/-- The packets that `DoDequeue` has returned and the drain loop has yet to format. -/
def CheckPc.pending : CheckPc → Pc Pushed → List Pushed
  | .draining rest, _ => rest
  | .dequeuing, .returned call n _ => batch call.obj n.toNat
  | _, _ => []

/-- `none` is the logger thread, and `some t` a thread that calls `push_back`. -/
structure LoggerWorld (ι : Type*) where
  ring : World (Option ι) Pushed
  check : CheckPc
  /-- The number of calls of `push_back` so far. -/
  calls : ℕ
  /-- The calls of `push_back` that have returned, with the value that they returned. -/
  returned : List (Pushed × Int)
  /-- The packets that `makeCsvLog` has been called with, in order. -/
  handed : List Pushed

/-- A scheduler's choice: a thread enters a call, or takes its next step. -/
inductive LoggerAction (ι : Type*)
  | pushBack (t : ι) (packet : PcapPacket)
  | producer (t : ι)
  | checkRotate (isTimeOut : Bool)
  | logger

/-- `DoEnqueue(members, 1, _)` -/
def enqueueCall (x : Pushed) : Call Pushed := ⟨.prod, fun _ => x, 1⟩

/-- `DoDequeue(data, kVectorThreshold, _)` -/
def dequeueCall (fresh : ℕ → Pushed) : Call Pushed := ⟨.cons, fresh, kVectorThreshold⟩

namespace LoggerWorld

variable {ι : Type*} [DecidableEq ι]

/-- A logger right after `init`, with ring memory `mem`. -/
def start (mem : RingMem Pushed) : LoggerWorld ι := ⟨World.start mem, .idle, 0, [], []⟩

/-- The next step of the logger thread. -/
def runLogger (c : RingConfig) (fresh : ℕ → Pushed) (w : LoggerWorld ι) : LoggerWorld ι :=
  match w.check with
  | .idle => w
  | .counting =>
      let threshold : UInt32 := (64 : UInt32) <<< 20
      { w with
        ring := w.ring.next c (.run none)
        check :=
          match w.ring.machine.pc none with
          | .counted count => if c.capacity - count ≤ threshold then .triggered else .idle
          | _ => .counting }
  | .triggered =>
      { w with ring := w.ring.next c (.enter none (dequeueCall fresh)), check := .dequeuing }
  | .dequeuing =>
      { w with
        ring := w.ring.next c (.run none)
        check :=
          match w.ring.machine.pc none with
          | .returned call n _ => .draining (batch call.obj n.toNat)
          | _ => .dequeuing }
  | .draining [] => { w with check := .idle }
  | .draining (x :: rest) => { w with check := .draining rest, handed := w.handed ++ [x] }

def next (c : RingConfig) (fresh : ℕ → Pushed) (w : LoggerWorld ι) :
    LoggerAction ι → LoggerWorld ι
  | .pushBack t packet =>
      match w.ring.machine.pc (some t) with
      | .idle =>
          { w with
            ring := w.ring.next c (.enter (some t) (enqueueCall ⟨w.calls, packet⟩))
            calls := w.calls + 1 }
      | _ => w
  | .producer t =>
      { w with
        ring := w.ring.next c (.run (some t))
        returned :=
          match w.ring.machine.pc (some t) with
          | .returned call _ _ => w.returned ++ [(call.obj 0, 0)]
          | _ => w.returned }
  | .checkRotate isTimeOut =>
      match w.check with
      | .idle =>
          if isTimeOut then { w with check := .triggered }
          else { w with ring := w.ring.next c (.enterCount none), check := .counting }
      | _ => w
  | .logger => w.runLogger c fresh

/-- The batch that the running `checkRotate` is draining. -/
def draining (w : LoggerWorld ι) : List Pushed := w.check.pending (w.ring.machine.pc none)

/-! ## Runs -/

/-- The action is not a load of `cons_.tail` in `push_back` that finds the ring full. -/
def HasRoom (c : RingConfig) (w : LoggerWorld ι) : LoggerAction ι → Prop
  | .producer t =>
      match w.ring.machine.pc (some t) with
      | .loadTail call oldHead =>
          c.entries call.side (w.ring.machine.mem.ht call.side.other).tail oldHead ≠ 0
      | _ => True
  | _ => True

/-- The action is not an `AtomicCAS` of `push_back` that takes a head which has gone all the
way round since its load. -/
def Unmoved (c : RingConfig) (w : LoggerWorld ι) : LoggerAction ι → Prop
  | .producer t => w.ring.Unmoved c (some t)
  | _ => True

/-- One action that finds room for its packet. -/
def Step (c : RingConfig) (fresh : ℕ → Pushed) (w w' : LoggerWorld ι) : Prop :=
  ∃ a, w' = w.next c fresh a ∧ w.HasRoom c a ∧ w.Unmoved c a

/-- What threads can bring about on a logger with ring memory `mem` if every `push_back`
finds room for its packet. -/
def Reachable (c : RingConfig) (fresh : ℕ → Pushed) (mem : RingMem Pushed)
    (w : LoggerWorld ι) : Prop :=
  Relation.ReflTransGen (Step c fresh) (start mem) w

end LoggerWorld

end Restore.Logger
