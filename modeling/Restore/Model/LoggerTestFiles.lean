import Restore.Model.LoggerTestMachine

/-! # The program `logger_test.cpp` down to its files

`TestWorld` with the members of `gLogger` that only the logger thread uses: its settings, the
text or the stream that it builds up, and the files that it makes of them. -/

namespace Restore.LoggerTest

open BuffRing Pcap Logger

structure FilesWorld (Z : Type*) where
  test : TestWorld
  /-- The ring of `gLogger` is that of `test`, not the one of these members. -/
  members : BasicBusinessLogger Z
  /-- `isTimeOut` of the running `checkRotate`. -/
  isTimeOut : Bool
  /-- What `time` gives the running `checkRotate`. -/
  now : ℕ

/-- A `TestAction`, with what the clocks show a check that begins. -/
inductive FilesAction
  | packetThread (id : Int32)
  | loggerThread (clock : Clock)
  | stopRunning
  | skipOutput (skip : Bool)

namespace FilesWorld

variable {Z : Type*}

/-- The threads right after `ThreadInit`, with `l` what `init` has made of `gLogger`. -/
def start (mem : RingMem Pushed) (l : BasicBusinessLogger Z) : FilesWorld Z :=
  ⟨.start mem, l, false, 0⟩

/-- What the threads see of an action. -/
def action (w : FilesWorld Z) : FilesAction → TestAction
  | .packetThread id => .packetThread id
  | .loggerThread clock => .loggerThread (w.members.timeOut clock.uptime)
  | .stopRunning => .stopRunning
  | .skipOutput skip => .skipOutput skip

/-- The first `if` of `checkRotate`. -/
def countRotation (l : BasicBusinessLogger Z) (clock : Clock) : BasicBusinessLogger Z :=
  if l.timeOut clock.uptime then
    { l with
      uptimeBak := (UInt32.ofNat clock.uptimeBak).toUInt64
      roateCnt := l.roateCnt + 1 }
  else l

/-- `m_serial_cnt = 0; getFileGenTime();` -/
def beginFiles (env : Env Z) (l : BasicBusinessLogger Z) (now : ℕ) : BasicBusinessLogger Z :=
  { l with serialCnt := 0 }.getFileGenTime env now

/-- What the next step of `LoggerWrite` does to the members, by where it stands in `checkRotate`
before and after. -/
def runMembers (env : Env Z) (w : FilesWorld Z) (clock : Clock) :
    CheckPc → CheckPc → FilesWorld Z
  | .idle, .idle => w
  | .idle, _ =>
      { w with
        members := countRotation w.members clock
        isTimeOut := w.members.timeOut clock.uptime
        now := clock.now }
  | .counting, .idle => { w with members := beginFiles env w.members w.now }
  | .dequeuing, .draining _ => { w with members := beginFiles env w.members w.now }
  | .draining (x :: _), _ => { w with members := w.members.drainOne env x.packet }
  | .draining [], _ =>
      { w with
        members := if w.isTimeOut && w.members.serialCnt == 0 then w.members.outputFile env
          else w.members }
  | _, _ => w

def next (env : Env Z) (c : RingConfig) (fresh : ℕ → Pushed) (ppv : Int32 → List PcapPacket)
    (w : FilesWorld Z) (a : FilesAction) : FilesWorld Z :=
  let test := w.test.next c fresh ppv (w.action a)
  let w' :=
    match a with
    | .loggerThread clock => w.runMembers env clock w.test.logger.check test.logger.check
    | _ => w
  { w' with test }

/-! ## Runs -/

/-- Any step of the started threads. -/
def Step (rte : Rte) (env : Env Z) (c : RingConfig) (fresh : ℕ → Pushed)
    (ppv : Int32 → List PcapPacket) (w w' : FilesWorld Z) : Prop :=
  ∃ a, w' = w.next env c fresh ppv a ∧ TestWorld.Started rte (w.action a)

def Reachable (rte : Rte) (env : Env Z) (c : RingConfig) (fresh : ℕ → Pushed)
    (ppv : Int32 → List PcapPacket) (mem : RingMem Pushed) (l : BasicBusinessLogger Z)
    (w : FilesWorld Z) : Prop :=
  Relation.ReflTransGen (Step rte env c fresh ppv) (start mem l) w

end FilesWorld

end Restore.LoggerTest
