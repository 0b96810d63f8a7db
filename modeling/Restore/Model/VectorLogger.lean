import Restore.Model.Logger

/-! # `BasicBusinessLogger` with `VECTOR_TEST`

The build with `VECTOR_TEST` 1, which keeps the packets in a vector. What both builds have is
taken from the other one. Each call of a member function runs with no other call in
between. -/

namespace Restore.Logger

open BuffRing Pcap Gzip

/-- `members` are the members of both builds; the ring among them is not used. -/
structure VectorLogger (Z : Type*) where
  data : List PcapPacket
  members : BasicBusinessLogger Z

/-- The clock readings of one call of `checkRotate`, with a third one of the uptime for the
new `m_roate_cnt`. -/
structure VectorClock extends Clock where
  uptimeCnt : ℕ

namespace VectorLogger

variable {Z : Type*}

/-- `init` right after the constructor, at `uptime` and `uptime'` seconds. `gipHelper` is left
as it was in text mode, and `ring` in any mode. -/
def init (env : Env Z) (filePath : List Char) (rotateSize rotateCycle : UInt32)
    (compressType : UInt8) (uptime uptime' : ℕ) (storage : ℕ → UInt8)
    (gipHelper : GzipHelper Z) (ring : RingConfig × RingMem PcapPacket) : VectorLogger Z :=
  let gipHelper :=
    if compressType = kCompressGzip then
      ((gzipHelper env.zlib (rotateSize + (16 : UInt32) <<< 10).toUInt64 storage).compressInit
        env.zlib env.reserve).1
    else gipHelper
  { data := []
    members :=
      { data := ring, rotateSize, rotateCycle, compressType, filePath
        startTime := UInt32.ofNat uptime'
        roateCnt := 0
        fileGenTime := []
        buf := []
        gipHelper
        uptimeBak := (UInt32.ofNat uptime + 10).toUInt64
        serialCnt := 0
        books := ⟨[], [], [], []⟩ } }

def pushBack (l : VectorLogger Z) (packet : PcapPacket) : VectorLogger Z × Int :=
  ({ l with data := l.data ++ [packet] }, 0)

/-- The first `if` of `checkRotate`. -/
def countRotation (members : BasicBusinessLogger Z) (clock : VectorClock) :
    BasicBusinessLogger Z :=
  if members.timeOut clock.uptime then
    { members with
      uptimeBak := (UInt32.ofNat clock.uptimeBak).toUInt64
      roateCnt := members.roateCnt +
        ((UInt32.ofNat clock.uptimeCnt - members.startTime) / members.rotateCycle + 1) }
  else members

/-- `checkRotate` and what it returns. `none` is a division by an `m_rotate_cycle` of 0. -/
def checkRotate (env : Env Z) (l : VectorLogger Z) (clock : VectorClock) :
    Option (VectorLogger Z × Int) :=
  let isTimeOut := l.members.timeOut clock.uptime
  if isTimeOut ∧ l.members.rotateCycle = 0 then none
  else
    let members := countRotation l.members clock
    if isTimeOut || decide (kVectorThreshold.toNat ≤ l.data.length) then
      let books := { members.books with dequeued := members.books.dequeued ++ l.data }
      some (⟨[], { members with books }.drain env clock.now isTimeOut l.data⟩, 1)
    else some (⟨l.data, members⟩, 0)

inductive Event
  | pushBack (packet : PcapPacket)
  | checkRotate (clock : VectorClock)

def step (env : Env Z) (l : VectorLogger Z) : Event → Option (VectorLogger Z)
  | .pushBack packet => some (l.pushBack packet).1
  | .checkRotate clock => (l.checkRotate env clock).map Prod.fst

def run (env : Env Z) (l : VectorLogger Z) : List Event → Option (VectorLogger Z)
  | [] => some l
  | e :: es => (l.step env e).bind fun l => l.run env es

end VectorLogger

end Restore.Logger
