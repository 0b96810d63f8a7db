import Restore.Model.BuffRing
import Restore.Model.RingMachine
import Restore.Model.Pcap
import Restore.Model.Gzip

/-! # `BasicBusinessLogger` of `logger.cpp`

The build with `VECTOR_TEST` 0, which keeps the packets in a `BuffRing`. Each call of a
member function runs with no other call in between. -/

namespace Restore.Logger

open BuffRing Pcap Gzip

/-! ## Text -/

/-- `%d` of a value that is not negative. -/
def decimal (n : ℕ) : List Char := Nat.toDigits 10 n

/-- `%05d` of a `uint32_t`, which `printf` takes for an `int`. -/
def decimal05 (v : UInt32) : List Char :=
  let pad (width n : ℕ) := List.replicate (width - (decimal n).length) '0' ++ decimal n
  if v.toNat < 2 ^ 31 then pad 5 v.toNat else '-' :: pad 4 (2 ^ 32 - v.toNat)

/-- `IP_FORMAT` -/
def ipFormat (addr : UInt32) : List Char :=
  decimal (addr >>> 24).toNat ++ '.' :: decimal ((addr >>> 16) &&& 0xff).toNat ++
    '.' :: decimal ((addr >>> 8) &&& 0xff).toNat ++ '.' :: decimal (addr &&& 0xff).toNat

/-- The line that `makeCsvLog` builds. -/
def csvLine (packet : PcapPacket) : List Char :=
  "src ip=".toList ++ ipFormat packet.scrIpv4 ++ ", ".toList ++
    "dst ip=".toList ++ ipFormat packet.dstIpv4 ++ ", ".toList ++
    "src port = ".toList ++ decimal packet.scrPort.toNat ++
    ", dst port= ".toList ++ decimal packet.dstPort.toNat ++ " \n".toList

/-- `Util::FormatStr` cuts its result to fit `BUFFER_SIZE`. -/
def formatStr (s : List Char) : List Char := s.take 40959

def bytesOf (s : List Char) : List UInt8 := s.map Char.toUInt8

/-! ## State -/

inductive Payload
  | text (s : List Char)
  | gzip (bytes : List UInt8)
  deriving DecidableEq

/-- One call of `outputFile`: its path after the rename, what it had to write, and whether
it could open the file. -/
structure Output where
  path : List Char
  payload : Payload
  opened : Bool
  deriving DecidableEq

/-- What has happened so far. The program never reads it. -/
structure Books where
  /-- The packets that `DoDequeue` has returned, in order. -/
  dequeued : List PcapPacket
  /-- The packets that `makeCsvLog` has been called with, in order. -/
  formatted : List PcapPacket
  /-- Those formatted since the last call of `outputFile`. -/
  pending : List PcapPacket
  outputs : List Output

structure BasicBusinessLogger (Z : Type*) where
  data : RingConfig × RingMem PcapPacket
  rotateSize : UInt32
  rotateCycle : UInt32
  compressType : UInt8
  filePath : List Char
  startTime : UInt32
  roateCnt : UInt32
  fileGenTime : List Char
  buf : List Char
  /-- Set up in gzip mode only. -/
  gipHelper : GzipHelper Z
  uptimeBak : UInt64
  serialCnt : UInt32
  books : Books

def kCompressNone : UInt8 := 0

def kCompressGzip : UInt8 := 1

def kVectorThreshold : UInt32 := (64 : UInt32) <<< 20

/-- What the program gets from outside. -/
structure Env (Z : Type*) where
  zlib : Zlib Z
  /-- The capacity of an empty vector after `reserve(n)`. -/
  reserve : UInt64 → UInt64
  /-- `strftime` of the local time of a second, with the format of `getFileGenTime`. -/
  strftime : ℕ → List Char
  /-- Whether the `k`-th call of `outputFile` can open its file. -/
  fopen : ℕ → Bool

/-- The clock readings of one call of `checkRotate`, in seconds: the uptime for the
time-out test, the uptime for `m_uptimeBak`, and the wall clock. -/
structure Clock where
  uptime : ℕ
  uptimeBak : ℕ
  now : ℕ

namespace BasicBusinessLogger

variable {Z : Type*}

/-- `init` right after the constructor, at `uptime` and `uptime'` seconds. `fresh` is what
new slots hold and `storage` what reserved storage holds; `gipHelper` is left as it was
in text mode. `none` means that the ring's constructor does not return. -/
def init (env : Env Z) (fuel : ℕ) (filePath : List Char) (rotateSize rotateCycle : UInt32)
    (compressType : UInt8) (uptime uptime' : ℕ) (fresh : ℕ → PcapPacket)
    (storage : ℕ → UInt8) (gipHelper : GzipHelper Z) : Option (BasicBusinessLogger Z) :=
  let gipHelper :=
    if compressType = kCompressGzip then
      ((gzipHelper env.zlib (rotateSize + (16 : UInt32) <<< 10).toUInt64 storage).compressInit
        env.zlib env.reserve).1
    else gipHelper
  (buffRing fuel (2 * kVectorThreshold) .kRingQueueVariable false true fresh).map fun data =>
    { data, rotateSize, rotateCycle, compressType, filePath
      startTime := UInt32.ofNat uptime'
      roateCnt := 0
      fileGenTime := []
      buf := []
      gipHelper
      uptimeBak := (UInt32.ofNat uptime + 10).toUInt64
      serialCnt := 0
      books := ⟨[], [], [], []⟩ }

/-- The call did not return, or it read a local that it had not set. -/
inductive Fault
  | neverReturns
  | unsetLocal
  deriving DecidableEq, Repr

/-- `push_back(&packet)`. It returns 0 whatever `DoEnqueue` returns. -/
def pushBack (l : BasicBusinessLogger Z) (packet : PcapPacket) :
    Except Fault (BasicBusinessLogger Z × Int) :=
  match doEnqueue l.data.1 l.data.2 (fun _ => packet) 1 with
  | none => .error .neverReturns
  | some (mem, _, _) => .ok ({ l with data := (l.data.1, mem) }, 0)

def getFileGenTime (env : Env Z) (l : BasicBusinessLogger Z) (now : ℕ) : BasicBusinessLogger Z :=
  { l with fileGenTime := env.strftime now }

def makeCsvLog (env : Env Z) (l : BasicBusinessLogger Z) (packet : PcapPacket) :
    BasicBusinessLogger Z :=
  let books := { l.books with
    formatted := l.books.formatted ++ [packet]
    pending := l.books.pending ++ [packet] }
  if l.compressType = kCompressGzip then
    { l with
      gipHelper := (l.gipHelper.compressUpdate env.zlib (bytesOf (csvLine packet))).1
      books }
  else { l with buf := l.buf ++ csvLine packet, books }

def outputFilePath (l : BasicBusinessLogger Z) : List Char :=
  let path := formatStr
    (l.filePath ++ '/' :: l.fileGenTime ++ decimal05 l.serialCnt ++ ".txt".toList)
  if l.compressType = kCompressGzip then path ++ ".gz".toList else path

def outputFile (env : Env Z) (l : BasicBusinessLogger Z) : BasicBusinessLogger Z :=
  let path := l.outputFilePath
  let opened := env.fopen l.books.outputs.length
  if l.compressType = kCompressGzip then
    let gipHelper := (l.gipHelper.compressFinish env.zlib).1
    { l with
      gipHelper := (gipHelper.compressReset env.zlib).1
      books := { l.books with
        pending := []
        outputs := l.books.outputs ++ [⟨path, .gzip gipHelper.compressed, opened⟩] } }
  else
    { l with
      buf := []
      books := { l.books with
        pending := []
        outputs := l.books.outputs ++ [⟨path, .text l.buf, opened⟩] } }

/-! ## `checkRotate` -/

/-- `getTimeUpNow() - m_start_time > (m_roate_cnt * m_rotate_cycle)` -/
def timeOut (l : BasicBusinessLogger Z) (uptime : ℕ) : Bool :=
  UInt32.ofNat uptime - l.startTime > l.roateCnt * l.rotateCycle

/-- `m_data->RingFreeCount() <= threshold` -/
def nearlyFull (l : BasicBusinessLogger Z) : Bool :=
  let threshold : UInt32 := (64 : UInt32) <<< 20
  ringFreeCount l.data.1 l.data.2 ≤ threshold

/-- The test in front of each line, in the mode of the logger. -/
def full (l : BasicBusinessLogger Z) : Bool :=
  if l.compressType = kCompressGzip then l.gipHelper.isFull
  else l.buf.length > l.rotateSize.toNat

/-- What the first part of `checkRotate` leaves in its locals: `isTimeOut`, and `data` and
`how_much` if it has set them. -/
structure Locals where
  isTimeOut : Bool
  batch : Option ((ℕ → PcapPacket) × UInt32)

/-- The packets that the drain loop goes through, with no packet for an unset `how_much`. -/
def Locals.packets (locals : Locals) : List PcapPacket :=
  match locals.batch with
  | none => []
  | some (data, howMuch) => BuffRing.batch data howMuch.toNat

/-- `checkRotate` up to the end of its second `if`. `fresh` is what `new PcapPacket[]`
gives. -/
def collect (fresh : ℕ → PcapPacket) (l : BasicBusinessLogger Z) (clock : Clock) :
    Except Fault (BasicBusinessLogger Z × Locals) :=
  let isTimeOut := l.timeOut clock.uptime
  let l :=
    if isTimeOut then
      { l with
        uptimeBak := (UInt32.ofNat clock.uptimeBak).toUInt64
        roateCnt := l.roateCnt + 1 }
    else l
  if isTimeOut || l.nearlyFull then
    match doDequeue l.data.1 l.data.2 fresh kVectorThreshold with
    | none => .error .neverReturns
    | some (mem, data, howMuch, _) =>
        .ok ({ l with
          data := (l.data.1, mem)
          books := { l.books with
            dequeued := l.books.dequeued ++ BuffRing.batch data howMuch.toNat } },
          ⟨isTimeOut, some (data, howMuch)⟩)
  else .ok (l, ⟨isTimeOut, none⟩)

/-- One round of the drain loop. -/
def drainOne (env : Env Z) (l : BasicBusinessLogger Z) (packet : PcapPacket) :
    BasicBusinessLogger Z :=
  let l := if l.full then { l.outputFile env with serialCnt := l.serialCnt + 1 } else l
  l.makeCsvLog env packet

/-- `checkRotate` after its second `if`, with the `how_much` packets of `data`. -/
def drain (env : Env Z) (l : BasicBusinessLogger Z) (now : ℕ) (isTimeOut : Bool)
    (packets : List PcapPacket) : BasicBusinessLogger Z :=
  let l := getFileGenTime env { l with serialCnt := 0 } now
  let l := packets.foldl (drainOne env) l
  if isTimeOut && l.serialCnt == 0 then l.outputFile env else l

/-- `checkRotate` and the 1 that it returns. An unset `how_much` is a fault. -/
def checkRotate (env : Env Z) (fresh : ℕ → PcapPacket) (l : BasicBusinessLogger Z)
    (clock : Clock) : Except Fault (BasicBusinessLogger Z × Int) :=
  match l.collect fresh clock with
  | .error fault => .error fault
  | .ok (l, locals) =>
      match locals.batch with
      | none => .error .unsetLocal
      | some _ => .ok (l.drain env clock.now locals.isTimeOut locals.packets, 1)

/-- `checkRotate` with an idle check counted as dequeuing nothing. -/
def checkRotateCounted (env : Env Z) (fresh : ℕ → PcapPacket) (l : BasicBusinessLogger Z)
    (clock : Clock) : Except Fault (BasicBusinessLogger Z) :=
  match l.collect fresh clock with
  | .error fault => .error fault
  | .ok (l, locals) => .ok (l.drain env clock.now locals.isTimeOut locals.packets)

/-- `~BasicBusinessLogger`. -/
def destroy (env : Env Z) (fresh : ℕ → PcapPacket) (l : BasicBusinessLogger Z) (clock : Clock) :
    Except Fault (BasicBusinessLogger Z) :=
  checkRotateCounted env fresh { l with uptimeBak := 0 } clock

/-! ## Runs -/

inductive Event
  | pushBack (packet : PcapPacket)
  | checkRotate (clock : Clock)

def step (env : Env Z) (fresh : ℕ → PcapPacket) (l : BasicBusinessLogger Z) :
    Event → Except Fault (BasicBusinessLogger Z)
  | .pushBack packet => (l.pushBack packet).map Prod.fst
  | .checkRotate clock => l.checkRotateCounted env fresh clock

def run (env : Env Z) (fresh : ℕ → PcapPacket) (l : BasicBusinessLogger Z) :
    List Event → Except Fault (BasicBusinessLogger Z)
  | [] => .ok l
  | e :: es =>
      match l.step env fresh e with
      | .error fault => .error fault
      | .ok l => l.run env fresh es

/-- What calls can make of a logger after its `init`. -/
inductive Reachable (env : Env Z) (fresh : ℕ → PcapPacket) : BasicBusinessLogger Z → Prop
  | init {fuel : ℕ} {filePath : List Char} {rotateSize rotateCycle : UInt32}
      {compressType : UInt8} {uptime uptime' : ℕ} {slots : ℕ → PcapPacket} {storage : ℕ → UInt8}
      {gipHelper : GzipHelper Z} {l : BasicBusinessLogger Z}
      (h : init env fuel filePath rotateSize rotateCycle compressType uptime uptime' slots
        storage gipHelper = some l) : Reachable env fresh l
  | step {l l' : BasicBusinessLogger Z} (h : Reachable env fresh l) (e : Event)
      (hstep : l.step env fresh e = .ok l') : Reachable env fresh l'

end BasicBusinessLogger

end Restore.Logger
