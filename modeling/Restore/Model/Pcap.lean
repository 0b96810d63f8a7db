import Restore.Shared.Fetch

/-! # `PcapReader` of `pcap.cc`

The reader in the build of `CMakeLists.txt`: little-endian, without mmap, and with
`NDEBUG`, so that the assertion on `packet_length_wire` is compiled out. -/

namespace Restore.Pcap

open Fetch

/-! ## Byte order -/

/-- The 16-bit host word at `start`. -/
def load16 (start : ℕ) : Fetch UInt16 := do
  let b0 ← load start
  let b1 ← load (start + 1)
  return UInt16.ofNat (b0.toNat + 2 ^ 8 * b1.toNat)

/-- The 32-bit host word at `start`. -/
def load32 (start : ℕ) : Fetch UInt32 := do
  let b0 ← load start
  let b1 ← load (start + 1)
  let b2 ← load (start + 2)
  let b3 ← load (start + 3)
  return UInt32.ofNat (b0.toNat + 2 ^ 8 * b1.toNat + 2 ^ 16 * b2.toNat + 2 ^ 24 * b3.toNat)

/-- `pv[k]` for `unsigned char* pv = (unsigned char*)&v`. -/
def byteOf (v k : ℕ) : UInt8 := UInt8.ofNat (v / 2 ^ (8 * k))

def htobe16 (v : UInt16) : UInt16 :=
  (byteOf v.toNat 0).toUInt16 <<< 8 ||| (byteOf v.toNat 1).toUInt16

def htobe32 (v : UInt32) : UInt32 :=
  (byteOf v.toNat 0).toUInt32 <<< 24 ||| (byteOf v.toNat 1).toUInt32 <<< 16 |||
    (byteOf v.toNat 2).toUInt32 <<< 8 ||| (byteOf v.toNat 3).toUInt32

def betoh16 (v : UInt16) : UInt16 := htobe16 v

def betoh32 (v : UInt32) : UInt32 := htobe32 v

def ntoh16 (v : Int16) : Int16 := (betoh16 v.toUInt16).toInt16

def ntoh32 (v : Int32) : Int32 := (betoh32 v.toUInt32).toInt32

/-- A 16-bit header field in network order, as in `ntoh16(tcp_header->src_port)`. -/
def loadNet16 (start : ℕ) : Fetch UInt16 := do
  let v ← load16 start
  return (ntoh16 v.toInt16).toUInt16

/-- A 32-bit header field in network order, as in `ntoh32(ipv4_header->src_addr)`. -/
def loadNet32 (start : ℕ) : Fetch UInt32 := do
  let v ← load32 start
  return (ntoh32 v.toInt32).toUInt32

/-! ## Packets -/

structure PcapPacketHeader where
  timestamp : UInt32
  microseconds : UInt32
  packetLength : UInt32
  packetLengthWire : UInt32
  deriving DecidableEq, Repr

structure PcapPacket where
  tvSec : ℕ
  tvUsec : ℕ
  scrIpv4 : UInt32
  dstIpv4 : UInt32
  scrPort : UInt16
  dstPort : UInt16
  l3Type : UInt16
  l2Type : UInt16
  deriving DecidableEq, Repr

def hash4Tuple (packet : PcapPacket) : UInt64 :=
  (packet.scrIpv4.toUInt64 * (59 : UInt64)) ^^^ packet.dstIpv4.toUInt64 ^^^
    (packet.scrPort.toUInt64 <<< 16) ^^^ packet.dstPort.toUInt64

def etherTypeIPv4 : UInt16 := 0x0800

def ipprotoTcp : UInt8 := 6

def ipprotoUdp : UInt8 := 17

/-- `sizeof(PcapFileHeader)`. -/
def fileHeaderSize : ℕ := 24

/-- `sizeof(PcapPacketHeader)`. -/
def packetHeaderSize : ℕ := 16

/-- `sizeof(ether_hdr)`. -/
def etherHeaderSize : ℕ := 14

/-! ## The reader -/

structure PcapReader where
  groupNum : UInt8
  datas : List (List PcapPacket)
  deriving DecidableEq, Repr

def pcapReader (groupNum : UInt8) : PcapReader :=
  ⟨groupNum, List.replicate groupNum.toNat []⟩

/-- The buffer of a `FileReader`: `length` bytes of the file, then whatever memory holds. -/
structure Mmap where
  data : ℕ → UInt8
  length : ℕ

/-- The filled packet and the `int` that `ParsePacket` returns. -/
def parsePacket (packet : PcapPacket) (start _len : ℕ) : Fetch (PcapPacket × ℕ) := do
  let l2Type ← loadNet16 (start + 12)
  let packet := { packet with l2Type }
  if etherTypeIPv4 = l2Type then
    let ipv4 := start + etherHeaderSize
    let versionIhl ← load ipv4
    let ipPayload := start + etherHeaderSize + (versionIhl &&& 0x0f).toNat <<< 2
    let l3Type ← load (ipv4 + 9)
    let scrIpv4 ← loadNet32 (ipv4 + 12)
    let dstIpv4 ← loadNet32 (ipv4 + 16)
    let packet := { packet with l3Type := l3Type.toUInt16, scrIpv4, dstIpv4 }
    let nextProtoId ← load (ipv4 + 9)
    if ipprotoTcp = nextProtoId then
      let scrPort ← loadNet16 ipPayload
      let dstPort ← loadNet16 (ipPayload + 2)
      return ({ packet with scrPort, dstPort }, 1)
    else
      let nextProtoId ← load (ipv4 + 9)
      if ipprotoUdp = nextProtoId then
        let scrPort ← loadNet16 ipPayload
        let dstPort ← loadNet16 (ipPayload + 2)
        return ({ packet with scrPort, dstPort }, 1)
      else return (packet, 0)
  else return (packet, 0)

/-- `memcpy((void*)&pph, p + offset, sizeof(pph))`. -/
def loadPacketHeader (offset : ℕ) : Fetch PcapPacketHeader := do
  let timestamp ← load32 offset
  let microseconds ← load32 (offset + 4)
  let packetLength ← load32 (offset + 8)
  let packetLengthWire ← load32 (offset + 12)
  return ⟨timestamp, microseconds, packetLength, packetLengthWire⟩

/-- `datas_[key % group_num_].push_back(packet)`; `none` is the trap of a division by 0. -/
def PcapReader.push (r : PcapReader) (packet : PcapPacket) : Option PcapReader :=
  if r.groupNum = 0 then none
  else
    let key := hash4Tuple packet
    some { r with
      datas := r.datas.modify (key % r.groupNum.toUInt64).toNat (· ++ [packet]) }

/-- One iteration of the record loop: `packet_length` and the reader afterwards.
`packet` is what the uninitialised local held. -/
def readRecord (packet : PcapPacket) (offset : ℕ) (r : PcapReader) :
    Fetch (UInt32 × Option PcapReader) := do
  let pph ← loadPacketHeader offset
  let packet := { packet with
    tvSec := pph.timestamp.toNat
    tvUsec := pph.microseconds.toNat }
  let (packet, ret) ← parsePacket packet (offset + packetHeaderSize) pph.packetLength.toNat
  return (pph.packetLength, if ret ≠ 0 then r.push packet else some r)

/-- `while (offset <= file_reader.buff->length)`. -/
def readRecords (packet : PcapPacket) (length offset : ℕ) (r : PcapReader) :
    Fetch (Option PcapReader) :=
  if offset ≤ length then do
    let (packetLength, r) ← readRecord packet offset r
    match r with
    | none => return none
    | some r => readRecords packet length (offset + packetHeaderSize + packetLength.toNat) r
  else return some r
termination_by length + 1 - offset
decreasing_by
  simp only [packetHeaderSize]
  omega

/-- `ReadPcapFile` on the buffer that the `FileReader` holds, if it is OK: the reader
afterwards and the returned `int`, or `none` if the process is trapped. -/
def readPcapFile (packet : PcapPacket) (buff : Option Mmap) (r : PcapReader) :
    Fetch (Option (PcapReader × Int)) :=
  match buff with
  | none => return some (r, -1)
  | some buff => do
      let _ ← loadBytes 0 fileHeaderSize
      let r ← readRecords packet buff.length fileHeaderSize r
      return r.map fun r => (r, 0)

/-- `GetPcapPacketVector(id)`, with `(size_t)id` already converted. -/
def PcapReader.getPcapPacketVector (r : PcapReader) (id : UInt64) :
    Option (List PcapPacket) :=
  if r.groupNum = 0 then none
  else r.datas[(id % r.groupNum.toUInt64).toNat]?

end Restore.Pcap
