import Restore.Model.Pcap
import Restore.Model.Rte

/-! # The program `logger_test.cpp`

Which work its threads take, by the settings of `GlobalRte`. -/

namespace Restore.LoggerTest

open Pcap

/-- The ids of a thread loop in `ThreadInit`, `for (int i = 0; i < coreNum; i++)`. -/
def threadIds (coreNum : Int32) : List Int32 :=
  (List.range coreNum.toNatClampNeg).map Int32.ofNat

/-- `PcapReaderInit`: the reader it leaves and what `ReadPcapFile` returned, or `none` if the
process is trapped. `fileReader` is what a `FileReader` makes of a path. -/
def pcapReaderInit (packet : PcapPacket) (fileReader : Str → Option Mmap) (rte : Rte) :
    Option (PcapReader × Int) :=
  let gPcapReaderPtr := pcapReader (UInt8.ofInt rte.packetCoreNum.toInt)
  match fileReader (cStr rte.pcapFile) with
  | none => (readPcapFile packet none gPcapReaderPtr).value fun _ => 0
  | some buff => (readPcapFile packet (some buff) gPcapReaderPtr).value buff.data

/-- The `ppv` of `PacketGet` in the packet thread `id`. -/
def packetGet (gPcapReaderPtr : PcapReader) (id : Int32) : Option (List PcapPacket) :=
  gPcapReaderPtr.getPcapPacketVector (UInt64.ofInt id.toInt)

end Restore.LoggerTest
