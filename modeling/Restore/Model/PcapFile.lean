import Restore.Model.FileReader
import Restore.Model.Pcap

/-! # `ReadPcapFile` on a path

`Restore.Model.Pcap` has the reader on a buffer. Here the buffer is that of the `FileReader`
which `ReadPcapFile` constructs for its path. -/

namespace Restore.Pcap

open FileReader (Calls fileReader)

/-- The buffer as the reader goes through it, `none` if `malloc` has not set it up. -/
def ofFileReader (buff : FileReader.Mmap) : Option Mmap :=
  buff.data.map fun data => ⟨data, buff.length.toNat⟩

/-- `ReadPcapFile(file_path)`, with the calls of its `FileReader` and the file at the path;
`none` if the process is trapped, as by the first `memcpy` from a null pointer. -/
def readPcapFileAt (packet : PcapPacket) (calls : Calls) (file : List UInt8) (r : PcapReader) :
    Option (PcapReader × Int) :=
  match fileReader calls file with
  | none => (readPcapFile packet none r).value fun _ => 0
  | some buff => do
      let buff ← ofFileReader buff
      (readPcapFile packet (some buff) r).value buff.data

end Restore.Pcap
