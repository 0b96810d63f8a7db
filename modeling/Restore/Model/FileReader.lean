import Mathlib.Data.Nat.Notation

/-! # `FileReader` of `file_reader.cpp`

The build without `USE_MMAP`. What the calls of the C library return is given. A buffer that
`malloc` has not set up is `none`, and `read` puts nothing into it. -/

namespace Restore.FileReader

structure Mmap where
  fd : Int32
  data : Option (ℕ → UInt8)
  length : UInt64

/-- The calls of the constructor, in their order. -/
structure Calls where
  /-- `st_size` of the `stat` in `get_file_size`, `none` if it fails. -/
  firstStat : Option Int64
  /-- `st_size` of the `stat` in `mmap_create`. -/
  stat : Option Int64
  /-- Whether there is memory for the `Mmap`. -/
  malloc : Bool
  /-- What `open` returns. -/
  fd : Int32
  /-- The storage that `malloc(size)` gives, with what it holds. -/
  storage : Option (ℕ → UInt8)
  /-- What `read` returns, `none` for -1. -/
  read : Option ℕ

def getFileSize (stat : Option Int64) : Int64 :=
  match stat with
  | none => -1
  | some stSize => stSize

/-- The buffer after `read(fd, data, size)`. A file gives no more bytes than it has. -/
def fill (file : List UInt8) (storage : Option (ℕ → UInt8)) (size : UInt64)
    (read : Option ℕ) : Option (ℕ → UInt8) :=
  storage.map fun data i =>
    if i < min (read.getD 0) size.toNat then file.getD i (data i) else data i

def mmapCreate (calls : Calls) (file : List UInt8) (offset size : UInt64) : Option Mmap :=
  match calls.stat with
  | none => none
  | some stSize =>
      let size := if offset + size ≤ stSize.toUInt64 then size else stSize.toUInt64 - offset
      if calls.malloc = false then none
      else if calls.fd < 0 then none
      else some ⟨calls.fd, fill file calls.storage size calls.read, size⟩

/-- The constructor, with `buff` for the object. -/
def fileReader (calls : Calls) (file : List UInt8) : Option Mmap :=
  let fileSize := (getFileSize calls.firstStat).toUInt64
  mmapCreate calls file 0 fileSize

def isOK (buff : Option Mmap) : Int :=
  match buff with
  | none => 0
  | some _ => 1

end Restore.FileReader
