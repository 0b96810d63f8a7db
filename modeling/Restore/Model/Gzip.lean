import Mathlib.Algebra.GroupWithZero.Nat
import Mathlib.Data.Nat.Notation

/-! # `GzipHelper` of `gziphelper.cpp`

The compression buffer and its calls into zlib. zlib is not part of the program: its
functions are a parameter, on a stream state of their own. -/

namespace Restore.Gzip

/-- The flush argument of `deflate`. -/
inductive Flush
  | noFlush
  | finish
  deriving DecidableEq, Repr

/-- The zlib calls that `GzipHelper` makes. Each returns zlib's error code; `deflate` also
gives the bytes that it put out, of at most the space it was offered. -/
structure Zlib (Z : Type*) where
  /-- A stream of zero bytes. -/
  cleared : Z
  totalOut : Z → UInt64
  deflateInit2 : Z → (level windowBits memLevel : Int) → Z × Int
  deflateReset : Z → Z × Int
  deflateSetHeader : Z → Z × Int
  deflate : Z → (source : List UInt8) → (availOut : UInt32) → Flush → Z × List UInt8 × Int
  deflateEnd : Z → Z × Int

def zOk : Int := 0

def zStreamEnd : Int := 1

def zBufError : Int := -5

def maxWbits : Int := 15

def kWindowBitsToGetGzipHeader : UInt64 := 16

def kSafeThreshold : UInt64 := (8 : UInt64) <<< 20

def kZlibCompressLevel : Int := 1

def kZlibMemoryLevel : Int := 9

/-- `capacity` is `m_data.capacity()`, and `data` the storage that `m_data` has reserved. -/
structure GzipHelper (Z : Type*) where
  data : ℕ → UInt8
  capacity : UInt64
  size : UInt64
  compressSize : UInt64
  compressLevel : Int
  memoryLevel : Int
  stream : Z

variable {Z : Type*}

def gzipHelper (z : Zlib Z) (compressSize : UInt64) (data : ℕ → UInt8) : GzipHelper Z :=
  ⟨data, 0, 0, compressSize, kZlibCompressLevel, kZlibMemoryLevel, z.cleared⟩

namespace GzipHelper

def streamInit (z : Zlib Z) (g : GzipHelper Z) : GzipHelper Z × Int :=
  let (stream, err) := z.deflateInit2 g.stream g.compressLevel
    (maxWbits + (kWindowBitsToGetGzipHeader.toNat : Int)) g.memoryLevel
  ({ g with stream }, err)

/-- `reserve` gives the capacity of an empty vector after `reserve(n)`. -/
def compressInit (z : Zlib Z) (reserve : UInt64 → UInt64) (g : GzipHelper Z) :
    GzipHelper Z × Int :=
  let (g, _) := streamInit z { g with stream := z.cleared }
  ({ g with
    capacity := reserve (g.compressSize + kWindowBitsToGetGzipHeader + kSafeThreshold)
    size := 0 }, 0)

def compressReset (z : Zlib Z) (g : GzipHelper Z) : GzipHelper Z × Int :=
  let (stream, _) := z.deflateReset g.stream
  streamInit z { g with size := 0, stream }

/-- `deflate` into the storage behind the first `size` bytes. -/
def deflate (z : Zlib Z) (g : GzipHelper Z) (source : List UInt8) (flush : Flush) :
    GzipHelper Z × Int :=
  let (stream, out, err) := z.deflate g.stream source (g.capacity - g.size).toUInt32 flush
  let data i := if g.size.toNat ≤ i then out.getD (i - g.size.toNat) (g.data i) else g.data i
  ({ g with data, stream }, err)

def compressUpdate (z : Zlib Z) (g : GzipHelper Z) (source : List UInt8) : GzipHelper Z × Int :=
  let (g, err) := g.deflate z source .noFlush
  if err ≠ zOk then (g, err)
  else ({ g with size := z.totalOut g.stream }, 0)

def compressFinish (z : Zlib Z) (g : GzipHelper Z) : GzipHelper Z × Int :=
  let (stream, err) := z.deflateSetHeader g.stream
  let g := { g with stream }
  if err ≠ zOk then (g, err)
  else
    let (g, err) := g.deflate z [] .finish
    if err ≠ zStreamEnd then
      let (stream, _) := z.deflateEnd g.stream
      ({ g with stream }, if err = zOk then zBufError else err)
    else
      let (stream, err) := z.deflateEnd g.stream
      let g := { g with stream }
      if err ≠ zOk then (g, err)
      else ({ g with size := z.totalOut g.stream }, 0)

def isFull (g : GzipHelper Z) : Bool :=
  let windowSize : UInt64 := (32 : UInt64) <<< 10
  g.size + kSafeThreshold + kWindowBitsToGetGzipHeader + windowSize > g.capacity

/-- The bytes that `dumpCompressFile` passes to `write`. -/
def compressed (g : GzipHelper Z) : List UInt8 :=
  (List.range g.size.toNat).map g.data

/-! ## Cycles -/

/-- `compressUpdate` on each chunk, with what the calls return. -/
def compressUpdates (z : Zlib Z) (g : GzipHelper Z) :
    List (List UInt8) → GzipHelper Z × List Int
  | [] => (g, [])
  | chunk :: chunks =>
      let (g, ret) := g.compressUpdate z chunk
      let (g, rets) := g.compressUpdates z chunks
      (g, ret :: rets)

/-- A cycle up to its `compressFinish`, with what the calls return. -/
def compressCycle (z : Zlib Z) (g : GzipHelper Z) (chunks : List (List UInt8)) :
    GzipHelper Z × List Int :=
  let (g, rets) := g.compressUpdates z chunks
  let (g, ret) := g.compressFinish z
  (g, rets ++ [ret])

/-- Whole cycles, each with the `compressReset` after it. -/
def compressCycles (z : Zlib Z) (g : GzipHelper Z) (cycles : List (List (List UInt8))) :
    GzipHelper Z :=
  cycles.foldl (fun g chunks => ((g.compressCycle z chunks).1.compressReset z).1) g

end GzipHelper

end Restore.Gzip
