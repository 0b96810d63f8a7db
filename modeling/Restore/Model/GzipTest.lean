import Restore.Model.GzipFile

/-! # `gzip_helper_test` of `gzip_test.cc`

It compresses the bytes of a mapped file in pieces of 64 MiB. -/

namespace Restore.Gzip

open Files

variable {Z : Type*}

def kEach : ℕ := 64 <<< 20

theorem kEach_pos : 0 < kEach := by decide

namespace GzipHelper

def getCompressSize (g : GzipHelper Z) : UInt64 := g.size

/-- The `while` loop over what is left of the bytes, and the `if` behind it, with what
`compressUpdate` returns. -/
def updateLoop (z : Zlib Z) (g : GzipHelper Z) (p : List UInt8) : GzipHelper Z × List Int :=
  if p.length > kEach then
    let (g, err) := g.compressUpdate z (p.take kEach)
    let (g, errs) := g.updateLoop z (p.drop kEach)
    (g, err :: errs)
  else if p.length > 0 then
    let (g, err) := g.compressUpdate z p
    (g, [err])
  else (g, [])
termination_by p.length
decreasing_by
  rw [List.length_drop]
  have := kEach_pos
  omega

end GzipHelper

/-- What the test leaves in the file system, the size that it returns, and the errors that it
prints, with a zero for each call without one. `storage` is what reserved storage holds. -/
def gzipHelperTest (z : Zlib Z) (reserve : UInt64 → UInt64) (storage : ℕ → UInt8)
    (compressLevel : Int) (file : List Char) (mm : List UInt8) (opened : Bool)
    (written : Option ℕ) (files : FileSystem (List Char)) :
    FileSystem (List Char) × UInt64 × List Int :=
  let fileGz := file ++ ".gz".toList
  let gzipHelper : GzipHelper Z :=
    { gzipHelper z ((1 : UInt64) <<< 30) storage with compressLevel, memoryLevel := 9 }
  let (g, _) := gzipHelper.compressInit z reserve
  let (g, errs) := g.updateLoop z mm
  let (g, err) := g.compressFinish z
  let compressSize := g.getCompressSize
  let (files, _) := g.dumpCompressFile opened written fileGz files
  (files, compressSize, errs ++ [err])

end Restore.Gzip
