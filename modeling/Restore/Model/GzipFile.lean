import Restore.Model.Gzip
import Restore.Model.Logger
import Restore.Shared.Files

/-! # The files of the gzip mode

`dumpCompressFile` and the gzip branch of `outputFile` on a file system. What `open`, `write` and
`rename` return is given. -/

namespace Restore

open Files

variable {Z : Type*}

namespace Gzip.GzipHelper

/-- `written` is what `write` returns, `none` for -1, and `opened` whether `open` succeeds. -/
def dumpCompressFile (g : GzipHelper Z) (opened : Bool) (written : Option ℕ) (path : List Char)
    (files : FileSystem (List Char)) : FileSystem (List Char) × Int :=
  if opened then
    let files := create files path
    let files := match written with
      | some n => write files path (g.compressed.take n)
      | none => files
    (files, 0)
  else (files, -1)

end Gzip.GzipHelper

namespace Logger.BasicBusinessLogger

def outputFilePathTmp (l : BasicBusinessLogger Z) : List Char :=
  l.outputFilePath ++ ".tmptmp".toList

/-- What `outputFile` does to the files in gzip mode, and whether it has renamed one. `renames`
says whether `rename` would succeed on a file that exists. -/
def outputFileGzip (env : Env Z) (written : Option ℕ) (renames : Bool)
    (l : BasicBusinessLogger Z) (files : FileSystem (List Char)) :
    FileSystem (List Char) × Bool :=
  let opened := env.fopen l.books.outputs.length
  let gipHelper := (l.gipHelper.compressFinish env.zlib).1
  -- neither result is looked at
  let (files, _) := gipHelper.dumpCompressFile opened written l.outputFilePathTmp files
  if renames then rename files l.outputFilePathTmp l.outputFilePath else (files, false)

end Logger.BasicBusinessLogger

end Restore
