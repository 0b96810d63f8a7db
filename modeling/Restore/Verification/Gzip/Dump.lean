import Restore.Model.GzipFile
import Restore.Verification.Logger.Equations

/-! # What a dump leaves in its file

`open` keeps what the file held, and `write` may stop early. -/

namespace Restore

open Files Gzip Logger

variable {Z : Type*}

namespace Gzip.GzipHelper

/-- What a file holds from the place where `write` has stopped is what `write` has left out. -/
def Completes (old data : List UInt8) (written : Option ℕ) : Prop :=
  old.drop (data.take (written.getD 0)).length = data.drop (data.take (written.getD 0)).length

/-- After a whole `write`, that the file was no longer than the data. -/
theorem completes_of_whole {old data : List UInt8} :
    Completes old data (some data.length) ↔ old.length ≤ data.length := by
  rw [Completes, Option.getD_some, List.take_length, List.drop_length, List.drop_eq_nil_iff]

/-- After a `write` that failed, that the file held the data. -/
theorem completes_of_failed {old data : List UInt8} : Completes old data none ↔ old = data := by
  rw [Completes]
  rfl

variable {g : GzipHelper Z} {written : Option ℕ} {path : List Char}
  {files : FileSystem (List Char)}

theorem dumpCompressFile_opened (g : GzipHelper Z) (written : Option ℕ) (path : List Char)
    (files : FileSystem (List Char)) :
    g.dumpCompressFile true written path files =
      ((g.dumpCompressFile true written path files).1, 0) ∧
      (g.dumpCompressFile true written path files).1 path =
        some (overwrite ((files path).getD []) (g.compressed.take (written.getD 0))) := by
  refine ⟨rfl, ?_⟩
  cases written with
  | none => exact create_self
  | some n => exact write_create_self _

theorem dumpCompressFile_opened_eq_iff :
    (g.dumpCompressFile true written path files).1 path = some g.compressed ↔
      Completes ((files path).getD []) g.compressed written := by
  rw [(dumpCompressFile_opened g written path files).2, Option.some_inj, overwrite_take_eq_iff]
  rfl

end Gzip.GzipHelper

namespace Logger.BasicBusinessLogger

open GzipHelper

/-- What `outputFile` dumps in gzip mode. -/
def stream (env : Env Z) (l : BasicBusinessLogger Z) : List UInt8 :=
  (l.gipHelper.compressFinish env.zlib).1.compressed

variable {env : Env Z} {l : BasicBusinessLogger Z}

theorem outputFile_stream (htype : l.compressType = kCompressGzip) :
    (l.outputFile env).books.outputs = l.books.outputs ++
      [⟨l.outputFilePath, .gzip (l.stream env), env.fopen l.books.outputs.length⟩] := by
  unfold outputFile
  dsimp only
  rw [if_pos htype]
  rfl

/-- A file at the temporary path is renamed, whatever wrote it. -/
theorem rename_tmp_eq_iff {files : FileSystem (List Char)} :
    ((rename files l.outputFilePathTmp l.outputFilePath).2 = true →
        (rename files l.outputFilePathTmp l.outputFilePath).1 l.outputFilePath =
          some (l.stream env)) ↔
      ∀ left, files l.outputFilePathTmp = some left → left = l.stream env := by
  cases hleft : files l.outputFilePathTmp with
  | none => simp [rename_of_none hleft]
  | some left =>
      obtain ⟨hrenamed, hcontent⟩ := rename_of_some l.outputFilePath hleft
      simp [hrenamed, hcontent]

/-- A dump that returns 0 leaves exactly its data if and only if what the file held completes
what `write` took. What `outputFile` renames into place is exactly the stream if and only if the
same holds of what was left at the temporary path or, if that cannot be opened, the stream itself
was. -/
theorem dump_exact_iff (g : GzipHelper Z) (opened : Bool) (written : Option ℕ)
    (path : List Char) (env : Env Z) (l : BasicBusinessLogger Z) (renames : Bool)
    (files : FileSystem (List Char)) :
    (((g.dumpCompressFile opened written path files).2 = 0 →
        (g.dumpCompressFile opened written path files).1 path = some g.compressed) ↔
      (opened = true → Completes ((files path).getD []) g.compressed written)) ∧
    (((l.outputFileGzip env written renames files).2 = true →
        (l.outputFileGzip env written renames files).1 l.outputFilePath =
          some (l.stream env)) ↔
      (renames = true →
        if env.fopen l.books.outputs.length then
          Completes ((files l.outputFilePathTmp).getD []) (l.stream env) written
        else ∀ left, files l.outputFilePathTmp = some left → left = l.stream env)) := by
  constructor
  · cases opened with
    | false => simp [dumpCompressFile]
    | true =>
        have hret : (g.dumpCompressFile true written path files).2 = 0 := rfl
        simp only [hret, true_imp_iff]
        exact dumpCompressFile_opened_eq_iff
  · cases renames with
    | false => simp [outputFileGzip]
    | true =>
        simp only [outputFileGzip, if_true, true_imp_iff]
        rw [rename_tmp_eq_iff]
        cases env.fopen l.books.outputs.length with
        | false => rfl
        | true =>
            have hdump := dumpCompressFile_opened (l.gipHelper.compressFinish env.zlib).1
              written l.outputFilePathTmp files
            simp only [if_true]
            rw [stream, ← dumpCompressFile_opened_eq_iff, hdump.2]
            simp

def twoBytes : GzipHelper Unit := ⟨fun _ => 7, 0, 2, 0, 0, 0, ()⟩

def gzipLogger : BasicBusinessLogger Unit := { textLogger with compressType := kCompressGzip }

/-- Two bytes over three, a `write` that fails, and the file of an earlier run at a temporary
path that cannot be opened. -/
theorem dump_inexact :
    twoBytes.compressed = [7, 7] ∧
      (twoBytes.dumpCompressFile true (some 2) [] fun _ => some [1, 2, 3]).2 = 0 ∧
      (twoBytes.dumpCompressFile true (some 2) [] fun _ => some [1, 2, 3]).1 [] =
        some [7, 7, 3] ∧
      (twoBytes.dumpCompressFile true none [] fun _ => none).2 = 0 ∧
      (twoBytes.dumpCompressFile true none [] fun _ => none).1 [] = some [] ∧
      gzipLogger.compressType = kCompressGzip ∧
      gzipLogger.stream (textEnv fun _ => false) = [] ∧
      (gzipLogger.outputFileGzip (textEnv fun _ => false) none true fun _ => some [1]).2 =
        true ∧
      (gzipLogger.outputFileGzip (textEnv fun _ => false) none true fun _ => some [1]).1
        gzipLogger.outputFilePath = some [1] := by
  obtain ⟨hrenamed, hcontent⟩ := @rename_of_some _ _ (fun _ => some [1])
    gzipLogger.outputFilePathTmp gzipLogger.outputFilePath [1] rfl
  exact ⟨by decide, rfl, rfl, rfl, rfl, rfl, rfl, hrenamed, hcontent⟩

end Logger.BasicBusinessLogger

end Restore
