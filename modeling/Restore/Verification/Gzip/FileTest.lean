import Restore.Model.GzipTest
import Restore.Verification.Gzip.Cycles
import Restore.Verification.Gzip.Dump

/-! # `gzip_helper_test` makes a file that decodes to its input -/

namespace Restore.Gzip

open Files

variable {Z : Type*} {z : Zlib Z} {gunzip : List UInt8 → Option (List UInt8)}
  {streamed : Z → List UInt8 → List UInt8 → Prop}

/-- The pieces that the loop hands to `compressUpdate`. -/
def pieces (p : List UInt8) : List (List UInt8) :=
  if p.length > kEach then p.take kEach :: pieces (p.drop kEach)
  else if p.length > 0 then [p]
  else []
termination_by p.length
decreasing_by
  rw [List.length_drop]
  have := kEach_pos
  omega

theorem flatten_pieces (p : List UInt8) : (pieces p).flatten = p := by
  fun_induction pieces p with
  | case1 p hlong ih => rw [List.flatten_cons, ih, List.take_append_drop]
  | case2 p hshort hpos => exact List.append_nil p
  | case3 p hshort hnil => exact (List.eq_nil_of_length_eq_zero (by omega)).symm

namespace GzipHelper

variable {g : GzipHelper Z}

theorem updateLoop_eq (g : GzipHelper Z) (p : List UInt8) :
    g.updateLoop z p = g.compressUpdates z (pieces p) := by
  fun_induction pieces p generalizing g with
  | case1 p hlong ih =>
      rw [updateLoop, if_pos hlong, compressUpdates]
      dsimp only
      rw [ih]
  | case2 p hshort hpos =>
      rw [updateLoop, if_neg hshort, if_pos hpos]
      rfl
  | case3 p hshort hnil =>
      rw [updateLoop, if_neg hshort, if_neg hnil]
      rfl

/-- The loop and `compressFinish` are a cycle of the pieces. -/
theorem gunzip_of_updateLoop (hz : z.Streams gunzip streamed) (h : g.Holds z streamed [])
    (p : List UInt8)
    (herrs : ∀ err ∈ (g.updateLoop z p).2 ++ [((g.updateLoop z p).1.compressFinish z).2], err = 0) :
    gunzip ((g.updateLoop z p).1.compressFinish z).1.compressed = some p := by
  obtain ⟨hupdates, hfinish⟩ := List.forall_mem_append.mp herrs
  rw [updateLoop_eq] at *
  have hholds := (h.compressUpdates hz hupdates).compressFinish hz
    (hfinish _ (List.mem_singleton_self _))
  rw [hholds, List.nil_append, flatten_pieces]

end GzipHelper

/-- If no error is printed, the file was not longer before and `write` takes everything, the file
has the returned size and decodes to the input. -/
theorem gzipHelperTest_round_trip (hz : z.Streams gunzip streamed) (reserve : UInt64 → UInt64)
    (storage : ℕ → UInt8) (compressLevel : Int) (file : List Char) (mm : List UInt8)
    (files : FileSystem (List Char)) {written : ℕ} {files' : FileSystem (List Char)}
    {compressSize : UInt64} {errs : List Int}
    (hcall : gzipHelperTest z reserve storage compressLevel file mm true (some written) files =
      (files', compressSize, errs))
    (herrs : ∀ err ∈ errs, err = 0) (hwritten : written = compressSize.toNat)
    (hold : ((files (file ++ ".gz".toList)).getD []).length ≤ compressSize.toNat) :
    ∃ bytes, files' (file ++ ".gz".toList) = some bytes ∧ bytes.length = compressSize.toNat ∧
      gunzip bytes = some mm := by
  have hstart := GzipHelper.compressInit_holds hz reserve
    ({ gzipHelper z ((1 : UInt64) <<< 30) storage with compressLevel, memoryLevel := 9 } :
      GzipHelper Z)
  rw [gzipHelperTest] at hcall
  dsimp only at hcall
  generalize (({ gzipHelper z ((1 : UInt64) <<< 30) storage with
    compressLevel, memoryLevel := 9 } : GzipHelper Z).compressInit z reserve).1 = g
    at hstart hcall
  obtain ⟨rfl, hrest⟩ := Prod.mk.inj hcall
  obtain ⟨rfl, rfl⟩ := Prod.mk.inj hrest
  have hgunzip := GzipHelper.gunzip_of_updateLoop hz hstart mm herrs
  have hlen : ((g.updateLoop z mm).1.compressFinish z).1.compressed.length =
      ((g.updateLoop z mm).1.compressFinish z).1.getCompressSize.toNat := by
    simp [GzipHelper.compressed, GzipHelper.getCompressSize]
  refine ⟨_, GzipHelper.dumpCompressFile_opened_eq_iff.mpr ?_, hlen, hgunzip⟩
  rw [hwritten, ← hlen, GzipHelper.completes_of_whole, hlen]
  exact hold

/-- A file with one letter, for which there was no output yet. -/
theorem gzipHelperTest_round_trip_of_letter :
    ∃ files' errs, gzipHelperTest GzipHelper.letterZlib id (fun _ => 0) 1 "a".toList [0x61] true
        (some 21) (fun _ => none) = (files', 21, errs) ∧
      ∃ bytes, files' ("a".toList ++ ".gz".toList) = some bytes ∧
        bytes.length = (21 : UInt64).toNat ∧ GzipHelper.letterGunzip bytes = some [0x61] := by
  have hloop (g : GzipHelper GzipHelper.LetterStream) :
      g.updateLoop GzipHelper.letterZlib [0x61] =
        ((g.compressUpdate GzipHelper.letterZlib [0x61]).1,
          [(g.compressUpdate GzipHelper.letterZlib [0x61]).2]) := by
    rw [GzipHelper.updateLoop, if_neg (by decide), if_pos (by decide)]
  have hresult : (gzipHelperTest GzipHelper.letterZlib id (fun _ => 0) 1 "a".toList [0x61] true
      (some 21) fun _ => none).2 = (21, [0, 0]) := by
    rw [gzipHelperTest]
    simp only [hloop]
    rfl
  have hcall : gzipHelperTest GzipHelper.letterZlib id (fun _ => 0) 1 "a".toList [0x61] true
      (some 21) (fun _ => none) = (_, 21, [0, 0]) := Prod.ext rfl hresult
  exact ⟨_, [0, 0], hcall, gzipHelperTest_round_trip GzipHelper.letterZlib_streams id _ 1 _ _ _
    hcall (by decide) rfl (Nat.zero_le _)⟩

end Restore.Gzip
