import Mathlib.Data.List.Basic
import Restore.Model.Gzip

/-! # Calls of a `GzipHelper`

What a call of `deflate` puts out goes behind the first `m_size` bytes of the storage, and
takes its length from the window that the next call is offered. -/

namespace Restore.Gzip.GzipHelper

variable {Z : Type*} {z : Zlib Z} {g : GzipHelper Z}

/-! ## The storage -/

theorem compressed_of_data {size : ℕ} {data : ℕ → UInt8} (out : List UInt8) :
    ((List.range (size + out.length)).map fun i =>
        if size ≤ i then out.getD (i - size) (data i) else data i) =
      (List.range size).map data ++ out := by
  rw [List.range_add, List.map_append, List.map_map]
  congr 1
  · refine List.map_congr_left fun i hi => if_neg ?_
    exact Nat.not_le.mpr (List.mem_range.mp hi)
  · refine List.ext_getElem (by simp) fun i hi hout => ?_
    simp [hout]

/-- The `avail_out` of the next call of `deflate`. -/
def availOut (g : GzipHelper Z) : UInt32 := (g.capacity - g.size).toUInt32

/-- The helper after a call of `deflate` that has put out `out`. -/
def afterOutput (g : GzipHelper Z) (stream : Z) (out : List UInt8) : GzipHelper Z :=
  { g with
    data i := if g.size.toNat ≤ i then out.getD (i - g.size.toNat) (g.data i) else g.data i
    size := g.size + UInt64.ofNat out.length
    stream }

theorem availOut_toNat (hsize : g.size ≤ g.capacity) :
    g.availOut.toNat = (g.capacity.toNat - g.size.toNat) % 2 ^ 32 := by
  rw [availOut, UInt64.toNat_toUInt32, UInt64.toNat_sub_of_le _ _ hsize]

theorem availOut_toNat_le (hsize : g.size ≤ g.capacity) :
    g.size.toNat + g.availOut.toNat ≤ g.capacity.toNat := by
  have hle := UInt64.le_iff_toNat_le.mp hsize
  rw [availOut_toNat hsize]
  omega

theorem afterOutput_size {stream : Z} {out : List UInt8} (hsize : g.size ≤ g.capacity)
    (hout : out.length ≤ g.availOut.toNat) :
    (g.afterOutput stream out).size.toNat = g.size.toNat + out.length := by
  have hroom := availOut_toNat_le hsize
  have hcapacity := g.capacity.toNat_lt
  rw [afterOutput, UInt64.toNat_add, UInt64.toNat_ofNat']
  omega

theorem afterOutput_size_le {stream : Z} {out : List UInt8} (hsize : g.size ≤ g.capacity)
    (hout : out.length ≤ g.availOut.toNat) :
    (g.afterOutput stream out).size ≤ (g.afterOutput stream out).capacity := by
  rw [UInt64.le_iff_toNat_le, afterOutput_size hsize hout]
  exact Nat.le_trans (Nat.add_le_add_left hout _) (availOut_toNat_le hsize)

theorem afterOutput_compressed {stream : Z} {out : List UInt8} (hsize : g.size ≤ g.capacity)
    (hout : out.length ≤ g.availOut.toNat) :
    (g.afterOutput stream out).compressed = g.compressed ++ out := by
  rw [compressed, afterOutput_size hsize hout]
  exact compressed_of_data out

/-- Each byte that is put out takes one from the window. -/
theorem afterOutput_availOut {stream : Z} {out : List UInt8} (hsize : g.size ≤ g.capacity)
    (hout : out.length ≤ g.availOut.toNat) :
    (g.afterOutput stream out).availOut.toNat = g.availOut.toNat - out.length := by
  have hle := UInt64.le_iff_toNat_le.mp hsize
  have hcapacity : (g.afterOutput stream out).capacity = g.capacity := rfl
  rw [availOut_toNat (afterOutput_size_le hsize hout), afterOutput_size hsize hout, hcapacity]
  rw [availOut_toNat hsize] at hout ⊢
  omega

/-! ## Calls -/

theorem deflate_eq {source out : List UInt8} {flush : Flush} {stream : Z} {err : Int}
    (hcall : z.deflate g.stream source g.availOut flush = (stream, out, err)) :
    g.deflate z source flush = ({ g.afterOutput stream out with size := g.size }, err) := by
  rw [deflate, ← availOut, hcall]
  rfl

/-- `m_size = m_stream.total_out` counts the bytes that were put out. -/
theorem afterOutput_totalOut {out : List UInt8} {stream : Z} {size : UInt64}
    (htotal : size = g.size + UInt64.ofNat out.length) :
    { g.afterOutput stream out with size } = g.afterOutput stream out := by
  rw [htotal]
  rfl

theorem compressUpdate_eq {chunk out : List UInt8} {stream : Z} {err : Int}
    (hcall : z.deflate g.stream chunk g.availOut .noFlush = (stream, out, err)) :
    g.compressUpdate z chunk =
      if err = zOk then ({ g.afterOutput stream out with size := z.totalOut stream }, 0)
      else ({ g.afterOutput stream out with size := g.size }, err) := by
  rw [compressUpdate, deflate_eq hcall]
  exact ite_not _ _ _

theorem compressUpdate_eq_zero {chunk : List UInt8} (hret : (g.compressUpdate z chunk).2 = 0) :
    ∃ stream out, z.deflate g.stream chunk g.availOut .noFlush = (stream, out, zOk) ∧
      (g.compressUpdate z chunk).1 =
        { g.afterOutput stream out with size := z.totalOut stream } := by
  rcases hcall : z.deflate g.stream chunk g.availOut .noFlush with ⟨stream, out, err⟩
  rw [compressUpdate_eq hcall] at hret ⊢
  split at hret
  next herr =>
    obtain rfl := herr
    exact ⟨stream, out, rfl, rfl⟩
  next herr => exact absurd hret herr

theorem compressFinish_eq {out : List UInt8} {stream : Z} {err : Int}
    (hcall : z.deflate (z.deflateSetHeader g.stream).1 [] g.availOut .finish =
      (stream, out, err)) :
    g.compressFinish z =
      if (z.deflateSetHeader g.stream).2 ≠ zOk then
        ({ g with stream := (z.deflateSetHeader g.stream).1 }, (z.deflateSetHeader g.stream).2)
      else if err ≠ zStreamEnd then
        ({ g.afterOutput (z.deflateEnd stream).1 out with size := g.size },
          if err = zOk then zBufError else err)
      else if (z.deflateEnd stream).2 ≠ zOk then
        ({ g.afterOutput (z.deflateEnd stream).1 out with size := g.size },
          (z.deflateEnd stream).2)
      else
        ({ g.afterOutput (z.deflateEnd stream).1 out with
          size := z.totalOut (z.deflateEnd stream).1 }, 0) := by
  have hdeflate := deflate_eq (g := { g with stream := (z.deflateSetHeader g.stream).1 }) hcall
  rw [compressFinish]
  dsimp only
  rw [hdeflate]
  rfl

@[simp] theorem compressFinish_capacity : (g.compressFinish z).1.capacity = g.capacity := by
  rcases hcall : z.deflate (z.deflateSetHeader g.stream).1 [] g.availOut .finish
    with ⟨stream, out, err⟩
  rw [compressFinish_eq hcall]
  split_ifs <;> rfl

theorem compressFinish_eq_zero (hret : (g.compressFinish z).2 = 0) :
    ∃ stream out,
      z.deflate (z.deflateSetHeader g.stream).1 [] g.availOut .finish =
        (stream, out, zStreamEnd) ∧
      (g.compressFinish z).1 =
        { g.afterOutput (z.deflateEnd stream).1 out with
          size := z.totalOut (z.deflateEnd stream).1 } := by
  rcases hcall : z.deflate (z.deflateSetHeader g.stream).1 [] g.availOut .finish
    with ⟨stream, out, err⟩
  rw [compressFinish_eq hcall] at hret ⊢
  split_ifs at hret ⊢ with hheader hend hok hclosed
  · exact absurd hret hheader
  · exact absurd (show zBufError = 0 from hret) (by decide)
  · exact absurd hret hok
  · exact absurd hret hclosed
  · obtain rfl : err = zStreamEnd := Classical.not_not.mp hend
    exact ⟨stream, out, rfl, rfl⟩

/-- The sum of `isFull` does not wrap for any size that storage can have. -/
theorem isFull_iff (hsize : g.size.toNat < 2 ^ 63) :
    g.isFull = true ↔ g.capacity.toNat < g.size.toNat + 2 ^ 23 + 2 ^ 4 + 2 ^ 15 := by
  have hthreshold : kSafeThreshold.toNat = 2 ^ 23 := rfl
  have hheader : kWindowBitsToGetGzipHeader.toNat = 2 ^ 4 := rfl
  have hwindow : ((32 : UInt64) <<< 10).toNat = 2 ^ 15 := rfl
  rw [isFull, decide_eq_true_iff, gt_iff_lt, UInt64.lt_iff_toNat_lt, UInt64.toNat_add,
    UInt64.toNat_add, UInt64.toNat_add, hthreshold, hheader, hwindow]
  omega

end Restore.Gzip.GzipHelper
