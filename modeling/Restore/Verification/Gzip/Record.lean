import Restore.Verification.Gzip.Equations

/-! # A record of the calls of `deflate`

zlib that also keeps what each call of `deflate` was offered and what it put out. The helper
goes through the same states with it. -/

namespace Restore.Gzip

variable {Z : Type*} {z : Zlib Z}

structure DeflateCall where
  availOut : UInt32
  /-- The number of bytes that were put out. -/
  emitted : ℕ

def Zlib.recorded (z : Zlib Z) : Zlib (Z × List DeflateCall) where
  cleared := (z.cleared, [])
  totalOut s := z.totalOut s.1
  deflateInit2 s level windowBits memLevel :=
    let (stream, err) := z.deflateInit2 s.1 level windowBits memLevel
    ((stream, s.2), err)
  deflateReset s :=
    let (stream, err) := z.deflateReset s.1
    ((stream, s.2), err)
  deflateSetHeader s :=
    let (stream, err) := z.deflateSetHeader s.1
    ((stream, s.2), err)
  deflate s source availOut flush :=
    let (stream, out, err) := z.deflate s.1 source availOut flush
    ((stream, s.2 ++ [⟨availOut, out.length⟩]), out, err)
  deflateEnd s :=
    let (stream, err) := z.deflateEnd s.1
    ((stream, s.2), err)

theorem recorded_deflate {s : Z × List DeflateCall} {stream : Z} {source out : List UInt8}
    {availOut : UInt32} {flush : Flush} {err : Int}
    (hcall : z.deflate s.1 source availOut flush = (stream, out, err)) :
    z.recorded.deflate s source availOut flush =
      ((stream, s.2 ++ [⟨availOut, out.length⟩]), out, err) := by
  simp only [Zlib.recorded, hcall]

namespace GzipHelper

/-- The helper without the record. -/
def forget (g : GzipHelper (Z × List DeflateCall)) : GzipHelper Z :=
  { g with stream := g.stream.1 }

variable {g : GzipHelper (Z × List DeflateCall)}

theorem compressUpdate_forget (source : List UInt8) :
    (g.compressUpdate z.recorded source).1.forget = (g.forget.compressUpdate z source).1 := by
  rcases hcall : z.deflate g.stream.1 source g.availOut .noFlush with ⟨stream, out, err⟩
  rw [compressUpdate_eq (recorded_deflate hcall), compressUpdate_eq (g := g.forget) hcall]
  split <;> rfl

theorem compressFinish_forget :
    (g.compressFinish z.recorded).1.forget = (g.forget.compressFinish z).1 := by
  rcases hcall : z.deflate (z.deflateSetHeader g.stream.1).1 [] g.availOut .finish
    with ⟨stream, out, err⟩
  have hrecorded : z.recorded.deflate (z.recorded.deflateSetHeader g.stream).1 [] g.availOut
      .finish = ((stream, g.stream.2 ++ [⟨g.availOut, out.length⟩]), out, err) :=
    recorded_deflate hcall
  have hheader : (z.recorded.deflateSetHeader g.stream).2 =
      (z.deflateSetHeader g.forget.stream).2 := rfl
  have hclosed : (z.recorded.deflateEnd (stream, g.stream.2 ++ [⟨g.availOut, out.length⟩])).2 =
      (z.deflateEnd stream).2 := rfl
  rw [compressFinish_eq hrecorded, compressFinish_eq (g := g.forget) hcall, hheader, hclosed]
  split_ifs <;> rfl

/-- `compressFinish` calls `deflate` once, unless `deflateSetHeader` fails. -/
theorem compressFinish_calls {out : List UInt8} {stream : Z} {err : Int}
    (hcall : z.deflate (z.deflateSetHeader g.stream.1).1 [] g.availOut .finish =
      (stream, out, err)) :
    (g.compressFinish z.recorded).1.stream.2 =
      if (z.deflateSetHeader g.stream.1).2 ≠ zOk then g.stream.2
      else g.stream.2 ++ [⟨g.availOut, out.length⟩] := by
  have hrecorded : z.recorded.deflate (z.recorded.deflateSetHeader g.stream).1 [] g.availOut
      .finish = ((stream, g.stream.2 ++ [⟨g.availOut, out.length⟩]), out, err) :=
    recorded_deflate hcall
  have hheader : (z.recorded.deflateSetHeader g.stream).2 =
      (z.deflateSetHeader g.stream.1).2 := rfl
  rw [compressFinish_eq hrecorded, hheader]
  split_ifs <;> rfl

end GzipHelper

end Restore.Gzip
