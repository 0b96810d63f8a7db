import Restore.Verification.Gzip.Equations

/-! # Cycles of a `GzipHelper`

`compressUpdate` may return 0 with a part of its chunk left over. It then has used up the
window that it gave to `deflate`, and `compressFinish` finds no room for the trailer. -/

namespace Restore.Gzip

variable {Z : Type*} {z : Zlib Z} {gunzip : List UInt8 → Option (List UInt8)}
  {streamed : Z → List UInt8 → List UInt8 → Prop}

/-- What `GzipHelper` relies on of zlib. `streamed s consumed emitted` says that since its
`deflateInit2` the unfinished stream `s` has taken in `consumed` and put out `emitted`, and
`gunzip` decodes complete gzip streams. -/
structure Zlib.Streams (z : Zlib Z) (gunzip : List UInt8 → Option (List UInt8))
    (streamed : Z → List UInt8 → List UInt8 → Prop) : Prop where
  deflateInit2_streamed (s : Z) (level windowBits memLevel : Int) :
    streamed (z.deflateInit2 s level windowBits memLevel).1 [] []
  deflateInit2_totalOut (s : Z) (level windowBits memLevel : Int) :
    z.totalOut (z.deflateInit2 s level windowBits memLevel).1 = 0
  deflateSetHeader_streamed {s : Z} {consumed emitted : List UInt8}
    (h : streamed s consumed emitted) : streamed (z.deflateSetHeader s).1 consumed emitted
  deflateSetHeader_totalOut (s : Z) : z.totalOut (z.deflateSetHeader s).1 = z.totalOut s
  /-- `deflate` emits at most `avail_out` bytes, and counts them. -/
  deflate_room {s s' : Z} {consumed emitted source out : List UInt8} {availOut : UInt32}
    {flush : Flush} {err : Int} (h : streamed s consumed emitted)
    (hcall : z.deflate s source availOut flush = (s', out, err))
    (herr : err = zOk ∨ err = zStreamEnd) :
    out.length ≤ availOut.toNat ∧
      z.totalOut s' = z.totalOut s + UInt64.ofNat out.length
  /-- It takes in a prefix of its input, and stops with none left or with no room left. -/
  deflate_noFlush {s s' : Z} {consumed emitted source out : List UInt8} {availOut : UInt32}
    (h : streamed s consumed emitted)
    (hcall : z.deflate s source availOut .noFlush = (s', out, zOk)) :
    ∃ taken rest, source = taken ++ rest ∧ (rest = [] ∨ out.length = availOut.toNat) ∧
      streamed s' (consumed ++ taken) (emitted ++ out)
  /-- It returns `Z_STREAM_END` with the trailer put out and all input taken in. -/
  deflate_finish {s s' : Z} {consumed emitted source out : List UInt8} {availOut : UInt32}
    (h : streamed s consumed emitted)
    (hcall : z.deflate s source availOut .finish = (s', out, zStreamEnd)) :
    out ≠ [] ∧ gunzip (emitted ++ out) = some (consumed ++ source)
  deflateEnd_totalOut (s : Z) : z.totalOut (z.deflateEnd s).1 = z.totalOut s

namespace GzipHelper

variable {g : GzipHelper Z}

/-! ## One call -/

/-- What `compressUpdate` has made of the chunks of a cycle so far. Input is lost only once
the window for `deflate` is empty. -/
structure Holds (g : GzipHelper Z) (z : Zlib Z)
    (streamed : Z → List UInt8 → List UInt8 → Prop) (chunks : List UInt8) : Prop where
  size_le : g.size ≤ g.capacity
  size_eq : g.size = z.totalOut g.stream
  consumed : ∃ consumed, streamed g.stream consumed g.compressed ∧
    (consumed = chunks ∨ g.availOut.toNat = 0)

theorem Holds.compressUpdate (hz : z.Streams gunzip streamed) {chunks chunk : List UInt8}
    (h : g.Holds z streamed chunks) (hret : (g.compressUpdate z chunk).2 = 0) :
    (g.compressUpdate z chunk).1.Holds z streamed (chunks ++ chunk) := by
  obtain ⟨consumed, hstreamed, hall⟩ := h.consumed
  obtain ⟨stream, out, hcall, hafter⟩ := compressUpdate_eq_zero hret
  obtain ⟨hroom, htotal⟩ := hz.deflate_room hstreamed hcall (Or.inl rfl)
  obtain ⟨taken, rest, rfl, hstop, hstreamed'⟩ := hz.deflate_noFlush hstreamed hcall
  rw [← h.size_eq] at htotal
  rw [hafter, afterOutput_totalOut htotal]
  refine ⟨afterOutput_size_le h.size_le hroom, htotal.symm, consumed ++ taken, ?_, ?_⟩
  · rw [afterOutput_compressed h.size_le hroom]
    exact hstreamed'
  · rw [afterOutput_availOut h.size_le hroom]
    rcases hstop with rfl | hfull
    · rw [List.append_nil]
      exact hall.imp (fun heq => by rw [heq]) fun hempty => by omega
    · exact Or.inr (by omega)

theorem Holds.compressUpdates (hz : z.Streams gunzip streamed) {chunks : List UInt8}
    {more : List (List UInt8)} (h : g.Holds z streamed chunks)
    (hrets : ∀ ret ∈ (g.compressUpdates z more).2, ret = 0) :
    (g.compressUpdates z more).1.Holds z streamed (chunks ++ more.flatten) := by
  induction more generalizing g chunks with
  | nil => rwa [List.flatten_nil, List.append_nil]
  | cons chunk more ih =>
      obtain ⟨hret, hrets⟩ := List.forall_mem_cons.mp hrets
      rw [List.flatten_cons, ← List.append_assoc]
      exact ih (h.compressUpdate hz hret) hrets

/-- `compressFinish` returns 0 only on a complete stream of all the chunks. -/
theorem Holds.compressFinish (hz : z.Streams gunzip streamed) {chunks : List UInt8}
    (h : g.Holds z streamed chunks) (hret : (g.compressFinish z).2 = 0) :
    gunzip (g.compressFinish z).1.compressed = some chunks := by
  obtain ⟨consumed, hstreamed, hall⟩ := h.consumed
  obtain ⟨stream, out, hcall, hafter⟩ := compressFinish_eq_zero hret
  have hheader := hz.deflateSetHeader_streamed hstreamed
  obtain ⟨hroom, htotal⟩ := hz.deflate_room hheader hcall (Or.inr rfl)
  obtain ⟨htrailer, hgunzip⟩ := hz.deflate_finish hheader hcall
  rw [hz.deflateSetHeader_totalOut, ← h.size_eq, ← hz.deflateEnd_totalOut] at htotal
  rw [hafter, afterOutput_totalOut htotal, afterOutput_compressed h.size_le hroom, hgunzip,
    List.append_nil]
  rcases hall with rfl | hempty
  · rfl
  · -- no room for the trailer
    exact absurd (List.length_eq_zero_iff.mp (by omega)) htrailer

/-! ## Any number of cycles -/

theorem compressInit_holds (hz : z.Streams gunzip streamed) (reserve : UInt64 → UInt64)
    (g : GzipHelper Z) : (g.compressInit z reserve).1.Holds z streamed [] where
  size_le := UInt64.zero_le
  size_eq := (hz.deflateInit2_totalOut _ _ _ _).symm
  consumed := ⟨[], hz.deflateInit2_streamed _ _ _ _, Or.inl rfl⟩

theorem compressReset_holds (hz : z.Streams gunzip streamed) (g : GzipHelper Z) :
    (g.compressReset z).1.Holds z streamed [] where
  size_le := UInt64.zero_le
  size_eq := (hz.deflateInit2_totalOut _ _ _ _).symm
  consumed := ⟨[], hz.deflateInit2_streamed _ _ _ _, Or.inl rfl⟩

theorem Holds.compressCycles (hz : z.Streams gunzip streamed)
    (cycles : List (List (List UInt8))) (h : g.Holds z streamed []) :
    (g.compressCycles z cycles).Holds z streamed [] := by
  induction cycles generalizing g with
  | nil => exact h
  | cons chunks cycles ih => exact ih (compressReset_holds hz _)

/-- Whatever went before, a cycle whose calls all return 0 ends with a gzip stream of its own
chunks. -/
theorem compressCycle_gunzip (hz : z.Streams gunzip streamed) (reserve : UInt64 → UInt64)
    (compressSize : UInt64) (storage : ℕ → UInt8) (cycles : List (List (List UInt8)))
    (chunks : List (List UInt8)) :
    let g := (((gzipHelper z compressSize storage).compressInit z reserve).1.compressCycles z
      cycles).compressCycle z chunks
    (∀ ret ∈ g.2, ret = 0) → gunzip g.1.compressed = some chunks.flatten := by
  intro g hrets
  have hstart := (compressInit_holds hz reserve (gzipHelper z compressSize storage)).compressCycles
    hz cycles
  obtain ⟨hupdates, hfinish⟩ := List.forall_mem_append.mp hrets
  exact (hstart.compressUpdates hz hupdates).compressFinish hz
    (hfinish _ (List.mem_singleton_self _))

/-! ## Streams of one letter -/

inductive Stage
  | closed
  | fresh
  | busy
  | ended

structure LetterStream where
  stage : Stage
  totalOut : UInt64

def letterHeader : List UInt8 := [0x1f, 0x8b, 8, 0, 0, 0, 0, 0, 4, 3]

def letterTrailer : List UInt8 := [0x4b, 4, 0, 0x43, 0xbe, 0xb7, 0xe8, 1, 0, 0, 0]

def letterGunzip (bytes : List UInt8) : Option (List UInt8) :=
  if bytes = letterHeader ++ letterTrailer then some [0x61] else none

def zStreamError : Int := -2

def zDataError : Int := -3

/-- zlib for a stream of the letter `a`, which comes in one piece and finds room for what it
puts out. All other calls of `deflate` fail. -/
def letterZlib : Zlib LetterStream where
  cleared := ⟨.closed, 0⟩
  totalOut := LetterStream.totalOut
  deflateInit2 _ _ _ _ := (⟨.fresh, 0⟩, zOk)
  deflateReset s :=
    match s.stage with
    | .closed => (s, zStreamError)
    | _ => (⟨.fresh, 0⟩, zOk)
  deflateSetHeader s :=
    match s.stage with
    | .closed => (s, zStreamError)
    | _ => (s, zOk)
  deflate s source availOut flush :=
    match s.stage, source, flush with
    | .fresh, [0x61], .noFlush =>
        if 10 ≤ availOut then (⟨.busy, 10⟩, letterHeader, zOk) else (s, [], zBufError)
    | .busy, [], .finish =>
        if 11 ≤ availOut then (⟨.ended, s.totalOut + 11⟩, letterTrailer, zStreamEnd)
        else (s, [], zBufError)
    | _, _, _ => (s, [], zStreamError)
  deflateEnd s :=
    match s.stage with
    | .closed => (s, zStreamError)
    | .busy => (⟨.closed, s.totalOut⟩, zDataError)
    | _ => (⟨.closed, s.totalOut⟩, zOk)

inductive LetterStreamed : LetterStream → List UInt8 → List UInt8 → Prop
  | fresh : LetterStreamed ⟨.fresh, 0⟩ [] []
  | busy : LetterStreamed ⟨.busy, 10⟩ [0x61] letterHeader

theorem letterZlib_noFlush {s s' : LetterStream} {source out : List UInt8} {availOut : UInt32}
    {err : Int} (hcall : letterZlib.deflate s source availOut .noFlush = (s', out, err))
    (herr : err = zOk ∨ err = zStreamEnd) :
    s.stage = .fresh ∧ source = [0x61] ∧ 10 ≤ availOut ∧ s' = ⟨.busy, 10⟩ ∧
      out = letterHeader ∧ err = zOk := by
  simp only [letterZlib] at hcall
  split at hcall
  · split at hcall
    · cases hcall
      exact ⟨‹_›, rfl, ‹_›, rfl, rfl, rfl⟩
    · cases hcall
      exact absurd herr (by decide)
  · contradiction
  · cases hcall
    exact absurd herr (by decide)

theorem letterZlib_finish {s s' : LetterStream} {source out : List UInt8} {availOut : UInt32}
    {err : Int} (hcall : letterZlib.deflate s source availOut .finish = (s', out, err))
    (herr : err = zOk ∨ err = zStreamEnd) :
    s.stage = .busy ∧ source = [] ∧ 11 ≤ availOut ∧ s' = ⟨.ended, s.totalOut + 11⟩ ∧
      out = letterTrailer ∧ err = zStreamEnd := by
  simp only [letterZlib] at hcall
  split at hcall
  · contradiction
  · split at hcall
    · cases hcall
      exact ⟨‹_›, rfl, ‹_›, rfl, rfl, rfl⟩
    · cases hcall
      exact absurd herr (by decide)
  · cases hcall
    exact absurd herr (by decide)

theorem letterZlib_streams : letterZlib.Streams letterGunzip LetterStreamed where
  deflateInit2_streamed _ _ _ _ := .fresh
  deflateInit2_totalOut _ _ _ _ := rfl
  deflateSetHeader_streamed h := by
    cases h with
    | fresh => exact .fresh
    | busy => exact .busy
  deflateSetHeader_totalOut s := by
    obtain ⟨stage, totalOut⟩ := s
    cases stage <;> rfl
  deflate_room {_ _ _ _ _ _ _ flush _} h hcall herr := by
    cases flush with
    | noFlush =>
        obtain ⟨hstage, -, hroom, rfl, rfl, -⟩ := letterZlib_noFlush hcall herr
        cases h with
        | fresh => exact ⟨UInt32.le_iff_toNat_le.mp hroom, rfl⟩
        | busy => contradiction
    | finish =>
        obtain ⟨-, -, hroom, rfl, rfl, -⟩ := letterZlib_finish hcall herr
        exact ⟨UInt32.le_iff_toNat_le.mp hroom, rfl⟩
  deflate_noFlush h hcall := by
    obtain ⟨hstage, rfl, -, rfl, rfl, -⟩ := letterZlib_noFlush hcall (Or.inl rfl)
    cases h with
    | fresh => exact ⟨[0x61], [], rfl, Or.inl rfl, .busy⟩
    | busy => contradiction
  deflate_finish h hcall := by
    obtain ⟨hstage, rfl, -, rfl, rfl, -⟩ := letterZlib_finish hcall (Or.inr rfl)
    cases h with
    | fresh => contradiction
    | busy => exact ⟨by decide, by decide⟩
  deflateEnd_totalOut s := by
    obtain ⟨stage, totalOut⟩ := s
    cases stage <;> rfl

theorem compressCycle_gunzip_of_letter :
    let g := (((gzipHelper letterZlib 0 fun _ => 0).compressInit letterZlib id).1.compressCycles
      letterZlib [[[0x61]]]).compressCycle letterZlib [[0x61]]
    letterGunzip g.1.compressed = some [0x61] :=
  compressCycle_gunzip letterZlib_streams id 0 (fun _ => 0) [[[0x61]]] [[0x61]] (by decide)

end GzipHelper

end Restore.Gzip
