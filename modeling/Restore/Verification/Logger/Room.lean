import Restore.Verification.Logger.Equations
import Restore.Verification.Logger.Record

/-! # Room for the compressed stream

`isFull` keeps 8 MiB free in front of each line, so that the stream may still be finished
behind it. The window for `deflate` is the free space cut to 32 bits. -/

namespace Restore.Logger

open Pcap Gzip

variable {Z : Type*} {z : Zlib Z} {unfinished : Z → Prop}

/-- What zlib may put out for a log line, or to finish its stream, in one call. -/
def outputBound : ℕ := 2 ^ 22

/-- What is assumed of zlib on the streams that the logger hands to it. -/
structure EmitsFew (z : Zlib Z) (unfinished : Z → Prop) : Prop where
  deflateInit2_unfinished (s : Z) (level windowBits memLevel : Int) :
    unfinished (z.deflateInit2 s level windowBits memLevel).1
  deflateInit2_totalOut (s : Z) (level windowBits memLevel : Int) :
    z.totalOut (z.deflateInit2 s level windowBits memLevel).1 = 0
  deflateSetHeader_unfinished {s : Z} (h : unfinished s) :
    unfinished (z.deflateSetHeader s).1
  deflate_length_le {s s' : Z} {source out : List UInt8} {availOut : UInt32} {flush : Flush}
    {err : Int} (h : unfinished s) (hcall : z.deflate s source availOut flush = (s', out, err)) :
    out.length ≤ availOut.toNat
  /-- A call that fails puts nothing out. -/
  deflate_noFlush {s s' : Z} {source out : List UInt8} {availOut : UInt32} {err : Int}
    (h : unfinished s) (hcall : z.deflate s source availOut .noFlush = (s', out, err)) :
    unfinished s' ∧ z.totalOut s' = z.totalOut s + UInt64.ofNat out.length ∧
      (err ≠ zOk → out = [])
  line_length_le {s s' : Z} {packet : PcapPacket} {out : List UInt8} {availOut : UInt32}
    {err : Int} (h : unfinished s)
    (hcall : z.deflate s (bytesOf (csvLine packet)) availOut .noFlush = (s', out, err)) :
    out.length ≤ outputBound
  finish_length_le {s s' : Z} {out : List UInt8} {availOut : UInt32} {err : Int}
    (h : unfinished s) (hcall : z.deflate s [] availOut .finish = (s', out, err)) :
    out.length ≤ outputBound

/-- The call was offered 4 MiB or more, and did not run out of room. -/
def Roomy (call : DeflateCall) : Prop :=
  outputBound ≤ call.availOut.toNat ∧ call.emitted < call.availOut.toNat

/-! ## One call -/

/-- All calls so far were roomy, and there are `room` bytes left for the next ones. -/
structure Fits (z : Zlib Z) (unfinished : Z → Prop) (room : ℕ)
    (g : GzipHelper (Z × List DeflateCall)) : Prop where
  capacity_lt : g.capacity.toNat < 2 ^ 32
  threshold_le : 2 * outputBound + 2 ^ 4 ≤ g.capacity.toNat
  size_add_le : g.size.toNat + room ≤ g.capacity.toNat
  size_eq : g.size = z.totalOut g.stream.1
  unfinished : unfinished g.stream.1
  roomy : ∀ call ∈ g.stream.2, Roomy call

variable {room : ℕ} {g : GzipHelper (Z × List DeflateCall)}

theorem Fits.size_le (h : Fits z unfinished room g) : g.size ≤ g.capacity :=
  UInt64.le_iff_toNat_le.mpr ((Nat.le_add_right _ _).trans h.size_add_le)

theorem Fits.room_le (h : Fits z unfinished room g) : room ≤ g.availOut.toNat := by
  have hcapacity := h.capacity_lt
  have hroom := h.size_add_le
  rw [GzipHelper.availOut_toNat h.size_le]
  omega

theorem Fits.roomy_concat (h : Fits z unfinished room g) (hbound : outputBound < room) {n : ℕ}
    (hn : n ≤ outputBound) : ∀ call ∈ g.stream.2 ++ [⟨g.availOut, n⟩], Roomy call := by
  have hroom := h.room_le
  refine List.forall_mem_append.mpr ⟨h.roomy, List.forall_mem_singleton.mpr ⟨?_, ?_⟩⟩
  · exact (hbound.trans_le hroom).le
  · exact hn.trans_lt (hbound.trans_le hroom)

/-- A line leaves the helper with what `deflate` has put out, whatever it returns. -/
theorem compressUpdate_afterOutput (hz : EmitsFew z unfinished)
    (hunfinished : unfinished g.stream.1) (hsize : g.size = z.totalOut g.stream.1)
    {source out : List UInt8} {stream : Z} {err : Int}
    (hcall : z.deflate g.stream.1 source g.availOut .noFlush = (stream, out, err)) :
    (g.compressUpdate z.recorded source).1 =
      g.afterOutput (stream, g.stream.2 ++ [⟨g.availOut, out.length⟩]) out := by
  obtain ⟨-, htotal, herr⟩ := hz.deflate_noFlush hunfinished hcall
  rw [← hsize] at htotal
  rw [GzipHelper.compressUpdate_eq (recorded_deflate hcall)]
  split
  next => exact GzipHelper.afterOutput_totalOut htotal
  next hfailed =>
    apply GzipHelper.afterOutput_totalOut
    rw [herr hfailed]
    exact (UInt64.add_zero _).symm

/-- A line that finds room for two outputs leaves room for one. -/
theorem Fits.compressUpdate (hz : EmitsFew z unfinished)
    (h : Fits z unfinished (2 * outputBound + 2 ^ 4) g) (packet : PcapPacket) :
    Fits z unfinished (outputBound + 2 ^ 4)
      (g.compressUpdate z.recorded (bytesOf (csvLine packet))).1 := by
  rcases hcall : z.deflate g.stream.1 (bytesOf (csvLine packet)) g.availOut .noFlush
    with ⟨stream, out, err⟩
  have hlen := hz.line_length_le h.unfinished hcall
  have havail := hz.deflate_length_le h.unfinished hcall
  obtain ⟨hunfinished, htotal, -⟩ := hz.deflate_noFlush h.unfinished hcall
  have hroom := h.size_add_le
  rw [compressUpdate_afterOutput hz h.unfinished h.size_eq hcall]
  refine ⟨h.capacity_lt, h.threshold_le, ?_, ?_, hunfinished, h.roomy_concat (by decide) hlen⟩
  · rw [GzipHelper.afterOutput_size h.size_le havail]
    exact le_trans (by omega) hroom
  · rw [← h.size_eq] at htotal
    exact htotal.symm

/-- `outputFile` leaves the whole capacity for the next lines. -/
theorem Fits.outputFile (hz : EmitsFew z unfinished)
    (h : Fits z unfinished (outputBound + 2 ^ 4) g) :
    Fits z unfinished (2 * outputBound + 2 ^ 4)
      ((g.compressFinish z.recorded).1.compressReset z.recorded).1 := by
  have hheader := hz.deflateSetHeader_unfinished h.unfinished
  rcases hcall : z.deflate (z.deflateSetHeader g.stream.1).1 [] g.availOut .finish
    with ⟨stream, out, err⟩
  have hroomy := h.roomy_concat (by decide) (hz.finish_length_le hheader hcall)
  have hcapacity : ((g.compressFinish z.recorded).1.compressReset z.recorded).1.capacity =
      g.capacity := GzipHelper.compressFinish_capacity
  refine ⟨?_, ?_, ?_, (hz.deflateInit2_totalOut ..).symm, hz.deflateInit2_unfinished .., ?_⟩
  · rw [hcapacity]
    exact h.capacity_lt
  · rw [hcapacity]
    exact h.threshold_le
  · rw [hcapacity]
    exact (Nat.zero_add _).trans_le h.threshold_le
  · change ∀ call ∈ (g.compressFinish z.recorded).1.stream.2, Roomy call
    rw [GzipHelper.compressFinish_calls hcall]
    split
    · exact h.roomy
    · exact hroomy

/-- `isFull` holds the lines back that would not find room for two outputs. -/
theorem Fits.of_not_full (h : Fits z unfinished room g) (hfull : g.isFull = false) :
    Fits z unfinished (2 * outputBound + 2 ^ 4) g := by
  have hcapacity := h.capacity_lt
  have hsize := h.size_add_le
  have hnot := mt (GzipHelper.isFull_iff (by omega)).mpr (Bool.eq_false_iff.mp hfull)
  refine ⟨h.capacity_lt, h.threshold_le, ?_, h.size_eq, h.unfinished, h.roomy⟩
  rw [outputBound]
  omega

theorem Fits.mono (h : Fits z unfinished room g) {room' : ℕ} (hle : room' ≤ room) :
    Fits z unfinished room' g :=
  ⟨h.capacity_lt, h.threshold_le, (Nat.add_le_add_left hle _).trans h.size_add_le, h.size_eq,
    h.unfinished, h.roomy⟩

/-! ## Whole runs -/

namespace BasicBusinessLogger

section

variable {Z : Type*} {env : Env Z} {l : BasicBusinessLogger Z}

theorem makeCsvLog_gipHelper (hgzip : l.compressType = kCompressGzip) (packet : PcapPacket) :
    (l.makeCsvLog env packet).gipHelper =
      (l.gipHelper.compressUpdate env.zlib (bytesOf (csvLine packet))).1 := by
  rw [makeCsvLog, if_pos hgzip]

theorem outputFile_gipHelper (hgzip : l.compressType = kCompressGzip) :
    (l.outputFile env).gipHelper =
      ((l.gipHelper.compressFinish env.zlib).1.compressReset env.zlib).1 := by
  rw [outputFile, if_pos hgzip]

theorem step_mode {fresh : ℕ → PcapPacket} {l' : BasicBusinessLogger Z} {q : List PcapPacket}
    (h : l.Holds q) {e : Event} (hstep : l.step env fresh e = .ok l') :
    l'.compressType = l.compressType ∧ l'.rotateSize = l.rotateSize := by
  rcases step_cases h hstep with ⟨packet, mem, rfl, rfl⟩ | ⟨clock, mem, rfl, rfl⟩
  · exact ⟨rfl, rfl⟩
  · exact ⟨(drain_keeps env _ _ _ _).compressType, (drain_keeps env _ _ _ _).rotateSize⟩

theorem full_gzip (hgzip : l.compressType = kCompressGzip) : l.full = l.gipHelper.isFull :=
  if_pos hgzip

end

/-- The capacity that `init` asks `reserve` for. -/
def capacityOf (rotateSize : UInt32) : ℕ :=
  (rotateSize + (16 : UInt32) <<< 10).toNat + 2 ^ 4 + 2 ^ 23

variable {env : Env Z} {l : BasicBusinessLogger (Z × List DeflateCall)}

/-- The helper of a logger in gzip mode has `room` bytes left. -/
structure HasRoom (z : Zlib Z) (unfinished : Z → Prop) (room : ℕ)
    (l : BasicBusinessLogger (Z × List DeflateCall)) : Prop where
  gzip : l.compressType = kCompressGzip
  fits : Fits z unfinished room l.gipHelper

theorem HasRoom.mono (h : l.HasRoom env.zlib unfinished room) {room' : ℕ} (hle : room' ≤ room) :
    l.HasRoom env.zlib unfinished room' :=
  ⟨h.gzip, h.fits.mono hle⟩

theorem HasRoom.makeCsvLog (hz : EmitsFew env.zlib unfinished)
    (h : l.HasRoom env.zlib unfinished (2 * outputBound + 2 ^ 4)) (packet : PcapPacket) :
    (l.makeCsvLog env.recorded packet).HasRoom env.zlib unfinished (outputBound + 2 ^ 4) where
  gzip := (makeCsvLog_keeps _ l packet).compressType.trans h.gzip
  fits := by
    rw [makeCsvLog_gipHelper h.gzip]
    exact h.fits.compressUpdate hz packet

theorem HasRoom.outputFile (hz : EmitsFew env.zlib unfinished)
    (h : l.HasRoom env.zlib unfinished (outputBound + 2 ^ 4)) :
    (l.outputFile env.recorded).HasRoom env.zlib unfinished (2 * outputBound + 2 ^ 4) where
  gzip := (outputFile_keeps _ l).compressType.trans h.gzip
  fits := by
    rw [outputFile_gipHelper h.gzip]
    exact h.fits.outputFile hz

theorem HasRoom.drainOne (hz : EmitsFew env.zlib unfinished)
    (h : l.HasRoom env.zlib unfinished (outputBound + 2 ^ 4)) (packet : PcapPacket) :
    (l.drainOne env.recorded packet).HasRoom env.zlib unfinished (outputBound + 2 ^ 4) := by
  rw [BasicBusinessLogger.drainOne]
  cases hfull : l.full with
  | true =>
      have hreset := h.outputFile hz
      rw [if_pos rfl]
      refine HasRoom.makeCsvLog hz ?_ packet
      exact ⟨hreset.gzip, hreset.fits⟩
  | false =>
      rw [full_gzip h.gzip] at hfull
      exact HasRoom.makeCsvLog hz ⟨h.gzip, h.fits.of_not_full hfull⟩ packet

theorem HasRoom.drain (hz : EmitsFew env.zlib unfinished)
    (h : l.HasRoom env.zlib unfinished (outputBound + 2 ^ 4)) (now : ℕ) (isTimeOut : Bool)
    (packets : List PcapPacket) :
    (l.drain env.recorded now isTimeOut packets).HasRoom env.zlib unfinished
      (outputBound + 2 ^ 4) :=
  drain_of_rounds (fun _ packet h => h.drainOne hz packet)
    (fun _ h => (h.outputFile hz).mono (by decide)) ⟨h.gzip, h.fits⟩ isTimeOut packets

/-- The helper that `init` sets up in gzip mode. -/
def initHelper (env : Env Z) (rotateSize : UInt32) (storage : ℕ → UInt8) : GzipHelper Z :=
  ((gzipHelper env.zlib (rotateSize + (16 : UInt32) <<< 10).toUInt64 storage).compressInit
    env.zlib env.reserve).1

theorem initHelper_capacity (hreserve : ∀ n, env.reserve n = n) (rotateSize : UInt32)
    (storage : ℕ → UInt8) :
    (initHelper env rotateSize storage).capacity.toNat = capacityOf rotateSize := by
  have hcapacity : (initHelper env rotateSize storage).capacity =
      (rotateSize + (16 : UInt32) <<< 10).toUInt64 + kWindowBitsToGetGzipHeader +
        kSafeThreshold := hreserve _
  have hheader : kWindowBitsToGetGzipHeader.toNat = 2 ^ 4 := rfl
  have hthreshold : kSafeThreshold.toNat = 2 ^ 23 := rfl
  have hsize := (rotateSize + (16 : UInt32) <<< 10).toNat_lt
  rw [hcapacity, UInt64.toNat_add, UInt64.toNat_add, hheader, hthreshold, UInt32.toNat_toUInt64,
    capacityOf]
  omega

theorem initHelper_fits (hz : EmitsFew env.zlib unfinished) (hreserve : ∀ n, env.reserve n = n)
    {rotateSize : UInt32} (hcapacity : capacityOf rotateSize < 2 ^ 32) (storage : ℕ → UInt8) :
    Fits env.zlib unfinished (2 * outputBound + 2 ^ 4)
      (initHelper env.recorded rotateSize storage) := by
  have heq : (initHelper env.recorded rotateSize storage).capacity.toNat = _ :=
    initHelper_capacity hreserve rotateSize storage
  have hthreshold : 2 * outputBound + 2 ^ 4 ≤ capacityOf rotateSize := by
    rw [outputBound, capacityOf]
    omega
  exact ⟨heq.trans_lt hcapacity, hthreshold.trans_eq heq.symm,
    ((Nat.zero_add _).trans_le hthreshold).trans_eq heq.symm,
    (hz.deflateInit2_totalOut ..).symm, hz.deflateInit2_unfinished ..,
    fun call hmem => absurd hmem List.not_mem_nil⟩

theorem HasRoom.step {fresh : ℕ → PcapPacket} {l' : BasicBusinessLogger (Z × List DeflateCall)}
    {q : List PcapPacket} (hz : EmitsFew env.zlib unfinished)
    (h : l.HasRoom env.zlib unfinished (outputBound + 2 ^ 4)) (hq : l.Holds q) {e : Event}
    (hstep : l.step env.recorded fresh e = .ok l') :
    l'.HasRoom env.zlib unfinished (outputBound + 2 ^ 4) := by
  rcases step_cases hq hstep with ⟨packet, mem, rfl, rfl⟩ | ⟨clock, mem, rfl, rfl⟩
  · exact ⟨h.gzip, h.fits⟩
  · refine HasRoom.drain hz ?_ _ _ _
    exact ⟨h.gzip, h.fits⟩

/-- What the calls make of a logger whose capacity fits in 32 bits. -/
theorem Reachable.hasRoom {fresh : ℕ → PcapPacket} (hz : EmitsFew env.zlib unfinished)
    (hreserve : ∀ n, env.reserve n = n) (h : Reachable env.recorded fresh l)
    (hgzip : l.compressType = kCompressGzip) (hcapacity : capacityOf l.rotateSize < 2 ^ 32) :
    l.HasRoom env.zlib unfinished (outputBound + 2 ^ 4) := by
  induction h with
  | init h =>
      rw [BasicBusinessLogger.init, Option.map_eq_some_iff] at h
      obtain ⟨data, -, rfl⟩ := h
      refine ⟨hgzip, ?_⟩
      dsimp only at hgzip ⊢
      rw [if_pos hgzip]
      exact (initHelper_fits hz hreserve hcapacity _).mono (by decide)
  | step hl e hstep ih =>
      obtain ⟨htype, hsize⟩ := step_mode hl.holds hstep
      rw [htype] at hgzip
      rw [hsize] at hcapacity
      exact (ih hgzip hcapacity).step hz hl.holds hstep

/-- Whatever zlib does within its bound, every call of `deflate` is roomy, from `init` to
the end of the destructor. -/
def RoomForEveryCall (rotateSize : UInt32) : Prop :=
  ∀ (Z : Type) (env : Env Z) (unfinished : Z → Prop) (fresh : ℕ → PcapPacket)
    (l : BasicBusinessLogger (Z × List DeflateCall)),
    EmitsFew env.zlib unfinished → (∀ n, env.reserve n = n) → Reachable env.recorded fresh l →
    l.compressType = kCompressGzip → l.rotateSize = rotateSize →
    (∀ call ∈ l.gipHelper.stream.2, Roomy call) ∧
      ∀ clock l', l.destroy env.recorded fresh clock = .ok l' →
        ∀ call ∈ l'.gipHelper.stream.2, Roomy call

theorem roomForEveryCall_of_capacity {rotateSize : UInt32}
    (hcapacity : capacityOf rotateSize < 2 ^ 32) : RoomForEveryCall rotateSize := by
  rintro Z env unfinished fresh l hz hreserve hl hgzip rfl
  have hroom := hl.hasRoom hz hreserve hgzip hcapacity
  refine ⟨hroom.fits.roomy, fun clock l' hcall => ?_⟩
  have hend : HasRoom env.zlib unfinished (outputBound + 2 ^ 4)
      { l with uptimeBak := 0 } := ⟨hroom.gzip, hroom.fits⟩
  exact (hend.step hz (hl.holds.of_data rfl) (e := .checkRotate clock) hcall).fits.roomy

/-! ## Capacities of more than 32 bits -/

/-- zlib that puts out as much as it may. -/
def greedyZlib : Zlib UInt64 where
  cleared := 0
  totalOut s := s
  deflateInit2 _ _ _ _ := (0, zOk)
  deflateReset _ := (0, zOk)
  deflateSetHeader s := (s, zOk)
  deflate s _ availOut flush :=
    let out := List.replicate (min availOut.toNat outputBound) 0
    (s + UInt64.ofNat out.length, out,
      match flush with
      | .noFlush => zOk
      | .finish => zStreamEnd)
  deflateEnd s := (s, zOk)

theorem greedyZlib_emitsFew : EmitsFew greedyZlib fun _ => True where
  deflateInit2_unfinished _ _ _ _ := trivial
  deflateInit2_totalOut _ _ _ _ := rfl
  deflateSetHeader_unfinished _ := trivial
  deflate_length_le _ hcall := by
    cases hcall
    rw [List.length_replicate]
    exact Nat.min_le_left _ _
  deflate_noFlush _ hcall := by
    cases hcall
    exact ⟨trivial, rfl, fun h => absurd rfl h⟩
  line_length_le _ hcall := by
    cases hcall
    rw [List.length_replicate]
    exact Nat.min_le_right _ _
  finish_length_le _ hcall := by
    cases hcall
    rw [List.length_replicate]
    exact Nat.min_le_right _ _

/-- The window has `left` bytes, of fewer than the threshold of `isFull`, and the storage
more than 32 bits can tell. -/
structure Narrow (left : ℕ) (g : GzipHelper (UInt64 × List DeflateCall)) : Prop where
  le_capacity : 2 ^ 32 ≤ g.capacity.toNat
  size_eq : g.size = g.stream.1
  availOut_eq : g.availOut.toNat = left
  size_add_lt : g.size.toNat + left < 2 * outputBound + 2 ^ 4

section

variable {left : ℕ} {g : GzipHelper (UInt64 × List DeflateCall)}

theorem Narrow.isFull (h : Narrow left g) : g.isFull = false := by
  have hcapacity := h.le_capacity
  have hsize := h.size_add_lt
  rw [outputBound] at hsize
  rw [Bool.eq_false_iff, ne_eq, GzipHelper.isFull_iff (by omega)]
  omega

theorem Narrow.compressUpdate (h : Narrow left g) (source : List UInt8) :
    Narrow (left - outputBound) (g.compressUpdate greedyZlib.recorded source).1 := by
  have hcapacity := h.le_capacity
  have hsize := h.size_add_lt
  have havail := h.availOut_eq
  have hle : g.size ≤ g.capacity := UInt64.le_iff_toNat_le.mpr (by
    rw [outputBound] at hsize
    omega)
  have hlen : (List.replicate (min g.availOut.toNat outputBound) (0 : UInt8)).length =
      min left outputBound := by rw [List.length_replicate, havail]
  have hout : (List.replicate (min g.availOut.toNat outputBound) (0 : UInt8)).length ≤
      g.availOut.toNat := by
    rw [hlen, havail]
    exact Nat.min_le_left _ _
  rw [compressUpdate_afterOutput greedyZlib_emitsFew trivial h.size_eq rfl]
  refine ⟨hcapacity, ?_, ?_, ?_⟩
  · exact congrArg (· + _) h.size_eq
  · rw [GzipHelper.afterOutput_availOut hle hout, hlen, havail]
    omega
  · rw [GzipHelper.afterOutput_size hle hout, hlen]
    omega

end

/-- `strftime` and `fopen` do not matter. -/
def greedyEnv : Env UInt64 := ⟨greedyZlib, id, fun _ => [], fun _ => true⟩

/-- No line of the running check has found the buffer full. -/
structure Narrows (left : ℕ) (l : BasicBusinessLogger (UInt64 × List DeflateCall)) : Prop where
  gzip : l.compressType = kCompressGzip
  serialCnt : l.serialCnt = 0
  narrow : Narrow left l.gipHelper

section

variable {left : ℕ} {l : BasicBusinessLogger (UInt64 × List DeflateCall)}

theorem Narrows.drainOne (h : l.Narrows left) (packet : PcapPacket) :
    (l.drainOne greedyEnv.recorded packet).Narrows (left - outputBound) := by
  have hfull : l.full = false := (full_gzip h.gzip).trans h.narrow.isFull
  rw [BasicBusinessLogger.drainOne, hfull]
  refine ⟨(makeCsvLog_keeps _ l packet).compressType.trans h.gzip,
    (makeCsvLog_serialCnt _ l packet).trans h.serialCnt, ?_⟩
  have hupdate : (l.makeCsvLog greedyEnv.recorded packet).gipHelper = _ :=
    makeCsvLog_gipHelper h.gzip packet
  rw [if_neg Bool.false_ne_true, hupdate]
  exact h.narrow.compressUpdate _

/-- Each line takes what it may from the window. -/
theorem Narrows.foldl_drainOne (h : l.Narrows left) (packets : List PcapPacket) :
    (packets.foldl (BasicBusinessLogger.drainOne greedyEnv.recorded) l).Narrows
      (left - packets.length * outputBound) := by
  induction packets generalizing l left with
  | nil => exact (Nat.zero_mul outputBound).symm ▸ h
  | cons packet packets ih =>
      have hrest := ih (h.drainOne packet)
      rwa [Nat.sub_sub, Nat.add_comm, ← Nat.succ_mul] at hrest

/-- A time-out finishes the stream in the window that its lines have left. -/
theorem Narrows.drain (h : l.Narrows left) (now : ℕ) (packets : List PcapPacket) :
    ∃ call ∈ (l.drain greedyEnv.recorded now true packets).gipHelper.stream.2,
      call.availOut.toNat = left - packets.length * outputBound := by
  have hrounds := Narrows.foldl_drainOne (l := getFileGenTime greedyEnv.recorded
    { l with serialCnt := 0 } now) ⟨h.gzip, rfl, h.narrow⟩ packets
  unfold BasicBusinessLogger.drain
  dsimp only
  rw [hrounds.serialCnt, if_pos (show (true && (0 : UInt32) == 0) = true from rfl),
    outputFile_gipHelper hrounds.gzip]
  change ∃ call ∈ (GzipHelper.compressFinish greedyZlib.recorded _).1.stream.2, _
  rw [GzipHelper.compressFinish_calls rfl, if_neg fun hne => hne rfl]
  exact ⟨_, List.mem_append_right _ (List.mem_singleton_self _), hrounds.narrow.availOut_eq⟩

end

/-- A logger in gzip mode at the start of a run. -/
def greedyLogger (rotateSize : UInt32) : BasicBusinessLogger (UInt64 × List DeflateCall) where
  data := (loggerRing, ⟨{}, {}, noPackets⟩)
  rotateSize
  rotateCycle := 1
  compressType := kCompressGzip
  filePath := []
  startTime := 0
  roateCnt := 0
  fileGenTime := []
  buf := []
  gipHelper := initHelper greedyEnv.recorded rotateSize fun _ => 0
  uptimeBak := 10
  serialCnt := 0
  books := ⟨[], [], [], []⟩

theorem init_greedyLogger (rotateSize : UInt32) :
    init greedyEnv.recorded 0 [] rotateSize 1 kCompressGzip 0 0 noPackets (fun _ => 0)
      (gzipHelper greedyEnv.recorded.zlib 0 fun _ => 0) = some (greedyLogger rotateSize) := by
  rw [init, buffRing_logger]
  rfl

theorem greedyLogger_narrows {rotateSize : UInt32} (hcapacity : 2 ^ 32 ≤ capacityOf rotateSize) :
    (greedyLogger rotateSize).Narrows (capacityOf rotateSize - 2 ^ 32) := by
  have heq : (initHelper greedyEnv.recorded rotateSize fun _ => 0).capacity.toNat = _ :=
    initHelper_capacity (fun _ => rfl) rotateSize fun _ => 0
  have hzero : (initHelper greedyEnv.recorded rotateSize fun _ => 0).size.toNat = 0 := rfl
  have hlt := (rotateSize + (16 : UInt32) <<< 10).toNat_lt
  have hle : capacityOf rotateSize < 2 ^ 32 + (2 * outputBound + 2 ^ 4) := by
    rw [capacityOf, outputBound]
    omega
  refine ⟨rfl, rfl, hcapacity.trans_eq heq.symm, rfl, ?_, ?_⟩
  · rw [GzipHelper.availOut_toNat UInt64.zero_le]
    dsimp only [greedyLogger]
    rw [hzero, heq]
    rw [outputBound] at hle
    omega
  · dsimp only [greedyLogger]
    rw [hzero]
    omega

/-- A logger with the packets `q` and a time-out ahead. -/
structure Waiting (rotateSize : UInt32) (q : List PcapPacket)
    (l : BasicBusinessLogger (UInt64 × List DeflateCall)) : Prop where
  reachable : Reachable greedyEnv.recorded noPackets l
  holds : l.Holds q
  narrows : l.Narrows (capacityOf rotateSize - 2 ^ 32)
  rotateSize_eq : l.rotateSize = rotateSize
  timeOut : l.timeOut 1 = true

section

variable {rotateSize : UInt32} {q : List PcapPacket}
  {l : BasicBusinessLogger (UInt64 × List DeflateCall)}

theorem greedyLogger_waiting (hcapacity : 2 ^ 32 ≤ capacityOf rotateSize) :
    (greedyLogger rotateSize).Waiting rotateSize [] where
  reachable := .init (init_greedyLogger rotateSize)
  holds := init_holds (init_greedyLogger rotateSize)
  narrows := greedyLogger_narrows hcapacity
  rotateSize_eq := rfl
  timeOut := show decide (UInt32.ofNat 1 - 0 > 0 * 1) = true by decide

theorem Waiting.pushBack (h : l.Waiting rotateSize q) (hlen : q.length < 2 ^ 27 - 1)
    (packet : PcapPacket) : ∃ l', Waiting rotateSize (q ++ [packet]) l' := by
  obtain ⟨mem, hcall, hholds⟩ := pushBack_spec h.holds packet
  rw [if_pos hlen] at hholds
  have hstep : l.step greedyEnv.recorded noPackets (.pushBack packet) =
      .ok { l with data := (l.data.1, mem) } := by
    rw [step, hcall]
    rfl
  exact ⟨_, h.reachable.step _ hstep, hholds,
    ⟨h.narrows.gzip, h.narrows.serialCnt, h.narrows.narrow⟩, h.rotateSize_eq, h.timeOut⟩

/-- The check formats all packets and finishes the stream in the window that is left. -/
theorem Waiting.checkRotate (h : l.Waiting rotateSize q) (hlen : q.length ≤ 2 ^ 26) :
    ∃ l', Reachable greedyEnv.recorded noPackets l' ∧ l'.compressType = kCompressGzip ∧
      l'.rotateSize = rotateSize ∧ ∃ call ∈ l'.gipHelper.stream.2,
        call.availOut.toNat = capacityOf rotateSize - 2 ^ 32 - q.length * outputBound := by
  obtain ⟨mem, hcall, -⟩ :=
    checkRotateCounted_spec greedyEnv.recorded h.holds noPackets ⟨1, 1, 0⟩
  have htakes : q.take (l.takes ⟨1, 1, 0⟩ q) = q := by
    rw [takes, h.timeOut, Bool.true_or, if_pos rfl, Nat.min_eq_right hlen, List.take_length]
  have hreach := h.reachable.step (.checkRotate ⟨1, 1, 0⟩) hcall
  obtain ⟨htype, hsize⟩ := step_mode h.holds (e := .checkRotate ⟨1, 1, 0⟩) hcall
  rw [htakes, h.timeOut] at hreach htype hsize
  refine ⟨_, hreach, htype.trans h.narrows.gzip, hsize.trans h.rotateSize_eq, ?_⟩
  refine Narrows.drain ?_ _ q
  exact ⟨h.narrows.gzip, h.narrows.serialCnt, h.narrows.narrow⟩

end

/-- Two lines and the time-out behind them use the window up. -/
theorem not_roomForEveryCall {rotateSize : UInt32} (hcapacity : 2 ^ 32 ≤ capacityOf rotateSize) :
    ¬RoomForEveryCall rotateSize := by
  intro hroom
  obtain ⟨l₁, h₁⟩ := (greedyLogger_waiting hcapacity).pushBack (by decide) (noPackets 0)
  obtain ⟨l₂, h₂⟩ := h₁.pushBack (by decide) (noPackets 1)
  obtain ⟨l₃, hreach, hgzip, hsize, call, hmem, havail⟩ := h₂.checkRotate (by decide)
  have hcalls := hroom _ greedyEnv _ noPackets l₃ greedyZlib_emitsFew (fun _ => rfl) hreach
    hgzip hsize
  obtain ⟨hoffered, -⟩ := hcalls.1 call hmem
  have hlt := (rotateSize + (16 : UInt32) <<< 10).toNat_lt
  have hlen : ([] ++ [noPackets 0] ++ [noPackets 1]).length = 2 := rfl
  rw [havail, hlen, capacityOf, outputBound] at hoffered
  omega

/-- Every call of `deflate` finds room exactly if the capacity fits in the 32 bits of
`avail_out`. -/
theorem roomForEveryCall_iff (rotateSize : UInt32) :
    RoomForEveryCall rotateSize ↔ capacityOf rotateSize < 2 ^ 32 := by
  constructor
  · intro hroom
    exact Nat.lt_of_not_le fun hle => not_roomForEveryCall hle hroom
  · exact roomForEveryCall_of_capacity

/-- With a capacity of 4 GiB even an empty stream is offered no room. -/
theorem no_room_of_four_gib :
    ∃ l, Reachable greedyEnv.recorded noPackets l ∧ l.compressType = kCompressGzip ∧
      l.rotateSize = 0xFF7FBFF0 ∧ ∃ call ∈ l.gipHelper.stream.2, call.availOut.toNat = 0 := by
  have hcapacity : 2 ^ 32 ≤ capacityOf 0xFF7FBFF0 := by decide
  obtain ⟨l, hl⟩ := (greedyLogger_waiting hcapacity).pushBack (by decide) (noPackets 0)
  obtain ⟨l', hreach, hgzip, hsize, call, hmem, havail⟩ := hl.checkRotate (by decide)
  exact ⟨l', hreach, hgzip, hsize, call, hmem, havail⟩

end BasicBusinessLogger

end Restore.Logger
