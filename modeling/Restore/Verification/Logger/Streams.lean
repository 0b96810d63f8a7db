import Restore.Verification.Gzip.Cycles
import Restore.Verification.Logger.Conservation
import Restore.Verification.Logger.Room
import Restore.Verification.Logger.Sizes

/-! # The text in the gzip streams

`makeCsvLog` and `outputFile` look at no return value of the `GzipHelper`. Where `isFull` leaves
room, zlib has no reason to fail, and the streams hold the lines as the text does. -/

namespace Restore.Logger

open BuffRing Pcap Gzip

variable {Z : Type*} {z : Zlib Z} {gunzip : List UInt8 → Option (List UInt8)}
  {streamed : Z → List UInt8 → List UInt8 → Prop}

/-- zlib that does not fail on a log line, or to finish its stream, where it has room for more
than it may put out. -/
structure Reliable (z : Zlib Z) (gunzip : List UInt8 → Option (List UInt8))
    (streamed : Z → List UInt8 → List UInt8 → Prop) : Prop where
  streams : z.Streams gunzip streamed
  line {s : Z} {consumed emitted : List UInt8} {availOut : UInt32}
    (h : streamed s consumed emitted) (hroom : outputBound < availOut.toNat)
    (packet : PcapPacket) :
    ∃ s' out, z.deflate s (bytesOf (csvLine packet)) availOut .noFlush = (s', out, zOk) ∧
      out.length ≤ outputBound
  deflateSetHeader {s : Z} {consumed emitted : List UInt8} (h : streamed s consumed emitted) :
    (z.deflateSetHeader s).2 = zOk
  finish {s : Z} {consumed emitted : List UInt8} {availOut : UInt32}
    (h : streamed s consumed emitted) (hroom : outputBound < availOut.toNat) :
    ∃ s' out, z.deflate s [] availOut .finish = (s', out, zStreamEnd) ∧
      (z.deflateEnd s').2 = zOk

/-! ## One call -/

/-- The stream holds `text`, and there are `room` bytes left. -/
structure Carries (z : Zlib Z) (streamed : Z → List UInt8 → List UInt8 → Prop) (room : ℕ)
    (text : List UInt8) (g : GzipHelper Z) : Prop where
  capacity_lt : g.capacity.toNat < 2 ^ 32
  threshold_le : 2 * outputBound + 2 ^ 4 ≤ g.capacity.toNat
  size_add_le : g.size.toNat + room ≤ g.capacity.toNat
  holds : g.Holds z streamed text

variable {room : ℕ} {text : List UInt8} {g : GzipHelper Z}

theorem Carries.room_le (h : Carries z streamed room text g) : room ≤ g.availOut.toNat := by
  have hcapacity := h.capacity_lt
  have hroom := h.size_add_le
  rw [GzipHelper.availOut_toNat h.holds.size_le]
  omega

theorem Carries.mono (h : Carries z streamed room text g) {room' : ℕ} (hle : room' ≤ room) :
    Carries z streamed room' text g :=
  ⟨h.capacity_lt, h.threshold_le, (Nat.add_le_add_left hle _).trans h.size_add_le, h.holds⟩

/-- `isFull` holds the lines back that would not find room for two outputs. -/
theorem Carries.of_not_full (h : Carries z streamed room text g) (hfull : g.isFull = false) :
    Carries z streamed (2 * outputBound + 2 ^ 4) text g := by
  have hcapacity := h.capacity_lt
  have hsize := h.size_add_le
  have hnot := mt (GzipHelper.isFull_iff (by omega)).mpr (Bool.eq_false_iff.mp hfull)
  refine ⟨h.capacity_lt, h.threshold_le, ?_, h.holds⟩
  rw [outputBound]
  omega

/-- A line that finds room for two outputs leaves room for one. -/
theorem Carries.compressUpdate (hz : Reliable z gunzip streamed)
    (h : Carries z streamed (2 * outputBound + 2 ^ 4) text g) (packet : PcapPacket) :
    Carries z streamed (outputBound + 2 ^ 4) (text ++ bytesOf (csvLine packet))
      (g.compressUpdate z (bytesOf (csvLine packet))).1 := by
  obtain ⟨consumed, hstreamed, -⟩ := h.holds.consumed
  have hroom := h.room_le
  obtain ⟨stream, out, hcall, hlen⟩ := hz.line hstreamed (by omega : _ < g.availOut.toNat) packet
  have hret : (g.compressUpdate z (bytesOf (csvLine packet))).2 = 0 := by
    rw [GzipHelper.compressUpdate_eq hcall]
    rfl
  have hholds := h.holds.compressUpdate hz.streams hret
  obtain ⟨havail, htotal⟩ := hz.streams.deflate_room hstreamed hcall (Or.inl rfl)
  rw [← h.holds.size_eq] at htotal
  have hafter : (g.compressUpdate z (bytesOf (csvLine packet))).1 = g.afterOutput stream out := by
    rw [GzipHelper.compressUpdate_eq hcall]
    exact GzipHelper.afterOutput_totalOut htotal
  rw [hafter] at hholds ⊢
  refine ⟨h.capacity_lt, h.threshold_le, ?_, hholds⟩
  have hsize := h.size_add_le
  rw [GzipHelper.afterOutput_size h.holds.size_le havail]
  exact le_trans (by omega) hsize

/-- Finished, the stream decodes to its text. -/
theorem Carries.compressFinish (hz : Reliable z gunzip streamed)
    (h : Carries z streamed (outputBound + 2 ^ 4) text g) :
    gunzip (g.compressFinish z).1.compressed = some text := by
  obtain ⟨consumed, hstreamed, -⟩ := h.holds.consumed
  have hroom := h.room_le
  obtain ⟨stream, out, hcall, hend⟩ :=
    hz.finish (hz.streams.deflateSetHeader_streamed hstreamed) (by omega : _ < g.availOut.toNat)
  refine h.holds.compressFinish hz.streams ?_
  rw [GzipHelper.compressFinish_eq hcall, if_neg (not_not.mpr (hz.deflateSetHeader hstreamed)),
    if_neg (not_not.mpr rfl), if_neg (not_not.mpr hend)]

theorem Carries.compressReset (hz : Reliable z gunzip streamed)
    (h : Carries z streamed room text g) :
    Carries z streamed (2 * outputBound + 2 ^ 4) []
      ((g.compressFinish z).1.compressReset z).1 := by
  have hcapacity : ((g.compressFinish z).1.compressReset z).1.capacity = g.capacity :=
    GzipHelper.compressFinish_capacity
  refine ⟨?_, ?_, ?_, GzipHelper.compressReset_holds hz.streams _⟩
  · rw [hcapacity]
    exact h.capacity_lt
  · rw [hcapacity]
    exact h.threshold_le
  · rw [hcapacity]
    exact (Nat.zero_add _).trans_le h.threshold_le

/-! ## Whole runs -/

/-- What the file of a call of `outputFile` decodes to, in gzip mode. -/
def Output.unzipped (gunzip : List UInt8 → Option (List UInt8)) (o : Output) :
    Option (List UInt8) :=
  match o.payload with
  | .text _ => none
  | .gzip bytes => gunzip bytes

namespace BasicBusinessLogger

/-- The bytes of the lines of the packets. -/
def csvBytes (packets : List PcapPacket) : List UInt8 := bytesOf (packets.flatMap csvLine)

theorem csvBytes_append (packets packets' : List PcapPacket) :
    csvBytes (packets ++ packets') = csvBytes packets ++ csvBytes packets' := by
  simp [csvBytes, bytesOf]

theorem csvBytes_concat (packets : List PcapPacket) (packet : PcapPacket) :
    csvBytes (packets ++ [packet]) = csvBytes packets ++ bytesOf (csvLine packet) := by
  rw [csvBytes_append]
  simp [csvBytes]

variable {env : Env Z} {fresh : ℕ → PcapPacket} {l l' : BasicBusinessLogger Z}

/-- The files decode to the lines of the formatted packets, up to the pending ones, which the
stream holds. -/
structure Zips (env : Env Z) (gunzip : List UInt8 → Option (List UInt8))
    (streamed : Z → List UInt8 → List UInt8 → Prop) (room : ℕ) (l : BasicBusinessLogger Z) :
    Prop where
  gzip : l.compressType = kCompressGzip
  carries : Carries env.zlib streamed room (csvBytes l.books.pending) l.gipHelper
  files : ∃ texts : List (List UInt8),
    l.books.outputs.map (Output.unzipped gunzip) = texts.map some ∧
      texts.flatten ++ csvBytes l.books.pending = csvBytes l.books.formatted

theorem Zips.mono (h : l.Zips env gunzip streamed room) {room' : ℕ} (hle : room' ≤ room) :
    l.Zips env gunzip streamed room' :=
  ⟨h.gzip, h.carries.mono hle, h.files⟩

theorem Zips.makeCsvLog (hz : Reliable env.zlib gunzip streamed)
    (h : l.Zips env gunzip streamed (2 * outputBound + 2 ^ 4)) (packet : PcapPacket) :
    (l.makeCsvLog env packet).Zips env gunzip streamed (outputBound + 2 ^ 4) := by
  obtain ⟨texts, houtputs, htext⟩ := h.files
  refine ⟨(makeCsvLog_keeps env l packet).compressType.trans h.gzip, ?_, texts, ?_, ?_⟩
  · rw [makeCsvLog_gipHelper h.gzip, makeCsvLog_pending, csvBytes_concat]
    exact h.carries.compressUpdate hz packet
  · rw [makeCsvLog_outputs, houtputs]
  · rw [makeCsvLog_pending, makeCsvLog_formatted, csvBytes_concat, csvBytes_concat,
      ← List.append_assoc, htext]

theorem Zips.outputFile (hz : Reliable env.zlib gunzip streamed)
    (h : l.Zips env gunzip streamed (outputBound + 2 ^ 4)) :
    (l.outputFile env).Zips env gunzip streamed (2 * outputBound + 2 ^ 4) := by
  obtain ⟨texts, houtputs, htext⟩ := h.files
  refine ⟨(outputFile_keeps env l).compressType.trans h.gzip, ?_,
    texts ++ [csvBytes l.books.pending], ?_, ?_⟩
  · rw [outputFile_gipHelper h.gzip, outputFile_pending]
    exact h.carries.compressReset hz
  · have hfile := h.carries.compressFinish hz
    unfold BasicBusinessLogger.outputFile
    dsimp only
    rw [if_pos h.gzip, List.map_append, List.map_append, houtputs]
    simp only [List.map_cons, List.map_nil, Output.unzipped, hfile]
  · rw [outputFile_pending, outputFile_formatted, ← htext, List.flatten_concat]
    exact List.append_nil _

theorem Zips.drainOne (hz : Reliable env.zlib gunzip streamed)
    (h : l.Zips env gunzip streamed (outputBound + 2 ^ 4)) (packet : PcapPacket) :
    (l.drainOne env packet).Zips env gunzip streamed (outputBound + 2 ^ 4) := by
  rw [BasicBusinessLogger.drainOne]
  cases hfull : l.full with
  | true =>
      have hreset := h.outputFile hz
      rw [if_pos rfl]
      refine Zips.makeCsvLog hz ?_ packet
      exact ⟨hreset.gzip, hreset.carries, hreset.files⟩
  | false =>
      rw [full_gzip h.gzip] at hfull
      exact Zips.makeCsvLog hz ⟨h.gzip, h.carries.of_not_full hfull, h.files⟩ packet

theorem Zips.drain (hz : Reliable env.zlib gunzip streamed)
    (h : l.Zips env gunzip streamed (outputBound + 2 ^ 4)) (now : ℕ) (isTimeOut : Bool)
    (packets : List PcapPacket) :
    (l.drain env now isTimeOut packets).Zips env gunzip streamed (outputBound + 2 ^ 4) :=
  drain_of_rounds (fun _ packet h => h.drainOne hz packet)
    (fun _ h => (h.outputFile hz).mono (by decide)) ⟨h.gzip, h.carries, h.files⟩ isTimeOut packets

theorem initHelper_carries (hz : Reliable env.zlib gunzip streamed)
    (hreserve : ∀ n, env.reserve n = n) {rotateSize : UInt32}
    (hcapacity : capacityOf rotateSize < 2 ^ 32) (storage : ℕ → UInt8) :
    Carries env.zlib streamed (2 * outputBound + 2 ^ 4) []
      (initHelper env rotateSize storage) := by
  have heq := initHelper_capacity hreserve rotateSize storage
  have hthreshold : 2 * outputBound + 2 ^ 4 ≤ capacityOf rotateSize := by
    rw [outputBound, capacityOf]
    omega
  exact ⟨heq.trans_lt hcapacity, hthreshold.trans_eq heq.symm,
    ((Nat.zero_add _).trans_le hthreshold).trans_eq heq.symm,
    GzipHelper.compressInit_holds hz.streams ..⟩

theorem init_zips (hz : Reliable env.zlib gunzip streamed) (hreserve : ∀ n, env.reserve n = n)
    {fuel uptime uptime' : ℕ} {filePath : List Char} {rotateSize rotateCycle : UInt32}
    {compressType : UInt8} {slots : ℕ → PcapPacket} {storage : ℕ → UInt8}
    {gipHelper : GzipHelper Z}
    (h : init env fuel filePath rotateSize rotateCycle compressType uptime uptime' slots storage
      gipHelper = some l)
    (hgzip : l.compressType = kCompressGzip) (hcapacity : capacityOf l.rotateSize < 2 ^ 32) :
    l.Zips env gunzip streamed (outputBound + 2 ^ 4) := by
  rw [BasicBusinessLogger.init, Option.map_eq_some_iff] at h
  obtain ⟨data, -, rfl⟩ := h
  refine ⟨hgzip, ?_, [], rfl, rfl⟩
  dsimp only at hgzip ⊢
  rw [if_pos hgzip]
  exact (initHelper_carries hz hreserve hcapacity _).mono (by decide)

theorem Reachable.zips (hz : Reliable env.zlib gunzip streamed)
    (hreserve : ∀ n, env.reserve n = n) (h : Reachable env fresh l)
    (hgzip : l.compressType = kCompressGzip) (hcapacity : capacityOf l.rotateSize < 2 ^ 32) :
    l.Zips env gunzip streamed (outputBound + 2 ^ 4) := by
  induction h with
  | init h => exact init_zips hz hreserve h hgzip hcapacity
  | step hl e hstep ih =>
      obtain ⟨htype, hsize⟩ := step_mode hl.holds hstep
      rw [htype] at hgzip
      rw [hsize] at hcapacity
      have hzips := ih hgzip hcapacity
      rcases step_cases hl.holds hstep with ⟨packet, mem, rfl, rfl⟩ | ⟨clock, mem, rfl, rfl⟩
      · exact ⟨hzips.gzip, hzips.carries, hzips.files⟩
      · refine Zips.drain hz ?_ _ _ _
        exact ⟨hzips.gzip, hzips.carries, hzips.files⟩

/-- In gzip mode with a capacity of 32 bits, the files so far decode one by one to the lines of
the dequeued packets, up to the pending ones. A file made now would decode to the rest. -/
theorem gzip_text_conserved (hz : Reliable env.zlib gunzip streamed)
    (hreserve : ∀ n, env.reserve n = n) (h : Reachable env fresh l)
    (hgzip : l.compressType = kCompressGzip) (hcapacity : capacityOf l.rotateSize < 2 ^ 32) :
    ∃ texts : List (List UInt8),
      l.books.outputs.map (Output.unzipped gunzip) = texts.map some ∧
      gunzip (l.gipHelper.compressFinish env.zlib).1.compressed =
        some (csvBytes l.books.pending) ∧
      texts.flatten ++ csvBytes l.books.pending = csvBytes l.books.dequeued := by
  have hzips := h.zips hz hreserve hgzip hcapacity
  obtain ⟨texts, houtputs, htext⟩ := hzips.files
  rw [h.conserves.1] at htext
  exact ⟨texts, houtputs, hzips.carries.compressFinish hz, htext⟩

/-! ## A stream of one line -/

open GzipHelper (letterHeader zStreamError zDataError)

/-- The line of the one packet of the run below. -/
def oneLine : List UInt8 := bytesOf (csvLine onePacket)

/-- What zlib puts out for this line when it is finished, behind the header. -/
def oneLineBody : List UInt8 :=
  [43, 46, 74, 86, 200, 44, 176, 53, 52, 208, 3, 65, 67, 29, 133, 148, 226, 18, 36, 1, 35, 29,
    133, 98, 160, 138, 130, 252, 162, 18, 5, 91, 5, 67, 3, 35, 19, 136, 10, 144, 128, 173, 130,
    133, 129, 2, 23, 0, 220, 185, 254, 176, 65, 0, 0, 0]

inductive LineStage
  | closed
  | fresh
  /-- It has taken in `oneLine` and put out the header. -/
  | held
  | copied (consumed : List UInt8)
  | ended

structure LineStream where
  stage : LineStage
  totalOut : UInt64

namespace LineStage

/-- What an open stream has taken in, put out, and kept back. -/
inductive Open : LineStage → (consumed emitted kept : List UInt8) → Prop
  | fresh : Open .fresh [] [] letterHeader
  | held : Open .held oneLine letterHeader oneLine
  | copied (consumed : List UInt8) : Open (.copied consumed) consumed (letterHeader ++ consumed) []

def consumed : LineStage → List UInt8
  | .held => oneLine
  | .copied consumed => consumed
  | .closed | .fresh | .ended => []

def kept : LineStage → List UInt8
  | .fresh => letterHeader
  | .held => oneLine
  | .closed | .copied _ | .ended => []

def trailer : LineStage → List UInt8
  | .held => oneLineBody
  | stage => stage.kept ++ [0xff]

theorem Open.eq {stage : LineStage} {consumed emitted kept : List UInt8}
    (h : stage.Open consumed emitted kept) :
    stage.consumed = consumed ∧ stage.kept = kept ∧
      emitted ++ kept = letterHeader ++ consumed ∧ kept.length ≤ 65 := by
  cases h with
  | fresh => exact ⟨rfl, rfl, rfl, by decide⟩
  | held => exact ⟨rfl, rfl, rfl, by decide⟩
  | copied consumed => exact ⟨rfl, rfl, List.append_nil _, by decide⟩

end LineStage

/-- zlib that deflates `oneLine`, and copies all other input behind the header. -/
def lineZlib : Zlib LineStream where
  cleared := ⟨.closed, 0⟩
  totalOut := LineStream.totalOut
  deflateInit2 _ _ _ _ := (⟨.fresh, 0⟩, zOk)
  deflateReset s :=
    match s.stage with
    | .closed => (s, zStreamError)
    | _ => (⟨.fresh, 0⟩, zOk)
  deflateSetHeader s :=
    match s.stage with
    | .closed => (s, zStreamError)
    | _ => (s, zOk)
  deflate s source availOut flush :=
    match s.stage with
    | .closed | .ended => (s, [], zStreamError)
    | stage =>
        if availOut.toNat ≤ outputBound then (s, [], zBufError)
        else
          match flush with
          | .noFlush =>
              if stage.kept = letterHeader ∧ source = oneLine then
                (⟨.held, s.totalOut + UInt64.ofNat letterHeader.length⟩, letterHeader, zOk)
              else
                let taken := source.take (availOut.toNat - stage.kept.length)
                (⟨.copied (stage.consumed ++ taken),
                  s.totalOut + UInt64.ofNat (stage.kept ++ taken).length⟩, stage.kept ++ taken, zOk)
          | .finish =>
              if source = [] then
                (⟨.ended, s.totalOut + UInt64.ofNat stage.trailer.length⟩, stage.trailer,
                  zStreamEnd)
              else (s, [], zStreamError)
  deflateEnd s :=
    match s.stage with
    | .closed => (s, zStreamError)
    | .ended => (⟨.closed, s.totalOut⟩, zOk)
    | _ => (⟨.closed, s.totalOut⟩, zDataError)

/-- A stream that ends in 0xff is a copy. -/
def lineGunzip (bytes : List UInt8) : Option (List UInt8) :=
  if bytes = letterHeader ++ oneLineBody then some oneLine
  else some (bytes.drop letterHeader.length).dropLast

/-- The stream is open with this behind it. -/
def LineStreamed (s : LineStream) (consumed emitted : List UInt8) : Prop :=
  ∃ kept, s.stage.Open consumed emitted kept

theorem LineStreamed.deflate_eq {s : LineStream} {consumed emitted : List UInt8}
    (h : LineStreamed s consumed emitted) (source : List UInt8) (availOut : UInt32)
    (flush : Flush) :
    lineZlib.deflate s source availOut flush =
      if availOut.toNat ≤ outputBound then (s, [], zBufError)
      else
        match flush with
        | .noFlush =>
            if s.stage.kept = letterHeader ∧ source = oneLine then
              (⟨.held, s.totalOut + UInt64.ofNat letterHeader.length⟩, letterHeader, zOk)
            else
              (⟨.copied (s.stage.consumed ++ source.take (availOut.toNat - s.stage.kept.length)),
                s.totalOut + UInt64.ofNat (s.stage.kept ++
                  source.take (availOut.toNat - s.stage.kept.length)).length⟩,
                s.stage.kept ++ source.take (availOut.toNat - s.stage.kept.length), zOk)
        | .finish =>
            if source = [] then
              (⟨.ended, s.totalOut + UInt64.ofNat s.stage.trailer.length⟩, s.stage.trailer,
                zStreamEnd)
            else (s, [], zStreamError) := by
  obtain ⟨stage, totalOut⟩ := s
  obtain ⟨kept, hopen⟩ := h
  cases hopen <;> rfl

/-- Input comes in while there is room, and what was kept back goes out in front of it. -/
theorem LineStreamed.noFlush {s s' : LineStream} {consumed emitted source out : List UInt8}
    {availOut : UInt32} {err : Int} (h : LineStreamed s consumed emitted)
    (hcall : lineZlib.deflate s source availOut .noFlush = (s', out, err)) :
    s' = s ∧ out = [] ∧ err = zBufError ∧ availOut.toNat ≤ outputBound ∨
      err = zOk ∧ s'.totalOut = s.totalOut + UInt64.ofNat out.length ∧
      ∃ taken rest, source = taken ++ rest ∧ (rest = [] ∨ out.length = availOut.toNat) ∧
        LineStreamed s' (consumed ++ taken) (emitted ++ out) ∧
        out.length ≤ availOut.toNat ∧ out.length ≤ 65 + source.length := by
  obtain ⟨kept, hopen⟩ := h
  obtain ⟨hconsumed, hkept, hemitted, hlen⟩ := hopen.eq
  rw [LineStreamed.deflate_eq ⟨kept, hopen⟩, hconsumed, hkept] at hcall
  have hbound : 65 < outputBound := by decide
  split at hcall
  next hroom =>
    cases hcall
    exact .inl ⟨rfl, rfl, rfl, hroom⟩
  next hroom =>
    dsimp only at hcall
    right
    split at hcall
    next hfresh =>
      obtain ⟨hheader, rfl⟩ := hfresh
      cases hcall
      refine ⟨rfl, rfl, oneLine, [], (List.append_nil _).symm, Or.inl rfl, ?_, ?_, ?_⟩
      · obtain ⟨stage, totalOut⟩ := s
        cases hopen with
        | fresh => exact ⟨_, .held⟩
        | held => exact absurd hheader (by decide)
        | copied => exact absurd hheader (by decide)
      · exact (show letterHeader.length ≤ 65 by decide).trans (by omega)
      · exact (show letterHeader.length ≤ 65 by decide).trans (by omega)
    next =>
      cases hcall
      refine ⟨rfl, rfl, _, _, (List.take_append_drop (availOut.toNat - kept.length) _).symm, ?_,
        ⟨[], ?_⟩, ?_, ?_⟩
      · by_cases hall : source.length ≤ availOut.toNat - kept.length
        · exact .inl (List.drop_of_length_le hall)
        · right
          rw [List.length_append, List.length_take]
          omega
      · rw [← List.append_assoc, hemitted, List.append_assoc]
        exact .copied _
      · rw [List.length_append, List.length_take]
        omega
      · rw [List.length_append, List.length_take]
        omega

/-- The trailer makes what the stream has put out a file of what it has taken in. -/
theorem LineStreamed.finish {s s' : LineStream} {consumed emitted source out : List UInt8}
    {availOut : UInt32} {err : Int} (h : LineStreamed s consumed emitted)
    (hcall : lineZlib.deflate s source availOut .finish = (s', out, err))
    (herr : err = zOk ∨ err = zStreamEnd) :
    source = [] ∧ s'.stage = .ended ∧ s'.totalOut = s.totalOut + UInt64.ofNat out.length ∧
      out ≠ [] ∧ out.length ≤ 66 ∧ outputBound < availOut.toNat ∧
      lineGunzip (emitted ++ out) = some consumed := by
  rw [h.deflate_eq] at hcall
  split at hcall
  next =>
    cases hcall
    exact absurd herr (by decide)
  next hroom =>
    dsimp only at hcall
    split at hcall
    next hsource =>
      cases hcall
      obtain ⟨kept, hopen⟩ := h
      refine ⟨hsource, rfl, rfl, ?_⟩
      obtain ⟨stage, totalOut⟩ := s
      dsimp only at hopen hroom ⊢
      have hcopy (consumed : List UInt8) :
          lineGunzip (letterHeader ++ (consumed ++ [0xff])) = some consumed := by
        have hne : letterHeader ++ (consumed ++ [0xff]) ≠ letterHeader ++ oneLineBody := by
          intro heq
          have hlast := congrArg List.getLast? heq
          simp [oneLineBody] at hlast
        rw [lineGunzip, if_neg hne, List.drop_left, List.dropLast_concat]
      cases hopen with
      | fresh => exact ⟨by decide, by decide, Nat.lt_of_not_le hroom, hcopy []⟩
      | held => exact ⟨by decide, by decide, Nat.lt_of_not_le hroom, if_pos rfl⟩
      | copied =>
          refine ⟨by simp [LineStage.trailer], by simp [LineStage.trailer, LineStage.kept],
            Nat.lt_of_not_le hroom, ?_⟩
          rw [List.append_assoc]
          exact hcopy consumed
    next =>
      cases hcall
      exact absurd herr (by decide)

theorem lineZlib_streams : lineZlib.Streams lineGunzip LineStreamed where
  deflateInit2_streamed _ _ _ _ := ⟨_, .fresh⟩
  deflateInit2_totalOut _ _ _ _ := rfl
  deflateSetHeader_streamed {s _ _} h := by
    obtain ⟨stage, totalOut⟩ := s
    obtain ⟨kept, hopen⟩ := h
    cases hopen with
    | fresh => exact ⟨_, .fresh⟩
    | held => exact ⟨_, .held⟩
    | copied => exact ⟨_, .copied _⟩
  deflateSetHeader_totalOut s := by
    obtain ⟨stage, totalOut⟩ := s
    cases stage <;> rfl
  deflate_room {_ _ _ _ _ _ _ flush _} h hcall herr := by
    cases flush with
    | noFlush =>
        rcases h.noFlush hcall with ⟨-, -, rfl, -⟩ | ⟨-, htotal, _, _, -, -, -, hroom, -⟩
        · exact absurd herr (by decide)
        · exact ⟨hroom, htotal⟩
    | finish =>
        obtain ⟨-, -, htotal, -, hlen, hroom, -⟩ := h.finish hcall herr
        have hbound : 66 < outputBound := by decide
        exact ⟨by omega, htotal⟩
  deflate_noFlush h hcall := by
    rcases h.noFlush hcall with ⟨-, -, herr, -⟩ | ⟨-, -, taken, rest, hsource, hrest, hopen, -⟩
    · exact absurd herr (by decide)
    · exact ⟨taken, rest, hsource, hrest, hopen⟩
  deflate_finish h hcall := by
    obtain ⟨rfl, -, -, hout, -, -, hgunzip⟩ := h.finish hcall (Or.inr rfl)
    rw [List.append_nil]
    exact ⟨hout, hgunzip⟩
  deflateEnd_totalOut s := by
    obtain ⟨stage, totalOut⟩ := s
    cases stage <;> rfl

theorem lineZlib_reliable : Reliable lineZlib lineGunzip LineStreamed where
  streams := lineZlib_streams
  line {s _ _ availOut} h hroom packet := by
    rcases hcall : lineZlib.deflate s (bytesOf (csvLine packet)) availOut .noFlush
      with ⟨s', out, err⟩
    rcases h.noFlush hcall with ⟨-, -, -, hno⟩ | ⟨rfl, -, _, _, -, -, -, -, hlen⟩
    · omega
    · have hline := length_csvLine_le packet
      have hbound : 65 + maxLine ≤ outputBound := by decide
      refine ⟨s', out, rfl, ?_⟩
      rw [bytesOf, List.length_map] at hlen
      omega
  deflateSetHeader {s _ _} h := by
    obtain ⟨stage, totalOut⟩ := s
    obtain ⟨kept, hopen⟩ := h
    cases hopen <;> rfl
  finish {s _ _ availOut} h hroom := by
    have hcall := h.deflate_eq [] availOut .finish
    rw [if_neg (Nat.not_le.mpr hroom)] at hcall
    exact ⟨_, _, hcall, rfl⟩

/-! ## A run in gzip mode -/

def lineEnv : Env LineStream where
  zlib := lineZlib
  reserve := id
  strftime now := "1970010100000".toList ++ decimal now
  fopen _ := true

def lineLogger : BasicBusinessLogger LineStream where
  data := (loggerRing, ⟨{}, {}, noPackets⟩)
  rotateSize := (100 : UInt32) <<< 20
  rotateCycle := 1
  compressType := kCompressGzip
  filePath := "./log".toList
  startTime := 0
  roateCnt := 0
  fileGenTime := []
  buf := []
  gipHelper := initHelper lineEnv ((100 : UInt32) <<< 20) fun _ => 0
  uptimeBak := 10
  serialCnt := 0
  books := ⟨[], [], [], []⟩

theorem init_lineLogger :
    init lineEnv 0 "./log".toList ((100 : UInt32) <<< 20) 1 kCompressGzip 0 0 noPackets
      (fun _ => 0) (gzipHelper lineZlib 0 fun _ => 0) = some lineLogger := rfl

/-- The line of one packet comes back from the file of the check that logs it. -/
theorem gzip_text_conserved_of_one_packet :
    ∃ l, lineLogger.run lineEnv noPackets [.pushBack onePacket, .checkRotate ⟨10, 10, 0⟩] =
        .ok l ∧
      l.books.pending = [] ∧ l.books.dequeued = [onePacket] ∧
      ∃ texts : List (List UInt8),
        l.books.outputs.map (Output.unzipped lineGunzip) = texts.map some ∧
        lineGunzip (l.gipHelper.compressFinish lineZlib).1.compressed =
          some (csvBytes l.books.pending) ∧
        texts.flatten ++ csvBytes l.books.pending = csvBytes l.books.dequeued := by
  have hstart : Reachable lineEnv noPackets lineLogger := .init init_lineLogger
  obtain ⟨l, hrun, hgzip, hsize, hpending, hdequeued⟩ : ∃ l, lineLogger.run lineEnv noPackets
      [.pushBack onePacket, .checkRotate ⟨10, 10, 0⟩] = .ok l ∧ l.compressType = kCompressGzip ∧
      l.rotateSize = (100 : UInt32) <<< 20 ∧ l.books.pending = [] ∧
      l.books.dequeued = [onePacket] := ⟨_, rfl, rfl, rfl, rfl, rfl⟩
  refine ⟨l, hrun, hpending, hdequeued, ?_⟩
  have hzlib : Reliable lineEnv.zlib lineGunzip LineStreamed := lineZlib_reliable
  exact gzip_text_conserved hzlib (fun _ => rfl) (hstart.run _ hrun) hgzip (by rw [hsize]; decide)

end BasicBusinessLogger

end Restore.Logger
