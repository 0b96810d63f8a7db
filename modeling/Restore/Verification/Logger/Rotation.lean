import Restore.Verification.Logger.Equations

/-! # The output files of one check

A check numbers its output files from 0. It makes one for every line that finds the
buffer full, and one for the time-out if no line did. -/

namespace Restore.Logger

open BuffRing Pcap Gzip Counter

variable {Z : Type*}

namespace BasicBusinessLogger

/-! ## Full buffers -/

/-- Some line of `packets` finds the buffer full, with no output before it. -/
def fills (env : Env Z) : BasicBusinessLogger Z → List PcapPacket → Bool
  | _, [] => false
  | l, packet :: packets => l.full || fills env (l.makeCsvLog env packet) packets

/-- Both loggers test and extend the same text. -/
structure SameBuffer (l l' : BasicBusinessLogger Z) : Prop where
  rotateSize : l'.rotateSize = l.rotateSize
  compressType : l'.compressType = l.compressType
  buf : l'.buf = l.buf
  gipHelper : l'.gipHelper = l.gipHelper

theorem SameBuffer.makeCsvLog {l l' : BasicBusinessLogger Z} (h : l.SameBuffer l') (env : Env Z)
    (packet : PcapPacket) : (l.makeCsvLog env packet).SameBuffer (l'.makeCsvLog env packet) := by
  obtain ⟨hsize, htype, hbuf, hgzip⟩ := h
  unfold BasicBusinessLogger.makeCsvLog
  rw [htype]
  split
  · exact ⟨hsize, rfl, hbuf, by rw [hgzip]⟩
  · exact ⟨hsize, rfl, by rw [hbuf], hgzip⟩

theorem SameBuffer.full {l l' : BasicBusinessLogger Z} (h : l.SameBuffer l') :
    l'.full = l.full := by
  unfold BasicBusinessLogger.full
  rw [h.rotateSize, h.compressType, h.buf, h.gipHelper]

theorem SameBuffer.fills {l l' : BasicBusinessLogger Z} (h : l.SameBuffer l') (env : Env Z)
    (packets : List PcapPacket) : l'.fills env packets = l.fills env packets := by
  induction packets generalizing l l' with
  | nil => rfl
  | cons packet packets ih =>
      rw [BasicBusinessLogger.fills, BasicBusinessLogger.fills, h.full,
        ih (h.makeCsvLog env packet)]

/-- In text mode a line finds the buffer full if the text before it is longer than
`m_rotate_size`. -/
theorem fills_text_iff {l : BasicBusinessLogger Z} (htext : l.compressType ≠ kCompressGzip)
    (env : Env Z) (packets : List PcapPacket) :
    l.fills env packets = true ↔
      ∃ k < packets.length,
        l.rotateSize.toNat < (l.buf ++ (packets.take k).flatMap csvLine).length := by
  induction packets generalizing l with
  | nil => simp [fills]
  | cons packet packets ih =>
      have hlog : l.makeCsvLog env packet = { l with
          buf := l.buf ++ csvLine packet
          books := (l.makeCsvLog env packet).books } := by
        unfold makeCsvLog
        rw [if_neg htext]
      have hfull : l.full = true ↔ l.rotateSize.toNat < l.buf.length := by
        rw [full, if_neg htext, decide_eq_true_iff]
      have hrest := ih (l := l.makeCsvLog env packet) (by rw [hlog]; exact htext)
      rw [hlog] at hrest
      rw [fills, Bool.or_eq_true, hfull, hlog, hrest, List.length_cons, Nat.exists_lt_succ_left]
      simp only [List.take_zero, List.flatMap_nil, List.append_nil, List.take_succ_cons,
        List.flatMap_cons, List.append_assoc]

/-! ## Paths -/

/-- The path of the output file with the given serial number. -/
def pathOf (l : BasicBusinessLogger Z) (serialCnt : UInt32) : List Char :=
  outputFilePath { l with serialCnt }

theorem Keeps.pathOf {l l' : BasicBusinessLogger Z} (h : l.Keeps l') (serialCnt : UInt32) :
    l'.pathOf serialCnt = l.pathOf serialCnt := by
  unfold BasicBusinessLogger.pathOf outputFilePath
  dsimp only
  rw [h.filePath, h.fileGenTime, h.compressType]

/-- The paths of all output files so far. -/
def paths (l : BasicBusinessLogger Z) : List (List Char) := l.books.outputs.map Output.path

variable (env : Env Z)

theorem outputFile_paths (l : BasicBusinessLogger Z) :
    (l.outputFile env).paths = l.paths ++ [l.pathOf l.serialCnt] := by
  obtain ⟨payload, houtputs⟩ := outputFile_outputs env l
  rw [paths, houtputs, List.map_append]
  rfl

theorem makeCsvLog_paths (l : BasicBusinessLogger Z) (packet : PcapPacket) :
    (l.makeCsvLog env packet).paths = l.paths := by
  rw [paths, makeCsvLog_outputs, paths]

theorem drainOne_keeps (l : BasicBusinessLogger Z) (packet : PcapPacket) :
    l.Keeps (l.drainOne env packet) := by
  unfold drainOne
  refine Keeps.trans ?_ (makeCsvLog_keeps env _ packet)
  split
  · exact (outputFile_keeps env l).trans ⟨rfl, rfl, rfl, rfl, rfl, rfl, rfl, rfl, rfl⟩
  · exact Keeps.refl l

theorem foldl_drainOne_keeps (packets : List PcapPacket) (l : BasicBusinessLogger Z) :
    l.Keeps (packets.foldl (drainOne env) l) := by
  induction packets generalizing l with
  | nil => exact Keeps.refl l
  | cons packet packets ih => exact (drainOne_keeps env l packet).trans (ih _)

/-- The rounds of the drain loop number their output files from the serial number on, and
make none only if no line finds the buffer full. -/
theorem foldl_drainOne_paths (packets : List PcapPacket) (l : BasicBusinessLogger Z) :
    ∃ m ≤ packets.length,
      (packets.foldl (drainOne env) l).serialCnt = l.serialCnt + word m ∧
      (packets.foldl (drainOne env) l).paths =
        l.paths ++ (List.range m).map (fun i => l.pathOf (l.serialCnt + word i)) ∧
      (m = 0 ↔ l.fills env packets = false) := by
  induction packets generalizing l with
  | nil => exact ⟨0, Nat.le_refl 0, by simp [word], by simp, by simp [fills]⟩
  | cons packet packets ih =>
      obtain ⟨m, hm, hserial, hpaths, hzero⟩ := ih (l.drainOne env packet)
      have hpath := (drainOne_keeps env l packet).pathOf
      rw [List.foldl_cons]
      cases hfull : l.full with
      | false =>
          have hround : l.drainOne env packet = l.makeCsvLog env packet := by
            simp only [drainOne, hfull, Bool.false_eq_true, if_false]
          simp only [hpath] at hpaths
          rw [hround, makeCsvLog_serialCnt] at hserial hpaths
          rw [makeCsvLog_paths] at hpaths
          rw [hround] at hzero ⊢
          refine ⟨m, Nat.le_succ_of_le hm, hserial, hpaths, ?_⟩
          rw [hzero, fills, hfull, Bool.false_or]
      | true =>
          have hround : l.drainOne env packet =
              makeCsvLog env { l.outputFile env with serialCnt := l.serialCnt + 1 } packet := by
            simp only [drainOne, hfull, if_true]
          simp only [hpath] at hpaths
          rw [hround, makeCsvLog_serialCnt] at hserial hpaths
          rw [makeCsvLog_paths] at hpaths
          rw [hround]
          have houtput := outputFile_paths env l
          have hnext (i : ℕ) : l.serialCnt + 1 + word i = l.serialCnt + word (i + 1) := by
            rw [Nat.add_comm i 1, ← word_add, ← UInt32.add_assoc]
            rfl
          refine ⟨m + 1, Nat.succ_le_succ hm, hserial.trans (hnext m), ?_, ?_⟩
          · refine hpaths.trans ?_
            simp only [hnext]
            rw [List.range_succ_eq_map, List.map_cons, List.map_map,
              show word 0 = 0 from rfl, UInt32.add_zero, ← List.singleton_append,
              ← List.append_assoc, ← houtput]
            rfl
          · simp [fills, hfull]

/-- The logger after the rounds of the drain loop. -/
def rounds (l : BasicBusinessLogger Z) (now : ℕ) (packets : List PcapPacket) :
    BasicBusinessLogger Z :=
  packets.foldl (drainOne env) (getFileGenTime env { l with serialCnt := 0 } now)

theorem rounds_paths (l : BasicBusinessLogger Z) (now : ℕ) (packets : List PcapPacket) :
    ∃ m ≤ packets.length,
      (l.rounds env now packets).serialCnt = word m ∧
      (l.rounds env now packets).paths =
        l.paths ++ (List.range m).map (fun i => (getFileGenTime env l now).pathOf (word i)) ∧
      (m = 0 ↔ l.fills env packets = false) := by
  obtain ⟨m, hm, hserial, hpaths, hzero⟩ :=
    foldl_drainOne_paths env packets (getFileGenTime env { l with serialCnt := 0 } now)
  have hbuffer : l.SameBuffer (getFileGenTime env { l with serialCnt := 0 } now) :=
    ⟨rfl, rfl, rfl, rfl⟩
  have hstart (i : ℕ) : (getFileGenTime env { l with serialCnt := 0 } now).serialCnt + word i =
      word i := UInt32.zero_add _
  simp only [hstart] at hserial hpaths
  rw [hbuffer.fills] at hzero
  exact ⟨m, hm, hserial, hpaths, hzero⟩

/-- A time-out is served at the end unless a line has found the buffer full. -/
theorem drain_eq (l : BasicBusinessLogger Z) (now : ℕ) (isTimeOut : Bool)
    (packets : List PcapPacket) (hlen : packets.length < 2 ^ 32) :
    l.drain env now isTimeOut packets =
      if isTimeOut = true ∧ l.fills env packets = false then
        (l.rounds env now packets).outputFile env
      else l.rounds env now packets := by
  obtain ⟨m, hm, hserial, -, hzero⟩ := rounds_paths env l now packets
  have hnone : ((l.rounds env now packets).serialCnt == 0) = true ↔ m = 0 := by
    rw [hserial, beq_iff_eq, ← UInt32.toNat_inj, word_toNat, UInt32.toNat_zero]
    omega
  have hflush : (isTimeOut && (l.rounds env now packets).serialCnt == 0) = true ↔
      isTimeOut = true ∧ l.fills env packets = false := by
    rw [Bool.and_eq_true, hnone, hzero]
  exact if_congr hflush rfl rfl

/-- The drain numbers its output files from 0, and makes none only without a time-out and
without a line that finds the buffer full. -/
theorem drain_paths (l : BasicBusinessLogger Z) (now : ℕ) (isTimeOut : Bool)
    (packets : List PcapPacket) (hlen : packets.length < 2 ^ 32) :
    ∃ m ≤ packets.length + 1,
      (l.drain env now isTimeOut packets).paths =
        l.paths ++ (List.range m).map (fun i => (getFileGenTime env l now).pathOf (word i)) ∧
      (m = 0 ↔ isTimeOut = false ∧ l.fills env packets = false) := by
  obtain ⟨m, hm, hserial, hpaths, hzero⟩ := rounds_paths env l now packets
  rw [drain_eq env l now isTimeOut packets hlen]
  split
  next hflush =>
    obtain rfl := hzero.mpr hflush.2
    refine ⟨1, Nat.le_add_left 1 _, ?_, by simp [hflush.1]⟩
    rw [outputFile_paths, hpaths, hserial, rounds, (foldl_drainOne_keeps env packets _).pathOf,
      List.range_zero, List.map_nil, List.append_nil]
    rfl
  next hflush =>
    refine ⟨m, Nat.le_succ_of_le hm, hpaths, ?_⟩
    rw [hzero]
    refine ⟨fun hfills => ⟨?_, hfills⟩, And.right⟩
    rw [not_and] at hflush
    exact Bool.eq_false_of_not_eq_true fun htimeOut => hflush htimeOut hfills

/-! ## What stays pending -/

/-- Whether a check calls `outputFile` at all. -/
def writes (env : Env Z) (l : BasicBusinessLogger Z) (clock : Clock) : Bool :=
  l.timeOut clock.uptime || l.fills env (l.queue.take (l.takes clock l.queue))

theorem length_take_takes_le (l : BasicBusinessLogger Z) (clock : Clock) (q : List PcapPacket) :
    (q.take (l.takes clock q)).length ≤ 2 ^ 26 := by
  rw [List.length_take, takes]
  split <;> omega

theorem checkRotateCounted_paths {l l' : BasicBusinessLogger Z} {q : List PcapPacket}
    (h : l.Holds q) {fresh : ℕ → PcapPacket} {clock : Clock}
    (hcall : l.checkRotateCounted env fresh clock = .ok l') :
    ∃ m ≤ 2 ^ 26 + 1,
      l'.paths =
        l.paths ++ (List.range m).map (fun i => (getFileGenTime env l clock.now).pathOf (word i)) ∧
      (m = 0 ↔ l.writes env clock = false) := by
  obtain ⟨mem, hspec, -⟩ := checkRotateCounted_spec env h fresh clock
  rw [hspec, Except.ok.injEq] at hcall
  have hlen := length_take_takes_le l clock q
  obtain ⟨m, hm, hpaths, hzero⟩ := drain_paths env
    (l.collected clock mem (q.take (l.takes clock q))) clock.now (l.timeOut clock.uptime)
    (q.take (l.takes clock q)) (by omega)
  have hbuffer : l.SameBuffer (l.collected clock mem (q.take (l.takes clock q))) :=
    ⟨rfl, rfl, rfl, rfl⟩
  rw [hcall] at hpaths
  refine ⟨m, by omega, hpaths, ?_⟩
  rw [hzero, hbuffer.fills, writes, Bool.or_eq_false_iff, h.queue_eq]

end BasicBusinessLogger

end Restore.Logger
