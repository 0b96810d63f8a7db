import Mathlib.Data.UInt
import Restore.Model.Logger
import Restore.Verification.BuffRing.Correctness

/-! # What the logger's calls do

`push_back` and the dequeue of `checkRotate` on the packets that the ring stores, and the
parts of the logger that the drain leaves alone. -/

namespace Restore.Logger

open BuffRing Pcap Gzip Counter

variable {Z : Type*}

/-! ## The ring of packets -/

/-- The ring that `init` builds. -/
def loggerRing : RingConfig := ⟨2 ^ 27, 2 ^ 27 - 1, 2 ^ 27 - 1, .kRingQueueVariable, false, true⟩

theorem loggerRing_sized : loggerRing.Sized 27 := ⟨by decide, rfl, rfl, by decide⟩

theorem buffRing_logger {T : Type*} (fuel : ℕ) (data : ℕ → T) :
    buffRing fuel (2 * kVectorThreshold) .kRingQueueVariable false true data =
      some (loggerRing, ⟨{}, {}, data⟩) := by
  have hsize : isPowerOf2 (2 * kVectorThreshold) = true := by decide
  rw [buffRing, roundupPowerOf2, if_pos hsize]
  rfl

namespace BasicBusinessLogger

/-- The ring of `init` stores the packets `q`. -/
structure Holds (l : BasicBusinessLogger Z) (q : List PcapPacket) : Prop where
  config_eq : l.data.1 = loggerRing
  bounded : q.length ≤ 2 ^ 27 - 1
  stores : ∃ base, l.data.2.StoresAt 27 base q

theorem Holds.sized {l : BasicBusinessLogger Z} {q : List PcapPacket} (h : l.Holds q) :
    l.data.1.Sized 27 := by
  rw [h.config_eq]
  exact loggerRing_sized

theorem Holds.capacity {l : BasicBusinessLogger Z} {q : List PcapPacket} (h : l.Holds q) :
    l.data.1.capacity.toNat = 2 ^ 27 - 1 := by
  rw [h.config_eq]
  rfl

theorem Holds.of_data {l l' : BasicBusinessLogger Z} {q : List PcapPacket} (h : l.Holds q)
    (hdata : l'.data = l.data) : l'.Holds q :=
  ⟨by rw [hdata, h.config_eq], h.bounded, by rw [hdata]; exact h.stores⟩

theorem Holds.reach {l : BasicBusinessLogger Z} {q : List PcapPacket} (h : l.Holds q)
    (n : UInt32) (entries : ℕ) : l.data.1.reach n entries = min n.toNat entries := by
  rw [h.config_eq]
  rfl

theorem init_holds {env : Env Z} {fuel : ℕ} {filePath : List Char}
    {rotateSize rotateCycle : UInt32} {compressType : UInt8} {uptime uptime' : ℕ}
    {fresh : ℕ → PcapPacket} {storage : ℕ → UInt8} {gipHelper : GzipHelper Z}
    {l : BasicBusinessLogger Z}
    (h : init env fuel filePath rotateSize rotateCycle compressType uptime uptime' fresh storage
      gipHelper = some l) : l.Holds [] := by
  unfold init at h
  rw [Option.map_eq_some_iff] at h
  obtain ⟨data, hring, rfl⟩ := h
  rw [buffRing_logger] at hring
  obtain rfl := Option.some.inj hring
  exact ⟨rfl, Nat.zero_le _, 0, rfl, rfl, rfl⟩

/-- A packet is stored as long as the ring is not full; the call reports 0 in any case. -/
theorem pushBack_spec {l : BasicBusinessLogger Z} {q : List PcapPacket} (h : l.Holds q)
    (packet : PcapPacket) :
    ∃ mem, l.pushBack packet = .ok ({ l with data := (l.data.1, mem) }, 0) ∧
      Holds { l with data := (l.data.1, mem) }
        (if q.length < 2 ^ 27 - 1 then q ++ [packet] else q) := by
  obtain ⟨base, hstores⟩ := h.stores
  obtain ⟨mem, hcall, hmem, hidle⟩ := doEnqueue_stores h.sized hstores
    (by rw [h.capacity]; exact h.bounded) (fun _ => packet) 1
  have hreach : l.data.1.reach 1 (l.data.1.capacity.toNat - q.length) =
      min 1 (2 ^ 27 - 1 - q.length) := by
    rw [h.reach, h.capacity]
    rfl
  rw [hreach] at hmem hidle
  refine ⟨mem, by simp only [pushBack, hcall], h.config_eq, ?_, base, ?_⟩
  · have := h.bounded
    split
    · rw [List.length_append, List.length_singleton]
      omega
    · exact this
  · split
    · rwa [show min 1 (2 ^ 27 - 1 - q.length) = 1 by omega] at hmem
    · rw [hidle (by omega)]
      exact hstores

theorem nearlyFull_iff {l : BasicBusinessLogger Z} {q : List PcapPacket} (h : l.Holds q) :
    l.nearlyFull = true ↔ 2 ^ 26 - 1 ≤ q.length := by
  obtain ⟨base, hstores⟩ := h.stores
  have hq := h.bounded
  have hthreshold : ((64 : UInt32) <<< 20).toNat = 2 ^ 26 := rfl
  rw [nearlyFull, ringFreeCount_stores h.sized hstores (by rw [h.capacity]; exact hq),
    h.capacity, decide_eq_true_iff, UInt32.le_iff_toNat_le, word_toNat, hthreshold]
  omega

theorem batch_overwrite (obj : ℕ → PcapPacket) (xs : List PcapPacket) :
    batch (overwrite obj xs) xs.length = xs := by
  apply List.ext_getElem?
  intro i
  rw [batch, List.getElem?_map]
  by_cases hi : i < xs.length
  · simp [hi, overwrite]
  · rw [List.getElem?_eq_none (by simpa using hi), List.getElem?_eq_none (by simpa using hi)]
    rfl

theorem batch_overwrite_take (obj : ℕ → PcapPacket) {xs : List PcapPacket} {k : ℕ}
    (h : k ≤ xs.length) : batch (overwrite obj (xs.take k)) k = xs.take k := by
  have := batch_overwrite obj (xs.take k)
  rwa [List.length_take_of_le h] at this

/-- The packets that the ring stores, oldest first. -/
def queue (l : BasicBusinessLogger Z) : List PcapPacket := l.data.2.stored l.data.1

theorem Holds.queue_eq {l : BasicBusinessLogger Z} {q : List PcapPacket} (h : l.Holds q) :
    l.queue = q := by
  obtain ⟨base, hstores⟩ := h.stores
  exact hstores.stored_eq h.sized (by rw [h.capacity]; exact h.bounded)

/-- How many of the packets `q` a check dequeues. -/
def takes (l : BasicBusinessLogger Z) (clock : Clock) (q : List PcapPacket) : ℕ :=
  if l.timeOut clock.uptime || l.nearlyFull then min (2 ^ 26) q.length else 0

/-- The logger once `checkRotate` has dequeued `packets` and left the ring as `mem`. -/
def collected (l : BasicBusinessLogger Z) (clock : Clock) (mem : RingMem PcapPacket)
    (packets : List PcapPacket) : BasicBusinessLogger Z :=
  { l with
    data := (l.data.1, mem)
    uptimeBak := if l.timeOut clock.uptime then (UInt32.ofNat clock.uptimeBak).toUInt64
      else l.uptimeBak
    roateCnt := if l.timeOut clock.uptime then l.roateCnt + 1 else l.roateCnt
    books := { l.books with dequeued := l.books.dequeued ++ packets } }

/-- A check takes the oldest packets, and sets its locals only if one of its two triggers
fires. -/
theorem collect_spec {l : BasicBusinessLogger Z} {q : List PcapPacket} (h : l.Holds q)
    (fresh : ℕ → PcapPacket) (clock : Clock) :
    ∃ mem locals,
      l.collect fresh clock = .ok (l.collected clock mem (q.take (l.takes clock q)), locals) ∧
      (l.collected clock mem (q.take (l.takes clock q))).Holds (q.drop (l.takes clock q)) ∧
      locals.isTimeOut = l.timeOut clock.uptime ∧
      locals.packets = q.take (l.takes clock q) ∧
      (locals.batch = none ↔ l.timeOut clock.uptime = false ∧ l.nearlyFull = false) := by
  obtain ⟨base, hstores⟩ := h.stores
  have hq := h.bounded
  by_cases htrigger : (l.timeOut clock.uptime || l.nearlyFull) = true
  · obtain ⟨mem, hcall, hmem, -⟩ := doDequeue_stores h.sized hstores
      (by rw [h.capacity]; exact hq) fresh kVectorThreshold
    have hreach : l.data.1.reach kVectorThreshold q.length = l.takes clock q := by
      rw [h.reach, takes, if_pos htrigger]
      rfl
    rw [hreach] at hcall hmem
    have hk : l.takes clock q ≤ q.length := by
      rw [← hreach]
      exact reach_le_entries _ _ _
    have hword : (word (l.takes clock q)).toNat = l.takes clock q := by
      rw [word_toNat]
      omega
    refine ⟨mem, ⟨l.timeOut clock.uptime,
      some (overwrite fresh (q.take (l.takes clock q)), word (l.takes clock q))⟩, ?_,
      ⟨h.config_eq, by rw [List.length_drop]; omega, _, hmem⟩, rfl, ?_, ?_⟩
    · have htake : batch (overwrite fresh (q.take (l.takes clock q)))
          (word (l.takes clock q)).toNat = q.take (l.takes clock q) := by
        rw [hword]
        exact batch_overwrite_take fresh hk
      unfold collect collected
      cases htimeOut : l.timeOut clock.uptime
      · rw [htimeOut] at htrigger
        simp only [Bool.false_or] at htrigger
        simp only [Bool.false_or, htrigger, if_true, Bool.false_eq_true, if_false, hcall, htake]
      · simp only [Bool.true_or, if_true, hcall, htake]
    · dsimp only [Locals.packets]
      rw [hword]
      exact batch_overwrite_take fresh hk
    · cases htimeOut : l.timeOut clock.uptime <;> simp_all
  · have htakes : l.takes clock q = 0 := if_neg htrigger
    rw [Bool.not_eq_true, Bool.or_eq_false_iff] at htrigger
    refine ⟨l.data.2, ⟨false, none⟩, ?_, ?_, htrigger.1.symm, ?_, ?_⟩
    · unfold collect collected
      simp only [htrigger.1, htrigger.2, htakes, Bool.or_self, Bool.false_eq_true, if_false,
        List.take_zero, List.append_nil]
    · rw [htakes, List.drop_zero]
      exact h.of_data rfl
    · rw [htakes, List.take_zero]
      rfl
    · exact ⟨fun _ => htrigger, fun _ => rfl⟩

/-! ## Frame -/

/-- Nothing but the text, the stream, the serial number and the books of formatted
packets may differ. -/
structure Keeps (l l' : BasicBusinessLogger Z) : Prop where
  data : l'.data = l.data
  rotateSize : l'.rotateSize = l.rotateSize
  rotateCycle : l'.rotateCycle = l.rotateCycle
  compressType : l'.compressType = l.compressType
  filePath : l'.filePath = l.filePath
  startTime : l'.startTime = l.startTime
  roateCnt : l'.roateCnt = l.roateCnt
  fileGenTime : l'.fileGenTime = l.fileGenTime
  dequeued : l'.books.dequeued = l.books.dequeued

theorem Keeps.refl (l : BasicBusinessLogger Z) : l.Keeps l :=
  ⟨rfl, rfl, rfl, rfl, rfl, rfl, rfl, rfl, rfl⟩

theorem Keeps.trans {l l' l'' : BasicBusinessLogger Z} (h : l.Keeps l') (h' : l'.Keeps l'') :
    l.Keeps l'' where
  data := h'.data.trans h.data
  rotateSize := h'.rotateSize.trans h.rotateSize
  rotateCycle := h'.rotateCycle.trans h.rotateCycle
  compressType := h'.compressType.trans h.compressType
  filePath := h'.filePath.trans h.filePath
  startTime := h'.startTime.trans h.startTime
  roateCnt := h'.roateCnt.trans h.roateCnt
  fileGenTime := h'.fileGenTime.trans h.fileGenTime
  dequeued := h'.dequeued.trans h.dequeued

variable (env : Env Z)

theorem makeCsvLog_keeps (l : BasicBusinessLogger Z) (packet : PcapPacket) :
    l.Keeps (l.makeCsvLog env packet) := by
  unfold makeCsvLog
  split <;> exact ⟨rfl, rfl, rfl, rfl, rfl, rfl, rfl, rfl, rfl⟩

theorem outputFile_keeps (l : BasicBusinessLogger Z) : l.Keeps (l.outputFile env) := by
  unfold outputFile
  dsimp only
  split <;> exact ⟨rfl, rfl, rfl, rfl, rfl, rfl, rfl, rfl, rfl⟩

@[simp] theorem makeCsvLog_serialCnt (l : BasicBusinessLogger Z) (packet : PcapPacket) :
    (l.makeCsvLog env packet).serialCnt = l.serialCnt := by
  unfold makeCsvLog
  split <;> rfl

@[simp] theorem makeCsvLog_formatted (l : BasicBusinessLogger Z) (packet : PcapPacket) :
    (l.makeCsvLog env packet).books.formatted = l.books.formatted ++ [packet] := by
  unfold makeCsvLog
  split <;> rfl

@[simp] theorem makeCsvLog_pending (l : BasicBusinessLogger Z) (packet : PcapPacket) :
    (l.makeCsvLog env packet).books.pending = l.books.pending ++ [packet] := by
  unfold makeCsvLog
  split <;> rfl

@[simp] theorem makeCsvLog_outputs (l : BasicBusinessLogger Z) (packet : PcapPacket) :
    (l.makeCsvLog env packet).books.outputs = l.books.outputs := by
  unfold makeCsvLog
  split <;> rfl

@[simp] theorem outputFile_formatted (l : BasicBusinessLogger Z) :
    (l.outputFile env).books.formatted = l.books.formatted := by
  unfold outputFile
  dsimp only
  split <;> rfl

@[simp] theorem outputFile_pending (l : BasicBusinessLogger Z) :
    (l.outputFile env).books.pending = [] := by
  unfold outputFile
  dsimp only
  split <;> rfl

/-- `outputFile` makes one file, under the path that the serial number gives. -/
theorem outputFile_outputs (l : BasicBusinessLogger Z) :
    ∃ payload, (l.outputFile env).books.outputs =
      l.books.outputs ++ [⟨l.outputFilePath, payload, env.fopen l.books.outputs.length⟩] := by
  unfold outputFile
  dsimp only
  split <;> exact ⟨_, rfl⟩

/-! ## The drain -/

variable {env}

/-- What each round of the drain loop and the final `outputFile` keep, the drain keeps. -/
theorem drain_of_rounds {P : BasicBusinessLogger Z → Prop}
    (hround : ∀ l packet, P l → P (l.drainOne env packet))
    (houtput : ∀ l, P l → P (l.outputFile env)) {l : BasicBusinessLogger Z} {now : ℕ}
    (hl : P (getFileGenTime env { l with serialCnt := 0 } now)) (isTimeOut : Bool)
    (packets : List PcapPacket) : P (l.drain env now isTimeOut packets) := by
  have hrounds : ∀ (packets : List PcapPacket) l, P l → P (packets.foldl (drainOne env) l) := by
    intro packets
    induction packets with
    | nil => exact fun _ h => h
    | cons packet packets ih => exact fun l h => ih _ (hround l packet h)
  unfold drain
  dsimp only
  split
  · exact houtput _ (hrounds packets _ hl)
  · exact hrounds packets _ hl

/-- What the rounds of the drain loop and the final `outputFile` can do to a property of
the logger. -/
theorem drain_induction {P : BasicBusinessLogger Z → Prop}
    (hserial : ∀ l serialCnt, P l → P { l with serialCnt })
    (hlog : ∀ l packet, P l → P (l.makeCsvLog env packet))
    (houtput : ∀ l, P l → P (l.outputFile env)) {l : BasicBusinessLogger Z} {now : ℕ}
    (hl : P (getFileGenTime env { l with serialCnt := 0 } now)) (isTimeOut : Bool)
    (packets : List PcapPacket) : P (l.drain env now isTimeOut packets) := by
  refine drain_of_rounds ?_ houtput hl isTimeOut packets
  intro l packet h
  apply hlog
  split
  · exact hserial _ _ (houtput l h)
  · exact h

variable (env)

theorem drain_keeps (l : BasicBusinessLogger Z) (now : ℕ) (isTimeOut : Bool)
    (packets : List PcapPacket) :
    (getFileGenTime env { l with serialCnt := 0 } now).Keeps
      (l.drain env now isTimeOut packets) :=
  drain_induction (fun _ _ h => h.trans ⟨rfl, rfl, rfl, rfl, rfl, rfl, rfl, rfl, rfl⟩)
    (fun l packet h => h.trans (makeCsvLog_keeps env l packet))
    (fun l h => h.trans (outputFile_keeps env l)) (Keeps.refl _) isTimeOut packets

theorem drainOne_formatted (l : BasicBusinessLogger Z) (packet : PcapPacket) :
    (l.drainOne env packet).books.formatted = l.books.formatted ++ [packet] := by
  unfold drainOne
  dsimp only
  split
  · rw [makeCsvLog_formatted, outputFile_formatted]
  · rw [makeCsvLog_formatted]

theorem foldl_drainOne_formatted (packets : List PcapPacket) (l : BasicBusinessLogger Z) :
    (packets.foldl (drainOne env) l).books.formatted = l.books.formatted ++ packets := by
  induction packets generalizing l with
  | nil => rw [List.foldl_nil, List.append_nil]
  | cons packet packets ih =>
      rw [List.foldl_cons, ih, drainOne_formatted, List.append_assoc, List.singleton_append]

theorem drain_formatted (l : BasicBusinessLogger Z) (now : ℕ) (isTimeOut : Bool)
    (packets : List PcapPacket) :
    (l.drain env now isTimeOut packets).books.formatted = l.books.formatted ++ packets := by
  unfold drain
  dsimp only
  split
  · rw [outputFile_formatted, foldl_drainOne_formatted]
    rfl
  · rw [foldl_drainOne_formatted]
    rfl

/-! ## Runs -/

/-- A check takes the oldest packets out of the ring and through the drain. -/
theorem checkRotateCounted_spec {l : BasicBusinessLogger Z} {q : List PcapPacket}
    (h : l.Holds q) (fresh : ℕ → PcapPacket) (clock : Clock) :
    let taken := q.take (l.takes clock q)
    ∃ mem, l.checkRotateCounted env fresh clock =
        .ok ((l.collected clock mem taken).drain env clock.now (l.timeOut clock.uptime) taken) ∧
      ((l.collected clock mem taken).drain env clock.now (l.timeOut clock.uptime) taken).Holds
        (q.drop (l.takes clock q)) := by
  intro taken
  obtain ⟨mem, locals, hcollect, hholds, htimeOut, hpackets, -⟩ := collect_spec h fresh clock
  refine ⟨mem, ?_, hholds.of_data (drain_keeps env _ _ _ _).data⟩
  simp only [checkRotateCounted, hcollect, htimeOut, hpackets, taken]

/-- No call hangs, and every call leaves the ring with stored packets only. -/
theorem step_holds {l : BasicBusinessLogger Z} {q : List PcapPacket} (h : l.Holds q)
    (fresh : ℕ → PcapPacket) (e : Event) :
    ∃ l' q', l.step env fresh e = .ok l' ∧ l'.Holds q' := by
  cases e with
  | pushBack packet =>
      obtain ⟨mem, hcall, hholds⟩ := pushBack_spec h packet
      exact ⟨_, _, by simp only [step, hcall]; rfl, hholds⟩
  | checkRotate clock =>
      obtain ⟨mem, hcall, hholds⟩ := checkRotateCounted_spec env h fresh clock
      exact ⟨_, _, hcall, hholds⟩

variable {env}

/-- What one event can do to a logger: replace the ring, or collect a batch and drain it. -/
theorem step_cases {fresh : ℕ → PcapPacket} {l l' : BasicBusinessLogger Z}
    {q : List PcapPacket} (h : l.Holds q) {e : Event} (hstep : l.step env fresh e = .ok l') :
    (∃ packet mem, e = .pushBack packet ∧ l' = { l with data := (l.data.1, mem) }) ∨
    (∃ clock mem, e = .checkRotate clock ∧
      l' = (l.collected clock mem (q.take (l.takes clock q))).drain env clock.now
        (l.timeOut clock.uptime) (q.take (l.takes clock q))) := by
  cases e with
  | pushBack packet =>
      obtain ⟨mem, hcall, -⟩ := pushBack_spec h packet
      simp only [step, hcall] at hstep
      exact .inl ⟨packet, mem, rfl, (Except.ok.inj hstep).symm⟩
  | checkRotate clock =>
      obtain ⟨mem, hcall, -⟩ := checkRotateCounted_spec env h fresh clock
      rw [step, hcall, Except.ok.injEq] at hstep
      exact .inr ⟨clock, mem, rfl, hstep.symm⟩

theorem Reachable.holds {fresh : ℕ → PcapPacket} {l : BasicBusinessLogger Z}
    (h : Reachable env fresh l) : l.Holds l.queue := by
  suffices hq : ∃ q, l.Holds q by
    obtain ⟨q, hq⟩ := hq
    rwa [hq.queue_eq]
  induction h with
  | init h => exact ⟨[], init_holds h⟩
  | step _ e hstep ih =>
      obtain ⟨q, hq⟩ := ih
      obtain ⟨l', q', hcall, hq'⟩ := step_holds env hq fresh e
      rw [hcall, Except.ok.injEq] at hstep
      exact ⟨q', hstep ▸ hq'⟩

theorem Reachable.run {fresh : ℕ → PcapPacket} (es : List Event) {l l' : BasicBusinessLogger Z}
    (h : Reachable env fresh l) (hrun : l.run env fresh es = .ok l') : Reachable env fresh l' := by
  induction es generalizing l with
  | nil =>
      obtain rfl := Except.ok.inj hrun
      exact h
  | cons e es ih =>
      obtain ⟨l₁, q₁, hstep, -⟩ := step_holds env h.holds fresh e
      simp only [BasicBusinessLogger.run, hstep] at hrun
      exact ih (h.step e hstep) hrun

/-! ## A logger in text mode

The logger that the program starts, for runs on fixed inputs. -/

/-- zlib is not called in text mode. -/
def noZlib : Zlib Unit where
  cleared := ()
  totalOut _ := 0
  deflateInit2 z _ _ _ := (z, 0)
  deflateReset z := (z, 0)
  deflateSetHeader z := (z, 0)
  deflate z _ _ _ := (z, [], 0)
  deflateEnd z := (z, 0)

/-- `strftime` is right for the first ten seconds, on a clock set to UTC. -/
def textEnv (fopen : ℕ → Bool) : Env Unit where
  zlib := noZlib
  reserve := id
  strftime now := "1970010100000".toList ++ decimal now
  fopen

def noPackets : ℕ → PcapPacket := fun _ => ⟨0, 0, 0, 0, 0, 0, 0, 0⟩

def textLogger : BasicBusinessLogger Unit where
  data := (loggerRing, ⟨{}, {}, noPackets⟩)
  rotateSize := (100 : UInt32) <<< 20
  rotateCycle := 1
  compressType := kCompressNone
  filePath := "./log".toList
  startTime := 0
  roateCnt := 0
  fileGenTime := []
  buf := []
  gipHelper := gzipHelper noZlib 0 fun _ => 0
  uptimeBak := 10
  serialCnt := 0
  books := ⟨[], [], [], []⟩

theorem init_textLogger (fopen : ℕ → Bool) :
    init (textEnv fopen) 0 "./log".toList ((100 : UInt32) <<< 20) 1 kCompressNone 0 0 noPackets
      (fun _ => 0) (gzipHelper noZlib 0 fun _ => 0) = some textLogger := rfl

end BasicBusinessLogger

end Restore.Logger
