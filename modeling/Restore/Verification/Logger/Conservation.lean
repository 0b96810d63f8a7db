import Restore.Verification.Logger.Rotation

/-! # Packets and text across checks and the destructor

Every dequeued packet becomes one line, and every line stays in the text until a call of
`outputFile` takes all of it. -/

namespace Restore.Logger

open BuffRing Pcap Gzip

variable {Z : Type*}

/-- What a call of `outputFile` had to write, in text mode. -/
def Output.text (o : Output) : List Char :=
  match o.payload with
  | .text s => s
  | .gzip _ => []

/-- What a call of `outputFile` wrote, in text mode. -/
def Output.written (o : Output) : List Char := if o.opened then o.text else []

/-- Nothing is missing from the files exactly if every failed call had nothing to write. -/
theorem written_eq_text_iff (outputs : List Output) :
    outputs.flatMap Output.written = outputs.flatMap Output.text ↔
      ∀ o ∈ outputs, o.opened = false → o.text = [] := by
  have hle (outputs : List Output) : (outputs.flatMap Output.written).length ≤
      (outputs.flatMap Output.text).length := by
    induction outputs with
    | nil => exact Nat.le_refl _
    | cons o outputs ih =>
        simp only [List.flatMap_cons, List.length_append, Output.written]
        split
        · omega
        · rw [List.length_nil]
          omega
  induction outputs with
  | nil => simp
  | cons o outputs ih =>
      rw [List.forall_mem_cons, List.flatMap_cons, List.flatMap_cons]
      refine Iff.trans ?_ (and_congr_right fun _ => ih)
      cases hopened : o.opened with
      | true =>
          rw [Output.written, hopened, if_pos rfl, List.append_cancel_left_eq]
          simp
      | false =>
          rw [Output.written, hopened, if_neg Bool.false_ne_true, List.nil_append]
          constructor
          · intro h
            have hlen := congrArg List.length h
            have := hle outputs
            rw [List.length_append] at hlen
            have hnil : o.text = [] := List.eq_nil_of_length_eq_zero (by omega)
            rw [hnil, List.nil_append] at h
            exact ⟨fun _ => hnil, h⟩
          · rintro ⟨hnil, h⟩
            rw [hnil rfl, List.nil_append, h]

namespace BasicBusinessLogger

variable {env : Env Z} {fresh : ℕ → PcapPacket} {l : BasicBusinessLogger Z}

/-! ## One check -/

/-- A check formats the packets that it has dequeued, if one of its two triggers fires;
if none does, it goes on with a count that it has not set. -/
theorem checkRotate_formats_dequeued_iff (h : Reachable env fresh l) (clock : Clock) :
    (∃ l' packets, l.checkRotate env fresh clock = .ok (l', 1) ∧
      l'.books.dequeued = l.books.dequeued ++ packets ∧
      l'.books.formatted = l.books.formatted ++ packets) ↔
    l.timeOut clock.uptime = true ∨ l.nearlyFull = true := by
  obtain ⟨mem, locals, hcollect, -, htimeOut, hpackets, hunset⟩ :=
    collect_spec h.holds fresh clock
  cases hbatch : locals.batch with
  | none =>
      obtain ⟨hno, hnot⟩ := hunset.mp hbatch
      have hcall : l.checkRotate env fresh clock = .error .unsetLocal := by
        simp only [checkRotate, hcollect, hbatch]
      simp [hcall, hno, hnot]
  | some batch =>
      have hfires : l.timeOut clock.uptime = true ∨ l.nearlyFull = true := by
        by_contra hnone
        rw [not_or, Bool.not_eq_true, Bool.not_eq_true] at hnone
        rw [hunset.mpr hnone] at hbatch
        cases hbatch
      have hcall : l.checkRotate env fresh clock =
          .ok ((l.collected clock mem (l.queue.take (l.takes clock l.queue))).drain env clock.now
            locals.isTimeOut locals.packets, 1) := by
        simp only [checkRotate, hcollect, hbatch]
      refine ⟨fun _ => hfires, fun _ => ⟨_, locals.packets, hcall, ?_, ?_⟩⟩
      · rw [(drain_keeps env _ _ _ _).dequeued, hpackets]
        rfl
      · rw [drain_formatted]
        rfl

/-- The one packet of the runs below. -/
def onePacket : PcapPacket := ⟨0, 0, 0x0a000001, 0x0a000002, 1024, 80, 0, 0⟩

/-- The cycle has run out, and the check formats the stored packet. -/
theorem checkRotate_formats_dequeued_iff_of_one_packet :
    ∃ l, textLogger.run (textEnv fun _ => true) noPackets [.pushBack onePacket] = .ok l ∧
      l.timeOut 10 = true ∧
      ∃ l' packets, l.checkRotate (textEnv fun _ => true) noPackets ⟨10, 10, 0⟩ = .ok (l', 1) ∧
        l'.books.dequeued = l.books.dequeued ++ packets ∧
        l'.books.formatted = l.books.formatted ++ packets ∧
        l'.books.formatted = [onePacket] := by
  have hstart : Reachable (textEnv fun _ => true) noPackets textLogger := .init (init_textLogger _)
  obtain ⟨l, hrun, htimeOut, hformatted⟩ : ∃ l, textLogger.run (textEnv fun _ => true) noPackets
      [.pushBack onePacket] = .ok l ∧ l.timeOut 10 = true ∧
      (l.checkRotate (textEnv fun _ => true) noPackets ⟨10, 10, 0⟩).map
        (fun r => r.1.books.formatted) = .ok [onePacket] := ⟨_, rfl, rfl, rfl⟩
  obtain ⟨l', packets, hcall, hdequeued, hall⟩ :=
    (checkRotate_formats_dequeued_iff (hstart.run _ hrun) ⟨10, 10, 0⟩).mpr (.inl htimeOut)
  rw [hcall] at hformatted
  exact ⟨l, hrun, htimeOut, l', packets, hcall, hdequeued, hall, Except.ok.inj hformatted⟩

/-- A check in the second of `init` already goes wrong. -/
theorem checkRotate_reads_unset_local :
    Reachable (textEnv fun _ => true) noPackets textLogger ∧
    textLogger.checkRotate (textEnv fun _ => true) noPackets ⟨0, 0, 0⟩ = .error .unsetLocal :=
  ⟨.init (init_textLogger _), rfl⟩

/-! ## Text -/

/-- In text mode, the files and the buffer hold the lines of the formatted packets, and
the buffer those of the pending ones. -/
def Conserves (l : BasicBusinessLogger Z) : Prop :=
  l.compressType ≠ kCompressGzip →
    l.books.outputs.flatMap Output.text ++ l.buf = l.books.formatted.flatMap csvLine ∧
      l.buf = l.books.pending.flatMap csvLine

theorem Conserves.makeCsvLog (h : l.Conserves) (packet : PcapPacket) :
    (l.makeCsvLog env packet).Conserves := by
  intro htype
  rw [(makeCsvLog_keeps env l packet).compressType] at htype
  obtain ⟨hall, hpending⟩ := h htype
  rw [makeCsvLog_formatted, makeCsvLog_pending, makeCsvLog_outputs]
  unfold BasicBusinessLogger.makeCsvLog
  rw [if_neg htype]
  dsimp only
  rw [List.flatMap_append, List.flatMap_append, List.flatMap_singleton, ← hall, ← hpending,
    List.append_assoc]
  exact ⟨rfl, rfl⟩

theorem Conserves.outputFile (h : l.Conserves) : (l.outputFile env).Conserves := by
  intro htype
  rw [(outputFile_keeps env l).compressType] at htype
  obtain ⟨hall, -⟩ := h htype
  rw [outputFile_formatted, outputFile_pending, ← hall]
  unfold BasicBusinessLogger.outputFile
  dsimp only
  rw [if_neg htype]
  simp [Output.text]

theorem Conserves.drainOne (h : l.Conserves) (packet : PcapPacket) :
    (l.drainOne env packet).Conserves := by
  unfold BasicBusinessLogger.drainOne
  dsimp only
  split
  · have hfile : BasicBusinessLogger.Conserves
        { l.outputFile env with serialCnt := l.serialCnt + 1 } := h.outputFile
    exact hfile.makeCsvLog packet
  · exact h.makeCsvLog packet

theorem Conserves.drain (h : l.Conserves) (now : ℕ) (isTimeOut : Bool)
    (packets : List PcapPacket) : (l.drain env now isTimeOut packets).Conserves :=
  drain_induction (fun _ _ h => h) (fun _ packet h => h.makeCsvLog packet)
    (fun _ h => h.outputFile) h isTimeOut packets

/-- A packet is formatted in the check that dequeues it, and its line is kept. -/
theorem Reachable.conserves (h : Reachable env fresh l) :
    l.books.formatted = l.books.dequeued ∧ l.Conserves := by
  induction h with
  | init h =>
      rw [BasicBusinessLogger.init, Option.map_eq_some_iff] at h
      obtain ⟨data, -, rfl⟩ := h
      exact ⟨rfl, fun _ => ⟨rfl, rfl⟩⟩
  | @step l l' hl e hstep ih =>
      obtain ⟨_, mem, -, rfl⟩ | ⟨clock, mem, -, rfl⟩ := step_cases hl.holds hstep
      · exact ih
      · refine ⟨?_, Conserves.drain (l := l.collected clock mem _) ih.2 _ _ _⟩
        rw [(drain_keeps env _ _ _ _).dequeued, drain_formatted]
        exact congrArg (· ++ _) ih.1

/-- The buffers of all calls of `outputFile` and the current one are the lines of the
dequeued packets. Where a call cannot open its file its buffer is gone. -/
theorem text_conserved (h : Reachable env fresh l) (htext : l.compressType ≠ kCompressGzip) :
    l.books.outputs.flatMap Output.text ++ l.buf = l.books.dequeued.flatMap csvLine ∧
    (l.books.outputs.flatMap Output.written ++ l.buf = l.books.dequeued.flatMap csvLine ↔
      ∀ o ∈ l.books.outputs, o.opened = false → o.text = []) := by
  obtain ⟨hformatted, hconserves⟩ := h.conserves
  have hall := (hconserves htext).1
  rw [hformatted] at hall
  refine ⟨hall, ?_⟩
  rw [← hall, List.append_cancel_right_eq, written_eq_text_iff]

/-- The one file has the line of the one packet. -/
theorem text_conserved_of_one_packet :
    ∃ l, textLogger.run (textEnv fun _ => true) noPackets
        [.pushBack onePacket, .checkRotate ⟨10, 10, 0⟩] = .ok l ∧
      l.books.dequeued = [onePacket] ∧
      l.books.outputs.flatMap Output.text ++ l.buf = csvLine onePacket ∧
      l.books.outputs.flatMap Output.written ++ l.buf = csvLine onePacket := by
  have hstart : Reachable (textEnv fun _ => true) noPackets textLogger := .init (init_textLogger _)
  obtain ⟨l, hrun, htext, hdequeued, hopened⟩ :
      ∃ l, textLogger.run (textEnv fun _ => true) noPackets
          [.pushBack onePacket, .checkRotate ⟨10, 10, 0⟩] = .ok l ∧
        l.compressType ≠ kCompressGzip ∧ l.books.dequeued = [onePacket] ∧
        ∀ o ∈ l.books.outputs, o.opened = false → o.text = [] :=
    ⟨_, rfl, by decide, rfl, by decide⟩
  obtain ⟨hall, hwritten⟩ := text_conserved (hstart.run _ hrun) htext
  have hline : l.books.dequeued.flatMap csvLine = csvLine onePacket := by
    rw [hdequeued, List.flatMap_singleton]
  exact ⟨l, hrun, hdequeued, hall.trans hline, (hwritten.mpr hopened).trans hline⟩

/-- The line of a dequeued packet is in no file and not in the buffer once `fopen` fails. -/
theorem text_lost_without_file :
    Reachable (textEnv fun _ => false) noPackets textLogger ∧
    ∃ l, textLogger.run (textEnv fun _ => false) noPackets
        [.pushBack onePacket, .checkRotate ⟨10, 10, 0⟩] = .ok l ∧
      l.compressType ≠ kCompressGzip ∧ l.books.dequeued = [onePacket] ∧
      l.books.outputs.flatMap Output.written ++ l.buf = [] :=
  ⟨.init (init_textLogger _), _, rfl, by decide, rfl, rfl⟩

/-! ## The destructor -/

def AllOpened (l : BasicBusinessLogger Z) : Prop := ∀ o ∈ l.books.outputs, o.opened = true

theorem AllOpened.drain (hopen : ∀ k, env.fopen k = true) (h : l.AllOpened) (now : ℕ)
    (isTimeOut : Bool) (packets : List PcapPacket) :
    (l.drain env now isTimeOut packets).AllOpened := by
  refine drain_induction (fun _ _ h => h) (fun l packet h => ?_) (fun l h => ?_) h isTimeOut packets
  · rw [AllOpened, makeCsvLog_outputs]
    exact h
  · obtain ⟨payload, houtputs⟩ := outputFile_outputs env l
    rw [AllOpened, houtputs]
    exact List.forall_mem_append.mpr ⟨h, List.forall_mem_singleton.mpr (hopen _)⟩

end BasicBusinessLogger

end Restore.Logger
