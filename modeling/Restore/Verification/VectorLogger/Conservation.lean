import Restore.Verification.VectorLogger.Linearization

/-! # The vector logger loses no packet

Unlike the ring, `m_data` takes every packet. Each one is in `m_data`, in the hands of a running
check, or a line in the text, in the order in which the threads wrote `m_data`. -/

namespace Restore.Logger

open BuffRing Gzip Pcap BasicBusinessLogger

variable {ι Z : Type*}

/-- The packets that a running check has taken and not formatted. -/
def RotatePc.taken : RotatePc → List PcapPacket
  | .unlocking _ _ data => data
  | .draining _ rest => rest
  | .idle | .sizing .. | .locking .. | .loading .. | .storing .. => []

def VectorLogger.Event.packet? : VectorLogger.Event → Option PcapPacket
  | .pushBack packet => some packet
  | .checkRotate _ => none

namespace VectorWorld

/-- The packets of the calls of `push_back` that have taken effect, in order. -/
def pushed (w : VectorWorld ι Z) : List PcapPacket :=
  w.order.filterMap fun call => call.2.1.packet?

/-- Every packet pushed so far is a line, taken, or in `m_data`. -/
structure Keeps (w : VectorWorld ι Z) : Prop where
  conserves : w.logger.members.Conserves
  formatted : w.logger.members.books.formatted ++ w.checkRotate.taken =
    w.logger.members.books.dequeued
  pushed : w.logger.members.books.dequeued ++ w.logger.data = w.pushed

variable [DecidableEq ι] {env : Env Z} {l₀ : VectorLogger Z} {w w' : VectorWorld ι Z}

theorem Keeps.runPush (h : w.Keeps) (hsound : w.Sound env l₀) (t : ι) : (w.runPush t).Keeps := by
  unfold VectorWorld.runPush
  split
  · exact h
  · split
    · exact ⟨h.conserves, h.formatted, h.pushed⟩
    · exact h
  · exact ⟨h.conserves, h.formatted, h.pushed⟩
  next packet data hpc =>
    obtain rfl := hsound.pushed t packet data hpc
    refine ⟨h.conserves, h.formatted, ?_⟩
    have hpushed := h.pushed
    rw [VectorWorld.pushed] at hpushed ⊢
    rw [List.filterMap_append, ← hpushed, List.append_assoc]
    rfl
  · exact ⟨h.conserves, h.formatted, h.pushed⟩

theorem Keeps.runRotate (h : w.Keeps) (hsound : w.Sound env l₀) : (w.runRotate env).Keeps := by
  have hformatted := h.formatted
  have hpushed := h.pushed
  rw [VectorWorld.pushed] at hpushed
  cases hpc : w.checkRotate with
  | idle =>
      rw [VectorWorld.runRotate, hpc]
      exact h
  | sizing clock isTimeOut =>
      rw [hpc] at hformatted
      rw [VectorWorld.runRotate, hpc]
      dsimp only
      split
      · exact ⟨h.conserves, hformatted, hpushed⟩
      · refine ⟨h.conserves, hformatted, ?_⟩
        rw [hpushed, VectorWorld.pushed, List.filterMap_append]
        exact (List.append_nil _).symm
  | locking clock isTimeOut =>
      rw [hpc] at hformatted
      rw [VectorWorld.runRotate, hpc]
      dsimp only
      split
      · exact ⟨h.conserves, hformatted, hpushed⟩
      · exact h
  | loading clock isTimeOut =>
      rw [hpc] at hformatted
      rw [VectorWorld.runRotate, hpc]
      exact ⟨h.conserves, hformatted, hpushed⟩
  | storing clock isTimeOut data =>
      obtain rfl := hsound.swapped clock isTimeOut data hpc
      rw [hpc] at hformatted
      rw [VectorWorld.runRotate, hpc]
      refine ⟨h.conserves, ?_, ?_⟩
      · rw [RotatePc.taken, List.append_nil] at hformatted
        exact congrArg (· ++ w.logger.data) hformatted
      · rw [VectorWorld.pushed, List.filterMap_append, ← hpushed]
        rfl
  | unlocking clock isTimeOut data =>
      rw [hpc] at hformatted
      rw [VectorWorld.runRotate, hpc]
      exact ⟨h.conserves, hformatted, hpushed⟩
  | draining isTimeOut rest =>
      rw [hpc] at hformatted
      cases rest with
      | nil =>
          rw [VectorWorld.runRotate, hpc]
          dsimp only
          split
          · refine ⟨h.conserves.outputFile, ?_, ?_⟩
            · rw [(outputFile_keeps env _).dequeued, outputFile_formatted]
              exact hformatted
            · rw [(outputFile_keeps env _).dequeued]
              exact hpushed
          · exact ⟨h.conserves, hformatted, hpushed⟩
      | cons packet rest =>
          have hkeeps := drainOne_keeps env w.logger.members packet
          rw [VectorWorld.runRotate, hpc]
          refine ⟨h.conserves.drainOne packet, ?_, ?_⟩
          · rw [hkeeps.dequeued, drainOne_formatted, ← hformatted]
            exact List.append_assoc ..
          · rw [hkeeps.dequeued]
            exact hpushed

theorem countRotation_conserves {l : BasicBusinessLogger Z} (h : l.Conserves)
    (clock : VectorClock) :
    (VectorLogger.countRotation l clock).Conserves ∧
      (VectorLogger.countRotation l clock).books = l.books := by
  unfold VectorLogger.countRotation
  split
  · exact ⟨h, rfl⟩
  · exact ⟨h, rfl⟩

theorem Keeps.next (h : w.Keeps) (hsound : w.Sound env l₀) {a : VectorAction ι}
    (hnext : w.next env a = some w') : w'.Keeps := by
  cases a with
  | pushBack t packet =>
      rw [VectorWorld.next] at hnext
      split at hnext
      · rw [← Option.some.inj hnext]
        exact ⟨h.conserves, h.formatted, h.pushed⟩
      · exact Option.some.inj hnext ▸ h
  | producer t => exact Option.some.inj hnext ▸ h.runPush hsound t
  | checkRotate clock =>
      rw [VectorWorld.next] at hnext
      dsimp only at hnext
      split at hnext
      next hidle =>
        have hformatted := h.formatted
        rw [hidle] at hformatted
        obtain ⟨hconserves, hbooks⟩ := countRotation_conserves h.conserves clock
        split at hnext
        · cases hnext
        · rw [← Option.some.inj hnext]
          refine ⟨hconserves, ?_, ?_⟩
          · rw [hbooks]
            exact hformatted
          · rw [hbooks]
            exact h.pushed
      next => exact Option.some.inj hnext ▸ h
  | logger => exact Option.some.inj hnext ▸ h.runRotate hsound

theorem Reachable.keeps (h : Reachable env l₀ w) (hstart : (start l₀ : VectorWorld ι Z).Keeps) :
    w.Keeps := by
  induction h with
  | refl => exact hstart
  | tail hreach hstep ih =>
      obtain ⟨a, hnext⟩ := hstep
      exact ih.next (Reachable.sound hreach) hnext

/-- Under every interleaving the packets that have been pushed are formatted once each and in
order, but for those that a check has taken and those in `m_data`. In text mode their lines are
in the files, in the buffer, and to come; the files have theirs unless `fopen` failed. -/
theorem vector_packets_conserved {filePath : List Char} {rotateSize rotateCycle : UInt32}
    {compressType : UInt8} {uptime uptime' : ℕ} {storage : ℕ → UInt8} {gipHelper : GzipHelper Z}
    {ring : RingConfig × RingMem PcapPacket}
    (h : Reachable env (VectorLogger.init env filePath rotateSize rotateCycle compressType uptime
      uptime' storage gipHelper ring) w) :
    w.logger.members.books.formatted ++ w.checkRotate.taken ++ w.logger.data = w.pushed ∧
    (w.logger.members.compressType ≠ kCompressGzip →
      w.logger.members.books.outputs.flatMap Output.text ++ w.logger.members.buf ++
          (w.checkRotate.taken ++ w.logger.data).flatMap csvLine =
        w.pushed.flatMap csvLine ∧
      (w.logger.members.books.outputs.flatMap Output.written ++ w.logger.members.buf ++
          (w.checkRotate.taken ++ w.logger.data).flatMap csvLine =
        w.pushed.flatMap csvLine ↔
        ∀ o ∈ w.logger.members.books.outputs, o.opened = false → o.text = [])) := by
  have hkeeps := h.keeps ⟨fun _ => ⟨rfl, rfl⟩, rfl, rfl⟩
  have hpackets : w.logger.members.books.formatted ++ w.checkRotate.taken ++ w.logger.data =
      w.pushed := by
    rw [hkeeps.formatted, hkeeps.pushed]
  refine ⟨hpackets, fun htext => ?_⟩
  have hlines : w.logger.members.books.outputs.flatMap Output.text ++ w.logger.members.buf ++
      (w.checkRotate.taken ++ w.logger.data).flatMap csvLine = w.pushed.flatMap csvLine := by
    rw [(hkeeps.conserves htext).1, ← List.flatMap_append, ← List.append_assoc, hpackets]
  refine ⟨hlines, ?_⟩
  rw [← hlines, List.append_cancel_right_eq, List.append_cancel_right_eq, written_eq_text_iff]

/-- No file could fail to open. -/
theorem vector_packets_conserved_of_two_pushes :
    ∃ w : VectorWorld Bool Unit,
      twoPushes.foldlM (VectorWorld.next (textEnv fun _ => true)) (start vectorTextLogger) =
        some w ∧
      w.pushed = [⟨1, 1, 2, 3, 4, 5, 6, 7⟩, onePacket] ∧
      w.logger.members.books.formatted ++ w.checkRotate.taken ++ w.logger.data = w.pushed ∧
      w.logger.members.books.outputs.flatMap Output.written ++ w.logger.members.buf ++
          (w.checkRotate.taken ++ w.logger.data).flatMap csvLine =
        w.pushed.flatMap csvLine := by
  have hinit := init_vectorTextLogger fun _ => true
  obtain ⟨w, hrun, hpushed, htext, hopened⟩ : ∃ w : VectorWorld Bool Unit,
      twoPushes.foldlM (VectorWorld.next (textEnv fun _ => true)) (start vectorTextLogger) =
        some w ∧
      w.pushed = [⟨1, 1, 2, 3, 4, 5, 6, 7⟩, onePacket] ∧
      w.logger.members.compressType ≠ kCompressGzip ∧
      ∀ o ∈ w.logger.members.books.outputs, o.opened = false → o.text = [] :=
    ⟨_, rfl, rfl, by decide, by decide⟩
  rw [← hinit] at hrun
  obtain ⟨hpackets, hlines⟩ := vector_packets_conserved (reachable_of_foldlM twoPushes hrun)
  exact ⟨w, hinit ▸ hrun, hpushed, hpackets, (hlines htext).2.mpr hopened⟩

end VectorWorld

end Restore.Logger
