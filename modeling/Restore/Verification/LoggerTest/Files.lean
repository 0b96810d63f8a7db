import Restore.Model.LoggerTestFiles
import Restore.Verification.Logger.Streams
import Restore.Verification.LoggerTest.Flows

/-! # From the capture to the files

What the packet threads push comes out of the ring in order and becomes lines in the files. So the
files have the lines of whole rounds of every connection of the capture. -/

namespace Restore.LoggerTest

open BuffRing Gzip Pcap Logger LoggerWorld BasicBusinessLogger

variable {Z : Type*}

/-! ## One action -/

/-- The members that an invariant of text and files is about are the same. -/
structure SameLog (l l' : BasicBusinessLogger Z) : Prop where
  compressType : l'.compressType = l.compressType
  buf : l'.buf = l.buf
  gipHelper : l'.gipHelper = l.gipHelper
  formatted : l'.books.formatted = l.books.formatted
  pending : l'.books.pending = l.books.pending
  outputs : l'.books.outputs = l.books.outputs

theorem SameLog.refl (l : BasicBusinessLogger Z) : SameLog l l := ⟨rfl, rfl, rfl, rfl, rfl, rfl⟩

theorem countRotation_sameLog (l : BasicBusinessLogger Z) (clock : Clock) :
    SameLog l (FilesWorld.countRotation l clock) := by
  unfold FilesWorld.countRotation
  split
  · exact ⟨rfl, rfl, rfl, rfl, rfl, rfl⟩
  · exact .refl l

variable {c : RingConfig} {fresh : ℕ → Pushed} {ppv : Int32 → List PcapPacket}

theorem handed_runPacket (w : TestWorld) (id : Int32) :
    (w.runPacket c fresh ppv id).logger.handed = w.logger.handed := by
  unfold TestWorld.runPacket
  split
  next hpc =>
    split
    · split <;> rfl
    · simp only [LoggerWorld.next, hpc]
    · rfl
    · rfl
  · rfl

theorem handed_runLogger (c : RingConfig) (fresh : ℕ → Pushed) (w : TestWorld) (isTimeOut : Bool) :
    (w.runLogger c fresh isTimeOut).logger.handed = w.logger.handed ++
      match w.logger.check with
      | .draining (x :: _) => [x]
      | _ => [] := by
  unfold TestWorld.runLogger
  cases hcheck : w.logger.check with
  | idle =>
      dsimp only
      rw [List.append_nil]
      split
      · rfl
      · split
        · rfl
        · split
          · rfl
          · simp only [LoggerWorld.next, hcheck]
            split <;> rfl
  | draining rest =>
      cases rest with
      | nil => simp [LoggerWorld.next, LoggerWorld.runLogger, hcheck]
      | cons x rest => simp [LoggerWorld.next, LoggerWorld.runLogger, hcheck]
  | _ => simp [LoggerWorld.next, LoggerWorld.runLogger, hcheck]

namespace FilesWorld

variable {env : Env Z} {rte : Rte} {mem : RingMem Pushed} {l : BasicBusinessLogger Z}
  {w : FilesWorld Z}

/-- The packets that `makeCsvLog` has been called with. -/
def logged (w : FilesWorld Z) : List PcapPacket := w.test.logger.handed.map Pushed.packet

/-- An action makes a line of one packet, or it makes no line and at most a file. -/
theorem next_cases (env : Env Z) (c : RingConfig) (fresh : ℕ → Pushed)
    (ppv : Int32 → List PcapPacket) (w : FilesWorld Z) (a : FilesAction) :
    (∃ packet, (w.next env c fresh ppv a).members = w.members.drainOne env packet ∧
      (w.next env c fresh ppv a).logged = w.logged ++ [packet]) ∨
    (SameLog w.members (w.next env c fresh ppv a).members ∨
      (w.next env c fresh ppv a).members = w.members.outputFile env) ∧
      (w.next env c fresh ppv a).logged = w.logged := by
  cases a with
  | packetThread id =>
      exact .inr ⟨.inl (.refl _), congrArg (List.map Pushed.packet) (handed_runPacket w.test id)⟩
  | stopRunning | skipOutput => exact .inr ⟨.inl (.refl _), rfl⟩
  | loggerThread clock =>
      have hhanded := handed_runLogger c fresh w.test
        (w.members.timeOut clock.uptime)
      simp only [next, action, TestWorld.next, logged, hhanded]
      generalize (w.test.runLogger c fresh (w.members.timeOut clock.uptime)).logger.check = after
      cases hcheck : w.test.logger.check with
      | draining rest =>
          cases rest with
          | cons x rest => exact .inl ⟨x.packet, rfl, by simp⟩
          | nil =>
              refine .inr ⟨?_, by simp⟩
              simp only [runMembers]
              split
              · exact .inr rfl
              · exact .inl (.refl _)
      | idle =>
          refine .inr ⟨.inl ?_, by simp⟩
          cases after with
          | idle => exact .refl _
          | _ => exact countRotation_sameLog ..
      | counting =>
          refine .inr ⟨.inl ?_, by simp⟩
          cases after <;> exact ⟨rfl, rfl, rfl, rfl, rfl, rfl⟩
      | triggered =>
          refine .inr ⟨.inl ?_, by simp⟩
          exact .refl _
      | dequeuing =>
          refine .inr ⟨.inl ?_, by simp⟩
          cases after <;> exact ⟨rfl, rfl, rfl, rfl, rfl, rfl⟩

/-! ## Runs -/

/-- The threads run as they do without the files. -/
theorem Reachable.test (h : Reachable rte env c fresh ppv mem l w) :
    w.test.Reachable rte c fresh ppv mem := by
  induction h with
  | refl => exact Relation.ReflTransGen.refl
  | tail _ hstep ih =>
      obtain ⟨a, rfl, hstarted⟩ := hstep
      refine Relation.ReflTransGen.tail ih ⟨_, ?_, hstarted⟩
      rfl

/-- What lines and files preserve holds of the members in every run, and each packet that
`makeCsvLog` has been called with is formatted. -/
theorem Reachable.members_invariant {P : BasicBusinessLogger Z → Prop} (hstart : P l)
    (hsame : ∀ l l', P l → SameLog l l' → P l')
    (hline : ∀ l packet, P l → P (l.drainOne env packet)) (hfile : ∀ l, P l → P (l.outputFile env))
    (hbooks : l.books.formatted = []) (h : Reachable rte env c fresh ppv mem l w) :
    P w.members ∧ w.members.books.formatted = w.logged := by
  induction h with
  | refl => exact ⟨hstart, hbooks⟩
  | @tail w w' _ hstep ih =>
      obtain ⟨a, rfl, -⟩ := hstep
      obtain ⟨hP, hformatted⟩ := ih
      rcases next_cases env c fresh ppv w a with ⟨packet, hmembers, hlogged⟩ |
        ⟨hsameLog | hmembers, hlogged⟩
      · rw [hmembers, hlogged, drainOne_formatted, hformatted]
        exact ⟨hline _ _ hP, rfl⟩
      · rw [hlogged, hsameLog.formatted]
        exact ⟨hsame _ _ hP hsameLog, hformatted⟩
      · rw [hmembers, hlogged, outputFile_formatted]
        exact ⟨hfile _ hP, hformatted⟩

/-- In text mode the files and the buffer have the lines of the packets that `makeCsvLog` has been
called with. -/
theorem Reachable.conserves {fuel uptime uptime' : ℕ} {filePath : List Char}
    {rotateSize rotateCycle : UInt32} {compressType : UInt8} {slots : ℕ → PcapPacket}
    {storage : ℕ → UInt8} {gipHelper : GzipHelper Z}
    (hinit : BasicBusinessLogger.init env fuel filePath rotateSize rotateCycle compressType uptime
      uptime' slots storage gipHelper = some l) (htext : compressType ≠ kCompressGzip)
    (h : Reachable rte env c fresh ppv mem l w) :
    w.members.books.outputs.flatMap Output.text ++ w.members.buf = w.logged.flatMap csvLine := by
  rw [BasicBusinessLogger.init, Option.map_eq_some_iff] at hinit
  obtain ⟨ring, -, rfl⟩ := hinit
  have hkeeps : (w.members.compressType = compressType ∧ w.members.Conserves) ∧
      w.members.books.formatted = w.logged := by
    refine h.members_invariant (P := fun l => l.compressType = compressType ∧ l.Conserves)
      ⟨rfl, fun _ => ⟨rfl, rfl⟩⟩ ?_ ?_ ?_ rfl
    · rintro l l' ⟨htype, hconserves⟩ hsame
      refine ⟨hsame.compressType.trans htype, fun htext => ?_⟩
      rw [hsame.compressType] at htext
      rw [hsame.outputs, hsame.buf, hsame.formatted, hsame.pending]
      exact hconserves htext
    · rintro l packet ⟨htype, hconserves⟩
      exact ⟨(drainOne_keeps env l packet).compressType.trans htype, hconserves.drainOne packet⟩
    · rintro l ⟨htype, hconserves⟩
      exact ⟨(outputFile_keeps env l).compressType.trans htype, hconserves.outputFile⟩
  obtain ⟨⟨htype, hconserves⟩, hformatted⟩ := hkeeps
  rw [← hformatted]
  exact (hconserves (htype ▸ htext)).1

/-- In gzip mode the files and the stream have them. -/
theorem Reachable.zips {gunzip : List UInt8 → Option (List UInt8)}
    {streamed : Z → List UInt8 → List UInt8 → Prop} (hz : Reliable env.zlib gunzip streamed)
    (hreserve : ∀ n, env.reserve n = n) {fuel uptime uptime' : ℕ} {filePath : List Char}
    {rotateSize rotateCycle : UInt32} {slots : ℕ → PcapPacket} {storage : ℕ → UInt8}
    {gipHelper : GzipHelper Z}
    (hinit : BasicBusinessLogger.init env fuel filePath rotateSize rotateCycle kCompressGzip uptime
      uptime' slots storage gipHelper = some l) (hcapacity : capacityOf rotateSize < 2 ^ 32)
    (h : Reachable rte env c fresh ppv mem l w) :
    w.members.Zips env gunzip streamed (outputBound + 2 ^ 4) ∧
      w.members.books.formatted = w.logged := by
  have hstart : l.Zips env gunzip streamed (outputBound + 2 ^ 4) ∧ l.books.formatted = [] := by
    have hsettings := hinit
    rw [BasicBusinessLogger.init, Option.map_eq_some_iff] at hsettings
    obtain ⟨ring, -, rfl⟩ := hsettings
    exact ⟨init_zips hz hreserve hinit rfl hcapacity, rfl⟩
  refine h.members_invariant hstart.1 (fun l l' hzips hsame => ?_)
    (fun l packet hzips => hzips.drainOne hz packet)
    (fun l hzips => (hzips.outputFile hz).mono (by decide)) hstart.2
  refine ⟨hsame.compressType.trans hzips.gzip, ?_, ?_⟩
  · rw [hsame.gipHelper, hsame.pending]
    exact hzips.carries
  · rw [hsame.outputs, hsame.pending, hsame.formatted]
    exact hzips.files

/-- The packets that have yet to become lines, in the running check and in the ring. -/
def toCome (c : RingConfig) (w : FilesWorld Z) : List PcapPacket :=
  (w.test.logger.draining ++ w.test.logger.ring.machine.mem.stored c).map Pushed.packet

theorem logged_append_toCome (c : RingConfig) (w : FilesWorld Z) :
    w.logged ++ w.toCome c = (w.test.placed c).map Pushed.packet := by
  rw [logged, toCome, ← List.map_append, ← List.append_assoc]
  rfl

variable {packet : PcapPacket} {fileReader : Str → Option Mmap} {data : ℕ → Pushed}
  {fuel uptime uptime' : ℕ} {filePath : List Char} {rotateSize rotateCycle : UInt32}
  {slots : ℕ → PcapPacket} {storage : ℕ → UInt8} {gipHelper : GzipHelper Z}

/-- In text mode, with one logger thread, for a capture whose rounds fit into the ring, under every
schedule: once the packet threads have returned, the texts of the files, the buffer and the lines
to come are the lines of whole rounds of every connection of the capture, in capture order. The
files have their texts unless `fopen` failed. -/
theorem capture_logged_as_text
    (hring : buffRing fuel (2 * kVectorThreshold) .kRingQueueVariable false true data =
      some (c, mem))
    (hinit : BasicBusinessLogger.init env fuel filePath rotateSize rotateCycle kCompressNone uptime
      uptime' slots storage gipHelper = some l)
    (h : Shared packet fileReader rte ppv)
    (hsmall : kTimes * (parsed packet fileReader rte).length ≤ 2 ^ 27 - 1)
    (hw : Reachable rte env c fresh ppv mem l w)
    (hexit : ∀ id ∈ threadIds rte.packetCoreNum, ∃ cnt, w.test.packetGet id = .exited cnt) :
    ∃ packets : List PcapPacket,
      w.members.books.outputs.flatMap Output.text ++ w.members.buf ++
          (w.toCome c).flatMap csvLine = packets.flatMap csvLine ∧
      (w.members.books.outputs.flatMap Output.written ++ w.members.buf ++
          (w.toCome c).flatMap csvLine = packets.flatMap csvLine ↔
        ∀ o ∈ w.members.books.outputs, o.opened = false → o.text = []) ∧
      ∀ p, ∃ cnt ≤ kTimes, (w.test.stopRunning = false → cnt = kTimes) ∧
        packets.filter (SameTuple p) =
          rounds cnt ((parsed packet fileReader rte).filter (SameTuple p)) := by
  rw [buffRing_logger] at hring
  obtain ⟨rfl, rfl⟩ := Prod.mk.inj (Option.some.inj hring)
  have hsound := (h.reachableWithRoom hsmall hw.test).sound loggerRing_sized rfl rfl rfl rfl
  have hlines : w.members.books.outputs.flatMap Output.text ++ w.members.buf ++
      (w.toCome loggerRing).flatMap csvLine =
        ((w.test.placed loggerRing).map Pushed.packet).flatMap csvLine := by
    rw [hw.conserves hinit (by decide), ← List.flatMap_append, logged_append_toCome]
  refine ⟨_, hlines, ?_, h.filter_placed_of_exited hsound hexit⟩
  rw [← hlines, List.append_cancel_right_eq, List.append_cancel_right_eq, written_eq_text_iff]

theorem reachable_foldl (actions : List FilesAction)
    (h : ∀ id, .packetThread id ∈ actions → id ∈ threadIds rte.packetCoreNum) :
    Reachable rte env c fresh ppv mem l
      (actions.foldl (FilesWorld.next env c fresh ppv) (start mem l)) := by
  induction actions using List.reverseRecOn with
  | nil => exact Relation.ReflTransGen.refl
  | append_singleton actions a ih =>
      rw [List.foldl_concat]
      refine .tail (ih fun id hid => h id (List.mem_append_left _ hid)) ⟨a, rfl, ?_⟩
      cases a with
      | packetThread id => exact h id (List.mem_append_right _ (List.mem_singleton_self _))
      | _ => trivial

/-- The second thread pushes its packet once and the logger thread makes a file of it before
`StopRunning` is set. -/
def oneRound : List FilesAction :=
  List.replicate 11 (.packetThread 1) ++ List.replicate 12 (.loggerThread ⟨10, 10, 0⟩) ++
    [.stopRunning, .packetThread 0, .packetThread 1]

theorem started_oneRound (id : Int32) (hid : .packetThread id ∈ oneRound) :
    id ∈ threadIds 2 := by
  have hcases : id = 1 ∨ id = 0 ∨ id = 1 := by simpa [oneRound] using hid
  rcases hcases with rfl | rfl | rfl
  all_goals decide

theorem capture_logged_as_text_of_one_round :
    let w := oneRound.foldl (FilesWorld.next (textEnv fun _ => true) loggerRing onePushed tcpPpv)
      (start (ringMem onePushed) textLogger)
    w.members.books.outputs.flatMap Output.written = csvLine tcpPacket ∧
    ∃ packets : List PcapPacket,
      w.members.books.outputs.flatMap Output.text ++ w.members.buf ++
          (w.toCome loggerRing).flatMap csvLine = packets.flatMap csvLine ∧
      (w.members.books.outputs.flatMap Output.written ++ w.members.buf ++
          (w.toCome loggerRing).flatMap csvLine = packets.flatMap csvLine ↔
        ∀ o ∈ w.members.books.outputs, o.opened = false → o.text = []) ∧
      ∀ p, ∃ cnt ≤ kTimes, (w.test.stopRunning = false → cnt = kTimes) ∧
        packets.filter (SameTuple p) = rounds cnt ((parsed ⟨0, 0, 0, 0, 0, 0, 0, 0⟩ tcpFileReader
          twoThreads).filter (SameTuple p)) := by
  intro w
  have hw : Reachable twoThreads (textEnv fun _ => true) loggerRing onePushed tcpPpv
      (ringMem onePushed) textLogger w := reachable_foldl oneRound started_oneRound
  have hexit : ∀ id ∈ threadIds 2, ∃ cnt, w.test.packetGet id = .exited cnt :=
    forall_threadIds_two ⟨0, by decide +kernel⟩ ⟨1, by decide +kernel⟩
  exact ⟨by decide +kernel, capture_logged_as_text (buffRing_logger 0 onePushed)
    (init_textLogger _) shared_tcp (by rw [parsed_tcp]; decide) hw hexit⟩

/-- In gzip mode, with one logger thread, the files decode one by one to texts, and the stream would
decode to one more, that with the lines to come are the lines of whole rounds of every
connection. -/
theorem capture_logged_as_gzip {gunzip : List UInt8 → Option (List UInt8)}
    {streamed : Z → List UInt8 → List UInt8 → Prop} (hz : Reliable env.zlib gunzip streamed)
    (hreserve : ∀ n, env.reserve n = n)
    (hring : buffRing fuel (2 * kVectorThreshold) .kRingQueueVariable false true data =
      some (c, mem))
    (hinit : BasicBusinessLogger.init env fuel filePath rotateSize rotateCycle kCompressGzip uptime
      uptime' slots storage gipHelper = some l)
    (hcapacity : capacityOf rotateSize < 2 ^ 32) (h : Shared packet fileReader rte ppv)
    (hsmall : kTimes * (parsed packet fileReader rte).length ≤ 2 ^ 27 - 1)
    (hw : Reachable rte env c fresh ppv mem l w)
    (hexit : ∀ id ∈ threadIds rte.packetCoreNum, ∃ cnt, w.test.packetGet id = .exited cnt) :
    ∃ (packets : List PcapPacket) (texts : List (List UInt8)) (rest : List UInt8),
      w.members.books.outputs.map (Output.unzipped gunzip) = texts.map some ∧
      gunzip (w.members.gipHelper.compressFinish env.zlib).1.compressed = some rest ∧
      texts.flatten ++ rest ++ csvBytes (w.toCome c) = csvBytes packets ∧
      ∀ p, ∃ cnt ≤ kTimes, (w.test.stopRunning = false → cnt = kTimes) ∧
        packets.filter (SameTuple p) =
          rounds cnt ((parsed packet fileReader rte).filter (SameTuple p)) := by
  rw [buffRing_logger] at hring
  obtain ⟨rfl, rfl⟩ := Prod.mk.inj (Option.some.inj hring)
  have hsound := (h.reachableWithRoom hsmall hw.test).sound loggerRing_sized rfl rfl rfl rfl
  obtain ⟨hzips, hformatted⟩ := hw.zips hz hreserve hinit hcapacity
  obtain ⟨texts, houtputs, htext⟩ := hzips.files
  refine ⟨_, texts, _, houtputs, hzips.carries.compressFinish hz, ?_,
    h.filter_placed_of_exited hsound hexit⟩
  rw [htext, hformatted, ← csvBytes_append, logged_append_toCome]

theorem capture_logged_as_gzip_of_one_round :
    let w := oneRound.foldl (FilesWorld.next lineEnv loggerRing onePushed tcpPpv)
      (start (ringMem onePushed) lineLogger)
    w.members.books.outputs.map (Output.unzipped lineGunzip) =
      [some (csvBytes [tcpPacket])] ∧
    ∃ (packets : List PcapPacket) (texts : List (List UInt8)) (rest : List UInt8),
      w.members.books.outputs.map (Output.unzipped lineGunzip) = texts.map some ∧
      lineGunzip (w.members.gipHelper.compressFinish lineEnv.zlib).1.compressed = some rest ∧
      texts.flatten ++ rest ++ csvBytes (w.toCome loggerRing) = csvBytes packets ∧
      ∀ p, ∃ cnt ≤ kTimes, (w.test.stopRunning = false → cnt = kTimes) ∧
        packets.filter (SameTuple p) = rounds cnt ((parsed ⟨0, 0, 0, 0, 0, 0, 0, 0⟩ tcpFileReader
          twoThreads).filter (SameTuple p)) := by
  intro w
  have hw : Reachable twoThreads lineEnv loggerRing onePushed tcpPpv
      (ringMem onePushed) lineLogger w := reachable_foldl oneRound started_oneRound
  have hexit : ∀ id ∈ threadIds 2, ∃ cnt, w.test.packetGet id = .exited cnt :=
    forall_threadIds_two ⟨0, by decide +kernel⟩ ⟨1, by decide +kernel⟩
  have hzlib : Reliable lineEnv.zlib lineGunzip LineStreamed := lineZlib_reliable
  exact ⟨rfl, capture_logged_as_gzip hzlib (fun _ => rfl) (buffRing_logger 0 onePushed)
    init_lineLogger (by decide) shared_tcp (by rw [parsed_tcp]; decide) hw hexit⟩

end FilesWorld

end Restore.LoggerTest
