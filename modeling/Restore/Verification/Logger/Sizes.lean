import Restore.Verification.Logger.Conservation
import Restore.Verification.Logger.LogText

/-! # How long the output files become

A line is appended after the test of the buffer, so that the text passes `m_rotate_size` by one
line at most. -/

namespace Restore.Logger

open BuffRing Pcap Gzip

variable {Z : Type*}

/-- The length of the longest line. -/
def maxLine : ℕ := 83

theorem length_number_le {n k : ℕ} (stop : Char) (hk : 0 < k) (hn : n < 10 ^ k) :
    (number stop n).length ≤ k + 1 := by
  have hdigits : (decimal n).length ≤ k := (Nat.length_toDigits_le_iff (by decide) hk).mpr hn
  rw [number, List.length_append, List.length_singleton]
  exact Nat.succ_le_succ hdigits

theorem length_address_le (addr : UInt32) : (address addr).length ≤ 16 := by
  obtain ⟨h₀, h₁, h₂, h₃⟩ := address_bytes addr
  have hlt := addr.toNat_lt
  have hbyte (stop : Char) {n : ℕ} (hn : n < 2 ^ 8) : (number stop n).length ≤ 4 :=
    length_number_le stop (k := 3) (by decide) (by omega)
  have hlen₀ := hbyte '.' (h₀ ▸ (by omega : addr.toNat / 2 ^ 24 < 2 ^ 8))
  have hlen₁ := hbyte '.' (h₁ ▸ Nat.mod_lt _ (by decide))
  have hlen₂ := hbyte '.' (h₂ ▸ Nat.mod_lt _ (by decide))
  have hlen₃ := hbyte ',' (h₃ ▸ Nat.mod_lt _ (by decide))
  simp only [address, List.length_append]
  omega

theorem length_csvLine_le (packet : PcapPacket) : (csvLine packet).length ≤ maxLine := by
  have hscr := length_address_le packet.scrIpv4
  have hdst := length_address_le packet.dstIpv4
  have hport (stop : Char) (port : UInt16) : (number stop port.toNat).length ≤ 6 := by
    have hlt := port.toNat_lt
    exact length_number_le stop (k := 5) (by decide) (by omega)
  have hscrPort := hport ',' packet.scrPort
  have hdstPort := hport ' ' packet.dstPort
  have hwords : "src ip=".toList.length = 7 ∧ " dst ip=".toList.length = 8 ∧
      " src port = ".toList.length = 12 ∧ " dst port= ".toList.length = 11 ∧
      "\n".toList.length = 1 := ⟨rfl, rfl, rfl, rfl, rfl⟩
  obtain ⟨hsrc, hdstIp, hsrcPort, hdstWord, hend⟩ := hwords
  rw [csvLine_eq]
  simp only [List.length_append, hsrc, hdstIp, hsrcPort, hdstWord, hend, maxLine]
  omega

/-- The longest line has three digits for each byte and five for each port. -/
theorem exists_maxLine : ∃ packet, (csvLine packet).length = maxLine :=
  ⟨⟨0, 0, 0xffffffff, 0xffffffff, 0xffff, 0xffff, 0, 0⟩, by rw [csvLine_eq]; rfl⟩

namespace BasicBusinessLogger

variable {env : Env Z} {fresh : ℕ → PcapPacket} {l : BasicBusinessLogger Z}

/-- In text mode, neither the buffer nor an output file exceeds `m_rotate_size` by more than a
line. -/
structure Capped (l : BasicBusinessLogger Z) : Prop where
  isText : l.compressType ≠ kCompressGzip
  buf_le : l.buf.length ≤ l.rotateSize.toNat + maxLine
  outputs_le : ∀ o ∈ l.books.outputs, o.text.length ≤ l.rotateSize.toNat + maxLine

/-! ## The drain -/

/-- In text mode, `outputFile` makes a file of the buffer and leaves it empty. -/
theorem outputFile_text (env : Env Z) (htext : l.compressType ≠ kCompressGzip) :
    (l.outputFile env).buf = [] ∧ ∃ o : Output, o.text = l.buf ∧
      (l.outputFile env).books.outputs = l.books.outputs ++ [o] := by
  unfold outputFile
  dsimp only
  rw [if_neg htext]
  exact ⟨rfl, _, rfl, rfl⟩

theorem makeCsvLog_buf (htext : l.compressType ≠ kCompressGzip) (packet : PcapPacket) :
    (l.makeCsvLog env packet).buf = l.buf ++ csvLine packet := by
  unfold makeCsvLog
  rw [if_neg htext]

/-- A line is appended to a buffer that was not full. -/
theorem capped_makeCsvLog (env : Env Z) (packet : PcapPacket)
    (htext : l.compressType ≠ kCompressGzip) (hroom : l.buf.length ≤ l.rotateSize.toNat)
    (houtputs : ∀ o ∈ l.books.outputs, o.text.length ≤ l.rotateSize.toNat + maxLine) :
    (l.makeCsvLog env packet).Capped := by
  have hkeeps := makeCsvLog_keeps env l packet
  refine ⟨hkeeps.compressType ▸ htext, ?_, ?_⟩
  · rw [makeCsvLog_buf htext, hkeeps.rotateSize, List.length_append]
    exact Nat.add_le_add hroom (length_csvLine_le packet)
  · rw [makeCsvLog_outputs, hkeeps.rotateSize]
    exact houtputs

theorem Capped.outputFile (env : Env Z) (h : l.Capped) : (l.outputFile env).Capped := by
  have hkeeps := outputFile_keeps env l
  obtain ⟨hbuf, o, ho, houtputs⟩ := outputFile_text env h.isText
  refine ⟨hkeeps.compressType ▸ h.isText, by simp [hbuf], ?_⟩
  rw [houtputs, hkeeps.rotateSize, List.forall_mem_append, List.forall_mem_singleton, ho]
  exact ⟨h.outputs_le, h.buf_le⟩

/-- The files that the loop makes of a full buffer are longer than `m_rotate_size`. -/
structure MakesFull (l l' : BasicBusinessLogger Z) : Prop where
  rotateSize : l'.rotateSize = l.rotateSize
  outputs : ∃ made, l'.books.outputs = l.books.outputs ++ made ∧
    ∀ o ∈ made, l.rotateSize.toNat < o.text.length

theorem Capped.drainOne (env : Env Z) (h : l.Capped) (packet : PcapPacket) :
    (l.drainOne env packet).Capped ∧ MakesFull l (l.drainOne env packet) := by
  have hsize : l.full = true ↔ l.rotateSize.toNat < l.buf.length := by
    rw [full, if_neg h.isText, decide_eq_true_iff]
  unfold BasicBusinessLogger.drainOne
  dsimp only
  split
  · rename_i hfull
    obtain ⟨hbuf, o, ho, houtputs⟩ := outputFile_text env h.isText
    have hcapped := h.outputFile env
    have hempty : (l.outputFile env).buf.length ≤ (l.outputFile env).rotateSize.toNat := by
      rw [hbuf]
      exact Nat.zero_le _
    refine ⟨capped_makeCsvLog env packet hcapped.isText hempty hcapped.outputs_le, ?_, [o], ?_, ?_⟩
    · rw [(makeCsvLog_keeps env _ packet).rotateSize]
      exact (outputFile_keeps env l).rotateSize
    · rw [makeCsvLog_outputs]
      exact houtputs
    · rw [List.forall_mem_singleton, ho]
      exact hsize.mp hfull
  · rename_i hfull
    rw [hsize, Nat.not_lt] at hfull
    refine ⟨capped_makeCsvLog env packet h.isText hfull h.outputs_le,
      (makeCsvLog_keeps env l packet).rotateSize, [], ?_, by simp⟩
    rw [makeCsvLog_outputs, List.append_nil]

theorem Capped.foldl_drainOne (env : Env Z) (h : l.Capped) (packets : List PcapPacket) :
    (packets.foldl (BasicBusinessLogger.drainOne env) l).Capped ∧
      MakesFull l (packets.foldl (BasicBusinessLogger.drainOne env) l) := by
  induction packets generalizing l with
  | nil => exact ⟨h, rfl, [], (List.append_nil _).symm, by simp⟩
  | cons packet packets ih =>
      obtain ⟨hone, hsize, made, hmade, hlong⟩ := h.drainOne env packet
      obtain ⟨hall, hsize', made', hmade', hlong'⟩ := ih hone
      refine ⟨hall, hsize'.trans hsize, made ++ made', ?_, ?_⟩
      · rw [List.foldl_cons, hmade', hmade, List.append_assoc]
      · rw [List.forall_mem_append]
        exact ⟨hlong, hsize ▸ hlong'⟩

theorem Capped.rounds (env : Env Z) (h : l.Capped) (now : ℕ) (packets : List PcapPacket) :
    (l.rounds env now packets).Capped ∧ MakesFull l (l.rounds env now packets) := by
  have hstart : (getFileGenTime env { l with serialCnt := 0 } now).Capped :=
    ⟨h.isText, h.buf_le, h.outputs_le⟩
  obtain ⟨hall, hsize, made, hmade, hlong⟩ := hstart.foldl_drainOne env packets
  exact ⟨hall, hsize, made, hmade, hlong⟩

theorem Capped.drain (env : Env Z) (h : l.Capped) (now : ℕ) (isTimeOut : Bool)
    (packets : List PcapPacket) :
    (l.drain env now isTimeOut packets).Capped :=
  drain_of_rounds (fun _ packet h => (h.drainOne env packet).1) (fun _ h => h.outputFile env)
    ⟨h.isText, h.buf_le, h.outputs_le⟩ isTimeOut packets

/-! ## Runs -/

theorem Reachable.capped (h : Reachable env fresh l) (htext : l.compressType ≠ kCompressGzip) :
    l.Capped := by
  induction h with
  | init h =>
      rw [BasicBusinessLogger.init, Option.map_eq_some_iff] at h
      obtain ⟨data, -, rfl⟩ := h
      exact ⟨htext, by simp, by simp⟩
  | step hl e hstep ih =>
      obtain ⟨_, mem, -, rfl⟩ | ⟨clock, mem, -, rfl⟩ := step_cases hl.holds hstep
      · obtain ⟨-, hbuf, houtputs⟩ := ih htext
        exact ⟨htext, hbuf, houtputs⟩
      · rw [(drain_keeps env _ _ _ _).compressType] at htext
        obtain ⟨-, hbuf, houtputs⟩ := ih htext
        exact Capped.drain env ⟨htext, hbuf, houtputs⟩ _ _ _

/-- In text mode, in every state and after every round of the drain loop, the buffer and every
output file exceed `m_rotate_size` by at most the longest line, and a file that the loop makes
of a full buffer is longer than `m_rotate_size`. -/
theorem text_sizes (h : Reachable env fresh l) (htext : l.compressType ≠ kCompressGzip) :
    ((∀ packet, (csvLine packet).length ≤ maxLine) ∧ ∃ packet, (csvLine packet).length = maxLine) ∧
      l.buf.length ≤ l.rotateSize.toNat + maxLine ∧
      (∀ o ∈ l.books.outputs, o.text.length ≤ l.rotateSize.toNat + maxLine) ∧
      ∀ (clock : Clock) (l₁ : BasicBusinessLogger Z) (locals : Locals),
        l.collect fresh clock = .ok (l₁, locals) → ∀ packets, packets <+: locals.packets →
          let l₂ := l₁.rounds env clock.now packets
          l₂.buf.length ≤ l.rotateSize.toNat + maxLine ∧
            ∃ made, l₂.books.outputs = l.books.outputs ++ made ∧ ∀ o ∈ made,
              l.rotateSize.toNat < o.text.length ∧
                o.text.length ≤ l.rotateSize.toNat + maxLine := by
  have hcapped := h.capped htext
  refine ⟨⟨length_csvLine_le, exists_maxLine⟩, hcapped.buf_le, hcapped.outputs_le, ?_⟩
  intro clock l₁ locals hcollect packets _ l₂
  obtain ⟨mem, locals', hspec, -⟩ := collect_spec h.holds fresh clock
  rw [hspec] at hcollect
  obtain ⟨rfl, rfl⟩ := Prod.mk.inj (Except.ok.inj hcollect)
  have hstart : (l.collected clock mem (l.queue.take (l.takes clock l.queue))).Capped :=
    ⟨htext, hcapped.buf_le, hcapped.outputs_le⟩
  obtain ⟨hrounds, hsize, made, hmade, hlong⟩ := hstart.rounds env clock.now packets
  have hrotate : l₂.rotateSize = l.rotateSize := hsize
  refine ⟨hrotate ▸ hrounds.buf_le, made, hmade, fun o ho => ⟨hlong o ho, ?_⟩⟩
  rw [← hrotate]
  exact hrounds.outputs_le o (hmade ▸ List.mem_append_right _ ho)

/-- With a `m_rotate_size` of 0, every line finds the buffer full that the line before left. -/
def sizelessLogger : BasicBusinessLogger Unit := { textLogger with rotateSize := 0 }

theorem run_sizelessLogger :
    ∃ l l₁ locals l', sizelessLogger.run (textEnv fun _ => true) noPackets
        [.pushBack onePacket, .pushBack onePacket] = .ok l ∧
      l.compressType ≠ kCompressGzip ∧ l.rotateSize = 0 ∧ l.books.outputs = [] ∧
      l.collect noPackets ⟨10, 10, 0⟩ = .ok (l₁, locals) ∧
      (l₁.rounds (textEnv fun _ => true) 0 locals.packets).books.outputs.length = 1 ∧
      l.run (textEnv fun _ => true) noPackets [.checkRotate ⟨10, 10, 0⟩] = .ok l' ∧
      l'.compressType ≠ kCompressGzip ∧ l'.rotateSize = 0 ∧ l'.buf = csvLine onePacket ∧
      l'.books.outputs.length = 1 := by
  refine ⟨_, _, _, _, rfl, ?_, ?_, ?_, rfl, ?_, rfl, ?_, ?_, ?_, ?_⟩
  all_goals decide +kernel

/-- Of two packets, the loop makes a file of the first one's line when it comes to the second. -/
theorem text_sizes_of_two_packets :
    ∃ l l₁ locals l', sizelessLogger.run (textEnv fun _ => true) noPackets
        [.pushBack onePacket, .pushBack onePacket] = .ok l ∧
      l.collect noPackets ⟨10, 10, 0⟩ = .ok (l₁, locals) ∧
      (∃ made, (l₁.rounds (textEnv fun _ => true) 0 locals.packets).books.outputs = made ∧
        made.length = 1 ∧ ∀ o ∈ made, 0 < o.text.length ∧ o.text.length ≤ 83) ∧
      l.run (textEnv fun _ => true) noPackets [.checkRotate ⟨10, 10, 0⟩] = .ok l' ∧
      l'.buf = csvLine onePacket ∧ l'.buf.length ≤ 83 ∧ l'.books.outputs.length = 1 ∧
      ∀ o ∈ l'.books.outputs, o.text.length ≤ 83 := by
  obtain ⟨l, l₁, locals, l', hrun, htext, hsize, hnone, hcollect, hmade, hcheck, htext', hsize',
    hbuf', hlen'⟩ := run_sizelessLogger
  have hl : Reachable (textEnv fun _ => true) noPackets l :=
    (Reachable.init (rfl : init (textEnv fun _ => true) 0 "./log".toList 0 1 kCompressNone 0 0
      noPackets (fun _ => 0) (gzipHelper noZlib 0 fun _ => 0) = some sizelessLogger)).run _ hrun
  obtain ⟨-, -, -, hloop⟩ := text_sizes hl htext
  obtain ⟨-, made, houtputs, hlong⟩ := hloop _ _ _ hcollect locals.packets List.prefix_rfl
  obtain ⟨-, hbuf, hfiles, -⟩ := text_sizes (hl.run _ hcheck) htext'
  rw [hnone, List.nil_append] at houtputs
  rw [hsize] at hlong
  rw [hsize'] at hbuf hfiles
  exact ⟨l, l₁, locals, l', hrun, hcollect, ⟨made, houtputs, houtputs ▸ hmade, hlong⟩, hcheck,
    hbuf', hbuf, hlen', hfiles⟩

end BasicBusinessLogger

end Restore.Logger
