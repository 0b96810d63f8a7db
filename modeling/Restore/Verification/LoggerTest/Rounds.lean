import Restore.Model.LoggerTestMachine
import Restore.Verification.Logger.Order

/-! # What the packet threads push

At any moment a packet thread has pushed some rounds of its packets and part of the next one,
and what the logger has of them is a prefix of that. -/

namespace Restore.LoggerTest

open BuffRing Pcap Logger LoggerWorld

def rounds (n : ℕ) (ppv : List PcapPacket) : List PcapPacket := (List.replicate n ppv).flatten

theorem rounds_succ (n : ℕ) (ppv : List PcapPacket) : rounds (n + 1) ppv = rounds n ppv ++ ppv := by
  rw [rounds, List.replicate_succ', List.flatten_append, List.flatten_singleton]
  rfl

theorem rounds_isPrefix {m n : ℕ} (h : m ≤ n) (ppv : List PcapPacket) :
    rounds m ppv <+: rounds n ppv := by
  obtain ⟨k, rfl⟩ := Nat.exists_eq_add_of_le h
  rw [rounds, rounds, List.replicate_add, List.flatten_append]
  exact List.prefix_append _ _

theorem filter_rounds (f : PcapPacket → Bool) (n : ℕ) (ppv : List PcapPacket) :
    (rounds n ppv).filter f = rounds n (ppv.filter f) := by
  rw [rounds, List.filter_flatten, List.map_replicate, rounds]

theorem length_rounds (n : ℕ) (ppv : List PcapPacket) :
    (rounds n ppv).length = n * ppv.length := by
  simp [rounds]

/-- How far a thread with these packets has come, by what it has pushed. -/
def PacketPc.Pushed (ppv pushed : List PcapPacket) (stopRunning : Bool) : PacketPc → Prop
  | .looping cnt => pushed = rounds cnt ppv ∧ cnt ≤ kTimes
  | .pushing cnt rest => (∃ done, ppv = done ++ rest ∧ pushed = rounds cnt ppv ++ done) ∧
      cnt < kTimes
  | .exited cnt => pushed = rounds cnt ppv ∧ cnt ≤ kTimes ∧ (stopRunning = false → cnt = kTimes)

/-- Nobody has pushed more than its rounds. -/
theorem PacketPc.Pushed.isPrefix {ppv pushed : List PcapPacket} {stopRunning : Bool}
    {pc : PacketPc} (h : pc.Pushed ppv pushed stopRunning) : pushed <+: rounds kTimes ppv := by
  cases pc with
  | looping cnt =>
      rw [h.1]
      exact rounds_isPrefix h.2 ppv
  | pushing cnt rest =>
      obtain ⟨⟨done, hppv, hpushed⟩, hlt⟩ := h
      refine List.IsPrefix.trans ?_ (rounds_isPrefix hlt ppv)
      rw [hpushed, rounds_succ]
      refine (List.prefix_append_right_inj _).mpr ?_
      exact ⟨rest, hppv.symm⟩
  | exited cnt =>
      rw [h.1]
      exact rounds_isPrefix h.2.1 ppv

variable {rte : Rte} {c : RingConfig} {fresh : ℕ → Pushed} {ppv : Int32 → List PcapPacket}
  {mem : RingMem Pushed} {w : TestWorld}

namespace TestWorld

/-- The logger is in a state that its own runs reach, and the packet threads keep to their
rounds. -/
structure Sound (rte : Rte) (c : RingConfig) (fresh : ℕ → Pushed) (ppv : Int32 → List PcapPacket)
    (mem : RingMem Pushed) (w : TestWorld) : Prop where
  reachable : w.logger.Reachable c fresh mem
  ordered : w.logger.Ordered w.issued
  pushed : ∀ id, (w.packetGet id).Pushed (ppv id) (issuedBy w.issued id) w.stopRunning
  started : ∀ e ∈ w.issued, e.1 ∈ threadIds rte.packetCoreNum
  quiet : ∀ id, id ∉ threadIds rte.packetCoreNum ∨ (∃ cnt, w.packetGet id = .exited cnt) →
    w.logger.ring.machine.pc (some id) = .idle

theorem start_sound : (start mem).Sound rte c fresh ppv mem where
  reachable := Relation.ReflTransGen.refl
  ordered := ordered_start mem
  pushed _ := ⟨rfl, Nat.zero_le _⟩
  started _ he := absurd he List.not_mem_nil
  quiet _ _ := rfl

/-- A step in the logger that enters no call of `push_back`. -/
theorem Sound.logger {bits : ℕ} (hc : c.Sized bits) (hmulti : c.singleProducer = false)
    (hsingle : c.singleConsumer = true) (hprod : mem.prod = {}) (hcons : mem.cons = {})
    (h : w.Sound rte c fresh ppv mem) {a : LoggerAction Int32} (hroom : w.logger.HasRoom c a)
    (hunmoved : w.logger.Unmoved c a)
    (hstep : w.logger.Accounts → w.logger.LogStep (w.logger.next c fresh a))
    (hquiet : ∀ id, w.logger.ring.machine.pc (some id) = .idle →
      (w.logger.next c fresh a).ring.machine.pc (some id) = .idle) :
    Sound rte c fresh ppv mem { w with logger := w.logger.next c fresh a } := by
  have haccounts := (h.reachable.accounts hc hmulti hsingle hprod hcons).2.2
  exact ⟨h.reachable.next a hroom hunmoved, h.ordered.logStep (hstep haccounts), h.pushed,
    h.started, fun id hid => hquiet id (h.quiet id hid)⟩

/-- A packet thread moves on in `PacketGet` and leaves the logger alone. -/
theorem Sound.goto (h : w.Sound rte c fresh ppv mem) (id : Int32) {pc : PacketPc}
    (hpc : pc.Pushed (ppv id) (issuedBy w.issued id) w.stopRunning)
    (hidle : w.logger.ring.machine.pc (some id) = .idle) :
    Sound rte c fresh ppv mem { w with packetGet := Function.update w.packetGet id pc } := by
  refine ⟨h.reachable, h.ordered, fun u => ?_, h.started, fun u hquiet => ?_⟩
  · rcases eq_or_ne u id with rfl | hu
    · simpa only [Function.update_self] using hpc
    · simpa only [Function.update_of_ne hu] using h.pushed u
  · rcases eq_or_ne u id with rfl | hu
    · exact hidle
    · exact h.quiet u (by simpa only [Function.update_of_ne hu] using hquiet)

theorem issuedBy_concat_self (issued : List (Int32 × PcapPacket)) (id : Int32) (p : PcapPacket) :
    issuedBy (issued ++ [(id, p)]) id = issuedBy issued id ++ [p] := by
  simp [issuedBy, List.filter_append]

theorem issuedBy_concat_of_ne (issued : List (Int32 × PcapPacket)) {id u : Int32} (hu : u ≠ id)
    (p : PcapPacket) : issuedBy (issued ++ [(id, p)]) u = issuedBy issued u := by
  simp [issuedBy, List.filter_append, hu.symm]

/-- A step of a packet thread. -/
theorem Sound.runPacket {bits : ℕ} (hc : c.Sized bits) (hmulti : c.singleProducer = false)
    (hsingle : c.singleConsumer = true) (hprod : mem.prod = {}) (hcons : mem.cons = {})
    (h : w.Sound rte c fresh ppv mem) {id : Int32} (hid : id ∈ threadIds rte.packetCoreNum)
    (hroom : w.logger.HasRoom c (.producer id)) (hunmoved : w.logger.Unmoved c (.producer id)) :
    (w.runPacket c fresh ppv id).Sound rte c fresh ppv mem := by
  have hpushed := h.pushed id
  rw [TestWorld.runPacket]
  split
  next hidle =>
    split
    next cnt hpc =>
      rw [hpc] at hpushed
      split
      next hstop =>
        refine h.goto id ⟨hpushed.1, hpushed.2, fun hrunning => ?_⟩ hidle
        exact hstop.resolve_left (by rw [hrunning]; decide)
      next hstop =>
        refine h.goto id ⟨⟨[], rfl, ?_⟩, ?_⟩ hidle
        · rw [List.append_nil]
          exact hpushed.1
        · exact Nat.lt_of_le_of_ne hpushed.2 fun heq => hstop (.inr heq)
    next cnt p rest hpc =>
      rw [hpc] at hpushed
      obtain ⟨⟨done, hppv, hdone⟩, hlt⟩ := hpushed
      refine ⟨h.reachable.next (.pushBack id p) trivial trivial, h.ordered.pushBack hidle fresh p,
        fun u => ?_, ?_, fun u hquiet => ?_⟩
      · rcases eq_or_ne u id with rfl | hu
        · simp only [Function.update_self]
          refine ⟨⟨done ++ [p], ?_, ?_⟩, hlt⟩
          · rw [hppv, List.append_assoc]
            rfl
          · rw [issuedBy_concat_self, hdone, List.append_assoc]
        · simp only [Function.update_of_ne hu]
          rw [issuedBy_concat_of_ne _ hu]
          exact h.pushed u
      · intro e he
        rcases List.mem_append.mp he with he | he
        · exact h.started e he
        · rw [List.mem_singleton.mp he]
          exact hid
      · have hne : u ≠ id := by
          rintro rfl
          rcases hquiet with hquiet | ⟨cnt, hquiet⟩
          · exact hquiet hid
          · simp at hquiet
        simp only [Function.update_of_ne hne] at hquiet
        refine idle_next (h.quiet u hquiet) fresh fun packet heq => hne ?_
        cases heq
        rfl
    next cnt hpc =>
      rw [hpc] at hpushed
      obtain ⟨⟨done, hppv, hdone⟩, hlt⟩ := hpushed
      refine h.goto id ⟨?_, hlt⟩ hidle
      rw [List.append_nil] at hppv
      rw [hdone, rounds_succ, hppv]
    next => exact h
  next =>
    exact h.logger hc hmulti hsingle hprod hcons hroom hunmoved
      (fun haccounts => haccounts.logStep_producer hmulti fresh hroom)
      fun u hidle => idle_next hidle fresh (by simp)

theorem Sound.next {bits : ℕ} (hc : c.Sized bits) (hmulti : c.singleProducer = false)
    (hsingle : c.singleConsumer = true) (hprod : mem.prod = {}) (hcons : mem.cons = {})
    (h : w.Sound rte c fresh ppv mem) {a : TestAction} (hstarted : Started rte a)
    (hroom : w.HasRoom c a) : (w.next c fresh ppv a).Sound rte c fresh ppv mem := by
  cases a with
  | packetThread id => exact h.runPacket hc hmulti hsingle hprod hcons hstarted hroom.1 hroom.2
  | loggerThread isTimeOut =>
      rw [TestWorld.next, TestWorld.runLogger]
      split
      · split
        · exact h
        · split
          · exact ⟨h.reachable, h.ordered, h.pushed, h.started, h.quiet⟩
          · split
            · exact h
            · exact h.logger hc hmulti hsingle hprod hcons trivial trivial
                (fun haccounts => haccounts.logStep_checkRotate fresh isTimeOut)
                fun u hidle => idle_next hidle fresh (by simp)
      · exact h.logger hc hmulti hsingle hprod hcons trivial trivial
          (fun haccounts => haccounts.logStep_logger fresh)
          fun u hidle => idle_next hidle fresh (by simp)
  | stopRunning =>
      refine ⟨h.reachable, h.ordered, fun id => ?_, h.started, h.quiet⟩
      have hpushed := h.pushed id
      simp only [TestWorld.next]
      cases hpc : w.packetGet id with
      | looping cnt | pushing cnt rest =>
          rw [hpc] at hpushed
          exact hpushed
      | exited cnt =>
          rw [hpc] at hpushed
          exact ⟨hpushed.1, hpushed.2.1, fun hfalse => by cases hfalse⟩
  | skipOutput skip => exact ⟨h.reachable, h.ordered, h.pushed, h.started, h.quiet⟩

theorem ReachableWithRoom.sound {bits : ℕ} (hc : c.Sized bits) (hmulti : c.singleProducer = false)
    (hsingle : c.singleConsumer = true) (hprod : mem.prod = {}) (hcons : mem.cons = {})
    (hw : w.ReachableWithRoom rte c fresh ppv mem) : w.Sound rte c fresh ppv mem := by
  have h : Relation.ReflTransGen
    (fun w w' => ∃ a, w' = w.next c fresh ppv a ∧ Started rte a ∧ w.HasRoom c a) (start mem) w := hw
  clear hw
  induction h with
  | refl => exact start_sound
  | tail _ hstep ih =>
      obtain ⟨a, rfl, hstarted, hroom⟩ := hstep
      exact ih.next hc hmulti hsingle hprod hcons hstarted hroom

end TestWorld

end Restore.LoggerTest
