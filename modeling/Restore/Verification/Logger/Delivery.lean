import Restore.Verification.Logger.Accounts
import Restore.Verification.Logger.Equations
import Restore.Verification.BuffRing.Alone

/-! # Where a pushed packet is

The packets formatted, the batch in the drain loop and the packets in the ring are together
the published part of the log, in which each packet has one place. -/

namespace Restore.Logger

open BuffRing Counter

namespace LoggerWorld

variable {ι : Type*} {c : RingConfig} {w : LoggerWorld ι}

/-- The ring stores the published part of the log that the consumer has not passed. -/
theorem stored_eq {bits : ℕ} {W : Side → Window (Option ι)} (hc : c.Sized bits)
    (hlogs : w.ring.Logs bits) (htracks : w.ring.Tracks c W) :
    w.ring.machine.mem.stored c =
      (w.ring.books.items.drop (w.ring.books.released .cons)).take
        (w.ring.books.released .prod - w.ring.books.released .cons) := by
  have hcap := hc.capacity_lt
  have htwo := hc.two_pow_le
  have hbits := hc.bits_le
  have hle := (released_le hlogs htracks).1
  have hbounded := htracks.bounded .prod
  have htail := (W .prod).tail_le_head
  have hprod := htracks.tail_eq .prod
  have hcons := htracks.tail_eq .cons
  simp only [RingConfig.slack, Side.other] at hbounded
  rw [htracks.released_eq, htracks.released_eq] at hle
  have hcount : (ringCount c w.ring.machine.mem).toNat = (W .prod).tail - (W .cons).tail := by
    rw [ringCount_alone hc _ hcons hprod hle (by omega), word_toNat]
    omega
  rw [RingMem.stored, hcount, htracks.released_eq, htracks.released_eq]
  refine batch_eq_segment fun j hj => ?_
  rw [hlogs.stored _ (by rw [htracks.released_eq]; exact Nat.le_add_right _ _)
    (by rw [htracks.released_eq]; omega), show w.ring.machine.mem.cons.tail = _ from hcons,
    word_add, word_and_mask _ bits (by omega) _ hc.mask_eq]

variable [DecidableEq ι]

/-- In every run in which each `push_back` finds room, and takes no head that has gone all the
way round since its load, each packet whose `push_back` has returned 0 is formatted, in the
batch being drained or in the ring, and in one place only. -/
theorem push_back_delivers {fuel : ℕ} {data fresh : ℕ → Pushed} {mem : RingMem Pushed}
    (hring : buffRing fuel (2 * kVectorThreshold) .kRingQueueVariable false true data =
      some (c, mem)) (hw : w.Reachable c fresh mem) {x : Pushed} (hx : (x, 0) ∈ w.returned) :
    (w.handed ++ w.draining ++ w.ring.machine.mem.stored c).count x = 1 := by
  rw [buffRing_logger] at hring
  obtain ⟨rfl, rfl⟩ := Prod.mk.inj (Option.some.inj hring)
  obtain ⟨⟨W, htracks⟩, hlogs, h⟩ := hw.accounts loggerRing_sized rfl rfl rfl rfl
  have hplaced : w.handed ++ w.draining ++ w.ring.machine.mem.stored loggerRing =
      w.ring.books.items.take (w.ring.books.released .prod) := by
    rw [stored_eq loggerRing_sized hlogs htracks, h.taken, ← List.take_add,
      Nat.add_sub_cancel' (released_le hlogs htracks).1]
  rw [hplaced]
  have hnodup := (List.Nodup.of_map _ h.distinct).sublist
    (List.take_sublist (w.ring.books.released .prod) _)
  exact List.count_eq_one_of_mem hnodup (h.kept x 0 hx)

def onePushed : ℕ → Pushed := fun _ => ⟨0, ⟨0, 0, 0x0a000001, 0x0a000002, 1024, 80, 0, 0⟩⟩

theorem Reachable.next {fresh : ℕ → Pushed} {mem : RingMem Pushed} (hw : w.Reachable c fresh mem)
    (a : LoggerAction ι) (hroom : w.HasRoom c a) (hunmoved : w.Unmoved c a) :
    (w.next c fresh a).Reachable c fresh mem :=
  Relation.ReflTransGen.tail hw ⟨a, rfl, hroom, hunmoved⟩

/-- One packet has been pushed, and the logger thread has dequeued it after a time-out. -/
theorem push_back_delivers_of_one_packet :
    let actions : List (LoggerAction Unit) :=
      .pushBack () (onePushed 0).packet :: List.replicate 8 (.producer ()) ++
        .checkRotate true :: List.replicate 8 .logger
    let w := actions.foldl (LoggerWorld.next loggerRing onePushed) (start ⟨{}, {}, onePushed⟩)
    (onePushed 0, 0) ∈ w.returned ∧
      (w.handed ++ w.draining ++ w.ring.machine.mem.stored loggerRing).count (onePushed 0) = 1 := by
  intro actions w
  have hw : w.Reachable loggerRing onePushed ⟨{}, {}, onePushed⟩ := by
    simp only [w, actions, List.replicate, List.cons_append, List.nil_append, List.foldl]
    repeat' refine Reachable.next ?_ _ ?_ ?_
    · exact Relation.ReflTransGen.refl
    all_goals first | trivial | (intro _ _; rfl) | (show (_ : UInt32) ≠ 0; decide)
  have hreturned : (onePushed 0, 0) ∈ w.returned := by decide
  exact ⟨hreturned, push_back_delivers (buffRing_logger 0 onePushed) hw hreturned⟩

/-! ## A full ring

One thread that pushes packet after packet, with no check in between. -/

/-- Any actions, whether they find room or not. -/
def Runs (c : RingConfig) (fresh : ℕ → Pushed) : LoggerWorld ι → LoggerWorld ι → Prop :=
  Relation.ReflTransGen fun w w' => ∃ a, w' = w.next c fresh a

/-- The steps of one thread in the ring are steps of its `push_back`. -/
theorem runs_of_alone {fresh : ℕ → Pushed} {t : ι} {s : Machine (Option ι) Pushed}
    (h : Machine.Alone c (some t) w.ring.machine s) :
    ∃ w', Runs c fresh w w' ∧ w'.ring.machine = s ∧ w'.check = w.check ∧
      w'.calls = w.calls ∧ w'.handed = w.handed := by
  have hsteps : Relation.ReflTransGen (fun s s' => s' = s.run c (some t)) w.ring.machine s := h
  clear h
  induction hsteps with
  | refl => exact ⟨w, Relation.ReflTransGen.refl, rfl, rfl, rfl, rfl⟩
  | @tail s s' _ hstep ih =>
      obtain ⟨w', hruns, hmachine, hcheck, hcalls, hhanded⟩ := ih
      refine ⟨w'.next c fresh (.producer t), hruns.tail ⟨_, rfl⟩, ?_, hcheck, hcalls, hhanded⟩
      rw [hstep, ← hmachine]
      rfl

/-- A `push_back` that runs alone returns 0, whether the ring takes its packet or not. -/
theorem push_back_alone {bits base : ℕ} (hc : c.Sized bits) {items : List Pushed} {t : ι}
    (hidle : w.ring.machine.pc (some t) = .idle)
    (hstores : w.ring.machine.mem.StoresAt bits base items)
    (hcap : items.length ≤ c.capacity.toNat) (fresh : ℕ → Pushed) (packet : Pcap.PcapPacket) :
    ∃ w', Runs c fresh w w' ∧ w'.ring.machine.pc (some t) = .idle ∧
      w'.ring.machine.mem.StoresAt bits base (items ++
        batch (fun _ => ⟨w.calls, packet⟩) (c.reach 1 (c.capacity.toNat - items.length))) ∧
      w'.calls = w.calls + 1 ∧ w'.check = w.check ∧ w'.handed = w.handed ∧
      (⟨w.calls, packet⟩, 0) ∈ w'.returned := by
  obtain ⟨mem, hcall, hmem, -⟩ := doEnqueue_stores hc hstores hcap (fun _ => ⟨w.calls, packet⟩) 1
  obtain ⟨w₀, hw₀⟩ : ∃ w₀, w₀ = w.next c fresh (.pushBack t packet) := ⟨_, rfl⟩
  have henter : w₀ = { w with
      ring := ⟨w.ring.machine.goto (some t) (.loadHead (enqueueCall ⟨w.calls, packet⟩)),
        w.ring.books⟩
      calls := w.calls + 1 } := by
    simp only [hw₀, next, World.next, Machine.act, BuffRing.Books.record, hidle]
  have hpc : w₀.ring.machine.pc (some t) = .loadHead (enqueueCall ⟨w.calls, packet⟩) := by
    rw [henter]
    exact Machine.goto_pc_self _ _ _
  have halone := doEnqueue_run_alone hpc rfl (by rw [henter]; exact hcall)
  obtain ⟨w₁, hruns, hmachine, hcheck, hcalls, hhanded⟩ := runs_of_alone halone
  have hreturned : w₁.next c fresh (.producer t) = { w₁ with
      ring := ⟨w₁.ring.machine.goto (some t) .idle, w₁.ring.books⟩
      returned := w₁.returned ++ [(⟨w.calls, packet⟩, 0)] } := by
    have hpc' := congrFun (congrArg Machine.pc hmachine) (some t)
    simp only [Function.update_self] at hpc'
    simp only [next, World.next, Machine.act, Machine.run, BuffRing.Books.record, hpc']
    rfl
  refine ⟨w₁.next c fresh (.producer t), ?_, ?_, ?_, ?_, ?_, ?_, ?_⟩
  · exact (Relation.ReflTransGen.head ⟨_, hw₀⟩ hruns).tail ⟨_, rfl⟩
  · rw [hreturned]
    exact Machine.goto_pc_self _ _ _
  · rw [hreturned]
    have hmem' := congrArg Machine.mem hmachine
    simp only [Machine.goto]
    rw [hmem']
    exact hmem
  · rw [hreturned]
    exact hcalls.trans (by rw [henter])
  · rw [hreturned]
    exact hcheck.trans (by rw [henter])
  · rw [hreturned]
    exact hhanded.trans (by rw [henter])
  · rw [hreturned]
    exact List.mem_append_right _ (List.mem_singleton_self _)

/-- The world after `k` packets of one thread, all in the ring. -/
structure Filled (w : LoggerWorld Unit) (items : List Pushed) : Prop where
  runs : Runs loggerRing onePushed (start ⟨{}, {}, onePushed⟩) w
  idle : w.ring.machine.pc (some ()) = .idle
  stores : w.ring.machine.mem.StoresAt 27 0 items
  calls : w.calls = items.length
  older : ∀ x ∈ items, x.number < items.length
  check : w.check = .idle
  handed : w.handed = []

theorem exists_filled (k : ℕ) (hk : k ≤ 2 ^ 27 - 1) :
    ∃ (w : LoggerWorld Unit) (items : List Pushed), w.Filled items ∧ items.length = k := by
  induction k with
  | zero =>
      exact ⟨start _, [], ⟨Relation.ReflTransGen.refl, rfl, ⟨rfl, rfl, rfl⟩, rfl,
        fun x hx => absurd hx List.not_mem_nil, rfl, rfl⟩, rfl⟩
  | succ k ih =>
      obtain ⟨w, items, h, hlen⟩ := ih (by omega)
      obtain ⟨w', hruns, hidle, hstores, hcalls, hcheck, hhanded, -⟩ := push_back_alone
        loggerRing_sized h.idle h.stores (by rw [hlen]; exact Nat.le_of_succ_le hk) onePushed
        (onePushed 0).packet
      have hreach : loggerRing.reach 1 (loggerRing.capacity.toNat - items.length) = 1 := by
        show min 1 (2 ^ 27 - 1 - items.length) = 1
        omega
      rw [hreach] at hstores
      refine ⟨w', _, ⟨h.runs.trans hruns, hidle, hstores, ?_, ?_, ?_, ?_⟩, ?_⟩
      · rw [hcalls, h.calls, List.length_append, length_batch]
      · intro x hx
        rw [List.length_append, length_batch]
        rcases List.mem_append.mp hx with hold | hnew
        · exact Nat.lt_succ_of_lt (h.older x hold)
        · obtain rfl := List.mem_singleton.mp hnew
          rw [h.calls]
          exact Nat.lt_succ_self _
      · rw [hcheck, h.check]
      · rw [hhanded, h.handed]
      · rw [List.length_append, length_batch, hlen]

/-- The `push_back` that finds `2 ^ 27 - 1` packets in the ring returns 0, and its packet is
nowhere. -/
theorem push_back_loses_packet :
    buffRing 0 (2 * kVectorThreshold) .kRingQueueVariable false true onePushed =
      some (loggerRing, ⟨{}, {}, onePushed⟩) ∧
    ∃ (w : LoggerWorld Unit) (x : Pushed),
      Runs loggerRing onePushed (start ⟨{}, {}, onePushed⟩) w ∧ (x, 0) ∈ w.returned ∧
        x ∉ w.handed ++ w.draining ++ w.ring.machine.mem.stored loggerRing := by
  refine ⟨buffRing_logger 0 onePushed, ?_⟩
  obtain ⟨w, items, h, hlen⟩ := exists_filled (2 ^ 27 - 1) (Nat.le_refl _)
  obtain ⟨w', hruns, -, hstores, -, hcheck, hhanded, hreturned⟩ := push_back_alone
    loggerRing_sized h.idle h.stores (by rw [hlen]; exact Nat.le_refl _) onePushed
    (onePushed 0).packet
  have hreach : loggerRing.reach 1 (loggerRing.capacity.toNat - items.length) = 0 := by
    show min 1 (2 ^ 27 - 1 - items.length) = 0
    omega
  rw [hreach, show batch _ 0 = [] from rfl, List.append_nil] at hstores
  refine ⟨w', _, h.runs.trans hruns, hreturned, ?_⟩
  rw [hhanded, h.handed, draining, hcheck, h.check,
    hstores.stored_eq loggerRing_sized (by rw [hlen]; exact Nat.le_refl _)]
  intro hmem
  have hlt : w.calls < items.length := h.older _ hmem
  rw [h.calls] at hlt
  exact Nat.lt_irrefl _ hlt

end LoggerWorld

end Restore.Logger
