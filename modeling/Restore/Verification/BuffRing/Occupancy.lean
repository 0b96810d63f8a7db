import Restore.Verification.BuffRing.Calls
import Restore.Verification.BuffRing.Exclusion

/-! # What `RingCount` sees of a busy ring

`RingCount` loads `prod_.tail` first and `cons_.tail` later, and any number of other calls may
move both tails in between. Its value is an occupancy of the ring when one of the two loads
would have found the same tail at the time of the other. -/

namespace Restore.BuffRing

open Restore.Counter

variable {ι T : Type*} {c : RingConfig}

/-- The published items that have not been released. -/
def RingMem.occupancy (m : RingMem T) : UInt32 := m.prod.tail - m.cons.tail

/-- What `RingCount` returns, and what the three queries that call it make of that. -/
structure Report where
  ringCount : UInt32
  ringFreeCount : UInt32
  ringFull : Bool
  ringEmpoty : Bool
  deriving DecidableEq

def RingConfig.report (c : RingConfig) (count : UInt32) : Report :=
  ⟨count, c.capacity - count, c.capacity - count == 0, count == 0⟩

/-- The report that fits the memory as it is at this moment. -/
def RingMem.report (c : RingConfig) (m : RingMem T) : Report :=
  ⟨m.occupancy, c.capacity - m.occupancy, m.occupancy == c.capacity, m.occupancy == 0⟩

/-- The value of a `RingCount` that has just returned. -/
def Pc.count? : Pc T → Option UInt32
  | .counted count => some count
  | _ => none

def Action.actor : Action ι T → ι
  | .enter t _ | .enterCount t | .run t => t

variable [DecidableEq ι]

/-- The worlds between the two loads of a `RingCount` of thread `t` that makes the first of
them in `w`. -/
inductive World.Counting (c : RingConfig) (t : ι) (w : World ι T) : World ι T → Prop
  | first (hpc : w.machine.pc t = .loadProdTail) (hadm : (w.next c (.run t)).Admissible c) :
      w.Counting c t (w.next c (.run t))
  | other {w' : World ι T} {a : Action ι T} (hcall : w.Counting c t w') (ha : a.actor ≠ t)
      (hadm : (w'.next c a).Admissible c) : w.Counting c t (w'.next c a)

/-! ## Frame conditions -/

omit [DecidableEq ι] in
theorem report_occupancy (c : RingConfig) (m : RingMem T) :
    c.report m.occupancy = m.report c := by
  have hfull : (c.capacity - m.occupancy == 0) = (m.occupancy == c.capacity) := by
    rw [Bool.eq_iff_iff, beq_iff_eq, beq_iff_eq]
    grind
  rw [RingConfig.report, RingMem.report, hfull]

theorem Machine.act_pc_of_ne (s : Machine ι T) {a : Action ι T} {t : ι} (ha : a.actor ≠ t) :
    (s.act c a).pc t = s.pc t := by
  cases a with
  | enter u call | enterCount u =>
      simp only [Machine.act]
      split
      · exact s.goto_pc_of_ne ha.symm _
      · rfl
  | run u =>
      obtain ⟨mem, pc, hrun, -⟩ := s.run_eq_goto (c := c) u
      have hu : t ≠ u := ha.symm
      rw [Machine.act, hrun, Machine.goto_pc_of_ne _ hu]

theorem Books.record_released_le (s : Machine ι T) (b : Books ι T) (a : Action ι T) (σ : Side) :
    b.released σ ≤ (b.record c s a).released σ := by
  cases a with
  | enter | enterCount => exact le_rfl
  | run t =>
      simp only [Books.record]
      split
      · exact le_rfl
      · split
        · rw [Books.reserve_released]
        · exact le_rfl
      · rw [Books.release_released, Function.update_apply]
        split
        · subst σ
          exact Nat.le_add_right _ _
        · exact le_rfl
      · exact le_rfl

namespace World.Counting

variable {w w' : World ι T} {t : ι}

theorem reachable (h : w.Counting c t w') {m : RingMem T} (hw : w.Reachable c m) :
    w'.Reachable c m := by
  induction h with
  | first _ hadm => exact hw.next _ hadm
  | other _ _ hadm ih => exact ih.next _ hadm

theorem pc_eq (h : w.Counting c t w') :
    w'.machine.pc t = .loadConsTail w.machine.mem.prod.tail := by
  induction h with
  | first hpc => simp [World.next, Machine.act, Machine.run, hpc]
  | other _ ha _ ih => rw [World.next, Machine.act_pc_of_ne _ ha, ih]

theorem released_le (h : w.Counting c t w') (σ : Side) :
    w.books.released σ ≤ w'.books.released σ := by
  induction h with
  | first => exact Books.record_released_le ..
  | other _ _ _ ih => exact ih.trans (Books.record_released_le ..)

end World.Counting

/-! ## The count -/

section Tracks

variable {w : World ι T} {W : Side → Window ι}

omit [DecidableEq ι]

/-- The two tails count what producers have published and consumers released. -/
theorem World.Tracks.tails (h : w.Tracks c W) :
    w.machine.mem.prod.tail = word (w.books.released .prod) ∧
      w.machine.mem.cons.tail = word (w.books.released .cons) := by
  rw [h.released_eq, h.released_eq]
  exact ⟨h.tail_eq .prod, h.tail_eq .cons⟩

theorem World.Tracks.released_le (h : w.Tracks c W) :
    w.books.released .cons ≤ w.books.released .prod ∧
      w.books.released .prod - w.books.released .cons ≤ c.capacity.toNat := by
  obtain ⟨hctail, hcons, hptail, hprod⟩ := h.chain
  rw [h.released_eq, h.released_eq]
  omega

theorem World.Tracks.occupancy_eq (h : w.Tracks c W) :
    w.machine.mem.occupancy = word (w.books.released .prod - w.books.released .cons) := by
  rw [RingMem.occupancy, h.tails.1, h.tails.2, word_sub h.released_le.1]

theorem World.Tracks.countOf_eq (h : w.Tracks c W) {bits : ℕ} (hc : c.Sized bits) :
    c.countOf w.machine.mem.prod.tail w.machine.mem.cons.tail = w.machine.mem.occupancy := by
  rw [h.occupancy_eq, h.tails.1, h.tails.2, countOf_word hc h.released_le.1 h.released_le.2]

end Tracks

/-- A `RingCount` that would have found the same tail at its other load reports the occupancy
of one of the two moments. When both tails move, it reports what was stored at the first load
less what has been released since, as long as there was so much. -/
theorem ringCount_of_tail_kept {size : UInt32} {fuel : ℕ} {behavior : BuffRingBehavior}
    {sp sc : Bool} {data : ℕ → T} {m : RingMem T}
    (hring : buffRing fuel size behavior sp sc data = some (c, m)) {w w' : World ι T}
    (hw : w.Reachable c m) {t : ι} (hcall : w.Counting c t w') :
    ∃ count, ((w'.next c (.run t)).machine.pc t).count? = some count ∧
      (w'.machine.mem.cons.tail = w.machine.mem.cons.tail →
        c.report count = w.machine.mem.report c) ∧
      (w'.machine.mem.prod.tail = w.machine.mem.prod.tail →
        c.report count = w'.machine.mem.report c) ∧
      (w'.books.released .cons ≤ w.books.released .prod →
        count.toNat + (w'.books.released .cons - w.books.released .cons) =
            w.machine.mem.occupancy.toNat ∧
          count ≤ w'.machine.mem.occupancy) := by
  obtain ⟨rfl, bits, hc⟩ := buffRing_sized hring
  obtain ⟨-, W, h⟩ := hw.tracks hc rfl rfl
  obtain ⟨-, W', h'⟩ := (hcall.reachable hw).tracks hc rfl rfl
  refine ⟨c.countOf w.machine.mem.prod.tail w'.machine.mem.cons.tail, ?_, ?_, ?_, ?_⟩
  · simp [World.next, Machine.act, Machine.run, hcall.pc_eq, Pc.count?]
  · intro hcons
    rw [hcons, h.countOf_eq hc, report_occupancy]
  · intro hprod
    rw [← hprod, h'.countOf_eq hc, report_occupancy]
  · intro hroom
    have hle := hcall.released_le .cons
    have hle' := hcall.released_le .prod
    obtain ⟨hstored, hcap⟩ := h.released_le
    obtain ⟨hstored', hcap'⟩ := h'.released_le
    have hcapacity := c.capacity.toNat_lt
    rw [h.tails.1, h'.tails.2, countOf_word hc hroom (by omega), h.occupancy_eq, h'.occupancy_eq,
      UInt32.le_iff_toNat_le, word_toNat, word_toNat, word_toNat]
    omega

/-- One item goes through an empty ring of three between the two loads, and `RingCount` reports
a full ring. -/
theorem ringCount_full_of_empty :
    let c : RingConfig := ⟨4, 3, 3, .kRingQueueVariable, false, false⟩
    let m : RingMem ℕ := ⟨{}, {}, fun _ => 0⟩
    let actions : List (Action Bool ℕ) :=
      [.enterCount true, .run true, .enter false ⟨.prod, fun _ => 7, 1⟩] ++
        List.replicate 8 (.run false) ++ .enter false ⟨.cons, fun _ => 0, 1⟩ ::
          List.replicate 8 (.run false) ++ [.run true]
    let worlds := actions.scanl (World.next c) (World.start m)
    buffRing 0 4 .kRingQueueVariable false false (fun _ => 0) = some (c, m) ∧
      (∀ w ∈ worlds, w.Reachable c m) ∧ (∀ w ∈ worlds, w.machine.mem.occupancy ≤ 1) ∧
      ((actions.foldl (World.next c) (World.start m)).machine.pc true).count? = some 3 ∧
      c.report 3 = ⟨3, 0, true, false⟩ := by
  intro c m actions worlds
  exact ⟨rfl, World.Reachable.scanl (by decide) .refl (by decide), by decide, by decide, by decide⟩

/-- The steps of other threads in a schedule that reserves few items. -/
theorem World.Counting.foldl (hmulti : ∀ σ, c.single σ = false) {w w' : World ι T} {t : ι}
    (hcall : w.Counting c t w') (actions : List (Action ι T)) (ha : ∀ a ∈ actions, a.actor ≠ t)
    (hfew : ∀ v ∈ actions.scanl (World.next c) w', ∀ σ, v.books.reserved σ < 2 ^ 31) :
    w.Counting c t (actions.foldl (World.next c) w') := by
  induction actions generalizing w' with
  | nil => exact hcall
  | cons a actions ih =>
      rw [List.scanl_cons, List.forall_mem_cons] at hfew
      rw [List.forall_mem_cons] at ha
      have hnext : (w'.next c a).Admissible c :=
        admissible_of_multi hmulti (hfew.2 _ (List.mem_of_mem_head? (by simp)))
      exact ih (.other hcall ha.1 hnext) ha.2 hfew.2

/-- A producer publishes an item after the loads of `RingCount` have begun; the consumers rest. -/
theorem ringCount_of_tail_kept_while_producing :
    let c : RingConfig := ⟨4, 3, 3, .kRingQueueVariable, false, false⟩
    let m : RingMem ℕ := ⟨{}, {}, fun _ => 0⟩
    let w : World Bool ℕ := (World.start m).next c (.enterCount true)
    let w' := (.run true :: .enter false ⟨.prod, fun _ => 7, 1⟩ ::
      List.replicate 7 (Action.run false)).foldl (World.next c) w
    w'.machine.mem.occupancy = 1 ∧ w'.machine.mem.cons.tail = w.machine.mem.cons.tail ∧
      ∃ count, ((w'.next c (.run true)).machine.pc true).count? = some count ∧
        (w'.machine.mem.cons.tail = w.machine.mem.cons.tail →
          c.report count = w.machine.mem.report c) ∧
        (w'.machine.mem.prod.tail = w.machine.mem.prod.tail →
          c.report count = w'.machine.mem.report c) ∧
        (w'.books.released .cons ≤ w.books.released .prod →
          count.toNat + (w'.books.released .cons - w.books.released .cons) =
              w.machine.mem.occupancy.toNat ∧
            count ≤ w'.machine.mem.occupancy) := by
  intro c m w w'
  have hmulti : ∀ σ, c.single σ = false := by decide
  have hring : buffRing 0 4 .kRingQueueVariable false false (fun _ => 0) = some (c, m) := rfl
  have hw : w.Reachable c m := World.reachable_foldl hmulti [.enterCount true] (by decide)
  have hfirst : w.Counting c true (w.next c (.run true)) :=
    .first rfl (admissible_of_multi hmulti (by decide))
  have hcall : w.Counting c true w' := by
    simp only [w']
    rw [List.foldl_cons]
    exact hfirst.foldl hmulti _ (by decide) (by decide)
  exact ⟨by decide, by decide, ringCount_of_tail_kept hring hw hcall⟩

end Restore.BuffRing
