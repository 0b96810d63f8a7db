import Restore.Shared.Retry
import Restore.Verification.BuffRing.Calls
import Restore.Verification.BuffRing.Linearization

/-! # Head moves are lock-free

An `AtomicCAS` on a head fails only because another call has moved that head since it was
loaded, so a thread never retries more often than others get their reservations. -/

namespace Restore.BuffRing

open Retry

variable {ι T : Type*} {c : RingConfig} {σ : Side}

/-- The head of side `σ` that a thread has loaded in the loop iteration it is in. -/
def Pc.loadedHead (σ : Side) : Pc T → Option UInt32
  | .loadTail call oldHead => if call.side = σ then some oldHead else none
  | .moveHead call mv => if call.side = σ then some mv.oldHead else none
  | _ => none

/-- What an action is to the head of side `σ`: a head move, a failed `AtomicCAS`, or nothing. -/
def Machine.headEvent (c : RingConfig) (σ : Side) (s : Machine ι T) : Action ι T → Event ι
  | .run t =>
      match s.pc t with
      | .moveHead call mv =>
          if call.side = σ then
            if c.single σ ∨ (s.mem.ht σ).head = mv.oldHead then .change t else .fail t
          else .other
      | _ => .other
  | _ => .other

variable [DecidableEq ι]

/-- The machine, with what its actions are to one head. -/
def headSystem (c : RingConfig) (σ : Side) : System (Machine ι T) (Action ι T) ι where
  next := Machine.act c
  event := Machine.headEvent c σ

theorem loadedHead_goto {s : Machine ι T} {t u : ι} {pc : Pc T} {v : UInt32}
    (h : ((s.goto t pc).pc u).loadedHead σ = some v) :
    (s.pc u).loadedHead σ = some v ∨ pc.loadedHead σ = some v := by
  rcases eq_or_ne u t with rfl | hne
  · rw [Machine.goto_pc_self] at h
    exact .inr h
  · rw [Machine.goto_pc_of_ne _ hne] at h
    exact .inl h

omit [DecidableEq ι] in
/-- A thread that moves a head, or tries to, has loaded it. -/
theorem Machine.headEvent_run {s : Machine ι T} {a : Action ι T} {t : ι}
    (h : s.headEvent c σ a = .fail t ∨ s.headEvent c σ a = .change t) :
    ∃ call mv, a = .run t ∧ s.pc t = .moveHead call mv ∧ call.side = σ ∧
      s.headEvent c σ a =
        if c.single σ ∨ (s.mem.ht σ).head = mv.oldHead then .change t else .fail t := by
  cases a with
  | enter | enterCount => simp [Machine.headEvent] at h
  | run u =>
      cases hpc : s.pc u with
      | moveHead call mv =>
          by_cases hside : call.side = σ
          · have hevent : s.headEvent c σ (.run u) =
                if c.single σ ∨ (s.mem.ht σ).head = mv.oldHead then .change u else .fail u := by
              simp only [Machine.headEvent, hpc, hside, if_true]
            obtain rfl : u = t := by
              rw [hevent] at h
              split at h
              all_goals simpa using h
            exact ⟨call, mv, rfl, hpc, hside, hevent⟩
          · simp [Machine.headEvent, hpc, hside] at h
      | _ => simp [Machine.headEvent, hpc] at h

/-- A step moves the head of side `σ` as its event says. -/
theorem Machine.run_head (s : Machine ι T) (t : ι) :
    ((s.run c t).mem.ht σ).head = (s.mem.ht σ).head ∨
      s.headEvent c σ (.run t) = .change t := by
  cases hpc : s.pc t with
  | loadTail call oldHead =>
      simp only [Machine.run, hpc]
      split
      all_goals exact .inl rfl
  | moveHead call mv =>
      by_cases hmoves : c.single call.side = true ∨ (s.mem.ht call.side).head = mv.oldHead
      · by_cases hside : call.side = σ
        · subst hside
          exact .inr (by simp only [Machine.headEvent, hpc, if_true, if_pos hmoves])
        · left
          have hother := RingMem.ht_setHead_of_ne s.mem call.side mv.newHead (Ne.symm hside)
          by_cases hs : c.single call.side = true
          · simp only [Machine.run, hpc, hs, if_true, Machine.goto, hother]
          · simp only [Machine.run, hpc, RingMem.casHead, if_neg hs,
              if_pos (hmoves.resolve_left hs), Machine.goto, hother]
      · rw [not_or] at hmoves
        simp only [Machine.run, hpc, RingMem.casHead, if_neg hmoves.1, if_neg hmoves.2]
        exact .inl rfl
  | copy call mv i =>
      simp only [Machine.run, hpc]
      left
      split
      · split
        · cases σ <;> rfl
        · rfl
      · rfl
  | awaitTail call mv =>
      simp only [Machine.run, hpc]
      left
      split
      all_goals rfl
  | storeTail call mv =>
      left
      simp only [Machine.run, hpc, Machine.goto]
      cases call.side <;> cases σ <;> rfl
  | idle | loadHead | loadProdTail | loadConsTail | returned | counted =>
      left
      simp only [Machine.run, hpc, Machine.goto]

/-- The head that a thread has loaded is the one it had loaded, or the one there is. -/
theorem Machine.run_loadedHead {s : Machine ι T} {t u : ι} {v : UInt32}
    (h : ((s.run c t).pc u).loadedHead σ = some v) :
    (s.pc u).loadedHead σ = some v ∨ v = ((s.run c t).mem.ht σ).head := by
  rcases eq_or_ne u t with rfl | hne
  · cases hpc : s.pc u with
    | loadHead call =>
        simp only [Machine.run, hpc, Machine.goto_pc_self, Pc.loadedHead] at h ⊢
        split at h
        · next hside =>
          subst hside
          exact .inr (Option.some.inj h).symm
        · cases h
    | loadTail call oldHead =>
        left
        simp only [Machine.run, hpc] at h
        split at h
        · rw [Machine.goto_pc_self] at h
          cases h
        · rwa [Machine.goto_pc_self] at h
    | moveHead call mv =>
        simp only [Machine.run, hpc, RingMem.casHead] at h
        split at h
        · simp [Machine.goto, Pc.loadedHead] at h
        · by_cases hhead : (s.mem.ht call.side).head = mv.oldHead
          · simp [Machine.goto, hhead, Pc.loadedHead] at h
          · simp [Machine.goto, hhead, Pc.loadedHead] at h
    | copy call mv i =>
        simp only [Machine.run, hpc] at h
        split at h
        · split at h
          all_goals simp [Machine.goto, Pc.loadedHead] at h
        · split at h
          all_goals simp [Machine.goto, Pc.loadedHead] at h
    | awaitTail call mv =>
        simp only [Machine.run, hpc] at h
        split at h
        · simp [Machine.goto, Pc.loadedHead] at h
        · simp [hpc, Pc.loadedHead] at h
    | idle => simp [Machine.run, hpc, Pc.loadedHead] at h
    | storeTail | loadProdTail | loadConsTail | returned | counted =>
        simp [Machine.run, hpc, Machine.goto, Pc.loadedHead] at h
  · left
    obtain ⟨mem, pc, hrun, -⟩ := s.run_eq_goto (c := c) t
    rwa [hrun, Machine.goto_pc_of_ne _ hne] at h

/-- A thread whose `AtomicCAS` has just failed or moved the head has none loaded. -/
theorem Machine.run_moveHead_loadedHead {s : Machine ι T} {t : ι} {call : Call T} {mv : HeadMove}
    (hpc : s.pc t = .moveHead call mv) : ((s.run c t).pc t).loadedHead σ = none := by
  simp only [Machine.run, hpc, RingMem.casHead]
  split
  · rw [Machine.goto_pc_self]
    rfl
  · by_cases hhead : (s.mem.ht call.side).head = mv.oldHead
    · rw [if_pos hhead, Machine.goto_pc_self]
      rfl
    · rw [if_neg hhead, Machine.goto_pc_self]
      rfl

/-- The head is a cell that threads load and swap. -/
theorem headSystem_loads (c : RingConfig) (σ : Side) :
    (headSystem c σ).Loads (fun s : Machine ι T => (s.mem.ht σ).head)
      fun s t => (s.pc t).loadedHead σ where
  kept s a h := by
    cases a with
    | run t => exact (s.run_head t).resolve_right (h t)
    | enter t call =>
        simp only [headSystem, Machine.act]
        split
        all_goals rfl
    | enterCount t =>
        simp only [headSystem, Machine.act]
        split
        all_goals rfl
  fresh s a t v h := by
    cases a with
    | run u => exact Machine.run_loadedHead h
    | enter u call =>
        left
        simp only [headSystem, Machine.act] at h
        split at h
        · exact (loadedHead_goto h).resolve_right (by simp [Pc.loadedHead])
        · exact h
    | enterCount u =>
        left
        simp only [headSystem, Machine.act] at h
        split at h
        · exact (loadedHead_goto h).resolve_right (by simp [Pc.loadedHead])
        · exact h
  stale s a t h := by
    obtain ⟨call, mv, rfl, hpc, rfl, hevent⟩ := Machine.headEvent_run (.inl h)
    refine ⟨mv.oldHead, by simp only [hpc, Pc.loadedHead, if_true], fun heq => ?_⟩
    have hchange : (headSystem c call.side).event s (.run t) = .change t := by
      exact hevent.trans (if_pos (.inr heq.symm))
    rw [hchange] at h
    cases h
  failed s a t h := by
    obtain ⟨call, mv, rfl, hpc, -, -⟩ := Machine.headEvent_run (.inl h)
    exact Machine.run_moveHead_loadedHead hpc
  changed s a t h := by
    obtain ⟨call, mv, rfl, hpc, -, -⟩ := Machine.headEvent_run (.inr h)
    exact Machine.run_moveHead_loadedHead hpc

/-! ## Head moves are reservations -/

/-- The books enter one reservation for each head move. -/
theorem World.next_counts_length (w : World ι T) (a : Action ι T) :
    ((w.next c a).books.counts σ).length =
      (if (w.machine.headEvent c σ a).isChange then 1 else 0) + (w.books.counts σ).length := by
  cases a with
  | enter | enterCount => simp [World.next, Books.record, Machine.headEvent, Event.isChange]
  | run t =>
      cases hpc : w.machine.pc t with
      | moveHead call mv =>
          simp only [World.next, Books.record, Machine.headEvent, hpc]
          by_cases hmoves : c.single call.side = true ∨
            (w.machine.mem.ht call.side).head = mv.oldHead
          · rw [if_pos hmoves, Books.reserve_counts]
            by_cases hside : call.side = σ
            · subst hside
              simp [hmoves, Event.isChange, Nat.add_comm]
            · simp [hside, Event.isChange]
          · rw [if_neg hmoves]
            by_cases hside : call.side = σ
            · subst hside
              simp [hmoves, Event.isChange]
            · simp [hside, Event.isChange]
      | storeTail call mv =>
          simp [World.next, Books.record, Machine.headEvent, hpc, Event.isChange,
            Books.release_counts]
      | loadHead call =>
          simp only [World.next, Books.record, Machine.headEvent, hpc, Event.isChange]
          cases σ <;> simp [Books.counts]
      | _ => simp [World.next, Books.record, Machine.headEvent, hpc, Event.isChange]

/-- The reservations made over a run are its head moves. -/
theorem count_isChange (w : World ι T) (acts : List (Action ι T)) :
    ((acts.foldl (World.next c) w).books.counts σ).length =
      (headSystem c σ).count Event.isChange w.machine acts + (w.books.counts σ).length := by
  induction acts generalizing w with
  | nil => simp [System.count]
  | cons a acts ih =>
      have hevent : (headSystem c σ).event w.machine a = w.machine.headEvent c σ a := rfl
      have hnext : (headSystem c σ).next w.machine a = (w.next c a).machine := rfl
      rw [List.foldl_cons, ih (w.next c a), World.next_counts_length, System.count, hevent, hnext]
      omega

/-- Whatever the schedule, the failed `AtomicCAS`es of a thread on a head and its own
reservations there number at most the reservations that all threads make in that time: a thread
loses a round only when another call goes on. -/
theorem failed_cas_le_reservations (c : RingConfig) (σ : Side) (w : World ι T) (t : ι)
    (ht : (w.machine.pc t).loadedHead σ = none) (acts : List (Action ι T)) :
    (headSystem c σ).count (Event.isFailOf t) w.machine acts +
        (headSystem c σ).count (Event.isChangeOf t) w.machine acts +
        (w.books.counts σ).length ≤
      ((acts.foldl (World.next c) w).books.counts σ).length := by
  rw [count_isChange]
  apply Nat.add_le_add_right
  exact (headSystem_loads c σ).count_add_le ht acts

/-- Two threads load the same head, and the second one to swap it fails once. -/
theorem failed_cas_le_reservations_two :
    let c : RingConfig := ⟨4, 3, 3, .kRingQueueVariable, false, false⟩
    let w : World Bool ℕ := World.start ⟨{}, {}, fun _ => 0⟩
    let acts : List (Action Bool ℕ) :=
      [.enter false ⟨.prod, fun _ => 7, 1⟩, .enter true ⟨.prod, fun _ => 8, 1⟩,
        .run false, .run false, .run true, .run true, .run true, .run false]
    (headSystem c .prod).count (Event.isFailOf false) w.machine acts = 1 ∧
      (headSystem c .prod).count (Event.isFailOf false) w.machine acts +
          (headSystem c .prod).count (Event.isChangeOf false) w.machine acts +
          (w.books.counts .prod).length ≤
        ((acts.foldl (World.next c) w).books.counts .prod).length :=
  ⟨by decide, failed_cas_le_reservations _ _ _ _ rfl _⟩

end Restore.BuffRing
