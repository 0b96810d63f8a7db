import Restore.Verification.BuffRing.Exclusion

/-! # Published ranges follow one another

On each side the call whose range starts at the tail never waits, so some call can always
go on, and the tail moves over one range after the other. -/

namespace Restore.BuffRing

open Restore.Counter

variable {ι T : Type*}

/-- The thread is in `UpdateTail`, in front of a tail that is not the one it waits for. -/
def Machine.Waits (s : Machine ι T) (t : ι) : Prop :=
  ∃ call mv, s.pc t = .awaitTail call mv ∧ (s.mem.ht call.side).tail ≠ mv.oldHead

/-- How many steps a call with a reservation has left up to its tail store, if it does not
have to wait. -/
def Pc.remaining (c : RingConfig) : Pc T → ℕ
  | .copy _ mv i => (ptrPairs c mv.oldHead mv.n).length - i + 3
  | .awaitTail _ _ => 2
  | .storeTail _ _ => 1
  | _ => 0

variable {c : RingConfig} {w : World ι T} {W : Side → Window ι}

/-! ## Ranges and reservations -/

theorem World.Tracks.held_of_side (h : w.Tracks c W) {σ : Side} {t : ι} {mv : HeadMove}
    (hmv : (w.machine.pc t).reservation? = some mv) (hside : (w.machine.pc t).side? = some σ) :
    (W σ).held t = some (w.books.seen t, mv.n.toNat) := by
  rw [h.held_eq]
  cases hpc : w.machine.pc t with
  | copy call mv' _ | awaitTail call mv' | storeTail call mv' =>
      rw [hpc] at hmv hside
      obtain rfl := Option.some.inj hmv
      obtain rfl := Option.some.inj hside
      exact if_pos rfl
  | _ => simp [hpc, Pc.reservation?] at hmv

theorem World.Tracks.reservation_of_held (h : w.Tracks c W) {σ : Side} {t : ι} {a n : ℕ}
    (hheld : (W σ).held t = some (a, n)) :
    ∃ mv, (w.machine.pc t).reservation? = some mv ∧ (w.machine.pc t).side? = some σ ∧
      mv.oldHead = word a := by
  have hsound := h.sound t
  rw [h.held_eq] at hheld
  cases hpc : w.machine.pc t with
  | copy call mv _ | awaitTail call mv | storeTail call mv =>
      rw [hpc] at hheld hsound
      simp only [Pc.claim] at hheld
      split at hheld
      next hside =>
        obtain ⟨rfl, -⟩ := Prod.mk.inj (Option.some.inj hheld)
        exact ⟨mv, rfl, congrArg some hside, hsound.1⟩
      next => cases hheld
  | _ => simp [hpc, Pc.claim] at hheld

/-- While a range is reserved and not published, some call holds the range at the tail. -/
theorem World.Tracks.exists_first (h : w.Tracks c W) {σ : Side} {t : ι} {mv : HeadMove}
    (hmv : (w.machine.pc t).reservation? = some mv) (hside : (w.machine.pc t).side? = some σ) :
    ∃ u mv', (w.machine.pc u).reservation? = some mv' ∧ (w.machine.pc u).side? = some σ ∧
      mv'.oldHead = (w.machine.mem.ht σ).tail := by
  have hlt := (W σ).tail_lt_head_of_held (h.held_of_side hmv hside)
  obtain ⟨u, n, hfirst⟩ := (W σ).exists_first hlt
  obtain ⟨mv', hmv', hside', hold⟩ := h.reservation_of_held hfirst
  exact ⟨u, mv', hmv', hside', by rw [hold, h.tail_eq]⟩

/-! ## Steps of the first call -/

theorem not_waits_of_first {σ : Side} {u : ι} {mv : HeadMove}
    (hmv : (w.machine.pc u).reservation? = some mv) (hside : (w.machine.pc u).side? = some σ)
    (hfirst : mv.oldHead = (w.machine.mem.ht σ).tail) : ¬w.machine.Waits u := by
  rintro ⟨call, mv', hpc, hne⟩
  rw [hpc] at hmv hside
  obtain rfl := Option.some.inj hmv
  obtain rfl := Option.some.inj hside
  exact hne hfirst.symm

variable [DecidableEq ι]

/-- A call with a reservation that does not wait comes one step closer to its tail store. -/
theorem remaining_lt {u : ι} {mv : HeadMove} (hmv : (w.machine.pc u).reservation? = some mv)
    (hfree : ¬w.machine.Waits u) :
    ((w.next c (.run u)).machine.pc u).remaining c < (w.machine.pc u).remaining c := by
  cases hpc : w.machine.pc u with
  | copy call mv i =>
      simp only [World.next, Machine.act, Machine.run, hpc]
      cases hpair : (ptrPairs c mv.oldHead mv.n)[i]? with
      | some pair =>
          have hi := (List.getElem?_eq_some_iff.mp hpair).1
          cases hside : call.side <;>
            simp only [Machine.goto_pc_self, Pc.remaining] <;> omega
      | none =>
          dsimp only
          rw [Machine.goto_pc_self]
          split <;> simp only [Pc.remaining] <;> omega
  | awaitTail call mv =>
      have hready : (w.machine.mem.ht call.side).tail = mv.oldHead :=
        Classical.not_not.mp fun hne => hfree ⟨call, mv, hpc, hne⟩
      simp only [World.next, Machine.act, Machine.run, hpc, if_pos hready, Machine.goto_pc_self]
      exact Nat.lt_succ_self 1
  | storeTail call mv =>
      simp only [World.next, Machine.act, Machine.run, hpc, Machine.goto_pc_self]
      exact Nat.lt_succ_self 0
  | _ => simp [hpc, Pc.reservation?] at hmv

/-- A tail store moves the tail by the count of its own call. -/
theorem World.Tracks.store_advances (h : w.Tracks c W) {t : ι} {call : Call T} {mv : HeadMove}
    (hpc : w.machine.pc t = .storeTail call mv) :
    ((w.next c (.run t)).machine.mem.ht call.side).tail =
      (w.machine.mem.ht call.side).tail + mv.n := by
  have hsound := h.sound t
  rw [hpc] at hsound
  obtain ⟨hold, hnew, hseen⟩ := hsound
  simp only [World.next, Machine.act, Machine.run, hpc, Machine.goto]
  rw [RingMem.ht_setTail_self, hnew, hold, hseen, h.tail_eq]

/-! ## Runs -/

/-- Whatever threads do, a side on which some call has a reservation has a call whose range
starts at the tail; it does not wait, each of its steps brings it closer to its tail store,
and a tail store moves the tail by the count of the storing call. -/
theorem publishing_never_stuck {size : UInt32} {fuel : ℕ} {behavior : BuffRingBehavior}
    {sp sc : Bool} {data : ℕ → T} {m : RingMem T}
    (hring : buffRing fuel size behavior sp sc data = some (c, m)) (hw : w.Reachable c m) :
    (∀ σ t mv, (w.machine.pc t).reservation? = some mv → (w.machine.pc t).side? = some σ →
      ∃ u mv', (w.machine.pc u).reservation? = some mv' ∧ (w.machine.pc u).side? = some σ ∧
        mv'.oldHead = (w.machine.mem.ht σ).tail ∧ ¬w.machine.Waits u ∧
        ((w.next c (.run u)).machine.pc u).remaining c < (w.machine.pc u).remaining c) ∧
    ∀ t call mv, w.machine.pc t = .storeTail call mv →
      ((w.next c (.run t)).machine.mem.ht call.side).tail =
        (w.machine.mem.ht call.side).tail + mv.n := by
  obtain ⟨rfl, bits, hc⟩ := buffRing_sized hring
  obtain ⟨-, W, h⟩ := hw.tracks hc rfl rfl
  refine ⟨fun σ t mv hmv hside => ?_, fun t call mv hpc => h.store_advances hpc⟩
  obtain ⟨u, mv', hmv', hside', hfirst⟩ := h.exists_first hmv hside
  have hfree := not_waits_of_first hmv' hside' hfirst
  exact ⟨u, mv', hmv', hside', hfirst, hfree, remaining_lt hmv' hfree⟩

/-- Two producers hold a range each, and the second one is in `UpdateTail` already. -/
theorem publishing_never_stuck_of_two_producers :
    let c : RingConfig := ⟨4, 3, 3, .kRingQueueVariable, false, false⟩
    let call : Call ℕ := ⟨.prod, fun _ => 7, 1⟩
    let w : World Bool ℕ := [Action.enter false call, .run false, .run false, .run false,
      .enter true call, .run true, .run true, .run true, .run true, .run true].foldl
        (World.next c) (World.start ⟨{}, {}, fun _ => 0⟩)
    (w.machine.pc true).remaining c = 2 ∧ ∃ u mv, (w.machine.pc u).reservation? = some mv ∧
      mv.oldHead = (w.machine.mem.ht .prod).tail ∧ ¬w.machine.Waits u := by
  intro c call w
  have hw : w.Reachable c ⟨{}, {}, fun _ => 0⟩ := World.reachable_foldl (by decide) _ (by decide)
  have hring : buffRing 0 4 .kRingQueueVariable false false (fun _ => 0) =
      some (c, ⟨{}, {}, fun _ => 0⟩) := rfl
  obtain ⟨u, mv, hmv, -, hfirst, hfree, -⟩ :=
    (publishing_never_stuck hring hw).1 .prod true ⟨1, 1, 2, 2⟩ (by decide) (by decide)
  exact ⟨by decide, u, mv, hmv, hfirst, hfree⟩

end Restore.BuffRing
