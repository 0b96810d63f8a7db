import Restore.Shared.Retry
import Restore.Verification.RwLock.Exclusion

/-! # Nobody waits in vain

An `AtomicCAS` on `cnt` fails only because another thread has taken the lock or given one back
since the load, and once the holders have given their locks back three steps take it. -/

namespace Restore.RwLock

open Retry

variable {ι : Type*}

/-- The value that the thread's next `AtomicCAS` expects. -/
def Pc.expected? : Pc → Option Int32
  | .readCas x | .tryCas x => some x
  | .writeCas => some 0
  | .idle | .readLoad | .tryLoad | .refused | .writeLoad | .reading | .writing => none

/-- What an action is to `cnt`: a lock taken or given back, a failed `AtomicCAS`, or nothing. -/
def Machine.cntEvent (s : Machine ι) : Action ι → Event ι
  | .enter _ _ => .other
  | .run t =>
      match (s.pc t).expected? with
      | some x => if s.cnt = x then .change t else .fail t
      | none => .other
  | .unlock t =>
      match s.pc t with
      | .reading | .writing => .change t
      | _ => .other

def Action.thread : Action ι → ι
  | .enter t _ | .run t | .unlock t => t

theorem Machine.thread_of_cntEvent {s : Machine ι} {a : Action ι} {t : ι}
    (h : s.cntEvent a = .fail t ∨ s.cntEvent a = .change t) : a.thread = t := by
  cases a with
  | enter => simp [cntEvent] at h
  | run u =>
      simp only [cntEvent] at h
      split at h
      · split at h
        all_goals simpa [Action.thread] using h
      · simp at h
  | unlock u =>
      simp only [cntEvent] at h
      split at h
      all_goals simp_all [Action.thread]

theorem Machine.expected_of_fail {s : Machine ι} {a : Action ι} {t : ι}
    (h : s.cntEvent a = .fail t) : ∃ x, (s.pc t).expected? = some x ∧ x ≠ s.cnt := by
  cases a with
  | enter => simp [cntEvent] at h
  | run u =>
      obtain rfl : u = t := thread_of_cntEvent (.inl h)
      simp only [cntEvent] at h
      split at h
      · next x hx =>
        split at h
        · cases h
        · next hne => exact ⟨x, hx, Ne.symm hne⟩
      · cases h
  | unlock u =>
      simp only [cntEvent] at h
      split at h
      all_goals cases h

variable [DecidableEq ι]

/-- The machine, with what its actions are to `cnt`. -/
def cntSystem : System (Machine ι) (Action ι) ι where
  next := Machine.act
  event := Machine.cntEvent

theorem Machine.goto_pc_eq (s : Machine ι) (t : ι) :
    { s with cnt := s.cnt }.goto t (s.pc t) = s := by
  rw [goto, Function.update_eq_self]

/-- An action moves one thread. It changes `cnt` as its event says, and leaves the thread with a
value to expect only if that is what `cnt` is, or what the thread expected anyway. -/
theorem Machine.act_eq_goto (s : Machine ι) (a : Action ι) :
    ∃ cnt pc, s.act a = { s with cnt }.goto a.thread pc ∧
      (cnt = s.cnt ∨ s.cntEvent a = .change a.thread) ∧
      ∀ x, pc.expected? = some x →
        s.cntEvent a = .other ∧ (x = cnt ∨ (s.pc a.thread).expected? = some x) := by
  have hstay (hevent : s.cntEvent a = .other) (hact : s.act a = s) :
      ∃ cnt pc, s.act a = { s with cnt }.goto a.thread pc ∧
        (cnt = s.cnt ∨ s.cntEvent a = .change a.thread) ∧
        ∀ x, pc.expected? = some x →
          s.cntEvent a = .other ∧ (x = cnt ∨ (s.pc a.thread).expected? = some x) :=
    ⟨s.cnt, s.pc a.thread, by rw [hact, goto_pc_eq], .inl rfl, fun x hx => ⟨hevent, .inr hx⟩⟩
  cases a with
  | enter t call =>
      by_cases hpc : s.pc t = .idle
      · refine ⟨s.cnt, call.entry, by simp [act, hpc, Action.thread], .inl rfl, fun x hx => ?_⟩
        cases call <;> simp [Call.entry, Pc.expected?] at hx
      · apply hstay rfl
        simp only [act]
  | unlock t =>
      cases hpc : s.pc t with
      | reading =>
          exact ⟨s.cnt - 1, .idle, by simp [act, unlock, hpc, Action.thread],
            .inr (by simp [cntEvent, hpc, Action.thread]), by simp [Pc.expected?]⟩
      | writing =>
          exact ⟨s.cnt + 1, .idle, by simp [act, unlock, hpc, Action.thread],
            .inr (by simp [cntEvent, hpc, Action.thread]), by simp [Pc.expected?]⟩
      | _ => exact hstay (by simp [cntEvent, hpc]) (by simp [act, unlock, hpc])
  | run t =>
      cases hpc : s.pc t with
      | readCas x | tryCas x =>
          by_cases hx : s.cnt = x
          · exact ⟨x + 1, .reading, by simp [act, run, hpc, atomicCAS, hx, Action.thread],
              .inr (by simp [cntEvent, hpc, Pc.expected?, hx, Action.thread]),
              by simp [Pc.expected?]⟩
          · refine ⟨s.cnt, _, by simp [act, run, hpc, atomicCAS, hx, Action.thread]; rfl,
              .inl rfl, by simp [Pc.expected?]⟩
      | writeCas =>
          by_cases hx : s.cnt = 0
          · exact ⟨-1, .writing, by simp [act, run, hpc, atomicCAS, hx, Action.thread],
              .inr (by simp [cntEvent, hpc, Pc.expected?, hx, Action.thread]),
              by simp [Pc.expected?]⟩
          · exact ⟨s.cnt, .writeLoad, by simp [act, run, hpc, atomicCAS, hx, Action.thread],
              .inl rfl, by simp [Pc.expected?]⟩
      | readLoad =>
          by_cases hneg : s.cnt < 0
          · exact hstay (by simp [cntEvent, hpc, Pc.expected?]) (by simp [act, run, hpc, hneg])
          · refine ⟨s.cnt, .readCas s.cnt, by simp [act, run, hpc, hneg, Action.thread], .inl rfl,
              fun x hx => ⟨by simp [cntEvent, hpc, Pc.expected?], .inl ?_⟩⟩
            exact (Option.some.inj hx).symm
      | tryLoad =>
          by_cases hneg : s.cnt < 0
          · exact ⟨s.cnt, .refused, by simp [act, run, hpc, hneg, Action.thread], .inl rfl,
              by simp [Pc.expected?]⟩
          · refine ⟨s.cnt, .tryCas s.cnt, by simp [act, run, hpc, hneg, Action.thread], .inl rfl,
              fun x hx => ⟨by simp [cntEvent, hpc, Pc.expected?], .inl ?_⟩⟩
            exact (Option.some.inj hx).symm
      | writeLoad =>
          by_cases hzero : s.cnt = 0
          · refine ⟨s.cnt, .writeCas, ?_, .inl rfl,
              fun x hx => ⟨by simp [cntEvent, hpc, Pc.expected?], .inl ?_⟩⟩
            · simp only [act, run, hpc, hzero, ne_eq, not_true, if_false]
              rw [← hzero]
              rfl
            · rw [hzero]
              exact (Option.some.inj hx).symm
          · exact hstay (by simp [cntEvent, hpc, Pc.expected?]) (by simp [act, run, hpc, hzero])
      | refused =>
          exact ⟨s.cnt, .idle, by simp [act, run, hpc, Action.thread], .inl rfl,
            by simp [Pc.expected?]⟩
      | idle | reading | writing =>
          exact hstay (by simp [cntEvent, hpc, Pc.expected?]) (by simp [act, run, hpc])

/-- A thread whose `AtomicCAS` has just failed or gone through expects nothing. -/
theorem Machine.expected?_act_of_event {s : Machine ι} {a : Action ι} (h : s.cntEvent a ≠ .other) :
    ((s.act a).pc a.thread).expected? = none := by
  obtain ⟨cnt, pc, hact, -, hpc⟩ := s.act_eq_goto a
  rw [hact, Machine.goto_pc_self, Option.eq_none_iff_forall_ne_some]
  exact fun x hx => h (hpc x hx).1

/-- `cnt` is a cell that threads load and swap. -/
theorem cntSystem_loads : (cntSystem : System (Machine ι) (Action ι) ι).Loads Machine.cnt
    fun s t => (s.pc t).expected? where
  kept s a h := by
    obtain ⟨cnt, pc, hact, hcnt, -⟩ := s.act_eq_goto a
    have hnext : cntSystem.next s a = { s with cnt }.goto a.thread pc := hact
    rw [hnext]
    exact hcnt.resolve_right (h a.thread)
  fresh s a t v h := by
    obtain ⟨cnt, pc, hact, -, hpc⟩ := s.act_eq_goto a
    have hnext : cntSystem.next s a = { s with cnt }.goto a.thread pc := hact
    rw [hnext] at h ⊢
    rcases eq_or_ne t a.thread with rfl | hne
    · rw [Machine.goto_pc_self] at h
      exact (hpc v h).2.symm
    · rw [Machine.goto_pc_of_ne _ hne] at h
      exact .inl h
  stale s a t h := Machine.expected_of_fail h
  failed s a t h := by
    obtain rfl := Machine.thread_of_cntEvent (.inl h)
    refine Machine.expected?_act_of_event fun hother => ?_
    exact nomatch hother.symm.trans h
  changed s a t h := by
    obtain rfl := Machine.thread_of_cntEvent (.inr h)
    refine Machine.expected?_act_of_event fun hother => ?_
    exact nomatch hother.symm.trans h

/-- Whatever the schedule, the `AtomicCAS`es of a thread on `cnt` that fail number at most the
locks that other threads take or give back in that time. -/
theorem failed_cas_le_transfers (s : Machine ι) (t : ι) (ht : (s.pc t).expected? = none)
    (acts : List (Action ι)) :
    cntSystem.count (Event.isFailOf t) s acts ≤
      cntSystem.count (Event.isChangeBeside t) s acts :=
  cntSystem_loads.count_le ht acts

/-- Two readers load 0, and the second one to swap it fails once. -/
theorem failed_cas_le_transfers_readers :
    let s : Machine Bool := ⟨0, fun _ => .idle⟩
    let acts : List (Action Bool) := [.enter false .rwlockReadLock, .enter true .rwlockReadTrylock,
      .run false, .run true, .run true, .run false]
    cntSystem.count (Event.isFailOf false) s acts = 1 ∧
      cntSystem.count (Event.isFailOf false) s acts ≤
        cntSystem.count (Event.isChangeBeside false) s acts :=
  ⟨by decide, failed_cas_le_transfers _ _ rfl _⟩

/-! ## The lock comes free -/

/-- Inside the loop of one of the three locking calls. -/
def Pc.Acquiring (pc : Pc) : Prop := pc ≠ .idle ∧ pc ≠ .refused ∧ ¬ pc.Holds

theorem Machine.unlock_pc_of_ne (s : Machine ι) {t u : ι} (hu : u ≠ t) :
    (s.unlock t).pc u = s.pc u := by
  rw [unlock]
  split
  all_goals first | rfl | exact Machine.goto_pc_of_ne _ hu _

theorem Machine.unlock_not_holds (s : Machine ι) (t : ι) : ¬((s.unlock t).pc t).Holds := by
  cases hpc : s.pc t <;> simp [unlock, hpc, Pc.Holds]

theorem Machine.unlock_pc_of_not_holds (s : Machine ι) {t : ι} (u : ι) (ht : ¬(s.pc t).Holds) :
    (s.unlock u).pc t = s.pc t := by
  rcases eq_or_ne t u with rfl | hne
  · simp only [Pc.Holds, not_or] at ht
    rw [unlock]
    split
    · exact absurd ‹_› ht.1
    · exact absurd ‹_› ht.2
    · rfl
  · exact s.unlock_pc_of_ne hne

variable [Fintype ι]

/-- Threads that give back what they hold leave alone those that hold nothing. -/
theorem unlocks_pc (us : List ι) (w : World ι) {t : ι} (ht : ¬(w.machine.pc t).Holds) :
    ((us.map Action.unlock).foldl World.next w).machine.pc t = w.machine.pc t := by
  induction us generalizing w with
  | nil => rfl
  | cons u us ih =>
      have hpc : (w.next (.unlock u)).machine.pc t = w.machine.pc t :=
        w.machine.unlock_pc_of_not_holds u ht
      rw [List.map_cons, List.foldl_cons, ih _ (by rwa [hpc]), hpc]

theorem unlocks_not_holds (us : List ι) (w : World ι) {t : ι} (ht : t ∈ us) :
    ¬(((us.map Action.unlock).foldl World.next w).machine.pc t).Holds := by
  induction us generalizing w with
  | nil => cases ht
  | cons u us ih =>
      rw [List.map_cons, List.foldl_cons]
      rcases List.mem_cons.mp ht with rfl | hmem
      · have hfree : ¬((w.next (.unlock t)).machine.pc t).Holds := w.machine.unlock_not_holds t
        rwa [unlocks_pc us _ hfree]
      · exact ih _ hmem

omit [DecidableEq ι] in
/-- `cnt` is 0 when nobody holds the lock. -/
theorem Machine.Exclusive.cnt_eq_zero {s : Machine ι} (h : s.Exclusive)
    (hfree : ∀ t, ¬(s.pc t).Holds) : s.cnt = 0 := by
  have hwrite : ¬s.WriteHeld := fun ⟨t, ht⟩ => hfree t (.inr ht)
  have hread : s.readers = 0 := by
    rw [readers, Finset.card_eq_zero, Finset.filter_eq_empty_iff]
    exact fun t _ ht => hfree t (.inl ht)
  have hcnt := h.cnt_eq_readers hwrite
  rw [hread] at hcnt
  exact Int32.toInt_inj.mp hcnt

/-- A thread that runs alone on a free lock takes it within three steps. -/
theorem acquires_alone {w : World ι} {t : ι} (hcnt : w.machine.cnt = 0)
    (ht : (w.machine.pc t).Acquiring) :
    ∃ n ≤ 3, (((List.replicate n (Action.run t)).foldl World.next w).machine.pc t).Holds := by
  cases hpc : w.machine.pc t with
  | idle | refused | reading | writing => simp [hpc, Pc.Acquiring, Pc.Holds] at ht
  | readLoad | tryLoad | writeLoad =>
      refine ⟨2, by decide, ?_⟩
      simp [World.next, Machine.act, Machine.run, hpc, hcnt, Machine.goto, atomicCAS, Pc.Holds]
  | readCas x | tryCas x =>
      by_cases hx : x = 0
      · refine ⟨1, by decide, ?_⟩
        simp [World.next, Machine.act, Machine.run, hpc, hcnt, hx, Machine.goto, atomicCAS,
          Pc.Holds]
      · -- the swap misses, and the loop starts again from the value there is
        refine ⟨3, by decide, ?_⟩
        simp [World.next, Machine.act, Machine.run, hpc, hcnt, Ne.symm hx, Machine.goto,
          atomicCAS, Pc.Holds]
  | writeCas =>
      refine ⟨1, by decide, ?_⟩
      simp [World.next, Machine.act, Machine.run, hpc, hcnt, Machine.goto, atomicCAS, Pc.Holds]

theorem World.reachable_run {w : World ι} (hw : w.Reachable) (acts : List (Action ι)) :
    (acts.foldl World.next w).Reachable := by
  induction acts generalizing w with
  | nil => exact hw
  | cons a acts ih => exact ih (hw.tail ⟨a, rfl⟩)

/-- No reachable state leaves a caller stuck: once every holder has given its lock back, which
each can do at once, at most three steps of the caller take the lock. -/
theorem reachable_acquires {w : World ι} (hw : w.Reachable) (hcard : Fintype.card ι < 2 ^ 31)
    {t : ι} (ht : (w.machine.pc t).Acquiring) :
    ∃ n ≤ 3, (((Finset.univ.toList.map Action.unlock ++ List.replicate n (Action.run t)).foldl
      World.next w).machine.pc t).Holds := by
  have hfree : (((Finset.univ.toList.map Action.unlock).foldl World.next w).machine).cnt = 0 :=
    ((World.reachable_run hw _).sound hcard).exclusive.cnt_eq_zero fun u =>
      unlocks_not_holds _ w (Finset.mem_toList.mpr (Finset.mem_univ u))
  have hpc := unlocks_pc Finset.univ.toList w ht.2.2
  obtain ⟨n, hn, hholds⟩ := acquires_alone hfree (by rwa [hpc])
  exact ⟨n, hn, by rwa [List.foldl_append]⟩

/-- A writer waits while a reader holds the lock. -/
theorem reachable_acquires_writer :
    let w := [.enter false .rwlockReadLock, .run false, .run false, .enter true .rwlockWriteLock,
      .run true].foldl World.next (World.start : World Bool)
    w.machine.pc false = .reading ∧ w.machine.pc true = .writeLoad ∧
      ∃ n ≤ 3, (((Finset.univ.toList.map Action.unlock ++
        List.replicate n (Action.run true)).foldl World.next w).machine.pc true).Holds :=
  ⟨by decide, by decide, reachable_acquires (World.reachable_foldl _) (by decide)
    ⟨by decide, by decide, by simp [Pc.Holds]; decide⟩⟩

end Restore.RwLock
