import Restore.Verification.BuffRing.Reservations

/-! # Which thread is in which call

A thread comes to a side of the ring by entering a call there, and leaves it when the call
ends. No step of one thread moves another. -/

namespace Restore.BuffRing

variable {ι T : Type*} [DecidableEq ι] {c : RingConfig} {w : World ι T}

theorem Machine.goto_self_eq (s : Machine ι T) (t : ι) :
    s = Machine.goto ⟨s.mem, s.pc⟩ t (s.pc t) := by
  rw [Machine.goto, Function.update_eq_self]

/-- A step moves no other thread, and leaves its own on the side it was on or ends its call. -/
theorem Machine.run_eq_goto (s : Machine ι T) (t : ι) :
    ∃ mem pc, s.run c t = Machine.goto ⟨mem, s.pc⟩ t pc ∧
      ∀ σ, pc.side? = some σ → (s.pc t).side? = some σ := by
  cases hpc : s.pc t with
  | idle =>
      refine ⟨s.mem, .idle, ?_, fun σ h => h⟩
      simp only [Machine.run, hpc]
      rw [← hpc]
      exact Machine.goto_self_eq s t
  | loadTail call oldHead =>
      simp only [Machine.run, hpc]
      split
      · exact ⟨_, _, rfl, fun σ h => by cases h⟩
      · exact ⟨_, _, rfl, fun σ h => h⟩
  | moveHead call mv =>
      simp only [Machine.run, hpc, RingMem.casHead]
      split
      · exact ⟨_, _, rfl, fun σ h => h⟩
      · by_cases hhead : (s.mem.ht call.side).head = mv.oldHead
        · rw [if_pos hhead]
          exact ⟨_, _, rfl, fun σ h => h⟩
        · rw [if_neg hhead]
          exact ⟨_, _, rfl, fun σ h => h⟩
  | copy call mv i =>
      simp only [Machine.run, hpc]
      cases (ptrPairs c mv.oldHead mv.n)[i]? with
      | none =>
          refine ⟨_, _, rfl, fun σ h => ?_⟩
          split at h <;> exact h
      | some pair =>
          cases hside : call.side with
          | prod => exact ⟨_, _, rfl, fun σ h => h⟩
          | cons => exact ⟨_, _, rfl, fun σ h => by simpa only [Pc.side?, hside] using h⟩
  | awaitTail call mv =>
      simp only [Machine.run, hpc]
      split
      · exact ⟨_, _, rfl, fun σ h => h⟩
      · exact ⟨s.mem, s.pc t, Machine.goto_self_eq s t, fun σ h => by rwa [hpc] at h⟩
  | loadHead call =>
      simp only [Machine.run, hpc]
      exact ⟨_, _, rfl, fun σ h => h⟩
  | storeTail | returned | loadProdTail | loadConsTail | counted =>
      simp only [Machine.run, hpc]
      exact ⟨_, _, rfl, fun σ h => by cases h⟩

theorem side?_goto {s : Machine ι T} {t u : ι} {pc : Pc T}
    {σ : Side} (h : ((s.goto t pc).pc u).side? = some σ) :
    (s.pc u).side? = some σ ∨ u = t ∧ pc.side? = some σ := by
  rcases eq_or_ne u t with rfl | hne
  · rw [Machine.goto_pc_self] at h
    exact Or.inr ⟨rfl, h⟩
  · rw [Machine.goto_pc_of_ne _ hne] at h
    exact Or.inl h

/-- A thread is in a call on a side because it was, or because it enters it now. -/
theorem side?_next {a : Action ι T} {u : ι} {σ : Side}
    (h : ((w.next c a).machine.pc u).side? = some σ) :
    (w.machine.pc u).side? = some σ ∨ ∃ call, a = .enter u call ∧ call.side = σ := by
  cases a with
  | enter t call =>
      simp only [World.next, Machine.act] at h
      split at h
      · rcases side?_goto h with h | ⟨rfl, hside⟩
        · exact Or.inl h
        · exact Or.inr ⟨call, rfl, Option.some.inj hside⟩
      · exact Or.inl h
  | enterCount t =>
      simp only [World.next, Machine.act] at h
      split at h
      · rcases side?_goto h with h | ⟨-, hside⟩
        · exact Or.inl h
        · cases hside
      · exact Or.inl h
  | run t =>
      obtain ⟨mem, pc, hrun, hpc⟩ := Machine.run_eq_goto (c := c) w.machine t
      simp only [World.next, Machine.act, hrun] at h
      rcases side?_goto h with h | ⟨rfl, hside⟩
      · exact Or.inl h
      · exact Or.inl (hpc σ hside)

end Restore.BuffRing
