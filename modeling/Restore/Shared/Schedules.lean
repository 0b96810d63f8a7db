import Mathlib.Logic.Relation

/-! # Schedules

A schedule is a list of actions. If the states that it goes through are all admissible, they are
reachable by admissible steps. -/

namespace Restore.Schedules

variable {S A : Type*}

/-- What actions can bring about if every one of them leads to an admissible state. -/
abbrev Reaches (next : S → A → S) (Admissible : S → Prop) : S → S → Prop :=
  Relation.ReflTransGen fun s s' => ∃ a, s' = next s a ∧ Admissible s'

variable {next : S → A → S} {Admissible : S → Prop} {s₀ s : S} {actions : List A}

theorem reaches_scanl (hs : Reaches next Admissible s₀ s)
    (hadm : ∀ s' ∈ actions.scanl next s, Admissible s') :
    ∀ s' ∈ actions.scanl next s, Reaches next Admissible s₀ s' := by
  induction actions generalizing s with
  | nil => simpa using hs
  | cons a actions ih =>
      rw [List.scanl_cons, List.forall_mem_cons] at hadm
      rw [List.scanl_cons, List.forall_mem_cons]
      have hnext : Admissible (next s a) := hadm.2 _ (List.mem_of_mem_head? (by simp))
      exact ⟨hs, ih (hs.tail ⟨a, rfl, hnext⟩) hadm.2⟩

theorem reaches_foldl (hs : Reaches next Admissible s₀ s)
    (hadm : ∀ s' ∈ actions.scanl next s, Admissible s') :
    Reaches next Admissible s₀ (actions.foldl next s) :=
  reaches_scanl hs hadm _ (List.mem_of_getLast? List.getLast?_scanl)

end Restore.Schedules
