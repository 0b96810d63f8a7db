import Mathlib.Data.Nat.Notation
import Mathlib.Order.Lattice

/-! # Loops that may run for ever

Such a loop is a function of the rounds it is granted, and `none` says that they did
not suffice. That the loop ends is a statement about every sufficiently large grant. -/

namespace Restore.Rounds

variable {α β : Type*} {run : ℕ → Option α}

/-- A result once reached is the result of every larger grant. -/
def Stable (run : ℕ → Option α) : Prop :=
  ∀ ⦃fuel more x⦄, fuel ≤ more → run fuel = some x → run more = some x

/-- Granted enough rounds the loop ends, always with one result, and `post` holds of it. -/
def EndsWith (run : ℕ → Option α) (post : α → Prop) : Prop :=
  ∃ x, post x ∧ ∃ rounds, ∀ fuel, rounds ≤ fuel → run fuel = some x

theorem Stable.unique (h : Stable run) {m n : ℕ} {x y : α} (hx : run m = some x)
    (hy : run n = some y) : x = y := by
  have hxmax := h (le_max_left m n) hx
  have hymax := h (le_max_right m n) hy
  exact Option.some.inj (hxmax.symm.trans hymax)

theorem Stable.map (h : Stable run) (f : α → β) : Stable fun fuel => (run fuel).map f := by
  intro fuel more y hle hy
  obtain ⟨x, hx, rfl⟩ := Option.map_eq_some_iff.mp hy
  exact Option.map_eq_some_iff.mpr ⟨x, h hle hx, rfl⟩

/-- One grant that suffices settles how a stable loop ends. -/
theorem Stable.endsWith_iff (h : Stable run) {post : α → Prop} :
    EndsWith run post ↔ ∃ fuel x, run fuel = some x ∧ post x := by
  constructor
  · rintro ⟨x, hpost, rounds, hrun⟩
    exact ⟨rounds, x, hrun rounds le_rfl, hpost⟩
  · rintro ⟨fuel, x, hrun, hpost⟩
    exact ⟨x, hpost, fuel, fun more hle => h hle hrun⟩

/-- Work on the result after the loop moves into the postcondition. -/
theorem Stable.endsWith_map (h : Stable run) (f : α → β) {post : β → Prop} :
    EndsWith (fun fuel => (run fuel).map f) post ↔ EndsWith run fun x => post (f x) := by
  simp [(h.map f).endsWith_iff, h.endsWith_iff]

end Restore.Rounds
