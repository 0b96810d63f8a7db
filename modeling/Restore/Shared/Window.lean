import Mathlib.Logic.Function.Basic
import Mathlib.Order.Lattice

/-! # Ticket windows

Parties reserve consecutive ranges of a line by moving `head` forward and retire
them by moving `tail` forward. The ranges still held cover `[tail, head)` exactly,
so a window with a gap, an overlap or a range outside it cannot be built. -/

namespace Restore

/-- The held ranges, given by start and length, tile the space from `tail` to `head`. -/
structure Window (ι : Type*) where
  tail : ℕ
  head : ℕ
  held : ι → Option (ℕ × ℕ)
  tail_le_head : tail ≤ head
  within : ∀ {t a n}, held t = some (a, n) → tail ≤ a ∧ 0 < n ∧ a + n ≤ head
  apart : ∀ {t u a n b m}, t ≠ u → held t = some (a, n) → held u = some (b, m) →
    a + n ≤ b ∨ b + m ≤ a
  tiled : ∀ k, tail ≤ k → k < head → ∃ t a n, held t = some (a, n) ∧ a ≤ k ∧ k < a + n

namespace Window

variable {ι : Type*}

/-- Nothing reserved yet. -/
def empty : Window ι where
  tail := 0
  head := 0
  held _ := none
  tail_le_head := le_rfl
  within h := by simp at h
  apart _ h := by simp at h
  tiled k _ hk := absurd hk (Nat.not_lt_zero k)

/-- While anything is held, some party holds the range that starts at the tail. -/
theorem exists_first (w : Window ι) (h : w.tail < w.head) :
    ∃ t n, w.held t = some (w.tail, n) := by
  obtain ⟨t, a, n, hheld, ha, _⟩ := w.tiled w.tail le_rfl h
  have hle : w.tail ≤ a := (w.within hheld).1
  have heq : a = w.tail := Nat.le_antisymm ha hle
  subst heq
  exact ⟨t, n, hheld⟩

theorem tail_lt_head_of_held (w : Window ι) {t : ι} {a n : ℕ} (h : w.held t = some (a, n)) :
    w.tail < w.head := by
  obtain ⟨ha, hn, hle⟩ := w.within h
  omega

/-- Two parties never hold ranges with one start. -/
theorem start_ne (w : Window ι) {t u : ι} {a n b m : ℕ} (hne : t ≠ u)
    (ht : w.held t = some (a, n)) (hu : w.held u = some (b, m)) : a ≠ b := by
  obtain ⟨-, hn, -⟩ := w.within ht
  obtain ⟨-, hm, -⟩ := w.within hu
  rcases w.apart hne ht hu with h | h <;> omega

/-- A party that is the only holder holds the range at the tail. -/
theorem start_eq_tail_of_sole (w : Window ι) {t : ι} {a n : ℕ}
    (ht : w.held t = some (a, n)) (hsole : ∀ u, (w.held u).isSome → u = t) : a = w.tail := by
  obtain ⟨u, m, hu⟩ := w.exists_first (w.tail_lt_head_of_held ht)
  have hut : u = t := hsole u (by simp [hu])
  subst hut
  rw [hu] at ht
  simp only [Option.some.injEq, Prod.mk.injEq] at ht
  exact ht.1.symm

variable [DecidableEq ι]

/-- Party `t` takes the next `n` places. -/
def reserve (w : Window ι) (t : ι) (n : ℕ) (hfree : w.held t = none) (hn : 0 < n) :
    Window ι where
  tail := w.tail
  head := w.head + n
  held := Function.update w.held t (some (w.head, n))
  tail_le_head := Nat.le_add_right_of_le w.tail_le_head
  within := by
    intro u a m h
    rcases eq_or_ne u t with rfl | hu
    · simp only [Function.update_self, Option.some.injEq, Prod.mk.injEq] at h
      obtain ⟨rfl, rfl⟩ := h
      exact ⟨w.tail_le_head, hn, le_rfl⟩
    · rw [Function.update_of_ne hu] at h
      obtain ⟨ha, hm, hle⟩ := w.within h
      exact ⟨ha, hm, Nat.le_add_right_of_le hle⟩
  apart := by
    intro u v a m b l huv hu hv
    rcases eq_or_ne u t with rfl | hut
    · rw [Function.update_of_ne huv.symm] at hv
      simp only [Function.update_self, Option.some.injEq, Prod.mk.injEq] at hu
      obtain ⟨rfl, rfl⟩ := hu
      exact Or.inr (w.within hv).2.2
    · rw [Function.update_of_ne hut] at hu
      rcases eq_or_ne v t with rfl | hvt
      · simp only [Function.update_self, Option.some.injEq, Prod.mk.injEq] at hv
        obtain ⟨rfl, rfl⟩ := hv
        exact Or.inl (w.within hu).2.2
      · rw [Function.update_of_ne hvt] at hv
        exact w.apart huv hu hv
  tiled := by
    intro k hlo hhi
    by_cases hold : k < w.head
    · obtain ⟨u, a, m, hheld, ha, hk⟩ := w.tiled k hlo hold
      have hut : u ≠ t := by
        rintro rfl
        simp [hfree] at hheld
      exact ⟨u, a, m, by rw [Function.update_of_ne hut, hheld], ha, hk⟩
    · exact ⟨t, w.head, n, by simp, Nat.le_of_not_lt hold, hhi⟩

/-- The holder of the range at the tail retires it. -/
def retire (w : Window ι) (t : ι) (n : ℕ) (hfirst : w.held t = some (w.tail, n)) :
    Window ι where
  tail := w.tail + n
  head := w.head
  held := Function.update w.held t none
  tail_le_head := (w.within hfirst).2.2
  within := by
    intro u a m h
    rcases eq_or_ne u t with rfl | hu
    · simp at h
    · rw [Function.update_of_ne hu] at h
      obtain ⟨ha, hm, hle⟩ := w.within h
      refine ⟨?_, hm, hle⟩
      rcases w.apart hu h hfirst with hbefore | hafter
      · omega
      · exact hafter
  apart := by
    intro u v a m b l huv hu hv
    rcases eq_or_ne u t with rfl | hut
    · simp at hu
    · rcases eq_or_ne v t with rfl | hvt
      · simp at hv
      · rw [Function.update_of_ne hut] at hu
        rw [Function.update_of_ne hvt] at hv
        exact w.apart huv hu hv
  tiled := by
    intro k hlo hhi
    obtain ⟨u, a, m, hheld, ha, hk⟩ := w.tiled k (by omega) hhi
    have hut : u ≠ t := by
      rintro rfl
      rw [hfirst] at hheld
      simp only [Option.some.injEq, Prod.mk.injEq] at hheld
      omega
    exact ⟨u, a, m, by rw [Function.update_of_ne hut, hheld], ha, hk⟩

end Window

end Restore
