import Mathlib.Data.List.Perm.Basic
import Mathlib.Data.List.Nodup
import Mathlib.Data.Nat.Notation

/-! # Work shared by class

Items fall into classes, and every worker takes all items of one class. The workers share the
items out, each to one of them, if every class that occurs has exactly one worker. -/

namespace Restore.WorkSharing

variable {α ι κ : Type*} [DecidableEq α] [DecidableEq κ]

/-- What the workers get, one worker after the other. -/
def shares (items : List α) (classOf : α → κ) (takes : ι → κ) (workers : List ι) : List α :=
  workers.flatMap fun worker => items.filter fun item => classOf item = takes worker

variable (items : List α) (classOf : α → κ) (takes : ι → κ) (workers : List ι)

/-- An item is taken once by every worker of its class. -/
theorem count_shares (item : α) :
    (shares items classOf takes workers).count item =
      (workers.map takes).count (classOf item) * items.count item := by
  induction workers with
  | nil => simp [shares]
  | cons worker workers ih =>
      rw [shares, List.flatMap_cons, List.count_append, List.map_cons, List.count_cons]
      rw [shares] at ih
      rw [ih, Nat.add_mul, Nat.add_comm]
      congr 1
      by_cases hclass : classOf item = takes worker
      · rw [List.count_filter (by simpa using hclass), if_pos (by simpa using hclass.symm),
          Nat.one_mul]
      · rw [if_neg (by simpa using Ne.symm hclass), Nat.zero_mul, List.count_eq_zero]
        intro hmem
        exact hclass (by simpa using (List.mem_filter.mp hmem).2)

theorem shares_perm_iff :
    (shares items classOf takes workers).Perm items ↔
      ∀ item ∈ items, (workers.map takes).count (classOf item) = 1 := by
  rw [List.perm_iff_count]
  constructor
  · intro h item hitem
    have hcount := h item
    rw [count_shares] at hcount
    exact Nat.eq_of_mul_eq_mul_right (List.count_pos_iff.mpr hitem)
      (hcount.trans (Nat.one_mul _).symm)
  · intro h item
    rw [count_shares]
    by_cases hitem : item ∈ items
    · rw [h item hitem, Nat.one_mul]
    · rw [List.count_eq_zero.mpr hitem, Nat.mul_zero]

omit [DecidableEq α] in
/-- If no worker does more than `n` times its share, together they do not either. -/
theorem length_flatMap_le {β : Type*} {n : ℕ} {done : ι → List β} {share : ι → List α}
    (h : ∀ worker ∈ workers, (done worker).length ≤ n * (share worker).length) :
    (workers.flatMap done).length ≤ n * (workers.flatMap share).length := by
  induction workers with
  | nil => simp
  | cons worker workers ih =>
      have hfirst := h worker List.mem_cons_self
      have hrest := ih fun worker' hmem => h worker' (List.mem_cons_of_mem _ hmem)
      simp only [List.flatMap_cons, List.length_append, Nat.mul_add]
      exact Nat.add_le_add hfirst hrest

/-! ## Workers numbered modulo the number of classes -/

theorem count_map_mod {classes k : ℕ} (hk : k < classes) :
    ((List.range classes).map (· % classes)).count k = 1 := by
  have hmap : (List.range classes).map (· % classes) = List.range classes :=
    List.map_congr_left (fun i hi => Nat.mod_eq_of_lt (List.mem_range.mp hi)) |>.trans
      (List.map_id' _)
  rw [hmap]
  exact List.count_eq_one_of_mem List.nodup_range (List.mem_range.mpr hk)

/-- With at least twice as many workers as classes, every class has two workers. -/
theorem two_le_count_map_mod {classes workers k : ℕ} (hk : k < classes)
    (hworkers : classes + classes ≤ workers) :
    2 ≤ ((List.range workers).map (· % classes)).count k := by
  obtain ⟨rest, rfl⟩ := Nat.exists_eq_add_of_le hworkers
  have hshift : ((List.range classes).map fun i => (classes + i) % classes) =
      (List.range classes).map (· % classes) :=
    List.map_congr_left fun i _ => Nat.add_mod_left classes i
  rw [List.range_add, List.range_add, List.map_append, List.map_append, List.count_append,
    List.count_append, List.map_map, Function.comp_def, hshift, count_map_mod hk]
  exact Nat.le_add_right _ _

end Restore.WorkSharing
