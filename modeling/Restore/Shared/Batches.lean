import Mathlib.Algebra.GroupWithZero.Nat
import Mathlib.Data.List.Infix
import Mathlib.Data.Nat.Notation

/-! # A sequence cut into consecutive batches

A log of batch sizes places each batch in the sequence. Batches may be delivered in any
order; what has been delivered up to the first gap is a prefix of the sequence. -/

namespace Restore.Batches

variable {α : Type*}

/-- Where batch `k` starts. -/
def offset (counts : List ℕ) (k : ℕ) : ℕ := (counts.take k).sum

@[simp] theorem offset_zero (counts : List ℕ) : offset counts 0 = 0 := rfl

@[simp] theorem offset_cons_succ (n : ℕ) (counts : List ℕ) (k : ℕ) :
    offset (n :: counts) (k + 1) = n + offset counts k := by
  simp [offset]

@[simp] theorem offset_length (counts : List ℕ) : offset counts counts.length = counts.sum := by
  simp [offset]

/-- Later batches do not move an earlier one. -/
theorem offset_of_isPrefix {counts counts' : List ℕ} (h : counts <+: counts') {k : ℕ}
    (hk : k ≤ counts.length) : offset counts' k = offset counts k := by
  obtain ⟨later, rfl⟩ := h
  simp [offset, List.take_append_of_le_length hk]

theorem getElem?_of_isPrefix {l l' : List α} (h : l <+: l') {k : ℕ} {x : α}
    (hk : l[k]? = some x) : l'[k]? = some x := by
  obtain ⟨later, rfl⟩ := h
  rw [List.getElem?_append_left (List.getElem?_eq_some_iff.mp hk).1, hk]

/-- A full segment is still the same segment of a longer sequence. -/
theorem segment_of_isPrefix {l l' : List α} (h : l <+: l') {o n : ℕ}
    (hlen : ((l.drop o).take n).length = n) :
    (l'.drop o).take n = (l.drop o).take n := by
  obtain ⟨later, rfl⟩ := h
  rcases Nat.eq_zero_or_pos n with rfl | hn
  · simp
  · simp only [List.length_take, List.length_drop] at hlen
    rw [List.drop_append_of_le_length (by omega),
      List.take_append_of_le_length (by rw [List.length_drop]; omega)]

/-- The items of batch `k` stand in the sequence from its offset on. -/
theorem getElem?_flatten {batches : List (List α)} {k j : ℕ} {b : List α}
    (hb : batches[k]? = some b) (hj : j < b.length) :
    batches.flatten[offset (batches.map List.length) k + j]? = b[j]? := by
  induction batches generalizing k with
  | nil => simp at hb
  | cons a batches ih =>
      cases k with
      | zero =>
          simp only [List.getElem?_cons_zero, Option.some.injEq] at hb
          subst hb
          simp [List.getElem?_append_left hj]
      | succ k =>
          rw [List.getElem?_cons_succ] at hb
          rw [List.map_cons, offset_cons_succ, List.flatten_cons, Nat.add_assoc,
            List.getElem?_append_right (Nat.le_add_right _ _), Nat.add_sub_cancel_left]
          exact ih hb

/-- The delivered batches in order, up to the first that is still missing. -/
def settled : List (ℕ × Option (List α)) → List α
  | (_, some items) :: records => items ++ settled records
  | _ => []

theorem settled_isPrefix {items : List α} {records : List (ℕ × Option (List α))}
    (h : ∀ k n l, records[k]? = some (n, some l) →
      l = (items.drop (offset (records.map Prod.fst) k)).take n) :
    settled records <+: items := by
  induction records generalizing items with
  | nil => exact List.nil_prefix
  | cons record records ih =>
      obtain ⟨n, _ | l⟩ := record
      · exact List.nil_prefix
      · have hl : l = items.take n := h 0 n l rfl
        have hrest : settled records <+: items.drop n := by
          refine ih fun k m r hr => ?_
          have hk := h (k + 1) m r (by simpa using hr)
          rwa [List.map_cons, offset_cons_succ, ← List.drop_drop] at hk
        rw [settled, hl]
        calc items.take n ++ settled records
          _ <+: items.take n ++ items.drop n := (List.prefix_append_right_inj _).mpr hrest
          _ = items := List.take_append_drop n items

end Restore.Batches
