import Restore.Verification.RingBuff.Equations

/-! # One call at a time on `RingBuff`

The ring compares wrapping indices and copies one contiguous block. It is a bounded queue as
long as the comparisons do not straddle the wrap and the blocks do not straddle the end. -/

namespace Restore.RingBuff

open BuffRing Counter

variable {T : Type*}

/-! ## Conditions on a call -/

/-- The comparison of the call, on a queue of `stored` items behind `delivered` others, does
not straddle the wrap of the indices. -/
def Call.Compares (size delivered stored : ℕ) : Call T → Prop
  | .put _ => SameSide delivered size stored
  | .getHalf _ => SameSide delivered (size / 2) stored
  | .getAll _ => True

/-- The block that the call copies does not run over the end of the ring. -/
def Call.Contiguous (size delivered stored : ℕ) : Call T → Prop
  | .put _ => True
  | .getHalf _ => size / 2 ≤ stored → delivered % size + size / 2 ≤ size
  | .getAll _ => delivered % size = 0

instance (size delivered stored : ℕ) (call : Call T) :
    Decidable (call.Compares size delivered stored) :=
  match call with
  | .put _ => inferInstanceAs (Decidable (SameSide ..))
  | .getHalf _ => inferInstanceAs (Decidable (SameSide ..))
  | .getAll _ => inferInstanceAs (Decidable True)

instance (size delivered stored : ℕ) (call : Call T) :
    Decidable (call.Contiguous size delivered stored) :=
  match call with
  | .put _ => inferInstanceAs (Decidable True)
  | .getHalf _ => inferInstanceAs (Decidable (_ → _))
  | .getAll _ => inferInstanceAs (Decidable (_ = _))

/-! ## The queue's side -/

section Queue

variable {size : ℕ} (q : Queue T size)

theorem Queue.exec_put_items (item : T) : (q.exec (.put item)).fifo.items =
    if q.stored < size then q.fifo.items ++ [item] else q.fifo.items := by
  have hroom : [item].length ≤ q.fifo.room ↔ q.stored < size := by
    rw [List.length_singleton, Fifo.room, Queue.stored]
    omega
  simp only [exec, Fifo.enqueue, Batching.moved, hroom]
  split
  · rfl
  · exact List.append_nil _

theorem Queue.front_eq : q.fifo.front .allOrNone (size / 2) =
    if size / 2 ≤ q.stored then q.fifo.items.take (size / 2) else [] := by
  rw [Fifo.front, Batching.moved, Queue.stored]
  by_cases henough : size / 2 ≤ q.fifo.items.length
  · rw [if_pos henough, if_pos henough]
  · rw [if_neg henough, if_neg henough, List.take_zero]

theorem Queue.length_front : (q.fifo.front .allOrNone (size / 2)).length =
    if size / 2 ≤ q.stored then size / 2 else 0 := by
  rw [q.front_eq]
  split
  · rwa [List.length_take, Nat.min_eq_left]
  · rfl

theorem Queue.exec_getHalf_items (item : ℕ → T) : (q.exec (.getHalf item)).fifo.items =
    if size / 2 ≤ q.stored then q.fifo.items.drop (size / 2) else q.fifo.items := by
  show q.fifo.items.drop (if size / 2 ≤ q.stored then size / 2 else 0) = _
  by_cases henough : size / 2 ≤ q.stored
  · rw [if_pos henough, if_pos henough]
  · rw [if_neg henough, if_neg henough, List.drop_zero]

theorem Queue.exec_getAll_items (item : ℕ → T) :
    (q.exec (.getAll item)).fifo.items = q.fifo.items.drop q.stored := by
  exact congrArg q.fifo.items.drop (Batching.moved_of_le _ (Nat.le_refl _))

end Queue

/-! ## One call -/

section Exec

variable {r : RingBuff T} {bits : ℕ} {q : Queue T (2 ^ bits)}

theorem StoresAt.word_stored (h : r.StoresAt (2 ^ bits) q.delivered q.fifo.items) :
    r.wdIndex - r.rdIndex = word q.stored := by
  rw [h.wd_eq, h.rd_eq, word_sub (Nat.le_add_right _ _), Nat.add_sub_cancel_left, Queue.stored]

/-- A call whose comparison does not straddle the wrap moves as many items as the queue. -/
theorem StoresAt.exec_stores (h : r.StoresAt (2 ^ bits) q.delivered q.fifo.items) {call : Call T}
    (hcompares : call.Compares (2 ^ bits) q.delivered q.stored) :
    (r.exec call).1.StoresAt (2 ^ bits) (q.exec call).delivered (q.exec call).fifo.items ∧
      (r.exec call).2.ret = (q.answer call).ret := by
  cases call with
  | put item =>
      have hfull := (h.full_iff q.fifo.bounded).mpr hcompares
      rw [q.exec_put_items, exec, put, Queue.answer, Queue.exec]
      by_cases hroom : q.stored < 2 ^ bits
      · have hnot : ¬r.wdIndex ≥ r.rdIndex + r.size := fun h => absurd (hfull.mp h) (by
          rw [Queue.stored] at hroom
          omega)
        rw [if_neg hnot, if_pos hroom, if_pos hroom]
        exact ⟨h.push hroom item, rfl⟩
      · rw [if_pos (hfull.mpr (Nat.le_of_not_lt hroom)), if_neg hroom, if_neg hroom]
        exact ⟨h, rfl⟩
  | getHalf item =>
      have hhalf := (h.half_iff q.fifo.bounded).mpr hcompares
      rw [q.exec_getHalf_items, exec, getHalf, Queue.answer, Queue.exec, q.length_front]
      by_cases henough : 2 ^ bits / 2 ≤ q.stored
      · rw [if_pos (hhalf.mpr henough), if_pos henough, if_pos henough, if_pos henough]
        refine ⟨?_, rfl⟩
        dsimp only
        rw [h.half_word, h.rd_eq, word_add]
        exact h.pop henough
      · rw [if_neg (mt hhalf.mp henough), if_neg henough, if_neg henough, if_neg henough]
        exact ⟨h, rfl⟩
  | getAll item =>
      rw [q.exec_getAll_items, exec, getAll, Queue.answer, Queue.exec]
      refine ⟨?_, ?_⟩
      · have hpop := h.pop (Nat.le_refl _)
        rwa [← h.wd_eq] at hpop
      · dsimp only
        rw [h.word_stored]
        rfl

/-- A call whose comparison straddles the wrap returns another value than the queue. -/
theorem StoresAt.ret_ne (h : r.StoresAt (2 ^ bits) q.delivered q.fifo.items) {call : Call T}
    (hcompares : ¬call.Compares (2 ^ bits) q.delivered q.stored) :
    (r.exec call).2.ret ≠ (q.answer call).ret := by
  cases call with
  | put item =>
      have hfull := mt (h.full_iff q.fifo.bounded).mp hcompares
      rw [exec, put, Queue.answer]
      by_cases hroom : q.stored < 2 ^ bits
      · have htest : r.wdIndex ≥ r.rdIndex + r.size := by
          refine Classical.not_not.mp fun hnot => hfull (iff_of_false hnot ?_)
          exact Nat.not_le_of_lt hroom
        rw [if_pos htest, if_pos hroom]
        exact (by decide : (-1 : Int32) ≠ 0)
      · have htest : ¬r.wdIndex ≥ r.rdIndex + r.size := fun htest =>
          hfull (iff_of_true htest (Nat.le_of_not_lt hroom))
        rw [if_neg htest, if_neg hroom]
        exact (by decide : (0 : Int32) ≠ -1)
  | getHalf item =>
      have hhalf := mt (h.half_iff q.fifo.bounded).mp hcompares
      rw [exec, getHalf, Queue.answer]
      by_cases henough : 2 ^ bits / 2 ≤ q.stored
      · have htest : ¬r.wdIndex ≥ r.rdIndex + r.size >>> 1 := fun htest =>
          hhalf (iff_of_true htest henough)
        rw [if_neg htest, if_pos henough]
        exact (by decide : (0 : Int32) ≠ 1)
      · have htest : r.wdIndex ≥ r.rdIndex + r.size >>> 1 :=
          Classical.not_not.mp fun hnot => hhalf (iff_of_false hnot henough)
        rw [if_pos htest, if_neg henough]
        exact (by decide : (1 : Int32) ≠ 0)
  | getAll item => exact absurd trivial hcompares

theorem toNatClampNeg_word {n : ℕ} (h : n < 2 ^ 31) : (word n).toInt32.toNatClampNeg = n :=
  Int32.toNatClampNeg_ofNat_of_lt h

section Memcpy

variable (r : RingBuff T) (item : ℕ → T) (idx n : UInt32) (ret : Int32)

@[simp] theorem memcpy_ret : (r.memcpy item idx n ret).ret = ret := rfl

@[simp] theorem memcpy_reads :
    (r.memcpy item idx n ret).reads = (List.range n.toNat).map (idx.toNat + ·) := rfl

/-- The first items of a copied block. -/
theorem batch_memcpy {k : ℕ} (hk : k ≤ n.toNat) :
    batch (r.memcpy item idx n ret).item k = batch (fun i => r.data (idx.toNat + i)) k :=
  batch_congr fun _ hi => if_pos (hi.trans_le hk)

end Memcpy

/-- A call that straddles neither the wrap nor the end of the ring answers as the queue. -/
theorem StoresAt.answer_eq (h : r.StoresAt (2 ^ bits) q.delivered q.fifo.items) {call : Call T}
    (hcompares : call.Compares (2 ^ bits) q.delivered q.stored)
    (hcontiguous : call.Contiguous (2 ^ bits) q.delivered q.stored)
    (hfew : call.isGetAll = true → q.stored < 2 ^ 31) : r.answer call = q.answer call := by
  have hret := (h.exec_stores hcompares).2
  cases call with
  | put item => exact congrArg (Answer.mk · []) hret
  | getHalf item =>
      have hhalf := (h.half_iff q.fifo.bounded).mpr hcompares
      rw [answer, exec, getHalf, Queue.answer, q.front_eq]
      by_cases henough : 2 ^ bits / 2 ≤ q.stored
      · rw [if_pos (hhalf.mpr henough), if_pos henough, if_pos henough, Call.delivered]
        dsimp only
        rw [memcpy_ret, if_pos rfl, batch_memcpy _ _ _ _ _ (Nat.le_refl _), h.rd_eq, h.slot,
          h.half_eq, h.take_eq_block henough (hcontiguous henough)]
      · rw [if_neg (mt hhalf.mp henough), if_neg henough, if_neg henough]
        rfl
  | getAll item =>
      have hsize : q.stored ≤ r.size.toNat := by
        rw [h.size_eq]
        exact q.fifo.bounded
      have hblock := h.take_eq_block (Nat.le_refl _) (k := q.stored) (by
        rw [show q.delivered % 2 ^ bits = 0 from hcontiguous, Nat.zero_add]
        exact q.fifo.bounded)
      rw [answer, exec, getAll, Queue.answer, Call.delivered]
      dsimp only
      rw [memcpy_ret, h.word_stored, toNatClampNeg_word (hfew rfl), batch_memcpy _ _ _ _ _ hsize,
        h.rd_eq, h.slot, ← hblock, Queue.stored, List.take_length]
      rfl

/-- The slots that a call reads lie in the ring exactly if its block does not run over the
end. -/
theorem StoresAt.reads_lt_iff (h : r.StoresAt (2 ^ bits) q.delivered q.fifo.items) {call : Call T}
    (hcompares : call.Compares (2 ^ bits) q.delivered q.stored) :
    (∀ i ∈ (r.exec call).2.reads, i < 2 ^ bits) ↔
      call.Contiguous (2 ^ bits) q.delivered q.stored := by
  have hidx := Nat.mod_lt q.delivered (Nat.two_pow_pos bits)
  have hblock (n : ℕ) : (∀ i ∈ (List.range n).map (q.delivered % 2 ^ bits + ·), i < 2 ^ bits) ↔
      q.delivered % 2 ^ bits + n ≤ 2 ^ bits := by
    simp only [List.forall_mem_map, List.mem_range]
    constructor
    · intro hall
      cases n with
      | zero => exact hidx.le
      | succ n => exact hall n (Nat.lt_succ_self n)
    · intro hle i hi
      omega
  cases call with
  | put item => exact iff_of_true (fun i hi => absurd hi List.not_mem_nil) trivial
  | getHalf item =>
      have hhalf := (h.half_iff q.fifo.bounded).mpr hcompares
      rw [exec, getHalf, Call.Contiguous]
      by_cases henough : 2 ^ bits / 2 ≤ q.stored
      · rw [if_pos (hhalf.mpr henough), memcpy_reads, h.rd_eq, h.slot, h.half_eq]
        exact (hblock _).trans ⟨fun hle _ => hle, fun hle => hle henough⟩
      · rw [if_neg (mt hhalf.mp henough)]
        exact iff_of_true (fun i hi => absurd hi List.not_mem_nil) fun h => absurd h henough
  | getAll item =>
      rw [exec, getAll, memcpy_reads, h.rd_eq, h.slot, h.size_eq, Call.Contiguous]
      refine (hblock _).trans ?_
      omega

end Exec

end Restore.RingBuff
