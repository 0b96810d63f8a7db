import Restore.Verification.RingBuff.Sequential

/-! # When `RingBuff` is a bounded queue

Sequences of calls that do not overlap, of any length, against the queue of capacity `size_`. -/

namespace Restore.RingBuff

open BuffRing Counter

variable {T : Type*}

/-! ## Totals of the queue -/

/-- How many items the queue has accepted. -/
def Queue.total {size : ℕ} (q : Queue T size) : ℕ := q.delivered + q.stored

section Totals

variable {size : ℕ} (q : Queue T size)

theorem Queue.total_le_exec (call : Call T) : q.total ≤ (q.exec call).total := by
  cases call with
  | put item =>
      have hstored : (q.exec (.put item)).stored = _ := congrArg List.length (q.exec_put_items item)
      rw [total, total, hstored]
      refine Nat.add_le_add_left ?_ _
      split
      · rw [List.length_append]
        exact Nat.le_add_right _ _
      · exact Nat.le_refl _
  | getHalf item =>
      have hstored : (q.exec (.getHalf item)).stored = _ :=
        congrArg List.length (q.exec_getHalf_items item)
      have hdelivered : (q.exec (.getHalf item)).delivered = _ :=
        congrArg (q.delivered + ·) q.length_front
      rw [total, total, hstored, hdelivered]
      split
      · next henough =>
        rw [List.length_drop, ← stored]
        omega
      · exact Nat.le_refl _
  | getAll item => exact Nat.le_add_right _ _

theorem Queue.total_le_run (calls : List (Call T)) : q.total ≤ (q.run calls).total := by
  induction calls generalizing q with
  | nil => exact Nat.le_refl _
  | cons call calls ih => exact (q.total_le_exec call).trans (ih (q.exec call))

/-- Without `GetAll`, half a ring leaves at a time. -/
theorem Queue.dvd_delivered {call : Call T} (hcall : call.isGetAll = false)
    (h : size / 2 ∣ q.delivered) : size / 2 ∣ (q.exec call).delivered := by
  cases call with
  | put item => exact h
  | getHalf item =>
      rw [exec, q.length_front]
      split
      · exact Nat.dvd_add h (Nat.dvd_refl _)
      · exact h
  | getAll item => cases hcall

end Totals

/-! ## Conditions on the totals -/

theorem compares_of_total {size : ℕ} {q : Queue T size} (hsize : size ≤ 2 ^ 31)
    (hfew : q.total < 2 ^ 31) (call : Call T) : call.Compares size q.delivered q.stored := by
  have hwords (n : ℕ) (hn : n ≤ 2 ^ 31) : SameSide q.delivered n q.stored := by
    rw [Queue.total] at hfew
    rw [SameSide]
    omega
  cases call with
  | put item => exact hwords size hsize
  | getHalf item => exact hwords (size / 2) (by omega)
  | getAll item => trivial

/-- Blocks of half a ring that follow one another do not run over the end of the ring. -/
theorem block_le {bits delivered : ℕ} (hbits : 1 ≤ bits) (h : 2 ^ bits / 2 ∣ delivered) :
    delivered % 2 ^ bits + 2 ^ bits / 2 ≤ 2 ^ bits := by
  obtain ⟨bits, rfl⟩ := Nat.exists_eq_add_of_le' hbits
  rw [Nat.pow_succ, Nat.mul_div_cancel _ (by decide)] at h ⊢
  obtain ⟨turns, rfl⟩ := h
  rw [Nat.mul_mod_mul_left]
  rcases Nat.mod_two_eq_zero_or_one turns with heven | hodd
  · rw [heven]
    omega
  · rw [hodd]
    omega

theorem contiguous_of_dvd {bits delivered : ℕ} (hbits : 1 ≤ bits)
    (h : 2 ^ bits / 2 ∣ delivered) (stored : ℕ) {call : Call T} (hcall : call.isGetAll = false) :
    call.Contiguous (2 ^ bits) delivered stored := by
  cases call with
  | put item => trivial
  | getHalf item => exact fun _ => block_le hbits h
  | getAll item => cases hcall

/-! ## Sequences of calls -/

section Runs

variable {r : RingBuff T} {bits : ℕ} {q : Queue T (2 ^ bits)}

/-- Answers agree as long as no comparison straddles the wrap of the indices. -/
theorem StoresAt.answers_eq_iff (h : r.StoresAt (2 ^ bits) q.delivered q.fifo.items)
    (hbits : 1 ≤ bits) (hhalves : 2 ^ bits / 2 ∣ q.delivered) {calls : List (Call T)}
    (hcalls : ∀ call ∈ calls, call.isGetAll = false) :
    r.answers calls = q.answers calls ↔
      q.Always (fun q call => call.Compares (2 ^ bits) q.delivered q.stored) calls := by
  induction calls generalizing r q with
  | nil => exact iff_of_true rfl trivial
  | cons call calls ih =>
      obtain ⟨hcall, hcalls⟩ := List.forall_mem_cons.mp hcalls
      rw [answers, Queue.answers, Queue.Always, List.cons.injEq]
      by_cases hcompares : call.Compares (2 ^ bits) q.delivered q.stored
      · have hanswer := h.answer_eq hcompares (contiguous_of_dvd hbits hhalves _ hcall) fun hall =>
          absurd (hall.symm.trans hcall) (by decide)
        exact and_congr (iff_of_true hanswer hcompares)
          (ih (h.exec_stores hcompares).1 (q.dvd_delivered hcall hhalves) hcalls)
      · have hne : r.answer call ≠ q.answer call := fun heq =>
          h.ret_ne hcompares (congrArg Answer.ret heq)
        exact iff_of_false (fun hall => hne hall.1) fun hall => hcompares hall.1

/-- With few items, reads stay in the ring and answers agree as long as no block runs over the
end of the ring. -/
theorem StoresAt.reads_answers_iff (h : r.StoresAt (2 ^ bits) q.delivered q.fifo.items)
    {calls : List (Call T)} (hfew : (q.run calls).total < 2 ^ 31) :
    ((∀ i ∈ r.reads calls, i < 2 ^ bits) ∧ r.answers calls = q.answers calls) ↔
      q.Always (fun q call => call.Contiguous (2 ^ bits) q.delivered q.stored) calls := by
  induction calls generalizing r q with
  | nil => exact iff_of_true ⟨fun i hi => absurd hi List.not_mem_nil, rfl⟩ trivial
  | cons call calls ih =>
      have htotal : q.total < 2 ^ 31 := (q.total_le_run (call :: calls)).trans_lt hfew
      have hsize : 2 ^ bits ≤ 2 ^ 31 := Nat.pow_le_pow_right (by decide) (by
        have := bits_lt h.size_eq
        omega)
      have hcompares := compares_of_total hsize htotal call
      have hrest := ih (h.exec_stores hcompares).1 hfew
      rw [reads, answers, Queue.answers, Queue.Always, List.forall_mem_append, List.cons.injEq,
        ← hrest, h.reads_lt_iff hcompares]
      constructor
      · rintro ⟨⟨hcontiguous, hreads⟩, -, hanswers⟩
        exact ⟨hcontiguous, hreads, hanswers⟩
      · rintro ⟨hcontiguous, hreads, hanswers⟩
        refine ⟨⟨hcontiguous, hreads⟩, h.answer_eq hcompares hcontiguous fun _ => ?_, hanswers⟩
        rw [Queue.total] at htotal
        omega

end Runs

/-! ## Sequences from the constructor on -/

/-- At a power of two, the constructor makes an empty ring of that size. -/
theorem ringBuff_stores {fuel : ℕ} {size : UInt32} {data : ℕ → T} {r : RingBuff T}
    (hpow : isPowerOf2 size = true) (hring : ringBuff fuel size data = some r) :
    ∃ bits, size.toNat = 2 ^ bits ∧ (2 ≤ size.toNat → 1 ≤ bits) ∧
      r.StoresAt (2 ^ bits) 0 [] := by
  obtain ⟨bits, -, hbits⟩ := (isPowerOf2_iff size).mp hpow
  rw [ringBuff, roundupPowerOf2, BuffRing.roundupPowerOf2, if_pos hpow] at hring
  obtain rfl := Option.some.inj hring
  refine ⟨bits, hbits, fun htwo => ?_, ⟨hbits, rfl, rfl, rfl⟩⟩
  rw [hbits] at htwo
  cases bits with
  | zero => exact absurd htwo (by decide)
  | succ bits => exact Nat.le_add_left 1 bits

/-- `Put` and `GetHalf` answer as a queue of capacity `size_` does, exactly if no call compares
the indices when one of the two has wrapped and the other has not. -/
theorem put_getHalf_fifo_iff {fuel : ℕ} {size : UInt32} {data : ℕ → T} {r : RingBuff T}
    (hpow : isPowerOf2 size = true) (htwo : 2 ≤ size.toNat)
    (hring : ringBuff fuel size data = some r) (calls : List (Call T))
    (hcalls : ∀ call ∈ calls, call.isGetAll = false) :
    r.answers calls = (Queue.empty : Queue T size.toNat).answers calls ↔
      (Queue.empty : Queue T size.toNat).Always
        (fun q call => call.Compares size.toNat q.delivered q.stored) calls := by
  obtain ⟨bits, hbits, hpos, hstores⟩ := ringBuff_stores hpow hring
  rw [hbits]
  exact hstores.answers_eq_iff (hpos htwo) (Nat.dvd_zero _) hcalls

/-- In a ring of four, half a ring is delivered as soon as two items are stored. -/
theorem put_getHalf_fifo_iff_of_four :
    let calls : List (Call ℕ) := [.put 7, .getHalf fun _ => 0, .put 8, .getHalf fun _ => 0]
    (⟨0, 0, 4, fun _ => 0⟩ : RingBuff ℕ).answers calls =
      (Queue.empty : Queue ℕ 4).answers calls := by
  intro calls
  exact (@put_getHalf_fifo_iff ℕ 0 4 _ _ (by decide) (by decide) rfl calls
    (by decide)).mpr (by decide)

/-- Every item is taken out of a ring of two before the next one is put in. -/
def pairs (n : ℕ) : List (Call ℕ) :=
  (List.replicate n [.put 7, .getHalf fun _ => 0]).flatten

theorem Queue.run_pairs (delivered n : ℕ) :
    (⟨delivered, Fifo.empty⟩ : Queue ℕ 2).run (pairs n) = ⟨delivered + n, Fifo.empty⟩ := by
  induction n generalizing delivered with
  | zero => rfl
  | succ n ih =>
      rw [pairs, List.replicate_succ, List.flatten_cons, run, List.foldl_append]
      have hpair : List.foldl exec (⟨delivered, Fifo.empty⟩ : Queue ℕ 2)
          [.put 7, .getHalf fun _ => 0] = ⟨delivered + 1, Fifo.empty⟩ := rfl
      rw [hpair, Nat.add_comm n 1, ← Nat.add_assoc]
      exact ih (delivered + 1)

theorem Queue.always_append {size : ℕ} (P : Queue T size → Call T → Prop) (q : Queue T size)
    (calls calls' : List (Call T)) :
    q.Always P (calls ++ calls') ↔ q.Always P calls ∧ (q.run calls).Always P calls' := by
  induction calls generalizing q with
  | nil => exact (iff_of_eq (true_and _)).symm
  | cons call calls ih =>
      rw [List.cons_append, Always, Always, ih, and_assoc]
      rfl

/-- With `2 ^ 32 - 2` items delivered, `rd_index_ + 2` is 0 and `Put` finds the empty ring
full. -/
theorem put_refused_by_empty_ring :
    let calls : List (Call ℕ) := pairs (2 ^ 32 - 2) ++ [.put 7]
    ringBuff 0 2 (fun _ => 0) = some ⟨0, 0, 2, fun _ => 0⟩ ∧
      (⟨0, 0, 2, fun _ => 0⟩ : RingBuff ℕ).answers calls ≠
        (Queue.empty : Queue ℕ 2).answers calls := by
  intro calls
  refine ⟨rfl, fun hanswers => ?_⟩
  have hcalls : ∀ call ∈ calls, call.isGetAll = false := by
    intro call hcall
    rcases List.mem_append.mp hcall with hpairs | hput
    · obtain ⟨pair, hpair, hmem⟩ := List.mem_flatten.mp hpairs
      rw [List.eq_of_mem_replicate hpair] at hmem
      rcases List.mem_pair.mp hmem with rfl | rfl <;> rfl
    · rw [List.mem_singleton.mp hput]
      rfl
  have hstores : (⟨0, 0, 2, fun _ => 0⟩ : RingBuff ℕ).StoresAt (2 ^ 1) 0 [] :=
    ⟨rfl, rfl, rfl, rfl⟩
  have halways := (hstores.answers_eq_iff (q := Queue.empty) (by decide) (Nat.dvd_zero _)
    hcalls).mp hanswers
  obtain ⟨-, hput, -⟩ := (Queue.always_append _ _ _ _).mp halways
  rw [Queue.empty, Queue.run_pairs] at hput
  exact absurd hput (by decide)

/-- Few items pass through the ring: its getters read slots of the ring only, and deliver the
oldest items, exactly if no block they copy runs over the end of the ring. -/
theorem getters_deliver_oldest_iff {fuel : ℕ} {size : UInt32} {data : ℕ → T} {r : RingBuff T}
    (hpow : isPowerOf2 size = true) (hring : ringBuff fuel size data = some r)
    (calls : List (Call T))
    (hfew : ((Queue.empty : Queue T size.toNat).run calls).total < 2 ^ 31) :
    ((∀ i ∈ r.reads calls, i < size.toNat) ∧
        r.answers calls = (Queue.empty : Queue T size.toNat).answers calls) ↔
      (Queue.empty : Queue T size.toNat).Always
        (fun q call => call.Contiguous size.toNat q.delivered q.stored) calls := by
  obtain ⟨bits, hbits, -, hstores⟩ := ringBuff_stores hpow hring
  rw [hbits] at hfew ⊢
  exact StoresAt.reads_answers_iff (q := Queue.empty) hstores hfew

/-- A full ring is emptied by `GetAll` from slot 0. -/
theorem getters_deliver_oldest_iff_of_full :
    let calls : List (Call ℕ) := [.put 7, .put 8, .getAll fun _ => 0]
    (⟨0, 0, 2, fun _ => 0⟩ : RingBuff ℕ).answers calls =
      (Queue.empty : Queue ℕ 2).answers calls := by
  intro calls
  exact ((@getters_deliver_oldest_iff ℕ 0 2 _ _ (by decide) rfl calls
    (by decide)).mpr (by decide)).2

/-- After one item has left a ring of two, `GetAll` copies slots 1 and 2. -/
theorem getAll_reads_past_end :
    let calls : List (Call ℕ) := [.put 7, .getAll fun _ => 0, .put 8, .getAll fun _ => 0]
    ringBuff 0 2 (fun _ => 0) = some ⟨0, 0, 2, fun _ => 0⟩ ∧
      2 ∈ (⟨0, 0, 2, fun _ => 0⟩ : RingBuff ℕ).reads calls :=
  ⟨rfl, by decide⟩

end Restore.RingBuff
