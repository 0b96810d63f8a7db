import Restore.Model.RingBuff
import Restore.Verification.BuffRing.Correctness

/-! # Call sequences on `RingBuff` and on a bounded queue

What each call does to a ring whose indices have counted up to given totals. -/

namespace Restore.RingBuff

open BuffRing Counter

variable {T : Type*}

/-! ## Calls and answers -/

inductive Call (T : Type*)
  | put (item : T)
  | getHalf (item : ℕ → T)
  | getAll (item : ℕ → T)

def Call.isGetAll : Call T → Bool
  | .getAll _ => true
  | _ => false

/-- What a caller sees of a call: the returned value and the items delivered. -/
structure Answer (T : Type*) where
  ret : Int32
  items : List T

/-- `GetHalf` delivers half a ring if it returns 1, `GetAll` as many items as it returns. -/
def Call.delivered (call : Call T) (size : UInt32) (got : Got T) : List T :=
  match call with
  | .put _ => []
  | .getHalf _ => if got.ret = 1 then batch got.item (size >>> 1).toNat else []
  | .getAll _ => batch got.item got.ret.toNatClampNeg

def exec (r : RingBuff T) : Call T → RingBuff T × Got T
  | .put item => ((r.put item).1, ⟨(r.put item).2, fun _ => item, []⟩)
  | .getHalf item => r.getHalf item
  | .getAll item => r.getAll item

def answer (r : RingBuff T) (call : Call T) : Answer T :=
  ⟨(r.exec call).2.ret, call.delivered r.size (r.exec call).2⟩

/-- The answers to a sequence of calls. -/
def answers (r : RingBuff T) : List (Call T) → List (Answer T)
  | [] => []
  | call :: calls => r.answer call :: (r.exec call).1.answers calls

/-- The slots that a sequence of calls reads. -/
def reads (r : RingBuff T) : List (Call T) → List ℕ
  | [] => []
  | call :: calls => (r.exec call).2.reads ++ (r.exec call).1.reads calls

/-! ## The bounded queue -/

/-- A queue of capacity `size`, and how many items it has delivered. -/
structure Queue (T : Type*) (size : ℕ) where
  delivered : ℕ
  fifo : Fifo T size

namespace Queue

variable {size : ℕ}

def empty : Queue T size := ⟨0, Fifo.empty⟩

def stored (q : Queue T size) : ℕ := q.fifo.items.length

def exec (q : Queue T size) : Call T → Queue T size
  | .put item => ⟨q.delivered, q.fifo.enqueue .allOrNone [item]⟩
  | .getHalf _ =>
      ⟨q.delivered + (q.fifo.front .allOrNone (size / 2)).length,
        q.fifo.dequeue .allOrNone (size / 2)⟩
  | .getAll _ => ⟨q.delivered + q.stored, q.fifo.dequeue .upTo q.stored⟩

def answer (q : Queue T size) : Call T → Answer T
  | .put _ => ⟨if q.stored < size then 0 else -1, []⟩
  | .getHalf _ => ⟨if size / 2 ≤ q.stored then 1 else 0, q.fifo.front .allOrNone (size / 2)⟩
  | .getAll _ => ⟨Int32.ofNat q.stored, q.fifo.items⟩

def answers (q : Queue T size) : List (Call T) → List (Answer T)
  | [] => []
  | call :: calls => q.answer call :: (q.exec call).answers calls

/-- The queue after a sequence of calls. -/
def run (q : Queue T size) (calls : List (Call T)) : Queue T size := calls.foldl exec q

/-- Every call of the sequence finds the queue such that `P` holds. -/
def Always (P : Queue T size → Call T → Prop) (q : Queue T size) : List (Call T) → Prop
  | [] => True
  | call :: calls => P q call ∧ (q.exec call).Always P calls

instance decidableAlways (P : Queue T size → Call T → Prop) [∀ q call, Decidable (P q call)] :
    ∀ (q : Queue T size) (calls : List (Call T)), Decidable (q.Always P calls)
  | _, [] => inferInstanceAs (Decidable True)
  | q, call :: calls =>
      have := decidableAlways P (q.exec call) calls
      inferInstanceAs (Decidable (P q call ∧ (q.exec call).Always P calls))

end Queue

/-! ## Wrapping comparisons -/

/-- Of two counts that are `n` and `stored` ahead of `base`, none or both have wrapped. -/
def SameSide (base n stored : ℕ) : Prop :=
  base % 2 ^ 32 + n < 2 ^ 32 ↔ base % 2 ^ 32 + stored < 2 ^ 32

instance (base n stored : ℕ) : Decidable (SameSide base n stored) :=
  inferInstanceAs (Decidable (_ ↔ _))

/-- `wd_index_ >= rd_index_ + n` tells whether `n` items are stored exactly if the sum and the
index have both wrapped, or neither. -/
theorem reaches_iff {base n stored : ℕ} (hn : n < 2 ^ 32) (hstored : stored < 2 ^ 32) :
    (word (base + stored) ≥ word base + word n ↔ n ≤ stored) ↔ SameSide base n stored := by
  rw [word_add, ge_iff_le, UInt32.le_iff_toNat_le, word_toNat, word_toNat, SameSide]
  omega

/-! ## Sizes -/

theorem half_toNat {size : UInt32} {bits : ℕ} (hsize : size.toNat = 2 ^ bits) :
    (size >>> 1).toNat = 2 ^ bits / 2 := by
  rw [UInt32.toNat_shiftRight, hsize]
  exact Nat.shiftRight_eq_div_pow _ 1

/-- The slots of a block that ends in the ring follow one another. -/
theorem block_slot {size base n i : ℕ} (hblock : base % size + n ≤ size) (hi : i < n) :
    base % size + i = (base + i) % size := by
  have hlt : base % size + i < size := by omega
  rw [Nat.add_mod, Nat.mod_eq_of_lt (by omega : i < size), Nat.mod_eq_of_lt hlt]

/-! ## Rings that store a queue -/

/-- After `base` items have left the ring, it stores `items` in the slots from `base` on. -/
structure StoresAt (r : RingBuff T) (size base : ℕ) (items : List T) : Prop where
  size_eq : r.size.toNat = size
  rd_eq : r.rdIndex = word base
  wd_eq : r.wdIndex = word (base + items.length)
  slots : items = batch (fun i => r.data ((base + i) % size)) items.length

section Stores

variable {r : RingBuff T} {bits base : ℕ} {items : List T}

theorem StoresAt.size_word (h : r.StoresAt (2 ^ bits) base items) : r.size = word (2 ^ bits) := by
  rw [← h.size_eq, word_self]

theorem StoresAt.half_eq (h : r.StoresAt (2 ^ bits) base items) :
    (r.size >>> 1).toNat = 2 ^ bits / 2 := half_toNat h.size_eq

theorem StoresAt.half_word (h : r.StoresAt (2 ^ bits) base items) :
    r.size >>> 1 = word (2 ^ bits / 2) := by
  rw [← h.half_eq, word_self]

theorem StoresAt.slot (h : r.StoresAt (2 ^ bits) base items) (k : ℕ) :
    (word k &&& (r.size - 1)).toNat = k % 2 ^ bits := slot_toNat h.size_eq k

theorem StoresAt.full_iff (h : r.StoresAt (2 ^ bits) base items) (hle : items.length ≤ 2 ^ bits) :
    (r.wdIndex ≥ r.rdIndex + r.size ↔ 2 ^ bits ≤ items.length) ↔
      SameSide base (2 ^ bits) items.length := by
  have hsize := r.size.toNat_lt
  rw [h.size_eq] at hsize
  rw [h.wd_eq, h.rd_eq, h.size_word]
  exact reaches_iff hsize (by omega)

theorem StoresAt.half_iff (h : r.StoresAt (2 ^ bits) base items) (hle : items.length ≤ 2 ^ bits) :
    (r.wdIndex ≥ r.rdIndex + r.size >>> 1 ↔ 2 ^ bits / 2 ≤ items.length) ↔
      SameSide base (2 ^ bits / 2) items.length := by
  have hsize := r.size.toNat_lt
  rw [h.size_eq] at hsize
  rw [h.wd_eq, h.rd_eq, h.half_word]
  exact reaches_iff (by omega) (by omega)

/-- The write of `Put` into the slot behind the stored items. -/
theorem StoresAt.push (h : r.StoresAt (2 ^ bits) base items) (hlt : items.length < 2 ^ bits)
    (item : T) :
    StoresAt { r with
        wdIndex := r.wdIndex + 1
        data := Function.update r.data (r.wdIndex &&& (r.size - 1)).toNat item }
      (2 ^ bits) base (items ++ [item]) := by
  refine ⟨h.size_eq, h.rd_eq, ?_, ?_⟩
  · dsimp only
    rw [h.wd_eq, word_add_toNat, UInt32.toNat_one, List.length_append, List.length_singleton,
      Nat.add_assoc]
  · dsimp only
    rw [h.wd_eq, h.slot, List.length_append, List.length_singleton, batch_add]
    congr 1
    · conv_lhs => rw [h.slots]
      refine batch_congr fun i hi => (Function.update_of_ne ?_ _ _).symm
      exact slot_ne (by omega) (by omega) (by omega)
    · simp [batch]

/-- The index moves over the oldest items. -/
theorem StoresAt.pop (h : r.StoresAt (2 ^ bits) base items) {k : ℕ} (hk : k ≤ items.length) :
    StoresAt { r with rdIndex := word (base + k) } (2 ^ bits) (base + k) (items.drop k) := by
  refine ⟨h.size_eq, rfl, ?_, ?_⟩
  · rw [List.length_drop, Nat.add_assoc, Nat.add_sub_of_le hk]
    exact h.wd_eq
  · rw [List.length_drop]
    obtain ⟨rest, hrest⟩ := Nat.exists_eq_add_of_le hk
    conv_lhs => rw [h.slots, hrest, batch_add]
    rw [List.drop_left' (length_batch _ k), hrest, Nat.add_sub_cancel_left]
    exact batch_congr fun i _ => by rw [Nat.add_assoc]

/-- A block of slots that ends in the ring holds the oldest items. -/
theorem StoresAt.take_eq_block (h : r.StoresAt (2 ^ bits) base items) {k : ℕ}
    (hk : k ≤ items.length) (hblock : base % 2 ^ bits + k ≤ 2 ^ bits) :
    items.take k = batch (fun i => r.data (base % 2 ^ bits + i)) k := by
  conv_lhs => rw [h.slots]
  rw [take_batch _ hk]
  exact batch_congr fun i hi => by rw [block_slot hblock hi]

end Stores

end Restore.RingBuff
