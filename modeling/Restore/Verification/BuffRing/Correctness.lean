import Restore.Verification.BuffRing.Sequential

/-! # `BuffRing` refines a bounded queue

Call sequences on the ring and on the abstract queue give the same replies, whatever
the indices have counted up to. -/

namespace Restore.BuffRing

open Restore.Counter

variable {T : Type*}

/-! ## Calls and replies -/

inductive Op (T : Type*)
  | doEnqueue (obj : ℕ → T) (n : UInt32)
  | doDequeue (obj : ℕ → T) (n : UInt32)
  | ringCount
  | ringFreeCount
  | ringFull
  | ringEmpoty

/-- What a caller sees of a call: the returned value and the out parameters. -/
inductive Reply (T : Type*)
  | enqueued (n freeSpace : ℕ)
  | dequeued (obj : ℕ → T) (n available : ℕ)
  | count (n : ℕ)
  | flag (b : Bool)

/-- The call moved no item. -/
def Reply.Idle : Reply T → Prop
  | .enqueued n _ | .dequeued _ n _ => n = 0
  | .count _ | .flag _ => True

def exec (c : RingConfig) (m : RingMem T) : Op T → Option (RingMem T × Reply T)
  | .doEnqueue obj n => (doEnqueue c m obj n).map fun (m, n, freeSpace) =>
      (m, .enqueued n.toNat freeSpace.toNat)
  | .doDequeue obj n => (doDequeue c m obj n).map fun (m, obj, n, available) =>
      (m, .dequeued obj n.toNat available.toNat)
  | .ringCount => some (m, .count (ringCount c m).toNat)
  | .ringFreeCount => some (m, .count (ringFreeCount c m).toNat)
  | .ringFull => some (m, .flag (ringFull c m))
  | .ringEmpoty => some (m, .flag (ringEmpoty c m))

def execAll (c : RingConfig) (m : RingMem T) : List (Op T) → Option (RingMem T × List (Reply T))
  | [] => some (m, [])
  | op :: ops => do
      let (m, r) ← exec c m op
      let (m, rs) ← execAll c m ops
      return (m, r :: rs)

/-- The caller's table with its first entries replaced by `xs`. -/
def overwrite (obj : ℕ → T) (xs : List T) : ℕ → T :=
  fun i => xs[i]?.getD (obj i)

/-- The abstract queue answers the same calls. -/
def execFifo {capacity : ℕ} (b : Batching) (q : Fifo T capacity) : Op T → Fifo T capacity × Reply T
  | .doEnqueue obj n =>
      let q' := q.enqueue b (batch obj n.toNat)
      (q', .enqueued (b.moved n.toNat q.room) q'.room)
  | .doDequeue obj n =>
      let q' := q.dequeue b n.toNat
      (q', .dequeued (overwrite obj (q.front b n.toNat)) (b.moved n.toNat q.items.length)
        q'.items.length)
  | .ringCount => (q, .count q.items.length)
  | .ringFreeCount => (q, .count q.room)
  | .ringFull => (q, .flag (q.items.length == capacity))
  | .ringEmpoty => (q, .flag q.items.isEmpty)

def execFifoAll {capacity : ℕ} (b : Batching) (q : Fifo T capacity) :
    List (Op T) → Fifo T capacity × List (Reply T)
  | [] => (q, [])
  | op :: ops =>
      let (q, r) := execFifo b q op
      let (q, rs) := execFifoAll b q ops
      (q, r :: rs)

/-! ## The refinement relation -/

/-- The ring at rest, `base` items after its construction, stores the queue's items in
the slots from `base` on. -/
structure RingMem.StoresAt (m : RingMem T) (bits base : ℕ) (items : List T) : Prop where
  cons_eq : m.cons = ⟨word base, word base⟩
  prod_eq : m.prod = ⟨word (base + items.length), word (base + items.length)⟩
  slots : items = batch (fun i => m.data ((base + i) % 2 ^ bits)) items.length

theorem batch_congr {f g : ℕ → T} {n : ℕ} (h : ∀ i, i < n → f i = g i) :
    batch f n = batch g n :=
  List.map_congr_left fun i hi => h i (List.mem_range.mp hi)

theorem batch_add (f : ℕ → T) (a b : ℕ) :
    batch f (a + b) = batch f a ++ batch (fun i => f (a + i)) b := by
  simp [batch, List.range_add, Function.comp_def]

/-- Appending a batch to the slots after the stored ones. -/
theorem RingMem.StoresAt.enqueue {c : RingConfig} {bits : ℕ} (hc : c.Sized bits)
    {m : RingMem T} {base : ℕ} {items : List T} (h : m.StoresAt bits base items)
    (obj : ℕ → T) {k : ℕ} (hk : items.length + k ≤ c.capacity.toNat) :
    StoresAt { m with
        prod := ⟨word (base + items.length + k), word (base + items.length + k)⟩
        data := enqueuePtrs c (word (base + items.length)) obj (word k) m.data }
      bits base (items ++ batch obj k) := by
  have hlt := hc.capacity_lt
  have htwo := hc.two_pow_le
  have hkword : (word k).toNat = k := by
    rw [word_toNat]
    omega
  obtain ⟨hin, hout⟩ := enqueuePtrs_spec hc (base + items.length) obj (word k)
    (by omega) m.data
  refine ⟨h.cons_eq, by simp [Nat.add_assoc], ?_⟩
  rw [List.length_append, length_batch, batch_add]
  congr 1
  · conv_lhs => rw [h.slots]
    refine batch_congr fun i hi => (hout _ fun j hj => ?_).symm
    exact slot_ne (by omega) (by omega) (by omega)
  · refine batch_congr fun i hi => ?_
    rw [← Nat.add_assoc]
    exact (hin i (by omega)).symm

/-- Dropping the oldest items by moving both consumer indices over them. -/
theorem RingMem.StoresAt.dequeue {bits : ℕ} {m : RingMem T} {base : ℕ} {items : List T}
    (h : m.StoresAt bits base items) {k : ℕ} (hk : k ≤ items.length) :
    StoresAt { m with cons := ⟨word (base + k), word (base + k)⟩ } bits (base + k)
      (items.drop k) := by
  obtain ⟨rest, hrest⟩ : ∃ r, items.length = k + r := ⟨items.length - k, by omega⟩
  have hdrop : (items.drop k).length = rest := by
    rw [List.length_drop]
    omega
  refine ⟨rfl, ?_, ?_⟩
  · rw [hdrop, Nat.add_assoc, ← hrest]
    exact h.prod_eq
  · rw [hdrop]
    conv_lhs => rw [h.slots, hrest, batch_add]
    rw [List.drop_left' (length_batch _ k)]
    exact batch_congr fun i _ => by rw [Nat.add_assoc]

theorem RingMem.StoresAt.take {bits : ℕ} {m : RingMem T} {base : ℕ} {items : List T}
    (h : m.StoresAt bits base items) {k : ℕ} (hk : k ≤ items.length) :
    items.take k = batch (fun i => m.data ((base + i) % 2 ^ bits)) k := by
  conv_lhs => rw [h.slots]
  exact take_batch _ hk

/-! ## One call -/

theorem overwrite_batch (obj f : ℕ → T) (n : ℕ) :
    overwrite obj (batch f n) = fun i => if i < n then f i else obj i := by
  funext i
  by_cases hi : i < n <;> simp [overwrite, batch, hi]

section Stores

variable {c : RingConfig} {bits base : ℕ} {m : RingMem T} {items : List T}

theorem doEnqueue_stores (hc : c.Sized bits) (h : m.StoresAt bits base items)
    (hcap : items.length ≤ c.capacity.toNat) (obj : ℕ → T) (n : UInt32) :
    let k := c.reach n (c.capacity.toNat - items.length)
    ∃ m', doEnqueue c m obj n =
        some (m', word k, word (c.capacity.toNat - items.length - k)) ∧
      m'.StoresAt bits base (items ++ batch obj k) ∧ (k = 0 → m' = m) := by
  intro k
  have hlt := hc.capacity_lt
  have htwo := hc.two_pow_le
  have hk := reach_le_entries c n (c.capacity.toNat - items.length)
  have hcall := doEnqueue_alone hc m obj n h.prod_eq (by rw [h.cons_eq]) (by omega) (by omega)
  have hentries : base + c.capacity.toNat - (base + items.length) =
      c.capacity.toNat - items.length := by omega
  simp only [hentries] at hcall
  refine ⟨_, hcall, h.enqueue hc obj (by omega), fun hzero => ?_⟩
  simp only [k] at hzero
  simp only [hzero, Nat.add_zero, ← h.prod_eq]
  rw [show word 0 = 0 from rfl, enqueuePtrs_zero hc]

theorem doDequeue_stores (hc : c.Sized bits) (h : m.StoresAt bits base items)
    (hcap : items.length ≤ c.capacity.toNat) (obj : ℕ → T) (n : UInt32) :
    let k := c.reach n items.length
    ∃ m', doDequeue c m obj n =
        some (m', overwrite obj (items.take k), word k, word (items.length - k)) ∧
      m'.StoresAt bits (base + k) (items.drop k) ∧ (k = 0 → m' = m) := by
  intro k
  have hlt := hc.capacity_lt
  have htwo := hc.two_pow_le
  have hk := reach_le_entries c n items.length
  have hkword : (word k).toNat = k := by
    rw [word_toNat]
    omega
  have hcall := doDequeue_alone hc m obj n h.cons_eq (by rw [h.prod_eq])
    (Nat.le_add_right _ _) (by omega)
  simp only [Nat.add_sub_cancel_left] at hcall
  have hout : overwrite obj (items.take k) = dequeuePtrs c (word base) obj (word k) m.data := by
    rw [h.take hk, overwrite_batch, dequeuePtrs_spec hc base obj _ (by omega), hkword]
  rw [hout]
  refine ⟨_, hcall, h.dequeue hk, fun hzero => ?_⟩
  simp only [k] at hzero
  simp only [hzero, Nat.add_zero, ← h.cons_eq]

theorem ringCount_stores (hc : c.Sized bits) (h : m.StoresAt bits base items)
    (hcap : items.length ≤ c.capacity.toNat) : ringCount c m = word items.length := by
  rw [ringCount_alone hc m (by rw [h.cons_eq]) (by rw [h.prod_eq]) (Nat.le_add_right _ _)
    (by omega), Nat.add_sub_cancel_left]

theorem ringFreeCount_stores (hc : c.Sized bits) (h : m.StoresAt bits base items)
    (hcap : items.length ≤ c.capacity.toNat) :
    ringFreeCount c m = word (c.capacity.toNat - items.length) := by
  have hsub := word_sub hcap
  rw [word_self] at hsub
  rw [ringFreeCount, ringCount_stores hc h hcap, hsub]

/-- The items between the two tails, oldest first. -/
def RingMem.stored (c : RingConfig) (m : RingMem T) : List T :=
  batch (fun i => m.data ((m.cons.tail + word i) &&& c.mask).toNat) (ringCount c m).toNat

theorem RingMem.StoresAt.stored_eq (hc : c.Sized bits) (h : m.StoresAt bits base items)
    (hcap : items.length ≤ c.capacity.toNat) : m.stored c = items := by
  have hlt := hc.capacity_lt
  have htwo := hc.two_pow_le
  have hbits := hc.bits_le
  have hcount : (ringCount c m).toNat = items.length := by
    rw [ringCount_stores hc h hcap, word_toNat]
    omega
  rw [stored, hcount, h.slots, length_batch]
  refine batch_congr fun i _ => ?_
  rw [h.cons_eq, word_add, word_and_mask _ bits (by omega) _ hc.mask_eq]

end Stores

/-- On a ring that stores the queue's items each call replies as the queue does, leaves
the ring storing the queue's new items, and leaves it alone when it moves nothing. -/
theorem exec_refines {c : RingConfig} {bits : ℕ} (hc : c.Sized bits) {m : RingMem T}
    {q : Fifo T c.capacity.toNat} {base : ℕ} (h : m.StoresAt bits base q.items) (op : Op T) :
    ∃ m' base', exec c m op = some (m', (execFifo c.behavior.batching q op).2) ∧
      m'.StoresAt bits base' (execFifo c.behavior.batching q op).1.items ∧
      ((execFifo c.behavior.batching q op).2.Idle → m' = m) := by
  have hq := q.bounded
  have hlt := hc.capacity_lt
  have htwo := hc.two_pow_le
  have hword : ∀ k, k ≤ c.capacity.toNat → (word k).toNat = k := by
    intro k hk
    rw [word_toNat]
    omega
  have hroom : q.room ≤ c.capacity.toNat := Nat.sub_le _ _
  have hcount := ringCount_stores hc h hq
  have hfree : ringFreeCount c m = word q.room := ringFreeCount_stores hc h hq
  cases op with
  | doEnqueue obj n =>
      have hk := reach_le_entries c n q.room
      obtain ⟨m', hcall, hstores, hidle⟩ := doEnqueue_stores hc h hq obj n
      rw [← Fifo.room] at hcall
      refine ⟨m', base, ?_, ?_, hidle⟩
      · simp only [exec, hcall, execFifo, Option.map_some]
        rw [hword _ (hk.trans hroom), hword _ ((Nat.sub_le _ _).trans hroom), Fifo.room_enqueue,
          length_batch]
        rfl
      · simp only [execFifo, Fifo.enqueue, length_batch]
        rw [take_batch obj (Batching.moved_le_request _ _ _)]
        exact hstores
  | doDequeue obj n =>
      have hk := reach_le_entries c n q.items.length
      have hlen := q.length_dequeue c.behavior.batching n.toNat
      obtain ⟨m', hcall, hstores, hidle⟩ := doDequeue_stores hc h hq obj n
      refine ⟨m', _, ?_, hstores, hidle⟩
      simp only [exec, hcall, execFifo, Option.map_some, hlen]
      rw [hword _ (hk.trans hq), hword _ ((Nat.sub_le _ _).trans hq)]
      rfl
  | ringCount =>
      exact ⟨m, base, by simp only [exec, execFifo, hcount, hword _ hq], h, fun _ => rfl⟩
  | ringFreeCount =>
      exact ⟨m, base, by simp only [exec, execFifo, hfree, hword _ hroom], h, fun _ => rfl⟩
  | ringFull =>
      have hzero : (word q.room == 0) = (q.items.length == c.capacity.toNat) := by
        rw [Bool.eq_iff_iff, beq_iff_eq, beq_iff_eq, ← UInt32.toNat_inj, hword _ hroom,
          UInt32.toNat_zero, Fifo.room]
        omega
      exact ⟨m, base, by simp only [exec, execFifo, ringFull, hfree, hzero], h, fun _ => rfl⟩
  | ringEmpoty =>
      have hzero : (word q.items.length == 0) = q.items.isEmpty := by
        rw [Bool.eq_iff_iff, beq_iff_eq, ← UInt32.toNat_inj, hword _ hq, UInt32.toNat_zero,
          List.length_eq_zero_iff, List.isEmpty_iff]
      exact ⟨m, base, by simp only [exec, execFifo, ringEmpoty, hcount, hzero], h, fun _ => rfl⟩

/-! ## Call sequences -/

theorem execAll_refines {c : RingConfig} {bits : ℕ} (hc : c.Sized bits) (ops : List (Op T))
    {m : RingMem T} {q : Fifo T c.capacity.toNat} {base : ℕ}
    (h : m.StoresAt bits base q.items) :
    ∃ m' base', execAll c m ops = some (m', (execFifoAll c.behavior.batching q ops).2) ∧
      m'.StoresAt bits base' (execFifoAll c.behavior.batching q ops).1.items := by
  induction ops generalizing m q base with
  | nil => exact ⟨m, base, rfl, h⟩
  | cons op ops ih =>
      obtain ⟨m₁, base₁, hexec, hstores, -⟩ := exec_refines hc h op
      obtain ⟨m₂, base₂, hrest, hfinal⟩ := ih hstores
      exact ⟨m₂, base₂, by simp [execAll, execFifoAll, hexec, hrest], hfinal⟩

/-- The constructor gives a ring of the rounded-up size. -/
theorem buffRing_eq (size : UInt32) (hpos : 1 ≤ size.toNat) (hle : size.toNat ≤ 2 ^ 31)
    (fuel : ℕ) (hfuel : 32 ≤ fuel) (behavior : BuffRingBehavior) (sp sc : Bool) (data : ℕ → T) :
    ∃ c, buffRing fuel size behavior sp sc data = some (c, ⟨{}, {}, data⟩) ∧
      c.Sized (Nat.clog 2 size.toNat) ∧ c.behavior = behavior ∧ c.singleProducer = sp ∧
      c.singleConsumer = sc ∧ c.capacity.toNat = 2 ^ Nat.clog 2 size.toNat - 1 := by
  have hbits : Nat.clog 2 size.toNat ≤ 31 := Nat.clog_le_of_le_pow hle
  refine ⟨_, ?_, RingConfig.sized_of_bits hbits behavior sp sc, rfl, rfl, rfl,
    mask_toNat (word_two_pow_toNat hbits)⟩
  rw [buffRing, roundupPowerOf2_eq size hpos hle fuel hfuel]
  rfl

/-- `BuffRing` is a bounded first-in first-out queue: any sequence of calls that do not
overlap is answered as the queue of capacity `roundup(size) - 1` answers it, and a
further call that returns 0 leaves the ring as it was. -/
theorem buffRing_refines_fifo (size : UInt32) (hpos : 1 ≤ size.toNat)
    (hle : size.toNat ≤ 2 ^ 31) (fuel : ℕ) (hfuel : 32 ≤ fuel) (behavior : BuffRingBehavior)
    (sp sc : Bool) (data : ℕ → T) :
    ∃ c m, buffRing fuel size behavior sp sc data = some (c, m) ∧
      c.capacity.toNat = 2 ^ Nat.clog 2 size.toNat - 1 ∧
      ∀ ops : List (Op T), ∃ m',
        execAll c m ops = some (m',
          (execFifoAll behavior.batching (Fifo.empty : Fifo T c.capacity.toNat) ops).2) ∧
        ∀ op, ∃ m'' r, exec c m' op = some (m'', r) ∧ (r.Idle → m'' = m') := by
  obtain ⟨c, hring, hc, rfl, -, -, hcap⟩ :=
    buffRing_eq size hpos hle fuel hfuel behavior sp sc data
  refine ⟨c, _, hring, hcap, fun ops => ?_⟩
  have hinit : RingMem.StoresAt (⟨{}, {}, data⟩ : RingMem T) (Nat.clog 2 size.toNat) 0
      (Fifo.empty : Fifo T c.capacity.toNat).items := ⟨rfl, rfl, rfl⟩
  obtain ⟨m', base', hexec, hstores⟩ := execAll_refines hc ops hinit
  refine ⟨m', hexec, fun op => ?_⟩
  obtain ⟨m'', -, hcall, -, hidle⟩ := exec_refines hc hstores op
  exact ⟨m'', _, hcall, hidle⟩

/-- A ring built for 5 has capacity 7 and answers as the queue of capacity 7. -/
theorem buffRing_refines_fifo_of_five : ∃ c m,
    buffRing 32 5 .kRingQueueFixed true true (fun _ => 0) = some (c, m) ∧
      c.capacity.toNat = 7 ∧ ∀ ops : List (Op ℕ), ∃ m', execAll c m ops = some (m',
        (execFifoAll .allOrNone (Fifo.empty : Fifo ℕ c.capacity.toNat) ops).2) := by
  obtain ⟨c, m, hring, hcap, hops⟩ := buffRing_refines_fifo (T := ℕ) 5 (by decide) (by decide)
    32 le_rfl .kRingQueueFixed true true fun _ => 0
  have hseven : 2 ^ Nat.clog 2 5 - 1 = 7 := by decide
  refine ⟨c, m, hring, hcap.trans hseven, fun ops => ?_⟩
  obtain ⟨m', hexec, -⟩ := hops ops
  exact ⟨m', hexec⟩

end Restore.BuffRing
