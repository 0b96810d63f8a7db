import Restore.Model.BufferRingC
import Restore.Verification.BuffRing.Correctness

/-! # `struct buffer_ring` refines a bounded queue of `capacity` items

Each call is the call of a `BuffRing<T>` with the same indices and slots, so the equations of
that ring carry over to every capacity below the mask. -/

namespace Restore.BufferRingC

open Restore.Counter
open Restore.BuffRing (RingMem RingConfig HeadMove batch overwrite moveHead moveHead_eq doEnqueue
  doDequeue doEnqueue_stores doDequeue_stores ringCount_stores length_batch take_batch)

variable {T : Type*}

/-! ## The same ring in C++ -/

def BufferRing.mem (r : BufferRing T) : RingMem T :=
  ⟨⟨r.prod.head, r.prod.tail⟩, ⟨r.cons.head, r.cons.tail⟩, r.data⟩

def BufferRing.withMem (r : BufferRing T) (m : RingMem T) : BufferRing T :=
  { r with
    prod := { r.prod with head := m.prod.head, tail := m.prod.tail }
    cons := { r.cons with head := m.cons.head, tail := m.cons.tail }
    data := m.data }

@[simp] theorem BufferRing.withMem_mem (r : BufferRing T) : r.withMem r.mem = r := rfl

@[simp] theorem BufferRing.mem_withMem (r : BufferRing T) (m : RingMem T) :
    (r.withMem m).mem = m := rfl

theorem clamp_eq (r : BufferRing T) (b : RingQueueBehavior) (isSp isSc n entries : UInt32) :
    clamp b n entries = (r.config b isSp isSc).clamp n entries := by
  cases b <;> simp [clamp, RingConfig.clamp, BufferRing.config]

/-- A head that the call has just loaded is still there, so the swap succeeds. -/
theorem ringMoveProdHead_eq (r : BufferRing T) (isSp n : UInt32) (b : RingQueueBehavior) :
    let freeEntries := r.capacity + r.cons.tail - r.prod.head
    let k := clamp b n freeEntries
    ringMoveProdHead r isSp n b =
      some ({ r with prod := { r.prod with head := r.prod.head + k } },
        ⟨k, r.prod.head, r.prod.head + k, freeEntries⟩) := by
  intro freeEntries k
  simp only [ringMoveProdHead, RingHeadtail.casHead, if_true]
  by_cases hk : k = 0
  · rw [if_pos hk, hk, UInt32.add_zero]
  · rw [if_neg hk]
    split <;> rfl

theorem ringMoveConsHead_eq (r : BufferRing T) (isSc n : UInt32) (b : RingQueueBehavior) :
    let entries := r.prod.tail - r.cons.head
    let k := clamp b n entries
    ringMoveConsHead r isSc n b =
      some ({ r with cons := { r.cons with head := r.cons.head + k } },
        ⟨k, r.cons.head, r.cons.head + k, entries⟩) := by
  intro entries k
  simp only [ringMoveConsHead, RingHeadtail.casHead, if_true]
  by_cases hk : k = 0
  · rw [if_pos hk, hk, UInt32.add_zero]
  · rw [if_neg hk]
    split <;> rfl

theorem ringDoEnqueue_eq (r : BufferRing T) (objTable : ℕ → T) (n : UInt32)
    (b : RingQueueBehavior) (isSp isSc : UInt32) :
    ringDoEnqueue r objTable n b isSp =
      (doEnqueue (r.config b isSp isSc) r.mem objTable n).map fun (m, k, space) =>
        (r.withMem m, k, space) := by
  have hentries : (r.config b isSp isSc).entries .prod r.cons.tail r.prod.head =
      r.capacity + r.cons.tail - r.prod.head := rfl
  simp only [ringDoEnqueue, ringMoveProdHead_eq, doEnqueue, BuffRing.moveProdHead, moveHead_eq,
    clamp_eq r b isSp isSc, Option.bind_eq_bind, Option.bind_some, BufferRing.mem, RingMem.ht,
    BuffRing.Side.other, hentries]
  split
  · rfl
  · by_cases hsp : isSp = 0 ∧ r.prod.tail ≠ r.prod.head
    · simp [updateTail, BuffRing.updateTail, hsp, RingMem.setHead, RingMem.ht, BufferRing.config]
    · rw [updateTail, if_neg hsp, BuffRing.updateTail, if_neg (by
        simpa [BufferRing.config, RingMem.setHead, RingMem.ht] using hsp)]
      rfl

theorem ringDoDequeue_eq (r : BufferRing T) (objTable : ℕ → T) (n : UInt32)
    (b : RingQueueBehavior) (isSp isSc : UInt32) :
    ringDoDequeue r objTable n b isSc =
      (doDequeue (r.config b isSp isSc) r.mem objTable n).map fun (m, obj, k, available) =>
        (r.withMem m, obj, k, available) := by
  have hentries : (r.config b isSp isSc).entries .cons r.prod.tail r.cons.head =
      r.prod.tail - r.cons.head := rfl
  simp only [ringDoDequeue, ringMoveConsHead_eq, doDequeue, BuffRing.moveConsumerHead, moveHead_eq,
    clamp_eq r b isSp isSc, Option.bind_eq_bind, Option.bind_some, BufferRing.mem, RingMem.ht,
    BuffRing.Side.other, hentries]
  split
  · rfl
  · by_cases hsc : isSc = 0 ∧ r.cons.tail ≠ r.cons.head
    · simp [updateTail, BuffRing.updateTail, hsc, RingMem.setHead, RingMem.ht, BufferRing.config]
    · rw [updateTail, if_neg hsc, BuffRing.updateTail, if_neg (by
        simpa [BufferRing.config, RingMem.setHead, RingMem.ht] using hsc)]
      rfl

/-! ## Calls and replies -/

inductive Op (T : Type*)
  | ringDoEnqueue (objTable : ℕ → T) (n : UInt32) (behavior : RingQueueBehavior) (isSp : UInt32)
  | ringMpEnqueueBulk (objTable : ℕ → T) (n : UInt32)
  | ringSpEnqueueBulk (objTable : ℕ → T) (n : UInt32)
  | ringEnqueueBulk (objTable : ℕ → T) (n : UInt32)
  | ringMpEnqueue (obj : T)
  | ringSpEnqueue (obj : T)
  | ringEnqueue (obj : T)
  | ringDoDequeue (objTable : ℕ → T) (n : UInt32) (behavior : RingQueueBehavior) (isSc : UInt32)
  | ringMcDequeueBulk (objTable : ℕ → T) (n : UInt32)
  | ringScDequeueBulk (objTable : ℕ → T) (n : UInt32)
  | ringDequeueBulk (objTable : ℕ → T) (n : UInt32)
  | ringMcDequeue (objP : T)
  | ringScDequeue (objP : T)
  | ringDequeue (objP : T)
  | ringCount
  | ringFreeCount
  | ringFull
  | ringEmpty

/-- What a caller sees of a call: the returned value and the out parameters. -/
inductive Reply (T : Type*)
  | enqueued (n freeSpace : ℕ)
  | dequeued (objTable : ℕ → T) (n available : ℕ)
  | status (rc : Int)
  | taken (objP : T) (rc : Int)
  | count (n : ℕ)
  | flag (b : Bool)

def Reply.ofEnqueue : BufferRing T × UInt32 × UInt32 → BufferRing T × Reply T
  | (r, n, freeSpace) => (r, .enqueued n.toNat freeSpace.toNat)

def Reply.ofDequeue : BufferRing T × (ℕ → T) × UInt32 × UInt32 → BufferRing T × Reply T
  | (r, objTable, n, available) => (r, .dequeued objTable n.toNat available.toNat)

def exec (r : BufferRing T) : Op T → Option (BufferRing T × Reply T)
  | .ringDoEnqueue obj n behavior isSp => (ringDoEnqueue r obj n behavior isSp).map Reply.ofEnqueue
  | .ringMpEnqueueBulk obj n => (ringMpEnqueueBulk r obj n).map Reply.ofEnqueue
  | .ringSpEnqueueBulk obj n => (ringSpEnqueueBulk r obj n).map Reply.ofEnqueue
  | .ringEnqueueBulk obj n => (ringEnqueueBulk r obj n).map Reply.ofEnqueue
  | .ringMpEnqueue obj => (ringMpEnqueue r obj).map (.map id .status)
  | .ringSpEnqueue obj => (ringSpEnqueue r obj).map (.map id .status)
  | .ringEnqueue obj => (ringEnqueue r obj).map (.map id .status)
  | .ringDoDequeue obj n behavior isSc => (ringDoDequeue r obj n behavior isSc).map Reply.ofDequeue
  | .ringMcDequeueBulk obj n => (ringMcDequeueBulk r obj n).map Reply.ofDequeue
  | .ringScDequeueBulk obj n => (ringScDequeueBulk r obj n).map Reply.ofDequeue
  | .ringDequeueBulk obj n => (ringDequeueBulk r obj n).map Reply.ofDequeue
  | .ringMcDequeue objP => (ringMcDequeue r objP).map fun (r, obj, rc) => (r, .taken obj rc)
  | .ringScDequeue objP => (ringScDequeue r objP).map fun (r, obj, rc) => (r, .taken obj rc)
  | .ringDequeue objP => (ringDequeue r objP).map fun (r, obj, rc) => (r, .taken obj rc)
  | .ringCount => some (r, .count (ringCount r).toNat)
  | .ringFreeCount => some (r, .count (ringFreeCount r).toNat)
  | .ringFull => some (r, .flag (ringFull r))
  | .ringEmpty => some (r, .flag (ringEmpty r))

def execAll (r : BufferRing T) : List (Op T) → Option (BufferRing T × List (Reply T))
  | [] => some (r, [])
  | op :: ops => do
      let (r, reply) ← exec r op
      let (r, replies) ← execAll r ops
      return (r, reply :: replies)

/-! ## The queue's answers -/

def RingQueueBehavior.batching : RingQueueBehavior → Batching
  | .ringQueueFixed => .allOrNone
  | .ringQueueVariable => .upTo

section Queue

variable {capacity : ℕ} (q : Fifo T capacity)

def put (b : Batching) (obj : ℕ → T) (n : ℕ) : Fifo T capacity × Reply T :=
  (q.enqueue b (batch obj n),
    .enqueued (b.moved n q.room) (q.enqueue b (batch obj n)).room)

def putOne (obj : T) : Fifo T capacity × Reply T :=
  (q.enqueue .allOrNone [obj], .status (if q.room = 0 then -enobufs else 0))

def take (b : Batching) (obj : ℕ → T) (n : ℕ) : Fifo T capacity × Reply T :=
  (q.dequeue b n,
    .dequeued (overwrite obj (q.front b n)) (b.moved n q.items.length) (q.dequeue b n).items.length)

def takeOne (objP : T) : Fifo T capacity × Reply T :=
  (q.dequeue .allOrNone 1,
    match q.items with
    | [] => .taken objP (-enoent)
    | x :: _ => .taken x 0)

def execFifo : Op T → Fifo T capacity × Reply T
  | .ringDoEnqueue obj n behavior _ => put q behavior.batching obj n.toNat
  | .ringMpEnqueueBulk obj n | .ringSpEnqueueBulk obj n | .ringEnqueueBulk obj n =>
      put q .allOrNone obj n.toNat
  | .ringMpEnqueue obj | .ringSpEnqueue obj | .ringEnqueue obj => putOne q obj
  | .ringDoDequeue obj n behavior _ => take q behavior.batching obj n.toNat
  | .ringMcDequeueBulk obj n | .ringScDequeueBulk obj n | .ringDequeueBulk obj n =>
      take q .allOrNone obj n.toNat
  | .ringMcDequeue objP | .ringScDequeue objP | .ringDequeue objP => takeOne q objP
  | .ringCount => (q, .count q.items.length)
  | .ringFreeCount => (q, .count q.room)
  | .ringFull => (q, .flag (q.items.length == capacity))
  | .ringEmpty => (q, .flag q.items.isEmpty)

def execFifoAll (q : Fifo T capacity) : List (Op T) → Fifo T capacity × List (Reply T)
  | [] => (q, [])
  | op :: ops =>
      let (q, reply) := execFifo q op
      let (q, replies) := execFifoAll q ops
      (q, reply :: replies)

end Queue

/-! ## One call -/

/-- The ring at rest, `base` items after index 0, stores the queue's items. -/
structure BufferRing.Stores (r : BufferRing T) {capacity : ℕ} (bits base : ℕ)
    (q : Fifo T capacity) : Prop where
  sized : (r.config .ringQueueFixed isMp isMc).Sized bits
  capacity_eq : r.capacity.toNat = capacity
  stores : r.mem.StoresAt bits base q.items

section Stores

variable {r : BufferRing T} {capacity bits base : ℕ} {q : Fifo T capacity}

theorem BufferRing.Stores.sized_config (h : r.Stores bits base q) (b : RingQueueBehavior)
    (isSp isSc : UInt32) : (r.config b isSp isSc).Sized bits :=
  ⟨h.sized.bits_le, h.sized.size_eq, h.sized.mask_eq, h.sized.capacity_lt⟩

theorem BufferRing.Stores.length_le (h : r.Stores bits base q) :
    q.items.length ≤ r.capacity.toNat :=
  q.bounded.trans_eq h.capacity_eq.symm

theorem BufferRing.Stores.word_toNat (h : r.Stores bits base q) {k : ℕ} (hk : k ≤ capacity) :
    (word k).toNat = k := by
  have hlt := h.sized.capacity_lt
  have htwo := h.sized.two_pow_le
  have hcap := h.capacity_eq
  change r.capacity.toNat < _ at hlt
  rw [Counter.word_toNat]
  omega

theorem config_reach (b : RingQueueBehavior) (isSp isSc n : UInt32) (entries : ℕ) :
    (r.config b isSp isSc).reach n entries = b.batching.moved n.toNat entries := by
  cases b <;> rfl

theorem ringDoEnqueue_stores (h : r.Stores bits base q) (obj : ℕ → T) (n : UInt32)
    (b : RingQueueBehavior) (isSp : UInt32) :
    ∃ r', ringDoEnqueue r obj n b isSp =
        some (r', word (b.batching.moved n.toNat q.room),
          word (q.enqueue b.batching (batch obj n.toNat)).room) ∧
      r'.Stores bits base (q.enqueue b.batching (batch obj n.toNat)) := by
  obtain ⟨m, hcall, hstores, -⟩ :=
    doEnqueue_stores (h.sized_config b isSp isMc) h.stores h.length_le obj n
  have hroom : (r.config b isSp isMc).capacity.toNat - q.items.length = q.room :=
    congrArg (· - q.items.length) h.capacity_eq
  rw [hroom, config_reach] at hcall hstores
  refine ⟨r.withMem m, ?_, h.sized, h.capacity_eq, ?_⟩
  · rw [ringDoEnqueue_eq r obj n b isSp isMc, hcall, Fifo.room_enqueue, length_batch]
    rfl
  · simp only [Fifo.enqueue, length_batch]
    rw [take_batch obj (Batching.moved_le_request _ _ _)]
    exact hstores

theorem ringDoDequeue_stores (h : r.Stores bits base q) (obj : ℕ → T) (n : UInt32)
    (b : RingQueueBehavior) (isSc : UInt32) :
    ∃ r' base', ringDoDequeue r obj n b isSc =
        some (r', overwrite obj (q.front b.batching n.toNat),
          word (b.batching.moved n.toNat q.items.length),
          word (q.dequeue b.batching n.toNat).items.length) ∧
      r'.Stores bits base' (q.dequeue b.batching n.toNat) := by
  obtain ⟨m, hcall, hstores, -⟩ :=
    doDequeue_stores (h.sized_config b isMp isSc) h.stores h.length_le obj n
  rw [config_reach] at hcall hstores
  refine ⟨r.withMem m, _, ?_, h.sized, h.capacity_eq, hstores⟩
  rw [ringDoDequeue_eq r obj n b isMp isSc, hcall, Fifo.length_dequeue]
  rfl

theorem enqueueOne_stores (h : r.Stores bits base q) (obj : T) (isSp : UInt32)
    (bulk : BufferRing T → (ℕ → T) → UInt32 → Option (BufferRing T × UInt32 × UInt32))
    (hbulk : bulk r (fun _ => obj) 1 = ringDoEnqueue r (fun _ => obj) 1 .ringQueueFixed isSp) :
    ∃ r' base', (enqueueOne bulk r obj).map (.map id .status) = some (r', (putOne q obj).2) ∧
      r'.Stores bits base' (putOne q obj).1 := by
  obtain ⟨r', hcall, hstores⟩ := ringDoEnqueue_stores h (fun _ => obj) 1 .ringQueueFixed isSp
  refine ⟨r', base, ?_, hstores⟩
  simp only [enqueueOne, hbulk, hcall, Option.map_some, putOne, Prod.map, id]
  congr 3
  simp only [RingQueueBehavior.batching, Batching.moved, UInt32.toNat_one]
  by_cases hroom : q.room = 0
  · simp [hroom]
  · simp [hroom, Nat.one_le_iff_ne_zero]

theorem dequeueOne_stores (h : r.Stores bits base q) (objP : T) (isSc : UInt32)
    (bulk : BufferRing T → (ℕ → T) → UInt32 → Option (BufferRing T × (ℕ → T) × UInt32 × UInt32))
    (hbulk : bulk r (fun _ => objP) 1 = ringDoDequeue r (fun _ => objP) 1 .ringQueueFixed isSc) :
    ∃ r' base', (dequeueOne bulk r objP).map (fun (r, obj, rc) => (r, .taken obj rc)) =
        some (r', (takeOne q objP).2) ∧ r'.Stores bits base' (takeOne q objP).1 := by
  obtain ⟨r', base', hcall, hstores⟩ :=
    ringDoDequeue_stores h (fun _ => objP) 1 .ringQueueFixed isSc
  refine ⟨r', base', ?_, hstores⟩
  simp only [dequeueOne, hbulk, hcall, Option.map_some, takeOne]
  congr 2
  cases hitems : q.items with
  | nil => simp [Fifo.front, hitems, overwrite, RingQueueBehavior.batching, Batching.moved]
  | cons x rest => simp [Fifo.front, hitems, overwrite, RingQueueBehavior.batching, Batching.moved]

theorem BufferRing.Stores.ringCount_eq (h : r.Stores bits base q) :
    ringCount r = word q.items.length := by
  have hsame : ringCount r = BuffRing.ringCount (r.config .ringQueueFixed isMp isMc) r.mem := rfl
  rw [hsame]
  exact ringCount_stores h.sized h.stores h.length_le

theorem BufferRing.Stores.ringFreeCount_eq (h : r.Stores bits base q) :
    ringFreeCount r = word q.room := by
  have hcap : r.capacity = word capacity := by rw [← h.capacity_eq, word_self]
  rw [ringFreeCount, h.ringCount_eq, hcap, word_sub q.bounded]
  rfl

theorem BufferRing.Stores.ringFull_eq (h : r.Stores bits base q) :
    ringFull r = (q.items.length == capacity) := by
  have hq := q.bounded
  rw [ringFull, h.ringFreeCount_eq, Bool.eq_iff_iff, beq_iff_eq, beq_iff_eq, ← UInt32.toNat_inj,
    h.word_toNat q.room_le, UInt32.toNat_zero, Fifo.room]
  omega

theorem BufferRing.Stores.ringEmpty_eq (h : r.Stores bits base q) :
    ringEmpty r = q.items.isEmpty := by
  rw [ringEmpty, h.ringCount_eq, Bool.eq_iff_iff, beq_iff_eq, ← UInt32.toNat_inj,
    h.word_toNat q.bounded, UInt32.toNat_zero, List.length_eq_zero_iff, List.isEmpty_iff]

/-- On a ring that stores the queue's items each call replies as the queue does and leaves the
ring storing the queue's new items. -/
theorem exec_refines (h : r.Stores bits base q) (op : Op T) :
    ∃ r' base', exec r op = some (r', (execFifo q op).2) ∧
      r'.Stores bits base' (execFifo q op).1 := by
  have hput (obj : ℕ → T) (n : UInt32) (b : RingQueueBehavior) (isSp : UInt32) :
      ∃ r' base', (ringDoEnqueue r obj n b isSp).map Reply.ofEnqueue =
          some (r', (put q b.batching obj n.toNat).2) ∧
        r'.Stores bits base' (put q b.batching obj n.toNat).1 := by
    obtain ⟨r', hcall, hstores⟩ := ringDoEnqueue_stores h obj n b isSp
    refine ⟨r', base, ?_, hstores⟩
    have hmoved := Batching.moved_le_limit b.batching n.toNat q.room
    have hroom := (q.enqueue b.batching (batch obj n.toNat)).room_le
    simp only [hcall, Option.map_some, Reply.ofEnqueue, put]
    rw [h.word_toNat (hmoved.trans q.room_le), h.word_toNat hroom]
  have htake (obj : ℕ → T) (n : UInt32) (b : RingQueueBehavior) (isSc : UInt32) :
      ∃ r' base', (ringDoDequeue r obj n b isSc).map Reply.ofDequeue =
          some (r', (take q b.batching obj n.toNat).2) ∧
        r'.Stores bits base' (take q b.batching obj n.toNat).1 := by
    obtain ⟨r', base', hcall, hstores⟩ := ringDoDequeue_stores h obj n b isSc
    refine ⟨r', base', ?_, hstores⟩
    have hmoved := Batching.moved_le_limit b.batching n.toNat q.items.length
    simp only [hcall, Option.map_some, Reply.ofDequeue, take]
    rw [h.word_toNat (hmoved.trans q.bounded), h.word_toNat (Fifo.bounded _)]
  cases op with
  | ringDoEnqueue obj n b isSp => exact hput obj n b isSp
  | ringMpEnqueueBulk obj n => exact hput obj n .ringQueueFixed isMp
  | ringSpEnqueueBulk obj n => exact hput obj n .ringQueueFixed isSp
  | ringEnqueueBulk obj n => exact hput obj n .ringQueueFixed r.prod.single
  | ringMpEnqueue obj => exact enqueueOne_stores h obj isMp ringMpEnqueueBulk rfl
  | ringSpEnqueue obj => exact enqueueOne_stores h obj isSp ringSpEnqueueBulk rfl
  | ringEnqueue obj => exact enqueueOne_stores h obj r.prod.single ringEnqueueBulk rfl
  | ringDoDequeue obj n b isSc => exact htake obj n b isSc
  | ringMcDequeueBulk obj n => exact htake obj n .ringQueueFixed isMc
  | ringScDequeueBulk obj n => exact htake obj n .ringQueueFixed isSc
  | ringDequeueBulk obj n => exact htake obj n .ringQueueFixed r.cons.single
  | ringMcDequeue objP => exact dequeueOne_stores h objP isMc ringMcDequeueBulk rfl
  | ringScDequeue objP => exact dequeueOne_stores h objP isSc ringScDequeueBulk rfl
  | ringDequeue objP => exact dequeueOne_stores h objP r.cons.single ringDequeueBulk rfl
  | ringCount =>
      exact ⟨r, base, by simp only [exec, execFifo, h.ringCount_eq, h.word_toNat q.bounded], h⟩
  | ringFreeCount =>
      exact ⟨r, base, by simp only [exec, execFifo, h.ringFreeCount_eq, h.word_toNat q.room_le], h⟩
  | ringFull => exact ⟨r, base, by simp only [exec, execFifo, h.ringFull_eq], h⟩
  | ringEmpty => exact ⟨r, base, by simp only [exec, execFifo, h.ringEmpty_eq], h⟩

end Stores

/-! ## Call sequences -/

theorem execAll_refines {r : BufferRing T} {capacity bits base : ℕ} {q : Fifo T capacity}
    (h : r.Stores bits base q) (ops : List (Op T)) :
    ∃ r' base', execAll r ops = some (r', (execFifoAll q ops).2) ∧
      r'.Stores bits base' (execFifoAll q ops).1 := by
  induction ops generalizing r q base with
  | nil => exact ⟨r, base, rfl, h⟩
  | cons op ops ih =>
      obtain ⟨r₁, base₁, hexec, hstores⟩ := exec_refines h op
      obtain ⟨r₂, base₂, hrest, hfinal⟩ := ih hstores
      exact ⟨r₂, base₂, by simp [execAll, execFifoAll, hexec, hrest], hfinal⟩

theorem BufferRing.stores_empty (r : BufferRing T) {bits : ℕ} (hsize : r.size.toNat = 2 ^ bits)
    (hmask : r.mask = r.size - 1) (hcap : r.capacity ≤ r.mask)
    (hprod : r.prod.tail = r.prod.head) (hcons : r.cons.head = r.prod.head)
    (htail : r.cons.tail = r.prod.head) :
    r.Stores bits r.prod.head.toNat (Fifo.empty : Fifo T r.capacity.toNat) := by
  have hbits : bits < 32 := bits_lt hsize
  have hone : 1 ≤ 2 ^ bits := Nat.one_le_two_pow
  have hmaskNat : r.mask.toNat = 2 ^ bits - 1 := by rw [hmask, mask_toNat hsize]
  have hcapNat : r.capacity.toNat < 2 ^ bits := by
    rw [UInt32.le_iff_toNat_le, hmaskNat] at hcap
    omega
  refine ⟨⟨by omega, hsize, hmaskNat, hcapNat⟩, rfl, ?_, ?_, rfl⟩
  · simp [mem, hcons, htail]
  · simp [mem, hprod, Fifo.empty]

/-- A ring with equal indices, wherever they stand, is an empty queue of `capacity` items: any
sequence of calls that do not overlap is answered as that queue answers it, and afterwards the
tails are as far apart as the queue is long and the queries report its occupancy. -/
theorem bufferRing_refines_fifo (r : BufferRing T) {bits : ℕ} (hsize : r.size.toNat = 2 ^ bits)
    (hmask : r.mask = r.size - 1) (hcap : r.capacity ≤ r.mask)
    (hprod : r.prod.tail = r.prod.head) (hcons : r.cons.head = r.prod.head)
    (htail : r.cons.tail = r.prod.head) (ops : List (Op T)) :
    ∃ r', let (q, replies) := execFifoAll (Fifo.empty : Fifo T r.capacity.toNat) ops
      execAll r ops = some (r', replies) ∧
        (r'.prod.tail - r'.cons.tail).toNat = q.items.length ∧
        (ringCount r').toNat = q.items.length ∧ (ringFreeCount r').toNat = q.room ∧
        ringFull r' = (q.items.length == r.capacity.toNat) ∧ ringEmpty r' = q.items.isEmpty := by
  obtain ⟨r', base', hexec, h⟩ :=
    execAll_refines (r.stores_empty hsize hmask hcap hprod hcons htail) ops
  have hlen := (execFifoAll (Fifo.empty : Fifo T r.capacity.toNat) ops).1.bounded
  refine ⟨r', hexec, ?_, ?_, ?_, h.ringFull_eq, h.ringEmpty_eq⟩
  · have hprod' : r'.prod.tail = word (base' + _) := congrArg (·.tail) h.stores.prod_eq
    have hcons' : r'.cons.tail = word base' := congrArg (·.tail) h.stores.cons_eq
    rw [hprod', hcons', word_sub (Nat.le_add_right _ _), Nat.add_sub_cancel_left,
      h.word_toNat hlen]
  · rw [h.ringCount_eq, h.word_toNat hlen]
  · rw [h.ringFreeCount_eq, h.word_toNat (Fifo.room_le _)]

/-- Eight slots for exactly five items, with indices two short of the wrap. -/
theorem bufferRing_refines_fifo_of_five :
    ∃ r', let r : BufferRing ℕ := ⟨8, 7, 5, ⟨4294967294, 4294967294, 1⟩,
        ⟨4294967294, 4294967294, 0⟩, fun _ => 0⟩
      let (q, replies) := execFifoAll (Fifo.empty : Fifo ℕ r.capacity.toNat)
        [.ringDoEnqueue id 9 .ringQueueVariable isMp, .ringMcDequeueBulk id 3, .ringEnqueue 7]
      execAll r [.ringDoEnqueue id 9 .ringQueueVariable isMp, .ringMcDequeueBulk id 3,
          .ringEnqueue 7] = some (r', replies) ∧
        (r'.prod.tail - r'.cons.tail).toNat = q.items.length ∧
        (ringCount r').toNat = q.items.length ∧ (ringFreeCount r').toNat = q.room ∧
        ringFull r' = (q.items.length == r.capacity.toNat) ∧ ringEmpty r' = q.items.isEmpty :=
  @bufferRing_refines_fifo ℕ _ 3 (by decide) (by decide) (by decide) rfl rfl rfl _

end Restore.BufferRingC
