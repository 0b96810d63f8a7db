import Restore.Model.BuffRing

/-! # `struct buffer_ring` of `buffer_ring_c.h`

The C ring. Its copy macros run through the same indices as those of `BuffRing<T>`; capacity,
behaviour and the single flag of a call are not tied to the ring's size. `none` stands for a
call that never returns. -/

namespace Restore.BufferRingC

open Restore.BuffRing (HeadMove RingConfig)

inductive RingQueueBehavior
  | ringQueueFixed
  | ringQueueVariable
  deriving DecidableEq, Repr

structure RingHeadtail where
  head : UInt32
  tail : UInt32
  single : UInt32
  deriving DecidableEq, Repr

/-- `data` is what follows the structure in memory, from `&r[1]` on. -/
structure BufferRing (T : Type*) where
  size : UInt32
  mask : UInt32
  capacity : UInt32
  prod : RingHeadtail
  cons : RingHeadtail
  data : ℕ → T

def isSp : UInt32 := 1
def isMp : UInt32 := 0
def isSc : UInt32 := 1
def isMc : UInt32 := 0

def enobufs : Int := 105
def enoent : Int := 2

variable {T : Type*}

/-! ## Head moves and tail updates -/

def updateTail (ht : RingHeadtail) (oldVal newVal single : UInt32) : Option RingHeadtail :=
  if single = 0 ∧ ht.tail ≠ oldVal then none else some { ht with tail := newVal }

/-- `AtomicCAS(&ht.head, expected, desired)`. -/
def RingHeadtail.casHead (ht : RingHeadtail) (expected desired : UInt32) : RingHeadtail × Bool :=
  if ht.head = expected then ({ ht with head := desired }, true) else (ht, false)

/-- `if (n > entries) n = (behavior == RING_QUEUE_FIXED) ? 0 : entries;` -/
def clamp (behavior : RingQueueBehavior) (n entries : UInt32) : UInt32 :=
  if n > entries then
    if behavior = .ringQueueFixed then 0 else entries
  else n

def ringMoveProdHead (r : BufferRing T) (isSp n : UInt32) (behavior : RingQueueBehavior) :
    Option (BufferRing T × HeadMove) :=
  let oldHead := r.prod.head
  let consTail := r.cons.tail
  let freeEntries := r.capacity + consTail - oldHead
  let n := clamp behavior n freeEntries
  if n = 0 then some (r, ⟨0, oldHead, oldHead, freeEntries⟩)
  else
    let newHead := oldHead + n
    if isSp ≠ 0 then
      some ({ r with prod := { r.prod with head := newHead } }, ⟨n, oldHead, newHead, freeEntries⟩)
    else
      match r.prod.casHead oldHead newHead with
      | (prod, true) => some ({ r with prod }, ⟨n, oldHead, newHead, freeEntries⟩)
      | (_, false) => none

def ringMoveConsHead (r : BufferRing T) (isSc n : UInt32) (behavior : RingQueueBehavior) :
    Option (BufferRing T × HeadMove) :=
  let oldHead := r.cons.head
  let prodTail := r.prod.tail
  let entries := prodTail - oldHead
  let n := clamp behavior n entries
  if n = 0 then some (r, ⟨0, oldHead, oldHead, entries⟩)
  else
    let newHead := oldHead + n
    if isSc ≠ 0 then
      some ({ r with cons := { r.cons with head := newHead } }, ⟨n, oldHead, newHead, entries⟩)
    else
      match r.cons.casHead oldHead newHead with
      | (cons, true) => some ({ r with cons }, ⟨n, oldHead, newHead, entries⟩)
      | (_, false) => none

/-! ## Calls -/

/-- The ring as `BuffRing<T>` has it, for calls of one behaviour and these single flags. -/
def BufferRing.config (r : BufferRing T) (behavior : RingQueueBehavior) (isSp isSc : UInt32) :
    RingConfig :=
  ⟨r.size, r.mask, r.capacity,
    match behavior with
    | .ringQueueFixed => .kRingQueueFixed
    | .ringQueueVariable => .kRingQueueVariable,
    isSp != 0, isSc != 0⟩

/-- `ENQUEUE_PTRS(r, &r[1], prod_head, obj_table, n, void *)`. -/
def enqueuePtrs (r : BufferRing T) (prodHead : UInt32) (objTable : ℕ → T) (n : UInt32) : ℕ → T :=
  BuffRing.enqueuePtrs (r.config .ringQueueFixed isMp isMc) prodHead objTable n r.data

/-- `DEQUEUE_PTRS(r, &r[1], cons_head, obj_table, n, void *)`. -/
def dequeuePtrs (r : BufferRing T) (consHead : UInt32) (objTable : ℕ → T) (n : UInt32) : ℕ → T :=
  BuffRing.dequeuePtrs (r.config .ringQueueFixed isMp isMc) consHead objTable n r.data

/-- The returned count and `*free_space`. -/
def ringDoEnqueue (r : BufferRing T) (objTable : ℕ → T) (n : UInt32)
    (behavior : RingQueueBehavior) (isSp : UInt32) : Option (BufferRing T × UInt32 × UInt32) := do
  let (r, mv) ← ringMoveProdHead r isSp n behavior
  if mv.n = 0 then return (r, mv.n, mv.entries - mv.n)
  let r := { r with data := enqueuePtrs r mv.oldHead objTable mv.n }
  (updateTail r.prod mv.oldHead mv.newHead isSp).map fun prod =>
    ({ r with prod }, mv.n, mv.entries - mv.n)

/-- The filled `obj_table`, the returned count and `*available`. -/
def ringDoDequeue (r : BufferRing T) (objTable : ℕ → T) (n : UInt32)
    (behavior : RingQueueBehavior) (isSc : UInt32) :
    Option (BufferRing T × (ℕ → T) × UInt32 × UInt32) := do
  let (r, mv) ← ringMoveConsHead r isSc n behavior
  if mv.n = 0 then return (r, objTable, mv.n, mv.entries - mv.n)
  let objTable := dequeuePtrs r mv.oldHead objTable mv.n
  (updateTail r.cons mv.oldHead mv.newHead isSc).map fun cons =>
    ({ r with cons }, objTable, mv.n, mv.entries - mv.n)

def ringMpEnqueueBulk (r : BufferRing T) (objTable : ℕ → T) (n : UInt32) :=
  ringDoEnqueue r objTable n .ringQueueFixed isMp

def ringSpEnqueueBulk (r : BufferRing T) (objTable : ℕ → T) (n : UInt32) :=
  ringDoEnqueue r objTable n .ringQueueFixed isSp

def ringEnqueueBulk (r : BufferRing T) (objTable : ℕ → T) (n : UInt32) :=
  ringDoEnqueue r objTable n .ringQueueFixed r.prod.single

/-- `bulk(r, &obj, 1, NULL) ? 0 : -ENOBUFS`. -/
def enqueueOne (bulk : BufferRing T → (ℕ → T) → UInt32 → Option (BufferRing T × UInt32 × UInt32))
    (r : BufferRing T) (obj : T) : Option (BufferRing T × Int) :=
  (bulk r (fun _ => obj) 1).map fun (r, n, _) => (r, if n ≠ 0 then 0 else -enobufs)

def ringMpEnqueue (r : BufferRing T) (obj : T) := enqueueOne ringMpEnqueueBulk r obj
def ringSpEnqueue (r : BufferRing T) (obj : T) := enqueueOne ringSpEnqueueBulk r obj
def ringEnqueue (r : BufferRing T) (obj : T) := enqueueOne ringEnqueueBulk r obj

def ringMcDequeueBulk (r : BufferRing T) (objTable : ℕ → T) (n : UInt32) :=
  ringDoDequeue r objTable n .ringQueueFixed isMc

def ringScDequeueBulk (r : BufferRing T) (objTable : ℕ → T) (n : UInt32) :=
  ringDoDequeue r objTable n .ringQueueFixed isSc

def ringDequeueBulk (r : BufferRing T) (objTable : ℕ → T) (n : UInt32) :=
  ringDoDequeue r objTable n .ringQueueFixed r.cons.single

/-- `bulk(r, obj_p, 1, NULL) ? 0 : -ENOENT`, with `*obj_p` afterwards. -/
def dequeueOne
    (bulk : BufferRing T → (ℕ → T) → UInt32 → Option (BufferRing T × (ℕ → T) × UInt32 × UInt32))
    (r : BufferRing T) (objP : T) : Option (BufferRing T × T × Int) :=
  (bulk r (fun _ => objP) 1).map fun (r, objTable, n, _) =>
    (r, objTable 0, if n ≠ 0 then 0 else -enoent)

def ringMcDequeue (r : BufferRing T) (objP : T) := dequeueOne ringMcDequeueBulk r objP
def ringScDequeue (r : BufferRing T) (objP : T) := dequeueOne ringScDequeueBulk r objP
def ringDequeue (r : BufferRing T) (objP : T) := dequeueOne ringDequeueBulk r objP

/-! ## Queries -/

def ringCount (r : BufferRing T) : UInt32 :=
  let prodTail := r.prod.tail
  let consTail := r.cons.tail
  let count := (prodTail - consTail) &&& r.mask
  if count > r.capacity then r.capacity else count

def ringFreeCount (r : BufferRing T) : UInt32 := r.capacity - ringCount r

def ringFull (r : BufferRing T) : Bool := ringFreeCount r == 0

def ringEmpty (r : BufferRing T) : Bool := ringCount r == 0

end Restore.BufferRingC
