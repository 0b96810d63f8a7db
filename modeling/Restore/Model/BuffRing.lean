import Mathlib.Algebra.GroupWithZero.Nat
import Mathlib.Logic.Function.Basic
import Mathlib.Data.Nat.Notation

/-! # `BuffRing<T>` of `buffer_ring.h`

The constructor, the copy macros and the member functions, each run with no other
call in between. `none` stands for a call that never returns: alone, a loop whose
test failed once reads the same values for ever. -/

namespace Restore.BuffRing

inductive BuffRingBehavior
  | kRingQueueFixed
  | kRingQueueVariable
  deriving DecidableEq, Repr

/-- The members that only the constructor assigns. -/
structure RingConfig where
  size : UInt32
  mask : UInt32
  capacity : UInt32
  behavior : BuffRingBehavior
  singleProducer : Bool
  singleConsumer : Bool
  deriving DecidableEq, Repr

structure RingHeadtail where
  head : UInt32 := 0
  tail : UInt32 := 0
  deriving DecidableEq, Repr

/-- The members that calls change. `data` is the slot array `data_`. -/
structure RingMem (T : Type*) where
  prod : RingHeadtail
  cons : RingHeadtail
  data : ℕ → T

/-! ## Construction -/

def isPowerOf2 (n : UInt32) : Bool :=
  n != 0 && (n &&& (n - 1)) == 0

/-- `for (i = a; i != 0; i >>= 1) position++;`. The counter `i` is an `int`, so the
shift copies its sign bit. -/
def positionLoop : ℕ → BitVec 32 → UInt32 → Option UInt32
  | 0, _, _ => none
  | fuel + 1, i, position =>
      if i = 0 then some position else positionLoop fuel (i.sshiftRight 1) (position + 1)

def roundupPowerOf2 (fuel : ℕ) (a : UInt32) : Option UInt32 :=
  if isPowerOf2 a then some a
  else (positionLoop fuel a.toBitVec 0).map fun position => (1 : UInt32) <<< position

/-- `BuffRing(size, behavior, single_producer, single_consumer)` over fresh slots. -/
def buffRing {T : Type*} (fuel : ℕ) (size : UInt32) (behavior : BuffRingBehavior)
    (singleProducer singleConsumer : Bool) (data : ℕ → T) :
    Option (RingConfig × RingMem T) :=
  (roundupPowerOf2 fuel size).map fun size =>
    (⟨size, size - 1, size - 1, behavior, singleProducer, singleConsumer⟩, ⟨{}, {}, data⟩)

/-! ## The copy macros

`ENQUEUE_PTRS` and `DEQUEUE_PTRS` run through the same pairs `(i, idx)` of an item
index and a slot index and differ in the direction of the assignment. -/

/-- `for (i = 0; i < (n & ~3); i += 4, idx += 4)`, entered with `rounds` rounds to go. -/
def unrolledLoop : ℕ → ℕ → ℕ → List (ℕ × ℕ)
  | 0, _, _ => []
  | rounds + 1, i, idx =>
      (i, idx) :: (i + 1, idx + 1) :: (i + 2, idx + 2) :: (i + 3, idx + 3) ::
        unrolledLoop rounds (i + 4) (idx + 4)

/-- `switch (n & 0x3)`: every case falls through to the smaller ones. -/
def switchTail (rest i idx : ℕ) : List (ℕ × ℕ) :=
  match rest with
  | 3 => [(i, idx), (i + 1, idx + 1), (i + 2, idx + 2)]
  | 2 => [(i, idx), (i + 1, idx + 1)]
  | 1 => [(i, idx)]
  | _ => []

/-- A loop that advances `i` and `idx` together, with `rounds` rounds to go. -/
def countLoop : ℕ → ℕ → ℕ → List (ℕ × ℕ)
  | 0, _, _ => []
  | rounds + 1, i, idx => (i, idx) :: countLoop rounds (i + 1) (idx + 1)

def ptrPairs (c : RingConfig) (head n : UInt32) : List (ℕ × ℕ) :=
  let idx := head &&& c.mask
  if idx + n < c.size then
    let unrolled := (n &&& ~~~3).toNat
    unrolledLoop (unrolled / 4) 0 idx.toNat ++
      switchTail (n &&& 3).toNat unrolled (idx.toNat + unrolled)
  else
    -- `idx` runs up to `size`, then from 0 until `i` reaches `n`
    let upper := c.size.toNat - idx.toNat
    countLoop upper 0 idx.toNat ++ countLoop (n.toNat - upper) upper 0

def enqueuePtrs {T : Type*} (c : RingConfig) (prodHead : UInt32) (obj : ℕ → T) (n : UInt32)
    (data : ℕ → T) : ℕ → T :=
  (ptrPairs c prodHead n).foldl (fun ring p => Function.update ring p.2 (obj p.1)) data

def dequeuePtrs {T : Type*} (c : RingConfig) (consHead : UInt32) (obj : ℕ → T) (n : UInt32)
    (data : ℕ → T) : ℕ → T :=
  (ptrPairs c consHead n).foldl (fun obj p => Function.update obj p.1 (data p.2)) obj

/-! ## Head moves and tail updates

`MoveProdHead` and `MoveConsumerHead` are one protocol on the two sides of the ring. -/

inductive Side
  | prod
  | cons
  deriving DecidableEq, Repr

def Side.other : Side → Side
  | .prod => .cons
  | .cons => .prod

def RingMem.ht {T : Type*} (m : RingMem T) : Side → RingHeadtail
  | .prod => m.prod
  | .cons => m.cons

def RingMem.setHead {T : Type*} (m : RingMem T) (σ : Side) (head : UInt32) : RingMem T :=
  match σ with
  | .prod => { m with prod := { m.prod with head } }
  | .cons => { m with cons := { m.cons with head } }

def RingMem.setTail {T : Type*} (m : RingMem T) (σ : Side) (tail : UInt32) : RingMem T :=
  match σ with
  | .prod => { m with prod := { m.prod with tail } }
  | .cons => { m with cons := { m.cons with tail } }

def RingConfig.single (c : RingConfig) : Side → Bool
  | .prod => c.singleProducer
  | .cons => c.singleConsumer

/-- `*free_entries = capacity + cons_tail - *old_head` and `*entries = prod_tail - *old_head`. -/
def RingConfig.entries (c : RingConfig) (σ : Side) (otherTail oldHead : UInt32) : UInt32 :=
  match σ with
  | .prod => c.capacity + otherTail - oldHead
  | .cons => otherTail - oldHead

/-- `if (n > entries) n = (behavior_ == kRingQueueFixed) ? 0 : entries;` -/
def RingConfig.clamp (c : RingConfig) (n entries : UInt32) : UInt32 :=
  if n > entries then
    if c.behavior = .kRingQueueFixed then 0 else entries
  else n

/-- What a head move hands back: the count and its three out parameters. -/
structure HeadMove where
  n : UInt32
  oldHead : UInt32
  newHead : UInt32
  entries : UInt32
  deriving DecidableEq, Repr

/-- `AtomicCAS(&head, expected, desired)` on one side's head. -/
def RingMem.casHead {T : Type*} (m : RingMem T) (σ : Side) (expected desired : UInt32) :
    RingMem T × Bool :=
  if (m.ht σ).head = expected then (m.setHead σ desired, true) else (m, false)

def moveHead {T : Type*} (c : RingConfig) (σ : Side) (m : RingMem T) (n : UInt32) :
    Option (RingMem T × HeadMove) :=
  let oldHead := (m.ht σ).head
  let entries := c.entries σ (m.ht σ.other).tail oldHead
  let n := c.clamp n entries
  if n = 0 then some (m, ⟨0, oldHead, oldHead, entries⟩)
  else
    let newHead := oldHead + n
    if c.single σ then some (m.setHead σ newHead, ⟨n, oldHead, newHead, entries⟩)
    else
      match m.casHead σ oldHead newHead with
      | (m, true) => some (m, ⟨n, oldHead, newHead, entries⟩)
      | (_, false) => none

def moveProdHead {T : Type*} (c : RingConfig) (m : RingMem T) (n : UInt32) :
    Option (RingMem T × HeadMove) :=
  moveHead c .prod m n

def moveConsumerHead {T : Type*} (c : RingConfig) (m : RingMem T) (n : UInt32) :
    Option (RingMem T × HeadMove) :=
  moveHead c .cons m n

def updateTail {T : Type*} (m : RingMem T) (σ : Side) (oldVal newVal : UInt32)
    (single : Bool) : Option (RingMem T) :=
  if !single && (m.ht σ).tail != oldVal then none else some (m.setTail σ newVal)

/-! ## Calls -/

/-- `DoEnqueue(obj, n, &free_space)`: the returned count and `*free_space`. -/
def doEnqueue {T : Type*} (c : RingConfig) (m : RingMem T) (obj : ℕ → T) (n : UInt32) :
    Option (RingMem T × UInt32 × UInt32) := do
  let (m, mv) ← moveProdHead c m n
  if mv.n = 0 then return (m, mv.n, mv.entries - mv.n)
  let m := { m with data := enqueuePtrs c mv.oldHead obj mv.n m.data }
  let m ← updateTail m .prod mv.oldHead mv.newHead c.singleProducer
  return (m, mv.n, mv.entries - mv.n)

/-- `DoDequeue(obj, n, &available)`: the filled `obj`, the returned count and `*available`. -/
def doDequeue {T : Type*} (c : RingConfig) (m : RingMem T) (obj : ℕ → T) (n : UInt32) :
    Option (RingMem T × (ℕ → T) × UInt32 × UInt32) := do
  let (m, mv) ← moveConsumerHead c m n
  if mv.n = 0 then return (m, obj, mv.n, mv.entries - mv.n)
  let obj := dequeuePtrs c mv.oldHead obj mv.n m.data
  let m ← updateTail m .cons mv.oldHead mv.newHead c.singleConsumer
  return (m, obj, mv.n, mv.entries - mv.n)

/-- `RingCount` from the two tails it loads. -/
def RingConfig.countOf (c : RingConfig) (prodTail consTail : UInt32) : UInt32 :=
  let count := (prodTail - consTail) &&& c.mask
  if count > c.capacity then c.capacity else count

def ringCount {T : Type*} (c : RingConfig) (m : RingMem T) : UInt32 :=
  c.countOf m.prod.tail m.cons.tail

def ringFreeCount {T : Type*} (c : RingConfig) (m : RingMem T) : UInt32 :=
  c.capacity - ringCount c m

def ringFull {T : Type*} (c : RingConfig) (m : RingMem T) : Bool :=
  ringFreeCount c m == 0

def ringEmpoty {T : Type*} (c : RingConfig) (m : RingMem T) : Bool :=
  ringCount c m == 0

end Restore.BuffRing
