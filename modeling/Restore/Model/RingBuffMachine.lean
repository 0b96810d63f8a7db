import Restore.Model.RingBuff
import Restore.Model.RingMachine

/-! # Interleaved calls on one `RingBuff`

Any number of threads run `Put` and one runs `GetHalf`, as in `rb_test.cc`. Each step makes
one access to shared memory: a read of an index, a fetch-and-add, or the copy of one item. The
indices are read in the order in which the tests name them. -/

namespace Restore.RingBuff

open BuffRing

/-- Where a thread stands in `Put(&item)`, with the locals it still needs. -/
inductive PutPc (T : Type*)
  | idle
  | loadWd (item : T)
  | loadRd (item : T) (wdIndex : UInt32)
  | fetchAdd (item : T)
  | copy (item : T) (wdIdx : UInt32)
  | returned (item : T) (ret : Int32)

/-- Where the consumer stands in `GetHalf(item)`. -/
inductive GetPc (T : Type*)
  | idle
  | loadWd (item : ℕ → T)
  | loadRd (item : ℕ → T) (wdIndex : UInt32)
  | loadIdx (item : ℕ → T)
  | copy (item : ℕ → T) (idx i : ℕ)
  | fetchAdd (item : ℕ → T)
  | returned (item : ℕ → T) (ret : Int32)

structure Machine (ι T : Type*) where
  ring : RingBuff T
  put : ι → PutPc T
  get : GetPc T

variable {ι T : Type*} [DecidableEq ι]

def Machine.gotoPut (s : Machine ι T) (t : ι) (pc : PutPc T) : Machine ι T :=
  { s with put := Function.update s.put t pc }

/-- The next step of thread `t` in `Put`. -/
def Machine.runPut (s : Machine ι T) (t : ι) : Machine ι T :=
  match s.put t with
  | .idle => s
  | .loadWd item => s.gotoPut t (.loadRd item s.ring.wdIndex)
  | .loadRd item wdIndex =>
      if wdIndex ≥ s.ring.rdIndex + s.ring.size then s.gotoPut t (.returned item (-1))
      else s.gotoPut t (.fetchAdd item)
  | .fetchAdd item =>
      { s with ring := { s.ring with wdIndex := s.ring.wdIndex + 1 } }.gotoPut t
        (.copy item s.ring.wdIndex)
  | .copy item wdIdx =>
      let idx := wdIdx &&& (s.ring.size - 1)
      { s with ring := { s.ring with
          data := Function.update s.ring.data idx.toNat item } }.gotoPut t (.returned item 0)
  | .returned _ _ => s.gotoPut t .idle

/-- The next step of the consumer in `GetHalf`. -/
def Machine.runGet (s : Machine ι T) : Machine ι T :=
  let halfSize := s.ring.size >>> 1
  match s.get with
  | .idle => s
  | .loadWd item => { s with get := .loadRd item s.ring.wdIndex }
  | .loadRd item wdIndex =>
      if wdIndex ≥ s.ring.rdIndex + halfSize then { s with get := .loadIdx item }
      else { s with get := .returned item 0 }
  | .loadIdx item =>
      let idx := s.ring.rdIndex &&& (s.ring.size - 1)
      { s with get := .copy item idx.toNat 0 }
  | .copy item idx i =>
      if i < halfSize.toNat then
        { s with get := .copy (Function.update item i (s.ring.data (idx + i))) idx (i + 1) }
      else { s with get := .fetchAdd item }
  | .fetchAdd item =>
      { s with
        ring := { s.ring with rdIndex := s.ring.rdIndex + halfSize }
        get := .returned item 1 }
  | .returned _ _ => { s with get := .idle }

/-- A scheduler's choice: an idle thread enters a call, or a thread takes its next step. -/
inductive Action (ι T : Type*)
  | enterPut (t : ι) (item : T)
  | enterGet (item : ℕ → T)
  | put (t : ι)
  | get

def Machine.act (s : Machine ι T) : Action ι T → Machine ι T
  | .enterPut t item =>
      match s.put t with
      | .idle => s.gotoPut t (.loadWd item)
      | _ => s
  | .enterGet item =>
      match s.get with
      | .idle => { s with get := .loadWd item }
      | _ => s
  | .put t => s.runPut t
  | .get => s.runGet

/-! ## Book-keeping -/

/-- What has been reserved, copied and delivered so far. The machine never reads it. -/
structure Books (ι T : Type*) where
  /-- The items of `Put` calls, in the order of their fetch-and-adds. -/
  reserved : List T
  /-- The place of the thread's latest reservation in `reserved`. -/
  ticket : ι → ℕ
  /-- The reservations whose item has been copied into its slot. -/
  copied : ℕ → Bool
  /-- The items that `GetHalf` calls have delivered. -/
  delivered : List T

def Books.reserve (b : Books ι T) (t : ι) (item : T) : Books ι T :=
  { b with
    reserved := b.reserved ++ [item]
    ticket := Function.update b.ticket t b.reserved.length }

def Books.store (b : Books ι T) (t : ι) : Books ι T :=
  { b with copied := Function.update b.copied (b.ticket t) true }

def Books.deliver (b : Books ι T) (items : List T) : Books ι T :=
  { b with delivered := b.delivered ++ items }

def Books.record (s : Machine ι T) (b : Books ι T) : Action ι T → Books ι T
  | .put t =>
      match s.put t with
      | .fetchAdd item => b.reserve t item
      | .copy _ _ => b.store t
      | _ => b
  | .get =>
      match s.get with
      | .fetchAdd item => b.deliver (batch item (s.ring.size >>> 1).toNat)
      | _ => b
  | _ => b

/-! ## Runs -/

structure World (ι T : Type*) where
  machine : Machine ι T
  books : Books ι T

/-- A constructed ring that no thread has used yet. -/
def World.start (r : RingBuff T) : World ι T where
  machine := ⟨r, fun _ => .idle, .idle⟩
  books := ⟨[], fun _ => 0, fun _ => false, []⟩

def World.next (w : World ι T) (a : Action ι T) : World ι T :=
  ⟨w.machine.act a, w.books.record w.machine a⟩

/-- What threads can bring about on the ring `r` with fewer than `2 ^ 31` items. -/
def World.Reachable (r : RingBuff T) (w : World ι T) : Prop :=
  Relation.ReflTransGen
    (fun w w' => ∃ a, w' = w.next a ∧ w'.books.reserved.length < 2 ^ 31) (World.start r) w

/-- The fullness test of `Put` still holds at its fetch-and-add, and `GetHalf` does not pass
its test while one of the items that it goes on to copy is not in its slot. -/
def World.Settled (w : World ι T) : Action ι T → Prop
  | .put t =>
      match w.machine.put t with
      | .fetchAdd _ => w.machine.ring.wdIndex < w.machine.ring.rdIndex + w.machine.ring.size
      | _ => True
  | .get =>
      match w.machine.get with
      | .loadRd _ wdIndex =>
          wdIndex ≥ w.machine.ring.rdIndex + w.machine.ring.size >>> 1 →
            ∀ i < (w.machine.ring.size >>> 1).toNat,
              w.books.copied (w.books.delivered.length + i) = true
      | _ => True
  | _ => True

/-- The same by steps that all find the ring as their tests have found it. -/
def World.ReachableSettled (r : RingBuff T) (w : World ι T) : Prop :=
  Relation.ReflTransGen
    (fun w w' => ∃ a, w' = w.next a ∧ w'.books.reserved.length < 2 ^ 31 ∧ w.Settled a)
    (World.start r) w

end Restore.RingBuff
