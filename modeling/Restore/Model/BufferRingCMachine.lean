import Restore.Model.BufferRingC
import Restore.Model.RingMachine

/-! # Interleaved calls on one `struct buffer_ring`

Any number of threads call the bulk functions of `buffer_ring_c.h` and `ring_count` on a shared
ring. Each call has a single flag of its own, so calls of the single and the multi functions may
run at the same time. Each step makes at most one access to shared memory. -/

namespace Restore.BufferRingC

open Restore.BuffRing (Side HeadMove Books ptrPairs)

variable {T : Type*}

/-! ## Calls -/

/-- The functions of the interface. Those for one object call these with `n = 1`. -/
inductive Entry
  | ringMpEnqueueBulk
  | ringSpEnqueueBulk
  | ringEnqueueBulk
  | ringMcDequeueBulk
  | ringScDequeueBulk
  | ringDequeueBulk
  deriving DecidableEq, Repr

/-- A call of `__ring_do_enqueue` or `__ring_do_dequeue` with `RING_QUEUE_FIXED`. -/
structure Call (T : Type*) where
  side : Side
  objTable : ℕ → T
  n : UInt32
  single : UInt32

/-- The arguments that a function of the interface passes on. -/
def Entry.call (r : BufferRing T) (entry : Entry) (objTable : ℕ → T) (n : UInt32) : Call T :=
  match entry with
  | .ringMpEnqueueBulk => ⟨.prod, objTable, n, isMp⟩
  | .ringSpEnqueueBulk => ⟨.prod, objTable, n, isSp⟩
  | .ringEnqueueBulk => ⟨.prod, objTable, n, r.prod.single⟩
  | .ringMcDequeueBulk => ⟨.cons, objTable, n, isMc⟩
  | .ringScDequeueBulk => ⟨.cons, objTable, n, isSc⟩
  | .ringDequeueBulk => ⟨.cons, objTable, n, r.cons.single⟩

/-! ## The two sides -/

def BufferRing.ht (r : BufferRing T) : Side → RingHeadtail
  | .prod => r.prod
  | .cons => r.cons

def BufferRing.setHt (r : BufferRing T) (σ : Side) (ht : RingHeadtail) : BufferRing T :=
  match σ with
  | .prod => { r with prod := ht }
  | .cons => { r with cons := ht }

/-- `*free_entries = capacity + cons_tail - *old_head` and `*entries = prod_tail - *old_head`. -/
def BufferRing.entries (r : BufferRing T) (σ : Side) (otherTail oldHead : UInt32) : UInt32 :=
  match σ with
  | .prod => r.capacity + otherTail - oldHead
  | .cons => otherTail - oldHead

/-! ## Steps -/

/-- Where a thread stands in a call, with the locals it still needs. -/
inductive Pc (T : Type*)
  | idle
  | loadHead (call : Call T)
  | loadTail (call : Call T) (oldHead : UInt32)
  | moveHead (call : Call T) (mv : HeadMove)
  | copy (call : Call T) (mv : HeadMove) (i : ℕ)
  | awaitTail (call : Call T) (mv : HeadMove)
  | storeTail (call : Call T) (mv : HeadMove)
  | returned (call : Call T) (n space : UInt32)
  | loadProdTail
  | loadConsTail (prodTail : UInt32)
  | counted (count : UInt32)

structure Machine (ι T : Type*) where
  ring : BufferRing T
  pc : ι → Pc T

variable {ι : Type*} [DecidableEq ι]

def Machine.goto (s : Machine ι T) (t : ι) (pc : Pc T) : Machine ι T :=
  { s with pc := Function.update s.pc t pc }

/-- The next step of thread `t`. -/
def Machine.run (s : Machine ι T) (t : ι) : Machine ι T :=
  match s.pc t with
  | .idle => s
  | .loadHead call => s.goto t (.loadTail call (s.ring.ht call.side).head)
  | .loadTail call oldHead =>
      let entries := s.ring.entries call.side (s.ring.ht call.side.other).tail oldHead
      let n := clamp .ringQueueFixed call.n entries
      if n = 0 then s.goto t (.returned call n (entries - n))
      else s.goto t (.moveHead call ⟨n, oldHead, oldHead + n, entries⟩)
  | .moveHead call mv =>
      let ht := s.ring.ht call.side
      if call.single ≠ 0 then
        { s with ring := s.ring.setHt call.side { ht with head := mv.newHead } }.goto
          t (.copy call mv 0)
      else
        match ht.casHead mv.oldHead mv.newHead with
        | (ht, true) => { s with ring := s.ring.setHt call.side ht }.goto t (.copy call mv 0)
        | (_, false) => s.goto t (.loadHead call)
  | .copy call mv i =>
      match (ptrPairs (s.ring.config .ringQueueFixed isMp isMc) mv.oldHead mv.n)[i]? with
      | some (j, idx) =>
          match call.side with
          | .prod =>
              { s with ring := { s.ring with
                  data := Function.update s.ring.data idx (call.objTable j) } }.goto
                t (.copy call mv (i + 1))
          | .cons =>
              s.goto t (.copy
                { call with objTable := Function.update call.objTable j (s.ring.data idx) }
                mv (i + 1))
      | none => s.goto t (if call.single ≠ 0 then .storeTail call mv else .awaitTail call mv)
  | .awaitTail call mv =>
      if (s.ring.ht call.side).tail = mv.oldHead then s.goto t (.storeTail call mv) else s
  | .storeTail call mv =>
      let ht := s.ring.ht call.side
      { s with ring := s.ring.setHt call.side { ht with tail := mv.newHead } }.goto t
        (.returned call mv.n (mv.entries - mv.n))
  | .loadProdTail => s.goto t (.loadConsTail s.ring.prod.tail)
  | .loadConsTail prodTail =>
      let count := (prodTail - s.ring.cons.tail) &&& s.ring.mask
      s.goto t (.counted (if count > s.ring.capacity then s.ring.capacity else count))
  | .returned _ _ _ | .counted _ => s.goto t .idle

/-- A scheduler's choice: an idle thread enters a call, or a thread takes its next step. -/
inductive Action (ι T : Type*)
  | enter (t : ι) (entry : Entry) (objTable : ℕ → T) (n : UInt32)
  | enterCount (t : ι)
  | run (t : ι)

def Machine.act (s : Machine ι T) : Action ι T → Machine ι T
  | .enter t entry objTable n =>
      match s.pc t with
      | .idle => s.goto t (.loadHead (entry.call s.ring objTable n))
      | _ => s
  | .enterCount t =>
      match s.pc t with
      | .idle => s.goto t .loadProdTail
      | _ => s
  | .run t => s.run t

/-! ## Book-keeping and runs -/

def Call.toBuffRing (call : Call T) : BuffRing.Call T := ⟨call.side, call.objTable, call.n⟩

/-- The books of the ring in C++, kept for the calls of this one. -/
def Machine.record (s : Machine ι T) (b : Books ι T) : Action ι T → Books ι T
  | .run t =>
      match s.pc t with
      | .loadHead call => { b with seen := Function.update b.seen t (b.reserved call.side) }
      | .moveHead call mv =>
          if call.single ≠ 0 ∨ (s.ring.ht call.side).head = mv.oldHead then
            b.reserve t call.toBuffRing mv.n.toNat
          else b
      | .storeTail call mv => b.release t call.toBuffRing mv.n.toNat
      | _ => b
  | _ => b

structure World (ι T : Type*) where
  machine : Machine ι T
  books : Books ι T

/-- A ring that no thread has used yet. -/
def World.start (r : BufferRing T) : World ι T where
  machine := ⟨r, fun _ => .idle⟩
  books := ⟨fun _ => 0, fun _ => 0, fun _ => 0, [], [], fun _ => 0⟩

def World.next (w : World ι T) (a : Action ι T) : World ι T :=
  ⟨w.machine.act a, w.machine.record w.books a⟩

/-- The bulk call in progress. -/
def Pc.call? : Pc T → Option (Call T)
  | .loadHead call | .loadTail call _ | .moveHead call _ | .copy call _ _ | .awaitTail call _
  | .storeTail call _ => some call
  | _ => none

/-- The call whose head the thread has loaded in a loop iteration that has not ended. -/
def Pc.looping? : Pc T → Option (Call T)
  | .loadTail call _ | .moveHead call _ => some call
  | _ => none

/-- The conditions of use: a call of a single function is the only one on its side, and fewer
than `2 ^ 31` items are reserved on a side between a load of its head and the end of that loop
iteration. -/
structure World.Admissible (w : World ι T) : Prop where
  exclusive : ∀ t u call call', (w.machine.pc t).call? = some call →
    (w.machine.pc u).call? = some call' → call.side = call'.side → call.single ≠ 0 → t = u
  window : ∀ t call, (w.machine.pc t).looping? = some call →
    w.books.reserved call.side - w.books.seen t < 2 ^ 31

/-- The worlds that threads can bring about on a ring. -/
def World.Reachable (r : BufferRing T) (w : World ι T) : Prop :=
  Relation.ReflTransGen (fun w w' => ∃ a, w' = World.next w a ∧ w'.Admissible) (World.start r) w

end Restore.BufferRingC
