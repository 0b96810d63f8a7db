import Restore.Model.BuffRing
import Mathlib.Logic.Relation

/-! # Interleaved calls on one `BuffRing`

Any number of threads run `DoEnqueue`, `DoDequeue` and `RingCount` on a shared ring.
Each step makes at most one access to shared memory: one load of a head or a tail, one
`AtomicCAS` or store of a head, one slot copy, or one store of a tail. -/

namespace Restore.BuffRing

/-- The arguments of `DoEnqueue(obj, max, _)` or `DoDequeue(obj, max, _)`. -/
structure Call (T : Type*) where
  side : Side
  obj : ℕ → T
  max : UInt32

/-- Where a thread stands in a call, with the locals it still needs. -/
inductive Pc (T : Type*)
  | idle
  | loadHead (call : Call T)
  | loadTail (call : Call T) (oldHead : UInt32)
  | moveHead (call : Call T) (mv : HeadMove)
  | copy (call : Call T) (mv : HeadMove) (i : ℕ)
  | awaitTail (call : Call T) (mv : HeadMove)
  | storeTail (call : Call T) (mv : HeadMove)
  | returned (call : Call T) (n space : UInt32)
  | loadProdTail
  | loadConsTail (prodTail : UInt32)
  | counted (count : UInt32)

structure Machine (ι T : Type*) where
  mem : RingMem T
  pc : ι → Pc T

variable {ι T : Type*} [DecidableEq ι]

def Machine.goto (s : Machine ι T) (t : ι) (pc : Pc T) : Machine ι T :=
  { s with pc := Function.update s.pc t pc }

/-- The next step of thread `t`. -/
def Machine.run (c : RingConfig) (s : Machine ι T) (t : ι) : Machine ι T :=
  match s.pc t with
  | .idle => s
  | .loadHead call => s.goto t (.loadTail call (s.mem.ht call.side).head)
  | .loadTail call oldHead =>
      let entries := c.entries call.side (s.mem.ht call.side.other).tail oldHead
      let n := c.clamp call.max entries
      if n = 0 then s.goto t (.returned call n (entries - n))
      else s.goto t (.moveHead call ⟨n, oldHead, oldHead + n, entries⟩)
  | .moveHead call mv =>
      if c.single call.side then
        { s with mem := s.mem.setHead call.side mv.newHead }.goto t (.copy call mv 0)
      else
        match s.mem.casHead call.side mv.oldHead mv.newHead with
        | (mem, true) => { s with mem }.goto t (.copy call mv 0)
        | (_, false) => s.goto t (.loadHead call)
  | .copy call mv i =>
      match (ptrPairs c mv.oldHead mv.n)[i]? with
      | some (j, idx) =>
          match call.side with
          | .prod =>
              { s with mem := { s.mem with
                  data := Function.update s.mem.data idx (call.obj j) } }.goto
                t (.copy call mv (i + 1))
          | .cons =>
              s.goto t (.copy { call with obj := Function.update call.obj j (s.mem.data idx) }
                mv (i + 1))
      | none =>
          -- `if (!single)` decides whether `UpdateTail` waits at all
          s.goto t (if c.single call.side then .storeTail call mv else .awaitTail call mv)
  | .awaitTail call mv =>
      if (s.mem.ht call.side).tail = mv.oldHead then s.goto t (.storeTail call mv) else s
  | .storeTail call mv =>
      { s with mem := s.mem.setTail call.side mv.newHead }.goto t
        (.returned call mv.n (mv.entries - mv.n))
  | .loadProdTail => s.goto t (.loadConsTail s.mem.prod.tail)
  | .loadConsTail prodTail => s.goto t (.counted (c.countOf prodTail s.mem.cons.tail))
  | .returned _ _ _ | .counted _ => s.goto t .idle

/-- A scheduler's choice: an idle thread enters a call, or a thread takes its next step. -/
inductive Action (ι T : Type*)
  | enter (t : ι) (call : Call T)
  | enterCount (t : ι)
  | run (t : ι)

def Machine.act (c : RingConfig) (s : Machine ι T) : Action ι T → Machine ι T
  | .enter t call =>
      match s.pc t with
      | .idle => s.goto t (.loadHead call)
      | _ => s
  | .enterCount t =>
      match s.pc t with
      | .idle => s.goto t .loadProdTail
      | _ => s
  | .run t => s.run c t

/-! ## Book-keeping

What has been reserved and handed out so far. The machine never reads it. -/

structure Books (ι T : Type*) where
  /-- Items reserved so far on each side. -/
  reserved : Side → ℕ
  /-- Items that each side's tail has passed so far. -/
  released : Side → ℕ
  /-- `reserved` on the thread's own side at its latest load of a head. -/
  seen : ι → ℕ
  /-- The batches that `DoEnqueue` reserved, in the order of their `prod_.head` moves. -/
  enqueued : List (List T)
  /-- The `cons_.head` moves in order: the count, and the batch once the call has it. -/
  dequeued : List (ℕ × Option (List T))
  /-- The place of the thread's latest reservation in its side's list. -/
  ticket : ι → ℕ

def batch {T : Type*} (obj : ℕ → T) (n : ℕ) : List T := (List.range n).map obj

def Books.reserve (b : Books ι T) (t : ι) (call : Call T) (n : ℕ) : Books ι T :=
  let reserved := Function.update b.reserved call.side (b.reserved call.side + n)
  match call.side with
  | .prod => { b with
      reserved
      enqueued := b.enqueued ++ [batch call.obj n]
      ticket := Function.update b.ticket t b.enqueued.length }
  | .cons => { b with
      reserved
      dequeued := b.dequeued ++ [(n, none)]
      ticket := Function.update b.ticket t b.dequeued.length }

def Books.release (b : Books ι T) (t : ι) (call : Call T) (n : ℕ) : Books ι T :=
  let released := Function.update b.released call.side (b.released call.side + n)
  match call.side with
  | .prod => { b with released }
  | .cons => { b with
      released
      dequeued := b.dequeued.modify (b.ticket t) fun r => (r.1, some (batch call.obj n)) }

def Books.record (c : RingConfig) (s : Machine ι T) (b : Books ι T) : Action ι T → Books ι T
  | .run t =>
      match s.pc t with
      | .loadHead call => { b with seen := Function.update b.seen t (b.reserved call.side) }
      | .moveHead call mv =>
          if c.single call.side ∨ (s.mem.ht call.side).head = mv.oldHead then
            b.reserve t call mv.n.toNat
          else b
      | .storeTail call mv => b.release t call mv.n.toNat
      | _ => b
  | _ => b

/-! ## Runs -/

structure World (ι T : Type*) where
  machine : Machine ι T
  books : Books ι T

/-- A constructed ring that no thread has used yet. -/
def World.start (mem : RingMem T) : World ι T where
  machine := ⟨mem, fun _ => .idle⟩
  books := ⟨fun _ => 0, fun _ => 0, fun _ => 0, [], [], fun _ => 0⟩

def World.next (c : RingConfig) (w : World ι T) (a : Action ι T) : World ι T :=
  ⟨w.machine.act c a, w.books.record c w.machine a⟩

/-- The side of the `DoEnqueue` or `DoDequeue` in progress. -/
def Pc.side? : Pc T → Option Side
  | .loadHead call | .loadTail call _ | .moveHead call _ | .copy call _ _ | .awaitTail call _
  | .storeTail call _ => some call.side
  | _ => none

/-- The side whose head the thread has loaded in a loop iteration that has not ended. -/
def Pc.looping? : Pc T → Option Side
  | .loadTail call _ | .moveHead call _ => some call.side
  | _ => none

/-- The conditions of use: a single side serves one call at a time, and fewer than
`2 ^ 31` items are reserved on a side between a load of its head and the end of that
loop iteration. -/
structure World.Admissible (c : RingConfig) (w : World ι T) : Prop where
  exclusive : ∀ σ, c.single σ = true → ∀ t u, (w.machine.pc t).side? = some σ →
    (w.machine.pc u).side? = some σ → t = u
  window : ∀ σ t, (w.machine.pc t).looping? = some σ →
    w.books.reserved σ - w.books.seen t < 2 ^ 31

/-- Thread `t` is not at an `AtomicCAS` on a head that has gone all the way round since the
thread loaded it. -/
def World.Unmoved (c : RingConfig) (w : World ι T) (t : ι) : Prop :=
  match w.machine.pc t with
  | .moveHead call mv =>
      c.single call.side = false → (w.machine.mem.ht call.side).head = mv.oldHead →
        w.books.reserved call.side = w.books.seen t
  | _ => True

/-- One action within the conditions of use. -/
def World.Step (c : RingConfig) (w w' : World ι T) : Prop :=
  ∃ a, w' = w.next c a ∧ w'.Admissible c

/-- The worlds that threads can bring about on a ring built with memory `mem`. -/
def World.Reachable (c : RingConfig) (mem : RingMem T) (w : World ι T) : Prop :=
  Relation.ReflTransGen (World.Step c) (World.start mem) w

end Restore.BuffRing
