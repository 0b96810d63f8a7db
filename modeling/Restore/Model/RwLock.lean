import Mathlib.Data.Fintype.Card
import Mathlib.Logic.Function.Basic
import Mathlib.Logic.Relation

/-! # `RwLock` of `rwlock.h`

Any number of threads take the lock and give it back. Each step makes at most one access to
`cnt`: a load, an `AtomicCAS`, or the fetch-and-add or fetch-and-sub of an unlock. -/

namespace Restore.RwLock

/-- Where a thread stands, with the `x` that it has loaded. `writeCas` needs none: it expects
the 0 that the test before it has found. -/
inductive Pc
  | idle
  | readLoad
  | readCas (x : Int32)
  | tryLoad
  | tryCas (x : Int32)
  /-- `rwlock_read_trylock` has returned false. -/
  | refused
  | writeLoad
  | writeCas
  | reading
  | writing
  deriving DecidableEq

structure Machine (ι : Type*) where
  cnt : Int32
  pc : ι → Pc

/-- `AtomicCAS(&cnt, expected, desired)`. -/
def atomicCAS (cnt expected desired : Int32) : Int32 × Bool :=
  if cnt = expected then (desired, true) else (cnt, false)

variable {ι : Type*} [DecidableEq ι]

def Machine.goto (s : Machine ι) (t : ι) (pc : Pc) : Machine ι :=
  { s with pc := Function.update s.pc t pc }

/-- The next step of thread `t` in the call it has entered. -/
def Machine.run (s : Machine ι) (t : ι) : Machine ι :=
  match s.pc t with
  | .readLoad => if s.cnt < 0 then s else s.goto t (.readCas s.cnt)
  | .readCas x =>
      match atomicCAS s.cnt x (x + 1) with
      | (cnt, true) => { s with cnt }.goto t .reading
      | (_, false) => s.goto t .readLoad
  | .tryLoad => if s.cnt < 0 then s.goto t .refused else s.goto t (.tryCas s.cnt)
  | .tryCas x =>
      match atomicCAS s.cnt x (x + 1) with
      | (cnt, true) => { s with cnt }.goto t .reading
      | (_, false) => s.goto t .tryLoad
  | .writeLoad => if s.cnt ≠ 0 then s else s.goto t .writeCas
  | .writeCas =>
      match atomicCAS s.cnt 0 (-1) with
      | (cnt, true) => { s with cnt }.goto t .writing
      | (_, false) => s.goto t .writeLoad
  | .refused => s.goto t .idle
  | .idle | .reading | .writing => s

inductive Call
  | rwlockReadLock
  | rwlockReadTrylock
  | rwlockWriteLock
  deriving DecidableEq

def Call.entry : Call → Pc
  | .rwlockReadLock => .readLoad
  | .rwlockReadTrylock => .tryLoad
  | .rwlockWriteLock => .writeLoad

/-- `rwlock_read_unlock` of a thread that holds a read lock, `rwlock_write_unlock` of one that
holds the write lock. -/
def Machine.unlock (s : Machine ι) (t : ι) : Machine ι :=
  match s.pc t with
  | .reading => { s with cnt := s.cnt - 1 }.goto t .idle
  | .writing => { s with cnt := s.cnt + 1 }.goto t .idle
  | _ => s

/-- A scheduler's choice: an idle thread enters a call, a thread takes its next step in it, or
a holder gives its lock back. -/
inductive Action (ι : Type*)
  | enter (t : ι) (call : Call)
  | run (t : ι)
  | unlock (t : ι)

def Machine.act (s : Machine ι) : Action ι → Machine ι
  | .enter t call =>
      match s.pc t with
      | .idle => s.goto t call.entry
      | _ => s
  | .run t => s.run t
  | .unlock t => s.unlock t

/-! ## Book-keeping -/

variable [Fintype ι]

def Machine.WriteHeld (s : Machine ι) : Prop := ∃ t, s.pc t = .writing

instance (s : Machine ι) : Decidable s.WriteHeld :=
  inferInstanceAs (Decidable (∃ t, s.pc t = .writing))

/-- How many threads hold a read lock. -/
def Machine.readers (s : Machine ι) : ℕ := (Finset.univ.filter fun t => s.pc t = .reading).card

/-- Whether the lock was write-held at some moment since the thread entered its latest call.
The machine never reads it. -/
structure Books (ι : Type*) where
  writeHeld : ι → Bool

def Books.record (s : Machine ι) (b : Books ι) (a : Action ι) : Books ι :=
  let held := decide (s.act a).WriteHeld
  match a with
  | .enter t _ => ⟨fun u => if u = t ∧ s.pc t = .idle then held else b.writeHeld u || held⟩
  | .run _ | .unlock _ => ⟨fun u => b.writeHeld u || held⟩

/-! ## Runs -/

structure World (ι : Type*) where
  machine : Machine ι
  books : Books ι

/-- `RwLock()` and threads that have not used it yet. -/
def World.start : World ι where
  machine := ⟨0, fun _ => .idle⟩
  books := ⟨fun _ => false⟩

def World.next (w : World ι) (a : Action ι) : World ι :=
  ⟨w.machine.act a, w.books.record w.machine a⟩

def World.Reachable (w : World ι) : Prop :=
  Relation.ReflTransGen (fun w w' => ∃ a, w' = World.next w a) World.start w

end Restore.RwLock
