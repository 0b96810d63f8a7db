import Mathlib.Algebra.GroupWithZero.Nat
import Mathlib.Data.List.Basic
import Mathlib.Data.Nat.Notation

/-! # Programs that read bytes

A program that reads a memory one byte at a time. What it reads next depends only on the
bytes it has read, so bytes that it never reads cannot change its result. -/

namespace Restore

inductive Fetch (α : Type*)
  | pure (a : α)
  | byte (i : ℕ) (next : UInt8 → Fetch α)

namespace Fetch

variable {α β : Type*}

protected def bind (x : Fetch α) (f : α → Fetch β) : Fetch β :=
  match x with
  | .pure a => f a
  | .byte i next => .byte i fun b => (next b).bind f

instance : Monad Fetch where
  pure := .pure
  bind := Fetch.bind

/-- The result over a given memory. -/
def value (mem : ℕ → UInt8) : Fetch α → α
  | .pure a => a
  | .byte i next => (next (mem i)).value mem

/-- The indices read, in order. -/
def reads (mem : ℕ → UInt8) : Fetch α → List ℕ
  | .pure _ => []
  | .byte i next => i :: (next (mem i)).reads mem

def load (i : ℕ) : Fetch UInt8 := .byte i .pure

def loadBytes (start : ℕ) : ℕ → Fetch (List UInt8)
  | 0 => Pure.pure []
  | n + 1 => do
      let b ← load start
      let bytes ← loadBytes (start + 1) n
      return b :: bytes

section Laws

universe u

variable {α β : Type u} (mem : ℕ → UInt8)

@[simp] theorem value_pure (a : α) : (Pure.pure a : Fetch α).value mem = a := rfl

@[simp] theorem reads_pure (a : α) : (Pure.pure a : Fetch α).reads mem = [] := rfl

@[simp] theorem value_load (i : ℕ) : (load i).value mem = mem i := by
  simp only [load, value]

@[simp] theorem reads_load (i : ℕ) : (load i).reads mem = [i] := rfl

@[simp] theorem value_bind (x : Fetch α) (f : α → Fetch β) :
    (x >>= f).value mem = (f (x.value mem)).value mem := by
  induction x with
  | pure a => rfl
  | byte i next ih => exact ih (mem i)

@[simp] theorem reads_bind (x : Fetch α) (f : α → Fetch β) :
    (x >>= f).reads mem = x.reads mem ++ (f (x.value mem)).reads mem := by
  induction x with
  | pure a => rfl
  | byte i next ih => exact congrArg (List.cons i) (ih (mem i))

@[simp] theorem reads_loadBytes (start n : ℕ) :
    (loadBytes start n).reads mem = (List.range n).map fun i => start + i := by
  induction n generalizing start with
  | zero => rfl
  | succ n ih =>
      simp only [loadBytes, reads_bind, reads_load, reads_pure, ih, List.range_succ_eq_map]
      simp [Function.comp_def, Nat.add_assoc, Nat.add_comm 1]

end Laws

/-- Memories that agree on the bytes read give the same reads and the same result. -/
theorem congr {mem mem' : ℕ → UInt8} (x : Fetch α)
    (h : ∀ i ∈ x.reads mem, mem' i = mem i) :
    x.value mem' = x.value mem ∧ x.reads mem' = x.reads mem := by
  induction x with
  | pure a => exact ⟨rfl, rfl⟩
  | byte i next ih =>
      have hi : mem' i = mem i := h i List.mem_cons_self
      obtain ⟨hvalue, hreads⟩ := ih (mem i) fun j hj => h j (List.mem_cons_of_mem i hj)
      simp only [value, reads, hi]
      exact ⟨hvalue, congrArg (List.cons i) hreads⟩

/-! ## Bounds -/

/-- Every read is below `length`. -/
def Within (mem : ℕ → UInt8) (length : ℕ) (x : Fetch α) : Prop :=
  ∀ i ∈ x.reads mem, i < length

section Within

universe u

variable {α β : Type u} {mem : ℕ → UInt8} {length : ℕ}

@[simp] theorem within_pure (a : α) : (Pure.pure a : Fetch α).Within mem length := by
  simp [Within]

@[simp] theorem within_load (i : ℕ) : (load i).Within mem length ↔ i < length := by
  simp [Within]

@[simp] theorem within_bind (x : Fetch α) (f : α → Fetch β) :
    (x >>= f).Within mem length ↔
      x.Within mem length ∧ (f (x.value mem)).Within mem length := by
  simp [Within, or_imp, forall_and]

theorem within_loadBytes (start n : ℕ) :
    (loadBytes start (n + 1)).Within mem length ↔ start + n < length := by
  simp only [Within, reads_loadBytes, List.forall_mem_map, List.mem_range]
  constructor
  · exact fun h => h n (Nat.lt_succ_self n)
  · intro h i hi
    omega

end Within

end Fetch

end Restore
