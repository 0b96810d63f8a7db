import Mathlib.Data.List.Basic
import Mathlib.Logic.Function.Basic

/-! # Concurrent calls as calls one after another

Threads `T` call an object with a state `S`. Each call `E` takes effect at one moment between
its beginning and its end, and returns an `R`. -/

namespace Restore

variable {T S E R : Type*}

/-- The calls, one after another, lead from `s` and return the values beside them. -/
inductive Runs (call : S → E → Option (S × R)) (s : S) : List (E × R) → S → Prop
  | nil : Runs call s [] s
  | concat {calls : List (E × R)} {s' s'' : S} {e : E} {r : R} (h : Runs call s calls s')
      (hcall : call s' e = some (s'', r)) : Runs call s (calls ++ [(e, r)]) s''

section By

variable [DecidableEq T]

/-- What the thread has done of what all threads have done. -/
def doneBy (t : T) (xs : List (T × E)) : List E := (xs.filter fun x => x.1 = t).map Prod.snd

@[simp] theorem doneBy_append (t : T) (xs ys : List (T × E)) :
    doneBy t (xs ++ ys) = doneBy t xs ++ doneBy t ys := by
  rw [doneBy, List.filter_append, List.map_append]
  rfl

theorem doneBy_singleton_self (t : T) (e : E) : doneBy t [(t, e)] = [e] := by
  simp [doneBy]

theorem doneBy_singleton_of_ne {t u : T} (hne : t ≠ u) (e : E) : doneBy u [(t, e)] = [] := by
  simp [doneBy, hne]

end By

/-- The calls that have taken effect lead to `s` in the order of their effects, and for each
thread they are its calls so far but the one that has yet to take effect. -/
structure Linearizes [DecidableEq T] (call : S → E → Option (S × R)) (s₀ : S)
    (calls : List (T × E)) (order : List (T × E × R)) (pending : T → Option E) (s : S) : Prop where
  runs : Runs call s₀ (order.map Prod.snd) s
  program : ∀ t, (doneBy t order).map Prod.fst ++ (pending t).toList = doneBy t calls

namespace Linearizes

variable [DecidableEq T] {call : S → E → Option (S × R)} {s₀ s s' : S} {calls : List (T × E)}
  {order : List (T × E × R)} {pending pending' : T → Option E}

theorem start (call : S → E → Option (S × R)) (s₀ : S) (hpending : ∀ t : T, pending t = none) :
    Linearizes call s₀ [] [] pending s₀ :=
  ⟨.nil, fun t => by rw [hpending]; rfl⟩

/-- A step inside calls that has no effect. -/
theorem stutter (h : Linearizes call s₀ calls order pending s)
    (hpending : ∀ t, pending' t = pending t) : Linearizes call s₀ calls order pending' s :=
  ⟨h.runs, fun t => by rw [hpending]; exact h.program t⟩

/-- A call begins. -/
theorem enter (h : Linearizes call s₀ calls order pending s) {t : T} {e : E}
    (hidle : pending t = none) (hself : pending' t = some e)
    (hothers : ∀ u, u ≠ t → pending' u = pending u) :
    Linearizes call s₀ (calls ++ [(t, e)]) order pending' s := by
  refine ⟨h.runs, fun u => ?_⟩
  have hprogram := h.program u
  rw [doneBy_append]
  by_cases hu : u = t
  · subst hu
    rw [hidle, Option.toList_none, List.append_nil] at hprogram
    rw [hself, hprogram, doneBy_singleton_self]
    rfl
  · rw [hothers u hu, hprogram, doneBy_singleton_of_ne (Ne.symm hu), List.append_nil]

/-- A call takes effect. -/
theorem effect (h : Linearizes call s₀ calls order pending s) {t : T} {e : E} {r : R}
    (hcall : call s e = some (s', r)) (hpending : pending t = some e) (hself : pending' t = none)
    (hothers : ∀ u, u ≠ t → pending' u = pending u) :
    Linearizes call s₀ calls (order ++ [(t, e, r)]) pending' s' := by
  refine ⟨?_, fun u => ?_⟩
  · rw [List.map_append]
    exact h.runs.concat hcall
  · have hprogram := h.program u
    rw [doneBy_append]
    by_cases hu : u = t
    · subst hu
      rw [hpending] at hprogram
      rw [hself, doneBy_singleton_self, List.map_append, Option.toList_none, List.append_nil,
        ← hprogram]
      rfl
    · rw [hothers u hu, doneBy_singleton_of_ne (Ne.symm hu), List.append_nil, hprogram]

end Linearizes

/-! ## A mutex -/

/-- Whoever is inside what the mutex guards holds the mutex. -/
def Guards (holder : Option T) (inside : T → Prop) : Prop := ∀ t, inside t → holder = some t

namespace Guards

variable {holder : Option T} {inside inside' : T → Prop} {t u : T}

theorem unique (h : Guards holder inside) (ht : inside t) (hu : inside u) : t = u :=
  Option.some.inj ((h t ht).symm.trans (h u hu))

/-- A step that lets nobody in. -/
theorem mono (h : Guards holder inside) (hle : ∀ u, inside' u → inside u) :
    Guards holder inside' :=
  fun u hu => h u (hle u hu)

/-- With the mutex free, one thread takes it and goes in. -/
theorem lock (h : Guards none inside) (hothers : ∀ u, u ≠ t → inside' u → inside u) :
    Guards (some t) inside' := by
  intro u hu
  by_cases heq : u = t
  · rw [heq]
  · cases h u (hothers u heq hu)

/-- The thread inside goes out and gives the mutex back. -/
theorem unlock (h : Guards holder inside) (ht : inside t)
    (hothers : ∀ u, inside' u → u ≠ t ∧ inside u) : Guards none inside' := by
  intro u hu
  obtain ⟨hne, hin⟩ := hothers u hu
  exact absurd (h.unique hin ht) hne

end Guards

end Restore
