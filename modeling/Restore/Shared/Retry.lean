import Mathlib.Data.Nat.Notation
import Mathlib.Tactic.Cases

/-! # Loops that load a value and swap it

Threads load a shared cell and later swap it if it still holds the value that they have loaded.
A swap that fails is paid for by another thread that has changed the cell in between. -/

namespace Restore.Retry

/-- What an action is to the cell. -/
inductive Event (ι : Type*)
  /-- The cell keeps its value. -/
  | other
  /-- The swap of a thread finds another value than the loaded one. -/
  | fail (t : ι)
  /-- A thread stores into the cell. -/
  | change (t : ι)
  deriving DecidableEq

variable {S A ι V : Type*}

/-- Actions on states, each with its event. -/
structure System (S A ι : Type*) where
  next : S → A → S
  event : S → A → Event ι

/-- The value of the cell, and the values that threads have loaded for a swap to come. -/
structure System.Loads (sys : System S A ι) (cell : S → V) (loaded : S → ι → Option V) :
    Prop where
  kept (s : S) (a : A) (h : ∀ t, sys.event s a ≠ .change t) : cell (sys.next s a) = cell s
  fresh (s : S) (a : A) (t : ι) (v : V) (h : loaded (sys.next s a) t = some v) :
    loaded s t = some v ∨ v = cell (sys.next s a)
  stale (s : S) (a : A) (t : ι) (h : sys.event s a = .fail t) :
    ∃ v, loaded s t = some v ∧ v ≠ cell s
  failed (s : S) (a : A) (t : ι) (h : sys.event s a = .fail t) : loaded (sys.next s a) t = none
  changed (s : S) (a : A) (t : ι) (h : sys.event s a = .change t) :
    loaded (sys.next s a) t = none

def System.run (sys : System S A ι) (s : S) (acts : List A) : S := acts.foldl sys.next s

/-- How often an event of a kind occurs. -/
def System.count (sys : System S A ι) (kind : Event ι → Bool) : S → List A → ℕ
  | _, [] => 0
  | s, a :: acts => (if kind (sys.event s a) then 1 else 0) + sys.count kind (sys.next s a) acts

variable [DecidableEq ι]

def Event.isFailOf (t : ι) : Event ι → Bool
  | .fail u => u = t
  | _ => false

def Event.isChangeBeside (t : ι) : Event ι → Bool
  | .change u => u ≠ t
  | _ => false

def Event.isChangeOf (t : ι) : Event ι → Bool
  | .change u => u = t
  | _ => false

def Event.isChange : Event ι → Bool
  | .change _ => true
  | _ => false

theorem Event.isFailOf_iff {e : Event ι} {t : ι} : e.isFailOf t = true ↔ e = .fail t := by
  cases e <;> simp [isFailOf]

theorem Event.isChangeBeside_iff {e : Event ι} {t : ι} :
    e.isChangeBeside t = true ↔ ∃ u, u ≠ t ∧ e = .change u := by
  cases e <;> simp [isChangeBeside]

/-- The value that a thread has loaded is out of date. -/
def Outdated (cell : S → V) (loaded : S → ι → Option V) (t : ι) (s : S) : Prop :=
  ∃ v, loaded s t = some v ∧ v ≠ cell s

open Classical in
/-- The failure that a thread is due. -/
noncomputable def debt (cell : S → V) (loaded : S → ι → Option V) (t : ι) (s : S) : ℕ :=
  if Outdated cell loaded t s then 1 else 0

variable {sys : System S A ι} {cell : S → V} {loaded : S → ι → Option V}

omit [DecidableEq ι] in
/-- A value goes out of date only by a change of another thread, and a failed swap leaves no
value behind. -/
theorem System.Loads.outdated (h : sys.Loads cell loaded) {s : S} {a : A} {t : ι}
    (hout : Outdated cell loaded t (sys.next s a)) :
    sys.event s a ≠ .fail t ∧
      ((∃ u, u ≠ t ∧ sys.event s a = .change u) ∨ Outdated cell loaded t s) := by
  obtain ⟨v, hv, hne⟩ := hout
  refine ⟨fun hfail => ?_, ?_⟩
  · rw [h.failed s a t hfail] at hv
    cases hv
  · by_cases hchange : ∃ u, sys.event s a = .change u
    · obtain ⟨u, hu⟩ := hchange
      refine .inl ⟨u, ?_, hu⟩
      rintro rfl
      rw [h.changed s a u hu] at hv
      cases hv
    · rw [not_exists] at hchange
      refine .inr ⟨v, (h.fresh s a t v hv).resolve_right hne, ?_⟩
      rwa [← h.kept s a hchange]

/-- A failure clears a debt, and only a change by another thread makes one. -/
theorem System.Loads.debt_next (h : sys.Loads cell loaded) (t : ι) (s : S) (a : A) :
    (if (sys.event s a).isFailOf t then 1 else 0) + debt cell loaded t (sys.next s a) ≤
      (if (sys.event s a).isChangeBeside t then 1 else 0) + debt cell loaded t s := by
  by_cases hfail : sys.event s a = .fail t
  · have hnext : ¬Outdated cell loaded t (sys.next s a) := fun hout => (h.outdated hout).1 hfail
    have hout : Outdated cell loaded t s := h.stale s a t hfail
    rw [debt, debt, if_neg hnext, if_pos hout, if_pos (Event.isFailOf_iff.mpr hfail)]
    exact Nat.le_add_left 1 _
  · rw [if_neg (mt Event.isFailOf_iff.mp hfail), Nat.zero_add]
    by_cases hnext : Outdated cell loaded t (sys.next s a)
    · rw [debt, debt, if_pos hnext]
      rcases (h.outdated hnext).2 with hchange | hout
      · rw [if_pos (Event.isChangeBeside_iff.mpr hchange)]
        exact Nat.le_add_right 1 _
      · rw [if_pos hout]
        exact Nat.le_add_left 1 _
    · rw [debt, if_neg hnext]
      exact Nat.zero_le _

/-- Over a run, a thread fails at most as often as other threads change the cell, and once more
if its value was out of date at the start. -/
theorem System.Loads.count_add_debt_le (h : sys.Loads cell loaded) (t : ι) (acts : List A)
    (s : S) :
    sys.count (Event.isFailOf t) s acts + debt cell loaded t (sys.run s acts) ≤
      sys.count (Event.isChangeBeside t) s acts + debt cell loaded t s := by
  induction acts generalizing s with
  | nil => exact Nat.le_refl _
  | cons a acts ih =>
      have hstep := h.debt_next t s a
      have hrest := ih (sys.next s a)
      simp only [System.count, System.run, List.foldl_cons] at hrest ⊢
      omega

theorem System.Loads.count_le (h : sys.Loads cell loaded) {t : ι} {s : S}
    (hs : loaded s t = none) (acts : List A) :
    sys.count (Event.isFailOf t) s acts ≤ sys.count (Event.isChangeBeside t) s acts := by
  have hzero : debt cell loaded t s = 0 := if_neg fun ⟨v, hv, _⟩ => by
    rw [hs] at hv
    cases hv
  have hle := h.count_add_debt_le t acts s
  omega

theorem System.count_isChange (sys : System S A ι) (t : ι) (s : S) (acts : List A) :
    sys.count Event.isChange s acts =
      sys.count (Event.isChangeBeside t) s acts + sys.count (Event.isChangeOf t) s acts := by
  induction acts generalizing s with
  | nil => rfl
  | cons a acts ih =>
      have hone : (if (sys.event s a).isChange then 1 else 0) =
          (if (sys.event s a).isChangeBeside t then 1 else 0) +
            if (sys.event s a).isChangeOf t then 1 else 0 := by
        cases sys.event s a with
        | change u =>
            by_cases hu : u = t <;>
              simp [Event.isChange, Event.isChangeBeside, Event.isChangeOf, hu]
        | other | fail => simp [Event.isChange, Event.isChangeBeside, Event.isChangeOf]
      simp only [System.count, ih (sys.next s a), hone]
      omega

/-- The failures of a thread and its own changes are at most all changes. -/
theorem System.Loads.count_add_le (h : sys.Loads cell loaded) {t : ι} {s : S}
    (hs : loaded s t = none) (acts : List A) :
    sys.count (Event.isFailOf t) s acts + sys.count (Event.isChangeOf t) s acts ≤
      sys.count Event.isChange s acts := by
  rw [sys.count_isChange t]
  exact Nat.add_le_add_right (h.count_le hs acts) _

end Restore.Retry
