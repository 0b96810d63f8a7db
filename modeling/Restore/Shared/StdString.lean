import Mathlib.Data.List.Infix
import Mathlib.Data.List.DropRight
import Mathlib.Data.Nat.Notation

/-! # The string operations of the C++ standard library on lists

Positions are natural numbers and `npos` is `none`. A position past the end, for which the
library throws `std::out_of_range`, makes an operation `none`. -/

namespace Restore.StdString

open scoped List

variable {α : Type*} [DecidableEq α]

/-- `s.find(pattern)`. -/
def find (pattern : List α) : List α → Option ℕ
  | [] => if pattern = [] then some 0 else none
  | x :: s => if pattern <+: x :: s then some 0 else (find pattern s).map (· + 1)

/-- `s.find_first_not_of(set)`. -/
def findFirstNotOf (set s : List α) : Option ℕ := s.findIdx? (· ∉ set)

/-- `s.find_last_not_of(set)`. -/
def findLastNotOf (set s : List α) : Option ℕ :=
  (s.reverse.findIdx? (· ∉ set)).map (s.length - 1 - ·)

/-- `s.erase(pos, n)`. -/
def erase (s : List α) (pos : ℕ) (n : Option ℕ) : Option (List α) :=
  if pos ≤ s.length then
    some (s.take pos ++ match n with
      | some n => s.drop (pos + n)
      | none => [])
  else none

/-- `s.substr(pos)`. -/
def substr (s : List α) (pos : ℕ) : Option (List α) :=
  if pos ≤ s.length then some (s.drop pos) else none

/-- `s.insert(pos, 1, x)`. -/
def insert (s : List α) (pos : ℕ) (x : α) : Option (List α) :=
  if pos ≤ s.length then some (s.take pos ++ x :: s.drop pos) else none

/-- `s.erase(s.find_last_not_of(set) + 1)`, where `npos + 1` is 0. -/
def eraseTail (set s : List α) : Option (List α) :=
  erase s (match findLastNotOf set s with
    | some k => k + 1
    | none => 0) none

/-! ## Searching -/

theorem isPrefix_of_find {pattern s : List α} {n : ℕ} (h : find pattern s = some n) :
    n ≤ s.length ∧ pattern <+: s.drop n := by
  induction s generalizing n with
  | nil =>
      rw [find] at h
      split at h
      · rename_i hnil
        obtain rfl := Option.some.inj h
        exact ⟨le_rfl, by simp [hnil]⟩
      · cases h
  | cons x s ih =>
      rw [find] at h
      split at h
      · rename_i hpre
        obtain rfl := Option.some.inj h
        exact ⟨Nat.zero_le _, hpre⟩
      · rw [Option.map_eq_some_iff] at h
        obtain ⟨k, hk, rfl⟩ := h
        exact ⟨Nat.succ_le_succ (ih hk).1, (ih hk).2⟩

theorem find_cons_of_not_isPrefix {pattern : List α} {x : α} {s : List α}
    (h : ¬ pattern <+: x :: s) : find pattern (x :: s) = (find pattern s).map (· + 1) := by
  rw [find, if_neg h]

theorem find_of_isPrefix {pattern s : List α} (h : pattern <+: s) : find pattern s = some 0 := by
  cases s with
  | nil => rw [find, if_pos (List.prefix_nil.mp h)]
  | cons x s => rw [find, if_pos h]

theorem find_isSome_iff {pattern s : List α} : (find pattern s).isSome ↔ pattern <:+: s := by
  induction s with
  | nil =>
      rw [List.infix_nil, find]
      split <;> simp_all
  | cons x s ih =>
      by_cases hpre : pattern <+: x :: s
      · simp [find_of_isPrefix hpre, hpre.isInfix]
      · rw [find_cons_of_not_isPrefix hpre, Option.isSome_map, ih, List.infix_cons_iff]
        simp [hpre]

theorem find_singleton_isSome {x : α} {s : List α} : (find [x] s).isSome ↔ x ∈ s := by
  rw [find_isSome_iff, List.singleton_infix_iff]

theorem find_le_of_isPrefix {pattern s : List α} {k : ℕ} (hk : k ≤ s.length)
    (h : pattern <+: s.drop k) : ∃ n ≤ k, find pattern s = some n := by
  induction s generalizing k with
  | nil => exact ⟨0, Nat.zero_le k, find_of_isPrefix (by simpa using h)⟩
  | cons x s ih =>
      by_cases hpre : pattern <+: x :: s
      · exact ⟨0, Nat.zero_le k, find_of_isPrefix hpre⟩
      · cases k with
        | zero => exact absurd h hpre
        | succ k =>
            obtain ⟨n, hn, hfind⟩ := ih (Nat.le_of_succ_le_succ hk) h
            refine ⟨n + 1, Nat.succ_le_succ hn, ?_⟩
            rw [find_cons_of_not_isPrefix hpre, hfind]
            rfl

theorem find_append_left {pattern s : List α} {n : ℕ} (h : find pattern s = some n)
    (t : List α) : find pattern (s ++ t) = some n := by
  induction s generalizing n with
  | nil =>
      obtain ⟨-, hpre⟩ := isPrefix_of_find h
      rw [find] at h
      split at h
      · rename_i hnil
        rw [hnil, List.nil_append, find_of_isPrefix List.nil_prefix, ← h]
      · cases h
  | cons x s ih =>
      by_cases hpre : pattern <+: x :: s
      · rw [find_of_isPrefix hpre] at h
        rw [find_of_isPrefix (hpre.trans (List.prefix_append _ _)), h]
      · rw [find_cons_of_not_isPrefix hpre, Option.map_eq_some_iff] at h
        obtain ⟨k, hk, rfl⟩ := h
        -- the occurrence inside `s` leaves no room for an earlier one that ends in `t`
        have hlen : pattern.length ≤ (x :: s).length := by
          have hfit := (isPrefix_of_find hk).2.length_le
          rw [List.length_drop] at hfit
          rw [List.length_cons]
          omega
        have hpre' : ¬ pattern <+: x :: (s ++ t) := fun hlong =>
          hpre (List.prefix_of_prefix_length_le hlong (List.prefix_append (x :: s) t) hlen)
        rw [List.cons_append, find_cons_of_not_isPrefix hpre', ih hk]
        rfl

theorem find_singleton_append_cons {x : α} {s : List α} (hx : x ∉ s) (t : List α) :
    find [x] (s ++ x :: t) = some s.length := by
  induction s with
  | nil => exact find_of_isPrefix (List.prefix_append [x] t)
  | cons y s ih =>
      rw [List.mem_cons, not_or] at hx
      have hpre : ¬ [x] <+: y :: (s ++ x :: t) := fun h => hx.1 (List.cons_prefix_cons.mp h).1
      rw [List.cons_append, find_cons_of_not_isPrefix hpre, ih hx.2]
      rfl

/-- A list up to the first occurrence of an element, and from there on. -/
theorem span_append_cons {x : α} {s : List α} (hx : x ∉ s) (t : List α) :
    (s ++ x :: t).takeWhile (· ≠ x) = s ∧ (s ++ x :: t).dropWhile (· ≠ x) = x :: t := by
  have hall : ∀ y ∈ s, decide (y ≠ x) = true := fun y hy =>
    decide_eq_true fun heq => hx (heq ▸ hy)
  rw [List.takeWhile_append_of_pos hall, List.dropWhile_append_of_pos hall]
  simp

/-! ## Separators -/

section Separator

variable {sep : α} {pattern s t : List α}

omit [DecidableEq α] in
theorem isPrefix_append_sep (hsep : sep ∉ pattern) :
    pattern <+: s ++ sep :: t ↔ pattern <+: s := by
  refine ⟨fun h => ?_, fun h => h.trans (List.prefix_append _ _)⟩
  rcases List.prefix_or_prefix_of_prefix h (List.prefix_append _ _) with h' | ⟨rest, rfl⟩
  · exact h'
  · rw [List.prefix_append_right_inj] at h
    cases rest with
    | nil => simp
    | cons x rest =>
        obtain rfl : x = sep := (List.cons_prefix_cons.mp h).1
        simp at hsep

omit [DecidableEq α] in
theorem isInfix_append_sep (hsep : sep ∉ pattern) :
    pattern <:+: s ++ sep :: t ↔ pattern <:+: s ∨ pattern <:+: t := by
  induction s with
  | nil =>
      rw [List.nil_append, List.infix_cons_iff, List.infix_nil]
      have hhead := @isPrefix_append_sep _ sep pattern [] t hsep
      rw [List.nil_append, List.prefix_nil] at hhead
      rw [hhead]
  | cons x s ih =>
      rw [List.cons_append, List.infix_cons_iff, ih, List.infix_cons_iff, ← List.cons_append,
        isPrefix_append_sep hsep, or_assoc]

/-- A search passes over a part without occurrences. -/
theorem find_append_sep (hsep : sep ∉ pattern) (hnone : ¬ pattern <:+: s) :
    find pattern (s ++ sep :: t) = (find pattern t).map (· + (s.length + 1)) := by
  induction s with
  | nil =>
      have hpre : ¬ pattern <+: sep :: t := fun h =>
        hnone ((isPrefix_append_sep (s := []) hsep).mp h).isInfix
      rw [List.nil_append, find_cons_of_not_isPrefix hpre]
      rfl
  | cons x s ih =>
      rw [List.infix_cons_iff, not_or] at hnone
      have hpre : ¬ pattern <+: x :: (s ++ sep :: t) := fun h =>
        hnone.1 ((isPrefix_append_sep (s := x :: s) hsep).mp h)
      rw [List.cons_append, find_cons_of_not_isPrefix hpre, ih hnone.2, Option.map_map]
      rfl

/-- Of two lists, one a part of the other, the first piece is part of the first piece, if what
follows has no fewer separators. -/
theorem sublist_of_sep {w u E R : List α} (h : w ++ sep :: E <+ u ++ sep :: R)
    (hcount : R.count sep ≤ E.count sep) : w <+ u := by
  obtain ⟨r₁, r₂, heq, hw, hE⟩ := List.append_sublist_iff.mp h
  rcases List.append_eq_append_iff.mp heq with ⟨v, rfl, hv⟩ | ⟨v, rfl, -⟩
  · cases v with
    | nil => simpa using hw
    | cons x v =>
        -- the separator would be in the first piece, and one would be missing in the second
        rw [List.cons_append, List.cons_eq_cons] at hv
        obtain ⟨rfl, hR⟩ := hv
        have hle := hE.count_le sep
        rw [List.count_cons_self] at hle
        rw [hR, List.count_append] at hcount
        omega
  · exact hw.trans (List.sublist_append_left _ _)

end Separator

/-! ## Trimming -/

theorem erase_findFirstNotOf (set s : List α) :
    erase s 0 (findFirstNotOf set s) = some (s.dropWhile (· ∈ set)) := by
  simp only [erase, Nat.zero_le, if_true, List.take_zero, List.nil_append, Nat.zero_add,
    findFirstNotOf, Option.some.injEq]
  induction s with
  | nil => rfl
  | cons x s ih =>
      by_cases hx : x ∈ set
      · simp only [List.findIdx?_cons, hx, not_true, decide_false, decide_true,
          List.dropWhile_cons_of_pos]
        rw [← ih]
        cases List.findIdx? (· ∉ set) s <;> rfl
      · simp [List.findIdx?_cons, hx]

theorem eraseTail_eq (set s : List α) :
    eraseTail set s = some (s.rdropWhile (· ∈ set)) := by
  induction s using List.reverseRecOn with
  | nil => rfl
  | append_singleton s x ih =>
      by_cases hx : x ∈ set
      · rw [List.rdropWhile_concat_pos _ _ _ (by simpa using hx), ← ih]
        simp only [eraseTail, findLastNotOf, List.reverse_append, List.reverse_singleton,
          List.singleton_append, List.findIdx?_cons, hx, not_true, decide_false]
        cases hk : s.reverse.findIdx? (· ∉ set) with
        | none => simp [erase]
        | some k =>
            have hlt : k < s.length := by
              simpa using (List.findIdx?_eq_some_iff_getElem.mp hk).1
            have hpos : (s ++ [x]).length - 1 - (k + 1) + 1 = s.length - 1 - k + 1 := by
              simp only [List.length_append, List.length_singleton]
              omega
            have hle : s.length - 1 - k + 1 ≤ s.length := by omega
            simp only [Bool.false_eq_true, if_false, Option.map_some, hpos]
            rw [erase, erase, if_pos hle, if_pos (hle.trans (by simp)),
              List.take_append_of_le_length hle]
      · rw [List.rdropWhile_concat_neg _ _ _ (by simpa using hx)]
        simp [eraseTail, findLastNotOf, erase, List.findIdx?_cons, hx]

/-- A list without the elements of a set at its two ends. -/
def strip (set s : List α) : List α := (s.dropWhile (· ∈ set)).rdropWhile (· ∈ set)

theorem strip_cons {set : List α} {x : α} (hx : x ∈ set) (s : List α) :
    strip set (x :: s) = strip set s := by
  rw [strip, List.dropWhile_cons_of_pos (by simpa using hx)]
  rfl

theorem strip_concat {set : List α} {x : α} (hx : x ∈ set) (s : List α) :
    strip set (s ++ [x]) = strip set s := by
  induction s with
  | nil => exact strip_cons hx []
  | cons y s ih =>
      by_cases hy : y ∈ set
      · rw [List.cons_append, strip_cons hy, strip_cons hy, ih]
      · have hdrop (t : List α) : (y :: t).dropWhile (· ∈ set) = y :: t :=
          List.dropWhile_cons_of_neg (by simpa using hy)
        rw [strip, strip, List.cons_append, hdrop, hdrop, ← List.cons_append,
          List.rdropWhile_concat_pos _ _ _ (by simpa using hx)]

theorem strip_strip (set s : List α) : strip set (strip set s) = strip set s := by
  have hdrop : (strip set s).dropWhile (· ∈ set) = strip set s := by
    rw [List.dropWhile_eq_self_iff]
    intro hlen
    -- the first element left is the first one that is not in the set
    have hpre : strip set s <+: s.dropWhile (· ∈ set) := List.rdropWhile_prefix _ _
    have hpos := hlen.trans_le hpre.length_le
    rw [hpre.getElem hlen]
    exact List.dropWhile_get_zero_not _ _ hpos
  rw [strip, hdrop, strip, List.rdropWhile_idempotent]

end Restore.StdString
