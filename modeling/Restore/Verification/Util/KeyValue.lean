import Restore.Model.Util

/-! # Settings as lines of text

A line with `=` is a key and a value. `ReplaceValueAfterEqualSign` writes the value that
`GetKeyValueWithEqualSign` reads. -/

namespace Restore.Util

open StdString

/-! ## Equations -/

theorem trim_eq (s : Str) : trim s = some (strip whitespace s) := by
  rw [trim, lTrim, erase_findFirstNotOf]
  exact eraseTail_eq whitespace _

/-- A line that starts with `#` or `;`. -/
def IsComment (line : Str) : Prop :=
  line.head? = some Byte.hash ∨ line.head? = some Byte.semicolon

instance (line : Str) : Decidable (IsComment line) := inferInstanceAs (Decidable (_ ∨ _))

/-- What stands for a value: a blank if there is none. -/
def orBlank (value : Str) : Str := if value = [] then [Byte.space] else value

variable {line key rest : Str}

theorem getKeyValueWithEqualSign_of_comment (h : IsComment line) :
    getKeyValueWithEqualSign line = some (0, [], []) := by
  unfold getKeyValueWithEqualSign
  split
  · rfl
  · exact if_pos h

theorem getKeyValueWithEqualSign_of_not_mem (h : Byte.equalSign ∉ line) :
    getKeyValueWithEqualSign line = some (0, [], []) := by
  have hfind : find [Byte.equalSign] line = none := by
    rw [← Option.not_isSome_iff_eq_none, find_singleton_isSome]
    exact h
  unfold getKeyValueWithEqualSign
  rw [hfind]
  split
  · rfl
  · exact ite_self _

/-- The line is split at its first `=`, and both sides are trimmed. -/
theorem getKeyValueWithEqualSign_split (hkey : Byte.equalSign ∉ key)
    (hcomment : ¬ IsComment (key ++ Byte.equalSign :: rest)) :
    getKeyValueWithEqualSign (key ++ Byte.equalSign :: rest) =
      some (1, strip whitespace key, orBlank (strip whitespace rest)) := by
  have hlen : (key ++ Byte.equalSign :: rest).length ≠ 0 := by simp
  have hsub : substr (key ++ Byte.equalSign :: rest) (key.length + 1) = some rest := by
    simp [substr]
  have hvalue (value : Str) :
      (if value.length = 0 then [Byte.space] else value) = orBlank value := by
    simp only [orBlank, List.length_eq_zero_iff]
  rw [IsComment] at hcomment
  unfold getKeyValueWithEqualSign
  rw [if_neg hlen, if_neg hcomment, find_singleton_append_cons hkey]
  simp only [List.take_left, trim_eq, hsub, Option.bind_eq_bind, Option.bind_some, hvalue]

theorem replaceValueAfterEqualSign_split (hkey : Byte.equalSign ∉ key) (value : Str) :
    replaceValueAfterEqualSign (key ++ Byte.equalSign :: rest) value =
      (0, key ++ Byte.equalSign :: Byte.space :: value, Byte.space :: value) := by
  rw [replaceValueAfterEqualSign, find_singleton_append_cons hkey]
  simp [List.take_append]

theorem isComment_append_cons (key rest : Str) :
    IsComment (key ++ Byte.equalSign :: rest) ↔ IsComment key := by
  cases key with
  | nil =>
      have hsign : ¬ IsComment (Byte.equalSign :: rest) := by
        rw [IsComment, List.head?_cons]
        decide
      exact iff_of_false hsign (by decide)
  | cons x key => rfl

/-! ## Writing and reading -/

/-- A trimmed value, or the blank in place of one, is read as it was written. -/
theorem orBlank_strip_orBlank (value : Str) :
    orBlank (strip whitespace (orBlank (strip whitespace value))) =
      orBlank (strip whitespace value) := by
  by_cases hnil : strip whitespace value = []
  · rw [hnil]
    rfl
  · have hself : orBlank (strip whitespace value) = strip whitespace value := if_neg hnil
    rw [hself, strip_strip, hself]

/-- On a line with `=` that is no comment, a value that `ReplaceValueAfterEqualSign` has written
is read back trimmed, with the key that was there before; a value that was read is read again
when it is written back. -/
theorem getKeyValueWithEqualSign_replace (str value : Str) (hsign : Byte.equalSign ∈ str)
    (hcomment : ¬ IsComment str) :
    ∃ k v trimmed, getKeyValueWithEqualSign str = some (1, k, v) ∧ trim value = some trimmed ∧
      (∃ str' value', replaceValueAfterEqualSign str value = (0, str', value') ∧
        getKeyValueWithEqualSign str' =
          some (1, k, if trimmed = [] then [Byte.space] else trimmed)) ∧
      ∃ str' value', replaceValueAfterEqualSign str v = (0, str', value') ∧
        getKeyValueWithEqualSign str' = some (1, k, v) := by
  obtain ⟨key, rest, rfl, hkey⟩ := List.eq_append_cons_of_mem hsign
  have hread (value : Str) :
      getKeyValueWithEqualSign (key ++ Byte.equalSign :: Byte.space :: value) =
        some (1, strip whitespace key, orBlank (strip whitespace value)) := by
    have hkeep : ¬ IsComment (key ++ Byte.equalSign :: Byte.space :: value) := by
      rw [isComment_append_cons] at hcomment ⊢
      exact hcomment
    rw [getKeyValueWithEqualSign_split hkey hkeep, strip_cons (by decide)]
  refine ⟨_, _, _, getKeyValueWithEqualSign_split hkey hcomment, trim_eq value,
    ⟨_, _, replaceValueAfterEqualSign_split hkey value, hread value⟩,
    ⟨_, _, replaceValueAfterEqualSign_split hkey _, ?_⟩⟩
  rw [hread, orBlank_strip_orBlank]

theorem getKeyValueWithEqualSign_replace_gzip :
    Byte.equalSign ∈ bytesOf "is_gzip = \t" ∧ ¬ IsComment (bytesOf "is_gzip = \t") ∧
      ∃ k v trimmed, getKeyValueWithEqualSign (bytesOf "is_gzip = \t") = some (1, k, v) ∧
        trim (bytesOf "a=b ") = some trimmed ∧
        (∃ str' value', replaceValueAfterEqualSign (bytesOf "is_gzip = \t") (bytesOf "a=b ") =
            (0, str', value') ∧
          getKeyValueWithEqualSign str' =
            some (1, k, if trimmed = [] then [Byte.space] else trimmed)) ∧
        ∃ str' value', replaceValueAfterEqualSign (bytesOf "is_gzip = \t") v =
            (0, str', value') ∧
          getKeyValueWithEqualSign str' = some (1, k, v) :=
  ⟨by decide, by decide, getKeyValueWithEqualSign_replace _ _ (by decide) (by decide)⟩

end Restore.Util
