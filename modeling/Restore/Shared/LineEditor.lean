import Mathlib.Data.List.Basic
import Mathlib.Data.Nat.Notation

/-! # A line under a cursor

A line editor as a zipper: the text on either side of the cursor. Code that keeps the whole text
and an index is brought here by `Zipper.ofIndex`. -/

namespace Restore

/-- `before` starts right in front of the cursor and goes back to the beginning of the line. -/
structure Zipper (α : Type*) where
  before : List α
  after : List α
  deriving DecidableEq

inductive Keystroke (α : Type*)
  | type (a : α)
  | erase
  | left
  | right
  | enter
  deriving DecidableEq

namespace Zipper

variable {α : Type*}

def empty : Zipper α := ⟨[], []⟩

def text (z : Zipper α) : List α := z.before.reverse ++ z.after

def press (z : Zipper α) : Keystroke α → Zipper α
  | .type a => ⟨a :: z.before, z.after⟩
  | .erase => ⟨z.before.tail, z.after⟩
  | .left =>
      match z.before with
      | [] => z
      | a :: before => ⟨before, a :: z.after⟩
  | .right =>
      match z.after with
      | [] => z
      | a :: after => ⟨a :: z.before, after⟩
  | .enter => empty

/-- The text that a keystroke hands over. -/
def enters (z : Zipper α) : Keystroke α → Option (List α)
  | .enter => some z.text
  | .type _ | .erase | .left | .right => none

/-- The texts that the keystrokes hand over, in order. -/
def entered (z : Zipper α) : List (Keystroke α) → List (List α)
  | [] => []
  | k :: ks => (z.enters k).toList ++ (z.press k).entered ks

/-! ## A text with an index -/

def ofIndex (xs : List α) (i : ℕ) : Zipper α := ⟨(xs.take i).reverse, xs.drop i⟩

@[simp] theorem text_ofIndex (xs : List α) (i : ℕ) : (ofIndex xs i).text = xs := by
  rw [text, ofIndex, List.reverse_reverse, List.take_append_drop]

@[simp] theorem ofIndex_nil (i : ℕ) : ofIndex ([] : List α) i = empty := by
  simp [ofIndex, empty]

theorem ofIndex_of_length {pre post : List α} {i : ℕ} (h : pre.length = i) :
    ofIndex (pre ++ post) i = ⟨pre.reverse, post⟩ := by
  subst h
  rw [ofIndex, List.take_left, List.drop_left]

variable {xs : List α} {i : ℕ}

theorem take_succ_eq (h : i < xs.length) : xs.take (i + 1) = xs.take i ++ [xs[i]] := by
  rw [List.take_add_one, List.getElem?_eq_getElem h]
  rfl

theorem ofIndex_insert (h : i ≤ xs.length) (a : α) :
    ofIndex (xs.take i ++ a :: xs.drop i) (i + 1) = (ofIndex xs i).press (.type a) := by
  have hlen : (xs.take i ++ [a]).length = i + 1 := by simp [h]
  rw [← List.singleton_append, ← List.append_assoc, ofIndex_of_length hlen]
  simp [ofIndex, press]

theorem ofIndex_erase (h : i < xs.length) :
    ofIndex (xs.take i ++ xs.drop (i + 1)) i = (ofIndex xs (i + 1)).press .erase := by
  rw [ofIndex_of_length (List.length_take_of_le (Nat.le_of_lt h)), ofIndex, take_succ_eq h,
    List.reverse_concat]
  rfl

theorem ofIndex_left (h : i < xs.length) :
    ofIndex xs i = (ofIndex xs (i + 1)).press .left := by
  rw [ofIndex, ofIndex, take_succ_eq h, List.drop_eq_getElem_cons h, List.reverse_concat]
  rfl

theorem ofIndex_right (h : i < xs.length) :
    ofIndex xs (i + 1) = (ofIndex xs i).press .right := by
  rw [ofIndex, ofIndex, take_succ_eq h, List.drop_eq_getElem_cons h, List.reverse_concat]
  rfl

/-- At the ends of the line there is nothing to do. -/
theorem press_ofIndex_zero (xs : List α) :
    (ofIndex xs 0).press .erase = ofIndex xs 0 ∧
      (ofIndex xs 0).press .left = ofIndex xs 0 := ⟨rfl, rfl⟩

theorem press_ofIndex_end (h : xs.length ≤ i) :
    (ofIndex xs i).press .right = ofIndex xs i := by
  simp [ofIndex, press, List.drop_of_length_le h]

end Zipper

end Restore
