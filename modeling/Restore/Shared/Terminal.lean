import Mathlib.Logic.Function.Basic
import Mathlib.Data.List.GetD
import Mathlib.Data.Nat.Notation

/-! # The current row of a terminal

A row without an end, blank at first. Printing overwrites, the backspace character only moves
the cursor, and a newline leaves for a fresh row. -/

namespace Restore

/-- The characters a terminal prints, and the two others that it obeys. -/
structure TerminalAlphabet (α : Type*) where
  printable : α → Bool
  blank : α
  backspace : α
  newline : α
  printable_blank : printable blank
  not_printable_backspace : ¬ printable backspace
  not_printable_newline : ¬ printable newline
  newline_ne_backspace : newline ≠ backspace

structure TerminalRow (α : Type*) where
  cells : ℕ → α
  col : ℕ

namespace TerminalAlphabet

variable {α : Type*} [DecidableEq α] (A : TerminalAlphabet α)

def freshRow : TerminalRow α := ⟨fun _ => A.blank, 0⟩

/-- A character that is neither printed nor obeyed changes nothing. -/
def put (t : TerminalRow α) (x : α) : TerminalRow α :=
  if A.printable x then ⟨Function.update t.cells t.col x, t.col + 1⟩
  else if x = A.backspace then { t with col := t.col - 1 }
  else if x = A.newline then A.freshRow
  else t

def display (t : TerminalRow α) (text : List α) : TerminalRow α := text.foldl A.put t

/-- The row reads as the text, up to trailing blanks, and the cursor stands at `col`. -/
structure Shows (t : TerminalRow α) (text : List α) (col : ℕ) : Prop where
  cells : ∀ i, t.cells i = text.getD i A.blank
  col : t.col = col

/-- Every character of the text is printed. -/
def Printable (text : List α) : Prop := ∀ x ∈ text, A.printable x

omit [DecidableEq α] in
instance (text : List α) : Decidable (A.Printable text) :=
  inferInstanceAs (Decidable (∀ x ∈ text, A.printable x))

variable {A} {t : TerminalRow α} {text text' : List α} {col : ℕ}

omit [DecidableEq α] in
theorem shows_freshRow : A.Shows A.freshRow [] 0 := ⟨fun _ => rfl, rfl⟩

@[simp] theorem display_nil : A.display t [] = t := rfl

@[simp] theorem display_cons (x : α) : A.display t (x :: text) = A.display (A.put t x) text := rfl

theorem display_append : A.display t (text ++ text') = A.display (A.display t text) text' :=
  List.foldl_append

theorem put_of_printable {x : α} (hx : A.printable x) :
    A.put t x = ⟨Function.update t.cells t.col x, t.col + 1⟩ := by
  rw [put, if_pos hx]

theorem put_backspace : A.put t A.backspace = { t with col := t.col - 1 } := by
  rw [put, if_neg A.not_printable_backspace, if_pos rfl]

theorem put_newline : A.put t A.newline = A.freshRow := by
  rw [put, if_neg A.not_printable_newline, if_neg A.newline_ne_backspace, if_pos rfl]

/-- What was on the screen before a newline does not matter. -/
theorem display_newline (text text' : List α) :
    A.display t (text ++ A.newline :: text') = A.display A.freshRow text' := by
  rw [display_append, display_cons, put_newline]

/-! ## Effects on what is shown -/

/-- Printing one character in the middle of a text. -/
theorem Shows.put {pre old : List α} {x : α} (h : A.Shows t (pre ++ old) pre.length)
    (hx : A.printable x) :
    A.Shows (A.put t x) (pre ++ [x] ++ old.drop 1) (pre.length + 1) := by
  rw [put_of_printable hx, h.col]
  refine ⟨fun i => ?_, rfl⟩
  show Function.update t.cells pre.length x i = _
  rw [List.append_assoc]
  rcases Nat.lt_trichotomy i pre.length with hlt | rfl | hgt
  · rw [Function.update_of_ne (Nat.ne_of_lt hlt), h.cells, List.getD_append _ _ _ _ hlt,
      List.getD_append _ _ _ _ hlt]
  · simp
  · obtain ⟨k, rfl⟩ : ∃ k, i = pre.length + (k + 1) := ⟨i - pre.length - 1, by omega⟩
    rw [Function.update_of_ne (Nat.ne_of_gt hgt), h.cells,
      List.getD_append_right _ _ _ _ (by omega), List.getD_append_right _ _ _ _ (by omega),
      Nat.add_sub_cancel_left]
    simp

/-- Printing a text from the cursor on. -/
theorem Shows.print {pre old : List α} (h : A.Shows t (pre ++ old) pre.length)
    (htext : A.Printable text) :
    A.Shows (A.display t text) (pre ++ text ++ old.drop text.length)
      (pre.length + text.length) := by
  induction text generalizing t pre old with
  | nil => simpa using h
  | cons x text ih =>
      have hput := h.put (htext x List.mem_cons_self)
      rw [display_cons]
      have hrest := @ih _ (pre ++ [x]) (old.drop 1) (by simpa using hput)
        fun y hy => htext y (List.mem_cons_of_mem _ hy)
      simpa [Nat.add_assoc, Nat.add_comm 1] using hrest

theorem Shows.append {pre : List α} (h : A.Shows t pre pre.length) (htext : A.Printable text) :
    A.Shows (A.display t text) (pre ++ text) (pre.length + text.length) := by
  have hprint := @Shows.print _ _ A t text pre [] (by rwa [List.append_nil]) htext
  rwa [List.drop_nil, List.append_nil] at hprint

theorem Shows.back (h : A.Shows t text col) (n : ℕ) :
    A.Shows (A.display t (List.replicate n A.backspace)) text (col - n) := by
  induction n generalizing t col with
  | zero => exact h
  | succ n ih =>
      rw [List.replicate_succ, display_cons, put_backspace, Nat.sub_add_eq, Nat.sub_right_comm]
      exact ih ⟨h.cells, by rw [h.col]⟩

omit [DecidableEq α] in
/-- Blanks at the end are not seen. -/
theorem Shows.trim {n : ℕ} (h : A.Shows t (text ++ List.replicate n A.blank) col) :
    A.Shows t text col := by
  refine ⟨fun i => ?_, h.col⟩
  rw [h.cells]
  rcases Nat.lt_or_ge i text.length with hlt | hge
  · rw [List.getD_append _ _ _ _ hlt]
  · rw [List.getD_append_right _ _ _ _ hge, List.getD_eq_default _ _ hge]
    rcases Nat.lt_or_ge (i - text.length) n with hn | hn
    · exact List.getD_replicate _ hn
    · exact List.getD_eq_default _ _ (by simpa using hn)

omit [DecidableEq α] in
theorem printable_replicate_blank (n : ℕ) : A.Printable (List.replicate n A.blank) := by
  intro x hx
  rw [List.eq_of_mem_replicate hx]
  exact A.printable_blank

/-- Blanks over what is right of the cursor, back, then to the left and blanks over the rest:
only what stood before is left. -/
theorem Shows.wipe {pre mid post : List α}
    (h : A.Shows t (pre ++ (mid ++ post)) (pre.length + mid.length)) :
    A.Shows (A.display t (List.replicate post.length A.blank ++
      List.replicate post.length A.backspace ++
        (List.replicate mid.length A.backspace ++ List.replicate mid.length A.blank ++
          List.replicate mid.length A.backspace))) pre pre.length := by
  simp only [display_append]
  rw [← List.append_assoc, ← List.length_append] at h
  have hright := (h.print (printable_replicate_blank post.length)).back post.length
  rw [List.length_replicate, List.drop_length, List.append_nil, Nat.add_sub_cancel] at hright
  have hleft := hright.back mid.length
  rw [List.length_append, Nat.add_sub_cancel, List.append_assoc] at hleft
  have hblank := (hleft.print (printable_replicate_blank mid.length)).back mid.length
  rw [List.length_replicate, List.drop_left, Nat.add_sub_cancel] at hblank
  exact hblank.trim.trim

end TerminalAlphabet

end Restore
