import Mathlib.Data.List.Infix
import Mathlib.Data.Nat.Notation

/-! # Reading a text stream in pieces

`fgets` takes a line with its newline, or as much of it as the buffer holds. -/

namespace Restore.Stdio

abbrev newline : UInt8 := 10

/-- Up to `room` bytes, ending at the first newline, and what is left of the stream. -/
def fill : ℕ → List UInt8 → List UInt8 × List UInt8
  | 0, stream => ([], stream)
  | _, [] => ([], [])
  | room + 1, x :: stream =>
      if x = newline then ([x], stream)
      else ((x :: (fill room stream).1), (fill room stream).2)

/-- `fgets(buf, size, f)`: the bytes put into `buf` and the rest of the stream, `none` at its
end. -/
def fgets (size : ℕ) (stream : List UInt8) : Option (List UInt8 × List UInt8) :=
  if stream = [] then none else some (fill (size - 1) stream)

/-- What `while (fgets(buf, size, f))` finds in `buf`, round after round. -/
def fgetsLoop (size : ℕ) : ℕ → List UInt8 → List (List UInt8)
  | 0, _ => []
  | fuel + 1, stream =>
      match fgets size stream with
      | some (buf, rest) => buf :: fgetsLoop size fuel rest
      | none => []

/-! ## Lines in pieces -/

variable {room size fuel : ℕ} {line rest : List UInt8}

/-- A line as `fgets` delivers it into a buffer with room for so many bytes. -/
def pieces (room : ℕ) (line : List UInt8) : List (List UInt8) :=
  if _ : 0 < room ∧ room ≤ line.length then line.take room :: pieces room (line.drop room)
  else [line ++ [newline]]
termination_by line.length
decreasing_by
  rw [List.length_drop]
  omega

theorem pieces_of_lt (h : line.length < room) : pieces room line = [line ++ [newline]] := by
  rw [pieces, dif_neg (by omega)]

theorem pieces_of_le (hroom : 0 < room) (h : room ≤ line.length) :
    pieces room line = line.take room :: pieces room (line.drop room) := by
  rw [pieces, dif_pos ⟨hroom, h⟩]

theorem fill_of_lt (hline : newline ∉ line) (h : line.length < room) :
    fill room (line ++ newline :: rest) = (line ++ [newline], rest) := by
  induction line generalizing room with
  | nil =>
      cases room with
      | zero => cases h
      | succ room => simp [fill]
  | cons x line ih =>
      cases room with
      | zero => cases h
      | succ room =>
          rw [List.mem_cons, not_or] at hline
          have htail := ih hline.2 (Nat.lt_of_succ_lt_succ h)
          simp [fill, Ne.symm hline.1, htail]

theorem fill_of_le (hline : newline ∉ line) (h : room ≤ line.length) :
    fill room (line ++ newline :: rest) = (line.take room, line.drop room ++ newline :: rest) := by
  induction line generalizing room with
  | nil =>
      obtain rfl : room = 0 := Nat.le_zero.mp h
      rfl
  | cons x line ih =>
      cases room with
      | zero => rfl
      | succ room =>
          rw [List.mem_cons, not_or] at hline
          have htail := ih hline.2 (Nat.le_of_succ_le_succ h)
          simp [fill, Ne.symm hline.1, htail]

theorem fgetsLoop_succ (fuel : ℕ) {stream : List UInt8} (h : stream ≠ []) :
    fgetsLoop size (fuel + 1) stream =
      (fill (size - 1) stream).1 :: fgetsLoop size fuel (fill (size - 1) stream).2 := by
  rw [fgetsLoop, fgets, if_neg h]

/-- The loop takes a line in its pieces and goes on behind it, still with fuel for each byte. -/
theorem fgetsLoop_line (hsize : 1 < size) (hline : newline ∉ line)
    (hfuel : (line ++ newline :: rest).length ≤ fuel) :
    ∃ left, rest.length ≤ left ∧ fgetsLoop size fuel (line ++ newline :: rest) =
      pieces (size - 1) line ++ fgetsLoop size left rest := by
  have hroom : 0 < size - 1 := by omega
  induction fuel generalizing line with
  | zero => simp at hfuel
  | succ fuel ih =>
      rw [List.length_append, List.length_cons] at hfuel
      rw [fgetsLoop_succ fuel (by simp)]
      rcases Nat.lt_or_ge line.length (size - 1) with hlt | hle
      · rw [fill_of_lt hline hlt, pieces_of_lt hlt]
        exact ⟨fuel, by omega, rfl⟩
      · have hdrop : newline ∉ line.drop (size - 1) := fun h => hline (List.mem_of_mem_drop h)
        obtain ⟨left, hleft, hloop⟩ := ih hdrop (by
          rw [List.length_append, List.length_drop, List.length_cons]
          omega)
        rw [fill_of_le hline hle, pieces_of_le hroom hle, hloop]
        exact ⟨left, hleft, rfl⟩

theorem fgetsLoop_lines (hsize : 1 < size) {lines : List (List UInt8)}
    (hlines : ∀ line ∈ lines, newline ∉ line)
    (hfuel : (lines.flatMap (· ++ [newline])).length ≤ fuel) :
    fgetsLoop size fuel (lines.flatMap (· ++ [newline])) = lines.flatMap (pieces (size - 1)) := by
  induction lines generalizing fuel with
  | nil => cases fuel <;> rfl
  | cons line lines ih =>
      rw [List.forall_mem_cons] at hlines
      rw [List.flatMap_cons, List.append_assoc, List.singleton_append] at hfuel ⊢
      obtain ⟨left, hleft, hloop⟩ := fgetsLoop_line hsize hlines.1 hfuel
      rw [hloop, ih hlines.2 hleft, List.flatMap_cons]

/-- The last piece is shorter than the buffer, and the rest is left out. -/
theorem pieces_last (hroom : 0 < room) (line : List UInt8) :
    ∃ front last, pieces room line = front ++ [last ++ [newline]] ∧ last.length < room := by
  induction line using pieces.induct room with
  | case1 line h ih =>
      obtain ⟨front, last, hpieces, hlast⟩ := ih
      exact ⟨_ :: front, last, by rw [pieces_of_le h.1 h.2, hpieces]; rfl, hlast⟩
  | case2 line h =>
      have hlt : line.length < room := by omega
      exact ⟨[], line, by rw [pieces_of_lt hlt]; rfl, hlt⟩

theorem mem_of_mem_pieces {piece : List UInt8} (h : piece ∈ pieces room line) :
    piece ≠ [] ∧ ∀ x ∈ piece, x ∈ line ∨ x = newline := by
  induction line using pieces.induct room with
  | case1 line hle ih =>
      rw [pieces_of_le hle.1 hle.2, List.mem_cons] at h
      rcases h with rfl | h
      · refine ⟨fun hnil => ?_, fun x hx => .inl (List.mem_of_mem_take hx)⟩
        have hlen := congrArg List.length hnil
        rw [List.length_take, List.length_nil] at hlen
        omega
      · refine ⟨(ih h).1, fun x hx => ?_⟩
        exact ((ih h).2 x hx).imp_left List.mem_of_mem_drop
  | case2 line hlt =>
      rw [pieces, dif_neg hlt, List.mem_singleton] at h
      subst h
      simp

/-! ## Whole texts -/

/-- A last line without a newline comes as it is, if it fits. -/
theorem fgetsLoop_last (hline : newline ∉ line) (hfit : line.length ≤ size - 1)
    (hfuel : line.length ≤ fuel) :
    fgetsLoop size fuel line = if line = [] then [] else [line] := by
  have hfill : ∀ {room : ℕ} {line : List UInt8}, newline ∉ line → line.length ≤ room →
      fill room line = (line, []) := by
    intro room line hline hfit
    induction line generalizing room with
    | nil => cases room <;> rfl
    | cons x line ih =>
        rw [List.mem_cons, not_or] at hline
        cases room with
        | zero => cases hfit
        | succ room => simp [fill, Ne.symm hline.1, ih hline.2 (Nat.le_of_succ_le_succ hfit)]
  split
  · rename_i hnil
    subst hnil
    cases fuel <;> rfl
  · rename_i hnil
    cases fuel with
    | zero => exact absurd (List.length_eq_zero_iff.mp (Nat.le_zero.mp hfuel)) hnil
    | succ fuel =>
        rw [fgetsLoop_succ fuel hnil, hfill hline hfit]
        cases fuel <;> rfl

/-- A line that fits comes in one piece, but its newline may come by itself. -/
theorem pieces_of_fits (hroom : 1 < room) (hfit : line.length ≤ room) :
    pieces room line = [line ++ [newline]] ∨ pieces room line = [line, [newline]] := by
  rcases Nat.lt_or_ge line.length room with hlt | hle
  · exact .inl (pieces_of_lt hlt)
  · refine .inr ?_
    rw [pieces_of_le (by omega) hle, List.take_of_length_le hfit, List.drop_of_length_le hfit,
      pieces_of_lt (by rw [List.length_nil]; omega), List.nil_append]

end Restore.Stdio
