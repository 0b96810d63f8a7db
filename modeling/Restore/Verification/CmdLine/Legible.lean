import Restore.Shared.Terminal
import Restore.Verification.CmdLine.Completion

/-! # Only printable text gets into the editor

What is typed is printable, Tab adds from the hints, and the arrows bring back what was typed
before. Prompt and hints stay as they are; only Enter adds to the history. -/

namespace Restore.CmdLine

open StdString

/-- The terminal that `out_fd` leads to. -/
def ascii : TerminalAlphabet UInt8 where
  printable := isPrint
  blank := Byte.space
  backspace := Byte.backspace
  newline := Byte.newline
  printable_blank := by decide
  not_printable_backspace := by decide
  not_printable_newline := by decide
  newline_ne_backspace := by decide

/-- All text of the editor but its prompt is printable. -/
structure Legible (s : CmdLine) : Prop where
  cmd : ascii.Printable s.cmd
  cmdBuffer : ascii.Printable s.cmdBuffer
  history : ∀ entry ∈ s.history, ascii.Printable entry
  hints : ∀ hint ∈ s.hints, ascii.Printable hint

/-- What every key but Enter does to an editor with printable text. -/
structure Edited (s s' : CmdLine) : Prop where
  cmd : ascii.Printable s'.cmd
  cmdBuffer : ascii.Printable s'.cmdBuffer
  history_eq : s'.history = s.history
  hints_eq : s'.hints = s.hints
  prompt_eq : s'.prompt = s.prompt

variable {s s' : CmdLine}

theorem Legible.edited (h : s.Legible) (hedited : Edited s s') : s'.Legible := by
  refine ⟨hedited.cmd, hedited.cmdBuffer, ?_, ?_⟩
  · rw [hedited.history_eq]
    exact h.history
  · rw [hedited.hints_eq]
    exact h.hints

theorem not_mem_of_printable {text : Str} (htext : ascii.Printable text) : (0 : UInt8) ∉ text :=
  fun h0 => absurd (htext 0 h0) (by decide)

theorem printable_nil : ascii.Printable [] := fun _ hx => nomatch hx

theorem printable_append {text text' : Str} (htext : ascii.Printable text)
    (htext' : ascii.Printable text') : ascii.Printable (text ++ text') :=
  fun x hx => (List.mem_append.mp hx).elim (htext x) (htext' x)

theorem printable_of_subset {text text' : Str} (htext : ascii.Printable text)
    (hsub : text' ⊆ text) : ascii.Printable text' := fun x hx => htext x (hsub hx)

/-! ## Each key -/

theorem insertKey_edited (h : s.Legible) (hle : s.mIndex ≤ s.cmd.length) (hc : isPrint s.c)
    (hs' : s.insertKey = .ok s') : Edited s s' := by
  rw [insertKey_eq hle] at hs'
  obtain rfl := Except.ok.inj hs'
  have hcmd : ascii.Printable (s.cmd.take s.mIndex ++ s.c :: s.cmd.drop s.mIndex) := by
    refine printable_append (printable_of_subset h.cmd (List.take_subset _ _)) ?_
    refine List.forall_mem_cons.mpr ⟨hc, printable_of_subset h.cmd (List.drop_subset _ _)⟩
  exact ⟨hcmd, hcmd, rfl, rfl, rfl⟩

theorem backspaceKey_edited (h : s.Legible) (hle : s.mIndex ≤ s.cmd.length)
    (hs' : s.backspaceKey = .ok s') : Edited s s' := by
  rcases Nat.eq_zero_or_pos s.mIndex with hzero | hpos
  · obtain rfl : s = s' := by simpa [backspaceKey, hzero, pure, Except.pure] using hs'
    exact ⟨h.cmd, h.cmdBuffer, rfl, rfl, rfl⟩
  · rw [backspaceKey_eq hle hpos] at hs'
    obtain rfl := Except.ok.inj hs'
    exact ⟨printable_append (printable_of_subset h.cmd (List.take_subset _ _))
      (printable_of_subset h.cmd (List.drop_subset _ _)), h.cmdBuffer, rfl, rfl, rfl⟩

theorem upKey_edited (h : s.Legible) (hsound : s.Sound) (hs' : s.upKey = .ok s') :
    Edited s s' := by
  obtain ⟨p, hcurr, hp⟩ := hsound.curr_le
  obtain ⟨line, hget, hup⟩ := upKey_eq hsound.mIndex_le hcurr hp hsound.history_ne
  rw [hup] at hs'
  obtain rfl := Except.ok.inj hs'
  exact ⟨h.history line (List.mem_of_getElem? hget), h.cmdBuffer, rfl, rfl, rfl⟩

theorem downKey_edited (h : s.Legible) (hsound : s.Sound) (hs' : s.downKey = .ok s') :
    Edited s s' := by
  have hle := hsound.mIndex_le
  obtain ⟨p, hcurr, hp⟩ := hsound.curr_le
  rcases Nat.lt_trichotomy (p + 1) s.history.length with hlt | heq | hgt
  · rw [downKey_next hle hcurr hlt] at hs'
    obtain rfl := Except.ok.inj hs'
    exact ⟨h.history _ (List.getElem_mem hlt), h.cmdBuffer, rfl, rfl, rfl⟩
  · rw [downKey_last hle hcurr heq] at hs'
    split at hs'
    · obtain rfl := Except.ok.inj hs'
      exact ⟨h.cmd, h.cmdBuffer, rfl, rfl, rfl⟩
    · obtain rfl := Except.ok.inj hs'
      exact ⟨h.cmdBuffer, h.cmdBuffer, rfl, rfl, rfl⟩
  · obtain rfl : p = s.history.length := by omega
    rw [downKey_end hcurr] at hs'
    obtain rfl := Except.ok.inj hs'
    exact ⟨h.cmd, h.cmdBuffer, rfl, rfl, rfl⟩

/-- Tab takes all it adds from the hints. -/
theorem tabKey_edited (h : s.Legible) (hle : s.mIndex ≤ s.cmd.length) (hs' : s.tabKey = .ok s') :
    Edited s s' := by
  have hnul : ∀ hint ∈ s.hints, (0 : UInt8) ∉ hint := fun hint hh =>
    not_mem_of_printable (h.hints hint hh)
  have hcmd : ascii.Printable s'.cmd := by
    have hhint {hint : Str} (hh : hint ∈ s.matched) : ascii.Printable s'.cmd :=
      printable_of_subset (printable_append (h.hints hint (mem_matched hh).1) (by decide))
        ((tabKey_isPrefix hnul hs').2 hint hh).subset
    rcases cmd_of_tabKey_of_count hnul hs' with hsame | ⟨hne, -⟩ | ⟨hint, hmatched, -⟩
    · rw [hsame]
      exact h.cmd
    · exact hhint (List.head_mem hne)
    · exact hhint (hmatched ▸ List.mem_cons_self : hint ∈ s.matched)
  obtain ⟨⟨count, possible, append⟩, hhints⟩ := compareHints_ok hnul [] []
  rw [tabKey_eq hle hhints] at hs'
  obtain rfl := Except.ok.inj hs'
  refine ⟨hcmd, ?_, ?_, ?_, ?_⟩ <;> (split <;> [skip; split]) <;> first | rfl | exact h.cmdBuffer

theorem branch_edited (h : s.Legible) (hsound : s.Sound) {inp : Input}
    {x : Except Fault CmdLine} (hx : Branch s inp x) (hs' : x = .ok s') : Edited s s' := by
  have hle := hsound.mIndex_le
  cases hx with
  | tab => exact tabKey_edited h hle hs'
  | backspace => exact backspaceKey_edited h hle hs'
  | up => exact upKey_edited h hsound hs'
  | down => exact downKey_edited h hsound hs'
  | right _ hlt =>
      rw [rightKey_eq hlt] at hs'
      obtain rfl := Except.ok.inj hs'
      exact ⟨h.cmd, h.cmdBuffer, rfl, rfl, rfl⟩
  | insert hc => exact insertKey_edited h hle hc hs'
  | left | escape | unknown =>
      obtain rfl := Except.ok.inj hs'
      exact ⟨h.cmd, h.cmdBuffer, rfl, rfl, rfl⟩

/-! ## Enter -/

theorem line_subset (s : CmdLine) : s.line ⊆ s.cmd :=
  List.Subset.trans (List.rdropWhile_prefix _ _).subset (List.dropWhile_sublist _).subset

/-- Enter clears the line, and adds nothing but that line to the history. -/
theorem enterKey_history (hne : s.history ≠ []) :
    ∃ s', s.enterKey = .ok (s', s.line) ∧ s'.cmd = [] ∧ s'.cmdBuffer = [] ∧
      s'.hints = s.hints ∧ s'.prompt = s.prompt ∧
        (s'.history = s.history ∨ s.line ≠ [] ∧ s'.history = s.history ++ [s.line]) := by
  rw [enterKey_eq]
  by_cases hline : s.line = []
  · rw [hline, enterLine_blank]
    exact ⟨_, rfl, rfl, rfl, rfl, rfl, .inl rfl⟩
  · rw [enterLine_eq (s := s.write [s.c]) hne hline]
    refine ⟨_, rfl, rfl, rfl, rfl, rfl, ?_⟩
    by_cases hnew : s.history.getLast? ≠ some s.line ∧ s.line ≠ bytesOf "exit"
    · exact .inr ⟨hline, if_pos hnew⟩
    · exact .inl (if_neg hnew)

/-! ## Calls -/

theorem Legible.readKey (h : s.Legible) (key : KeyRead) : (s.readKey key).Legible := by
  cases key <;> exact ⟨h.cmd, h.cmdBuffer, h.history, h.hints⟩

/-- Whatever is read, the text stays printable, and the history stays as it is or gets the
line. -/
theorem handle_legible (h : s.Legible) (hsound : s.Sound) {inp : Input} {res : Str}
    (hs' : s.handle inp = .ok (s', res)) :
    s'.Legible ∧ (s'.history = s.history ∨ s.line ≠ [] ∧ s'.history = s.history ++ [s.line]) := by
  by_cases hc : s.c = Byte.newline
  · rw [handle, if_pos hc] at hs'
    obtain ⟨s₁, henter, hcmd, hbuf, hhints, -, hhistory⟩ := s.enterKey_history hsound.history_ne
    obtain ⟨rfl, -⟩ := Prod.mk.inj (Except.ok.inj (henter.symm.trans hs'))
    refine ⟨⟨hcmd ▸ printable_nil, hbuf ▸ printable_nil, ?_, hhints ▸ h.hints⟩, hhistory⟩
    rcases hhistory with hsame | ⟨-, hadded⟩
    · rw [hsame]
      exact h.history
    · rw [hadded, List.forall_mem_append, List.forall_mem_singleton]
      exact ⟨h.history, printable_of_subset h.cmd s.line_subset⟩
  · obtain ⟨x, hx, hhandle⟩ := s.handle_branch hc inp
    rw [hhandle] at hs'
    cases x with
    | error e => cases hs'
    | ok s₁ =>
        obtain ⟨rfl, -⟩ := Prod.mk.inj (Except.ok.inj hs')
        have hedited := branch_edited h hsound hx rfl
        exact ⟨h.edited hedited, .inl hedited.history_eq⟩

end Restore.CmdLine
