import Restore.Model.CmdLine

/-! # Computation rules for `CmdLine`: one equation for each key

As long as the cursor is inside `cmd` and `curr` inside a history with entries, no branch of
`readLine` runs into a fault, and each has a closed form. -/

namespace Restore.CmdLine

open StdString

variable {s : CmdLine}

/-- The cursor is inside `cmd` or at its end, and `curr` is an element of the history or its
end. -/
structure Sound (s : CmdLine) : Prop where
  mIndex_le : s.mIndex ≤ s.cmd.length
  curr_le : ∃ p, s.curr = some p ∧ p ≤ s.history.length
  history_ne : s.history ≠ []

/-! ## The line on the screen -/

@[simp] theorem write_write (a b : Str) : (s.write a).write b = s.write (a ++ b) := by
  simp [write]

/-- The bytes of `clearLine()`. -/
def wipe (s : CmdLine) : Str :=
  List.replicate (s.cmd.length - s.mIndex) Byte.space ++
    List.replicate (s.cmd.length - s.mIndex) Byte.backspace ++
      (List.replicate s.mIndex Byte.backspace ++ List.replicate s.mIndex Byte.space ++
        List.replicate s.mIndex Byte.backspace)

theorem clearLine_eq (h : s.mIndex ≤ s.cmd.length) : s.clearLine = .ok (s.write s.wipe) := by
  simp only [clearLine, h, if_true, backSpace, left, space, write_write, wipe, List.append_assoc]

theorem replaceLine_eq (h : s.mIndex ≤ s.cmd.length) (line : Str) :
    s.replaceLine line =
      .ok { s.write (s.wipe ++ line) with cmd := line, mIndex := line.length } := by
  simp only [replaceLine, clearLine_eq h]
  simp [writeLine, bind, Except.bind, pure, Except.pure]

/-! ## Editing -/

theorem insertKey_eq (h : s.mIndex ≤ s.cmd.length) :
    let cmd := s.cmd.take s.mIndex ++ s.c :: s.cmd.drop s.mIndex
    s.insertKey =
      .ok { s.write (s.wipe ++ cmd ++
              List.replicate (s.cmd.length - s.mIndex) Byte.backspace) with
            cmd, cmdBuffer := cmd, mIndex := s.mIndex + 1 } := by
  simp only [insertKey, clearLine_eq h]
  simp [bind, Except.bind, pure, Except.pure, write, substr, StdString.insert, h, inRange,
    writeLine, left]

theorem backspaceKey_eq (h : s.mIndex ≤ s.cmd.length) (hpos : 0 < s.mIndex) :
    let cmd := s.cmd.take (s.mIndex - 1) ++ s.cmd.drop s.mIndex
    s.backspaceKey =
      .ok { s.write (s.wipe ++ cmd ++
              List.replicate (s.cmd.length - s.mIndex) Byte.backspace) with
            cmd, mIndex := s.mIndex - 1 } := by
  have hpred : s.mIndex - 1 ≤ s.cmd.length := by omega
  have hsucc : s.mIndex - 1 + 1 = s.mIndex := Nat.sub_add_cancel hpos
  simp only [backspaceKey, clearLine_eq h]
  simp [bind, Except.bind, pure, Except.pure, write, substr, StdString.erase, h, inRange,
    writeLine, left, hpos, hpred, hsucc]

theorem rightKey_eq (h : s.mIndex < s.cmd.length) :
    s.rightKey = .ok { s.write [s.cmd[s.mIndex]] with mIndex := s.mIndex + 1 } := by
  simp [rightKey, List.getElem?_eq_getElem h, inRange, bind, Except.bind, pure, Except.pure]

/-! ## Browsing -/

/-- Where `curr` goes from `p` on Up: one entry back, or two past an entry equal to `cmd`. -/
def above (s : CmdLine) (p : ℕ) : ℕ :=
  if p = 0 then 0
  else if s.history[p - 1]? = some s.cmd ∧ p - 1 ≠ 0 then p - 1 - 1
  else p - 1

theorem above_lt {p : ℕ} (hp : p ≤ s.history.length) (hne : s.history ≠ []) :
    s.above p < s.history.length := by
  have hpos := List.length_pos_iff.mpr hne
  unfold above
  split
  · exact hpos
  · split <;> omega

theorem upCurr_eq {p : ℕ} (hp : p ≤ s.history.length) : s.upCurr p = .ok (s.above p) := by
  unfold upCurr above
  split
  · simp_all [pure, Except.pure]
  · have hlt : p - 1 < s.history.length := by omega
    simp only [List.getElem?_eq_getElem hlt, onElement, bind, Except.bind, pure, Except.pure,
      Option.some.injEq]
    split <;> rfl

theorem upKey_eq {p : ℕ} (h : s.mIndex ≤ s.cmd.length) (hcurr : s.curr = some p)
    (hp : p ≤ s.history.length) (hne : s.history ≠ []) :
    ∃ line, s.history[s.above p]? = some line ∧
      s.upKey = .ok { s.write (s.wipe ++ line) with
        curr := some (s.above p), cmd := line, mIndex := line.length } := by
  have hline := List.getElem?_eq_getElem (s.above_lt hp hne)
  refine ⟨_, hline, ?_⟩
  rw [upKey, hcurr]
  simp only [onElement, bind, Except.bind, upCurr_eq hp, hline]
  exact replaceLine_eq (s := { s with curr := some (s.above p) }) h _

theorem downKey_end (hcurr : s.curr = some s.history.length) : s.downKey = .ok s := by
  simp [downKey, hcurr, onElement, bind, Except.bind, pure, Except.pure]

/-- From the last entry, Down brings back what was saved, if anything was. -/
theorem downKey_last {p : ℕ} (h : s.mIndex ≤ s.cmd.length) (hcurr : s.curr = some p)
    (hp : p + 1 = s.history.length) :
    s.downKey = .ok
      (if s.cmdBuffer = [] then { s with curr := some (p + 1) }
      else { s.write (s.wipe ++ s.cmdBuffer) with
        curr := some (p + 1), cmd := s.cmdBuffer, mIndex := s.cmdBuffer.length }) := by
  have hne : p ≠ s.history.length := by omega
  have hlast : p = s.history.length - 1 := by omega
  by_cases hbuf : s.cmdBuffer = []
  · simp [downKey, hcurr, onElement, bind, Except.bind, pure, Except.pure, hne, ← hlast, hbuf]
  · simp [downKey, hcurr, onElement, bind, Except.bind, pure, Except.pure, hne, ← hlast, hbuf,
      replaceLine_eq h]

theorem downKey_next {p : ℕ} (h : s.mIndex ≤ s.cmd.length) (hcurr : s.curr = some p)
    (hp : p + 1 < s.history.length) :
    s.downKey = .ok { s.write (s.wipe ++ s.history[p + 1]) with
      curr := some (p + 1), cmd := s.history[p + 1], mIndex := s.history[p + 1].length } := by
  have hne : p ≠ s.history.length := by omega
  have hlast : p ≠ s.history.length - 1 := by omega
  simp only [downKey, hcurr, onElement, bind, Except.bind, hne, hlast, if_false,
    List.getElem?_eq_getElem hp]
  exact replaceLine_eq (s := { s with curr := some (p + 1) }) h _

/-! ## Completion -/

theorem tabKey_eq (h : s.mIndex ≤ s.cmd.length) {count : ℕ} {possible append : Str}
    (hhints : s.compareHints [] [] = .ok (count, possible, append)) :
    s.tabKey = .ok
      (if count > 1 ∧ s.lastKey = charToInt s.c then
        { s.write ([Byte.newline] ++ possible ++ [Byte.newline] ++ s.prompt ++
            (s.cmd ++ append)) with
          cmd := s.cmd ++ append, mIndex := (s.cmd ++ append).length }
      else if count = 1 then
        { s.write (s.wipe ++ possible) with
          cmd := possible, mIndex := possible.length, lastKey := 0 }
      else s) := by
  simp only [tabKey, hhints, bind, Except.bind]
  split
  · simp [writeLine, write, pure, Except.pure]
  · split
    · rw [clearLine_eq h]
      simp [writeLine, write, pure, Except.pure]
    · rfl

/-! ## Enter -/

/-- The line that the enter key takes: no spaces before it and no whitespace after it. -/
def line (s : CmdLine) : Str :=
  (s.cmd.dropWhile (· ∈ [Byte.space])).rdropWhile (· ∈ whitespace)

theorem enterKey_eq :
    s.enterKey = (fun s' : CmdLine =>
      ({ s' with cmd := [], cmdBuffer := [], mIndex := 0 }, s.line)) <$>
        (s.write [s.c]).enterLine s.line := by
  simp only [enterKey, write, erase_findFirstNotOf, inRange, eraseTail_eq, bind, Except.bind,
    pure, Except.pure]
  rfl

theorem enterLine_blank : s.enterLine [] = .ok (s.write s.prompt) := rfl

theorem enterLine_eq (hne : s.history ≠ []) {cmd : Str} (hcmd : cmd ≠ []) :
    let history := if s.history.getLast? ≠ some cmd ∧ cmd ≠ bytesOf "exit" then s.history ++ [cmd]
      else s.history
    s.enterLine cmd = .ok { s with history, curr := some history.length } := by
  rw [enterLine, if_neg hcmd, List.getLast?_eq_some_getLast hne]
  simp only [onElement, bind, Except.bind, ne_eq, Option.some.injEq, pure, Except.pure]
  by_cases hlast : s.history.getLast hne = cmd
  · simp [hlast]
  · by_cases hexit : cmd = bytesOf "exit" <;> simp [hlast, hexit]

/-! ## Calls -/

/-- The calls between which `readLine` chooses for any key but the enter key. -/
inductive Branch (s : CmdLine) (inp : Input) : Except Fault CmdLine → Prop
  | tab (hc : s.c = Byte.tab) : Branch s inp s.tabKey
  | backspace (hc : s.c = Byte.delete ∨ s.c = Byte.backspace) : Branch s inp s.backspaceKey
  | up (hc : s.c = Byte.escape) : Branch s inp s.upKey
  | down (hc : s.c = Byte.escape) : Branch s inp s.downKey
  | left (hc : s.c = Byte.escape) (hpos : 0 < s.mIndex) : Branch s inp (.ok s.leftKey)
  | right (hc : s.c = Byte.escape) (hlt : s.mIndex < s.cmd.length) : Branch s inp s.rightKey
  | escape (hc : s.c = Byte.escape) : Branch s inp (.ok s)
  | insert (hc : isPrint s.c) : Branch s inp s.insertKey
  | unknown (hc : ¬ isPrint s.c) : Branch s inp (.ok (s.printLen inp.key.len))

theorem escapeKey_branch (hc : s.c = Byte.escape) (inp : Input) :
    Branch s inp (s.escapeKey inp.b) := by
  unfold escapeKey
  split
  · exact .up hc
  · split
    · exact .down hc
    · split
      · rename_i hleft
        exact .left hc hleft.2
      · split
        · rename_i hright
          exact .right hc hright.2
        · exact .escape hc

theorem handle_branch (hc : s.c ≠ Byte.newline) (inp : Input) :
    ∃ x, Branch s inp x ∧ s.handle inp = (·, []) <$> x := by
  rw [handle, if_neg hc]
  refine ⟨_, ?_, rfl⟩
  split
  · rename_i htab
    exact .tab htab
  · split
    · rename_i herase
      exact .backspace herase
    · split
      · rename_i hescape
        exact escapeKey_branch hescape inp
      · split
        · rename_i hprint
          exact .insert hprint
        · rename_i hother
          exact .unknown hother

/-- A call of `readLine` for any key but the enter key. -/
theorem readLine_of_key {inp : Input} {x : Except Fault CmdLine}
    (h : (s.readKey inp.key).handle inp = (·, []) <$> x) :
    s.readLine inp = (fun s' : CmdLine => ({ s' with lastKey := charToInt s'.c }, [])) <$> x := by
  rw [readLine, h]
  cases x <;> rfl

theorem readLine_ok {inp : Input} {s' : CmdLine} {res : Str}
    (h : s.readLine inp = .ok (s', res)) :
    ∃ s₁, (s.readKey inp.key).handle inp = .ok (s₁, res) ∧
      s' = { s₁ with lastKey := charToInt s₁.c } := by
  rw [readLine] at h
  cases hhandle : (s.readKey inp.key).handle inp with
  | error e =>
      rw [hhandle] at h
      cases h
  | ok found =>
      rw [hhandle] at h
      obtain ⟨hs', rfl⟩ := Prod.mk.inj (Except.ok.inj h)
      exact ⟨found.1, rfl, hs'.symm⟩

theorem run_append (s : CmdLine) (inputs inputs' : List Input) :
    s.run (inputs ++ inputs') = (do (← s.run inputs).run inputs') := by
  induction inputs generalizing s with
  | nil => rfl
  | cons inp inputs ih =>
      rw [List.cons_append, run, run]
      cases s.readLine inp with
      | error e => rfl
      | ok res => exact ih res.1

/-- What each call of `readLine` that returns preserves, a run does. -/
theorem run_invariant {P : CmdLine → Prop}
    (hstep : ∀ {s s' : CmdLine} {inp : Input} {res : Str}, P s →
      s.readLine inp = .ok (s', res) → P s')
    {inputs : List Input} {s' : CmdLine} (h : P s) (hrun : s.run inputs = .ok s') : P s' := by
  induction inputs generalizing s with
  | nil =>
      obtain rfl := Except.ok.inj hrun
      exact h
  | cons inp inputs ih =>
      rw [run] at hrun
      cases hres : s.readLine inp with
      | error e =>
          rw [hres] at hrun
          cases hrun
      | ok res =>
          rw [hres] at hrun
          exact ih (hstep h hres) hrun

end Restore.CmdLine
