import Mathlib.Logic.Relation
import Restore.Verification.CmdLine.Legible

/-! # The screen agrees with the buffer

After each key the current row of the terminal reads as the prompt and `cmd`, with the cursor
`m_index` columns behind the prompt. -/

namespace Restore.CmdLine

open TerminalAlphabet

/-- The row that all output so far has left. -/
def screen (s : CmdLine) : TerminalRow UInt8 := ascii.display ascii.freshRow s.out

/-- The row reads as the prompt and `cmd`, and the cursor is where `m_index` says. -/
structure Agrees (prompt : Str) (s : CmdLine) : Prop where
  sound : s.Sound
  legible : s.Legible
  prompt_eq : s.prompt = prompt
  shows : ascii.Shows s.screen (prompt ++ s.cmd) (prompt.length + s.mIndex)

/-- A call that returns with screen and buffer in agreement. -/
def Agreeing (prompt : Str) : Except Fault CmdLine → Prop
  | .ok s => Agrees prompt s
  | .error _ => False

variable {prompt : Str} {s : CmdLine}

theorem screen_write (bytes : Str) :
    (s.write bytes).screen = ascii.display s.screen bytes := display_append

/-! ## Redrawing -/

theorem Agrees.wipe (h : Agrees prompt s) :
    ascii.Shows (s.write s.wipe).screen prompt prompt.length := by
  have hle := h.sound.mIndex_le
  have hmid : (s.cmd.take s.mIndex).length = s.mIndex := by
    rw [List.length_take]
    omega
  have hshows : ascii.Shows s.screen (prompt ++ (s.cmd.take s.mIndex ++ s.cmd.drop s.mIndex))
      (prompt.length + (s.cmd.take s.mIndex).length) := by
    rw [List.take_append_drop, hmid]
    exact h.shows
  have hwipe := hshows.wipe
  rw [hmid, List.length_drop] at hwipe
  rw [screen_write]
  exact hwipe

/-- The line is wiped and another one written. -/
theorem Agrees.replaceLine (h : Agrees prompt s) {line : Str} (hline : ascii.Printable line) :
    ascii.Shows (s.write (s.wipe ++ line)).screen (prompt ++ line)
      (prompt.length + line.length) := by
  have happend := h.wipe.append hline
  rwa [← screen_write, write_write] at happend

/-- After that, the cursor goes back by `k` columns. -/
theorem Agrees.redraw (h : Agrees prompt s) {line : Str} (hline : ascii.Printable line)
    {k m : ℕ} (hm : m + k = line.length) :
    ascii.Shows (s.write (s.wipe ++ line ++ List.replicate k Byte.backspace)).screen
      (prompt ++ line) (prompt.length + m) := by
  have hback := (h.replaceLine hline).back k
  rw [← screen_write, write_write, ← hm, ← Nat.add_assoc, Nat.add_sub_cancel] at hback
  exact hback

/-- The prompt and a line on a row of their own. -/
theorem shows_of_newline (before : Str) {line : Str} (hprompt : ascii.Printable prompt)
    (hline : ascii.Printable line)
    (hout : s.out = before ++ Byte.newline :: (prompt ++ line)) :
    ascii.Shows s.screen (prompt ++ line) (prompt.length + line.length) := by
  have hrow := (@shows_freshRow _ ascii).append fun x hx =>
    (List.mem_append.mp hx).elim (hprompt x) (hline x)
  have hscreen : s.screen = ascii.display ascii.freshRow (prompt ++ line) := by
    rw [screen, hout]
    exact display_newline before _
  rw [hscreen]
  simpa using hrow

/-! ## Each key -/

/-- Of a call that returns only the screen is left to look at. -/
theorem Agrees.of_edited (h : Agrees prompt s) {s' : CmdLine} {x : Except Fault CmdLine}
    (hx : x = .ok s') (hkept : x = .ok s' → Kept s s')
    (hedited : x = .ok s' → Edited s s')
    (hshows : ascii.Shows s'.screen (prompt ++ s'.cmd) (prompt.length + s'.mIndex)) :
    Agreeing prompt x := by
  subst hx
  have hedited := hedited rfl
  exact ⟨h.sound.kept (hkept rfl), h.legible.edited hedited,
    hedited.prompt_eq.trans h.prompt_eq, hshows⟩

theorem insertKey_agrees (h : Agrees prompt s) (hc : isPrint s.c) :
    Agreeing prompt s.insertKey := by
  have hle := h.sound.mIndex_le
  have hok := insertKey_eq hle
  refine h.of_edited hok (insertKey_kept h.sound.placed) (insertKey_edited h.legible hle hc) ?_
  refine h.redraw (insertKey_edited h.legible hle hc hok).cmd ?_
  simp only [List.length_append, List.length_take, List.length_cons, List.length_drop]
  omega

theorem backspaceKey_agrees (h : Agrees prompt s) : Agreeing prompt s.backspaceKey := by
  rcases Nat.eq_zero_or_pos s.mIndex with hzero | hpos
  · simpa [backspaceKey, hzero, pure, Except.pure, Agreeing] using h
  · have hle := h.sound.mIndex_le
    have hok := backspaceKey_eq hle hpos
    refine h.of_edited hok (backspaceKey_kept h.sound.placed) (backspaceKey_edited h.legible hle) ?_
    refine h.redraw (backspaceKey_edited h.legible hle hok).cmd ?_
    simp only [List.length_append, List.length_take, List.length_drop]
    omega

theorem upKey_agrees (h : Agrees prompt s) : Agreeing prompt s.upKey := by
  obtain ⟨p, hcurr, hp⟩ := h.sound.curr_le
  obtain ⟨line, hget, hok⟩ := upKey_eq h.sound.mIndex_le hcurr hp h.sound.history_ne
  exact h.of_edited hok (upKey_kept h.sound.placed) (upKey_edited h.legible h.sound)
    (h.replaceLine (h.legible.history line (List.mem_of_getElem? hget)))

theorem downKey_agrees (h : Agrees prompt s) : Agreeing prompt s.downKey := by
  have hle := h.sound.mIndex_le
  obtain ⟨p, hcurr, hp⟩ := h.sound.curr_le
  rcases Nat.lt_trichotomy (p + 1) s.history.length with hlt | heq | hgt
  · exact h.of_edited (downKey_next hle hcurr hlt) (downKey_kept h.sound.placed)
      (downKey_edited h.legible h.sound)
      (h.replaceLine (h.legible.history _ (List.getElem_mem hlt)))
  · refine h.of_edited (downKey_last hle hcurr heq) (downKey_kept h.sound.placed)
      (downKey_edited h.legible h.sound) ?_
    split
    · exact h.shows
    · exact h.replaceLine h.legible.cmdBuffer
  · obtain rfl : p = s.history.length := by omega
    rw [downKey_end hcurr]
    exact h

theorem leftKey_agrees (h : Agrees prompt s) (hpos : 0 < s.mIndex) : Agrees prompt s.leftKey := by
  have hle := h.sound.mIndex_le
  have hback := h.shows.back 1
  rw [Nat.add_sub_assoc hpos, ← screen_write] at hback
  exact ⟨⟨(Nat.sub_le _ _).trans hle, h.sound.curr_le, h.sound.history_ne⟩,
    ⟨h.legible.cmd, h.legible.cmdBuffer, h.legible.history, h.legible.hints⟩, h.prompt_eq, hback⟩

/-- Moving to the right writes the byte that is there already. -/
theorem rightKey_agrees (h : Agrees prompt s) (hlt : s.mIndex < s.cmd.length) :
    Agreeing prompt s.rightKey := by
  rw [rightKey_eq hlt]
  have hpre : (prompt ++ s.cmd.take s.mIndex).length = prompt.length + s.mIndex := by
    rw [List.length_append, List.length_take]
    omega
  have hshows : ascii.Shows s.screen (prompt ++ s.cmd.take s.mIndex ++ s.cmd.drop s.mIndex)
      (prompt ++ s.cmd.take s.mIndex).length := by
    rw [hpre, List.append_assoc, List.take_append_drop]
    exact h.shows
  have hprint := @Shows.print _ _ ascii _ [s.cmd[s.mIndex]] _ _ hshows
    (by simpa [Printable] using h.legible.cmd _ (List.getElem_mem hlt))
  rw [hpre, List.length_singleton, List.append_assoc, List.append_assoc, List.singleton_append,
    List.drop_drop, List.getElem_cons_drop, List.take_append_drop, ← screen_write] at hprint
  exact ⟨⟨hlt, h.sound.curr_le, h.sound.history_ne⟩,
    ⟨h.legible.cmd, h.legible.cmdBuffer, h.legible.history, h.legible.hints⟩, h.prompt_eq, hprint⟩

/-- Tab rewrites the line behind a new prompt, or in its place. -/
theorem tabKey_agrees (h : Agrees prompt s) (hprompt : ascii.Printable prompt) :
    Agreeing prompt s.tabKey := by
  have hle := h.sound.mIndex_le
  obtain ⟨⟨count, possible, append⟩, hhints⟩ := compareHints_ok
    (fun hint hh => not_mem_of_printable (h.legible.hints hint hh)) [] []
  have hok := tabKey_eq hle hhints
  have hline := (tabKey_edited h.legible hle hok).cmd
  refine h.of_edited hok (tabKey_kept h.sound.placed) (tabKey_edited h.legible hle) ?_
  by_cases hmany : count > 1 ∧ s.lastKey = charToInt s.c
  · rw [if_pos hmany] at hline ⊢
    refine shows_of_newline (s.out ++ Byte.newline :: possible) hprompt hline ?_
    simp [write, h.prompt_eq]
  · rw [if_neg hmany] at hline ⊢
    by_cases hone : count = 1
    · rw [if_pos hone] at hline ⊢
      exact h.replaceLine hline
    · rw [if_neg hone]
      exact h.shows

theorem line_of_blank (hblank : ∀ x ∈ s.cmd, x = Byte.space) : s.line = [] := by
  have hdrop : s.cmd.dropWhile (· ∈ [Byte.space]) = [] := by
    rw [List.dropWhile_eq_nil_iff]
    exact fun x hx => by simp [hblank x hx]
  rw [line, hdrop]
  rfl

/-- Enter on blanks starts over on a new row. -/
theorem enterKey_agrees (h : Agrees prompt s) (hprompt : ascii.Printable prompt)
    (hblank : ∀ x ∈ s.cmd, x = Byte.space) (hc : s.c = Byte.newline) :
    ∃ s', s.enterKey = .ok (s', []) ∧ Agrees prompt s' := by
  have hsafe := enterKey_safe h.sound
  rw [enterKey_eq, line_of_blank hblank, enterLine_blank] at hsafe ⊢
  refine ⟨_, rfl, hsafe, ⟨printable_nil, printable_nil, h.legible.history, h.legible.hints⟩,
    h.prompt_eq, ?_⟩
  exact shows_of_newline s.out hprompt printable_nil (by simp [write, hc, h.prompt_eq])

/-! ## Editing -/

/-- A byte that is printed, an erasing key, Tab, Enter where there are only blanks, or one of
the arrow keys. -/
def EditKey (s : CmdLine) (inp : Input) : Prop :=
  ∃ b, inp.key = .byte b ∧
    (isPrint b ∨ b ∈ [Byte.delete, Byte.backspace, Byte.tab] ∨
      b = Byte.newline ∧ (∀ x ∈ s.cmd, x = Byte.space) ∨
        b = Byte.escape ∧ ∃ x ∈ [0x41, 0x42, 0x43, 0x44], inp.b = (0x5B, x))

/-- One call of `readLine` that finds such a key. -/
def Edit (s s' : CmdLine) : Prop :=
  ∃ inp res, s.EditKey inp ∧ s.readLine inp = .ok (s', res)

theorem Agrees.readKey (h : Agrees prompt s) (key : KeyRead) :
    Agrees prompt (s.readKey key) := by
  refine ⟨h.sound.readKey key, h.legible.readKey key, ?_, ?_⟩ <;> cases key <;>
    first | exact h.prompt_eq | exact h.shows

theorem branch_agrees (h : Agrees prompt s) (hprompt : ascii.Printable prompt) {inp : Input}
    {x : Except Fault CmdLine} (hx : Branch s inp x) : Agreeing prompt x := by
  cases hx with
  | tab => exact tabKey_agrees h hprompt
  | backspace => exact backspaceKey_agrees h
  | up => exact upKey_agrees h
  | down => exact downKey_agrees h
  | left _ hpos => exact leftKey_agrees h hpos
  | right _ hlt => exact rightKey_agrees h hlt
  | escape => exact h
  | insert hc => exact insertKey_agrees h hc
  | unknown hc =>
      have hx : Branch s inp _ := .unknown hc
      exact h.of_edited rfl (branch_kept h.sound.placed hx)
        (branch_edited h.legible h.sound hx) h.shows

theorem handle_agrees (h : Agrees prompt s) (hprompt : ascii.Printable prompt) {inp : Input}
    (hkey : s.EditKey inp) (hc : inp.key = .byte s.c) :
    ∃ s', s.handle inp = .ok (s', []) ∧ Agrees prompt s' := by
  obtain ⟨b, hb, hbyte⟩ := hkey
  obtain rfl : s.c = b := KeyRead.byte.inj (hc.symm.trans hb)
  by_cases hnewline : s.c = Byte.newline
  · rw [handle, if_pos hnewline]
    rw [hnewline] at hbyte
    rcases hbyte with hprint | hmem | ⟨-, hblank⟩ | ⟨hescape, -⟩
    · exact absurd hprint (by decide)
    · exact absurd hmem (by decide)
    · exact enterKey_agrees h hprompt hblank hnewline
    · exact absurd hescape (by decide)
  · obtain ⟨x, hx, hhandle⟩ := s.handle_branch hnewline inp
    have hagrees := branch_agrees h hprompt hx
    rw [hhandle]
    cases x with
    | error e => exact hagrees.elim
    | ok s' => exact ⟨s', rfl, hagrees⟩

theorem readLine_agrees (h : Agrees prompt s) (hprompt : ascii.Printable prompt) {inp : Input}
    (hkey : s.EditKey inp) :
    ∃ s', s.readLine inp = .ok (s', []) ∧ Agrees prompt s' := by
  have hread : (s.readKey inp.key).EditKey inp ∧ inp.key = .byte (s.readKey inp.key).c := by
    obtain ⟨b, hb, hbyte⟩ := hkey
    rw [hb]
    exact ⟨⟨b, hb, hbyte⟩, rfl⟩
  obtain ⟨s', hhandle, hagrees⟩ := handle_agrees (h.readKey inp.key) hprompt hread.1 hread.2
  refine ⟨{ s' with lastKey := charToInt s'.c }, by rw [readLine, hhandle]; rfl, ?_⟩
  exact ⟨⟨hagrees.sound.mIndex_le, hagrees.sound.curr_le, hagrees.sound.history_ne⟩,
    ⟨hagrees.legible.cmd, hagrees.legible.cmdBuffer, hagrees.legible.history,
      hagrees.legible.hints⟩, hagrees.prompt_eq, hagrees.shows⟩

theorem start_agrees {history hints : List Str} (hne : history ≠ [])
    (hhistory : ∀ entry ∈ history, ascii.Printable entry)
    (hhints : ∀ hint ∈ hints, ascii.Printable hint) (hprompt : ascii.Printable prompt)
    (c : UInt8) (lastKey : Int) : Agrees prompt (start history hints prompt c lastKey) := by
  have hshows := (@shows_freshRow _ ascii).append hprompt
  rw [List.nil_append, List.length_nil, Nat.zero_add] at hshows
  refine ⟨start_sound hne hints prompt c lastKey,
    ⟨printable_nil, printable_nil, hhistory, hhints⟩, rfl, ?_⟩
  rw [show (start history hints prompt c lastKey).cmd = [] from rfl, List.append_nil]
  exact hshows

/-- With a printable prompt, whatever keys of one line are pressed, each call returns, and
after it the row reads as prompt and `cmd` with the cursor `m_index` columns behind the prompt. -/
theorem screen_agrees {history hints : List Str} (hne : history ≠ [])
    (hhistory : ∀ entry ∈ history, ascii.Printable entry)
    (hhints : ∀ hint ∈ hints, ascii.Printable hint) (hprompt : ascii.Printable prompt)
    (c : UInt8) (lastKey : Int) {s : CmdLine}
    (hedit : Relation.ReflTransGen Edit (start history hints prompt c lastKey) s) :
    ascii.Shows s.screen (prompt ++ s.cmd) (prompt.length + s.mIndex) ∧
      ∀ inp, s.EditKey inp → ∃ s', s.readLine inp = .ok (s', []) := by
  have hagrees : Agrees prompt s := by
    induction hedit with
    | refl => exact start_agrees hne hhistory hhints hprompt c lastKey
    | tail _ hstep ih =>
        obtain ⟨inp, res, hkey, hres⟩ := hstep
        obtain ⟨s', hok, hs'⟩ := readLine_agrees ih hprompt hkey
        rw [hok] at hres
        obtain ⟨rfl, -⟩ := Prod.mk.inj (Except.ok.inj hres)
        exact hs'
  refine ⟨hagrees.shows, fun inp hkey => ?_⟩
  obtain ⟨s', hok, -⟩ := readLine_agrees hagrees hprompt hkey
  exact ⟨s', hok⟩

/-- One letter, and to the left. -/
theorem screen_agrees_of_keys :
    let left : Input := ⟨.byte 27, (0, 0), [0x5B, 0x44]⟩
    ∃ s₁ s₂ : CmdLine,
      (start [bytesOf "help"] [] (bytesOf "> ") 0 0).readLine ⟨.byte 97, (0, 0), []⟩ =
          .ok (s₁, []) ∧ s₁.readLine left = .ok (s₂, []) ∧
        ascii.Shows s₂.screen (bytesOf "> " ++ bytesOf "a") 2 := by
  intro left
  refine ⟨_, _, rfl, rfl, ?_⟩
  refine (@screen_agrees (bytesOf "> ") [bytesOf "help"] [] (by decide) (by decide) (by decide)
    (by decide) 0 0 _ ?_).1
  exact .tail (.single ⟨⟨.byte 97, (0, 0), []⟩, [], ⟨97, rfl, .inl (by decide)⟩, rfl⟩)
    ⟨left, [], ⟨27, rfl, .inr (.inr (.inr ⟨rfl, 0x44, by decide, rfl⟩))⟩, rfl⟩

/-- A prompt with a newline is as long as it was, but not on the row. -/
theorem screen_shifted_by_newline :
    ∃ s, (start [bytesOf "help"] [] [Byte.newline] 0 0).readLine ⟨.byte 97, (0, 0), []⟩ =
        .ok (s, []) ∧
      s.screen.col = 1 ∧ s.prompt.length + s.mIndex = 2 :=
  ⟨_, rfl, by decide, by decide⟩

end Restore.CmdLine
