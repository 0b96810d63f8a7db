import Restore.Verification.CmdLine.Bounds

/-! # Browsing the history and coming back

On the way up nothing is saved: the line that Down brings back in the end is `cmd_buffer`, or
the last entry where that is empty. -/

namespace Restore.CmdLine

/-- The up key. -/
def up : Input := ⟨.byte Byte.escape, (0, 0), [0x5B, 0x41]⟩

/-- The down key. -/
def down : Input := ⟨.byte Byte.escape, (0, 0), [0x5B, 0x42]⟩

/-- Down until `curr` is at the end, at most `fuel` times. -/
def downToEnd : ℕ → CmdLine → Except Fault CmdLine
  | 0, s => .ok s
  | fuel + 1, s =>
      if s.curr = some s.history.length then .ok s
      else do
        let (s, _) ← s.readLine down
        s.downToEnd fuel

/-- `k` times Up, and back down to the end. -/
def browse (s : CmdLine) (k : ℕ) : Except Fault CmdLine := do
  let s ← s.run (List.replicate k up)
  s.downToEnd s.history.length

/-- On entry `p` of the history, with a line saved before. -/
structure OnEntry (history : List Str) (saved : Str) (p : ℕ) (s : CmdLine) : Prop where
  sound : s.Sound
  history_eq : s.history = history
  cmdBuffer_eq : s.cmdBuffer = saved
  curr_eq : s.curr = some p
  cmd_eq : history[p]? = some s.cmd

variable {history : List Str} {saved : Str} {p : ℕ} {s : CmdLine}

theorem OnEntry.lt (h : OnEntry history saved p s) : p < history.length :=
  (List.getElem?_eq_some_iff.mp h.cmd_eq).1

/-! ## One key -/

theorem readLine_up (hne : s.history ≠ []) :
    s.readLine up = (fun s' : CmdLine => ({ s' with lastKey := charToInt s'.c }, [])) <$>
      { s with c := Byte.escape }.upKey := by
  have hescape : { s with c := Byte.escape }.escapeKey up.b =
      { s with c := Byte.escape }.upKey := by
    rw [escapeKey, if_pos ⟨by decide, List.length_pos_iff.mpr hne⟩]
  rw [← hescape]
  exact readLine_of_key rfl

theorem readLine_down (hne : s.history ≠ []) :
    s.readLine down = (fun s' : CmdLine => ({ s' with lastKey := charToInt s'.c }, [])) <$>
      { s with c := Byte.escape }.downKey := by
  have hescape : { s with c := Byte.escape }.escapeKey down.b =
      { s with c := Byte.escape }.downKey := by
    rw [escapeKey, if_neg (fun h => absurd h.1 (by decide)),
      if_pos ⟨by decide, List.length_pos_iff.mpr hne⟩]
  rw [← hescape]
  exact readLine_of_key rfl

/-- Up goes to an entry, from wherever it is pressed, and keeps what was saved. -/
theorem up_onEntry (h : s.Sound) :
    ∃ p s', s.readLine up = .ok (s', []) ∧ OnEntry s.history s.cmdBuffer p s' := by
  obtain ⟨p, hcurr, hp⟩ := h.curr_le
  have hlt := above_lt (s := { s with c := Byte.escape }) hp h.history_ne
  obtain ⟨line, hline, hup⟩ :=
    upKey_eq (s := { s with c := Byte.escape }) h.mIndex_le hcurr hp h.history_ne
  rw [readLine_up h.history_ne, hup]
  exact ⟨_, _, rfl, ⟨le_rfl, ⟨_, rfl, hlt.le⟩, h.history_ne⟩, rfl, rfl, rfl, hline⟩

theorem down_onEntry (h : OnEntry history saved p s) (hnext : p + 1 < history.length) :
    ∃ s', s.readLine down = .ok (s', []) ∧ OnEntry history saved (p + 1) s' := by
  obtain ⟨hsound, rfl, rfl, hcurr, -⟩ := h
  rw [readLine_down hsound.history_ne,
    downKey_next (s := { s with c := Byte.escape }) hsound.mIndex_le hcurr hnext]
  exact ⟨_, rfl, ⟨le_rfl, ⟨_, rfl, hnext.le⟩, hsound.history_ne⟩, rfl, rfl, rfl,
    List.getElem?_eq_getElem hnext⟩

/-- From the last entry, Down puts the saved line in its place, if it is not empty. -/
theorem down_end (h : OnEntry history saved p s) (hlast : p + 1 = history.length) :
    ∃ s', s.readLine down = .ok (s', []) ∧ s'.curr = some s'.history.length ∧
      some s'.cmd = if saved = [] then history.getLast? else some saved := by
  obtain ⟨hsound, rfl, rfl, hcurr, hcmd⟩ := h
  have hget : s.history.getLast? = some s.cmd := by
    rw [List.getLast?_eq_getElem?, ← hlast, Nat.add_sub_cancel, hcmd]
  rw [readLine_down hsound.history_ne,
    downKey_last (s := { s with c := Byte.escape }) hsound.mIndex_le hcurr hlast, hget]
  refine ⟨_, rfl, ?_, ?_⟩ <;> by_cases hbuf : s.cmdBuffer = [] <;>
    simp [hbuf, hlast, write]

/-! ## The way up and down -/

theorem ups_onEntry (h : s.Sound) (k : ℕ) :
    ∃ p s', s.run (List.replicate (k + 1) up) = .ok s' ∧
      OnEntry s.history s.cmdBuffer p s' := by
  induction k generalizing s with
  | zero =>
      obtain ⟨p, s', hup, hentry⟩ := up_onEntry h
      exact ⟨p, s', by simp only [List.replicate, run, hup]; rfl, hentry⟩
  | succ k ih =>
      obtain ⟨_, s₁, hup, hentry⟩ := up_onEntry h
      obtain ⟨p, s', hrun, hlast⟩ := ih hentry.sound
      rw [hentry.history_eq, hentry.cmdBuffer_eq] at hlast
      refine ⟨p, s', ?_, hlast⟩
      rw [List.replicate_succ, run, hup]
      exact hrun

theorem downToEnd_onEntry (h : OnEntry history saved p s) (fuel : ℕ)
    (hfuel : history.length ≤ p + fuel) :
    ∃ s', s.downToEnd fuel = .ok s' ∧ s'.curr = some s'.history.length ∧
      some s'.cmd = if saved = [] then history.getLast? else some saved := by
  induction fuel generalizing s p with
  | zero => exact absurd h.lt (by omega)
  | succ fuel ih =>
      have hnot : s.curr ≠ some s.history.length := by
        rw [h.curr_eq, h.history_eq]
        exact fun hp => h.lt.ne (Option.some.inj hp)
      rw [downToEnd, if_neg hnot]
      rcases Nat.lt_or_ge (p + 1) history.length with hnext | hlast
      · obtain ⟨s₁, hdown, hentry⟩ := down_onEntry h hnext
        rw [hdown]
        exact ih hentry (by omega)
      · have hlt := h.lt
        obtain ⟨s', hdown, hcurr, hcmd⟩ := down_end h (by omega)
        rw [hdown]
        refine ⟨s', ?_, hcurr, hcmd⟩
        cases fuel with
        | zero => rfl
        | succ fuel => simp [bind, Except.bind, downToEnd, hcurr]

/-- However often Up is pressed, the way back ends on the same line. -/
theorem browse_eq (h : s.Sound) (k : ℕ) :
    ∃ s', s.browse (k + 1) = .ok s' ∧ s'.curr = some s'.history.length ∧
      some s'.cmd = if s.cmdBuffer = [] then s.history.getLast? else some s.cmdBuffer := by
  obtain ⟨p, s₁, hups, hentry⟩ := ups_onEntry h k
  obtain ⟨s', hdowns, hend⟩ :=
    downToEnd_onEntry hentry s₁.history.length (by rw [hentry.history_eq]; omega)
  refine ⟨s', ?_, hend⟩
  rw [browse, hups]
  exact hdowns

/-- In every state that keys can lead to, with a line begun, browsing restores that line exactly
if it is the one saved, or if none is saved and it is the last entry. -/
theorem browse_restores_iff {history : List Str} (hne : history ≠ []) (hints : List Str)
    (prompt : Str) (c : UInt8) (lastKey : Int) (inputs : List Input) {s : CmdLine}
    (hrun : (start history hints prompt c lastKey).run inputs = .ok s) (hcmd : s.cmd ≠ []) :
    (∀ k ≥ 1, ∃ s', s.browse k = .ok s' ∧ s'.curr = some s'.history.length ∧ s'.cmd = s.cmd) ↔
      s.cmdBuffer = s.cmd ∨ s.cmdBuffer = [] ∧ s.history.getLast? = some s.cmd := by
  have hsound : s.Sound := by
    have hsafe := run_safe (start_sound hne hints prompt c lastKey) inputs
    rwa [hrun] at hsafe
  have hback : (if s.cmdBuffer = [] then s.history.getLast? else some s.cmdBuffer) = some s.cmd ↔
      s.cmdBuffer = s.cmd ∨ s.cmdBuffer = [] ∧ s.history.getLast? = some s.cmd := by
    by_cases hbuf : s.cmdBuffer = []
    · simp [hbuf, hcmd.symm]
    · simp [hbuf]
  rw [← hback]
  constructor
  · intro h
    obtain ⟨s₁, hok, -, hsame⟩ := h 1 le_rfl
    obtain ⟨s₂, hok', -, hend⟩ := browse_eq hsound 0
    obtain rfl := Except.ok.inj (hok.symm.trans hok')
    rw [← hend, hsame]
  · rintro h k hk
    obtain ⟨k, rfl⟩ := Nat.exists_eq_add_of_le' hk
    obtain ⟨s', hok, hcurr, hend⟩ := browse_eq hsound k
    exact ⟨s', hok, hcurr, Option.some.inj (hend.trans h)⟩

/-- "a", "b", backspace: what is saved is still "ab". -/
theorem browse_brings_back_erased :
    ∃ s s' : CmdLine,
      (start [bytesOf "help"] [] (bytesOf "> ") 0 0).run
          [⟨.byte 97, (0, 0), []⟩, ⟨.byte 98, (0, 0), []⟩, ⟨.byte 127, (0, 0), []⟩] = .ok s ∧
        s.curr = some s.history.length ∧ s.cmd = bytesOf "a" ∧
        s.browse 1 = .ok s' ∧ s'.cmd = bytesOf "ab" :=
  ⟨_, _, rfl, rfl, rfl, rfl, rfl⟩

theorem browse_restores_of_typed :
    ∃ s : CmdLine,
      (start [bytesOf "help"] [] (bytesOf "> ") 0 0).run
          [⟨.byte 97, (0, 0), []⟩, ⟨.byte 98, (0, 0), []⟩] = .ok s ∧
        ∀ k ≥ 1, ∃ s', s.browse k = .ok s' ∧ s'.curr = some s'.history.length ∧
          s'.cmd = bytesOf "ab" :=
  ⟨_, rfl, (browse_restores_iff (by decide) [] (bytesOf "> ") 0 0
    [⟨.byte 97, (0, 0), []⟩, ⟨.byte 98, (0, 0), []⟩] rfl (by decide)).mpr (.inl rfl)⟩

end Restore.CmdLine
