import Restore.Verification.CmdLine.Equations

/-! # No key runs out of a string or the history -/

namespace Restore.CmdLine

open StdString

variable {s : CmdLine}

/-- A call that ends in a sound editor, or in the failed search of `compareHints`. -/
def Safe (x : Except Fault CmdLine) : Prop :=
  match x with
  | .ok s => s.Sound
  | .error e => e = .notFound

theorem eraseMainCmd_fault {mainCmd possible : Str} {times : ℕ} {e : Fault}
    (h : eraseMainCmd mainCmd times possible = .error e) : e = .notFound := by
  induction times generalizing possible with
  | zero => cases h
  | succ times ih =>
      rw [eraseMainCmd] at h
      split at h
      · rename_i n hn
        rw [erase, if_pos (isPrefix_of_find hn).1] at h
        exact ih h
      · exact (Except.error.inj h).symm

theorem compareHints_fault {possible appendStr : Str} {e : Fault}
    (h : s.compareHints possible appendStr = .error e) : e = .notFound := by
  unfold compareHints at h
  split at h
  · cases h
  · simp only at h
    split at h
    · cases h
    · split at h
      · cases herase : eraseMainCmd (mainCmd s.cmd) _ _ with
        | error e' =>
            rw [herase] at h
            obtain rfl := Except.error.inj h
            exact eraseMainCmd_fault herase
        | ok possible' =>
            rw [herase] at h
            cases h
      · cases h

/-! ## Each key -/

/-- The cursor is inside `cmd` or at its end, and `curr` in the history or at its end. The
history may be empty. -/
structure Placed (s : CmdLine) : Prop where
  mIndex_le : s.mIndex ≤ s.cmd.length
  curr_le : ∃ p, s.curr = some p ∧ p ≤ s.history.length

/-- What a key other than Enter leaves as it is, and where it leaves the cursor and `curr`. -/
structure Kept (s s' : CmdLine) : Prop where
  placed : s'.Placed
  c_eq : s'.c = s.c
  history_eq : s'.history = s.history

theorem Sound.placed (h : s.Sound) : s.Placed := ⟨h.mIndex_le, h.curr_le⟩

theorem Sound.kept (h : s.Sound) {s' : CmdLine} (hkept : Kept s s') : s'.Sound :=
  ⟨hkept.placed.mIndex_le, hkept.placed.curr_le, hkept.history_eq ▸ h.history_ne⟩

theorem tabKey_kept (h : s.Placed) {s' : CmdLine} (hs' : s.tabKey = .ok s') : Kept s s' := by
  cases hhints : s.compareHints [] [] with
  | error e =>
      rw [tabKey, hhints] at hs'
      cases hs'
  | ok found =>
      obtain ⟨count, possible, append⟩ := found
      rw [tabKey_eq h.mIndex_le hhints] at hs'
      obtain rfl := Except.ok.inj hs'
      split
      · exact ⟨⟨le_rfl, h.curr_le⟩, rfl, rfl⟩
      · split
        · exact ⟨⟨le_rfl, h.curr_le⟩, rfl, rfl⟩
        · exact ⟨h, rfl, rfl⟩

theorem backspaceKey_kept (h : s.Placed) {s' : CmdLine} (hs' : s.backspaceKey = .ok s') :
    Kept s s' := by
  have hle := h.mIndex_le
  rcases Nat.eq_zero_or_pos s.mIndex with hzero | hpos
  · obtain rfl : s = s' := by simpa [backspaceKey, hzero, pure, Except.pure] using hs'
    exact ⟨h, rfl, rfl⟩
  · rw [backspaceKey_eq hle hpos] at hs'
    obtain rfl := Except.ok.inj hs'
    refine ⟨⟨?_, h.curr_le⟩, rfl, rfl⟩
    simp only [List.length_append, List.length_take, List.length_drop]
    omega

theorem insertKey_kept (h : s.Placed) {s' : CmdLine} (hs' : s.insertKey = .ok s') :
    Kept s s' := by
  have hle := h.mIndex_le
  rw [insertKey_eq hle] at hs'
  obtain rfl := Except.ok.inj hs'
  refine ⟨⟨?_, h.curr_le⟩, rfl, rfl⟩
  simp only [List.length_append, List.length_take, List.length_cons, List.length_drop]
  omega

/-- With nothing in the history there is no element for `*curr`. -/
theorem upKey_of_no_history (hnil : s.history = []) (hcurr : s.curr = some 0) :
    s.upKey = .error .iterator := by
  rw [upKey, hcurr]
  simp [onElement, bind, Except.bind, upCurr, pure, Except.pure, hnil]

theorem upKey_kept (h : s.Placed) {s' : CmdLine} (hs' : s.upKey = .ok s') : Kept s s' := by
  obtain ⟨p, hcurr, hp⟩ := h.curr_le
  by_cases hnil : s.history = []
  · obtain rfl : p = 0 := by simpa [hnil] using hp
    rw [upKey_of_no_history hnil hcurr] at hs'
    cases hs'
  · obtain ⟨line, -, hup⟩ := upKey_eq h.mIndex_le hcurr hp hnil
    rw [hup] at hs'
    obtain rfl := Except.ok.inj hs'
    exact ⟨⟨le_rfl, _, rfl, (s.above_lt hp hnil).le⟩, rfl, rfl⟩

/-- Down goes to the next entry, to the saved line, or nowhere. -/
theorem downKey_ok (h : s.Placed) : ∃ s', s.downKey = .ok s' ∧ Kept s s' := by
  obtain ⟨p, hcurr, hp⟩ := h.curr_le
  rcases Nat.lt_trichotomy (p + 1) s.history.length with hlt | heq | hgt
  · exact ⟨_, downKey_next h.mIndex_le hcurr hlt, ⟨le_rfl, _, rfl, hlt.le⟩, rfl, rfl⟩
  · refine ⟨_, downKey_last h.mIndex_le hcurr heq, ?_⟩
    split
    · exact ⟨⟨h.mIndex_le, _, rfl, heq.le⟩, rfl, rfl⟩
    · exact ⟨⟨le_rfl, _, rfl, heq.le⟩, rfl, rfl⟩
  · obtain rfl : p = s.history.length := by omega
    exact ⟨s, downKey_end hcurr, h, rfl, rfl⟩

theorem downKey_kept (h : s.Placed) {s' : CmdLine} (hs' : s.downKey = .ok s') : Kept s s' := by
  obtain ⟨s₁, hdown, hkept⟩ := downKey_ok h
  obtain rfl := Except.ok.inj (hdown.symm.trans hs')
  exact hkept

theorem branch_kept (h : s.Placed) {inp : Input} {x : Except Fault CmdLine}
    (hx : Branch s inp x) {s' : CmdLine} (hs' : x = .ok s') : Kept s s' := by
  have hle := h.mIndex_le
  cases hx with
  | tab => exact tabKey_kept h hs'
  | backspace => exact backspaceKey_kept h hs'
  | up => exact upKey_kept h hs'
  | down => exact downKey_kept h hs'
  | left _ hpos =>
      obtain rfl := Except.ok.inj hs'
      exact ⟨⟨by simp only [leftKey, write]; omega, h.curr_le⟩, rfl, rfl⟩
  | right _ hlt =>
      rw [rightKey_eq hlt] at hs'
      obtain rfl := Except.ok.inj hs'
      exact ⟨⟨hlt, h.curr_le⟩, rfl, rfl⟩
  | insert => exact insertKey_kept h hs'
  | escape | unknown =>
      obtain rfl := Except.ok.inj hs'
      exact ⟨⟨hle, h.curr_le⟩, rfl, rfl⟩

/-- Over a history with entries, only the search of `compareHints` can fail. -/
theorem branch_fault (h : s.Sound) {inp : Input} {x : Except Fault CmdLine}
    (hx : Branch s inp x) {e : Fault} (he : x = .error e) : e = .notFound := by
  have hle := h.mIndex_le
  cases hx with
  | tab =>
      cases hhints : s.compareHints [] [] with
      | error e' =>
          rw [tabKey, hhints] at he
          obtain rfl := Except.error.inj he
          exact compareHints_fault hhints
      | ok found =>
          rw [tabKey_eq hle hhints] at he
          cases he
  | backspace =>
      rcases Nat.eq_zero_or_pos s.mIndex with hzero | hpos
      · simp [backspaceKey, hzero, pure, Except.pure] at he
      · rw [backspaceKey_eq hle hpos] at he
        cases he
  | up =>
      obtain ⟨p, hcurr, hp⟩ := h.curr_le
      obtain ⟨line, -, hup⟩ := upKey_eq hle hcurr hp h.history_ne
      rw [hup] at he
      cases he
  | down =>
      obtain ⟨s₁, hdown, -⟩ := downKey_ok h.placed
      rw [hdown] at he
      cases he
  | right _ hlt =>
      rw [rightKey_eq hlt] at he
      cases he
  | insert =>
      rw [insertKey_eq hle] at he
      cases he
  | left | escape | unknown => cases he

theorem branch_safe (h : s.Sound) {inp : Input} {x : Except Fault CmdLine}
    (hx : Branch s inp x) : Safe x := by
  cases hres : x with
  | error e => exact branch_fault h hx hres
  | ok s' => exact h.kept (branch_kept h.placed hx hres)

theorem enterLine_sound (h : s.Sound) (cmd : Str) :
    ∃ s', s.enterLine cmd = .ok s' ∧ (∃ p, s'.curr = some p ∧ p ≤ s'.history.length) ∧
      s'.history ≠ [] := by
  by_cases hcmd : cmd = []
  · subst hcmd
    exact ⟨_, enterLine_blank, h.curr_le, h.history_ne⟩
  · refine ⟨_, enterLine_eq h.history_ne hcmd, ⟨_, rfl, le_rfl⟩, ?_⟩
    split <;> simp [h.history_ne]

theorem enterKey_safe (h : s.Sound) : Safe (Prod.fst <$> s.enterKey) := by
  obtain ⟨s', henter, hcurr, hne⟩ :=
    enterLine_sound (s := s.write [s.c]) ⟨h.mIndex_le, h.curr_le, h.history_ne⟩ s.line
  rw [enterKey_eq, henter]
  exact ⟨le_rfl, hcurr, hne⟩

/-! ## Calls and runs -/

theorem handle_safe (h : s.Sound) (inp : Input) : Safe (Prod.fst <$> s.handle inp) := by
  by_cases hc : s.c = Byte.newline
  · rw [handle, if_pos hc]
    exact enterKey_safe h
  · obtain ⟨x, hx, hhandle⟩ := s.handle_branch hc inp
    have hfst : Prod.fst <$> ((·, ([] : Str)) <$> x) = x := by
      cases x <;> rfl
    rw [hhandle, hfst]
    exact branch_safe h hx

theorem Sound.readKey (h : s.Sound) (key : KeyRead) : (s.readKey key).Sound := by
  cases key <;> exact ⟨h.mIndex_le, h.curr_le, h.history_ne⟩

theorem readLine_safe (h : s.Sound) (inp : Input) : Safe (Prod.fst <$> s.readLine inp) := by
  have hhandle := handle_safe (h.readKey inp.key) inp
  rw [readLine]
  cases hres : (s.readKey inp.key).handle inp with
  | error e => rwa [hres] at hhandle
  | ok res =>
      rw [hres] at hhandle
      exact ⟨hhandle.mIndex_le, hhandle.curr_le, hhandle.history_ne⟩

theorem run_safe (h : s.Sound) (inputs : List Input) : Safe (s.run inputs) := by
  induction inputs generalizing s with
  | nil => exact h
  | cons inp inputs ih =>
      have hcall := readLine_safe h inp
      rw [run]
      cases hres : s.readLine inp with
      | error e => rwa [hres] at hcall
      | ok res =>
          rw [hres] at hcall
          exact ih hcall

/-- The editor as `init` leaves it, over some history and with some hints. -/
def start (history hints : List Str) (prompt : Str) (c : UInt8) (lastKey : Int) : CmdLine :=
  { fresh prompt c lastKey with history, curr := some history.length, hints, out := prompt }

theorem init_eq_start (prompt : Str) (c : UInt8) (lastKey : Int) (file : Option Str) :
    (fresh prompt c lastKey).init file =
      start ((fresh prompt c lastKey).readHistory file).history [] prompt c lastKey := by
  cases file <;> rfl

theorem start_sound {history : List Str} (hne : history ≠ []) (hints : List Str) (prompt : Str)
    (c : UInt8) (lastKey : Int) : (start history hints prompt c lastKey).Sound :=
  ⟨le_rfl, ⟨_, rfl, le_rfl⟩, hne⟩

/-- Whatever keys come and whatever reads fail, no access of `readLine` to a string is out of
range, no iterator is used without an element, and the cursor and `curr` stay where they may
be. Only the search inside `compareHints` can fail. -/
theorem run_in_range {history : List Str} (hne : history ≠ []) (hints : List Str) (prompt : Str)
    (c : UInt8) (lastKey : Int) (inputs : List Input) :
    match (start history hints prompt c lastKey).run inputs with
    | .ok s => s.mIndex ≤ s.cmd.length ∧ ∃ p, s.curr = some p ∧ p ≤ s.history.length
    | .error e => e ≠ .outOfRange ∧ e ≠ .iterator := by
  have hsafe := run_safe (start_sound hne hints prompt c lastKey) inputs
  cases hrun : (start history hints prompt c lastKey).run inputs with
  | error e =>
      rw [hrun] at hsafe
      obtain rfl : e = .notFound := hsafe
      decide
  | ok s =>
      rw [hrun] at hsafe
      exact ⟨hsafe.mIndex_le, hsafe.curr_le⟩

/-- Two letters, a step up past them, back down, and Enter. -/
theorem run_in_range_of_keys :
    let inputs : List Input := [⟨.byte 97, (0, 0), []⟩, ⟨.byte 98, (0, 0), []⟩,
      ⟨.byte 27, (0, 0), [0x5B, 0x41]⟩, ⟨.byte 27, (0, 0), [0x5B, 0x42]⟩, ⟨.byte 10, (0, 0), []⟩]
    match (start [bytesOf "help"] [] (bytesOf "> ") 0 0).run inputs with
    | .ok s => s.mIndex ≤ s.cmd.length ∧ ∃ p, s.curr = some p ∧ p ≤ s.history.length
    | .error e => e ≠ .outOfRange ∧ e ≠ .iterator := by
  intro inputs
  exact @run_in_range [bytesOf "help"] (by decide) [] (bytesOf "> ") 0 0 inputs

end Restore.CmdLine
