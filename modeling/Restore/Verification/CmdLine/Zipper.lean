import Restore.Shared.LineEditor
import Restore.Verification.CmdLine.Bounds

/-! # `readLine` is a line editor

For the keys that edit a line, `cmd` and `m_index` are a line under a cursor. -/

namespace Restore.CmdLine

open StdString

variable {s : CmdLine} {inp : Input}

/-- What the key does to a line, if anything. -/
def Input.stroke? (inp : Input) : Option (Keystroke UInt8) :=
  match inp.key with
  | .byte b =>
      if b = Byte.newline then some .enter
      else if b = Byte.delete ∨ b = Byte.backspace then some .erase
      else if b = Byte.escape then
        if inp.b = (0x5B, 0x44) then some .left
        else if inp.b = (0x5B, 0x43) then some .right
        else none
      else if isPrint b then some (.type b)
      else none
  | .endOfFile | .error => none

/-- The key is neither Tab, nor Up, nor Down. -/
def Input.Plain (inp : Input) : Prop :=
  inp.key ∉ [KeyRead.endOfFile, KeyRead.error, KeyRead.byte Byte.tab] ∧
    (inp.key = .byte Byte.escape → inp.b ≠ (0x5B, 0x41) ∧ inp.b ≠ (0x5B, 0x42))

instance (inp : Input) : Decidable inp.Plain := inferInstanceAs (Decidable (_ ∧ (_ → _ ∧ _)))

theorem Input.Plain.byte (h : inp.Plain) :
    ∃ b, inp.key = .byte b ∧ b ≠ Byte.tab ∧
      (b = Byte.escape → inp.b ≠ (0x5B, 0x41) ∧ inp.b ≠ (0x5B, 0x42)) := by
  obtain ⟨hkey, hescape⟩ := h
  cases hbyte : inp.key with
  | byte b =>
      refine ⟨b, rfl, ?_, ?_⟩
      · rintro rfl
        exact hkey (by simp [hbyte])
      · rintro rfl
        exact hescape hbyte
  | endOfFile => exact absurd (by simp [hbyte]) hkey
  | error => exact absurd (by simp [hbyte]) hkey

def zipper (s : CmdLine) : Zipper UInt8 := .ofIndex s.cmd s.mIndex

/-- What Enter takes of a text. -/
def trimmed (text : Str) : Str :=
  (text.dropWhile (· ∈ [Byte.space])).rdropWhile (· ∈ whitespace)

theorem line_eq (s : CmdLine) : s.line = trimmed s.zipper.text := by
  rw [zipper, Zipper.text_ofIndex]
  rfl

/-- The line after the key. -/
def pressed (z : Zipper UInt8) (k : Option (Keystroke UInt8)) : Zipper UInt8 := k.elim z z.press

/-- What the key makes `readLine` return. -/
def returned (z : Zipper UInt8) (k : Option (Keystroke UInt8)) : Str :=
  ((k.bind z.enters).map trimmed).getD []

/-! ## Each key -/

theorem insertKey_zipper (h : s.Sound) :
    ∃ s', s.insertKey = .ok s' ∧ s'.zipper = s.zipper.press (.type s.c) :=
  ⟨_, insertKey_eq h.mIndex_le, Zipper.ofIndex_insert h.mIndex_le s.c⟩

theorem backspaceKey_zipper (h : s.Sound) :
    ∃ s', s.backspaceKey = .ok s' ∧ s'.zipper = s.zipper.press .erase := by
  have hle := h.mIndex_le
  rcases hindex : s.mIndex with _ | i
  · refine ⟨s, by simp [backspaceKey, hindex, pure, Except.pure], ?_⟩
    rw [zipper, hindex]
    exact (Zipper.press_ofIndex_zero s.cmd).1.symm
  · refine ⟨_, backspaceKey_eq hle (by omega), ?_⟩
    simp only [zipper, hindex, Nat.add_sub_cancel]
    exact Zipper.ofIndex_erase (by omega)

theorem leftKey_zipper (h : s.Sound) (hpos : 0 < s.mIndex) :
    s.leftKey.zipper = s.zipper.press .left := by
  have hle := h.mIndex_le
  obtain ⟨i, hi⟩ := Nat.exists_eq_succ_of_ne_zero hpos.ne'
  have hlt : i < s.cmd.length := by omega
  rw [zipper, zipper, leftKey, hi]
  exact Zipper.ofIndex_left hlt

theorem rightKey_zipper (hlt : s.mIndex < s.cmd.length) :
    ∃ s', s.rightKey = .ok s' ∧ s'.zipper = s.zipper.press .right :=
  ⟨_, rightKey_eq hlt, Zipper.ofIndex_right hlt⟩

theorem escapeKey_zipper (h : s.Sound) {b : UInt8 × UInt8}
    (hup : b ≠ (0x5B, 0x41)) (hdown : b ≠ (0x5B, 0x42)) :
    ∃ s', s.escapeKey b = .ok s' ∧ s'.zipper = pressed s.zipper
      (if b = (0x5B, 0x44) then some .left else if b = (0x5B, 0x43) then some .right
        else none) := by
  have hle := h.mIndex_le
  rw [escapeKey, if_neg fun hand => hup hand.1, if_neg fun hand => hdown hand.1]
  by_cases hleft : b = (0x5B, 0x44)
  · subst hleft
    by_cases hpos : 0 < s.mIndex
    · exact ⟨_, if_pos ⟨rfl, hpos⟩, leftKey_zipper h hpos⟩
    · refine ⟨s, ?_, ?_⟩
      · rw [if_neg fun hand => hpos hand.2, if_neg fun hand => absurd hand.1 (by decide)]
        rfl
      · have hzero : s.mIndex = 0 := by omega
        rw [zipper, hzero]
        exact (Zipper.press_ofIndex_zero s.cmd).2.symm
  · rw [if_neg fun hand => hleft hand.1, if_neg hleft]
    by_cases hright : b = (0x5B, 0x43)
    · subst hright
      by_cases hlt : s.mIndex < s.cmd.length
      · rw [if_pos ⟨rfl, hlt⟩]
        exact rightKey_zipper hlt
      · rw [if_neg fun hand => hlt hand.2]
        exact ⟨s, rfl, (Zipper.press_ofIndex_end (by omega)).symm⟩
    · rw [if_neg fun hand => hright hand.1, if_neg hright]
      exact ⟨s, rfl, rfl⟩

theorem enterKey_zipper (h : s.Sound) :
    ∃ s', s.enterKey = .ok (s', trimmed s.zipper.text) ∧ s'.zipper = Zipper.empty := by
  obtain ⟨s', henter, -⟩ :=
    enterLine_sound (s := s.write [s.c]) ⟨h.mIndex_le, h.curr_le, h.history_ne⟩ s.line
  rw [enterKey_eq, henter, ← line_eq]
  exact ⟨_, rfl, Zipper.ofIndex_nil 0⟩

/-! ## Calls -/

/-- A call of `readLine` is a keystroke, and returns what Enter takes of the line. -/
theorem readLine_zipper (h : s.Sound) (hplain : inp.Plain) :
    ∃ s', s.readLine inp =
        .ok (s', returned s.zipper inp.stroke?) ∧
      s'.Sound ∧ s'.zipper = pressed s.zipper inp.stroke? := by
  obtain ⟨b, hkey, htab, hescape⟩ := hplain.byte
  have hread : (s.readKey inp.key).Sound := h.readKey inp.key
  have hzipper : (s.readKey inp.key).zipper = s.zipper := by rw [hkey]; rfl
  have hc : (s.readKey inp.key).c = b := by rw [hkey]; rfl
  suffices hhandle : ∃ s', (s.readKey inp.key).handle inp =
        .ok (s', returned s.zipper inp.stroke?) ∧
      s'.zipper = pressed s.zipper inp.stroke? by
    obtain ⟨s', hcall, hs'⟩ := hhandle
    have hline : s.readLine inp =
        .ok ({ s' with lastKey := charToInt s'.c }, returned s.zipper inp.stroke?) := by
      rw [readLine, hcall]
      rfl
    have hsafe := readLine_safe h inp
    rw [hline] at hsafe
    exact ⟨_, hline, hsafe, hs'⟩
  rw [← hzipper, Input.stroke?, hkey]
  rw [hkey] at hread hc
  generalize s.readKey (.byte b) = t at hread hc ⊢
  subst hc
  by_cases henter : t.c = Byte.newline
  · obtain ⟨s', hcall, hs'⟩ := enterKey_zipper hread
    simp only [handle, henter, if_true]
    exact ⟨s', hcall, hs'⟩
  · rw [handle, if_neg henter, if_neg htab]
    simp only [henter, if_false]
    by_cases herase : t.c = Byte.delete ∨ t.c = Byte.backspace
    · obtain ⟨s', hcall, hs'⟩ := backspaceKey_zipper hread
      simp only [herase, if_true, hcall]
      exact ⟨s', rfl, hs'⟩
    · simp only [herase, if_false]
      by_cases hesc : t.c = Byte.escape
      · obtain ⟨hup, hdown⟩ := hescape hesc
        obtain ⟨s', hcall, hs'⟩ := escapeKey_zipper hread hup hdown
        simp only [hesc, if_true, hcall]
        refine ⟨s', ?_, hs'⟩
        split_ifs <;> rfl
      · simp only [hesc, if_false]
        by_cases hprint : isPrint t.c
        · obtain ⟨s', hcall, hs'⟩ := insertKey_zipper hread
          simp only [hprint, if_true, hcall]
          exact ⟨s', rfl, hs'⟩
        · simp only [hprint]
          exact ⟨_, rfl, rfl⟩

end Restore.CmdLine
