import Restore.Verification.CmdLine.Enter
import Restore.Verification.CmdLine.Completion

/-! # What `readLine` does when `read` fails

The results of both reads are stored and never tested. A failed read of the key leaves the byte
of an earlier key in `c`, and a failed read after an escape character leaves in `b` what was on
the stack; the branches run on these. -/

namespace Restore.CmdLine

open StdString

variable {s s' : CmdLine}

/-- A read of this call returns 0 or -1: the read of the key, or the one after ESC. -/
def Input.Fails (inp : Input) : Prop :=
  inp.key = .endOfFile ∨ inp.key = .error ∨ inp.key = .byte Byte.escape ∧ inp.escape = []

/-- The line, the cursor and the history are the same. -/
structure SameLine (s s' : CmdLine) : Prop where
  cmd : s'.cmd = s.cmd
  cmdBuffer : s'.cmdBuffer = s.cmdBuffer
  mIndex : s'.mIndex = s.mIndex
  history : s'.history = s.history
  curr : s'.curr = s.curr

/-- Each of the calls returns the empty string and leaves the line alone. -/
def Untouched (s : CmdLine) : List Input → Prop
  | [] => True
  | inp :: inputs =>
      ∃ s', s.readLine inp = .ok (s', []) ∧ SameLine s s' ∧ s'.Untouched inputs

/-! ## Keys without effect -/

/-- Tab neither completes a single match, nor extends the line or moves the cursor on several. -/
def TabQuiet (s : CmdLine) : Prop :=
  ∃ count possible append, s.compareHints [] [] = .ok (count, possible, append) ∧ count ≠ 1 ∧
    (count > 1 → s.lastKey = charToInt s.c → append = [] ∧ s.mIndex = s.cmd.length)

/-- The bytes after ESC are no arrow, or one that leads nowhere from here. -/
def EscapeQuiet (s : CmdLine) (b : UInt8 × UInt8) : Prop :=
  if b = (0x5B, 0x41) ∧ s.history.length > 0 then
    s.curr = some 0 ∧ s.history.head? = some s.cmd ∧ s.mIndex = s.cmd.length
  else if b = (0x5B, 0x42) ∧ s.history.length > 0 then s.curr = some s.history.length
  else if b = (0x5B, 0x44) then s.mIndex = 0
  else if b = (0x5B, 0x43) then s.mIndex = s.cmd.length
  else True

/-- The byte in `c` selects a branch that has nothing to do. -/
def Quiet (s : CmdLine) (b : UInt8 × UInt8) : Prop :=
  if s.c = Byte.newline then True
  else if s.c = Byte.tab then s.TabQuiet
  else if s.c = Byte.delete ∨ s.c = Byte.backspace then s.mIndex = 0
  else if s.c = Byte.escape then s.EscapeQuiet b
  else isPrint s.c = false

/-- Each of the calls finds such a byte in `c`. -/
def AllQuiet (s : CmdLine) : List Input → Prop
  | [] => True
  | inp :: inputs =>
      (s.readKey inp.key).Quiet inp.b ∧
        ∀ s' res, s.readLine inp = .ok (s', res) → s'.AllQuiet inputs

/-- A call that returns and leaves the line alone. -/
def Ignores (s : CmdLine) (x : Except Fault CmdLine) : Prop := ∃ s', x = .ok s' ∧ SameLine s s'

theorem ignores_self (s : CmdLine) : Ignores s (.ok s) := ⟨s, rfl, rfl, rfl, rfl, rfl, rfl⟩

theorem ignores_ok_iff : Ignores s (.ok s') ↔ SameLine s s' := by
  refine ⟨?_, fun h => ⟨s', rfl, h⟩⟩
  rintro ⟨s₁, hok, hsame⟩
  obtain rfl := Except.ok.inj hok
  exact hsame

theorem tabKey_ignores_iff (h : s.Placed) : Ignores s s.tabKey ↔ s.TabQuiet := by
  cases hhints : s.compareHints [] [] with
  | error e =>
      rw [tabKey, hhints]
      refine iff_of_false ?_ ?_
      · rintro ⟨_, hok, -⟩
        cases hok
      · rintro ⟨_, _, _, hok, -⟩
        rw [hhints] at hok
        cases hok
  | ok found =>
      obtain ⟨count, possible, append⟩ := found
      have hquiet : s.TabQuiet ↔ count ≠ 1 ∧
          (count > 1 → s.lastKey = charToInt s.c → append = [] ∧ s.mIndex = s.cmd.length) := by
        refine ⟨?_, fun hnone => ⟨count, possible, append, hhints, hnone⟩⟩
        rintro ⟨_, _, _, hok, hnone⟩
        cases hhints.symm.trans hok
        exact hnone
      rw [tabKey_eq h.mIndex_le hhints, ignores_ok_iff, hquiet]
      split
      · rename_i hmany
        constructor
        · intro hsame
          have hcmd : s.cmd ++ append = s.cmd := hsame.cmd
          have hindex : (s.cmd ++ append).length = s.mIndex := hsame.mIndex
          rw [hcmd] at hindex
          exact ⟨by omega, fun _ _ => ⟨by simpa using hcmd, hindex.symm⟩⟩
        · rintro ⟨-, hnone⟩
          obtain ⟨rfl, hindex⟩ := hnone hmany.1 hmany.2
          exact ⟨List.append_nil _, rfl, by rw [List.append_nil, hindex], rfl, rfl⟩
      · rename_i hmany
        split
        · -- the only match is longer than `cmd`
          rename_i hone
          refine iff_of_false (fun hsame => ?_) fun hnone => hnone.1 hone
          have hcmd : possible = s.cmd := hsame.cmd
          by_cases hnil : s.cmd = []
          · rw [compareHints_nil hnil] at hhints
            have hcount := congrArg Prod.fst (Except.ok.inj hhints)
            exact absurd (hcount.trans hone) (by decide)
          · obtain ⟨hint, hmatched⟩ := List.length_eq_one_iff.mp
              ((fst_of_compareHints hnil hhints).symm.trans hone)
            rw [compareHints_few hnil (by simp [hmatched]), hmatched] at hhints
            have htext : hint ++ [Byte.space] = possible :=
              congrArg (·.2.1) (Except.ok.inj hhints)
            have hlen := (mem_matched (hmatched ▸ List.mem_cons_self : hint ∈ s.matched)).2.2
            rw [← hcmd, ← htext, List.length_append] at hlen
            omega
        · rename_i hone
          exact iff_of_true (ignores_ok_iff.mp (ignores_self s))
            ⟨hone, fun hgt hlast => absurd ⟨hgt, hlast⟩ hmany⟩

theorem backspaceKey_ignores_iff (h : s.Placed) : Ignores s s.backspaceKey ↔ s.mIndex = 0 := by
  rcases Nat.eq_zero_or_pos s.mIndex with hzero | hpos
  · have hnone : s.backspaceKey = .ok s := by
      simp [backspaceKey, hzero, pure, Except.pure]
    exact iff_of_true (hnone ▸ ignores_self s) hzero
  · rw [backspaceKey_eq h.mIndex_le hpos, ignores_ok_iff]
    refine iff_of_false (fun hsame => ?_) hpos.ne'
    have hindex : s.mIndex - 1 = s.mIndex := hsame.mIndex
    omega

/-- A printable character always gets into the line. -/
theorem not_ignores_insertKey (h : s.Placed) : ¬ Ignores s s.insertKey := by
  rw [insertKey_eq h.mIndex_le, ignores_ok_iff]
  intro hsame
  have hindex : s.mIndex + 1 = s.mIndex := hsame.mIndex
  omega

theorem upKey_ignores_iff (h : s.Placed) (hne : s.history ≠ []) :
    Ignores s s.upKey ↔
      s.curr = some 0 ∧ s.history.head? = some s.cmd ∧ s.mIndex = s.cmd.length := by
  obtain ⟨p, hcurr, hp⟩ := h.curr_le
  obtain ⟨line, hline, hup⟩ := upKey_eq h.mIndex_le hcurr hp hne
  have habove : s.above p = p ↔ p = 0 := by
    unfold above
    split <;> [skip; split] <;> omega
  rw [hup, ignores_ok_iff, hcurr, Option.some.injEq, List.head?_eq_getElem?]
  constructor
  · intro hsame
    have hstay : some (s.above p) = some p := hsame.curr.trans hcurr
    obtain rfl := habove.mp (Option.some.inj hstay)
    have hcmd : line = s.cmd := hsame.cmd
    have hindex : line.length = s.mIndex := hsame.mIndex
    rw [show s.above 0 = 0 from rfl, hcmd] at hline
    exact ⟨rfl, hline, by rw [← hindex, hcmd]⟩
  · rintro ⟨rfl, hfirst, hindex⟩
    obtain rfl : line = s.cmd := Option.some.inj (hline.symm.trans hfirst)
    exact ⟨rfl, rfl, hindex.symm, rfl, hcurr.symm⟩

theorem downKey_ignores_iff (h : s.Placed) :
    Ignores s s.downKey ↔ s.curr = some s.history.length := by
  obtain ⟨p, hcurr, hp⟩ := h.curr_le
  have hmoves {x : CmdLine} (hx : x.curr = some (p + 1)) : ¬ SameLine s x := fun hsame => by
    have hstay := Option.some.inj (hx.symm.trans (hsame.curr.trans hcurr))
    omega
  have hend (hlt : p + 1 ≤ s.history.length) : s.curr ≠ some s.history.length := by
    rw [hcurr]
    exact fun hp => absurd (Option.some.inj hp) (by omega)
  rcases Nat.lt_trichotomy (p + 1) s.history.length with hlt | heq | hgt
  · rw [downKey_next h.mIndex_le hcurr hlt, ignores_ok_iff]
    exact iff_of_false (hmoves rfl) (hend hlt.le)
  · rw [downKey_last h.mIndex_le hcurr heq, ignores_ok_iff]
    refine iff_of_false (hmoves ?_) (hend heq.le)
    split <;> rfl
  · obtain rfl : p = s.history.length := by omega
    rw [downKey_end hcurr]
    exact iff_of_true (ignores_self s) hcurr

theorem escapeKey_ignores_iff (h : s.Placed) (b : UInt8 × UInt8) :
    Ignores s (s.escapeKey b) ↔ s.EscapeQuiet b := by
  have hle := h.mIndex_le
  unfold escapeKey EscapeQuiet
  split
  · rename_i hup
    exact upKey_ignores_iff h (List.length_pos_iff.mp hup.2)
  · split
    · exact downKey_ignores_iff h
    · by_cases hleft : b = (0x5B, 0x44)
      · subst hleft
        rw [if_pos rfl]
        rcases Nat.eq_zero_or_pos s.mIndex with hzero | hpos
        · rw [if_neg (fun hpos => absurd hpos.2 (by omega)), if_neg (fun hb => by simp at hb)]
          exact iff_of_true (ignores_self s) hzero
        · rw [if_pos ⟨rfl, hpos⟩]
          refine iff_of_false (fun hsame => ?_) hpos.ne'
          have hindex : s.mIndex - 1 = s.mIndex := (ignores_ok_iff.mp hsame).mIndex
          omega
      · rw [if_neg (fun hb => hleft hb.1), if_neg hleft]
        by_cases hright : b = (0x5B, 0x43)
        · subst hright
          rw [if_pos rfl]
          rcases Nat.lt_or_ge s.mIndex s.cmd.length with hlt | hge
          · rw [if_pos ⟨rfl, hlt⟩, rightKey_eq hlt, ignores_ok_iff]
            refine iff_of_false (fun hsame => ?_) hlt.ne
            have hindex : s.mIndex + 1 = s.mIndex := hsame.mIndex
            omega
          · rw [if_neg (fun hlt => absurd hlt.2 (by omega))]
            exact iff_of_true (ignores_self s) (by omega)
        · rw [if_neg (fun hb => hright hb.1), if_neg hright]
          exact iff_of_true (ignores_self s) trivial

/-! ## Calls -/

/-- The cursor and `curr` are where they may be, and Enter has left nothing on the line. -/
structure Rested (s : CmdLine) : Prop where
  placed : s.Placed
  blank : s.c = Byte.newline → s.cmd = [] ∧ s.cmdBuffer = []

theorem Placed.readKey (h : s.Placed) (key : KeyRead) : (s.readKey key).Placed := by
  cases key <;> exact ⟨h.mIndex_le, h.curr_le⟩

/-- Enter that returns leaves an empty line, whatever is in the history. -/
theorem enterKey_placed (h : s.Placed) {res : Str} (hs' : s.enterKey = .ok (s', res)) :
    s'.Placed ∧ s'.cmd = [] ∧ s'.cmdBuffer = [] := by
  by_cases hline : s.line = []
  · rw [enterKey_eq, hline, enterLine_blank] at hs'
    obtain ⟨rfl, -⟩ := Prod.mk.inj (Except.ok.inj hs')
    exact ⟨⟨Nat.zero_le _, h.curr_le⟩, rfl, rfl⟩
  · by_cases hnil : s.history = []
    · have henter : (s.write [s.c]).enterLine s.line = .error .iterator := by
        rw [enterLine, if_neg hline, show (s.write [s.c]).history = [] from hnil]
        rfl
      rw [enterKey_eq, henter] at hs'
      cases hs'
    · obtain ⟨s₁, hcall, hentered⟩ := enterKey_entered hnil hline
      obtain ⟨rfl, -⟩ := Prod.mk.inj (Except.ok.inj (hcall.symm.trans hs'))
      refine ⟨⟨?_, _, hentered.curr_eq, le_rfl⟩, hentered.cmd_eq, hentered.cmdBuffer_eq⟩
      rw [hentered.mIndex_eq]
      exact Nat.zero_le _

theorem readLine_rested (h : s.Rested) {inp : Input} {res : Str}
    (hs' : s.readLine inp = .ok (s', res)) : s'.Rested := by
  have hplaced := h.placed.readKey inp.key
  obtain ⟨s₁, hhandle, rfl⟩ := readLine_ok hs'
  by_cases hkey : (s.readKey inp.key).c = Byte.newline
  · rw [handle, if_pos hkey] at hhandle
    obtain ⟨hs₁, hblank⟩ := enterKey_placed hplaced hhandle
    exact ⟨⟨hs₁.mIndex_le, hs₁.curr_le⟩, fun _ => hblank⟩
  · obtain ⟨x, hx, heq⟩ := (s.readKey inp.key).handle_branch hkey inp
    rw [heq] at hhandle
    cases hres : x with
    | error e =>
        rw [hres] at hhandle
        cases hhandle
    | ok s₂ =>
        rw [hres] at hhandle
        obtain ⟨rfl, -⟩ := Prod.mk.inj (Except.ok.inj hhandle)
        have hkept := branch_kept hplaced hx hres
        refine ⟨⟨hkept.placed.mIndex_le, hkept.placed.curr_le⟩, fun hc => ?_⟩
        exact absurd (hkept.c_eq.symm.trans hc) hkey

/-- A call on the byte in `c` leaves the line alone exactly if that byte has no effect. -/
theorem handle_ignores_iff (h : s.Placed) (hblank : s.c = Byte.newline → s.cmd = [] ∧
    s.cmdBuffer = []) (inp : Input) :
    (∃ s', s.handle inp = .ok (s', []) ∧ SameLine s s') ↔ s.Quiet inp.b := by
  have hle := h.mIndex_le
  have hmap (x : Except Fault CmdLine) :
      (∃ s', ((·, ([] : Str)) <$> x) = .ok (s', []) ∧ SameLine s s') ↔ Ignores s x := by
    cases x with
    | error e =>
        refine iff_of_false ?_ ?_ <;>
        · rintro ⟨_, hok, -⟩
          cases hok
    | ok s₁ =>
        rw [ignores_ok_iff]
        refine ⟨?_, fun hsame => ⟨s₁, rfl, hsame⟩⟩
        rintro ⟨s₂, hok, hsame⟩
        obtain ⟨rfl, -⟩ := Prod.mk.inj (Except.ok.inj hok)
        exact hsame
  unfold handle Quiet
  by_cases hnewline : s.c = Byte.newline
  · obtain ⟨hcmd, hbuf⟩ := hblank hnewline
    have hline : s.line = [] := by
      rw [line, hcmd]
      rfl
    rw [if_pos hnewline, if_pos hnewline, enterKey_eq, hline, enterLine_blank]
    refine iff_of_true ⟨_, rfl, hcmd.symm, hbuf.symm, ?_, rfl, rfl⟩ trivial
    show 0 = s.mIndex
    rw [hcmd, List.length_nil] at hle
    omega
  · rw [if_neg hnewline, if_neg hnewline, hmap]
    split
    · exact tabKey_ignores_iff h
    · split
      · exact backspaceKey_ignores_iff h
      · split
        · exact escapeKey_ignores_iff h inp.b
        · split
          · rename_i hprint
            exact iff_of_false (not_ignores_insertKey h) (by simp [hprint])
          · rename_i hprint
            exact iff_of_true ⟨_, rfl, rfl, rfl, rfl, rfl, rfl⟩ (by simpa using hprint)

/-- A failed read leaves no newline in `c` but that of an Enter before it. -/
theorem Rested.readKey (h : s.Rested) {inp : Input} (hfails : inp.Fails) :
    (s.readKey inp.key).Rested := by
  refine ⟨h.placed.readKey inp.key, ?_⟩
  rcases hfails with hkey | hkey | ⟨hkey, -⟩ <;> rw [hkey]
  · exact h.blank
  · exact h.blank
  · exact fun hc => absurd hc (by decide : Byte.escape ≠ Byte.newline)

theorem readLine_ignores_iff (h : s.Rested) {inp : Input} (hfails : inp.Fails) :
    (∃ s', s.readLine inp = .ok (s', []) ∧ SameLine s s') ↔
      (s.readKey inp.key).Quiet inp.b := by
  have hread := h.readKey hfails
  have hsame {s₁ : CmdLine} : SameLine (s.readKey inp.key) s₁ ↔
      SameLine s { s₁ with lastKey := charToInt s₁.c } := by
    cases inp.key <;> exact ⟨fun h => ⟨h.1, h.2, h.3, h.4, h.5⟩, fun h => ⟨h.1, h.2, h.3, h.4, h.5⟩⟩
  rw [← handle_ignores_iff hread.placed hread.blank inp]
  constructor
  · rintro ⟨s', hcall, hline⟩
    obtain ⟨s₁, hhandle, rfl⟩ := readLine_ok hcall
    exact ⟨s₁, hhandle, hsame.mpr hline⟩
  · rintro ⟨s₁, hhandle, hline⟩
    refine ⟨_, ?_, hsame.mp hline⟩
    rw [readLine, hhandle]
    rfl

/-! ## Runs -/

theorem untouched_iff (h : s.Rested) {fails : List Input} (hfails : ∀ inp ∈ fails, inp.Fails) :
    s.Untouched fails ↔ s.AllQuiet fails := by
  induction fails generalizing s with
  | nil => exact Iff.rfl
  | cons inp fails ih =>
      rw [List.forall_mem_cons] at hfails
      have hcall := readLine_ignores_iff h hfails.1
      constructor
      · rintro ⟨s', hok, hsame, hrest⟩
        refine ⟨hcall.mp ⟨s', hok, hsame⟩, fun s₁ res hok₁ => ?_⟩
        obtain ⟨rfl, -⟩ := Prod.mk.inj (Except.ok.inj (hok.symm.trans hok₁))
        exact (ih (readLine_rested h hok) hfails.2).mp hrest
      · rintro ⟨hquiet, hrest⟩
        obtain ⟨s', hok, hsame⟩ := hcall.mpr hquiet
        exact ⟨s', hok, hsame, (ih (readLine_rested h hok) hfails.2).mpr (hrest s' [] hok)⟩

/-- In every state that keys can lead to, any number of calls with failed reads returns empty
strings and leaves the line alone exactly if each of them finds a byte without effect in `c`. -/
theorem failed_reads_ignored_iff (file : Option Str) (hints : List Str) (prompt : Str) (c : UInt8)
    (lastKey : Int) (inputs fails : List Input) {s : CmdLine}
    (hrun : (opened file hints prompt c lastKey).run inputs = .ok s)
    (hfails : ∀ inp ∈ fails, inp.Fails) : s.Untouched fails ↔ s.AllQuiet fails := by
  obtain ⟨hints', hopened⟩ := opened_eq file hints prompt c lastKey
  rw [hopened] at hrun
  have hstart : (start (loaded file) hints' prompt c lastKey).Rested :=
    ⟨⟨le_rfl, _, rfl, le_rfl⟩, fun _ => ⟨rfl, rfl⟩⟩
  exact untouched_iff (run_invariant (fun h hcall => readLine_rested h hcall) hstart hrun) hfails

/-- A call that finds the end of the input. -/
def atEnd : Input := ⟨.endOfFile, (0, 0), []⟩

/-- The letter "a", and the end of the input: the letter is there twice. -/
theorem failed_read_repeats_key :
    ∃ s s' : CmdLine, (opened none [] (bytesOf "> ") 0 0).run [press 97] = .ok s ∧
      s.readLine atEnd = .ok (s', []) ∧ s.cmd = bytesOf "a" ∧ s'.cmd = bytesOf "aa" :=
  ⟨_, _, rfl, rfl, rfl, rfl⟩

/-- After a control character the end of the input does no harm, however often it is found. -/
theorem failed_reads_ignored_of_control :
    ∃ s : CmdLine, (opened none [] (bytesOf "> ") 0 0).run [press 97, press 1] = .ok s ∧
      s.cmd = bytesOf "a" ∧ s.AllQuiet [atEnd, atEnd] ∧ s.Untouched [atEnd, atEnd] := by
  have hfails : ∀ inp ∈ [atEnd, atEnd], inp.Fails := by
    intro inp hinp
    obtain rfl : inp = atEnd := by simpa using hinp
    exact .inl rfl
  obtain ⟨s, hrun, hcmd, hquiet⟩ : ∃ s : CmdLine,
      (opened none [] (bytesOf "> ") 0 0).run [press 97, press 1] = .ok s ∧
        s.cmd = bytesOf "a" ∧ s.AllQuiet [atEnd, atEnd] := by
    refine ⟨_, rfl, rfl, rfl, fun s' res hcall => ?_⟩
    obtain ⟨rfl, -⟩ := Prod.mk.inj (Except.ok.inj hcall)
    exact ⟨rfl, fun _ _ _ => trivial⟩
  exact ⟨s, hrun, hcmd, hquiet,
    (failed_reads_ignored_iff none [] (bytesOf "> ") 0 0 _ _ hrun hfails).mpr hquiet⟩

end Restore.CmdLine
