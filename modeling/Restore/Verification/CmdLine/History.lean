import Restore.Verification.CmdLine.Legible

/-! # Writing the history back and reading it again

`readHistory` takes an entry for a line only if its buffer holds it: a longer one comes back in
pieces, each of them an entry. -/

namespace Restore.CmdLine

open StdString Stdio

/-- A command as Enter puts it into the history. -/
structure Command (entry : Str) : Prop where
  printable : ascii.Printable entry
  ne_nil : entry ≠ []
  trimmed : cmdRTrim entry = entry

/-- The entries that `readHistory` makes of one line of the file. -/
def entriesOf (line : Str) : List Str := (pieces 1023 line).map cmdRTrim

/-- What `writeBackHistory` has to keep. -/
def newest (s : CmdLine) : List Str := s.history.drop (s.history.length - 502)

theorem cmdRTrim_eq (s : Str) : cmdRTrim s = s.rdropWhile (· ∈ whitespace) := by
  rw [cmdRTrim, eraseTail_eq]
  rfl

/-- 502 rounds: `i` is compared before it is counted up, and after the push. -/
theorem upTo500_eq {α : Type*} (l : List α) (i : ℕ) (hi : i ≤ 501) :
    upTo500 i l = l.take (502 - i) := by
  induction l generalizing i with
  | nil => simp [upTo500]
  | cons x l ih =>
      rw [upTo500, show 502 - i = 501 - i + 1 by omega, List.take_succ_cons]
      split
      · rw [show 501 - i = 0 by omega, List.take_zero]
      · rw [ih (i + 1) (by omega), show 502 - (i + 1) = 501 - i by omega]

/-! ## Reading lines -/

theorem readLines_eq {lines : List Str} (hlines : ∀ line ∈ lines, ascii.Printable line) :
    readLines (lines.flatMap (· ++ [Byte.newline])) = lines.flatMap entriesOf := by
  have hnewline : ∀ line ∈ lines, Stdio.newline ∉ line := fun line hmem h =>
    absurd (hlines line hmem _ h) (by decide)
  rw [readLines, fgetsLoop_lines (by omega) hnewline le_rfl, List.filterMap_flatMap]
  refine List.flatMap_congr fun line hmem => ?_
  rw [entriesOf, ← List.filterMap_eq_map]
  refine List.filterMap_congr fun piece hpiece => ?_
  obtain ⟨hne, hbytes⟩ := mem_of_mem_pieces hpiece
  have hnul : (0 : UInt8) ∉ piece := fun h =>
    (hbytes 0 h).elim (not_mem_of_printable (hlines line hmem)) (by decide)
  simp [cStr_eq_self hnul, List.length_pos_iff.mpr hne]

theorem cmdRTrim_newline (line : Str) : cmdRTrim (line ++ [Byte.newline]) = cmdRTrim line := by
  rw [cmdRTrim_eq, cmdRTrim_eq, List.rdropWhile_concat_pos _ _ _ (by decide)]

theorem entriesOf_of_lt {line : Str} (htrim : cmdRTrim line = line) (h : line.length < 1023) :
    entriesOf line = [line] := by
  rw [entriesOf, pieces_of_lt h, List.map_singleton]
  exact congrArg (fun entry => [entry]) ((cmdRTrim_newline line).trans htrim)

/-- The last entry made of a line that does not fit is not the line. -/
theorem entriesOf_last (line : Str) :
    ∃ front last, entriesOf line = front ++ [last] ∧ last.length < 1023 := by
  obtain ⟨front, last, hpieces, hlast⟩ := @pieces_last 1023 (by omega) line
  refine ⟨front.map cmdRTrim, cmdRTrim last, ?_, ?_⟩
  · rw [entriesOf, hpieces, List.map_append, List.map_singleton]
    exact congrArg (fun entry => _ ++ [entry]) (cmdRTrim_newline last)
  · rw [cmdRTrim_eq]
    exact (List.rdropWhile_prefix _ _).length_le.trans_lt hlast

/-- Read back with the newest line first and turned around, `n` entries are enough for all that
were written exactly if none was split. -/
theorem take_entriesOf_iff {entries : List Str} (hentries : ∀ entry ∈ entries, Command entry)
    {n : ℕ} (hn : entries.length ≤ n) :
    (entries.flatMap fun entry => (entriesOf entry).reverse).take n = entries ↔
      ∀ entry ∈ entries, entry.length < 1023 := by
  induction entries generalizing n with
  | nil => simp
  | cons entry entries ih =>
      rw [List.forall_mem_cons] at hentries
      obtain ⟨n, rfl⟩ : ∃ m, n = m + 1 := ⟨n - 1, by simp at hn; omega⟩
      rw [List.flatMap_cons, List.forall_mem_cons]
      by_cases hshort : entry.length < 1023
      · rw [entriesOf_of_lt hentries.1.trimmed hshort, List.reverse_singleton,
          List.singleton_append, List.take_succ_cons, List.cons_inj_right,
          ih hentries.2 (by simpa using hn), and_iff_right hshort]
      · obtain ⟨front, last, hlast, hlen⟩ := entriesOf_last entry
        refine iff_of_false (fun h => hshort ?_) fun h => hshort h.1
        rw [hlast, List.reverse_append, List.reverse_singleton, List.singleton_append,
          List.cons_append, List.take_succ_cons] at h
        rwa [← (List.cons.inj h).1]

/-! ## The round trip -/

theorem writeBackHistory_eq (s : CmdLine) (hprint : ∀ entry ∈ s.history, ascii.Printable entry) :
    s.writeBackHistory = s.newest.reverse.flatMap (· ++ [Byte.newline]) := by
  rw [writeBackHistory, upTo500_eq _ 0 (by omega), List.take_reverse]
  refine List.flatMap_congr fun entry hmem => ?_
  have hentry : entry ∈ s.history := List.mem_of_mem_drop (List.mem_reverse.mp hmem)
  rw [cStr_eq_self (not_mem_of_printable (hprint entry hentry))]

theorem reload_iff (s : CmdLine) (hcommands : ∀ entry ∈ s.history, Command entry) {t : CmdLine}
    (ht : t.history = []) :
    (t.readHistory (some s.writeBackHistory)).history = s.newest ↔
      ∀ entry ∈ s.newest, entry.length < 1023 := by
  have hnewest : ∀ entry ∈ s.newest, Command entry := fun entry hmem =>
    hcommands entry (List.mem_of_mem_drop hmem)
  have hlen : s.newest.length ≤ 502 := by
    rw [newest, List.length_drop]
    omega
  have hlines : ∀ line ∈ s.newest.reverse, ascii.Printable line := fun line hmem =>
    (hnewest line (List.mem_reverse.mp hmem)).printable
  rw [← take_entriesOf_iff hnewest hlen, readHistory,
    s.writeBackHistory_eq fun entry hmem => (hcommands entry hmem).printable]
  simp only
  rw [readLines_eq hlines, upTo500_eq _ 0 (by omega), List.reverse_flatMap, List.reverse_reverse,
    ht, List.nil_append]
  rfl

/-! ## Histories that keys produce -/

/-- An editor with nothing but commands in its history. -/
structure Typed (s : CmdLine) : Prop where
  sound : s.Sound
  legible : s.Legible
  commands : ∀ entry ∈ s.history, Command entry

theorem line_command {s : CmdLine} (h : s.Legible) (hne : s.line ≠ []) : Command s.line := by
  refine ⟨printable_of_subset h.cmd s.line_subset, hne, ?_⟩
  rw [cmdRTrim_eq, line, List.rdropWhile_idempotent]

theorem readLine_typed {s s' : CmdLine} {inp : Input} {res : Str} (h : s.Typed)
    (hs' : s.readLine inp = .ok (s', res)) : s'.Typed := by
  obtain ⟨s₁, hhandle, rfl⟩ := readLine_ok hs'
  have hsound : s₁.Sound := by
    have hsafe := handle_safe (h.sound.readKey inp.key) inp
    rwa [hhandle] at hsafe
  obtain ⟨hlegible, hhistory⟩ :=
    handle_legible (h.legible.readKey inp.key) (h.sound.readKey inp.key) hhandle
  have hread : (s.readKey inp.key).history = s.history ∧ (s.readKey inp.key).line = s.line := by
    cases inp.key <;> exact ⟨rfl, rfl⟩
  rw [hread.1, hread.2] at hhistory
  refine ⟨⟨hsound.mIndex_le, hsound.curr_le, hsound.history_ne⟩,
    ⟨hlegible.cmd, hlegible.cmdBuffer, hlegible.history, hlegible.hints⟩, ?_⟩
  rcases hhistory with hsame | ⟨hne, hadded⟩
  · exact hsame ▸ h.commands
  · intro entry hmem
    rcases List.mem_append.mp (hadded ▸ hmem) with hold | hnew
    · exact h.commands entry hold
    · rw [List.mem_singleton.mp hnew]
      exact line_command h.legible hne

theorem start_typed {history hints : List Str} (hne : history ≠ [])
    (hhistory : ∀ entry ∈ history, Command entry)
    (hhints : ∀ hint ∈ hints, ascii.Printable hint) (prompt : Str) (c : UInt8) (lastKey : Int) :
    (start history hints prompt c lastKey).Typed :=
  ⟨start_sound hne hints prompt c lastKey,
    ⟨printable_nil, printable_nil, fun entry hmem => (hhistory entry hmem).printable, hhints⟩,
    hhistory⟩

/-- The history that any keys leave comes back from the file, up to the newest 502 entries,
exactly if each of these is shorter than 1023 characters. -/
theorem reload_newest_iff {history hints : List Str} (hne : history ≠ [])
    (hhistory : ∀ entry ∈ history, Command entry)
    (hhints : ∀ hint ∈ hints, ascii.Printable hint) (prompt : Str) (c : UInt8) (lastKey : Int)
    (inputs : List Input) {s t : CmdLine}
    (hrun : (start history hints prompt c lastKey).run inputs = .ok s) (ht : t.history = []) :
    (t.readHistory (some s.writeBackHistory)).history = s.newest ↔
      ∀ entry ∈ s.newest, entry.length < 1023 := by
  have htyped : s.Typed :=
    run_invariant readLine_typed (start_typed hne hhistory hhints prompt c lastKey) hrun
  exact reload_iff s htyped.commands ht

/-! ## Typing a command -/

/-- A key that is a single byte. -/
def press (b : UInt8) : Input := ⟨.byte b, (0, 0), []⟩

theorem readLine_print {s : CmdLine} {b : UInt8} (hb : isPrint b) :
    s.readLine (press b) = (fun s' : CmdLine => ({ s' with lastKey := charToInt s'.c }, [])) <$>
      { s with c := b }.insertKey := by
  refine readLine_of_key ?_
  have hother (x : UInt8) (hx : isPrint x = false) : b ≠ x := by
    rintro rfl
    exact absurd hb (by simp [hx])
  show { s with c := b }.handle (press b) = _
  simp only [handle, hother Byte.newline (by decide), hother Byte.tab (by decide),
    hother Byte.delete (by decide), hother Byte.backspace (by decide),
    hother Byte.escape (by decide), or_self, if_false, hb, if_true]

/-- At the end of the line a printable character is appended. -/
theorem press_at_end {s : CmdLine} {b : UInt8} (hb : isPrint b) (hend : s.mIndex = s.cmd.length) :
    ∃ s', s.readLine (press b) = .ok (s', []) ∧ s'.cmd = s.cmd ++ [b] ∧
      s'.mIndex = s'.cmd.length ∧ s'.history = s.history := by
  have hcmd : s.cmd.take s.mIndex ++ b :: s.cmd.drop s.mIndex = s.cmd ++ [b] := by
    rw [hend, List.take_length, List.drop_length]
  rw [readLine_print hb, insertKey_eq (s := { s with c := b }) hend.le]
  refine ⟨_, rfl, hcmd, ?_, rfl⟩
  show s.mIndex + 1 = List.length _
  rw [hcmd, List.length_append, List.length_singleton, hend]

theorem run_press {s : CmdLine} (hend : s.mIndex = s.cmd.length) {word : Str}
    (hword : ascii.Printable word) :
    ∃ s', s.run (word.map press) = .ok s' ∧ s'.cmd = s.cmd ++ word ∧
      s'.history = s.history := by
  induction word generalizing s with
  | nil => exact ⟨s, rfl, (List.append_nil _).symm, rfl⟩
  | cons b word ih =>
      obtain ⟨hb, hword⟩ := List.forall_mem_cons.mp hword
      obtain ⟨s₁, hpress, hcmd₁, hend₁, hhistory₁⟩ := press_at_end hb hend
      obtain ⟨s', hrun, hcmd, hhistory⟩ := ih hend₁ hword
      refine ⟨s', ?_, ?_, hhistory.trans hhistory₁⟩
      · rw [List.map_cons, run, hpress]
        exact hrun
      · rw [hcmd, hcmd₁, List.append_assoc, List.singleton_append]

theorem enterKey_command {s : CmdLine} (hne : s.history ≠ []) (hline : s.line ≠ [])
    (hlast : s.history.getLast? ≠ some s.line) (hexit : s.line ≠ bytesOf "exit") :
    ∃ s', s.enterKey = .ok (s', s.line) ∧ s'.history = s.history ++ [s.line] := by
  rw [enterKey_eq, enterLine_eq (s := s.write [s.c]) hne hline]
  exact ⟨_, rfl, if_pos ⟨hlast, hexit⟩⟩

/-- A new command, typed and entered, is the last entry of the history. -/
theorem run_command {history : List Str} (hne : history ≠ []) (hints : List Str) (prompt : Str)
    (c : UInt8) (lastKey : Int) {word : Str} (hword : Command word)
    (hhead : word.dropWhile (· ∈ [Byte.space]) = word) (hexit : word ≠ bytesOf "exit")
    (hlast : history.getLast? ≠ some word) :
    ∃ s, (start history hints prompt c lastKey).run (word.map press ++ [press Byte.newline]) =
      .ok s ∧ s.history = history ++ [word] := by
  obtain ⟨s, hrun, hcmd, hhistory⟩ :=
    run_press (s := start history hints prompt c lastKey) rfl hword.printable
  have hline : s.line = word := by
    rw [line, show s.cmd = word from hcmd, hhead, ← cmdRTrim_eq, hword.trimmed]
  set entered : CmdLine := { s with c := Byte.newline }
  have hline' : entered.line = word := hline
  have hhistory' : entered.history = history := hhistory
  obtain ⟨s', henter, hadded⟩ := enterKey_command (s := entered) (by rwa [hhistory'])
    (by rw [hline']; exact hword.ne_nil) (by rwa [hhistory', hline']) (by rwa [hline'])
  have hhandle : (s.readKey (press Byte.newline).key).handle (press Byte.newline) =
      entered.enterKey := rfl
  refine ⟨{ s' with lastKey := charToInt s'.c }, ?_, ?_⟩
  · rw [run_append, hrun]
    show s.run [press Byte.newline] = _
    rw [run, readLine, hhandle, henter]
    rfl
  · rw [← hhistory', ← hline']
    exact hadded

/-- A command too long for the buffer of `readHistory` does not come back. -/
theorem reload_ne_of_long {word : Str} (hword : Command word)
    (hhead : word.dropWhile (· ∈ [Byte.space]) = word) (hlong : 1023 ≤ word.length) :
    ∃ s, (start [bytesOf "help"] [] (bytesOf "> ") 0 0).run
        (word.map press ++ [press Byte.newline]) = .ok s ∧
      s.newest = [bytesOf "help", word] ∧
      ((fresh (bytesOf "> ") 0 0).readHistory (some s.writeBackHistory)).history ≠ s.newest := by
  have hne (short : Str) (hshort : short.length < 1023) : word ≠ short := by
    rintro rfl
    omega
  obtain ⟨s, hrun, hhistory⟩ := @run_command [bytesOf "help"] (by decide) [] (bytesOf "> ") 0 0
    word hword hhead (hne _ (by decide)) fun h => hne _ (by decide) (Option.some.inj h).symm
  have hnewest : s.newest = [bytesOf "help", word] := by
    simp [newest, hhistory]
  refine ⟨s, hrun, hnewest, fun hsame => ?_⟩
  have hcommands : ∀ entry ∈ s.history, Command entry := by
    rw [hhistory, List.singleton_append, List.forall_mem_cons, List.forall_mem_singleton]
    exact ⟨⟨by decide, by decide, by decide⟩, hword⟩
  have hshort := (@reload_iff s hcommands (fresh (bytesOf "> ") 0 0) rfl).mp hsame word
    (by simp [hnewest])
  omega

theorem replicate_command {n : ℕ} (hn : n ≠ 0) : Command (List.replicate n 97) := by
  refine ⟨fun x hx => ?_, by simpa using hn, ?_⟩
  · rw [List.eq_of_mem_replicate hx]
    decide
  · rw [cmdRTrim_eq, List.rdropWhile_eq_self_iff]
    intro hne
    rw [List.getLast_replicate]
    decide

/-- 1023 times the letter "a", and Enter. -/
theorem reload_splits_long_command :
    let word : Str := List.replicate 1023 97
    ∃ s, (start [bytesOf "help"] [] (bytesOf "> ") 0 0).run
        (word.map press ++ [press Byte.newline]) = .ok s ∧
      s.newest = [bytesOf "help", word] ∧
      ((fresh (bytesOf "> ") 0 0).readHistory (some s.writeBackHistory)).history ≠ s.newest := by
  refine reload_ne_of_long (replicate_command (by omega)) ?_ (by rw [List.length_replicate])
  rw [List.dropWhile_replicate]
  rfl

/-- "ls", typed after "help", comes back behind it. -/
theorem reload_newest_of_typed :
    ∃ s, (start [bytesOf "help"] [] (bytesOf "> ") 0 0).run
        ((bytesOf "ls").map press ++ [press Byte.newline]) = .ok s ∧
      ((fresh (bytesOf "> ") 0 0).readHistory (some s.writeBackHistory)).history =
        [bytesOf "help", bytesOf "ls"] := by
  have hhelp : ∀ entry ∈ [bytesOf "help"], Command entry := by
    rw [List.forall_mem_singleton]
    exact ⟨by decide, by decide, by decide⟩
  refine ⟨_, rfl, ?_⟩
  exact (@reload_newest_iff [bytesOf "help"] [] (by decide) hhelp (by decide) (bytesOf "> ") 0 0
    ((bytesOf "ls").map press ++ [press Byte.newline]) _ (fresh (bytesOf "> ") 0 0) rfl rfl).mpr
      (by decide)

end Restore.CmdLine
