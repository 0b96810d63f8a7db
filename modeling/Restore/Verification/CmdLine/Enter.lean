import Mathlib.Data.List.Chain
import Restore.Verification.CmdLine.History

/-! # Enter and the history

Enter compares the line with the last entry of the history. `readHistory` provides one for a file
that is missing, but not for a file that is empty. -/

namespace Restore.CmdLine

open StdString

variable {s s' : CmdLine}

/-- What Enter makes of a line with text. -/
structure Entered (s s' : CmdLine) : Prop where
  cmd_eq : s'.cmd = []
  cmdBuffer_eq : s'.cmdBuffer = []
  mIndex_eq : s'.mIndex = 0
  curr_eq : s'.curr = some s'.history.length
  history_eq : s'.history =
    if s.line = bytesOf "exit" ∨ s.history.getLast? = some s.line then s.history
    else s.history ++ [s.line]

/-- The editor of the constructor, with the hints that have been added. -/
def opened (file : Option Str) (hints : List Str) (prompt : Str) (c : UInt8) (lastKey : Int) :
    CmdLine :=
  ((fresh prompt c lastKey).init file).addHints hints

/-- The entries that `readHistory` makes of the file. -/
def loaded (file : Option Str) : List Str := ((fresh [] 0 0).readHistory file).history

/-- The file is missing, or something in it is read as an entry. -/
def HasEntry : Option Str → Prop
  | none => True
  | some file => ∃ buf ∈ Stdio.fgetsLoop 1024 file.length file, cStr buf ≠ []

/-! ## The history file -/

theorem addHints_eq (s : CmdLine) (cmds : List Str) :
    ∃ hints, s.addHints cmds = { s with hints } := by
  induction cmds generalizing s with
  | nil => exact ⟨s.hints, rfl⟩
  | cons cmd cmds ih =>
      obtain ⟨hints, hadd⟩ := ih (s.addHint cmd)
      refine ⟨hints, ?_⟩
      rw [addHints, List.foldl_cons]
      refine hadd.trans ?_
      rw [addHint]
      split <;> rfl

theorem opened_eq (file : Option Str) (hints : List Str) (prompt : Str) (c : UInt8)
    (lastKey : Int) :
    ∃ hints', opened file hints prompt c lastKey =
      start (loaded file) hints' prompt c lastKey := by
  obtain ⟨hints', hadd⟩ := addHints_eq ((fresh prompt c lastKey).init file) hints
  refine ⟨hints', hadd.trans ?_⟩
  cases file <;> rfl

theorem loaded_ne_nil_iff (file : Option Str) : loaded file ≠ [] ↔ HasEntry file := by
  cases file with
  | none => exact iff_of_true (by decide) trivial
  | some file =>
      have hnil {l : List Str} : upTo500 0 l = [] ↔ l = [] := by
        cases l <;> simp [upTo500]
      show upTo500 0 (readLines file).reverse ≠ [] ↔ _
      rw [ne_eq, hnil, List.reverse_eq_nil_iff, readLines, List.filterMap_eq_nil_iff, HasEntry]
      simp [List.length_pos_iff]

/-- Text is read as an entry unless there is none. -/
theorem hasEntry_iff_of_text {file : Str} (hnul : (0 : UInt8) ∉ file) :
    HasEntry (some file) ↔ file ≠ [] := by
  cases file with
  | nil => simp [HasEntry, Stdio.fgetsLoop]
  | cons b file =>
      have hb : b ≠ 0 := fun h => hnul (h ▸ List.mem_cons_self)
      refine iff_of_true ⟨(Stdio.fill 1023 (b :: file)).1, ?_, ?_⟩ (List.cons_ne_nil _ _)
      · rw [List.length_cons, Stdio.fgetsLoop_succ _ (List.cons_ne_nil b file)]
        exact List.mem_cons_self
      · rw [Stdio.fill]
        split <;> simp [cStr, hb]

/-! ## One call -/

/-- The history goes on from the loaded entries without an entry equal to the one before it. -/
structure NoRepeats (history : List Str) (s : CmdLine) : Prop where
  isPrefix : history <+: s.history
  isChain : (s.history.drop (history.length - 1)).IsChain (· ≠ ·)

theorem NoRepeats.concat {history : List Str} (h : NoRepeats history s) {entry : Str}
    (hlast : s.history.getLast? ≠ some entry) (hs' : s'.history = s.history ++ [entry]) :
    NoRepeats history s' := by
  obtain ⟨hpre, hchain⟩ := h
  have hle : history.length - 1 ≤ s.history.length := (Nat.sub_le _ _).trans hpre.length_le
  refine ⟨hs' ▸ hpre.trans (List.prefix_append _ _), ?_⟩
  rw [hs', List.drop_append_of_le_length hle]
  refine hchain.append (List.isChain_singleton _) ?_
  rintro x hx y hy rfl
  obtain rfl : entry = x := by simpa using hy
  refine hlast ?_
  rw [Option.mem_def, List.getLast?_drop] at hx
  split at hx
  · cases hx
  · exact hx

theorem enterKey_entered (hne : s.history ≠ []) (hline : s.line ≠ []) :
    ∃ s', s.enterKey = .ok (s', s.line) ∧ Entered s s' := by
  rw [enterKey_eq, enterLine_eq (s := s.write [s.c]) hne hline]
  refine ⟨_, rfl, rfl, rfl, rfl, rfl, ?_⟩
  show (if s.history.getLast? ≠ some s.line ∧ s.line ≠ bytesOf "exit" then _ else _) = _
  by_cases hkeep : s.line = bytesOf "exit" ∨ s.history.getLast? = some s.line
  · rw [if_pos hkeep, if_neg (by tauto)]
    rfl
  · rw [if_neg hkeep, if_pos (by tauto)]
    rfl

theorem readLine_of_enter {inp : Input} (hkey : (s.readKey inp.key).c = Byte.newline) :
    s.readLine inp = (fun found : CmdLine × Str =>
      ({ found.1 with lastKey := charToInt found.1.c }, found.2)) <$>
        (s.readKey inp.key).enterKey := by
  rw [readLine, handle, if_pos hkey]
  cases (s.readKey inp.key).enterKey <;> rfl

theorem line_readKey (s : CmdLine) (key : KeyRead) : (s.readKey key).line = s.line := by
  cases key <;> rfl

theorem history_readKey (s : CmdLine) (key : KeyRead) :
    (s.readKey key).history = s.history := by
  cases key <;> rfl

theorem readLine_entered (hne : s.history ≠ []) (hline : s.line ≠ []) {inp : Input}
    (hkey : (s.readKey inp.key).c = Byte.newline) :
    ∃ s', s.readLine inp = .ok (s', s.line) ∧ Entered s s' := by
  have hread := line_readKey s inp.key
  have hhistory := history_readKey s inp.key
  obtain ⟨s₁, henter, hentered⟩ := enterKey_entered (s := s.readKey inp.key)
    (by rwa [hhistory]) (by rwa [hread])
  rw [readLine_of_enter hkey, henter, hread]
  refine ⟨_, rfl, hentered.cmd_eq, hentered.cmdBuffer_eq, hentered.mIndex_eq, hentered.curr_eq, ?_⟩
  rw [← hread, ← hhistory]
  exact hentered.history_eq

/-- A call adds at most the line to the history, and not behind an equal entry. -/
theorem readLine_noRepeats {history : List Str} (h : s.Sound ∧ NoRepeats history s) {inp : Input}
    {res : Str} (hs' : s.readLine inp = .ok (s', res)) : s'.Sound ∧ NoRepeats history s' := by
  have hsound : s'.Sound := by
    have hsafe := readLine_safe h.1 inp
    rwa [hs'] at hsafe
  have hkeep (hsame : s'.history = s.history) : NoRepeats history s' :=
    ⟨hsame ▸ h.2.isPrefix, hsame ▸ h.2.isChain⟩
  refine ⟨hsound, ?_⟩
  by_cases hkey : (s.readKey inp.key).c = Byte.newline
  · by_cases hline : s.line = []
    · rw [readLine_of_enter hkey, enterKey_eq, line_readKey, hline, enterLine_blank] at hs'
      obtain ⟨rfl, -⟩ := Prod.mk.inj (Except.ok.inj hs')
      exact hkeep (history_readKey s inp.key)
    · obtain ⟨s₁, hcall, hentered⟩ := readLine_entered h.1.history_ne hline hkey
      obtain ⟨rfl, -⟩ := Prod.mk.inj (Except.ok.inj (hcall.symm.trans hs'))
      have hhistory := hentered.history_eq
      split at hhistory
      · exact hkeep hhistory
      · rename_i hnew
        exact h.2.concat (fun hlast => hnew (.inr hlast)) hhistory
  · obtain ⟨x, hx, hhandle⟩ := (s.readKey inp.key).handle_branch hkey inp
    rw [readLine_of_key hhandle] at hs'
    cases hres : x with
    | error e =>
        rw [hres] at hs'
        cases hs'
    | ok s₁ =>
        rw [hres] at hs'
        obtain ⟨rfl, -⟩ := Prod.mk.inj (Except.ok.inj hs')
        have hkept := branch_kept (h.1.readKey inp.key).placed hx hres
        exact hkeep (hkept.history_eq.trans (history_readKey s inp.key))

/-! ## Runs -/

/-- With no entry at all, Enter on a line with text looks for the last one. -/
theorem readLine_of_no_entry (hnil : s.history = []) (hline : s.line ≠ []) {inp : Input}
    (hkey : (s.readKey inp.key).c = Byte.newline) : s.readLine inp = .error .iterator := by
  have hread : ((s.readKey inp.key).write [(s.readKey inp.key).c]).history = [] :=
    (history_readKey s inp.key).trans hnil
  rw [readLine_of_enter hkey, enterKey_eq, line_readKey, enterLine, if_neg hline, hread]
  rfl

/-- In every run, Enter does with each line that has text what it has to, and no entry is added
behind an equal one, exactly if the history file is missing or an entry can be read from it. -/
theorem enter_entered_iff (file : Option Str) (hints : List Str) (prompt : Str) (c : UInt8)
    (lastKey : Int) :
    (∀ (inputs : List Input) (s : CmdLine),
      (opened file hints prompt c lastKey).run inputs = .ok s →
        (∀ inp : Input, (s.readKey inp.key).c = Byte.newline → s.line ≠ [] →
          ∃ s', s.readLine inp = .ok (s', s.line) ∧ Entered s s') ∧
        NoRepeats (loaded file) s) ↔ HasEntry file := by
  obtain ⟨hints', hopened⟩ := opened_eq file hints prompt c lastKey
  rw [← loaded_ne_nil_iff, hopened]
  constructor
  · intro h hnil
    obtain ⟨s, hrun, hcmd, hhistory⟩ := @run_press (start (loaded file) hints' prompt c lastKey)
      rfl [97] (by decide)
    have hline : s.line ≠ [] := by
      rw [line, show s.cmd = [97] from hcmd]
      decide
    obtain ⟨s', hcall, -⟩ := (h _ s hrun).1 (press Byte.newline) rfl hline
    rw [readLine_of_no_entry (hhistory.trans hnil) hline rfl] at hcall
    cases hcall
  · intro hne inputs s hrun
    have hchain : ((loaded file).drop ((loaded file).length - 1)).IsChain (· ≠ ·) := by
      rw [List.drop_length_sub_one hne]
      exact List.isChain_singleton _
    have hgrown := run_invariant (P := fun s => s.Sound ∧ NoRepeats (loaded file) s)
      (fun h hcall => readLine_noRepeats h hcall)
      ⟨start_sound hne hints' prompt c lastKey, List.prefix_rfl, hchain⟩ hrun
    exact ⟨fun inp hkey hline => readLine_entered hgrown.1.history_ne hline hkey, hgrown.2⟩

/-- An empty history file, the letter "a", and Enter. -/
theorem enter_reads_before_history :
    ∃ s, (opened (some []) [] (bytesOf "> ") 0 0).run [press 97] = .ok s ∧
      s.line = bytesOf "a" ∧ s.history = [] ∧
      s.readLine (press Byte.newline) = .error .iterator :=
  ⟨_, rfl, rfl, rfl, rfl⟩

end Restore.CmdLine
