import Restore.Model.CmdLineProcess
import Restore.Verification.CmdLine.Enter
import Restore.Verification.CmdLine.Zipper

/-! # The commands of the program

`CmdLineProcess` does what the lines say that a line editor makes of the keys. -/

namespace Restore.LoggerTest

open CmdLine

/-- The lines that the keys enter, from the line `z`. -/
def linesFrom (z : Zipper UInt8) (inputs : List Input) : List Str :=
  (z.entered (inputs.filterMap Input.stroke?)).map trimmed

/-- The last word on `SkipOutput`. -/
def skipAfter (skip : Bool) (lines : List Str) : Bool :=
  lines.foldl (fun skip line =>
    if line = bytesOf "skip_output" then true
    else if line = bytesOf "no_skip_output" then false
    else skip) skip

def IsToggle (line : Str) : Prop :=
  line = bytesOf "skip_output" ∨ line = bytesOf "no_skip_output"

instance (line : Str) : Decidable (IsToggle line) := inferInstanceAs (Decidable (_ ∨ _))

theorem skipAfter_concat (skip : Bool) (lines : List Str) (line : Str) :
    skipAfter skip (lines ++ [line]) =
      if line = bytesOf "skip_output" then true
      else if line = bytesOf "no_skip_output" then false
      else skipAfter skip lines := by
  rw [skipAfter, List.foldl_append]
  rfl

theorem skipAfter_eq_true_iff (lines : List Str) :
    skipAfter false lines = true ↔
      (lines.filter IsToggle).getLast? = some (bytesOf "skip_output") := by
  induction lines using List.reverseRecOn with
  | nil => simp [skipAfter]
  | append_singleton lines line ih =>
      rw [skipAfter_concat, List.filter_append]
      by_cases hskip : line = bytesOf "skip_output"
      · simp [hskip, IsToggle]
      · by_cases hno : line = bytesOf "no_skip_output"
        · subst hno
          simp [IsToggle, show bytesOf "no_skip_output" ≠ bytesOf "skip_output" by decide]
        · have hline : ¬IsToggle line := not_or.mpr ⟨hskip, hno⟩
          simp [hskip, hno, hline, ih]

theorem linesFrom_cons (z : Zipper UInt8) (inp : Input) (inputs : List Input) :
    linesFrom z (inp :: inputs) =
      ((inp.stroke?.bind z.enters).map trimmed).toList ++
        linesFrom (pressed z inp.stroke?) inputs := by
  rw [linesFrom, List.filterMap_cons]
  cases hstroke : inp.stroke? with
  | none => rfl
  | some k =>
      simp only [Zipper.entered, List.map_append, Option.bind_some, pressed, Option.elim_some,
        linesFrom]
      cases z.enters k <;> rfl

namespace Console

variable {w : Console}

/-! ## One turn -/

/-- The loop goes on, and the editor is in order. -/
structure Alive (w : Console) : Prop where
  sound : w.cmdLine.Sound
  stopRunning : w.stopRunning = false
  exited : w.exited = false

/-- What a line does to the flags. -/
structure Obeys (line : Str) (w w' : Console) : Prop where
  stopRunning : w'.stopRunning = decide (line = bytesOf "stop")
  exited : w'.exited = decide (line = bytesOf "stop")
  skipOutput : w'.skipOutput = skipAfter w.skipOutput [line]

theorem printf_sound (h : w.cmdLine.Sound) (text : Str) : (w.printf text).cmdLine.Sound :=
  ⟨h.mIndex_le, h.curr_le, h.history_ne⟩

theorem command_obeys (coreNum : Str) (h : w.Alive) (line : Str) :
    Obeys line w (w.command coreNum line) ∧ (w.command coreNum line).cmdLine.Sound ∧
      (w.command coreNum line).cmdLine.zipper = w.cmdLine.zipper := by
  unfold command
  by_cases hstop : line = bytesOf "stop"
  · subst hstop
    exact ⟨⟨rfl, rfl, rfl⟩, h.sound, rfl⟩
  · have hno := decide_eq_false hstop
    rw [if_neg hstop]
    by_cases hcore : line = bytesOf "core_num"
    · subst hcore
      exact ⟨⟨h.stopRunning.trans hno.symm, h.exited.trans hno.symm, rfl⟩,
        printf_sound (printf_sound h.sound _) _, rfl⟩
    · rw [if_neg hcore]
      by_cases hskip : line = bytesOf "skip_output"
      · rw [if_pos hskip]
        exact ⟨⟨h.stopRunning.trans hno.symm, h.exited.trans hno.symm,
          (if_pos hskip).symm⟩, printf_sound h.sound _, rfl⟩
      · rw [if_neg hskip]
        by_cases hnoSkip : line = bytesOf "no_skip_output"
        · rw [if_pos hnoSkip]
          exact ⟨⟨h.stopRunning.trans hno.symm, h.exited.trans hno.symm,
            ((if_neg hskip).trans (if_pos hnoSkip)).symm⟩, printf_sound h.sound _, rfl⟩
        · rw [if_neg hnoSkip]
          exact ⟨⟨h.stopRunning.trans hno.symm, h.exited.trans hno.symm,
            ((if_neg hskip).trans (if_neg hnoSkip)).symm⟩, printf_sound h.sound _, rfl⟩

/-- A turn takes one key, and obeys the line if the key enters one that is not blank. -/
theorem turn_eq (coreNum : Str) (h : w.Alive) {inp : Input} (hplain : inp.Plain) :
    ∃ w', w.turn coreNum inp = .ok w' ∧ w'.cmdLine.Sound ∧
      w'.cmdLine.zipper = pressed w.cmdLine.zipper inp.stroke? ∧
      Obeys (returned w.cmdLine.zipper inp.stroke?) w w' := by
  obtain ⟨s', hcall, hsound, hzipper⟩ := readLine_zipper h.sound hplain
  have hturn : w.turn coreNum inp = .ok
      (if (returned w.cmdLine.zipper inp.stroke?).length > 0 then
        { w with cmdLine := s' }.command coreNum (returned w.cmdLine.zipper inp.stroke?)
      else { w with cmdLine := s' }) := by
    rw [turn, h.exited, h.stopRunning, hcall]
    rfl
  generalize returned w.cmdLine.zipper inp.stroke? = line at hturn ⊢
  by_cases hline : line.length > 0
  · rw [if_pos hline] at hturn
    obtain ⟨hobeys, hsound', hzipper'⟩ := command_obeys coreNum
      (w := { w with cmdLine := s' }) ⟨hsound, h.stopRunning, h.exited⟩ line
    exact ⟨_, hturn, hsound', hzipper'.trans hzipper, hobeys.stopRunning, hobeys.exited,
      hobeys.skipOutput⟩
  · rw [if_neg hline] at hturn
    obtain rfl : line = [] := List.eq_nil_of_length_eq_zero (by omega)
    exact ⟨_, hturn, hsound, hzipper, h.stopRunning, h.exited, rfl⟩

/-! ## Runs -/

/-- After the loop nothing is read. -/
theorem run_of_exited (coreNum : Str) (hexited : w.exited = true) (inputs : List Input) :
    w.run coreNum inputs = .ok w := by
  induction inputs with
  | nil => rfl
  | cons inp inputs ih =>
      rw [run, turn, if_pos hexited]
      exact ih

/-- The lines up to the first `stop` are obeyed. -/
theorem run_obeys (coreNum : Str) (h : w.Alive) {inputs : List Input}
    (hplain : ∀ inp ∈ inputs, inp.Plain) :
    ∃ w', w.run coreNum inputs = .ok w' ∧
      w'.stopRunning = decide (bytesOf "stop" ∈ linesFrom w.cmdLine.zipper inputs) ∧
      w'.exited = w'.stopRunning ∧
      w'.skipOutput = skipAfter w.skipOutput
        ((linesFrom w.cmdLine.zipper inputs).takeWhile (· ≠ bytesOf "stop")) := by
  induction inputs generalizing w with
  | nil =>
      exact ⟨w, rfl, h.stopRunning, h.exited.trans h.stopRunning.symm, rfl⟩
  | cons inp inputs ih =>
      obtain ⟨hinp, hinputs⟩ := List.forall_mem_cons.mp hplain
      obtain ⟨w₁, hturn, hsound, hzipper, hstop, hexited, hskip⟩ := turn_eq coreNum h hinp
      rw [run, hturn, linesFrom_cons]
      change ∃ w', w₁.run coreNum inputs = .ok w' ∧ _
      rw [← hzipper]
      cases hentered : (inp.stroke?.bind w.cmdLine.zipper.enters).map trimmed with
      | none =>
          have hline : returned w.cmdLine.zipper inp.stroke? = [] := by
            rw [returned, hentered]
            rfl
          rw [hline] at hstop hexited hskip
          obtain ⟨w', hrun, hstop', hexited', hskip'⟩ :=
            ih ⟨hsound, hstop, hexited⟩ hinputs
          rw [hskip] at hskip'
          exact ⟨w', hrun, hstop', hexited', hskip'⟩
      | some line =>
          have hline : returned w.cmdLine.zipper inp.stroke? = line := by
            rw [returned, hentered]
            rfl
          rw [hline] at hstop hexited hskip
          rw [Option.toList_some, List.singleton_append]
          by_cases hstops : line = bytesOf "stop"
          · subst hstops
            rw [decide_eq_true rfl] at hstop hexited
            refine ⟨w₁, run_of_exited coreNum hexited inputs, ?_, hexited.trans hstop.symm, ?_⟩
            · rw [hstop, decide_eq_true List.mem_cons_self]
            · rw [hskip, List.takeWhile_cons, if_neg (by simp)]
              rfl
          · rw [decide_eq_false hstops] at hstop hexited
            obtain ⟨w', hrun, hstop', hexited', hskip'⟩ :=
              ih ⟨hsound, hstop, hexited⟩ hinputs
            rw [hskip] at hskip'
            refine ⟨w', hrun, ?_, hexited', ?_⟩
            · rw [hstop', decide_eq_decide, List.mem_cons]
              exact ⟨.inr, fun hmem => hmem.resolve_left (Ne.symm hstops)⟩
            · rw [hskip', List.takeWhile_cons, if_pos (by simpa using hstops)]
              rfl

/-- Whatever is typed, erased and moved over, the program stops at the first line that is `stop`
once it is trimmed, and takes the last of the lines before it that say whether to skip the
output. -/
theorem commands_obeyed {file : Option Str} (hfile : HasEntry file) (coreNum : Str) (c : UInt8)
    (lastKey : Int) {inputs : List Input} (hplain : ∀ inp ∈ inputs, inp.Plain) :
    ∃ w, (start file c lastKey).run coreNum inputs = .ok w ∧
      (w.stopRunning = true ↔ bytesOf "stop" ∈ linesFrom .empty inputs) ∧
      w.exited = w.stopRunning ∧
      (w.skipOutput = true ↔
        (((linesFrom .empty inputs).takeWhile (· ≠ bytesOf "stop")).filter IsToggle).getLast? =
          some (bytesOf "skip_output")) := by
  have hstart : (start file c lastKey).cmdLine =
      CmdLine.start (loaded file) [] (bytesOf "logger test > ") c lastKey := by
    cases file <;> rfl
  have halive : (start file c lastKey).Alive := by
    refine ⟨?_, rfl, rfl⟩
    rw [hstart]
    exact start_sound ((loaded_ne_nil_iff file).mpr hfile) ..
  have hzipper : (start file c lastKey).cmdLine.zipper = .empty := by
    rw [hstart]
    rfl
  obtain ⟨w, hrun, hstop, hexited, hskip⟩ := run_obeys coreNum halive hplain
  rw [hzipper] at hstop hskip
  refine ⟨w, hrun, ?_, hexited, ?_⟩
  · rw [hstop, decide_eq_true_iff]
  · rw [hskip]
    exact skipAfter_eq_true_iff _

/-- `skip_output`, entered from its end with a letter too many, then `stop` from its second
letter on with the first one put in front. -/
def skipAndStop : List Input :=
  ((bytesOf "  skip_outputt").map press ++ [press Byte.delete, press Byte.newline] ++
    (bytesOf "top ").map press ++
    List.replicate 4 ⟨.byte Byte.escape, (0, 0), [0x5B, 0x44]⟩ ++
    [press 115, press Byte.newline])

theorem commands_obeyed_of_skipAndStop :
    linesFrom .empty skipAndStop = [bytesOf "skip_output", bytesOf "stop"] ∧
    ∃ w, (start none 0 0).run (bytesOf "8") skipAndStop = .ok w ∧
      (w.stopRunning = true ↔ bytesOf "stop" ∈ linesFrom .empty skipAndStop) ∧
      w.exited = w.stopRunning ∧
      (w.skipOutput = true ↔ (((linesFrom .empty skipAndStop).takeWhile
        (· ≠ bytesOf "stop")).filter IsToggle).getLast? = some (bytesOf "skip_output")) :=
  ⟨by decide, @commands_obeyed none trivial (bytesOf "8") 0 0 _ (by decide)⟩

end Console

end Restore.LoggerTest
