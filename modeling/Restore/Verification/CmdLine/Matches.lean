import Restore.Verification.CmdLine.Bounds

/-! # Which hints `compareHints` matches

The loop is a filter over the hints, cut off, for a command of one word, at the first hint that
contains a space: `have_space` is never cleared again. -/

namespace Restore.CmdLine

open StdString

/-- `cmd` is a proper prefix of the hint. -/
def Extends (cmd hint : Str) : Prop := cmd <+: hint ∧ cmd.length < hint.length

instance (cmd hint : Str) : Decidable (Extends cmd hint) := inferInstanceAs (Decidable (_ ∧ _))

/-- The hints that may complete `cmd`: all that extend it, or of those the ones of one word. -/
def Completes (cmd hint : Str) : Prop :=
  Extends cmd hint ∧ (Byte.space ∈ cmd ∨ Byte.space ∉ hint)

instance (cmd hint : Str) : Decidable (Completes cmd hint) := inferInstanceAs (Decidable (_ ∧ _))

/-- The matches among hints that the loop enters with `have_space` as given. -/
def matchesFrom (cmd : Str) : Bool → List Str → List Str
  | _, [] => []
  | haveSpace, hint :: hints =>
      let haveSpace := haveSpace || decide (Byte.space ∈ hint)
      if Extends cmd hint ∧ (Byte.space ∈ cmd ∨ haveSpace = false) then
        hint :: matchesFrom cmd haveSpace hints
      else matchesFrom cmd haveSpace hints

/-- What follows the `i`-th match and its space. -/
def breakAfter (i : ℕ) : Str := if i % 4 = 0 then [Byte.newline] else []

/-- The text of matches in a row, `i` of them listed before. -/
def listing : ℕ → List Str → Str
  | _, [] => []
  | i, hint :: hints => hint ++ Byte.space :: (breakAfter (i + 1) ++ listing (i + 1) hints)

/-- The length of the shortest match, at most the bound given. -/
def shortest (bound : ℕ) (hints : List Str) : ℕ :=
  hints.foldl (fun bound hint => min bound hint.length) bound

theorem extends_iff {cmd hint : Str} :
    hint.length > cmd.length ∧ hint.take cmd.length = cmd ↔ Extends cmd hint := by
  rw [Extends, List.prefix_iff_eq_take, and_comm, gt_iff_lt, eq_comm]

theorem find_space_isSome (s : Str) :
    (find [Byte.space] s).isSome = decide (Byte.space ∈ s) := by
  rw [Bool.eq_iff_iff, find_singleton_isSome, decide_eq_true_iff]

theorem step_eq (cmd hint : Str) (m : Matching) :
    let haveSpace := m.haveSpace || decide (Byte.space ∈ hint)
    Matching.step cmd (find [Byte.space] cmd).isSome m hint =
      if Extends cmd hint ∧ (Byte.space ∈ cmd ∨ haveSpace = false) then
        { haveSpace
          common := m.common ++ [hint]
          possible := m.possible ++ hint ++ [Byte.space] ++ breakAfter (m.i + 1)
          i := m.i + 1
          lenMin := min m.lenMin hint.length }
      else { m with haveSpace } := by
  intro haveSpace
  have hwill : ((decide (Byte.space ∈ cmd) = true ∨
      (!decide (Byte.space ∈ cmd)) = true ∧ (!haveSpace) = true) ↔
        Byte.space ∈ cmd ∨ haveSpace = false) := by
    by_cases hsub : Byte.space ∈ cmd <;> simp [hsub]
  have hmin : (if hint.length < m.lenMin then hint.length else m.lenMin) =
      min m.lenMin hint.length := by
    split <;> omega
  simp only [Matching.step, find_space_isSome, ← and_assoc, extends_iff, hmin, breakAfter]
  rw [if_congr (and_congr_right fun _ => hwill) rfl rfl]

theorem foldl_step (cmd : Str) (hints : List Str) (m : Matching) :
    hints.foldl (Matching.step cmd (find [Byte.space] cmd).isSome) m =
      let found := matchesFrom cmd m.haveSpace hints
      { haveSpace := m.haveSpace || hints.any (Byte.space ∈ ·)
        common := m.common ++ found
        possible := m.possible ++ listing m.i found
        i := m.i + found.length
        lenMin := shortest m.lenMin found } := by
  induction hints generalizing m with
  | nil => simp [matchesFrom, listing, shortest]
  | cons hint hints ih =>
      rw [List.foldl_cons, ih, step_eq, matchesFrom]
      split
      · simp only [listing, shortest, List.foldl_cons, List.any_cons, Bool.or_assoc,
          List.append_assoc, List.cons_append, List.nil_append, List.length_cons, Nat.add_assoc,
          Nat.add_comm 1]
      · simp [Bool.or_assoc]

/-! ## The result of `compareHints` -/

/-- The vector `common` of `compareHints`. -/
def matched (s : CmdLine) : List Str :=
  (s.hints.foldl (Matching.step s.cmd (find [Byte.space] s.cmd).isSome) {}).common

theorem matched_eq (s : CmdLine) : s.matched = matchesFrom s.cmd false s.hints := by
  rw [matched, foldl_step]
  rfl

theorem compareHints_nil {s : CmdLine} (hcmd : s.cmd = []) (possible append : Str) :
    s.compareHints possible append = .ok (0, possible, append) := by
  simp [compareHints, hcmd]

theorem compareHints_few {s : CmdLine} (hcmd : s.cmd ≠ []) (hfew : s.matched.length < 2)
    (possible append : Str) :
    s.compareHints possible append = .ok (s.matched.length, listing 0 s.matched, append) := by
  have hlen : s.cmd.length ≠ 0 := by simpa using hcmd
  rw [matched_eq] at hfew ⊢
  simp [compareHints, hlen, foldl_step, hfew]

theorem compareHints_many {s : CmdLine} (hcmd : s.cmd ≠ []) (hmany : 2 ≤ s.matched.length)
    (possible append : Str) :
    s.compareHints possible append =
      (fun possible => (s.matched.length, possible, append ++ commonStr s.matched
        (shortest 65535 s.matched - s.cmd.length) s.cmd.length)) <$>
        if Byte.space ∈ s.cmd then
          eraseMainCmd (mainCmd s.cmd) s.matched.length (listing 0 s.matched)
        else .ok (listing 0 s.matched) := by
  have hlen : s.cmd.length ≠ 0 := by simpa using hcmd
  rw [matched_eq] at hmany ⊢
  rw [compareHints, if_neg hlen]
  simp only [foldl_step, List.nil_append, Nat.not_lt.mpr hmany, if_false, Nat.zero_add]
  simp only [find_space_isSome, decide_eq_true_eq]
  split
  · cases eraseMainCmd (mainCmd s.cmd) _ _ <;> rfl
  · rfl

/-! ## The matches as a filter -/

theorem matchesFrom_of_space {cmd : Str} (hsub : Byte.space ∈ cmd) (haveSpace : Bool)
    (hints : List Str) : matchesFrom cmd haveSpace hints = hints.filter (Completes cmd ·) := by
  induction hints generalizing haveSpace with
  | nil => rfl
  | cons hint hints ih => simp [matchesFrom, Completes, hsub, List.filter_cons, ih]

theorem matchesFrom_true {cmd : Str} (hsub : Byte.space ∉ cmd) (hints : List Str) :
    matchesFrom cmd true hints = [] := by
  induction hints with
  | nil => rfl
  | cons hint hints ih => simp [matchesFrom, hsub, ih]

theorem matchesFrom_eq_filter_iff {cmd : Str} (hsub : Byte.space ∉ cmd) (hints : List Str) :
    matchesFrom cmd false hints = hints.filter (Completes cmd ·) ↔
      hints.Pairwise fun hint later => Byte.space ∈ hint → ¬ Completes cmd later := by
  induction hints with
  | nil => simp [matchesFrom]
  | cons hint hints ih =>
      rw [List.pairwise_cons]
      by_cases hspace : Byte.space ∈ hint
      · -- from here on the loop matches nothing
        have hskip : ¬ Completes cmd hint := fun h => h.2.elim hsub (absurd hspace)
        simp only [matchesFrom, hsub, hspace, decide_true, Bool.or_true, Bool.true_eq_false,
          or_self, and_false, if_false, matchesFrom_true hsub, List.filter_cons, hskip,
          decide_false, Bool.false_eq_true, true_implies]
        rw [eq_comm, List.filter_eq_nil_iff]
        simp only [decide_eq_true_eq]
        exact ⟨fun h => ⟨h, List.Pairwise.imp_of_mem (fun _ hb _ _ => h _ hb)
          (List.pairwise_of_forall fun _ _ => trivial)⟩, fun h => h.1⟩
      · have htake : Completes cmd hint ↔ Extends cmd hint := by simp [Completes, hspace]
        simp only [hspace, false_implies, implies_true, true_and]
        rw [← ih]
        by_cases hext : Extends cmd hint <;>
          simp [matchesFrom, hspace, hsub, hext, htake]

theorem fst_of_compareHints {s : CmdLine} (hcmd : s.cmd ≠ []) {possible append : Str}
    {found : ℕ × Str × Str} (h : s.compareHints possible append = .ok found) :
    found.1 = s.matched.length := by
  rcases Nat.lt_or_ge s.matched.length 2 with hfew | hmany
  · rw [compareHints_few hcmd hfew] at h
    rw [← Except.ok.inj h]
  · rw [compareHints_many hcmd hmany] at h
    cases herase : (if Byte.space ∈ s.cmd then
        eraseMainCmd (mainCmd s.cmd) s.matched.length (listing 0 s.matched)
      else .ok (listing 0 s.matched)) with
    | error e => rw [herase] at h; cases h
    | ok text =>
        rw [herase] at h
        rw [← Except.ok.inj h]

/-- The matches, and the number returned, are those of the hints that may complete `cmd` exactly
if `cmd` has a space itself or none of them comes after a hint with a space. -/
theorem matched_eq_filter_iff (s : CmdLine) (hcmd : s.cmd ≠ []) :
    (s.matched = s.hints.filter (Completes s.cmd ·) ∧
      ∀ possible append found, s.compareHints possible append = .ok found →
        found.1 = (s.hints.filter (Completes s.cmd ·)).length) ↔
      Byte.space ∈ s.cmd ∨
        s.hints.Pairwise fun hint later => Byte.space ∈ hint → ¬ Completes s.cmd later := by
  have hlist : s.matched = s.hints.filter (Completes s.cmd ·) ↔ Byte.space ∈ s.cmd ∨
      s.hints.Pairwise fun hint later => Byte.space ∈ hint → ¬ Completes s.cmd later := by
    rw [matched_eq]
    by_cases hsub : Byte.space ∈ s.cmd
    · exact iff_of_true (matchesFrom_of_space hsub _ _) (.inl hsub)
    · simp only [matchesFrom_eq_filter_iff hsub, hsub, false_or]
  rw [← hlist]
  refine ⟨And.left, fun h => ⟨h, fun possible append found hfound => ?_⟩⟩
  rw [fst_of_compareHints hcmd hfound, h]

/-- With "stop" after "show x", typing "s" finds neither. -/
theorem matched_misses_hint :
    let s := { start [bytesOf "help"] [bytesOf "show x", bytesOf "stop"] (bytesOf "> ") 0 0 with
      cmd := bytesOf "s" }
    s.matched = [] ∧ s.hints.filter (Completes s.cmd ·) = [bytesOf "stop"] ∧
      { s with hints := s.hints.reverse }.matched = [bytesOf "stop"] := by
  decide

/-- With "show x" after "stop", typing "s" finds "stop". -/
theorem matched_eq_filter_of_sorted :
    let s := { start [bytesOf "help"] [bytesOf "stop", bytesOf "show x"] (bytesOf "> ") 0 0 with
      cmd := bytesOf "s" }
    (s.hints.Pairwise fun hint later => Byte.space ∈ hint → ¬ Completes s.cmd later) ∧
      s.matched = [bytesOf "stop"] ∧
      ∀ possible append found, s.compareHints possible append = .ok found → found.1 = 1 := by
  intro s
  have hsorted : s.hints.Pairwise fun hint later =>
      Byte.space ∈ hint → ¬ Completes s.cmd later := by
    decide
  obtain ⟨hmatched, hcount⟩ := (matched_eq_filter_iff s (by decide)).mpr (.inr hsorted)
  have hstop : s.hints.filter (Completes s.cmd ·) = [bytesOf "stop"] := by decide
  rw [hstop] at hmatched hcount
  exact ⟨hsorted, hmatched, hcount⟩

end Restore.CmdLine
