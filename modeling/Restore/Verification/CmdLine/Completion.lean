import Mathlib.Data.List.GetD
import Restore.Verification.CmdLine.Erasing

/-! # What Tab appends to the command

The loop over the positions behind `cmd` ends at the first one where two matches differ, or at
the end of the shortest match: what it collects makes `cmd` the longest common prefix. -/

namespace Restore.CmdLine

open StdString

/-- A prefix of every list, and each other such prefix is a prefix of it. -/
structure IsLongestCommonPrefix {α : Type*} (p : List α) (ls : List (List α)) : Prop where
  isPrefix : ∀ l ∈ ls, p <+: l
  longest : ∀ q, (∀ l ∈ ls, q <+: l) → q <+: p

/-! ## The loop -/

theorem commonStr_succ (hint : Str) (hints : List Str) (rounds i : ℕ) :
    commonStr (hint :: hints) (rounds + 1) i =
      if (∀ h ∈ hint :: hints, h.getD i 0 = hint.getD i 0) ∧ hint.getD i 0 ≠ 0 then
        hint.getD i 0 :: commonStr (hint :: hints) rounds (i + 1)
      else [] := by
  rw [commonStr]
  simp only [List.headD_cons, List.all_eq_true, beq_iff_eq]
  by_cases hall : ∀ h ∈ hint :: hints, h.getD i 0 = hint.getD i 0
  · rw [if_pos hall, if_congr (and_iff_right hall) rfl rfl]
  · rw [if_neg (fun h => hall (And.left h)), if_neg hall]
    rfl

/-- While `rounds` more positions exist in every match, the loop extends a common prefix, and by
as much as these rounds allow. -/
theorem commonStr_spec {hints : List Str} (hne : hints ≠ []) (hnul : ∀ h ∈ hints, (0 : UInt8) ∉ h)
    (rounds : ℕ) (p : Str) (hp : ∀ h ∈ hints, p <+: h)
    (hroom : ∀ h ∈ hints, p.length + rounds ≤ h.length) :
    (∀ h ∈ hints, p ++ commonStr hints rounds p.length <+: h) ∧
      ∀ q, (∀ h ∈ hints, q <+: h) → q.length ≤ p.length + rounds →
        q <+: p ++ commonStr hints rounds p.length := by
  obtain ⟨hint, hints, rfl⟩ := List.exists_cons_of_ne_nil hne
  have hhint : hint ∈ hint :: hints := List.mem_cons_self
  induction rounds generalizing p with
  | zero =>
      rw [commonStr, List.append_nil]
      exact ⟨hp, fun q hq hlen => List.prefix_of_prefix_length_le (hq _ hhint) (hp _ hhint) hlen⟩
  | succ rounds ih =>
      have hlt (h : Str) (hh : h ∈ hint :: hints) : p.length < h.length := by
        have hle := hroom h hh
        omega
      have hget (h : Str) (hh : h ∈ hint :: hints) :
          h.get ⟨p.length, hlt h hh⟩ = h.getD p.length 0 :=
        (List.getD_eq_getElem h 0 (hlt h hh)).symm
      rw [commonStr_succ]
      split
      · rename_i hx
        set x := hint.getD p.length 0
        have hext : ∀ h ∈ hint :: hints, p ++ [x] <+: h := fun h hh => by
          have hconcat := List.concat_get_prefix (hp h hh) (hlt h hh)
          rwa [hget h hh, hx.1 h hh] at hconcat
        have hlen : (p ++ [x]).length = p.length + 1 := by simp
        have hspec := ih (p ++ [x]) hext fun h hh => by
          have hle := hroom h hh
          omega
        rw [hlen, List.append_assoc, List.singleton_append] at hspec
        exact ⟨hspec.1, fun q hq hle => hspec.2 q hq (by omega)⟩
      · -- a longer common prefix would have one byte here in all matches, and not a NUL
        rename_i hx
        rw [List.append_nil]
        refine ⟨hp, fun q hq _ => ?_⟩
        rcases le_or_gt q.length p.length with hle | hgt
        · exact List.prefix_of_prefix_length_le (hq _ hhint) (hp _ hhint) hle
        · have hbyte (h : Str) (hh : h ∈ hint :: hints) : h.getD p.length 0 = q[p.length] :=
            (hget h hh).symm.trans ((hq h hh).getElem hgt).symm
          refine absurd ⟨fun h hh => (hbyte h hh).trans (hbyte _ hhint).symm, ?_⟩ hx
          rw [hbyte _ hhint]
          exact fun hzero => hnul hint hhint ((hq _ hhint).subset (hzero ▸ List.getElem_mem hgt))

theorem shortest_le {bound : ℕ} {hints : List Str} :
    shortest bound hints ≤ bound ∧ ∀ h ∈ hints, shortest bound hints ≤ h.length := by
  induction hints generalizing bound with
  | nil => exact ⟨le_rfl, by simp⟩
  | cons hint hints ih =>
      obtain ⟨hbound, hall⟩ := @ih (min bound hint.length)
      refine ⟨hbound.trans (min_le_left _ _), ?_⟩
      rw [List.forall_mem_cons]
      exact ⟨hbound.trans (min_le_right _ _), hall⟩

theorem le_shortest {bound n : ℕ} {hints : List Str} (hbound : n ≤ bound)
    (hall : ∀ h ∈ hints, n ≤ h.length) : n ≤ shortest bound hints := by
  induction hints generalizing bound with
  | nil => exact hbound
  | cons hint hints ih =>
      rw [List.forall_mem_cons] at hall
      exact ih (le_min hbound hall.1) hall.2

/-! ## The matches -/

theorem mem_matchesFrom {cmd : Str} {haveSpace : Bool} {hints : List Str} {hint : Str}
    (h : hint ∈ matchesFrom cmd haveSpace hints) : hint ∈ hints ∧ Extends cmd hint := by
  induction hints generalizing haveSpace with
  | nil => simp [matchesFrom] at h
  | cons next hints ih =>
      rw [matchesFrom] at h
      split at h
      · rename_i hnext
        rcases List.mem_cons.mp h with rfl | h
        · exact ⟨List.mem_cons_self, hnext.1⟩
        · exact ⟨List.mem_cons_of_mem _ (ih h).1, (ih h).2⟩
      · exact ⟨List.mem_cons_of_mem _ (ih h).1, (ih h).2⟩

theorem mem_matched {s : CmdLine} {hint : Str} (h : hint ∈ s.matched) :
    hint ∈ s.hints ∧ Extends s.cmd hint :=
  mem_matchesFrom (s.matched_eq ▸ h)

section Matches

variable {s : CmdLine}

/-- What `compareHints` appends when there are two matches or more. -/
def extension (s : CmdLine) : Str :=
  commonStr s.matched (shortest 65535 s.matched - s.cmd.length) s.cmd.length

theorem not_mem_of_matched (hnul : ∀ hint ∈ s.hints, (0 : UInt8) ∉ hint) :
    ∀ hint ∈ s.matched, (0 : UInt8) ∉ hint :=
  fun hint hh => hnul hint (mem_matched hh).1

/-- Without NULs in the hints, no search for the main command fails. -/
theorem compareHints_append (hnul : ∀ hint ∈ s.hints, (0 : UInt8) ∉ hint) (hcmd : s.cmd ≠ [])
    (hmany : 2 ≤ s.matched.length) (possible append : Str) :
    ∃ possible', s.compareHints possible append =
      .ok (s.matched.length, possible', append ++ s.extension) := by
  rw [compareHints_many hcmd hmany]
  by_cases hsub : Byte.space ∈ s.cmd
  · have hmain : ∀ hint ∈ s.matched, mainCmd s.cmd <+: hint := fun hint hh =>
      (List.prefix_append _ _).trans ((mainCmd_isPrefix hsub).trans (mem_matched hh).2.1)
    have hmem : s.matched[0] ∈ s.matched := List.getElem_mem _
    have hclean : (0 : UInt8) ∉ mainCmd s.cmd := fun h0 =>
      not_mem_of_matched hnul _ hmem ((hmain _ hmem).subset h0)
    obtain ⟨text, htext⟩ := Supplies.eraseMainCmd_ok hclean
      (Supplies.listing (fun hint hh => (hmain hint hh).isInfix) [] 0)
    rw [List.nil_append] at htext
    exact ⟨text, by rw [if_pos hsub, htext]; rfl⟩
  · exact ⟨_, by rw [if_neg hsub]; rfl⟩

theorem extension_isPrefix (hnul : ∀ hint ∈ s.hints, (0 : UInt8) ∉ hint) :
    ∀ hint ∈ s.matched, s.cmd ++ s.extension <+: hint := by
  intro hint hh
  refine (commonStr_spec (List.ne_nil_of_mem hh) (not_mem_of_matched hnul) _ s.cmd
    (fun h hh => (mem_matched hh).2.1) fun h hh => ?_).1 hint hh
  have hlen := (mem_matched hh).2.1.length_le
  have hshort := (@shortest_le 65535 s.matched).2 h hh
  omega

theorem extension_longest (hnul : ∀ hint ∈ s.hints, (0 : UInt8) ∉ hint)
    (hshort : ∀ hint ∈ s.hints, hint.length < 65535) (hne : s.matched ≠ []) :
    IsLongestCommonPrefix (s.cmd ++ s.extension) s.matched := by
  refine ⟨extension_isPrefix hnul, fun q hq => ?_⟩
  have hle (p : Str) (hp : ∀ hint ∈ s.matched, p <+: hint) :
      p.length ≤ shortest 65535 s.matched := by
    refine le_shortest ?_ fun h hh => (hp h hh).length_le
    have hhead := List.head_mem hne
    exact (hp _ hhead).length_le.trans (hshort _ (mem_matched hhead).1).le
  have hcmd := hle s.cmd fun h hh => (mem_matched hh).2.1
  have hrounds : s.cmd.length + (shortest 65535 s.matched - s.cmd.length) =
      shortest 65535 s.matched := Nat.add_sub_cancel' hcmd
  refine (commonStr_spec hne (not_mem_of_matched hnul) _ s.cmd
    (fun h hh => (mem_matched hh).2.1) fun h hh => ?_).2 q hq ?_
  · rw [hrounds]
    exact shortest_le.2 h hh
  · rw [hrounds]
    exact hle q hq

theorem compareHints_ok (hnul : ∀ hint ∈ s.hints, (0 : UInt8) ∉ hint) (possible append : Str) :
    ∃ found, s.compareHints possible append = .ok found := by
  by_cases hcmd : s.cmd = []
  · exact ⟨_, compareHints_nil hcmd _ _⟩
  · rcases Nat.lt_or_ge s.matched.length 2 with hfew | hmany
    · exact ⟨_, compareHints_few hcmd hfew _ _⟩
    · obtain ⟨_, hok⟩ := compareHints_append hnul hcmd hmany possible append
      exact ⟨_, hok⟩

end Matches

/-! ## Tab -/

/-- A press of Tab either leaves `cmd`, appends what several matches share, or takes the text
of the only match. -/
theorem cmd_of_tabKey {s s' : CmdLine} (h : s.tabKey = .ok s') :
    ∃ count possible append, s.compareHints [] [] = .ok (count, possible, append) ∧
      (s'.cmd = s.cmd ∨ 1 < count ∧ s'.cmd = s.cmd ++ append ∨ count = 1 ∧ s'.cmd = possible) := by
  cases hhints : s.compareHints [] [] with
  | error e => simp [tabKey, hhints, bind, Except.bind] at h
  | ok found =>
      obtain ⟨count, possible, append⟩ := found
      refine ⟨count, possible, append, rfl, ?_⟩
      simp only [tabKey, hhints, bind, Except.bind] at h
      split at h
      · rename_i hmany
        obtain rfl := Except.ok.inj h
        exact .inr (.inl ⟨hmany.1, rfl⟩)
      · split at h
        · rename_i hone
          cases hclear : s.clearLine with
          | error e => simp [hclear] at h
          | ok cleared =>
              rw [hclear] at h
              obtain rfl := Except.ok.inj h
              exact .inr (.inr ⟨hone, rfl⟩)
        · obtain rfl := Except.ok.inj h
          exact .inl rfl

/-- What several matches share and what the only match gives are told from the count. -/
theorem cmd_of_tabKey_of_count {s s' : CmdLine} (hnul : ∀ hint ∈ s.hints, (0 : UInt8) ∉ hint)
    (h : s.tabKey = .ok s') :
    s'.cmd = s.cmd ∨ s.matched ≠ [] ∧ s'.cmd = s.cmd ++ s.extension ∨
      ∃ hint, s.matched = [hint] ∧ s'.cmd = hint ++ [Byte.space] := by
  obtain ⟨count, possible, append, hhints, hcmd'⟩ := cmd_of_tabKey h
  by_cases hcmd : s.cmd = []
  · rw [compareHints_nil hcmd] at hhints
    obtain rfl : 0 = count := congrArg Prod.fst (Except.ok.inj hhints)
    exact .inl (by simpa using hcmd')
  · have hcount : count = s.matched.length := fst_of_compareHints hcmd hhints
    rcases hcmd' with hsame | ⟨hmany, hcmd'⟩ | ⟨hone, hcmd'⟩
    · exact .inl hsame
    · obtain ⟨text, hok⟩ := compareHints_append hnul hcmd (hcount ▸ hmany) [] []
      have happend : append = s.extension :=
        congrArg (·.2.2) (Except.ok.inj (hhints.symm.trans hok))
      refine .inr (.inl ⟨fun hnil => ?_, by rw [hcmd', happend]⟩)
      simp [hnil] at hcount
      omega
    · obtain ⟨hint, hmatched⟩ := List.length_eq_one_iff.mp (hcount.symm.trans hone)
      rw [compareHints_few hcmd (by simp [hmatched]), hmatched] at hhints
      have htext : hint ++ [Byte.space] = possible := congrArg (·.2.1) (Except.ok.inj hhints)
      exact .inr (.inr ⟨hint, hmatched, by rw [hcmd', htext]⟩)

/-- Whatever the matches, Tab extends `cmd`, and not beyond what all of them begin with; a
single match gets its space as well. -/
theorem tabKey_isPrefix {s s' : CmdLine} (hnul : ∀ hint ∈ s.hints, (0 : UInt8) ∉ hint)
    (h : s.tabKey = .ok s') :
    s.cmd <+: s'.cmd ∧ ∀ hint ∈ s.matched, s'.cmd <+: hint ++ [Byte.space] := by
  rcases cmd_of_tabKey_of_count hnul h with hcmd' | ⟨-, hcmd'⟩ | ⟨hint, hmatched, hcmd'⟩
  · rw [hcmd']
    exact ⟨List.prefix_rfl, fun hint hh => (mem_matched hh).2.1.trans (List.prefix_append _ _)⟩
  · rw [hcmd']
    exact ⟨List.prefix_append _ _, fun hint hh =>
      (extension_isPrefix hnul hint hh).trans (List.prefix_append _ _)⟩
  · rw [hcmd', hmatched]
    refine ⟨?_, by simp⟩
    exact (mem_matched (hmatched ▸ List.mem_cons_self)).2.1.trans (List.prefix_append _ _)

theorem readLine_tab (s : CmdLine) {inp : Input} (hkey : inp.key = .byte Byte.tab) :
    s.readLine inp = (fun s' : CmdLine => ({ s' with lastKey := charToInt s'.c }, [])) <$>
      { s with c := Byte.tab }.tabKey := by
  refine readLine_of_key ?_
  rw [hkey]
  rfl

/-- Two matches or more are completed to their longest common prefix. Tab returns on any line
with the cursor inside; where it returns, the line begins with what it was, and every match
with a space behind it begins with the line. -/
theorem tab_completes (s : CmdLine)
    (hhints : ∀ hint ∈ s.hints, hint.length < 65535 ∧ (0 : UInt8) ∉ hint) :
    (s.cmd ≠ [] → 2 ≤ s.matched.length → ∀ possible append, ∃ possible' common,
      s.compareHints possible append = .ok (s.matched.length, possible', append ++ common) ∧
        IsLongestCommonPrefix (s.cmd ++ common) s.matched) ∧
      ∀ inp : Input, inp.key = .byte Byte.tab →
        (s.mIndex ≤ s.cmd.length → ∃ s', s.readLine inp = .ok (s', [])) ∧
          ∀ s' res, s.readLine inp = .ok (s', res) →
            s.cmd <+: s'.cmd ∧ ∀ hint ∈ s.matched, s'.cmd <+: hint ++ [Byte.space] := by
  have hnul : ∀ hint ∈ s.hints, (0 : UInt8) ∉ hint := fun hint hh => (hhints hint hh).2
  refine ⟨fun hcmd hmany possible append => ?_, fun inp hkey => ?_⟩
  · obtain ⟨possible', hok⟩ := compareHints_append hnul hcmd hmany possible append
    have hne : s.matched ≠ [] := List.ne_nil_of_length_pos (by omega)
    exact ⟨possible', _, hok, extension_longest hnul (fun hint hh => (hhints hint hh).1) hne⟩
  set pressed : CmdLine := { s with c := Byte.tab } with hpressed
  have hcall := s.readLine_tab hkey
  constructor
  · intro hle
    obtain ⟨⟨count, possible, append⟩, hok⟩ := compareHints_ok (s := pressed) hnul [] []
    rw [hcall, tabKey_eq (s := pressed) hle hok]
    exact ⟨_, rfl⟩
  · intro s' res hres
    rw [hcall] at hres
    cases htab : pressed.tabKey with
    | error e =>
        rw [htab] at hres
        cases hres
    | ok s₁ =>
        rw [htab] at hres
        obtain rfl := congrArg Prod.fst (Except.ok.inj hres)
        exact @tabKey_isPrefix pressed s₁ hnul htab

/-- A second Tab on "show ". -/
theorem tab_completes_of_shared :
    let s := { start [bytesOf "help"] [bytesOf "show all", bytesOf "show alarms"] (bytesOf "> ") 0 9
      with cmd := bytesOf "show ", mIndex := 5 }
    IsLongestCommonPrefix (bytesOf "show al") s.matched ∧
      ∃ s', s.readLine ⟨.byte Byte.tab, (0, 0), []⟩ = .ok (s', []) ∧
        s.cmd <+: s'.cmd ∧ ∀ hint ∈ s.matched, s'.cmd <+: hint ++ [Byte.space] := by
  intro s
  obtain ⟨hmany, htab⟩ := tab_completes s (by decide)
  obtain ⟨possible, common, hok, hlongest⟩ := hmany (by decide) (by decide) [] []
  have hresult : s.compareHints [] [] = .ok (2, bytesOf " all  alarms ", bytesOf "al") := by
    decide
  obtain rfl : bytesOf "al" = common := congrArg (·.2.2) (Except.ok.inj (hresult.symm.trans hok))
  obtain ⟨hreturns, hpre⟩ := htab ⟨.byte Byte.tab, (0, 0), []⟩ rfl
  obtain ⟨s', hs'⟩ := hreturns (by decide)
  exact ⟨hlongest, s', hs', hpre s' [] hs'⟩

end Restore.CmdLine
