import Restore.Verification.CmdLine.Matches

/-! # Removing the main command from the listed matches

`compareHints` removes as many occurrences of the main command as there are matches, always the
first one in the text. The listing is right when each of these searches ends at the beginning of
the next match. -/

namespace Restore.CmdLine

open StdString
open scoped List

variable {main : Str}

/-! ## One search -/

/-- One round of the loop: the text without the first occurrence of the main command. -/
def cut (main text : Str) : Option Str :=
  (find (cStr main) text).map fun n => text.take n ++ text.drop (n + main.length)

theorem eraseMainCmd_succ (main text : Str) (n : ℕ) :
    eraseMainCmd main (n + 1) text =
      match cut main text with
      | some text => eraseMainCmd main n text
      | none => .error .notFound := by
  rw [eraseMainCmd, cut]
  cases hfind : find (cStr main) text with
  | none => rfl
  | some k =>
      simp only [StdString.erase, (isPrefix_of_find hfind).1, if_true]
      rfl

theorem cut_sublist {text text' : Str} (h : cut main text = some text') : text' <+ text := by
  obtain ⟨n, -, rfl⟩ := Option.map_eq_some_iff.mp h
  conv_rhs => rw [← List.take_append_drop n text]
  rw [List.append_sublist_append_left, ← List.drop_drop]
  exact List.drop_sublist ..

theorem eraseMainCmd_sublist {n : ℕ} {text text' : Str}
    (h : eraseMainCmd main n text = .ok text') : text' <+ text := by
  induction n generalizing text with
  | zero =>
      obtain rfl := Except.ok.inj h
      exact .refl _
  | succ n ih =>
      rw [eraseMainCmd_succ] at h
      cases hcut : cut main text with
      | none => rw [hcut] at h; cases h
      | some text₁ =>
          rw [hcut] at h
          exact (ih h).trans (cut_sublist hcut)

theorem cStr_isPrefix (s : Str) : cStr s <+: s := List.takeWhile_prefix _

theorem not_mem_cStr (hsp : Byte.space ∉ main) : Byte.space ∉ cStr main :=
  fun h => hsp ((cStr_isPrefix main).subset h)

/-- A part of the text without occurrences stays as it is. -/
theorem eraseMainCmd_append (hsp : Byte.space ∉ main) {v : Str} (hv : ¬ cStr main <:+: v) (n : ℕ)
    (text : Str) :
    eraseMainCmd main n (v ++ Byte.space :: text) =
      (v ++ Byte.space :: ·) <$> eraseMainCmd main n text := by
  induction n generalizing text with
  | zero => rfl
  | succ n ih =>
      rw [eraseMainCmd_succ, eraseMainCmd_succ, cut, cut,
        find_append_sep (not_mem_cStr hsp) hv]
      cases find (cStr main) text with
      | none => rfl
      | some k =>
          have htake : (v ++ Byte.space :: text).take (k + (v.length + 1)) =
              v ++ Byte.space :: text.take k := by
            rw [Nat.add_comm, Nat.add_assoc, List.take_length_add_append, Nat.add_comm 1,
              List.take_succ_cons]
          have hdrop : (v ++ Byte.space :: text).drop (k + (v.length + 1) + main.length) =
              text.drop (k + main.length) := by
            rw [show k + (v.length + 1) + main.length = v.length + (k + main.length + 1) by omega,
              List.drop_length_add_append, List.drop_succ_cons]
          simp only [Option.map_some, htake, hdrop, List.append_assoc, List.cons_append]
          exact ih _

/-- A round that reaches into a part which is to stay leaves no way to the expected text: the
part has become shorter, or a space has gone. -/
theorem eraseMainCmd_ne_of_isInfix (hmain : main ≠ []) {v : Str} (hv : cStr main <:+: v) {n : ℕ}
    {text expected : Str} (hcount : text.count Byte.space ≤ expected.count Byte.space) :
    eraseMainCmd main (n + 1) (v ++ Byte.space :: text) ≠ .ok (v ++ Byte.space :: expected) := by
  intro h
  obtain ⟨k, hk⟩ := Option.isSome_iff_exists.mp (find_isSome_iff.mpr hv)
  have hle := (isPrefix_of_find hk).1
  have hpos := List.length_pos_iff.mpr hmain
  rw [eraseMainCmd_succ, cut, find_append_left hk, Option.map_some] at h
  have hsub := eraseMainCmd_sublist h
  rw [List.take_append_of_le_length hle] at hsub
  rcases le_or_gt (k + main.length) v.length with hin | hout
  · rw [List.drop_append_of_le_length hin, ← List.append_assoc] at hsub
    have hlen := (sublist_of_sep hsub hcount).length_le
    simp only [List.length_append, List.length_take, List.length_drop] at hlen
    omega
  · obtain ⟨j, hj⟩ : ∃ j, k + main.length = v.length + (j + 1) :=
      ⟨k + main.length - v.length - 1, by omega⟩
    rw [hj, List.drop_length_add_append, List.drop_succ_cons] at hsub
    have hspaces := hsub.count_le Byte.space
    have htake := (List.take_sublist k v).count_le Byte.space
    have hdrop := (List.drop_sublist j text).count_le Byte.space
    simp only [List.count_append, List.count_cons_self] at hspaces
    omega

/-- A round at the head of a match shortens it to the length of what stood before the main
command. -/
theorem eraseMainCmd_head (main pre : Str) :
    ∃ pre', cut main (pre ++ main) = some pre' ∧ pre'.length = pre.length ∧
      ∀ n text, eraseMainCmd main (n + 1) (pre ++ main ++ Byte.space :: text) =
        eraseMainCmd main n (pre' ++ Byte.space :: text) := by
  have hhead : cStr main <+: (pre ++ main).drop pre.length := by
    rw [List.drop_left]
    exact cStr_isPrefix main
  obtain ⟨k, hk, hfind⟩ := find_le_of_isPrefix (by simp) hhead
  have hle : k + main.length ≤ (pre ++ main).length := by
    rw [List.length_append]
    omega
  refine ⟨_, by rw [cut, hfind]; rfl, ?_, fun n text => ?_⟩
  · simp only [List.length_append, List.length_take, List.length_drop]
    omega
  · rw [eraseMainCmd_succ, cut, find_append_left hfind, Option.map_some,
      List.take_append_of_le_length (by omega), List.drop_append_of_le_length hle,
      List.append_assoc]

/-! ## All matches -/

/-- Each search finds the head of the next match and takes exactly the main command. `pre` is
what stands before the first of these matches. -/
def Separates (main : Str) : Str → ℕ → List Str → Prop
  | _, _, [] => True
  | pre, i, hint :: hints =>
      cut main (pre ++ main) = some pre ∧
        (hints ≠ [] → ¬ cStr main <:+: pre ∧ ¬ cStr main <:+: hint.drop main.length) ∧
        Separates main (breakAfter (i + 1)) (i + 1) hints

theorem count_listing_drop (hsp : Byte.space ∉ main) {hints : List Str}
    (hhints : ∀ hint ∈ hints, main <+: hint) (i : ℕ) :
    (listing i hints).count Byte.space =
      (listing i (hints.map (·.drop main.length))).count Byte.space := by
  induction hints generalizing i with
  | nil => rfl
  | cons hint hints ih =>
      obtain ⟨rest, rfl⟩ := hhints hint (by simp)
      have hnone := List.count_eq_zero.mpr hsp
      simp only [List.map_cons, listing, List.count_append, List.drop_left, hnone, Nat.zero_add,
        List.count_cons_self, ih (fun h hh => hhints h (List.mem_cons_of_mem _ hh))]

/-- What is left of a match, `pre ++ " " ++ u`, has to be passed over by the searches for the
others. -/
theorem eraseMainCmd_rest_iff (hmain : main ≠ []) (hsp : Byte.space ∉ main) {hints : List Str}
    {pre u text expected : Str} {P : Prop}
    (hcount : text.count Byte.space ≤ expected.count Byte.space)
    (hrest : eraseMainCmd main hints.length text = .ok expected ↔ P) :
    eraseMainCmd main hints.length (pre ++ Byte.space :: (u ++ Byte.space :: text)) =
        .ok (pre ++ Byte.space :: (u ++ Byte.space :: expected)) ↔
      (hints ≠ [] → ¬ cStr main <:+: pre ∧ ¬ cStr main <:+: Byte.space :: u) ∧ P := by
  have hassoc (t : Str) : pre ++ Byte.space :: (u ++ Byte.space :: t) =
      (pre ++ Byte.space :: u) ++ Byte.space :: t := by simp
  rw [hassoc, hassoc]
  cases hints with
  | nil =>
      rw [← hrest]
      simp [eraseMainCmd]
  | cons hint hints =>
      rw [and_congr_left_iff.mpr fun _ => imp_iff_right (List.cons_ne_nil hint hints)]
      by_cases hv : cStr main <:+: pre ++ Byte.space :: u
      · refine iff_of_false (eraseMainCmd_ne_of_isInfix hmain hv hcount) fun h => ?_
        rcases (isInfix_append_sep (not_mem_cStr hsp)).mp hv with hpre | hu
        · exact h.1.1 hpre
        · exact h.1.2 (List.infix_cons hu)
      · have hclear : ¬ cStr main <:+: pre ∧ ¬ cStr main <:+: Byte.space :: u :=
          ⟨fun h => hv (h.trans (List.prefix_append _ _).isInfix),
            fun h => hv (h.trans (List.suffix_append _ _).isInfix)⟩
        rw [eraseMainCmd_append hsp hv, and_iff_right hclear, ← hrest]
        cases eraseMainCmd main (hint :: hints).length text with
        | error e => exact iff_of_false (fun h => by cases h) (fun h => by cases h)
        | ok text' => simp [Functor.map, Except.map]

theorem eraseMainCmd_listing_iff (hmain : main ≠ []) (hsp : Byte.space ∉ main) {hints : List Str}
    (hhints : ∀ hint ∈ hints, main ++ [Byte.space] <+: hint) (pre : Str) (i : ℕ) :
    eraseMainCmd main hints.length (pre ++ listing i hints) =
        .ok (pre ++ listing i (hints.map (·.drop main.length))) ↔
      Separates main pre i hints := by
  induction hints generalizing pre i with
  | nil => exact iff_of_true rfl trivial
  | cons hint hints ih =>
      obtain ⟨u, rfl⟩ := hhints hint (by simp)
      have hrest : ∀ hint ∈ hints, main ++ [Byte.space] <+: hint := fun h hh =>
        hhints h (List.mem_cons_of_mem _ hh)
      obtain ⟨pre', hcut, hlen, hround⟩ := eraseMainCmd_head main pre
      set text := breakAfter (i + 1) ++ listing (i + 1) hints with htext
      set expected := breakAfter (i + 1) ++
        listing (i + 1) (hints.map (·.drop main.length)) with hexpected
      have hdrop : (main ++ [Byte.space] ++ u).drop main.length = Byte.space :: u := by simp
      have hcount : text.count Byte.space ≤ expected.count Byte.space := by
        have hsame := count_listing_drop hsp
          (fun h hh => (List.prefix_append _ _).trans (hrest h hh)) (i + 1)
        simp only [htext, hexpected, List.count_append, hsame]
        exact le_rfl
      have hleft : pre ++ listing i ((main ++ [Byte.space] ++ u) :: hints) =
          pre ++ main ++ Byte.space :: (u ++ Byte.space :: text) := by
        simp [listing, htext]
      have hright : pre ++ listing i
          (((main ++ [Byte.space] ++ u) :: hints).map (·.drop main.length)) =
          pre ++ Byte.space :: (u ++ Byte.space :: expected) := by
        simp [listing, hexpected]
      rw [hleft, hright, List.length_cons, hround, Separates, hcut, hdrop, Option.some.injEq]
      by_cases hpre : pre' = pre
      · subst hpre
        rw [and_iff_right rfl]
        exact eraseMainCmd_rest_iff hmain hsp hcount (ih hrest _ _)
      · -- the line before the main command would be a part of one of the same length
        refine iff_of_false (fun h => hpre ?_) fun h => hpre h.1
        have hmore : (u ++ Byte.space :: text).count Byte.space ≤
            (u ++ Byte.space :: expected).count Byte.space := by
          simp only [List.count_append, List.count_cons_self]
          omega
        exact ((sublist_of_sep (eraseMainCmd_sublist h) hmore).eq_of_length hlen.symm).symm

/-! ## When the listing is right -/

/-- No match but the last contains the main command once more; and the newlines of the listing,
if there are any before a match, are not taken for the main command or its beginning. -/
def Separable (main : Str) (hints : List Str) : Prop :=
  (∀ hint ∈ hints.dropLast, ¬ cStr main <:+: hint.drop main.length) ∧
    (5 < hints.length → ¬ cStr main <:+: [Byte.newline]) ∧
    (4 < hints.length → cStr main <+: Byte.newline :: main →
      main.getLast? = some Byte.newline)

theorem cut_self (main : Str) : cut main main = some [] := by
  rw [cut, find_of_isPrefix (cStr_isPrefix main)]
  simp

theorem cut_newline_iff (hmain : main ≠ []) :
    cut main (Byte.newline :: main) = some [Byte.newline] ↔
      (cStr main <+: Byte.newline :: main → main.getLast? = some Byte.newline) := by
  by_cases hpre : cStr main <+: Byte.newline :: main
  · obtain ⟨rest, x, rfl⟩ : ∃ rest x, main = rest ++ [x] :=
      ⟨_, _, (List.dropLast_append_getLast hmain).symm⟩
    rw [imp_iff_right hpre, cut, find_of_isPrefix hpre]
    simp
  · refine iff_of_true ?_ fun h => absurd h hpre
    rw [cut, find_cons_of_not_isPrefix hpre, find_of_isPrefix (cStr_isPrefix main)]
    simp [Nat.add_comm 1]

theorem forall_from_iff {P : ℕ → Prop} {i n : ℕ} :
    (∀ j, i ≤ j → j < i + (n + 1) → P j) ↔ P i ∧ ∀ j, i + 1 ≤ j → j < i + 1 + n → P j := by
  constructor
  · exact fun h => ⟨h i le_rfl (by omega), fun j hi hj => h j (by omega) (by omega)⟩
  · rintro ⟨hP, h⟩ j hi hj
    rcases Nat.eq_or_lt_of_le hi with rfl | hlt
    · exact hP
    · exact h j hlt (by omega)

/-- A newline stands before the `j`-th match, counted from 0, when 4 divides `j`. -/
theorem separates_iff (hint : Str) (hints : List Str) (i : ℕ) :
    Separates main (breakAfter i) i (hint :: hints) ↔
      (∀ h ∈ (hint :: hints).dropLast, ¬ cStr main <:+: h.drop main.length) ∧
        (∀ j, i ≤ j → j < i + hints.length → j % 4 = 0 → ¬ cStr main <:+: [Byte.newline]) ∧
        ∀ j, i ≤ j → j < i + (hints.length + 1) → j % 4 = 0 →
          cut main (Byte.newline :: main) = some [Byte.newline] := by
  have hcut (i : ℕ) : cut main (breakAfter i ++ main) = some (breakAfter i) ↔
      (i % 4 = 0 → cut main (Byte.newline :: main) = some [Byte.newline]) := by
    by_cases hfour : i % 4 = 0 <;> simp [breakAfter, hfour, cut_self]
  induction hints generalizing hint i with
  | nil =>
      rw [Separates, hcut, forall_from_iff, List.length_nil]
      refine ⟨fun h => ⟨by simp, fun j hi hj => by omega, h.1, fun j hi hj => by omega⟩,
        fun h => ⟨h.2.2.1, fun hne => absurd rfl hne, trivial⟩⟩
  | cons next hints ih =>
      have hbreak (hdrop : ¬ cStr main <:+: hint.drop main.length) :
          ¬ cStr main <:+: breakAfter i ↔ (i % 4 = 0 → ¬ cStr main <:+: [Byte.newline]) := by
        by_cases hfour : i % 4 = 0
        · simp [breakAfter, hfour]
        · refine iff_of_true (fun h => hdrop ?_) fun h => absurd h hfour
          rw [breakAfter, if_neg hfour, List.infix_nil] at h
          rw [h]
          exact List.nil_infix
      have hrest : Separates main (breakAfter (i + 1)) (i + 1) (next :: hints) ↔ _ :=
        ih next (i + 1)
      rw [Separates, hcut, hrest, List.length_cons,
        List.dropLast_cons_of_ne_nil (List.cons_ne_nil next hints), List.forall_mem_cons]
      constructor
      · rintro ⟨hi, hclear, hlast, hinner, houter⟩
        obtain ⟨hpre, hdrop⟩ := hclear (List.cons_ne_nil _ _)
        exact ⟨⟨hdrop, hlast⟩, forall_from_iff.mpr ⟨(hbreak hdrop).mp hpre, hinner⟩,
          forall_from_iff.mpr ⟨hi, houter⟩⟩
      · rintro ⟨⟨hdrop, hlast⟩, hinner, houter⟩
        obtain ⟨hpre, hinner⟩ := forall_from_iff.mp hinner
        obtain ⟨hi, houter⟩ := forall_from_iff.mp houter
        exact ⟨hi, fun _ => ⟨(hbreak hdrop).mpr hpre, hdrop⟩, hlast, hinner, houter⟩

theorem separable_iff (hmain : main ≠ []) {hints : List Str} (hmany : 2 ≤ hints.length) :
    Separates main [] 0 hints ↔ Separable main hints := by
  obtain ⟨hint, next, hints, rfl⟩ : ∃ h₁ h₂ t, hints = h₁ :: h₂ :: t := by
    rcases hints with _ | ⟨h₁, _ | ⟨h₂, t⟩⟩
    · simp at hmany
    · simp at hmany
    · exact ⟨h₁, h₂, t, rfl⟩
  have hnil (hdrop : ¬ cStr main <:+: hint.drop main.length) : ¬ cStr main <:+: [] := by
    intro h
    rw [List.infix_nil.mp h] at hdrop
    exact hdrop List.nil_infix
  rw [Separates, separates_iff, Separable, ← cut_newline_iff hmain,
    List.dropLast_cons_of_ne_nil (List.cons_ne_nil next hints), List.forall_mem_cons,
    List.length_cons, List.length_cons, List.nil_append, cut_self, and_iff_right rfl]
  constructor
  · rintro ⟨hclear, hlast, hinner, houter⟩
    exact ⟨⟨(hclear (List.cons_ne_nil _ _)).2, hlast⟩,
      fun hlen => hinner 4 (by omega) (by omega) rfl,
      fun hlen => houter 4 (by omega) (by omega) rfl⟩
  · rintro ⟨⟨hdrop, hlast⟩, hinner, houter⟩
    exact ⟨fun _ => ⟨hnil hdrop, hdrop⟩, hlast, fun j hi hj hfour => hinner (by omega),
      fun j hi hj hfour => houter (by omega)⟩

/-! ## Searches that fail -/

/-- `n` pieces of text, each with the main command in it and followed by a space. -/
def Supplies (main : Str) : ℕ → Str → Prop
  | 0, _ => True
  | n + 1, text => ∃ v rest, text = v ++ Byte.space :: rest ∧ main <:+: v ∧ Supplies main n rest

theorem Supplies.append {n : ℕ} {text : Str} (h : Supplies main n text) (v : Str) :
    Supplies main n (v ++ Byte.space :: text) := by
  cases n with
  | zero => trivial
  | succ n =>
      obtain ⟨w, rest, rfl, hw, hrest⟩ := h
      exact ⟨v ++ Byte.space :: w, rest, by simp, hw.trans ⟨v ++ [Byte.space], [], by simp⟩, hrest⟩

theorem Supplies.listing {hints : List Str} (hhints : ∀ hint ∈ hints, main <:+: hint) (pre : Str)
    (i : ℕ) : Supplies main hints.length (pre ++ listing i hints) := by
  induction hints generalizing pre i with
  | nil => trivial
  | cons hint hints ih =>
      refine ⟨pre ++ hint, _, by simp [CmdLine.listing], ?_, ih
        (fun h hh => hhints h (List.mem_cons_of_mem _ hh)) (breakAfter (i + 1)) (i + 1)⟩
      exact (hhints hint (by simp)).trans (List.suffix_append _ _).isInfix

/-- A main command without NUL characters is found as often as there are matches. -/
theorem Supplies.eraseMainCmd_ok (hnul : (0 : UInt8) ∉ main) {n : ℕ} {text : Str}
    (h : Supplies main n text) : ∃ text', eraseMainCmd main n text = .ok text' := by
  induction n generalizing text with
  | zero => exact ⟨text, rfl⟩
  | succ n ih =>
      obtain ⟨v, rest, rfl, hv, hrest⟩ := h
      obtain ⟨k, hk⟩ := Option.isSome_iff_exists.mp (find_isSome_iff.mpr hv)
      obtain ⟨hle, hpre⟩ := isPrefix_of_find hk
      have hlen : k + main.length ≤ v.length := by
        have hfit := hpre.length_le
        rw [List.length_drop] at hfit
        omega
      rw [eraseMainCmd_succ, cut, cStr_eq_self hnul, find_append_left hk, Option.map_some,
        List.take_append_of_le_length hle, List.drop_append_of_le_length hlen, ← List.append_assoc]
      exact ih (hrest.append _)

/-! ## The listing of `compareHints` -/

theorem mainCmd_eq (cmd : Str) : mainCmd cmd = cmd.takeWhile (· ≠ Byte.space) := by
  induction cmd with
  | nil => rfl
  | cons x cmd ih =>
      rw [mainCmd] at ih ⊢
      by_cases hx : x = Byte.space
      · subst hx
        rw [find_of_isPrefix (by simp)]
        simp
      · have hpre : ¬ [Byte.space] <+: x :: cmd := by simpa using Ne.symm hx
        rw [find_cons_of_not_isPrefix hpre, List.takeWhile_cons_of_pos (by simpa using hx), ← ih]
        cases find [Byte.space] cmd <;> rfl

theorem space_not_mem_mainCmd (cmd : Str) : Byte.space ∉ mainCmd cmd := by
  rw [mainCmd_eq]
  intro h
  simpa using List.mem_takeWhile_imp h

theorem mainCmd_isPrefix {cmd : Str} (hsub : Byte.space ∈ cmd) :
    mainCmd cmd ++ [Byte.space] <+: cmd := by
  have hrest : cmd.dropWhile (· ≠ Byte.space) ≠ [] := by
    rw [ne_eq, List.dropWhile_eq_nil_iff]
    exact fun h => by simpa using h _ hsub
  have hhead := List.head_dropWhile_not (fun c => decide (c ≠ Byte.space)) hrest
  rw [decide_eq_false_iff_not, not_not] at hhead
  rw [mainCmd_eq]
  conv_rhs => rw [← @List.takeWhile_append_dropWhile _ (fun c => decide (c ≠ Byte.space)) cmd]
  rw [List.prefix_append_right_inj, ← List.cons_head_tail hrest, hhead]
  exact ⟨_, rfl⟩

theorem matched_of_space {s : CmdLine} (hsub : Byte.space ∈ s.cmd) :
    s.matched = s.hints.filter (Extends s.cmd ·) := by
  rw [matched_eq, matchesFrom_of_space hsub]
  simp [Completes, hsub]

theorem mainCmd_isPrefix_of_mem {s : CmdLine} (hsub : Byte.space ∈ s.cmd) {hint : Str}
    (hhint : hint ∈ s.hints.filter (Extends s.cmd ·)) :
    mainCmd s.cmd ++ [Byte.space] <+: hint := by
  have hext : Extends s.cmd hint := by simpa using List.of_mem_filter hhint
  exact (mainCmd_isPrefix hsub).trans hext.1

theorem eraseMainCmd_nil (n : ℕ) (text : Str) : eraseMainCmd [] n text = .ok text := by
  induction n with
  | zero => rfl
  | succ n ih =>
      rw [eraseMainCmd_succ, cut, show cStr [] = [] from rfl, find_of_isPrefix List.nil_prefix]
      simpa using ih

/-- With a main command and two matches or more, every search succeeds and the text is the list
of the matches without their main commands exactly if the main command is empty or the searches
keep the matches apart. -/
theorem possible_eq_listing_iff (s : CmdLine) (hsub : Byte.space ∈ s.cmd)
    (hmany : 2 ≤ (s.hints.filter (Extends s.cmd ·)).length) (possible append : Str) :
    let main := mainCmd s.cmd
    let found := s.hints.filter (Extends s.cmd ·)
    (∃ append', s.compareHints possible append =
        .ok (found.length, listing 0 (found.map (·.drop main.length)), append')) ↔
      main = [] ∨ Separable main found := by
  intro main found
  have hcmd : s.cmd ≠ [] := List.ne_nil_of_mem hsub
  have hhints : ∀ hint ∈ found, main ++ [Byte.space] <+: hint :=
    fun hint => mainCmd_isPrefix_of_mem hsub
  have hresult : (∃ append', s.compareHints possible append =
      .ok (found.length, listing 0 (found.map (·.drop main.length)), append')) ↔
      eraseMainCmd main found.length (listing 0 found) =
        .ok (listing 0 (found.map (·.drop main.length))) := by
    rw [compareHints_many hcmd (by rwa [matched_of_space hsub]), matched_of_space hsub,
      if_pos hsub]
    cases eraseMainCmd main found.length (listing 0 found) with
    | error e =>
        refine iff_of_false ?_ fun h => by cases h
        rintro ⟨append', h⟩
        cases h
    | ok text => simp [Functor.map, Except.map, found]
  rw [hresult]
  by_cases hmain : main = []
  · refine iff_of_true ?_ (.inl hmain)
    rw [hmain, eraseMainCmd_nil]
    simp
  · rw [or_iff_right hmain, ← separable_iff hmain hmany]
    exact eraseMainCmd_listing_iff hmain (space_not_mem_mainCmd s.cmd) hhints [] 0

/-- With "a a" and "a c", Tab on "a " takes the sub-command of the first match for the second
main command. -/
theorem possible_eats_subcommand :
    let s := { start [bytesOf "help"] [bytesOf "a a", bytesOf "a c"] (bytesOf "> ") 0 0 with
      cmd := bytesOf "a " }
    s.compareHints [] [] = .ok (2, bytesOf "  a c ", []) ∧
      listing 0 ((s.hints.filter (Extends s.cmd ·)).map (·.drop (mainCmd s.cmd).length)) =
        bytesOf " a  c " ∧
      bytesOf " a  c " ≠ bytesOf "  a c " := by
  decide

/-- With "a b" before "a a", Tab on "a " lists both sub-commands. -/
theorem possible_eq_listing_of_apart :
    let s := { start [bytesOf "help"] [bytesOf "a b", bytesOf "a a"] (bytesOf "> ") 0 0 with
      cmd := bytesOf "a " }
    Separable (mainCmd s.cmd) s.hints ∧
      ∃ append', s.compareHints [] [] = .ok (2, bytesOf " b  a ", append') := by
  intro s
  have hapart : Separable (mainCmd s.cmd) s.hints := ⟨by decide, by decide, by decide⟩
  exact ⟨hapart, (possible_eq_listing_iff s (by decide) (by decide) [] []).mpr (.inr hapart)⟩

end Restore.CmdLine
