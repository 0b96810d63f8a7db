import Restore.Model.Rte
import Restore.Verification.Util.KeyValue
import Mathlib.Data.Nat.Digits.Defs

/-! # `.config` line by line

`fgets` cuts the file into pieces of at most 1023 bytes. A text whose lines are no longer is read
line by line, and each setting is that of the last line with its key. -/

namespace Restore

open StdString Util

namespace Config

/-! ## What a line says -/

/-- The key and the value of a line, both trimmed, if it is no comment and has a `=`. -/
def entry (line : Str) : Option (Str × Str) :=
  let line := strip whitespace line
  if line = [] ∨ IsComment line ∨ Byte.equalSign ∉ line then none
  else some (strip whitespace (line.takeWhile (· ≠ Byte.equalSign)),
    strip whitespace (line.dropWhile (· ≠ Byte.equalSign)).tail)

theorem entry_strip (line : Str) : entry (strip whitespace line) = entry line := by
  rw [entry, strip_strip]
  rfl

theorem entry_concat_newline (line : Str) : entry (line ++ [Byte.newline]) = entry line := by
  rw [← entry_strip, strip_concat (by decide), entry_strip]

/-- `GetKeyValueWithEqualSign` finds what the trimmed line says. -/
theorem getKeyValueWithEqualSign_strip (line : Str) :
    getKeyValueWithEqualSign (strip whitespace line) = match entry line with
      | none => some (0, [], [])
      | some (key, value) => some (1, key, orBlank value) := by
  rw [entry]
  generalize strip whitespace line = line
  split_ifs with h
  · rcases h with rfl | hcomment | hsign
    · rfl
    · exact getKeyValueWithEqualSign_of_comment hcomment
    · exact getKeyValueWithEqualSign_of_not_mem hsign
  · rw [not_or, not_or, not_not] at h
    obtain ⟨-, hcomment, hsign⟩ := h
    obtain ⟨key, rest, rfl, hkey⟩ := List.eq_append_cons_of_mem hsign
    obtain ⟨htake, hdrop⟩ := span_append_cons hkey rest
    rw [htake, hdrop]
    exact getKeyValueWithEqualSign_split hkey hcomment

/-! ## Numbers -/

/-- The number that a value begins with: decimal digits, behind white space and a sign if there
are any. A `long` holds it or the bound next to it, and an `int` its low bits. -/
def number (value : Str) : Int32 :=
  let s := value.dropWhile isSpace
  let unsigned := if s.head? = some 0x2D ∨ s.head? = some 0x2B then s.tail else s
  let digits := (unsigned.takeWhile isDigit).reverse.map fun c => c.toNat - 0x30
  let n : ℕ := Nat.ofDigits 10 digits
  Int32.ofInt (max (-2 ^ 63) (min (2 ^ 63 - 1) (if s.head? = some 0x2D then -n else n)))

theorem foldl_eq_ofDigits (digits : Str) :
    digits.foldl (fun n c => 10 * n + (c.toNat - 0x30)) 0 =
      Nat.ofDigits 10 (digits.reverse.map fun c => c.toNat - 0x30) := by
  rw [Nat.ofDigits_eq_foldr, List.foldr_map, List.foldr_reverse]
  simp only [Nat.cast_id, Nat.add_comm]

theorem dropWhile_cStr (value : Str) :
    (cStr value).dropWhile isSpace = cStr (value.dropWhile isSpace) := by
  induction value with
  | nil => rfl
  | cons c value ih =>
      by_cases hc : c = 0
      · subst hc
        rfl
      · have hcons (s : Str) : cStr (c :: s) = c :: cStr s := by simp [cStr, hc]
        rw [hcons]
        cases hspace : isSpace c with
        | true => simpa [hspace] using ih
        | false => simp [hspace, hcons]

theorem takeWhile_cStr (value : Str) :
    (cStr value).takeWhile isDigit = value.takeWhile isDigit := by
  rw [cStr, List.takeWhile_takeWhile]
  congr 1
  funext c
  by_cases hc : c = 0
  · subst hc
    rfl
  · simp [hc]

/-- A NUL byte ends a number like every other byte that is no digit. -/
theorem atoi_cStr (value : Str) : atoi (cStr value) = number value := by
  rw [atoi, strtol, number, dropWhile_cStr]
  simp only [← foldl_eq_ofDigits]
  cases value.dropWhile isSpace with
  | nil => rfl
  | cons c s =>
      by_cases hc : c = 0
      · subst hc
        rfl
      · have hcons : cStr (c :: s) = c :: cStr s := by simp [cStr, hc]
        have hdigits := takeWhile_cStr (c :: s)
        rw [hcons] at hdigits ⊢
        by_cases hminus : c = 0x2D
        · subst hminus
          simp [takeWhile_cStr]
        by_cases hplus : c = 0x2B
        · subst hplus
          simp [takeWhile_cStr]
        · simp [hminus, hplus, hdigits]

/-! ## What the lines say together -/

/-- The value of the last line with the key. -/
def lastValue (key : String) (lines : List Str) : Option Str :=
  (lines.filterMap entry).reverse.lookup (bytesOf key)

theorem lastValue_concat_of_none {line : Str} (h : entry line = none) (key : String)
    (lines : List Str) : lastValue key (lines ++ [line]) = lastValue key lines := by
  simp [lastValue, List.filterMap_append, h]

theorem lastValue_concat {line name value : Str} (h : entry line = some (name, value))
    (key : String) (lines : List Str) :
    lastValue key (lines ++ [line]) =
      if name = bytesOf key then some value else lastValue key lines := by
  rw [lastValue, List.filterMap_append, List.reverse_append, List.lookup_append]
  by_cases hkey : name = bytesOf key
  · simp [h, hkey]
  · simp [lastValue, h, hkey, Ne.symm hkey]

end Config

open Config

namespace Rte

/-- The settings that the lines make: each is that of the last line with its key, or its default.
`read` is what is read for a trimmed value. -/
def settings (read : Str → Str) (coreNum : Int64) (lines : List Str) : Rte where
  coreNum
  packetCoreNum := ((lastValue "packet_core_num" lines).map fun v => number (read v)).getD 8
  loggerCoreNum := ((lastValue "logger_core_num" lines).map fun v => number (read v)).getD 1
  isGzip := ((lastValue "is_gzip" lines).map fun v =>
    decide (read v = bytesOf "true" ∨ read v = bytesOf "TRUE")).getD false
  pcapFile := ((lastValue "pcap_file" lines).map read).getD (bytesOf "./test.pcap")

/-! ## One line -/

/-- A line with a key and a value assigns the value to the setting of the key. -/
def applyLine (rte : Rte) (line : Str) : Rte :=
  match entry line with
  | none => rte
  | some (key, value) => rte.assign key (orBlank value)

theorem applyLine_settings (coreNum : Int64) (lines : List Str) (line : Str) :
    (settings orBlank coreNum lines).applyLine line =
      settings orBlank coreNum (lines ++ [line]) := by
  rw [applyLine]
  cases h : entry line with
  | none => simp only [settings, lastValue_concat_of_none h]
  | some e =>
      obtain ⟨name, value⟩ := e
      simp only [settings, lastValue_concat h, assign, atoi_cStr]
      by_cases hpacket : name = bytesOf "packet_core_num"
      · subst hpacket
        simp +decide
      by_cases hlogger : name = bytesOf "logger_core_num"
      · subst hlogger
        simp +decide
      by_cases hgzip : name = bytesOf "is_gzip"
      · subst hgzip
        by_cases htrue : orBlank value = bytesOf "true" ∨ orBlank value = bytesOf "TRUE"
        · simp +decide [htrue]
        · rw [if_neg htrue]
          rw [not_or] at htrue
          simp +decide [htrue]
      by_cases hpcap : name = bytesOf "pcap_file"
      · subst hpcap
        simp +decide
      · -- the key is none of the four
        simp [hpacket, hlogger, hgzip, hpcap]

theorem foldl_applyLine (coreNum : Int64) (lines : List Str) :
    lines.foldl applyLine { coreNum } = settings orBlank coreNum lines := by
  induction lines using List.reverseRecOn with
  | nil => rfl
  | append_singleton lines line ih => rw [List.foldl_concat, ih, applyLine_settings]

theorem readLine_eq (rte : Rte) (buf : Str) :
    rte.readLine buf = some (rte.applyLine (cStr buf)) := by
  simp only [readLine, trim_eq, Option.bind_eq_bind, Option.bind_some,
    getKeyValueWithEqualSign_strip, applyLine]
  cases entry (cStr buf) <;> rfl

/-! ## The loop -/

/-- The round on a line, with or without its newline, applies the line. -/
theorem readLine_line (rte : Rte) {line : Str} (hnul : 0 ∉ line) :
    rte.readLine line = some (rte.applyLine line) ∧
      rte.readLine (line ++ [Byte.newline]) = some (rte.applyLine line) := by
  have hnul' : 0 ∉ line ++ [Byte.newline] := by
    rw [List.mem_append, not_or]
    exact ⟨hnul, by decide⟩
  rw [readLine_eq, readLine_eq, cStr_eq_self hnul, cStr_eq_self hnul']
  refine ⟨rfl, congrArg some ?_⟩
  rw [applyLine, entry_concat_newline]
  rfl

theorem readLine_pieces (rte : Rte) {line : Str} (hnul : 0 ∉ line) (hfit : line.length ≤ 1023) :
    (Stdio.pieces 1023 line).foldlM readLine rte = some (rte.applyLine line) := by
  obtain ⟨hline, hwhole⟩ := rte.readLine_line hnul
  rcases Stdio.pieces_of_fits (by decide) hfit with h | h
  · rw [h, List.foldlM_cons, hwhole]
    rfl
  · -- the newline by itself says nothing
    have hnewline (rte : Rte) : rte.readLine [Stdio.newline] = some rte :=
      rte.readLine_eq [Byte.newline]
    rw [h, List.foldlM_cons, hline, Option.bind_eq_bind, Option.bind_some, List.foldlM_cons,
      hnewline]
    rfl

theorem foldlM_readLine {text : Str} {fuel : ℕ} (hnul : 0 ∉ text)
    (hfit : ∀ line ∈ text.splitOn Byte.newline, line.length ≤ 1023)
    (hfuel : text.length ≤ fuel) (rte : Rte) :
    (Stdio.fgetsLoop 1024 fuel text).foldlM readLine rte =
      some ((text.splitOn Byte.newline).foldl (applyLine) rte) := by
  induction hlen : text.length using Nat.strong_induction_on generalizing text fuel rte with
  | _ n ih =>
    by_cases hmem : Byte.newline ∈ text
    · obtain ⟨line, rest, rfl, hline⟩ := List.eq_append_cons_of_mem hmem
      rw [List.splitOn_append_cons_self_of_not_mem hline, List.forall_mem_cons] at hfit
      obtain ⟨left, hleft, hloop⟩ :=
        Stdio.fgetsLoop_line (by decide : 1 < 1024) hline hfuel
      have hnul₁ : 0 ∉ line := fun h => hnul (List.mem_append_left _ h)
      have hnul₂ : 0 ∉ rest := fun h => hnul (by simp [h])
      rw [hloop, List.splitOn_append_cons_self_of_not_mem hline, List.foldlM_append,
        rte.readLine_pieces hnul₁ hfit.1, List.foldl_cons]
      refine ih rest.length ?_ hnul₂ hfit.2 hleft _ rfl
      rw [← hlen, List.length_append, List.length_cons]
      omega
    · rw [List.splitOn_eq_singleton hmem, List.forall_mem_singleton] at hfit
      rw [List.splitOn_eq_singleton hmem, Stdio.fgetsLoop_last hmem hfit hfuel]
      split
      · rename_i hnil
        subst hnil
        rfl
      · rw [List.foldlM_cons, (rte.readLine_line hnul).1]
        rfl

/-- The settings that a text without NUL bytes makes are those of its lines, with a blank for an
empty value. No line may have more than 1023 bytes. -/
theorem init_eq_settings (coreNum : Int64) (text : Str) (hnul : 0 ∉ text)
    (hfit : ∀ line ∈ text.splitOn Byte.newline, line.length ≤ 1023) :
    init coreNum (some text) =
      some (settings orBlank coreNum (text.splitOn Byte.newline)) := by
  rw [← foldl_applyLine]
  exact foldlM_readLine hnul hfit le_rfl _

/-- A comment, a key that comes twice and one that is not known. -/
def gzipText : Str :=
  bytesOf "#is_gzip=false\nis_gzip = true\npacket_core_num=2\nverbose=1\npacket_core_num=+4"

theorem init_eq_settings_gzip :
    init 4 (some gzipText) = some { coreNum := 4, packetCoreNum := 4, isGzip := true } := by
  have hnul : 0 ∉ gzipText := by decide
  have hfit : ∀ line ∈ gzipText.splitOn Byte.newline, line.length ≤ 1023 := by decide
  rw [init_eq_settings 4 gzipText hnul hfit]
  decide

/-- A comment that fills the buffer, and goes on behind it. -/
def longComment : Str :=
  Byte.hash :: List.replicate 1022 Byte.space ++ bytesOf "packet_core_num=1"

/-- An empty `pcap_file` is a blank, and the end of a long comment is read as a line. -/
theorem init_ne_settings :
    (0 ∉ bytesOf "pcap_file=" ∧ init 4 (some (bytesOf "pcap_file=")) ≠
      some (settings id 4 ((bytesOf "pcap_file=").splitOn Byte.newline))) ∧
    0 ∉ longComment ∧ init 4 (some longComment) ≠
      some (settings id 4 (longComment.splitOn Byte.newline)) := by
  refine ⟨⟨by decide, by decide⟩, by decide +kernel, by decide +kernel⟩

end Rte

end Restore
