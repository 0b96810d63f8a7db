import Restore.Verification.Logger.Rotation
import Mathlib.Data.List.Nodup
import Mathlib.Data.List.Pairwise

/-! # When two output files of a run share a path

The path of an output file holds the second of its check and its number in that check.
A check that makes any file makes one with number 0. -/

namespace Restore.Logger

open BuffRing Pcap Gzip Counter

variable {Z : Type*}

namespace BasicBusinessLogger

/-! ## The text of a path -/

theorem decimal_inj {m n : ℕ} (h : decimal m = decimal n) : m = n := by
  have hvalue := congrArg (fun s => Nat.ofDigitChars 10 s 0) h
  simpa only [decimal, Nat.ofDigitChars_ten_toDigits] using hvalue

theorem decimal05_of_lt {n : ℕ} (h : n < 2 ^ 31) :
    decimal05 (word n) = List.replicate (5 - (decimal n).length) '0' ++ decimal n := by
  have hword : (word n).toNat = n := by
    rw [word_toNat]
    omega
  rw [decimal05]
  dsimp only
  rw [hword, if_pos h]

theorem decimal05_inj {m n : ℕ} (hm : m < 2 ^ 31) (hn : n < 2 ^ 31)
    (h : decimal05 (word m) = decimal05 (word n)) : m = n := by
  rw [decimal05_of_lt hm, decimal05_of_lt hn] at h
  have hvalue := congrArg (fun s => Nat.ofDigitChars 10 s 0) h
  simpa only [decimal, Nat.ofDigitChars_append, Nat.ofDigitChars_replicate_zero,
    Nat.mul_zero, Nat.ofDigitChars_ten_toDigits] using hvalue

theorem length_decimal05_le {n : ℕ} (h : n < 10 ^ 8) : (decimal05 (word n)).length ≤ 8 := by
  have hdigits : (decimal n).length ≤ 8 :=
    (Nat.length_toDigits_le_iff (by decide) (by decide)).mpr h
  rw [decimal05_of_lt (by omega), List.length_append, List.length_replicate]
  omega

/-- As long as nothing is cut off, a path determines the rendered second and the number. -/
theorem pathOf_inj {env : Env Z} {l : BasicBusinessLogger Z} (hpath : l.filePath.length ≤ 40932)
    {now now' m n : ℕ} (hm : m ≤ 2 ^ 26) (hn : n ≤ 2 ^ 26) (hnow : (env.strftime now).length = 14)
    (hnow' : (env.strftime now').length = 14)
    (h : (getFileGenTime env l now).pathOf (word m) = (getFileGenTime env l now').pathOf (word n)) :
    env.strftime now = env.strftime now' ∧ m = n := by
  have hwhole {now n : ℕ} (hn : n ≤ 2 ^ 26) (hnow : (env.strftime now).length = 14) :
      formatStr (l.filePath ++ '/' :: env.strftime now ++ decimal05 (word n) ++ ".txt".toList) =
        l.filePath ++ '/' :: env.strftime now ++ decimal05 (word n) ++ ".txt".toList := by
    have hserial := length_decimal05_le (n := n) (by omega)
    refine List.take_of_length_le ?_
    simp only [List.length_append, List.length_cons, hnow]
    have : ".txt".toList.length = 4 := rfl
    omega
  have htext : l.filePath ++ '/' :: env.strftime now ++ decimal05 (word m) ++ ".txt".toList =
      l.filePath ++ '/' :: env.strftime now' ++ decimal05 (word n) ++ ".txt".toList := by
    unfold pathOf outputFilePath getFileGenTime at h
    dsimp only at h
    rw [hwhole hm hnow, hwhole hn hnow'] at h
    split at h
    · exact List.append_cancel_right h
    · exact h
  have htail := List.append_cancel_right htext
  rw [List.append_assoc, List.append_assoc] at htail
  have hrest := List.append_cancel_left htail
  rw [List.cons_append, List.cons_append, List.cons.injEq] at hrest
  obtain ⟨hsecond, hserial⟩ := List.append_inj hrest.2 (hnow.trans hnow'.symm)
  exact ⟨hsecond, decimal05_inj (by omega) (by omega) hserial⟩

/-! ## Runs -/

variable (env : Env Z)

/-- The second of a check that makes output files. -/
def secondsOf (l : BasicBusinessLogger Z) : Event → List ℕ
  | .pushBack _ => []
  | .checkRotate clock => if l.writes env clock then [clock.now] else []

/-- The seconds of the checks of a run that make output files. -/
def writingSeconds (fresh : ℕ → PcapPacket) (l : BasicBusinessLogger Z) : List Event → List ℕ
  | [] => []
  | e :: es =>
      match l.step env fresh e with
      | .error _ => l.secondsOf env e
      | .ok l' => l.secondsOf env e ++ writingSeconds fresh l' es

/-- The paths of the first `n` output files of a check at second `now`. -/
def pathsOf (l : BasicBusinessLogger Z) (now n : ℕ) : List (List Char) :=
  (List.range n).map fun i => (getFileGenTime env l now).pathOf (word i)

variable {env}

theorem step_settings {fresh : ℕ → PcapPacket} {l l' : BasicBusinessLogger Z}
    {q : List PcapPacket} (h : l.Holds q) {e : Event} (hstep : l.step env fresh e = .ok l') :
    l'.filePath = l.filePath ∧ l'.compressType = l.compressType := by
  obtain ⟨_, mem, -, rfl⟩ | ⟨clock, mem, -, rfl⟩ := step_cases h hstep
  · exact ⟨rfl, rfl⟩
  · exact ⟨(drain_keeps env _ _ _ _).filePath, (drain_keeps env _ _ _ _).compressType⟩

theorem pathsOf_congr {l l' : BasicBusinessLogger Z} (hpath : l'.filePath = l.filePath)
    (htype : l'.compressType = l.compressType) (now n : ℕ) :
    l'.pathsOf env now n = l.pathsOf env now n := by
  unfold pathsOf pathOf outputFilePath getFileGenTime
  dsimp only
  rw [hpath, htype]

/-- One event adds the numbered files of at most one second. -/
theorem step_paths {fresh : ℕ → PcapPacket} {l l' : BasicBusinessLogger Z} {q : List PcapPacket}
    (h : l.Holds q) {e : Event} (hstep : l.step env fresh e = .ok l') :
    ∃ blocks : List (ℕ × ℕ), blocks.map Prod.fst = l.secondsOf env e ∧
      (∀ b ∈ blocks, 0 < b.2 ∧ b.2 ≤ 2 ^ 26 + 1) ∧
      l'.paths = l.paths ++ blocks.flatMap fun b => l.pathsOf env b.1 b.2 := by
  cases e with
  | pushBack packet =>
      obtain ⟨mem, hcall, -⟩ := pushBack_spec h packet
      simp only [step, hcall] at hstep
      obtain rfl := Except.ok.inj hstep
      exact ⟨[], rfl, by simp, (List.append_nil _).symm⟩
  | checkRotate clock =>
      obtain ⟨m, hm, hpaths, hzero⟩ := checkRotateCounted_paths env h hstep
      rw [secondsOf]
      split
      next hwrites =>
        refine ⟨[(clock.now, m)], rfl, ?_, ?_⟩
        · rw [List.forall_mem_singleton]
          refine ⟨Nat.pos_of_ne_zero fun hm => ?_, hm⟩
          rw [hzero.mp hm] at hwrites
          exact Bool.noConfusion hwrites
        · rw [List.flatMap_singleton]
          exact hpaths
      next hwrites =>
        refine ⟨[], rfl, by simp, ?_⟩
        rw [hzero.mpr (Bool.eq_false_of_not_eq_true hwrites)] at hpaths
        exact hpaths

/-- The output files of a run are the numbered files of its writing seconds. -/
theorem run_paths {fresh : ℕ → PcapPacket} (es : List Event) {l l' : BasicBusinessLogger Z}
    {q : List PcapPacket} (h : l.Holds q) (hrun : l.run env fresh es = .ok l') :
    ∃ blocks : List (ℕ × ℕ), blocks.map Prod.fst = l.writingSeconds env fresh es ∧
      (∀ b ∈ blocks, 0 < b.2 ∧ b.2 ≤ 2 ^ 26 + 1) ∧
      l'.paths = l.paths ++ blocks.flatMap fun b => l.pathsOf env b.1 b.2 := by
  induction es generalizing l q with
  | nil =>
      obtain rfl := Except.ok.inj hrun
      exact ⟨[], rfl, by simp, (List.append_nil _).symm⟩
  | cons e es ih =>
      obtain ⟨l₁, q₁, hstep, h₁⟩ := step_holds env h fresh e
      simp only [run, hstep] at hrun
      obtain ⟨first, hfirst, hcounts, hpaths⟩ := step_paths h hstep
      obtain ⟨rest, hrest, hcounts', hpaths'⟩ := ih h₁ hrun
      obtain ⟨hpath, htype⟩ := step_settings h hstep
      simp only [pathsOf_congr hpath htype] at hpaths'
      refine ⟨first ++ rest, ?_, ?_, ?_⟩
      · simp only [List.map_append, hfirst, hrest, writingSeconds, hstep]
      · exact List.forall_mem_append.mpr ⟨hcounts, hcounts'⟩
      · rw [hpaths', hpaths, List.flatMap_append, List.append_assoc]

/-! ## Distinct paths -/

theorem zero_mem_pathsOf (l : BasicBusinessLogger Z) (now : ℕ) {n : ℕ} (hn : 0 < n) :
    (getFileGenTime env l now).pathOf (word 0) ∈ l.pathsOf env now n :=
  List.mem_map.mpr ⟨0, List.mem_range.mpr hn, rfl⟩

/-- No two output files of a run have the same path exactly if no two of its checks that
make output files fall in the same second. -/
theorem paths_nodup_iff {fresh : ℕ → PcapPacket} {fuel : ℕ} {filePath : List Char}
    {rotateSize rotateCycle : UInt32} {compressType : UInt8} {uptime uptime' : ℕ}
    {slots : ℕ → PcapPacket} {storage : ℕ → UInt8} {gipHelper : GzipHelper Z}
    {l₀ l : BasicBusinessLogger Z} {es : List Event}
    (hinit : init env fuel filePath rotateSize rotateCycle compressType uptime uptime' slots
      storage gipHelper = some l₀) (hrun : l₀.run env fresh es = .ok l)
    (hpath : filePath.length ≤ 40932)
    (hwidth : ∀ now ∈ l₀.writingSeconds env fresh es, (env.strftime now).length = 14)
    (hdistinct : ∀ now ∈ l₀.writingSeconds env fresh es,
      ∀ now' ∈ l₀.writingSeconds env fresh es, env.strftime now = env.strftime now' → now = now') :
    (l.books.outputs.map Output.path).Nodup ↔ (l₀.writingSeconds env fresh es).Nodup := by
  obtain ⟨blocks, hseconds, hcounts, hpaths⟩ := run_paths es (init_holds hinit) hrun
  have hstart : l₀.paths = [] ∧ l₀.filePath = filePath := by
    rw [init, Option.map_eq_some_iff] at hinit
    obtain ⟨data, -, rfl⟩ := hinit
    exact ⟨rfl, rfl⟩
  have hmem {b : ℕ × ℕ} (hb : b ∈ blocks) : b.1 ∈ l₀.writingSeconds env fresh es :=
    hseconds ▸ List.mem_map_of_mem hb
  rw [hstart.1, List.nil_append, paths] at hpaths
  have hapart : (blocks.map Prod.fst).Nodup ↔ blocks.Pairwise fun a b => a.1 ≠ b.1 :=
    List.pairwise_map
  rw [hpaths, List.nodup_flatMap, ← hseconds, hapart]
  constructor
  · rintro ⟨-, hdisjoint⟩
    refine hdisjoint.imp_of_mem fun {a b} ha hb hab heq => ?_
    refine hab (zero_mem_pathsOf l₀ a.1 (hcounts a ha).1) ?_
    rw [heq]
    exact zero_mem_pathsOf l₀ b.1 (hcounts b hb).1
  · intro hnodup
    have hinj {a b : ℕ × ℕ} (ha : a ∈ blocks) (hb : b ∈ blocks) {i j : ℕ} (hi : i < a.2)
        (hj : j < b.2) (h : (getFileGenTime env l₀ a.1).pathOf (word i) =
          (getFileGenTime env l₀ b.1).pathOf (word j)) :
        env.strftime a.1 = env.strftime b.1 ∧ i = j := by
      have ha' := (hcounts a ha).2
      have hb' := (hcounts b hb).2
      exact pathOf_inj (by rw [hstart.2]; exact hpath) (by omega) (by omega)
        (hwidth _ (hmem ha)) (hwidth _ (hmem hb)) h
    refine ⟨fun b hb => ?_, hnodup.imp_of_mem fun {a b} ha hb hab => ?_⟩
    · refine List.Nodup.map_on (fun i hi j hj hij => ?_) List.nodup_range
      exact (hinj hb hb (List.mem_range.mp hi) (List.mem_range.mp hj) hij).2
    · intro p hpa hpb
      obtain ⟨i, hi, rfl⟩ := List.mem_map.mp hpa
      obtain ⟨j, hj, hij⟩ := List.mem_map.mp hpb
      exact hab (hdistinct _ (hmem ha) _ (hmem hb)
        (hinj hb ha (List.mem_range.mp hj) (List.mem_range.mp hi) hij).1.symm)

/-- Two checks that time out in different seconds make two files. -/
theorem paths_nodup_iff_of_two_checks :
    ∃ l, textLogger.run (textEnv fun _ => true) noPackets
        [.checkRotate ⟨10, 10, 0⟩, .checkRotate ⟨11, 11, 1⟩] = .ok l ∧
      textLogger.writingSeconds (textEnv fun _ => true) noPackets
        [.checkRotate ⟨10, 10, 0⟩, .checkRotate ⟨11, 11, 1⟩] = [0, 1] ∧
      l.books.outputs.length = 2 ∧ (l.books.outputs.map Output.path).Nodup := by
  have hseconds : textLogger.writingSeconds (textEnv fun _ => true) noPackets
      [.checkRotate ⟨10, 10, 0⟩, .checkRotate ⟨11, 11, 1⟩] = [0, 1] := rfl
  obtain ⟨l, hrun, htwo⟩ : ∃ l, textLogger.run (textEnv fun _ => true) noPackets
      [.checkRotate ⟨10, 10, 0⟩, .checkRotate ⟨11, 11, 1⟩] = .ok l ∧ l.books.outputs.length = 2 :=
    ⟨_, rfl, rfl⟩
  refine ⟨l, hrun, hseconds, htwo,
    (paths_nodup_iff (init_textLogger _) hrun (by decide) ?_ ?_).mpr ?_⟩
  all_goals
    rw [hseconds]
    decide

/-- A logger that has fallen behind its cycles times out twice in one second. -/
theorem paths_clash_after_stall :
    Function.Injective (textEnv fun _ => true).strftime ∧
    Reachable (textEnv fun _ => true) noPackets textLogger ∧
    ∃ l, textLogger.run (textEnv fun _ => true) noPackets
        [.checkRotate ⟨10, 10, 0⟩, .checkRotate ⟨10, 10, 0⟩] = .ok l ∧
      ¬(l.books.outputs.map Output.path).Nodup := by
  refine ⟨fun m n h => decimal_inj (List.append_cancel_left h), .init (init_textLogger _), _, rfl,
    ?_⟩
  decide

end BasicBusinessLogger

end Restore.Logger
