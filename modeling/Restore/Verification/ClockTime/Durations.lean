import Restore.Model.ClockTime
import Mathlib.Algebra.GroupWithZero.Nat
import Mathlib.Data.List.Basic

/-! # The durations that `PrintDuration` computes

`PrintDuration` leaves its result in the slot of the even-numbered readings, and the next call
takes it for a reading. -/

namespace Restore

namespace Timespec

def Normalised (t : Timespec) : Prop := 0 ≤ t.nsec ∧ t.nsec < 1000000000

instance (t : Timespec) : Decidable t.Normalised := inferInstanceAs (Decidable (_ ∧ _))

/-- In nanoseconds. -/
def total (t : Timespec) : ℤ := t.sec * 1000000000 + t.nsec

variable {t₁ t₂ : Timespec}

theorem eq_of_total_eq (h₁ : t₁.Normalised) (h₂ : t₂.Normalised)
    (h : t₁.total = t₂.total) : t₁ = t₂ := by
  obtain ⟨sec₁, nsec₁⟩ := t₁
  obtain ⟨sec₂, nsec₂⟩ := t₂
  simp only [Normalised, total, mk.injEq] at *
  omega

end Timespec

/-- The parts that are printed add up. -/
theorem duration_nsec {t : Timespec} (h : t.Normalised) :
    (duration t).ms * 1000000 + (duration t).us * 1000 + (duration t).ns = t.nsec := by
  simp only [duration, Int.tdiv_eq_ediv_of_nonneg, Int.tmod_eq_emod_of_nonneg, h.1,
    Int.ediv_nonneg h.1 (by decide : (0 : ℤ) ≤ 1000),
    Int.emod_nonneg t.nsec (by decide : (1000 * 1000 : ℤ) ≠ 0)]
  omega

namespace ClockTime

open Timespec

variable {c : ClockTime} {gathered : List Timespec} {latest now : Timespec}

/-! ## Equations -/

theorem checkUpdateLater_iff (h₀ : c.val0.Normalised) (h₁ : c.val1.Normalised) :
    c.checkUpdateLater = true ↔ c.val1.total < c.val0.total := by
  simp only [checkUpdateLater, Normalised, total] at *
  split_ifs <;> simp <;> omega

/-- The borrow keeps the difference normalised. -/
theorem minusTimespec_spec {tp1 tp2 : Timespec} (h₁ : tp1.Normalised) (h₂ : tp2.Normalised)
    (hle : tp2.total ≤ tp1.total) :
    ∃ tp, minusTimespec tp1 tp2 = some tp ∧ tp.Normalised ∧
      tp.total = tp1.total - tp2.total := by
  simp only [minusTimespec, Normalised, total] at *
  split_ifs with hge hgt hlt
  · exact ⟨_, rfl, by dsimp only; omega, by dsimp only; omega⟩
  · exact ⟨_, rfl, by dsimp only; omega, by dsimp only; omega⟩
  · exact ⟨_, rfl, by dsimp only; omega, by dsimp only; omega⟩
  · omega

/-! ## Runs -/

/-- The latest odd-numbered of the readings gathered. -/
def start (gathered : List Timespec) : Option Timespec :=
  gathered[2 * ((gathered.length - 1) / 2)]?

/-- The one gathered after it. -/
def following (gathered : List Timespec) : Option Timespec :=
  gathered[2 * ((gathered.length - 1) / 2) + 1]?

theorem start_concat_of_even (h : gathered.length % 2 = 0) (t : Timespec) :
    start (gathered ++ [t]) = some t ∧ following (gathered ++ [t]) = none := by
  have hlen : 2 * (((gathered ++ [t]).length - 1) / 2) = gathered.length := by
    rw [List.length_append, List.length_singleton]
    omega
  rw [start, following, hlen]
  exact ⟨List.getElem?_concat_length, List.getElem?_eq_none (by simp)⟩

theorem start_concat_of_odd (h : gathered.length % 2 = 1) (t : Timespec) :
    start (gathered ++ [t]) = start gathered ∧ following (gathered ++ [t]) = some t := by
  have hlen : 2 * (((gathered ++ [t]).length - 1) / 2) = 2 * ((gathered.length - 1) / 2) := by
    rw [List.length_append, List.length_singleton]
    omega
  have hlast : 2 * ((gathered.length - 1) / 2) + 1 = gathered.length := by omega
  rw [start, following, start, hlen, hlast]
  exact ⟨List.getElem?_append_left (by omega), List.getElem?_concat_length⟩

/-- A reading that `PrintDuration` takes is normalised and later than those before it. -/
def Reads (c : ClockTime) (latest now : Timespec) : Prop :=
  c.checkUpdateLater = true → now.Normalised ∧ latest.total < now.total

/-- The runs that begin with a `GatherNow`, with the readings that the calls of `GatherNow` have
taken, in order, and the latest reading of all. -/
inductive Run : ClockTime → List Timespec → Timespec → Prop
  | first (now : Timespec) (hnow : now.Normalised) : Run (gatherNow now {}) [now] now
  | gather {c : ClockTime} {gathered : List Timespec} {latest : Timespec}
      (hrun : Run c gathered latest) (now : Timespec) (hnow : now.Normalised)
      (hlt : latest.total < now.total) : Run (c.gatherNow now) (gathered ++ [now]) now
  | print {c c' : ClockTime} {gathered : List Timespec} {latest : Timespec} {shown : Duration}
      (hrun : Run c gathered latest) (now : Timespec) (hread : c.Reads latest now)
      (hprint : c.printDuration now = some (c', shown)) :
      Run c' gathered (if c.checkUpdateLater then now else latest)

/-- The first slot holds the latest odd-numbered reading. -/
structure Inv (c : ClockTime) (gathered : List Timespec) (latest : Timespec) : Prop where
  idx : c.idx.toNat = gathered.length % 2 ^ 64
  start : start gathered = some c.val0
  normalised₀ : c.val0.Normalised
  normalised₁ : c.val1.Normalised
  start_le : c.val0.total ≤ latest.total
  following : ∀ e, following gathered = some e →
    e.Normalised ∧ c.val0.total < e.total ∧ e.total ≤ latest.total

/-! ### One call -/

theorem idx_and_one (h : c.idx.toNat = gathered.length % 2 ^ 64) :
    c.idx &&& 1 = 0 ↔ gathered.length % 2 = 0 := by
  rw [← UInt64.toNat_inj, UInt64.toNat_and]
  change c.idx.toNat &&& 1 = 0 ↔ _
  rw [Nat.and_one_is_mod, h]
  omega

theorem Inv.gatherNow (h : Inv c gathered latest) (hnow : now.Normalised)
    (hlt : latest.total < now.total) : Inv (c.gatherNow now) (gathered ++ [now]) now := by
  have hidx : (c.idx + 1).toNat = (gathered ++ [now]).length % 2 ^ 64 := by
    rw [UInt64.toNat_add, List.length_append, List.length_singleton, h.idx]
    exact Nat.mod_add_mod _ _ _
  rcases Nat.mod_two_eq_zero_or_one gathered.length with heven | hodd
  · obtain ⟨hstart, hfollowing⟩ := start_concat_of_even heven now
    rw [ClockTime.gatherNow, setVal, if_pos ((idx_and_one h.idx).mpr heven)]
    exact ⟨hidx, hstart, hnow, h.normalised₁, Int.le_refl _, by simp [hfollowing]⟩
  · obtain ⟨hstart, hfollowing⟩ := start_concat_of_odd hodd now
    have hslot : ¬ c.idx &&& 1 = 0 := fun hzero => by
      have heven := (idx_and_one h.idx).mp hzero
      omega
    rw [ClockTime.gatherNow, setVal, if_neg hslot]
    have hlater : c.val0.total < now.total := Int.lt_of_le_of_lt h.start_le hlt
    refine ⟨hidx, hstart.trans h.start, h.normalised₀, hnow, Int.le_of_lt hlater, ?_⟩
    intro e he
    obtain rfl := Option.some.inj (hfollowing.symm.trans he)
    exact ⟨hnow, hlater, Int.le_refl _⟩

/-- The end that `PrintDuration` computes with. -/
def endVal (c : ClockTime) (now : Timespec) : Timespec :=
  if c.checkUpdateLater then now else c.val1

theorem Inv.printDuration_spec (h : Inv c gathered latest) (hread : c.Reads latest now) :
    ∃ tp, c.printDuration now = some ({ c with val1 := tp }, duration tp) ∧ tp.Normalised ∧
      tp.total = (c.endVal now).total - c.val0.total := by
  have hcheck := checkUpdateLater_iff h.normalised₀ h.normalised₁
  have hstart := h.start_le
  obtain ⟨hnormalised, hle⟩ : (c.endVal now).Normalised ∧
      c.val0.total ≤ (c.endVal now).total := by
    rw [endVal]
    split
    · rename_i htaken
      obtain ⟨hnow, hlt⟩ := hread htaken
      exact ⟨hnow, by omega⟩
    · rename_i hkept
      rw [hcheck] at hkept
      exact ⟨h.normalised₁, by omega⟩
  obtain ⟨tp, htp, hnorm, htotal⟩ := minusTimespec_spec hnormalised h.normalised₀ hle
  refine ⟨tp, ?_, hnorm, htotal⟩
  rw [endVal] at htp
  unfold printDuration
  split at htp
  · rename_i htaken
    simp only [htaken, if_true, htp, Option.bind_eq_bind, Option.bind_some]
  · rename_i hkept
    simp only [hkept, if_false, htp, Option.bind_eq_bind, Option.bind_some, Bool.false_eq_true]

theorem Run.inv (h : Run c gathered latest) : Inv c gathered latest := by
  induction h with
  | first now hnow =>
      have hfirst : ClockTime.gatherNow now {} = ⟨now, ⟨0, 0⟩, 1⟩ := by
        simp [ClockTime.gatherNow, setVal]
      rw [hfirst]
      obtain ⟨hstart, hfollowing⟩ := @start_concat_of_even [] rfl now
      have hzero : Normalised ⟨0, 0⟩ := ⟨Int.le_refl 0, by decide⟩
      refine ⟨rfl, hstart, hnow, hzero, Int.le_refl _, ?_⟩
      intro e he
      cases hfollowing.symm.trans he
  | gather _ _ hnow hlt ih => exact ih.gatherNow hnow hlt
  | @print c c' gathered latest _ _ now hread hprint ih =>
      obtain ⟨tp, hspec, hnorm, -⟩ := ih.printDuration_spec hread
      rw [hspec] at hprint
      obtain ⟨rfl, -⟩ := Prod.mk.inj (Option.some.inj hprint)
      have hle : latest.total ≤ (if c.checkUpdateLater then now else latest).total := by
        split
        · rename_i htaken
          exact Int.le_of_lt (hread htaken).2
        · exact Int.le_refl _
      refine ⟨ih.idx, ih.start, ih.normalised₀, hnorm, Int.le_trans ih.start_le hle, ?_⟩
      intro e he
      obtain ⟨hnormalised, hlt, hlast⟩ := ih.following e he
      exact ⟨hnormalised, hlt, Int.le_trans hlast hle⟩

/-! ### Every call of `PrintDuration` -/

/-- The end that belongs to the call: the reading gathered after the start or, if there is none,
the one taken in the call. -/
def tEnd (c : ClockTime) (gathered : List Timespec) (now : Timespec) : Option Timespec :=
  (following gathered).or (if c.checkUpdateLater then some now else none)

/-- `PrintDuration` computes the time from the latest odd-numbered reading to its end. -/
def Right (c : ClockTime) (gathered : List Timespec) (now : Timespec) : Prop :=
  ∃ s e tp, start gathered = some s ∧ c.tEnd gathered now = some e ∧
    c.printDuration now = some ({ c with val1 := tp }, duration tp) ∧
      tp.Normalised ∧ tp.total = e.total - s.total

/-- The second slot still holds the reading gathered after the start or, if there is none,
something earlier than the start. -/
def Undisturbed (c : ClockTime) (gathered : List Timespec) : Prop :=
  match following gathered with
  | some e => c.val1 = e
  | none => c.checkUpdateLater = true

/-- A call is right if it computes with the end that belongs to it. -/
theorem Inv.right_iff (h : Inv c gathered latest) (hread : c.Reads latest now) :
    c.Right gathered now ↔
      ∃ e, c.tEnd gathered now = some e ∧ (c.endVal now).total = e.total := by
  obtain ⟨tp, hprint, hnorm, htotal⟩ := h.printDuration_spec hread
  rw [Right, h.start, hprint]
  constructor
  · rintro ⟨s, e, tp', hs, he, htp, -, htotal'⟩
    obtain rfl := Option.some.inj hs
    obtain ⟨htp, -⟩ := Prod.mk.inj (Option.some.inj htp)
    obtain rfl : tp = tp' := congrArg val1 htp
    exact ⟨e, he, by omega⟩
  · rintro ⟨e, he, hend⟩
    exact ⟨_, e, tp, rfl, he, rfl, hnorm, by omega⟩

/-- In every run, `PrintDuration` is right if and only if the second slot is undisturbed. -/
theorem printDuration_right_iff (hrun : Run c gathered latest) (hread : c.Reads latest now) :
    c.Right gathered now ↔ c.Undisturbed gathered := by
  have hinv := hrun.inv
  have hcheck := checkUpdateLater_iff hinv.normalised₀ hinv.normalised₁
  rw [hinv.right_iff hread, tEnd, Undisturbed]
  cases hfollowing : following gathered with
  | some e =>
      obtain ⟨hnormalised, hlt, hlast⟩ := hinv.following e hfollowing
      simp only [Option.some_or, Option.some.injEq, exists_eq_left']
      rw [endVal]
      split
      · -- a new reading is later than the end, and the slot is earlier than the start
        rename_i htaken
        have hnow := (hread htaken).2
        rw [hcheck] at htaken
        refine iff_of_false (by omega) ?_
        rintro rfl
        omega
      · exact ⟨eq_of_total_eq hinv.normalised₁ hnormalised, congrArg total⟩
  | none =>
      rw [endVal]
      cases c.checkUpdateLater <;> simp

/-- Two seconds and a nanosecond after the only reading. -/
theorem printDuration_right_once :
    Run (gatherNow ⟨5, 0⟩ {}) [⟨5, 0⟩] ⟨5, 0⟩ ∧ Reads (gatherNow ⟨5, 0⟩ {}) ⟨5, 0⟩ ⟨7, 1⟩ ∧
      Undisturbed (gatherNow ⟨5, 0⟩ {}) [⟨5, 0⟩] ∧ Right (gatherNow ⟨5, 0⟩ {}) [⟨5, 0⟩] ⟨7, 1⟩ := by
  have hrun : Run (gatherNow ⟨5, 0⟩ {}) [⟨5, 0⟩] ⟨5, 0⟩ := .first _ (by decide)
  have hread : Reads (gatherNow ⟨5, 0⟩ {}) ⟨5, 0⟩ ⟨7, 1⟩ := fun _ => by decide
  have hslot : Undisturbed (gatherNow ⟨5, 0⟩ {}) [⟨5, 0⟩] := rfl
  exact ⟨hrun, hread, hslot, (printDuration_right_iff hrun hread).mpr hslot⟩

/-- From 10 s to 12 s, printed twice: the second call takes a new reading, at 15 s. -/
theorem printDuration_wrong_twice :
    ∃ c, Run c [⟨10, 0⟩, ⟨12, 0⟩] ⟨12, 0⟩ ∧ c.Reads ⟨12, 0⟩ ⟨15, 0⟩ ∧
      c.printDuration ⟨15, 0⟩ = some (⟨⟨10, 0⟩, ⟨5, 0⟩, 2⟩, ⟨5, 0, 0, 0⟩) ∧
      ¬ c.Right [⟨10, 0⟩, ⟨12, 0⟩] ⟨15, 0⟩ := by
  have hfirst : Run (gatherNow ⟨10, 0⟩ {}) [⟨10, 0⟩] ⟨10, 0⟩ := .first _ (by decide)
  have hsecond := hfirst.gather ⟨12, 0⟩ (by decide) (by decide)
  have hprinted : Run ⟨⟨10, 0⟩, ⟨2, 0⟩, 2⟩ [⟨10, 0⟩, ⟨12, 0⟩] ⟨12, 0⟩ :=
    hsecond.print ⟨13, 0⟩ (fun _ => by decide) rfl
  refine ⟨_, hprinted, fun _ => by decide, rfl, ?_⟩
  rintro ⟨s, e, tp, hs, he, hprint, -, htotal⟩
  obtain rfl : ⟨10, 0⟩ = s := Option.some.inj hs
  obtain rfl : ⟨12, 0⟩ = e := Option.some.inj he
  obtain rfl : ⟨5, 0⟩ = tp := congrArg (fun r => r.1.val1) (Option.some.inj hprint)
  exact absurd htotal (by decide)

end ClockTime

end Restore
