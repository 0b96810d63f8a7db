import Restore.Model.RwLock
import Mathlib.Algebra.BigOperators.Group.Finset.Piecewise

/-! # Readers and writers of `RwLock` exclude each other

`cnt` counts the readers, or is -1 while a thread holds the write lock. A value that a thread
has loaded may be old when it comes to its `AtomicCAS`; the swap succeeds on the value that
`cnt` has then, so what the value has been in between does not matter. -/

namespace Restore.RwLock

open Finset

variable {ι : Type*}

/-! ## Steps -/

def Pc.Holds (pc : Pc) : Prop := pc = .reading ∨ pc = .writing

/-- The value of `cnt` that the thread's next `AtomicCAS` expects of a free or read lock. -/
def Pc.loaded? : Pc → Option Int32
  | .readCas x | .tryCas x => some x
  | _ => none

section Steps

variable [DecidableEq ι]

/-- What an action does to the lock. -/
inductive Machine.Step (s : Machine ι) : Machine ι → Prop
  | stay : s.Step s
  | move {t : ι} {pc : Pc} (hold : ¬ (s.pc t).Holds) (hnew : ¬ pc.Holds)
      (hload : ∀ x, pc.loaded? = some x → 0 ≤ x)
      (hrefuse : pc = .refused → s.pc t = .tryLoad ∧ s.cnt < 0) : s.Step (s.goto t pc)
  | readLock {t : ι} (hload : (s.pc t).loaded? = some s.cnt) :
      s.Step ({ s with cnt := s.cnt + 1 }.goto t .reading)
  | writeLock {t : ι} (hpc : s.pc t = .writeCas) (hcnt : s.cnt = 0) :
      s.Step ({ s with cnt := -1 }.goto t .writing)
  | readUnlock {t : ι} (hpc : s.pc t = .reading) :
      s.Step ({ s with cnt := s.cnt - 1 }.goto t .idle)
  | writeUnlock {t : ι} (hpc : s.pc t = .writing) :
      s.Step ({ s with cnt := s.cnt + 1 }.goto t .idle)

theorem Machine.step_goto (s : Machine ι) {t : ι} {pc pc' : Pc} (hpc : s.pc t = pc)
    (hold : ¬ pc.Holds) (hnew : ¬ pc'.Holds) (hload : pc'.loaded? = none)
    (hrefuse : pc' = .refused → pc = .tryLoad ∧ s.cnt < 0) : s.Step (s.goto t pc') :=
  .move (hpc ▸ hold) hnew (by simp [hload]) (hpc ▸ hrefuse)

theorem Machine.step_load (s : Machine ι) {t : ι} {pc pc' : Pc} (hpc : s.pc t = pc)
    (hold : ¬ pc.Holds) (hnew : ¬ pc'.Holds) (hload : pc'.loaded? = some s.cnt)
    (hcnt : ¬ s.cnt < 0) : s.Step (s.goto t pc') := by
  refine .move (hpc ▸ hold) hnew (fun x hx => ?_) ?_
  · obtain rfl : s.cnt = x := by simpa [hload] using hx
    exact Int32.not_lt.mp hcnt
  · rintro rfl
    cases hload

theorem Machine.run_step (s : Machine ι) (t : ι) : s.Step (s.run t) := by
  cases hpc : s.pc t with
  | idle | reading | writing =>
      simp only [run, hpc]
      exact .stay
  | refused =>
      simp only [run, hpc]
      exact s.step_goto hpc (by simp [Pc.Holds]) (by simp [Pc.Holds]) rfl (by simp)
  | readLoad =>
      simp only [run, hpc]
      split
      · exact .stay
      · exact s.step_load hpc (by simp [Pc.Holds]) (by simp [Pc.Holds]) rfl ‹_›
  | tryLoad =>
      simp only [run, hpc]
      split
      · exact s.step_goto hpc (by simp [Pc.Holds]) (by simp [Pc.Holds]) rfl fun _ => ⟨rfl, ‹_›⟩
      · exact s.step_load hpc (by simp [Pc.Holds]) (by simp [Pc.Holds]) rfl ‹_›
  | writeLoad =>
      simp only [run, hpc]
      split
      · exact .stay
      · exact s.step_goto hpc (by simp [Pc.Holds]) (by simp [Pc.Holds]) rfl (by simp)
  | readCas x | tryCas x =>
      simp only [run, hpc, atomicCAS]
      by_cases hx : s.cnt = x
      · have hload : (s.pc t).loaded? = some s.cnt := by simp [hpc, Pc.loaded?, hx]
        simpa [hx] using Step.readLock hload
      · simp only [hx, if_false]
        exact s.step_goto hpc (by simp [Pc.Holds]) (by simp [Pc.Holds]) rfl (by simp)
  | writeCas =>
      simp only [run, hpc, atomicCAS]
      by_cases hcnt : s.cnt = 0
      · simp only [hcnt, if_true]
        exact .writeLock hpc hcnt
      · simp only [hcnt, if_false]
        exact s.step_goto hpc (by simp [Pc.Holds]) (by simp [Pc.Holds]) rfl (by simp)

theorem Machine.unlock_step (s : Machine ι) (t : ι) : s.Step (s.unlock t) := by
  rw [unlock]
  split
  · exact .readUnlock ‹_›
  · exact .writeUnlock ‹_›
  · exact .stay

theorem Machine.act_step (s : Machine ι) (a : Action ι) : s.Step (s.act a) := by
  cases a with
  | run t => exact s.run_step t
  | unlock t => exact s.unlock_step t
  | enter t call =>
      rw [act]
      split
      · exact s.step_goto ‹_› (by simp [Pc.Holds]) (by cases call <;> simp [Call.entry, Pc.Holds])
          (by cases call <;> rfl) (by cases call <;> simp [Call.entry])
      · exact .stay

/-! ## Threads by their places -/

@[simp] theorem Machine.goto_pc_self (s : Machine ι) (t : ι) (pc : Pc) : (s.goto t pc).pc t = pc :=
  Function.update_self ..

theorem Machine.goto_pc_of_ne (s : Machine ι) {t u : ι} (hu : u ≠ t) (pc : Pc) :
    (s.goto t pc).pc u = s.pc u :=
  Function.update_of_ne hu ..

theorem Machine.writeHeld_goto (s : Machine ι) (t : ι) (pc : Pc) :
    (s.goto t pc).WriteHeld ↔ pc = .writing ∨ ∃ u, u ≠ t ∧ s.pc u = .writing := by
  constructor
  · rintro ⟨u, hu⟩
    rcases eq_or_ne u t with rfl | hne
    · exact .inl (by simpa using hu)
    · exact .inr ⟨u, hne, by rwa [s.goto_pc_of_ne hne] at hu⟩
  · rintro (rfl | ⟨u, hne, hu⟩)
    · exact ⟨t, by simp⟩
    · exact ⟨u, by rwa [s.goto_pc_of_ne hne]⟩

theorem Machine.readers_goto [Fintype ι] (s : Machine ι) (cnt : Int32) (t : ι) (pc : Pc) :
    ({ s with cnt }.goto t pc).readers + (if s.pc t = .reading then 1 else 0) =
      s.readers + if pc = .reading then 1 else 0 := by
  have hothers : ∑ u ∈ univ.erase t, (if ({ s with cnt }.goto t pc).pc u = .reading then 1 else 0) =
      ∑ u ∈ univ.erase t, if s.pc u = .reading then 1 else 0 :=
    sum_congr rfl fun u hu => by rw [goto_pc_of_ne _ (ne_of_mem_erase hu)]
  rw [readers, readers, card_filter, card_filter, ← add_sum_erase univ _ (mem_univ t),
    ← add_sum_erase univ (fun u => if s.pc u = .reading then 1 else 0) (mem_univ t), hothers,
    goto_pc_self]
  omega

theorem Machine.Step.refused {s s' : Machine ι} (hstep : s.Step s') {t : ι}
    (ht : s'.pc t = .refused) : s.pc t = .refused ∨ s.pc t = .tryLoad ∧ s.cnt < 0 := by
  cases hstep with
  | stay => exact .inl ht
  | @move u pc _ _ _ hrefuse =>
      rcases eq_or_ne t u with rfl | hne
      · exact .inr (hrefuse (by simpa using ht))
      · rw [goto_pc_of_ne _ hne] at ht
        exact .inl ht
  | @readLock u | @writeLock u | @readUnlock u | @writeUnlock u =>
      rcases eq_or_ne t u with rfl | hne
      · simp at ht
      · rw [goto_pc_of_ne _ hne] at ht
        exact .inl ht

end Steps

theorem Machine.writeHeld_iff (s : Machine ι) {t : ι} (ht : s.pc t ≠ .writing) :
    s.WriteHeld ↔ ∃ u, u ≠ t ∧ s.pc u = .writing :=
  ⟨fun ⟨u, hu⟩ => ⟨u, by rintro rfl; exact ht hu, hu⟩, fun ⟨u, _, hu⟩ => ⟨u, hu⟩⟩

/-! ## The counter -/

theorem toInt_add_one {x : Int32} {n : ℕ} (hx : x.toInt = n) (hn : n + 1 < 2 ^ 31) :
    (x + 1).toInt = (n + 1 : ℕ) := by
  rw [Int32.toInt_add, hx]
  change Int.bmod (n + 1) _ = _
  rw [Int.bmod_eq_of_le (by omega) (by omega)]
  rfl

theorem toInt_sub_one {x : Int32} {n : ℕ} (hx : x.toInt = (n + 1 : ℕ)) : (x - 1).toInt = n := by
  have hlt := x.toInt_lt
  rw [Int32.toInt_sub, hx]
  change Int.bmod ((n + 1 : ℕ) - 1) _ = _
  rw [Int.bmod_eq_of_le (by omega) (by omega)]
  omega

variable [Fintype ι]

theorem Machine.readers_le (s : Machine ι) : s.readers ≤ Fintype.card ι := card_filter_le ..

/-- "-1 when W lock held, > 0 when R locks held", and what the loads before a swap rest on. -/
structure Machine.Exclusive (s : Machine ι) : Prop where
  cnt_eq : s.cnt.toInt = if s.WriteHeld then -1 else (s.readers : ℤ)
  alone : ∀ t, s.pc t = .writing → ∀ u, u ≠ t → ¬ (s.pc u).Holds
  loaded_nonneg : ∀ t x, (s.pc t).loaded? = some x → 0 ≤ x

namespace Machine.Exclusive

variable {s : Machine ι}

theorem not_writeHeld (h : s.Exclusive) (hcnt : 0 ≤ s.cnt) : ¬ s.WriteHeld := by
  intro hw
  have hneg := h.cnt_eq
  rw [if_pos hw] at hneg
  rw [Int32.le_iff_toInt_le, hneg] at hcnt
  exact absurd hcnt (by decide)

theorem cnt_eq_readers (h : s.Exclusive) (hw : ¬ s.WriteHeld) : s.cnt.toInt = s.readers := by
  rw [h.cnt_eq, if_neg hw]

theorem not_writeHeld_of_reading (h : s.Exclusive) {t : ι} (ht : s.pc t = .reading) :
    ¬ s.WriteHeld := by
  rintro ⟨u, hu⟩
  rcases eq_or_ne t u with rfl | hne
  · simp [ht] at hu
  · exact h.alone u hu t hne (.inl ht)

theorem readers_of_writeHeld (h : s.Exclusive) (hw : s.WriteHeld) : s.readers = 0 := by
  rw [readers, card_eq_zero, filter_eq_empty_iff]
  exact fun t _ ht => h.not_writeHeld_of_reading ht hw

variable [DecidableEq ι]

theorem loaded_goto (h : s.Exclusive) (t : ι) {pc : Pc} (cnt : Int32)
    (hpc : ∀ x, pc.loaded? = some x → 0 ≤ x) (u : ι) (x : Int32)
    (hx : (({ s with cnt }.goto t pc).pc u).loaded? = some x) : 0 ≤ x := by
  rcases eq_or_ne u t with rfl | hne
  · exact hpc x (by simpa using hx)
  · exact h.loaded_nonneg u x (by rwa [Machine.goto_pc_of_ne _ hne] at hx)

theorem move (h : s.Exclusive) {t : ι} {pc : Pc} (hold : ¬ (s.pc t).Holds) (hnew : ¬ pc.Holds)
    (hload : ∀ x, pc.loaded? = some x → 0 ≤ x) : (s.goto t pc).Exclusive := by
  simp only [Pc.Holds, not_or] at hold hnew
  have hheld : (s.goto t pc).WriteHeld ↔ s.WriteHeld := by
    rw [s.writeHeld_goto, s.writeHeld_iff hold.2]
    simp [hnew.2]
  have hreaders : (s.goto t pc).readers = s.readers := by
    simpa [hold.1, hnew.1] using s.readers_goto s.cnt t pc
  refine ⟨?_, fun u hu v hne => ?_, h.loaded_goto t s.cnt hload⟩
  · rw [if_congr hheld rfl rfl, hreaders]
    exact h.cnt_eq
  · have hut : u ≠ t := by
      rintro rfl
      exact hnew.2 (by simpa using hu)
    rw [s.goto_pc_of_ne hut] at hu
    rcases eq_or_ne v t with rfl | hvt
    · simp [Pc.Holds, hnew]
    · rw [s.goto_pc_of_ne hvt]
      exact h.alone u hu v hne

/-- The lock is not write-held after `t` has gone to a place that is not `writing`, if no other
thread writes. -/
theorem of_readers (h : s.Exclusive) {t : ι} {pc : Pc} {cnt : Int32} (hpc : pc ≠ .writing)
    (hload : pc.loaded? = none) (hfree : ∀ u, u ≠ t → s.pc u ≠ .writing)
    (hcnt : cnt.toInt = ({ s with cnt }.goto t pc).readers) :
    ({ s with cnt }.goto t pc).Exclusive := by
  have hheld : ¬ ({ s with cnt }.goto t pc).WriteHeld := by
    rw [Machine.writeHeld_goto]
    rintro (h' | ⟨u, hne, hu⟩)
    · exact hpc h'
    · exact hfree u hne hu
  exact ⟨by rw [if_neg hheld]; exact hcnt, fun u hu => absurd ⟨u, hu⟩ hheld,
    h.loaded_goto t _ (by simp [hload])⟩

theorem readLock (h : s.Exclusive) (hcard : Fintype.card ι < 2 ^ 31) {t : ι}
    (hload : (s.pc t).loaded? = some s.cnt) :
    ({ s with cnt := s.cnt + 1 }.goto t .reading).Exclusive := by
  have hfree := h.not_writeHeld (h.loaded_nonneg t _ hload)
  have ht : s.pc t ≠ .reading := by
    intro ht
    simp [ht, Pc.loaded?] at hload
  have hreaders : ({ s with cnt := s.cnt + 1 }.goto t .reading).readers = s.readers + 1 := by
    simpa [ht] using s.readers_goto (s.cnt + 1) t .reading
  have hle := Machine.readers_le ({ s with cnt := s.cnt + 1 }.goto t .reading)
  refine h.of_readers (by simp) rfl (fun u _ hu => hfree ⟨u, hu⟩) ?_
  rw [hreaders] at hle ⊢
  exact toInt_add_one (h.cnt_eq_readers hfree) (by omega)

theorem readUnlock (h : s.Exclusive) {t : ι} (ht : s.pc t = .reading) :
    ({ s with cnt := s.cnt - 1 }.goto t .idle).Exclusive := by
  have hfree := h.not_writeHeld_of_reading ht
  have hreaders : ({ s with cnt := s.cnt - 1 }.goto t .idle).readers + 1 = s.readers := by
    simpa [ht] using s.readers_goto (s.cnt - 1) t .idle
  refine h.of_readers (by simp) rfl (fun u _ hu => hfree ⟨u, hu⟩) ?_
  exact toInt_sub_one (by rw [hreaders]; exact h.cnt_eq_readers hfree)

theorem writeLock (h : s.Exclusive) {t : ι} (hcnt : s.cnt = 0) :
    ({ s with cnt := -1 }.goto t .writing).Exclusive := by
  have hfree := h.not_writeHeld (by rw [hcnt]; decide)
  have hnone : s.readers = 0 := by
    have hreaders := h.cnt_eq_readers hfree
    rw [hcnt, Int32.toInt_zero] at hreaders
    omega
  rw [readers, card_eq_zero, filter_eq_empty_iff] at hnone
  have hidle (u : ι) : ¬ (s.pc u).Holds := by
    rintro (hu | hu)
    · exact hnone (mem_univ u) hu
    · exact hfree ⟨u, hu⟩
  refine ⟨?_, fun u hu v hne => ?_, h.loaded_goto t _ (by simp [Pc.loaded?])⟩
  · rw [if_pos ((Machine.writeHeld_goto ..).mpr (.inl rfl))]
    rfl
  · have hut : u = t := by
      by_contra hut
      rw [Machine.goto_pc_of_ne _ hut] at hu
      exact hidle u (.inr hu)
    rw [Machine.goto_pc_of_ne _ (hut ▸ hne)]
    exact hidle v

theorem writeUnlock (h : s.Exclusive) {t : ι} (ht : s.pc t = .writing) :
    ({ s with cnt := s.cnt + 1 }.goto t .idle).Exclusive := by
  have hheld : s.WriteHeld := ⟨t, ht⟩
  have hreaders : ({ s with cnt := s.cnt + 1 }.goto t .idle).readers = 0 := by
    simpa [ht, h.readers_of_writeHeld hheld] using s.readers_goto (s.cnt + 1) t .idle
  have hcnt : s.cnt = -1 := Int32.toInt_inj.mp (by rw [h.cnt_eq, if_pos hheld]; rfl)
  refine h.of_readers (by simp) rfl (fun u hne hu => h.alone t ht u hne (.inr hu)) ?_
  rw [hreaders, hcnt]
  rfl

theorem step (h : s.Exclusive) (hcard : Fintype.card ι < 2 ^ 31) {s' : Machine ι}
    (hstep : s.Step s') : s'.Exclusive := by
  cases hstep with
  | stay => exact h
  | move hold hnew hload _ => exact h.move hold hnew hload
  | readLock hload => exact h.readLock hcard hload
  | writeLock _ hcnt => exact h.writeLock hcnt
  | readUnlock hpc => exact h.readUnlock hpc
  | writeUnlock hpc => exact h.writeUnlock hpc

end Machine.Exclusive

/-! ## Worlds -/

/-- A lock that is held for writing is noted for every thread, and so is the reason of a
refusal. -/
structure World.Sound (w : World ι) : Prop where
  exclusive : w.machine.Exclusive
  noted : w.machine.WriteHeld → ∀ t, w.books.writeHeld t = true
  refused_noted : ∀ t, w.machine.pc t = .refused → w.books.writeHeld t = true

theorem World.start_sound : (World.start : World ι).Sound where
  exclusive := ⟨by simp [start, Machine.WriteHeld, Machine.readers], by simp [start],
    by simp [start, Pc.loaded?]⟩
  noted := by simp [start, Machine.WriteHeld]
  refused_noted := by simp [start]

variable [DecidableEq ι]

theorem Books.record_of_writeHeld {s : Machine ι} {a : Action ι} (b : Books ι)
    (h : (s.act a).WriteHeld) (t : ι) : (b.record s a).writeHeld t = true := by
  cases a <;> simp [record, h]

theorem Books.record_of_noted {s : Machine ι} {b : Books ι} {t : ι} (a : Action ι)
    (h : b.writeHeld t = true) (ht : s.pc t ≠ .idle) : (b.record s a).writeHeld t = true := by
  cases a with
  | run u | unlock u => simp [record, h]
  | enter u call =>
      simp only [record]
      split
      · rename_i hu
        exact absurd (hu.1 ▸ hu.2) ht
      · simp [h]

theorem World.Sound.next {w : World ι} (h : w.Sound) (hcard : Fintype.card ι < 2 ^ 31)
    (a : Action ι) : (w.next a).Sound where
  exclusive := h.exclusive.step hcard (w.machine.act_step a)
  noted hheld := w.books.record_of_writeHeld hheld
  refused_noted t ht := by
    rcases (w.machine.act_step a).refused ht with hold | ⟨htry, hneg⟩
    · exact Books.record_of_noted a (h.refused_noted t hold) (by simp [hold])
    · have hheld : w.machine.WriteHeld := by
        by_contra hfree
        have hcnt := h.exclusive.cnt_eq_readers hfree
        rw [Int32.lt_iff_toInt_lt, hcnt, Int32.toInt_zero] at hneg
        omega
      exact Books.record_of_noted a (h.noted hheld t) (by simp [htry])

theorem World.Reachable.sound {w : World ι} (hw : w.Reachable) (hcard : Fintype.card ι < 2 ^ 31) :
    w.Sound := by
  induction hw with
  | refl => exact start_sound
  | tail _ hstep ih =>
      obtain ⟨a, rfl⟩ := hstep
      exact ih.next hcard a

theorem World.reachable_foldl (acts : List (Action ι)) :
    (acts.foldl World.next World.start).Reachable := by
  induction acts using List.reverseRecOn with
  | nil => exact .refl
  | append_singleton acts a ih =>
      rw [List.foldl_concat]
      exact ih.tail ⟨a, rfl⟩

/-- The lock is free, held by the readers that `cnt` counts, or held by one writer alone; and a
reader that was refused has met a writer. -/
theorem reachable_exclusion {w : World ι} (hw : w.Reachable) (hcard : Fintype.card ι < 2 ^ 31) :
    (w.machine.cnt = -1 ↔
      (∃! t, w.machine.pc t = .writing) ∧ ∀ t, w.machine.pc t ≠ .reading) ∧
    (w.machine.cnt ≠ -1 → w.machine.cnt.toInt = w.machine.readers) ∧
    (∀ t u, w.machine.pc t = .writing → (w.machine.pc u).Holds → u = t) ∧
    ∀ t, w.machine.pc t = .refused → w.books.writeHeld t = true := by
  have hsound := hw.sound hcard
  have hex := hsound.exclusive
  have hheld : w.machine.cnt = -1 ↔ w.machine.WriteHeld := by
    rw [← Int32.toInt_inj, hex.cnt_eq]
    split
    · simpa
    · rename_i hfree
      refine iff_of_false ?_ hfree
      change (w.machine.readers : ℤ) ≠ -1
      omega
  refine ⟨hheld.trans ⟨?_, ?_⟩, ?_, ?_, hsound.refused_noted⟩
  · rintro ⟨t, ht⟩
    refine ⟨⟨t, ht, fun u hu => ?_⟩, fun u hu => hex.not_writeHeld_of_reading hu ⟨t, ht⟩⟩
    by_contra hne
    exact hex.alone t ht u hne (.inr hu)
  · rintro ⟨⟨t, ht, -⟩, -⟩
    exact ⟨t, ht⟩
  · exact fun hcnt => hex.cnt_eq_readers (hheld.not.mp hcnt)
  · intro t u ht hu
    by_contra hne
    exact hex.alone t ht u hne hu

/-- A writer takes the lock between the entry and the test of a reader, which is refused. -/
theorem reachable_exclusion_refused :
    let w := [.enter false .rwlockReadTrylock, .enter true .rwlockWriteLock, .run true, .run true,
      .run false].foldl World.next (World.start : World Bool)
    w.machine.pc false = .refused ∧ w.machine.pc true = .writing ∧
      (w.machine.cnt = -1 ↔
        (∃! t, w.machine.pc t = .writing) ∧ ∀ t, w.machine.pc t ≠ .reading) ∧
      (w.machine.cnt ≠ -1 → w.machine.cnt.toInt = w.machine.readers) ∧
      (∀ t u, w.machine.pc t = .writing → (w.machine.pc u).Holds → u = t) ∧
      ∀ t, w.machine.pc t = .refused → w.books.writeHeld t = true :=
  ⟨by decide, by decide, reachable_exclusion (World.reachable_foldl _) (by decide)⟩

end Restore.RwLock
