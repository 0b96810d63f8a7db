import Restore.Shared.Cycles
import Restore.Model.VectorLogger
import Restore.Verification.Logger.Equations

/-! # The time-out test

Both builds compare the elapsed time with `m_roate_cnt` cycles. One counts its time-outs, and
the other adds up the cycles that have passed at each of them. -/

namespace Restore.Logger

open BuffRing Pcap Gzip Cycles

variable {Z : Type*}

/-! ## Runs with checks -/

section Runs

variable {S E : Type*} {run : List E → Option S} {uptime : E → Option ℕ}
  {timeOut : S → ℕ → Bool} {start c : ℕ}

/-- The elapsed time of each check. -/
def elapsed (uptime : E → Option ℕ) (start : ℕ) (es : List E) : List ℕ :=
  (es.filterMap uptime).map (· - start)

/-- A check with a positive elapsed time finds a time-out exactly if no check before it had an
elapsed time in the same window. -/
def TimesOutOnce (run : List E → Option S) (uptime : E → Option ℕ) (timeOut : S → ℕ → Bool)
    (start c : ℕ) (es : List E) : Prop :=
  ∀ before e after u s, es = before ++ e :: after → uptime e = some u → run before = some s →
    0 < u - start →
      (timeOut s u = true ↔ ∀ x ∈ elapsed uptime start before, ¬SameWindow c x (u - start))

/-- The readings never fall, and the elapsed time fits in 32 bits. -/
structure Readings (uptime : E → Option ℕ) (start : ℕ) (es : List E) : Prop where
  sorted : (es.filterMap uptime).Pairwise (· ≤ ·)
  inRange : ∀ e ∈ es, ∀ u, uptime e = some u → start ≤ u ∧ u - start < 2 ^ 32

theorem Readings.elapsed_sorted {es : List E} (h : Readings uptime start es) :
    (elapsed uptime start es).Pairwise (· ≤ ·) :=
  List.pairwise_map.mpr (h.sorted.imp fun hle => Nat.sub_le_sub_right hle start)

theorem Readings.elapsed_lt {es : List E} (h : Readings uptime start es) :
    ∀ x ∈ elapsed uptime start es, x < 2 ^ 32 := by
  intro x hx
  obtain ⟨u, hu, rfl⟩ := List.mem_map.mp hx
  obtain ⟨e, he, hreading⟩ := List.mem_filterMap.mp hu
  exact (h.inRange e he u hreading).2

/-- A check splits the elapsed times where it splits the run. -/
theorem elapsed_split {before after : List E} {e : E} {u : ℕ} (he : uptime e = some u) :
    elapsed uptime start (before ++ e :: after) =
      elapsed uptime start before ++ (u - start) :: elapsed uptime start after := by
  rw [elapsed, List.filterMap_append, List.filterMap_cons_some he, List.map_append,
    List.map_cons]
  rfl

theorem exists_split_of_elapsed {es : List E} {times later : List ℕ} {x : ℕ}
    (h : elapsed uptime start es = times ++ x :: later) :
    ∃ before e after u, es = before ++ e :: after ∧ uptime e = some u ∧ u - start = x ∧
      elapsed uptime start before = times := by
  obtain ⟨readings, rest, hsplit, htimes, hrest⟩ := List.map_eq_append_iff.mp h
  obtain ⟨u, rest, rfl, hu, -⟩ := List.map_eq_cons_iff.mp hrest
  obtain ⟨before, tail, rfl, hbefore, htail⟩ := List.filterMap_eq_append_iff.mp hsplit
  obtain ⟨skipped, e, after, rfl, hskipped, he, -⟩ := List.filterMap_eq_cons_iff.mp htail
  refine ⟨before ++ skipped, e, after, u, by rw [List.append_assoc], he, hu, ?_⟩
  rw [elapsed, List.filterMap_append, hbefore, List.filterMap_eq_nil_iff.mpr hskipped,
    List.append_nil, htimes]

theorem elapsed_cons (e : E) (es : List E) :
    elapsed uptime start (e :: es) =
      ((uptime e).map (· - start)).toList ++ elapsed uptime start es := by
  rw [elapsed, List.filterMap_cons]
  cases uptime e <;> rfl

/-- A run in which the time-out test follows a timer times out once if the timer fires
once. -/
theorem timesOutOnce_iff {t : Timer} {es : List E}
    (htimer : ∀ before e after u, es = before ++ e :: after → uptime e = some u →
      ∃ s, run before = some s ∧
        (timeOut s u = true ↔ t.limit (t.count (elapsed uptime start before)) < u - start)) :
    TimesOutOnce run uptime timeOut start c es ↔
      t.OncePerWindow c (elapsed uptime start es) := by
  constructor
  · intro honce times x later hsplit hpos
    obtain ⟨before, e, after, u, hes, he, rfl, rfl⟩ := exists_split_of_elapsed hsplit
    obtain ⟨s, hrun, hfires⟩ := htimer before e after u hes he
    exact hfires.symm.trans (honce before e after u s hes he hrun hpos)
  · intro honce before e after u s hes he hrun hpos
    obtain ⟨s', hrun', hfires⟩ := htimer before e after u hes he
    obtain rfl := Option.some.inj (hrun.symm.trans hrun')
    refine hfires.trans (honce _ _ (elapsed uptime start after) ?_ hpos)
    rw [hes, elapsed_split he]

end Runs

/-! ## One check -/

/-- `m_roate_cnt` is the count of a timer that has seen the elapsed times of the checks. -/
structure Tracks (t : Timer) (c : UInt32) (start : ℕ) (times : List ℕ)
    (l : BasicBusinessLogger Z) : Prop where
  startTime : l.startTime = UInt32.ofNat start
  rotateCycle : l.rotateCycle = c
  roateCnt : l.roateCnt = UInt32.ofNat (t.count times)

variable {t : Timer} {c : UInt32} {start u : ℕ} {times : List ℕ} {l l' : BasicBusinessLogger Z}

theorem elapsed_toNat (hstart : start ≤ u) (hlt : u - start < 2 ^ 32) :
    (UInt32.ofNat u - UInt32.ofNat start).toNat = u - start := by
  rw [UInt32.toNat_sub, UInt32.toNat_ofNat', UInt32.toNat_ofNat']
  omega

theorem Tracks.timeOut_iff (h : Tracks t c start times l)
    (hlimit : ∀ n, t.limit n = n * c.toNat % 2 ^ 32) (hstart : start ≤ u)
    (hlt : u - start < 2 ^ 32) :
    l.timeOut u = true ↔ t.limit (t.count times) < u - start := by
  rw [BasicBusinessLogger.timeOut, decide_eq_true_iff, gt_iff_lt, UInt32.lt_iff_toNat_lt,
    h.startTime, elapsed_toNat hstart hlt, UInt32.toNat_mul, h.roateCnt, h.rotateCycle,
    UInt32.toNat_ofNat', hlimit, Nat.mod_mul_mod]

/-- A check adds to `m_roate_cnt` what the timer counts. -/
theorem Tracks.check (h : Tracks t c start times l)
    (hlimit : ∀ n, t.limit n = n * c.toNat % 2 ^ 32) (hstart : start ≤ u)
    (hlt : u - start < 2 ^ 32) (hstartTime : l'.startTime = l.startTime)
    (hcycle : l'.rotateCycle = l.rotateCycle)
    (hcount : l'.roateCnt =
      if l.timeOut u then l.roateCnt + UInt32.ofNat (t.inc (u - start)) else l.roateCnt) :
    Tracks t c start (times ++ [u - start]) l' := by
  refine ⟨hstartTime.trans h.startTime, hcycle.trans h.rotateCycle, ?_⟩
  rw [hcount, t.count_concat, if_congr (h.timeOut_iff hlimit hstart hlt) rfl rfl, h.roateCnt]
  split
  · exact (UInt32.ofNat_add _ _).symm
  · rfl

theorem Tracks.drain (h : Tracks t c start times l) (env : Env Z) (now : ℕ) (isTimeOut : Bool)
    (packets : List PcapPacket) : Tracks t c start times (l.drain env now isTimeOut packets) :=
  have hkeeps := BasicBusinessLogger.drain_keeps env l now isTimeOut packets
  ⟨hkeeps.startTime.trans h.startTime, hkeeps.rotateCycle.trans h.rotateCycle,
    hkeeps.roateCnt.trans h.roateCnt⟩

/-- A run that keeps `m_roate_cnt` at a timer's count times out once if the timer fires once. -/
theorem timesOutOnce_iff_of_tracks {S E : Type*} {run : List E → Option S} {uptime : E → Option ℕ}
    {members : S → BasicBusinessLogger Z} {es : List E}
    (hlimit : ∀ n, t.limit n = n * c.toNat % 2 ^ 32) (hes : Readings uptime start es)
    (htracks : ∀ before after, es = before ++ after →
      ∃ s, run before = some s ∧ Tracks t c start (elapsed uptime start before) (members s)) :
    TimesOutOnce run uptime (fun s => (members s).timeOut) start c.toNat es ↔
      t.OncePerWindow c.toNat (elapsed uptime start es) := by
  refine timesOutOnce_iff fun before e after u hsplit he => ?_
  obtain ⟨s, hrun, htracks⟩ := htracks before (e :: after) hsplit
  have hmem : e ∈ es := hsplit ▸ List.mem_append_right before List.mem_cons_self
  obtain ⟨hstart, hlt⟩ := hes.inRange e hmem u he
  exact ⟨s, hrun, htracks.timeOut_iff hlimit hstart hlt⟩

/-! ## The build with the ring -/

namespace BasicBusinessLogger

def Event.uptime : Event → Option ℕ
  | .pushBack _ => none
  | .checkRotate clock => some clock.uptime

variable {env : Env Z} {fresh : ℕ → PcapPacket}

theorem step_tracks {q : List PcapPacket} (h : Tracks (stepTimer (2 ^ 32) c.toNat) c start times l)
    (hq : l.Holds q) {e : Event} (hstep : l.step env fresh e = .ok l')
    (hu : ∀ u, e.uptime = some u → start ≤ u ∧ u - start < 2 ^ 32) :
    Tracks (stepTimer (2 ^ 32) c.toNat) c start
      (times ++ (e.uptime.map (· - start)).toList) l' := by
  rcases step_cases hq hstep with ⟨packet, mem, rfl, rfl⟩ | ⟨clock, mem, rfl, rfl⟩
  · refine (List.append_nil times).symm ▸ ?_
    exact ⟨h.startTime, h.rotateCycle, h.roateCnt⟩
  · obtain ⟨hstart, hlt⟩ := hu clock.uptime rfl
    refine Tracks.drain ?_ env _ _ _
    exact h.check (fun _ => rfl) hstart hlt rfl rfl rfl

theorem run_tracks {q : List PcapPacket} (h : Tracks (stepTimer (2 ^ 32) c.toNat) c start times l)
    (hq : l.Holds q) {es : List Event}
    (hes : ∀ e ∈ es, ∀ u, e.uptime = some u → start ≤ u ∧ u - start < 2 ^ 32) :
    ∃ l', l.run env fresh es = .ok l' ∧
      Tracks (stepTimer (2 ^ 32) c.toNat) c start (times ++ elapsed Event.uptime start es) l' := by
  induction es generalizing l q times with
  | nil => exact ⟨l, rfl, (List.append_nil times).symm ▸ h⟩
  | cons e es ih =>
      obtain ⟨hinFirst, hinRest⟩ := List.forall_mem_cons.mp hes
      obtain ⟨l₁, q₁, hstep, hq₁⟩ := step_holds env hq fresh e
      have hfirst := step_tracks h hq hstep hinFirst
      obtain ⟨l', hrun, htracks⟩ := ih hfirst hq₁ hinRest
      refine ⟨l', by rw [BasicBusinessLogger.run, hstep]; exact hrun, ?_⟩
      rwa [elapsed_cons, ← List.append_assoc]

theorem init_tracks {fuel : ℕ} {filePath : List Char} {rotateSize : UInt32} {compressType : UInt8}
    {uptime : ℕ} {slots : ℕ → PcapPacket} {storage : ℕ → UInt8} {gipHelper : GzipHelper Z}
    (hinit : init env fuel filePath rotateSize c compressType uptime start slots storage gipHelper =
      some l) : Tracks (stepTimer (2 ^ 32) c.toNat) c start [] l := by
  rw [init, Option.map_eq_some_iff] at hinit
  obtain ⟨data, -, rfl⟩ := hinit
  exact ⟨rfl, rfl, rfl⟩

/-- A second check in a window waits for its predecessors. -/
def EachWindowChecked (c : ℕ) (times : List ℕ) : Prop :=
  Each (fun before e => (∃ x ∈ before, SameWindow c x e) →
    (windowOf c e + 1) * c < 2 ^ 32 ∧ ∀ k < windowOf c e, ∃ x ∈ before, InWindow c k x) times

theorem timesOutOnce_iff_checked {fuel : ℕ} {filePath : List Char} {rotateSize : UInt32}
    {compressType : UInt8} {uptime : ℕ} {slots : ℕ → PcapPacket} {storage : ℕ → UInt8}
    {gipHelper : GzipHelper Z}
    (hinit : init env fuel filePath rotateSize c compressType uptime start slots storage gipHelper =
      some l) (hc : 1 ≤ c.toNat) {es : List Event} (hes : Readings Event.uptime start es) :
    TimesOutOnce (fun es => (l.run env fresh es).toOption) Event.uptime timeOut start c.toNat es ↔
      EachWindowChecked c.toNat (elapsed Event.uptime start es) := by
  have htracks : ∀ before after, es = before ++ after → ∃ s,
      (l.run env fresh before).toOption = some s ∧
        Tracks (stepTimer (2 ^ 32) c.toNat) c start (elapsed Event.uptime start before) s := by
    rintro before after rfl
    obtain ⟨s, hrun, htracks⟩ := run_tracks (init_tracks hinit) (init_holds hinit)
      (List.forall_mem_append.mp hes.inRange).1
    exact ⟨s, congrArg Except.toOption hrun, htracks⟩
  rw [timesOutOnce_iff_of_tracks (fun _ => rfl) hes htracks, Timer.oncePerWindow_iff hc,
    stepTimer_separates_iff hc c.toNat_lt.le hes.elapsed_sorted hes.elapsed_lt]
  rfl

end BasicBusinessLogger

/-! ## The build with the vector -/

namespace VectorLogger

def Event.uptime : Event → Option ℕ
  | .pushBack _ => none
  | .checkRotate clock => some clock.uptime

/-- The reading of the time-out test is also the one for the new `m_roate_cnt`. -/
def Event.OneReading : Event → Prop
  | .pushBack _ => True
  | .checkRotate clock => clock.uptimeCnt = clock.uptime

variable {env : Env Z} {l l' : VectorLogger Z}

theorem cycles_eq (hstart : start ≤ u) (hlt : u - start < 2 ^ 32) :
    (UInt32.ofNat u - UInt32.ofNat start) / c + 1 =
      UInt32.ofNat ((cycleTimer (2 ^ 32) c.toNat).inc (u - start)) := by
  rw [← UInt32.toNat_inj, UInt32.toNat_add, UInt32.toNat_div, elapsed_toNat hstart hlt,
    UInt32.toNat_ofNat']
  rfl

theorem countRotation_tracks {members : BasicBusinessLogger Z} {clock : VectorClock}
    (h : Tracks (cycleTimer (2 ^ 32) c.toNat) c start times members)
    (hstart : start ≤ clock.uptime) (hlt : clock.uptime - start < 2 ^ 32)
    (hone : clock.uptimeCnt = clock.uptime) :
    Tracks (cycleTimer (2 ^ 32) c.toNat) c start (times ++ [clock.uptime - start])
      (countRotation members clock) := by
  refine h.check (fun _ => rfl) hstart hlt ?_ ?_ ?_
  · rw [countRotation]
    split <;> rfl
  · rw [countRotation]
    split <;> rfl
  · rw [countRotation, ← cycles_eq hstart hlt, hone, h.startTime, h.rotateCycle]
    split <;> rfl

theorem step_tracks (hc : c ≠ 0) (h : Tracks (cycleTimer (2 ^ 32) c.toNat) c start times l.members)
    {e : Event} (hone : e.OneReading)
    (hu : ∀ u, e.uptime = some u → start ≤ u ∧ u - start < 2 ^ 32) :
    ∃ l', l.step env e = some l' ∧ Tracks (cycleTimer (2 ^ 32) c.toNat) c start
      (times ++ (e.uptime.map (· - start)).toList) l'.members := by
  cases e with
  | pushBack packet => exact ⟨_, rfl, (List.append_nil times).symm ▸ h⟩
  | checkRotate clock =>
      obtain ⟨hstart, hlt⟩ := hu clock.uptime rfl
      have hcounted := countRotation_tracks h hstart hlt hone
      have hcycle : l.members.rotateCycle ≠ 0 := h.rotateCycle ▸ hc
      rw [step, checkRotate, if_neg fun h => hcycle h.2]
      dsimp only
      split
      · refine ⟨_, rfl, Tracks.drain ?_ env _ _ _⟩
        exact ⟨hcounted.startTime, hcounted.rotateCycle, hcounted.roateCnt⟩
      · exact ⟨_, rfl, hcounted⟩

theorem run_tracks (hc : c ≠ 0) (h : Tracks (cycleTimer (2 ^ 32) c.toNat) c start times l.members)
    {es : List Event} (hone : ∀ e ∈ es, e.OneReading)
    (hes : ∀ e ∈ es, ∀ u, e.uptime = some u → start ≤ u ∧ u - start < 2 ^ 32) :
    ∃ l', l.run env es = some l' ∧ Tracks (cycleTimer (2 ^ 32) c.toNat) c start
      (times ++ elapsed Event.uptime start es) l'.members := by
  induction es generalizing l times with
  | nil => exact ⟨l, rfl, (List.append_nil times).symm ▸ h⟩
  | cons e es ih =>
      obtain ⟨hfirst, hrest⟩ := List.forall_mem_cons.mp hone
      obtain ⟨hinFirst, hinRest⟩ := List.forall_mem_cons.mp hes
      obtain ⟨l₁, hstep, htracks₁⟩ := step_tracks hc h hfirst hinFirst
      obtain ⟨l', hrun, htracks⟩ := ih htracks₁ hrest hinRest
      refine ⟨l', by rw [VectorLogger.run, hstep]; exact hrun, ?_⟩
      rwa [elapsed_cons, ← List.append_assoc]

/-- The cycles that the first checks of the windows add to `m_roate_cnt`. -/
def cyclesAdded (c : ℕ) (times : List ℕ) : ℕ := ((firsts c times).map fun e => e / c + 1).sum

/-- A first check in a window is over the cycles added before it, and a later one is not. -/
def CyclesInStep (c : ℕ) (times : List ℕ) : Prop :=
  Each (fun before e => 0 < e →
    ((∀ x ∈ before, ¬SameWindow c x e) → cyclesAdded c before * c % 2 ^ 32 < e) ∧
      ((∃ x ∈ before, SameWindow c x e) → e ≤ cyclesAdded c before * c % 2 ^ 32)) times

theorem cycleTimer_separates_iff (c : ℕ) (times : List ℕ) :
    (cycleTimer (2 ^ 32) c).Separates c times ↔ CyclesInStep c times := by
  refine each_congr fun before e after _ => forall_congr' fun _ => ?_
  have hlimit : (cycleTimer (2 ^ 32) c).limit ((cycleTimer (2 ^ 32) c).total c before) =
      cyclesAdded c before * c % 2 ^ 32 := rfl
  rw [hlimit]
  constructor
  · intro h
    refine ⟨h.mpr, ?_⟩
    rintro ⟨x, hx, hsame⟩
    exact Nat.not_lt.mp fun hlt => h.mp hlt x hx hsame
  · rintro ⟨hfirst, hlater⟩
    exact ⟨fun hlt x hx hsame => absurd (hlater ⟨x, hx, hsame⟩) (Nat.not_le.mpr hlt), hfirst⟩

theorem timesOutOnce_iff_inStep {filePath : List Char} {rotateSize : UInt32} {compressType : UInt8}
    {uptime : ℕ} {storage : ℕ → UInt8} {gipHelper : GzipHelper Z}
    {ring : RingConfig × RingMem PcapPacket}
    (hinit : init env filePath rotateSize c compressType uptime start storage gipHelper ring = l)
    (hc : 1 ≤ c.toNat) {es : List Event} (hone : ∀ e ∈ es, e.OneReading)
    (hes : Readings Event.uptime start es) :
    TimesOutOnce (l.run env) Event.uptime (fun l => l.members.timeOut) start c.toNat es ↔
      CyclesInStep c.toNat (elapsed Event.uptime start es) := by
  have hstart : Tracks (cycleTimer (2 ^ 32) c.toNat) c start [] l.members := by
    rw [← hinit]
    exact ⟨rfl, rfl, rfl⟩
  have hne : c ≠ 0 := fun h => by
    rw [h] at hc
    exact absurd hc (by decide)
  have htracks : ∀ before after, es = before ++ after → ∃ s, l.run env before = some s ∧
      Tracks (cycleTimer (2 ^ 32) c.toNat) c start (elapsed Event.uptime start before)
        s.members := by
    rintro before after rfl
    exact run_tracks hne hstart (List.forall_mem_append.mp hone).1
      (List.forall_mem_append.mp hes.inRange).1
  rw [timesOutOnce_iff_of_tracks (fun _ => rfl) hes htracks, Timer.oncePerWindow_iff hc,
    cycleTimer_separates_iff]

end VectorLogger

/-! ## Both builds -/

open BasicBusinessLogger

/-- The time-out test fires once per window, in the build with the ring if no window is
checked twice before all windows before it are checked, and in the build with the vector if
the cycles that it adds up keep in step with the windows. -/
theorem timesOutOnce_iff_of_builds {env : Env Z} (fresh : ℕ → PcapPacket) {fuel : ℕ}
    {filePath : List Char} {rotateSize : UInt32} {compressType : UInt8} {uptime : ℕ}
    {slots : ℕ → PcapPacket} {storage : ℕ → UInt8} {gipHelper : GzipHelper Z}
    {ring : RingConfig × RingMem PcapPacket} {l : BasicBusinessLogger Z} {v : VectorLogger Z}
    (hc : 1 ≤ c.toNat)
    (hring : BasicBusinessLogger.init env fuel filePath rotateSize c compressType uptime start
      slots storage gipHelper = some l)
    (hvector : VectorLogger.init env filePath rotateSize c compressType uptime start storage
      gipHelper ring = v)
    (es : List BasicBusinessLogger.Event)
    (hes : Readings BasicBusinessLogger.Event.uptime start es)
    (vs : List VectorLogger.Event) (hone : ∀ e ∈ vs, e.OneReading)
    (hvs : Readings VectorLogger.Event.uptime start vs) :
    (TimesOutOnce (fun es => (l.run env fresh es).toOption) BasicBusinessLogger.Event.uptime
        BasicBusinessLogger.timeOut start c.toNat es ↔
      EachWindowChecked c.toNat
        (elapsed BasicBusinessLogger.Event.uptime start es)) ∧
    (TimesOutOnce (v.run env) VectorLogger.Event.uptime (fun v => v.members.timeOut) start c.toNat
        vs ↔
      VectorLogger.CyclesInStep c.toNat (elapsed VectorLogger.Event.uptime start vs)) :=
  ⟨timesOutOnce_iff_checked hring hc hes,
    VectorLogger.timesOutOnce_iff_inStep hvector hc hone hvs⟩

/-- Checks of the build with the ring at the given uptimes. -/
def checksAt (uptimes : List ℕ) : List BasicBusinessLogger.Event :=
  uptimes.map fun u => .checkRotate ⟨u, u, u⟩

/-- Checks of the build with the vector at the given uptimes. -/
def vectorChecksAt (uptimes : List ℕ) : List VectorLogger.Event :=
  uptimes.map fun u => .checkRotate ⟨⟨u, u, u⟩, u⟩

def vectorTextLogger : VectorLogger Unit := ⟨[], textLogger⟩

theorem init_vectorTextLogger (fopen : ℕ → Bool) :
    VectorLogger.init (textEnv fopen) "./log".toList ((100 : UInt32) <<< 20) 1
      kCompressNone 0 0 (fun _ => 0) (gzipHelper noZlib 0 fun _ => 0)
      textLogger.data = vectorTextLogger := rfl

/-- One event for each uptime. -/
theorem readings_map {E : Type*} {uptime : E → Option ℕ} (check : ℕ → E)
    (hcheck : ∀ u, uptime (check u) = some u) {uptimes : List ℕ}
    (hsorted : uptimes.Pairwise (· ≤ ·)) (hlt : ∀ u ∈ uptimes, u < 2 ^ 32) :
    Readings uptime 0 (uptimes.map check) := by
  constructor
  · have huptimes : (uptimes.map check).filterMap uptime = uptimes := by
      rw [List.filterMap_map, Function.comp_def]
      simp only [hcheck, List.filterMap_some]
    exact huptimes.symm ▸ hsorted
  · intro e he u hu
    obtain ⟨u', hmem, rfl⟩ := List.mem_map.mp he
    obtain rfl := Option.some.inj ((hcheck u').symm.trans hu)
    exact ⟨Nat.zero_le _, hlt _ hmem⟩

theorem checksAt_readings {uptimes : List ℕ} (hsorted : uptimes.Pairwise (· ≤ ·))
    (hlt : ∀ u ∈ uptimes, u < 2 ^ 32) :
    Readings BasicBusinessLogger.Event.uptime 0 (checksAt uptimes) ∧
      Readings VectorLogger.Event.uptime 0 (vectorChecksAt uptimes) := by
  constructor
  · exact readings_map (fun u => BasicBusinessLogger.Event.checkRotate ⟨u, u, u⟩)
      (fun _ => rfl) hsorted hlt
  · exact readings_map (fun u => VectorLogger.Event.checkRotate ⟨⟨u, u, u⟩, u⟩)
      (fun _ => rfl) hsorted hlt

theorem vectorChecksAt_oneReading (uptimes : List ℕ) :
    ∀ e ∈ vectorChecksAt uptimes, e.OneReading := by
  intro e he
  obtain ⟨u, -, rfl⟩ := List.mem_map.mp he
  rfl

/-- Checks after five and seven cycles of one second each find a time-out in both builds. -/
theorem timesOutOnce_of_two_checks :
    TimesOutOnce (fun es => (textLogger.run (textEnv fun _ => true) noPackets es).toOption)
      BasicBusinessLogger.Event.uptime BasicBusinessLogger.timeOut 0 1 (checksAt [5, 7]) ∧
    TimesOutOnce (vectorTextLogger.run (textEnv fun _ => true))
      VectorLogger.Event.uptime (fun v => v.members.timeOut) 0 1 (vectorChecksAt [5, 7]) := by
  have hreadings := checksAt_readings (by decide : [5, 7].Pairwise (· ≤ ·)) (by decide)
  have hiff := timesOutOnce_iff_of_builds noPackets (by decide : 1 ≤ (1 : UInt32).toNat)
    (init_textLogger fun _ => true) (init_vectorTextLogger fun _ => true) (checksAt [5, 7])
    hreadings.1 (vectorChecksAt [5, 7]) (vectorChecksAt_oneReading [5, 7]) hreadings.2
  refine ⟨hiff.1.mpr ?_, hiff.2.mpr ?_⟩
  · change Each _ ([] ++ [5] ++ [7])
    rw [each_concat, each_concat]
    exact ⟨⟨each_nil, fun h => absurd h (by decide)⟩, fun h => absurd h (by decide)⟩
  · change Each _ ([] ++ [5] ++ [7])
    rw [each_concat, each_concat]
    exact ⟨⟨each_nil, fun _ => by decide⟩, fun _ => by decide⟩

/-- A second check in the tenth window finds a time-out in the build with the ring, and a first
check in the eleventh finds none in the build with the vector. -/
theorem timeOut_out_of_step :
    ¬TimesOutOnce (fun es => (textLogger.run (textEnv fun _ => true) noPackets es).toOption)
      BasicBusinessLogger.Event.uptime BasicBusinessLogger.timeOut 0 1 (checksAt [10, 10]) ∧
    ¬TimesOutOnce (vectorTextLogger.run (textEnv fun _ => true))
      VectorLogger.Event.uptime (fun v => v.members.timeOut) 0 1 (vectorChecksAt [10, 11]) := by
  have hring := checksAt_readings (by decide : [10, 10].Pairwise (· ≤ ·)) (by decide)
  have hvector := checksAt_readings (by decide : [10, 11].Pairwise (· ≤ ·)) (by decide)
  constructor
  · refine mt (timesOutOnce_iff_checked (c := 1) (init_textLogger fun _ => true) (by decide)
      hring.1).mp fun h => ?_
    obtain ⟨-, hall⟩ := h [10] 10 [] rfl (by decide)
    exact absurd (hall 0 (by decide)) (by decide)
  · refine mt (VectorLogger.timesOutOnce_iff_inStep (c := 1)
      (init_vectorTextLogger fun _ => true) (by decide) (vectorChecksAt_oneReading [10, 11])
      hvector.2).mp fun h => ?_
    exact absurd ((h [10] 11 [] rfl (by decide)).1 (by decide)) (by decide)

end Restore.Logger
