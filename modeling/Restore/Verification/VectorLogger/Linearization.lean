import Restore.Model.VectorLoggerMachine
import Restore.Shared.Linearization
import Restore.Verification.Logger.Conservation
import Restore.Verification.Logger.Timeout

/-! # The vector logger under threads

`m_mutex` makes each `push_back` take effect when it writes `m_data`. A `checkRotate` takes
effect when it empties `m_data`, or when it finds too few packets there. -/

namespace Restore.Logger

open Pcap BasicBusinessLogger

variable {ι Z : Type*}

/-! ## Where the calls stand -/

/-- The call that has yet to take effect. -/
def PushPc.pending : PushPc → Option VectorLogger.Event
  | .locking packet | .loading packet | .storing packet _ => some (.pushBack packet)
  | .idle | .unlocking => none

def RotatePc.pending : RotatePc → Option VectorLogger.Event
  | .sizing clock _ | .locking clock _ | .loading clock _ | .storing clock _ _ =>
      some (.checkRotate clock)
  | .idle | .unlocking .. | .draining .. => none

/-- Between `LOCK_LOCK` and `LOCK_UNLOCK`. -/
def PushPc.Inside : PushPc → Prop
  | .loading _ | .storing .. | .unlocking => True
  | .idle | .locking _ => False

def RotatePc.Inside : RotatePc → Prop
  | .loading .. | .storing .. | .unlocking .. => True
  | .idle | .sizing .. | .locking .. | .draining .. => False

/-- The rest of the drain loop, and the last `if` of `checkRotate`. -/
def BasicBusinessLogger.finish (env : Env Z) (l : BasicBusinessLogger Z) (isTimeOut : Bool)
    (rest : List PcapPacket) : BasicBusinessLogger Z :=
  let l := rest.foldl (drainOne env) l
  if isTimeOut && l.serialCnt == 0 then l.outputFile env else l

/-- `l` is the logger `s` after the first `if` of `checkRotate`. -/
structure VectorLogger.Counted (s l : VectorLogger Z) (clock : VectorClock) (isTimeOut : Bool) :
    Prop where
  data : s.data = l.data
  members : l.members = countRotation s.members clock
  timeOut : isTimeOut = s.members.timeOut clock.uptime
  noFault : ¬(isTimeOut = true ∧ s.members.rotateCycle = 0)

/-- `s` is the logger `l` with all of the running `checkRotate` done, once that has taken
effect, and with nothing of it done before. -/
def RotatePc.Stands (env : Env Z) (s l : VectorLogger Z) : RotatePc → Prop
  | .idle => s = l
  | .sizing clock isTimeOut => s.Counted l clock isTimeOut
  | .locking clock isTimeOut | .loading clock isTimeOut | .storing clock isTimeOut _ =>
      s.Counted l clock isTimeOut ∧
        (isTimeOut || decide (kVectorThreshold.toNat ≤ l.data.length)) = true
  | .unlocking clock isTimeOut data =>
      s = ⟨l.data, l.members.drain env clock.now isTimeOut data⟩
  | .draining isTimeOut rest => s = ⟨l.data, l.members.finish env isTimeOut rest⟩

/-- More packets change nothing of this. -/
theorem RotatePc.Stands.push {env : Env Z} {s l : VectorLogger Z} {pc : RotatePc}
    (h : pc.Stands env s l) (packet : PcapPacket) :
    pc.Stands env (s.pushBack packet).1 { l with data := l.data ++ [packet] } := by
  have hcounted {clock : VectorClock} {isTimeOut : Bool} (h : s.Counted l clock isTimeOut) :
      (s.pushBack packet).1.Counted { l with data := l.data ++ [packet] } clock isTimeOut :=
    ⟨congrArg (· ++ [packet]) h.data, h.members, h.timeOut, h.noFault⟩
  have henough {isTimeOut : Bool}
      (h : (isTimeOut || decide (kVectorThreshold.toNat ≤ l.data.length)) = true) :
      (isTimeOut || decide (kVectorThreshold.toNat ≤ (l.data ++ [packet]).length)) = true := by
    rw [Bool.or_eq_true, decide_eq_true_iff] at h ⊢
    rw [List.length_append]
    exact h.imp_right fun hle => Nat.le_add_right_of_le hle
  cases pc with
  | idle => exact congrArg (fun s => (VectorLogger.pushBack s packet).1) h
  | sizing => exact hcounted h
  | locking | loading | storing => exact ⟨hcounted h.1, henough h.2⟩
  | unlocking => exact congrArg (fun s => (VectorLogger.pushBack s packet).1) h
  | draining => exact congrArg (fun s => (VectorLogger.pushBack s packet).1) h

namespace VectorWorld

/-- The call of the thread that has yet to take effect. -/
def pending (w : VectorWorld ι Z) : Option ι → Option VectorLogger.Event
  | some t => (w.pushBack t).pending
  | none => w.checkRotate.pending

def Inside (w : VectorWorld ι Z) : Option ι → Prop
  | some t => (w.pushBack t).Inside
  | none => w.checkRotate.Inside

variable [DecidableEq ι] {env : Env Z} {l₀ : VectorLogger Z} {w w' : VectorWorld ι Z}

/-- The mutex keeps others out, what the thread inside has read is still there, and the calls so
far amount to calls one after another. -/
structure Sound (env : Env Z) (l₀ : VectorLogger Z) (w : VectorWorld ι Z) : Prop where
  guards : Guards w.mutex w.Inside
  pushed : ∀ t packet data, w.pushBack t = .storing packet data → data = w.logger.data
  swapped : ∀ clock isTimeOut data, w.checkRotate = .storing clock isTimeOut data →
    data = w.logger.data
  linear : ∃ s, Linearizes (VectorLogger.call env) l₀ w.calls w.order w.pending s ∧
    w.checkRotate.Stands env s w.logger

theorem sound_start (env : Env Z) (l₀ : VectorLogger Z) :
    (start l₀ : VectorWorld ι Z).Sound env l₀ where
  guards t ht := by cases t <;> exact ht.elim
  pushed t packet data h := by cases h
  swapped clock isTimeOut data h := by cases h
  linear := ⟨l₀, .start _ _ fun t => by cases t <;> rfl, rfl⟩

/-! ## Steps of `push_back` -/

@[simp] theorem goto_self (w : VectorWorld ι Z) (t : ι) (pc : PushPc) :
    (w.goto t pc).pushBack t = pc := Function.update_self ..

theorem goto_of_ne (w : VectorWorld ι Z) {t u : ι} (hne : u ≠ t) (pc : PushPc) :
    (w.goto t pc).pushBack u = w.pushBack u := Function.update_of_ne hne ..

/-- The other threads stay where they are. -/
theorem goto_cases {t u : ι} {pc pc' : PushPc} (h : (w.goto t pc).pushBack u = pc') :
    u = t ∧ pc = pc' ∨ u ≠ t ∧ w.pushBack u = pc' := by
  by_cases heq : u = t
  · subst heq
    exact .inl ⟨rfl, (goto_self w u pc).symm.trans h⟩
  · exact .inr ⟨heq, (goto_of_ne w heq pc).symm.trans h⟩

theorem inside_goto_cases {t : ι} {pc : PushPc} {u : Option ι} (h : (w.goto t pc).Inside u) :
    u = some t ∧ pc.Inside ∨ u ≠ some t ∧ w.Inside u := by
  cases u with
  | none => exact .inr ⟨by simp, h⟩
  | some u =>
      rcases goto_cases (rfl : (w.goto t pc).pushBack u = _) with ⟨rfl, hpc⟩ | ⟨hne, hpc⟩
      · exact .inl ⟨rfl, by rw [hpc]; exact h⟩
      · exact .inr ⟨fun heq => hne (Option.some.inj heq), by rw [Inside, hpc]; exact h⟩

theorem pending_goto_of_ne {t : ι} {pc : PushPc} {u : Option ι} (hne : u ≠ some t) :
    (w.goto t pc).pending u = w.pending u := by
  cases u with
  | none => rfl
  | some u => rw [pending, goto_of_ne w fun heq => hne (congrArg some heq), pending]

theorem pending_goto_self (w : VectorWorld ι Z) (t : ι) (pc : PushPc) :
    (w.goto t pc).pending (some t) = pc.pending := by
  rw [pending, goto_self]

/-- A step inside a call that neither takes effect nor writes `m_data`. -/
theorem pending_goto {t : ι} {pc : PushPc} (hpc : pc.pending = (w.pushBack t).pending)
    (u : Option ι) : (w.goto t pc).pending u = w.pending u := by
  by_cases hu : u = some t
  · rw [hu, pending_goto_self, hpc, pending]
  · exact pending_goto_of_ne hu

theorem Sound.enter_pushBack (h : w.Sound env l₀) {t : ι} (hidle : w.pushBack t = .idle)
    (packet : PcapPacket) :
    ({ w.goto t (.locking packet) with
      calls := w.calls ++ [(some t, .pushBack packet)] } : VectorWorld ι Z).Sound env l₀ := by
  refine ⟨h.guards.mono fun u hu => ?_, fun u p data hu => ?_, h.swapped, ?_⟩
  · rcases inside_goto_cases hu with ⟨-, hin⟩ | ⟨-, hin⟩
    · exact hin.elim
    · exact hin
  · rcases goto_cases hu with ⟨-, hpc⟩ | ⟨-, hpc⟩
    · cases hpc
    · exact h.pushed u p data hpc
  · obtain ⟨s, hlinear, hstands⟩ := h.linear
    refine ⟨s, hlinear.enter ?_ (pending_goto_self w t _) fun u hne => pending_goto_of_ne hne,
      hstands⟩
    rw [pending, hidle]
    rfl

theorem Sound.lock_pushBack (h : w.Sound env l₀) {t : ι} {packet : PcapPacket}
    (hpc : w.pushBack t = .locking packet) (hfree : w.mutex = none) :
    ({ w.goto t (.loading packet) with mutex := some (some t) } : VectorWorld ι Z).Sound env
      l₀ := by
  have hguards := h.guards
  rw [hfree] at hguards
  refine ⟨hguards.lock fun u hne hu => ?_, fun u p data hu => ?_, h.swapped, ?_⟩
  · rcases inside_goto_cases hu with ⟨heq, -⟩ | ⟨-, hin⟩
    · exact absurd heq hne
    · exact hin
  · rcases goto_cases hu with ⟨-, hpc⟩ | ⟨-, hpc⟩
    · cases hpc
    · exact h.pushed u p data hpc
  · obtain ⟨s, hlinear, hstands⟩ := h.linear
    exact ⟨s, hlinear.stutter (pending_goto (by rw [hpc]; rfl)), hstands⟩

theorem Sound.load_pushBack (h : w.Sound env l₀) {t : ι} {packet : PcapPacket}
    (hpc : w.pushBack t = .loading packet) :
    (w.goto t (.storing packet w.logger.data)).Sound env l₀ := by
  have hin : w.Inside (some t) := by rw [Inside, hpc]; trivial
  refine ⟨h.guards.mono fun u hu => ?_, fun u p data hu => ?_, h.swapped, ?_⟩
  · rcases inside_goto_cases hu with ⟨rfl, -⟩ | ⟨-, hin⟩
    · exact hin
    · exact hin
  · rcases goto_cases hu with ⟨-, hpc⟩ | ⟨-, hpc⟩
    · cases hpc
      rfl
    · exact h.pushed u p data hpc
  · obtain ⟨s, hlinear, hstands⟩ := h.linear
    exact ⟨s, hlinear.stutter (pending_goto (by rw [hpc]; rfl)), hstands⟩

/-- While one thread is inside, no other has read `m_data`. -/
theorem Sound.store_pushBack (h : w.Sound env l₀) {t : ι} {packet : PcapPacket}
    {data : List PcapPacket} (hpc : w.pushBack t = .storing packet data) :
    ({ w.goto t .unlocking with
      logger := { w.logger with data := data ++ [packet] }
      order := w.order ++ [(some t, .pushBack packet, 0)] } : VectorWorld ι Z).Sound env l₀ := by
  obtain rfl := h.pushed t packet data hpc
  have hin : w.Inside (some t) := by rw [Inside, hpc]; trivial
  refine ⟨h.guards.mono fun u hu => ?_, fun u p data hu => ?_,
    fun clock isTimeOut data hu => ?_, ?_⟩
  · rcases inside_goto_cases hu with ⟨rfl, -⟩ | ⟨-, hin⟩
    · exact hin
    · exact hin
  · rcases goto_cases hu with ⟨-, hpc⟩ | ⟨hne, hpc⟩
    · cases hpc
    · have hother : w.Inside (some u) := by rw [Inside, hpc]; trivial
      exact absurd (Option.some.inj (h.guards.unique hother hin)) hne
  · have hother : w.Inside none := by
      rw [Inside, show w.checkRotate = .storing clock isTimeOut data from hu]
      trivial
    cases h.guards.unique hother hin
  · obtain ⟨s, hlinear, hstands⟩ := h.linear
    refine ⟨_, hlinear.effect (t := some t) (e := .pushBack packet) (r := 0) rfl ?_
      (pending_goto_self w t _) fun u hne => pending_goto_of_ne hne, hstands.push packet⟩
    rw [pending, hpc]
    rfl

theorem Sound.unlock_pushBack (h : w.Sound env l₀) {t : ι} (hpc : w.pushBack t = .unlocking) :
    ({ w.goto t .idle with mutex := none } : VectorWorld ι Z).Sound env l₀ := by
  have hin : w.Inside (some t) := by rw [Inside, hpc]; trivial
  refine ⟨h.guards.unlock hin fun u hu => ?_, fun u p data hu => ?_, h.swapped, ?_⟩
  · rcases inside_goto_cases hu with ⟨-, hin⟩ | hother
    · exact hin.elim
    · exact hother
  · rcases goto_cases hu with ⟨-, hpc⟩ | ⟨-, hpc⟩
    · cases hpc
    · exact h.pushed u p data hpc
  · obtain ⟨s, hlinear, hstands⟩ := h.linear
    exact ⟨s, hlinear.stutter (pending_goto (by rw [hpc]; rfl)), hstands⟩

theorem Sound.runPush (h : w.Sound env l₀) (t : ι) : (w.runPush t).Sound env l₀ := by
  cases hpc : w.pushBack t with
  | idle =>
      rw [VectorWorld.runPush, hpc]
      exact h
  | locking packet =>
      cases hmutex : w.mutex with
      | none =>
          simp only [VectorWorld.runPush, hpc, hmutex]
          exact h.lock_pushBack hpc hmutex
      | some holder =>
          simp only [VectorWorld.runPush, hpc, hmutex]
          exact h
  | loading packet =>
      rw [VectorWorld.runPush, hpc]
      exact h.load_pushBack hpc
  | storing packet data =>
      rw [VectorWorld.runPush, hpc]
      exact h.store_pushBack hpc
  | unlocking =>
      rw [VectorWorld.runPush, hpc]
      exact h.unlock_pushBack hpc

/-! ## Steps of `checkRotate` -/

omit [DecidableEq ι] in
/-- A step of the logger thread leaves the others where they are. -/
theorem inside_rotate_cases {pc : RotatePc} {u : Option ι}
    (h : ({ w with checkRotate := pc } : VectorWorld ι Z).Inside u) :
    u = none ∧ pc.Inside ∨ u ≠ none ∧ w.Inside u := by
  cases u with
  | none => exact .inl ⟨rfl, h⟩
  | some u => exact .inr ⟨by simp, h⟩

omit [DecidableEq ι] in
theorem pending_rotate {pc : RotatePc} (hpc : pc.pending = w.checkRotate.pending)
    (u : Option ι) : ({ w with checkRotate := pc } : VectorWorld ι Z).pending u = w.pending u := by
  cases u with
  | none => exact hpc
  | some u => rfl

omit [DecidableEq ι] in
theorem pending_rotate_of_ne {pc : RotatePc} {u : Option ι} (hne : u ≠ none) :
    ({ w with checkRotate := pc } : VectorWorld ι Z).pending u = w.pending u := by
  cases u with
  | none => exact absurd rfl hne
  | some u => rfl

theorem Sound.enter_checkRotate (h : w.Sound env l₀) (hidle : w.checkRotate = .idle)
    (clock : VectorClock)
    (hfault : ¬(w.logger.members.timeOut clock.uptime ∧ w.logger.members.rotateCycle = 0)) :
    ({ w with
      logger := { w.logger with members := VectorLogger.countRotation w.logger.members clock }
      checkRotate := .sizing clock (w.logger.members.timeOut clock.uptime)
      calls := w.calls ++ [(none, .checkRotate clock)] } : VectorWorld ι Z).Sound env l₀ := by
  refine ⟨h.guards.mono fun u hu => ?_, h.pushed, nofun, ?_⟩
  · rcases inside_rotate_cases hu with ⟨-, hin⟩ | ⟨-, hin⟩
    · exact hin.elim
    · exact hin
  · obtain ⟨s, hlinear, hstands⟩ := h.linear
    rw [hidle] at hstands
    obtain rfl : s = w.logger := hstands
    refine ⟨_, hlinear.enter ?_ rfl fun u hne => pending_rotate_of_ne hne, rfl, rfl, rfl, hfault⟩
    rw [pending, hidle]
    rfl

theorem Sound.size_checkRotate (h : w.Sound env l₀) {clock : VectorClock} {isTimeOut : Bool}
    (hpc : w.checkRotate = .sizing clock isTimeOut)
    (henough : (isTimeOut || decide (kVectorThreshold.toNat ≤ w.logger.data.length)) = true) :
    ({ w with checkRotate := .locking clock isTimeOut } : VectorWorld ι Z).Sound env l₀ := by
  refine ⟨h.guards.mono fun u hu => ?_, h.pushed, nofun, ?_⟩
  · rcases inside_rotate_cases hu with ⟨-, hin⟩ | ⟨-, hin⟩
    · exact hin.elim
    · exact hin
  · obtain ⟨s, hlinear, hstands⟩ := h.linear
    rw [hpc] at hstands
    exact ⟨s, hlinear.stutter (pending_rotate (by rw [hpc]; rfl)), hstands, henough⟩

/-- A check that finds too few packets does nothing more. -/
theorem Sound.leave_checkRotate (h : w.Sound env l₀) {clock : VectorClock} {isTimeOut : Bool}
    (hpc : w.checkRotate = .sizing clock isTimeOut)
    (hfew : (isTimeOut || decide (kVectorThreshold.toNat ≤ w.logger.data.length)) = false) :
    ({ w with
      checkRotate := .idle
      order := w.order ++ [(none, .checkRotate clock, 0)] } : VectorWorld ι Z).Sound env l₀ := by
  refine ⟨h.guards.mono fun u hu => ?_, h.pushed, nofun, ?_⟩
  · rcases inside_rotate_cases hu with ⟨-, hin⟩ | ⟨-, hin⟩
    · exact hin.elim
    · exact hin
  · obtain ⟨s, hlinear, hstands⟩ := h.linear
    rw [hpc] at hstands
    obtain ⟨hdata, hmembers, htimeOut, hfault⟩ := hstands
    have hcall : VectorLogger.call env s (.checkRotate clock) = some (w.logger, 0) := by
      rw [VectorLogger.call, VectorLogger.checkRotate, ← htimeOut, if_neg hfault, hdata, hfew,
        ← hmembers]
      rfl
    refine ⟨_, hlinear.effect hcall ?_ rfl fun u hne => pending_rotate_of_ne hne, rfl⟩
    rw [pending, hpc]
    rfl

theorem Sound.lock_checkRotate (h : w.Sound env l₀) {clock : VectorClock} {isTimeOut : Bool}
    (hpc : w.checkRotate = .locking clock isTimeOut) (hfree : w.mutex = none) :
    ({ w with mutex := some none, checkRotate := .loading clock isTimeOut } :
      VectorWorld ι Z).Sound env l₀ := by
  have hguards := h.guards
  rw [hfree] at hguards
  refine ⟨hguards.lock fun u hne hu => ?_, h.pushed, nofun, ?_⟩
  · rcases inside_rotate_cases hu with ⟨heq, -⟩ | ⟨-, hin⟩
    · exact absurd heq hne
    · exact hin
  · obtain ⟨s, hlinear, hstands⟩ := h.linear
    rw [hpc] at hstands
    exact ⟨s, hlinear.stutter (pending_rotate (by rw [hpc]; rfl)), hstands⟩

theorem Sound.load_checkRotate (h : w.Sound env l₀) {clock : VectorClock} {isTimeOut : Bool}
    (hpc : w.checkRotate = .loading clock isTimeOut) :
    ({ w with checkRotate := .storing clock isTimeOut w.logger.data } :
      VectorWorld ι Z).Sound env l₀ := by
  have hin : w.Inside none := by rw [Inside, hpc]; trivial
  refine ⟨h.guards.mono fun u hu => ?_, h.pushed, fun _ _ _ hu => ?_, ?_⟩
  · rcases inside_rotate_cases hu with ⟨rfl, -⟩ | ⟨-, hin⟩
    · exact hin
    · exact hin
  · cases hu
    rfl
  · obtain ⟨s, hlinear, hstands⟩ := h.linear
    rw [hpc] at hstands
    exact ⟨s, hlinear.stutter (pending_rotate (by rw [hpc]; rfl)), hstands⟩

/-- The check takes effect for all packets that are in `m_data` by now. -/
theorem Sound.store_checkRotate (h : w.Sound env l₀) {clock : VectorClock} {isTimeOut : Bool}
    {data : List PcapPacket} (hpc : w.checkRotate = .storing clock isTimeOut data) :
    (w.runRotate env).Sound env l₀ := by
  obtain rfl := h.swapped clock isTimeOut data hpc
  have hin : w.Inside none := by rw [Inside, hpc]; trivial
  rw [runRotate, hpc]
  refine ⟨h.guards.mono fun u hu => ?_, fun t packet data hu => ?_, nofun, ?_⟩
  · rcases inside_rotate_cases (w := w) hu with ⟨rfl, -⟩ | ⟨-, hin⟩
    · exact hin
    · exact hin
  · have hother : w.Inside (some t) := by
      rw [Inside, show w.pushBack t = .storing packet data from hu]
      trivial
    cases h.guards.unique hother hin
  · obtain ⟨s, hlinear, hstands⟩ := h.linear
    rw [hpc] at hstands
    obtain ⟨⟨hdata, hmembers, htimeOut, hfault⟩, henough⟩ := hstands
    refine ⟨_, hlinear.effect (t := none) (e := .checkRotate clock) (r := 1) ?_ ?_ rfl
      fun u hne => pending_rotate_of_ne hne, rfl⟩
    · rw [VectorLogger.call, VectorLogger.checkRotate, ← htimeOut, if_neg hfault, hdata, henough,
        ← hmembers]
      rfl
    · rw [pending, hpc]
      rfl

theorem Sound.unlock_checkRotate (h : w.Sound env l₀) {clock : VectorClock} {isTimeOut : Bool}
    {data : List PcapPacket} (hpc : w.checkRotate = .unlocking clock isTimeOut data) :
    (w.runRotate env).Sound env l₀ := by
  have hin : w.Inside none := by rw [Inside, hpc]; trivial
  rw [runRotate, hpc]
  refine ⟨h.guards.unlock hin fun u hu => ?_, h.pushed, nofun, ?_⟩
  · rcases inside_rotate_cases (w := w) hu with ⟨-, hin⟩ | hother
    · exact hin.elim
    · exact hother
  · obtain ⟨s, hlinear, hstands⟩ := h.linear
    rw [hpc] at hstands
    exact ⟨s, hlinear.stutter (pending_rotate (by rw [hpc]; rfl)), hstands⟩

theorem Sound.drain_checkRotate (h : w.Sound env l₀) {isTimeOut : Bool} {rest : List PcapPacket}
    (hpc : w.checkRotate = .draining isTimeOut rest) : (w.runRotate env).Sound env l₀ := by
  obtain ⟨s, hlinear, hstands⟩ := h.linear
  rw [hpc] at hstands
  cases rest with
  | nil =>
      rw [runRotate, hpc]
      refine ⟨h.guards.mono fun u hu => ?_, h.pushed, nofun, s,
        hlinear.stutter (pending_rotate (by rw [hpc]; rfl)), hstands⟩
      rcases inside_rotate_cases (w := w) hu with ⟨-, hin⟩ | ⟨-, hin⟩
      · exact hin.elim
      · exact hin
  | cons packet rest =>
      rw [runRotate, hpc]
      refine ⟨h.guards.mono fun u hu => ?_, h.pushed, nofun, s,
        hlinear.stutter (pending_rotate (by rw [hpc]; rfl)), hstands⟩
      rcases inside_rotate_cases (w := w) hu with ⟨-, hin⟩ | ⟨-, hin⟩
      · exact hin.elim
      · exact hin

theorem Sound.runRotate (h : w.Sound env l₀) : (w.runRotate env).Sound env l₀ := by
  cases hpc : w.checkRotate with
  | idle =>
      rw [VectorWorld.runRotate, hpc]
      exact h
  | sizing clock isTimeOut =>
      rw [VectorWorld.runRotate, hpc]
      dsimp only
      split
      next henough => exact h.size_checkRotate hpc henough
      next hfew => exact h.leave_checkRotate hpc (Bool.not_eq_true _ ▸ hfew)
  | locking clock isTimeOut =>
      cases hmutex : w.mutex with
      | none =>
          simp only [VectorWorld.runRotate, hpc, hmutex]
          exact h.lock_checkRotate hpc hmutex
      | some holder =>
          simp only [VectorWorld.runRotate, hpc, hmutex]
          exact h
  | loading clock isTimeOut =>
      rw [VectorWorld.runRotate, hpc]
      exact h.load_checkRotate hpc
  | storing clock isTimeOut data => exact h.store_checkRotate hpc
  | unlocking clock isTimeOut data => exact h.unlock_checkRotate hpc
  | draining isTimeOut rest => exact h.drain_checkRotate hpc

/-! ## Runs -/

theorem Sound.next (h : w.Sound env l₀) {a : VectorAction ι} (hnext : w.next env a = some w') :
    w'.Sound env l₀ := by
  cases a with
  | pushBack t packet =>
      rw [VectorWorld.next] at hnext
      split at hnext
      next hidle =>
        rw [← Option.some.inj hnext]
        exact h.enter_pushBack hidle packet
      next => exact Option.some.inj hnext ▸ h
  | producer t => exact Option.some.inj hnext ▸ h.runPush t
  | checkRotate clock =>
      rw [VectorWorld.next] at hnext
      dsimp only at hnext
      split at hnext
      next hidle =>
        split at hnext
        · cases hnext
        next hfault =>
          rw [← Option.some.inj hnext]
          exact h.enter_checkRotate hidle clock hfault
      next => exact Option.some.inj hnext ▸ h
  | logger => exact Option.some.inj hnext ▸ h.runRotate

theorem Reachable.sound (h : Reachable env l₀ w) : w.Sound env l₀ := by
  induction h with
  | refl => exact sound_start env l₀
  | tail _ hstep ih =>
      obtain ⟨a, hnext⟩ := hstep
      exact ih.next hnext

/-- However the threads interleave, no two are between `LOCK_LOCK` and `LOCK_UNLOCK`, and the
calls that have taken effect, done one after another, return what they return here and lead to
the logger as it is whenever no check is running. Of each thread they are its calls in order,
but for one that has yet to take effect. -/
theorem vector_linearizable (h : Reachable env l₀ w) :
    (∀ t u, w.Inside t → w.Inside u → t = u) ∧
    (w.checkRotate = .idle →
      Runs (VectorLogger.call env) l₀ (w.order.map Prod.snd) w.logger) ∧
    ∀ t, (doneBy t w.order).map Prod.fst ++ (w.pending t).toList = doneBy t w.calls := by
  obtain ⟨hguards, -, -, s, hlinear, hstands⟩ := h.sound
  refine ⟨fun t u => hguards.unique, fun hidle => ?_, hlinear.program⟩
  rw [hidle] at hstands
  obtain rfl : s = w.logger := hstands
  exact hlinear.runs

/-- A run by its actions. -/
theorem reachable_of_foldlM (as : List (VectorAction ι))
    (hrun : as.foldlM (VectorWorld.next env) (start l₀) = some w) : Reachable env l₀ w := by
  suffices hfrom : ∀ w₀, Reachable env l₀ w₀ →
      as.foldlM (VectorWorld.next env) w₀ = some w → Reachable env l₀ w from
    hfrom _ Relation.ReflTransGen.refl hrun
  clear hrun
  induction as with
  | nil => exact fun w₀ h hrun => Option.some.inj hrun ▸ h
  | cons a as ih =>
      intro w₀ h hrun
      rw [List.foldlM_cons, Option.bind_eq_bind, Option.bind_eq_some_iff] at hrun
      obtain ⟨w₁, hnext, hrun⟩ := hrun
      exact ih w₁ (h.tail ⟨a, hnext⟩) hrun

/-- Two packets, the second pushed while the first waits for the mutex, and a check that begins
in between and takes both. -/
def twoPushes : List (VectorAction Bool) :=
  [.pushBack false onePacket, .pushBack true ⟨1, 1, 2, 3, 4, 5, 6, 7⟩, .producer true,
    .producer false, .checkRotate ⟨⟨10, 10, 0⟩, 10⟩, .logger, .producer true, .producer true,
    .logger, .producer true, .producer false, .producer false, .producer false, .producer false,
    .logger, .logger, .logger, .logger, .logger, .logger, .logger]

theorem vector_linearizable_of_two_pushes :
    ∃ w : VectorWorld Bool Unit,
      twoPushes.foldlM (VectorWorld.next (textEnv fun _ => true)) (start vectorTextLogger) =
        some w ∧
      w.order.map (fun call => (call.1, call.2.2)) =
        [(some true, 0), (some false, 0), (none, 1)] ∧
      (∀ t u, w.Inside t → w.Inside u → t = u) ∧
      (w.checkRotate = .idle →
        Runs (VectorLogger.call (textEnv fun _ => true)) vectorTextLogger
          (w.order.map Prod.snd) w.logger) ∧
      ∀ t, (doneBy t w.order).map Prod.fst ++ (w.pending t).toList = doneBy t w.calls :=
  ⟨_, rfl, rfl, vector_linearizable (reachable_of_foldlM twoPushes rfl)⟩

end VectorWorld

end Restore.Logger
