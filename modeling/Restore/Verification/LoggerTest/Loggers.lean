import Restore.Model.LoggerThreads
import Restore.Verification.BuffRing.Calls
import Restore.Verification.BuffRing.Linearization
import Restore.Verification.Logger.Equations

/-! # How many logger threads the ring bears

`init` builds the ring for a single consumer: `MoveConsumerHead` stores the new head without
`AtomicCAS`. The batches that `DoDequeue` calls return are consecutive as long as the calls do
not overlap, and two logger threads can make them overlap. -/

namespace Restore.LoggerTest

open BuffRing Pcap Logger Gzip Batches

/-- Every batch that a `DoDequeue` call has returned consists of the packets that follow the
batches of the earlier head moves: none is returned twice, and none is skipped. -/
def Delivers (w : World ThreadId PcapPacket) : Prop :=
  ∀ k n l, w.books.dequeued[k]? = some (n, some l) →
    l = (w.books.enqueued.flatten.drop (offset (w.books.dequeued.map Prod.fst) k)).take n ∧
      l.length = n

/-- The logger is as some call of `init` leaves it. -/
def Initialised {Z : Type} (l : BasicBusinessLogger Z) : Prop :=
  ∃ env fuel filePath rotateSize rotateCycle compressType uptime uptime' fresh storage gipHelper,
    BasicBusinessLogger.init env fuel filePath rotateSize rotateCycle compressType uptime uptime'
      fresh storage gipHelper = some l

theorem Initialised.data_eq {Z : Type} {l : BasicBusinessLogger Z} (h : Initialised l) :
    ∃ fresh, l.data = (loggerRing, ⟨{}, {}, fresh⟩) := by
  obtain ⟨env, fuel, filePath, rotateSize, rotateCycle, compressType, uptime, uptime', fresh,
    storage, gipHelper, hinit⟩ := h
  rw [BasicBusinessLogger.init, buffRing_logger, Option.map_some] at hinit
  obtain rfl := Option.some.inj hinit
  exact ⟨fresh, rfl⟩

variable {rte : Rte} {c : RingConfig} {w : World ThreadId PcapPacket}

/-! ## Calls that do not overlap -/

/-- Only started threads are in calls, and only logger threads in `DoDequeue`. -/
structure Roles (rte : Rte) (w : World ThreadId PcapPacket) : Prop where
  started : ∀ t σ, (w.machine.pc t).side? = some σ → rte.Starts t
  loggers : ∀ t, (w.machine.pc t).side? = some .cons → ∃ id, t = .logger id

theorem Roles.next (h : Roles rte w) {a : Action ThreadId PcapPacket} (ha : rte.Allows a) :
    Roles rte (w.next c a) := by
  constructor
  · intro t σ hside
    rcases side?_next hside with hold | ⟨call, rfl, -⟩
    · exact h.started t σ hold
    · cases t with
      | packet id => exact ha.1
      | logger id => exact ha.1
  · intro t hside
    rcases side?_next hside with hold | ⟨call, rfl, hcons⟩
    · exact h.loggers t hold
    · cases t with
      | packet id =>
          obtain ⟨-, packet, rfl⟩ := ha
          cases hcons
      | logger id => exact ⟨id, rfl⟩

/-- Calls that begin apart leave one call on the single side. -/
theorem exclusive_next (h : w.Exclusive loggerRing) (hroles : Roles rte w)
    {a : Action ThreadId PcapPacket} (ha : rte.Allows a) (hapart : Apart w a) :
    (w.next c a).Exclusive loggerRing := by
  have hentered {t u : ThreadId} {call : Call PcapPacket} (hcall : a = .enter t call)
      (hcons : call.side = .cons) (hu : (w.machine.pc u).side? = some .cons) : t = u := by
    subst hcall
    cases t with
    | packet id =>
        obtain ⟨-, packet, rfl⟩ := ha
        cases hcons
    | logger id =>
        obtain ⟨id', rfl⟩ := hroles.loggers u hu
        refine Classical.by_contradiction fun hne => ?_
        have hnone := hapart id' fun heq => hne (heq ▸ rfl)
        rw [hnone] at hu
        cases hu
  intro σ hsingle t u ht hu
  cases σ with
  | prod => cases hsingle
  | cons =>
      rcases side?_next ht with ht | ⟨call, hcall, hcons⟩ <;>
        rcases side?_next hu with hu | ⟨call', hcall', hcons'⟩
      · exact h .cons rfl t u ht hu
      · exact (hentered hcall' hcons' ht).symm
      · exact hentered hcall hcons hu
      · rw [hcall] at hcall'
        cases hcall'
        rfl

/-- In runs whose `DoDequeue` calls stay apart, the ring's windows and log are kept. -/
theorem logs_of_reachesApart {data : ℕ → PcapPacket}
    (hw : rte.ReachesApart loggerRing ⟨{}, {}, data⟩ w) : w.Logs 27 := by
  have hall : Roles rte w ∧ w.Exclusive loggerRing ∧ (∃ W, w.Tracks loggerRing W) ∧
      w.Logs 27 := by
    have hrun : Relation.ReflTransGen (rte.StepApart loggerRing) (World.start ⟨{}, {}, data⟩) w :=
      hw
    clear hw
    induction hrun with
    | refl =>
        exact ⟨⟨fun t σ h => (nomatch h), fun t h => (nomatch h)⟩,
          fun σ _ t u h => (nomatch h), ⟨_, tracks_start _ _ rfl rfl⟩, logs_start _ _⟩
    | tail _ hstep ih =>
        obtain ⟨hroles, hexclusive, ⟨W, htracks⟩, hlogs⟩ := ih
        obtain ⟨a, rfl, hallows, hunmoved, hapart⟩ := hstep
        have hrun : ∀ t, a = .run t → _ := fun t ht => by
          rw [ht] at hunmoved
          exact hunmoved
        exact ⟨hroles.next hallows, exclusive_next hexclusive hroles hallows hapart,
          htracks.next hexclusive loggerRing_sized hrun, hlogs.next htracks loggerRing_sized hrun⟩
  exact hall.2.2.2

/-- One logger thread has no other to overlap with. -/
theorem reachesApart_of_one (hone : rte.loggerCoreNum.toInt = 1) {mem : RingMem PcapPacket}
    (hw : rte.Reaches c mem w) : rte.ReachesApart c mem w := by
  have hids : ∀ id, rte.Starts (.logger id) → id = Int32.ofNat 0 := by
    intro id hid
    rw [Rte.Starts, threadIds, Int32.toNatClampNeg, hone] at hid
    simpa using hid
  have hall : Roles rte w ∧ rte.ReachesApart c mem w := by
    have hrun : Relation.ReflTransGen (rte.Step c) (World.start mem) w := hw
    clear hw
    induction hrun with
    | refl =>
        exact ⟨⟨fun t σ h => (nomatch h), fun t h => (nomatch h)⟩, Relation.ReflTransGen.refl⟩
    | @tail w _ _ hstep ih =>
        obtain ⟨hroles, hapart⟩ := ih
        obtain ⟨a, rfl, hallows, hunmoved⟩ := hstep
        refine ⟨hroles.next hallows, hapart.tail ⟨a, rfl, hallows, hunmoved, ?_⟩⟩
        cases a with
        | enter t call =>
            cases t with
            | packet id => trivial
            | logger id =>
                intro id' hne
                cases hside : (w.machine.pc (.logger id')).side? with
                | none => rfl
                | some σ =>
                    have hstarted := hroles.started _ _ hside
                    exact absurd ((hids id' hstarted).trans (hids id hallows.1).symm) hne
        | enterCount t => trivial
        | run t => trivial
  exact hall.2

/-! ## Calls that overlap -/

def onePacket : PcapPacket := ⟨0, 0, 0x0a000001, 0x0a000002, 80, 1024, 6, 0x0800⟩

/-- The packet thread 0 stores a packet. -/
def stored : World ThreadId PcapPacket :=
  let actions : List (Action ThreadId PcapPacket) :=
    .enter (.packet 0) ⟨.prod, fun _ => onePacket, 1⟩ :: List.replicate 7 (.run (.packet 0))
  actions.foldl (World.next loggerRing) (World.start ⟨{}, {}, BasicBusinessLogger.noPackets⟩)

def dequeue : Call PcapPacket := ⟨.cons, BasicBusinessLogger.noPackets, kVectorThreshold⟩

/-- The logger thread 0 takes it. -/
def dequeued : World ThreadId PcapPacket :=
  let actions : List (Action ThreadId PcapPacket) :=
    .enter (.logger 0) dequeue :: List.replicate 6 (.run (.logger 0))
  actions.foldl (World.next loggerRing) stored

/-- Two logger threads load the head and the tail before either stores the head. -/
def overlapped : World ThreadId PcapPacket :=
  let actions : List (Action ThreadId PcapPacket) :=
    [.enter (.logger 0) dequeue, .run (.logger 0), .run (.logger 0),
      .enter (.logger 1) dequeue, .run (.logger 1), .run (.logger 1)] ++
    List.replicate 4 (.run (.logger 0)) ++ List.replicate 4 (.run (.logger 1))
  actions.foldl (World.next loggerRing) stored

/-- A thread whose loaded head is the current one, or that stores the head without `AtomicCAS`. -/
theorem unmoved_of_seen {t : ThreadId}
    (h : (w.machine.pc t).looping? = some .prod → w.books.reserved .prod = w.books.seen t) :
    Unmoved loggerRing w (.run t) := by
  rw [Unmoved, World.Unmoved]
  cases hpc : w.machine.pc t with
  | moveHead call mv =>
      intro hmulti _
      rw [hpc] at h
      cases hside : call.side with
      | prod => exact h (congrArg some hside)
      | cons =>
          rw [hside] at hmulti
          cases hmulti
  | _ => trivial

theorem starts_of_lt {coreNum : Int32} {i : ℕ} (hi : (i : Int) < coreNum.toInt) :
    Int32.ofNat i ∈ threadIds coreNum := by
  refine List.mem_map_of_mem (List.mem_range.mpr ?_)
  rw [Int32.toNatClampNeg]
  omega

theorem reaches_stored (hpacket : 1 ≤ rte.packetCoreNum.toInt) :
    rte.Reaches loggerRing ⟨{}, {}, BasicBusinessLogger.noPackets⟩ stored := by
  have hp : rte.Starts (.packet 0) := starts_of_lt (i := 0) (by omega)
  simp only [stored, List.replicate, List.foldl]
  repeat' refine Relation.ReflTransGen.tail ?_ ⟨_, rfl, ?_, ?_⟩
  · exact Relation.ReflTransGen.refl
  all_goals first
    | exact trivial
    | exact ⟨hp, _, rfl⟩
    | exact unmoved_of_seen (by decide)

theorem reaches_dequeued (hpacket : 1 ≤ rte.packetCoreNum.toInt)
    (hlogger : 1 ≤ rte.loggerCoreNum.toInt) :
    rte.Reaches loggerRing ⟨{}, {}, BasicBusinessLogger.noPackets⟩ dequeued := by
  have ha : rte.Starts (.logger 0) := starts_of_lt (i := 0) (by omega)
  simp only [dequeued, List.replicate, List.foldl]
  iterate 7 refine Relation.ReflTransGen.tail ?_ ⟨_, rfl, ?_, ?_⟩
  · exact reaches_stored hpacket
  all_goals first
    | exact trivial
    | exact ⟨ha, _, rfl⟩
    | exact unmoved_of_seen (by decide)

theorem reaches_overlapped (hpacket : 1 ≤ rte.packetCoreNum.toInt)
    (hlogger : 2 ≤ rte.loggerCoreNum.toInt) :
    rte.Reaches loggerRing ⟨{}, {}, BasicBusinessLogger.noPackets⟩ overlapped := by
  have ha : rte.Starts (.logger 0) := starts_of_lt (i := 0) (by omega)
  have hb : rte.Starts (.logger 1) := starts_of_lt (i := 1) (by omega)
  simp only [overlapped, List.replicate, List.cons_append, List.nil_append, List.foldl]
  iterate 14 refine Relation.ReflTransGen.tail ?_ ⟨_, rfl, ?_, ?_⟩
  · exact reaches_stored hpacket
  all_goals first
    | exact trivial
    | exact ⟨ha, _, rfl⟩
    | exact ⟨hb, _, rfl⟩
    | exact unmoved_of_seen (by decide)

/-- The second batch starts behind the only packet. -/
theorem not_delivers_overlapped : ¬Delivers overlapped := by
  intro h
  have hsecond := h 1 1 [onePacket] (by decide)
  exact absurd hsecond.1 (by decide)

/-- `DoDequeue` calls of logger threads that do not overlap deliver every packet once; without
that condition they do so in all runs exactly if there is one logger thread. -/
theorem dequeues_deliver (rte : Rte) (hloggers : 1 ≤ rte.loggerCoreNum.toInt) :
    (∀ (Z : Type) (gLogger : BasicBusinessLogger Z) (w : World ThreadId PcapPacket),
      Initialised gLogger → rte.ReachesApart gLogger.data.1 gLogger.data.2 w → Delivers w) ∧
    (1 ≤ rte.packetCoreNum.toInt →
      ((∀ (Z : Type) (gLogger : BasicBusinessLogger Z) (w : World ThreadId PcapPacket),
        Initialised gLogger → rte.Reaches gLogger.data.1 gLogger.data.2 w → Delivers w) ↔
        rte.loggerCoreNum.toInt = 1)) := by
  have hapart : ∀ (Z : Type) (gLogger : BasicBusinessLogger Z) (w : World ThreadId PcapPacket),
      Initialised gLogger → rte.ReachesApart gLogger.data.1 gLogger.data.2 w → Delivers w := by
    intro Z gLogger w hinit hw
    obtain ⟨fresh, hdata⟩ := hinit.data_eq
    rw [hdata] at hw
    exact (logs_of_reachesApart hw).answered
  refine ⟨hapart, fun hpackets => ⟨fun hall => ?_, fun hone => ?_⟩⟩
  · refine Classical.by_contradiction fun hne => not_delivers_overlapped ?_
    exact hall Unit BasicBusinessLogger.textLogger overlapped
      ⟨_, _, _, _, _, _, _, _, _, _, _, BasicBusinessLogger.init_textLogger fun _ => true⟩
      (reaches_overlapped hpackets (by omega))
  · exact fun Z gLogger w hinit hw => hapart Z gLogger w hinit (reachesApart_of_one hone hw)

/-- With the defaults, one logger thread takes what a packet thread has stored. -/
theorem dequeues_deliver_of_one_logger : Delivers dequeued := by
  have hloggers : 1 ≤ ({ coreNum := 4 } : Rte).loggerCoreNum.toInt := by decide
  have hpackets : 1 ≤ ({ coreNum := 4 } : Rte).packetCoreNum.toInt := by decide
  exact ((dequeues_deliver { coreNum := 4 } hloggers).2 hpackets).mpr (by decide) Unit
    BasicBusinessLogger.textLogger dequeued
    ⟨_, _, _, _, _, _, _, _, _, _, _, BasicBusinessLogger.init_textLogger fun _ => true⟩
    (reaches_dequeued hpackets hloggers)

/-- Both logger threads return the one packet. -/
theorem packet_returned_twice :
    ({ coreNum := 4, loggerCoreNum := 2 } : Rte).Reaches loggerRing
        ⟨{}, {}, BasicBusinessLogger.noPackets⟩ overlapped ∧
      overlapped.books.enqueued = [[onePacket]] ∧
      overlapped.books.dequeued =
        [(1, some [onePacket]), (1, some [onePacket])] ∧
      ¬Delivers overlapped :=
  ⟨reaches_overlapped (by decide) (by decide), by decide, by decide, not_delivers_overlapped⟩

end Restore.LoggerTest
