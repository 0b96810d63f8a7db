import Restore.Verification.BuffRing.Calls
import Restore.Verification.Logger.Delivery

/-! # The log keeps each thread's order

Of what a thread has pushed the log holds all but the packet that the thread is still asking a
place for, in the order of the thread's calls. -/

namespace Restore.Logger

open BuffRing Pcap Counter

namespace LoggerWorld

variable {ι : Type*} [DecidableEq ι] {c : RingConfig} {w : LoggerWorld ι}

/-- What a step that enters no `push_back` does to the log and to what threads ask: nothing, or
a packet finds its place. -/
inductive LogStep (w w' : LoggerWorld ι) : Prop
  | same (hcalls : w'.calls = w.calls) (hitems : w'.ring.books.items = w.ring.books.items)
      (hasked : ∀ t, asked? (w'.ring.machine.pc (some t)) = asked? (w.ring.machine.pc (some t)))
  | store (t : ι) (x : Pushed) (hcalls : w'.calls = w.calls)
      (hitems : w'.ring.books.items = w.ring.books.items ++ [x])
      (hold : asked? (w.ring.machine.pc (some t)) = some x)
      (hasked : ∀ u, asked? (w'.ring.machine.pc (some u)) =
        if u = t then none else asked? (w.ring.machine.pc (some u)))

/-- A thread goes on and asks for what it asked for. -/
theorem LogStep.goto {s : Machine (Option ι) Pushed} {b : BuffRing.Books (Option ι) Pushed}
    {check check' : CheckPc} {calls : ℕ} {returned returned' : List (Pushed × Int)}
    {handed handed' : List Pushed} (t : Option ι) (pc : Pc Pushed) (mem : RingMem Pushed)
    (books : BuffRing.Books (Option ι) Pushed) (hitems : books.items = b.items)
    (hasked : ∀ u, t = some u → asked? pc = asked? (s.pc (some u))) :
    LogStep (⟨⟨s, b⟩, check, calls, returned, handed⟩ : LoggerWorld ι)
      ⟨⟨Machine.goto ⟨mem, s.pc⟩ t pc, books⟩, check', calls, returned', handed'⟩ := by
  refine .same rfl hitems fun u => ?_
  by_cases hu : some u = t
  · subst hu
    rw [Machine.goto_pc_self]
    exact hasked u rfl
  · rw [Machine.goto_pc_of_ne _ hu]

/-- A step in `push_back`, unless it finds the ring full. -/
theorem Accounts.logStep_producer (h : w.Accounts) (hmulti : c.singleProducer = false)
    (fresh : ℕ → Pushed) {t : ι} (hroom : w.HasRoom c (.producer t)) :
    w.LogStep (w.next c fresh (.producer t)) := by
  have hpushes := h.producers t
  obtain ⟨⟨s, b⟩, check, calls, returned, handed⟩ := w
  have hown {pc : Pc Pushed} (hpc : asked? pc = asked? (s.pc (some t))) (u : ι)
      (hu : some t = some u) : asked? pc = asked? (s.pc (some u)) := by
    cases hu
    exact hpc
  cases hpc : s.pc (some t) with
  | idle =>
      simp only [LoggerWorld.next, World.next, Machine.act, Machine.run, BuffRing.Books.record, hpc]
      exact .same rfl rfl fun _ => rfl
  | loadHead call =>
      simp only [LoggerWorld.next, World.next, Machine.act, Machine.run, BuffRing.Books.record, hpc]
      exact .goto _ _ _ _ rfl (hown (by rw [hpc]; rfl))
  | loadTail call oldHead =>
      rw [hpc] at hpushes
      obtain ⟨x, rfl, hx⟩ := hpushes
      have hentries : c.entries .prod (s.mem.ht .cons).tail oldHead ≠ 0 := by
        simpa only [HasRoom, hpc, enqueueCall, Side.other] using hroom
      have hn := clamp_one c hentries
      simp only [LoggerWorld.next, World.next, Machine.act, Machine.run, BuffRing.Books.record, hpc,
        enqueueCall, Side.other, hn]
      rw [if_neg (by decide)]
      exact .goto _ _ _ _ rfl (hown (by rw [hpc]; rfl))
  | moveHead call mv =>
      rw [hpc] at hpushes
      obtain ⟨⟨x, rfl, hx⟩, hn⟩ := hpushes
      simp only [LoggerWorld.next, World.next, Machine.act, Machine.run, BuffRing.Books.record, hpc,
        enqueueCall, RingConfig.single, hmulti, Bool.false_eq_true, if_false, false_or,
        RingMem.casHead]
      by_cases hcas : (s.mem.ht .prod).head = mv.oldHead
      · simp only [hcas, if_true]
        refine .store t x rfl ?_ (by rw [hpc]; rfl) fun u => ?_
        · simp [BuffRing.Books.items, BuffRing.Books.reserve, batch, hn]
        · by_cases hu : u = t
          · subst hu
            rw [if_pos rfl, Machine.goto_pc_self]
            rfl
          · rw [if_neg hu, Machine.goto_pc_of_ne _ fun heq => hu (Option.some.inj heq)]
      · simp only [hcas, if_false]
        exact .goto _ _ _ _ rfl (hown (by rw [hpc]; rfl))
  | copy call mv i =>
      rw [hpc] at hpushes
      obtain ⟨⟨x, rfl⟩, -⟩ := hpushes
      simp only [LoggerWorld.next, World.next, Machine.act, Machine.run, BuffRing.Books.record, hpc]
      split
      · exact .goto _ _ _ _ rfl (hown (by rw [hpc]; rfl))
      · simp only [enqueueCall, RingConfig.single, hmulti, Bool.false_eq_true, if_false]
        exact .goto _ _ _ _ rfl (hown (by rw [hpc]; rfl))
  | awaitTail call mv =>
      simp only [LoggerWorld.next, World.next, Machine.act, Machine.run, BuffRing.Books.record, hpc]
      split
      · exact .goto _ _ _ _ rfl (hown (by rw [hpc]; rfl))
      · exact .same rfl rfl fun _ => rfl
  | storeTail call mv =>
      rw [hpc] at hpushes
      obtain ⟨⟨x, rfl⟩, -⟩ := hpushes
      simp only [LoggerWorld.next, World.next, Machine.act, Machine.run, BuffRing.Books.record, hpc]
      exact .goto _ _ _ _ rfl (hown (by rw [hpc]; rfl))
  | returned call n space =>
      simp only [LoggerWorld.next, World.next, Machine.act, Machine.run, BuffRing.Books.record, hpc]
      exact .goto _ _ _ _ rfl (hown (by rw [hpc]; rfl))
  | loadProdTail | loadConsTail | counted =>
      rw [hpc] at hpushes
      exact hpushes.elim

/-- The logger thread leaves the log and the askers alone. -/
theorem Accounts.logStep_run_none (h : w.Accounts) (check' : CheckPc) (handed' : List Pushed) :
    w.LogStep ⟨w.ring.next c (.run none), check', w.calls, w.returned, handed'⟩ := by
  have hitems : (w.ring.next c (.run none)).books.items = w.ring.books.items := by
    have hagrees := h.check
    cases hpc : w.ring.machine.pc none with
    | moveHead call mv =>
        have hside : call.side = .cons := by
          rw [hpc] at hagrees
          cases hcheck : w.check <;> rw [hcheck] at hagrees
          case dequeuing => exact hagrees
          all_goals exact hagrees.elim
        simp only [World.next, BuffRing.Books.record, hpc]
        split
        · rw [BuffRing.Books.items, BuffRing.Books.reserve, hside]
          rfl
        · rfl
    | storeTail call mv =>
        simp only [World.next, BuffRing.Books.record, hpc]
        exact congrArg List.flatten (BuffRing.Books.release_enqueued _ none call _)
    | _ => simp only [World.next, BuffRing.Books.record, hpc, BuffRing.Books.items]
  obtain ⟨mem, pc, hrun, -⟩ := w.ring.machine.run_eq_goto (c := c) none
  refine .same rfl hitems fun t => ?_
  have hpc : (w.ring.next c (.run none)).machine.pc (some t) = w.ring.machine.pc (some t) := by
    simp only [World.next, Machine.act, hrun]
    exact Machine.goto_pc_of_ne _ (Option.some_ne_none t) pc
  exact congrArg asked? hpc

/-- Entering a call of the logger thread. -/
theorem logStep_enter_none (w : LoggerWorld ι) (pc : Pc Pushed) (check' : CheckPc) :
    w.LogStep ⟨⟨w.ring.machine.goto none pc, w.ring.books⟩, check', w.calls, w.returned,
      w.handed⟩ :=
  .goto none pc _ _ rfl fun u hu => by cases hu

theorem Accounts.logStep_logger (h : w.Accounts) (fresh : ℕ → Pushed) :
    w.LogStep (w.runLogger c fresh) := by
  unfold runLogger
  cases hcheck : w.check with
  | idle => exact .same rfl rfl fun _ => rfl
  | counting => exact h.logStep_run_none _ _
  | triggered =>
      have hagrees := h.check
      rw [hcheck] at hagrees
      cases hpc : w.ring.machine.pc none with
      | idle =>
          simp only [World.next, Machine.act, BuffRing.Books.record, hpc]
          exact w.logStep_enter_none _ _
      | _ =>
          rw [hpc] at hagrees
          exact hagrees.elim
  | dequeuing => exact h.logStep_run_none _ _
  | draining rest =>
      cases rest with
      | nil => exact .same rfl rfl fun _ => rfl
      | cons x rest => exact .same rfl rfl fun _ => rfl

theorem Accounts.logStep_checkRotate (h : w.Accounts) (fresh : ℕ → Pushed) (isTimeOut : Bool) :
    w.LogStep (w.next c fresh (.checkRotate isTimeOut)) := by
  rw [LoggerWorld.next]
  split
  next hcheck =>
    split
    · exact .same rfl rfl fun _ => rfl
    · have hagrees := h.check
      rw [hcheck] at hagrees
      cases hpc : w.ring.machine.pc none with
      | idle =>
          simp only [World.next, Machine.act, BuffRing.Books.record, hpc]
          exact w.logStep_enter_none _ _
      | _ =>
          rw [hpc] at hagrees
          exact hagrees.elim
  next => exact .same rfl rfl fun _ => rfl

/-- Only its own call brings a thread out of `idle`. -/
theorem idle_next {t : ι} (hidle : w.ring.machine.pc (some t) = .idle) (fresh : ℕ → Pushed)
    {a : LoggerAction ι} (ha : ∀ packet, a ≠ .pushBack t packet) :
    (w.next c fresh a).ring.machine.pc (some t) = .idle := by
  have hrun (u : Option ι) : (w.ring.next c (.run u)).machine.pc (some t) = .idle := by
    by_cases hu : some t = u
    · subst hu
      simp only [World.next, Machine.act, Machine.run, hidle]
    · obtain ⟨mem, pc, hrun, -⟩ := w.ring.machine.run_eq_goto (c := c) u
      simp only [World.next, Machine.act, hrun]
      rwa [Machine.goto_pc_of_ne _ hu]
  have henter (pc : Pc Pushed) : (w.ring.machine.goto none pc).pc (some t) = .idle := by
    rwa [Machine.goto_pc_of_ne _ (Option.some_ne_none t)]
  cases a with
  | pushBack u packet =>
      rw [LoggerWorld.next]
      split
      next hpc =>
        have hne : some t ≠ some u := fun heq => ha packet (by rw [Option.some.inj heq])
        simp only [World.next, Machine.act, hpc]
        rwa [Machine.goto_pc_of_ne _ hne]
      next => exact hidle
  | producer u => exact hrun (some u)
  | checkRotate isTimeOut =>
      rw [LoggerWorld.next]
      split
      · split
        · exact hidle
        · simp only [World.next, Machine.act]
          split
          · exact henter _
          · exact hidle
      · exact hidle
  | logger =>
      rw [LoggerWorld.next, runLogger]
      split
      · exact hidle
      · exact hrun none
      · simp only [World.next, Machine.act]
        split
        · exact henter _
        · exact hidle
      · exact hrun none
      · exact hidle
      · exact hidle

/-! ## Calls in order -/

/-- By the calls so far, the thread has pushed the packet. -/
def IsBy (issued : List (ι × PcapPacket)) (t : ι) (x : Pushed) : Prop :=
  issued[x.number]? = some (t, x.packet)

instance (issued : List (ι × PcapPacket)) (t : ι) (x : Pushed) : Decidable (IsBy issued t x) :=
  inferInstanceAs (Decidable (_ = _))

/-- The packets that the thread has pushed, in order. -/
def issuedBy (issued : List (ι × PcapPacket)) (t : ι) : List PcapPacket :=
  (issued.filter fun e => e.1 = t).map Prod.snd

/-- The packets among these that the thread has pushed. -/
def packetsBy (issued : List (ι × PcapPacket)) (t : ι) (xs : List Pushed) : List PcapPacket :=
  (xs.filter fun x => IsBy issued t x).map Pushed.packet

/-- Every packet in the log or on its way there is one of a call, and each thread's packets are
in the order of its calls. -/
structure Ordered (w : LoggerWorld ι) (issued : List (ι × PcapPacket)) : Prop where
  calls_eq : w.calls = issued.length
  owned : ∀ x ∈ w.ring.books.items, ∃ t, IsBy issued t x
  asking : ∀ t x, asked? (w.ring.machine.pc (some t)) = some x → IsBy issued t x
  order : ∀ t, packetsBy issued t w.ring.books.items ++
      (asked? (w.ring.machine.pc (some t))).toList.map Pushed.packet = issuedBy issued t

theorem ordered_start (mem : RingMem Pushed) : (start mem : LoggerWorld ι).Ordered [] where
  calls_eq := rfl
  owned x hx := absurd hx List.not_mem_nil
  asking t x hx := by cases hx
  order t := rfl

variable {issued : List (ι × PcapPacket)}

omit [DecidableEq ι] in
theorem IsBy.append {t : ι} {x : Pushed} (h : IsBy issued t x) (more : List (ι × PcapPacket)) :
    IsBy (issued ++ more) t x := by
  have hlt := (List.getElem?_eq_some_iff.mp h).1
  rw [IsBy, List.getElem?_append_left hlt]
  exact h

omit [DecidableEq ι] in
theorem IsBy.unique {t u : ι} {x : Pushed} (ht : IsBy issued t x) (hu : IsBy issued u x) : t = u :=
  (Prod.mk.inj (Option.some.inj (ht.symm.trans hu))).1

/-- Later calls do not change whose the packets are. -/
theorem packetsBy_append {xs : List Pushed} (howned : ∀ x ∈ xs, ∃ t, IsBy issued t x)
    (more : List (ι × PcapPacket)) (t : ι) :
    packetsBy (issued ++ more) t xs = packetsBy issued t xs := by
  refine congrArg (List.map Pushed.packet) (List.filter_congr fun x hx => ?_)
  obtain ⟨u, hu⟩ := howned x hx
  rw [decide_eq_decide]
  refine ⟨fun h => ?_, fun h => h.append more⟩
  rwa [h.unique (hu.append more)]

theorem packetsBy_concat_self {t : ι} {x : Pushed} (h : IsBy issued t x) (xs : List Pushed) :
    packetsBy issued t (xs ++ [x]) = packetsBy issued t xs ++ [x.packet] := by
  simp [packetsBy, List.filter_append, h]

theorem packetsBy_concat_of_ne {t u : ι} (hne : u ≠ t) {x : Pushed} (h : IsBy issued t x)
    (xs : List Pushed) : packetsBy issued u (xs ++ [x]) = packetsBy issued u xs := by
  have hu : ¬IsBy issued u x := fun hu => hne (hu.unique h)
  simp [packetsBy, List.filter_append, hu]

theorem Ordered.logStep {w' : LoggerWorld ι} (h : w.Ordered issued) (hstep : w.LogStep w') :
    w'.Ordered issued := by
  cases hstep with
  | same hcalls hitems hasked =>
      exact ⟨hcalls.trans h.calls_eq, by rw [hitems]; exact h.owned,
        fun t x hx => h.asking t x (by rwa [← hasked]), fun t => by rw [hitems, hasked, h.order]⟩
  | store t x hcalls hitems hold hasked =>
      have hby := h.asking t x hold
      refine ⟨hcalls.trans h.calls_eq, ?_, fun u y hy => ?_, fun u => ?_⟩
      · rw [hitems]
        intro y hy
        rcases List.mem_append.mp hy with hy | hy
        · exact h.owned y hy
        · rw [List.mem_singleton.mp hy]
          exact ⟨t, hby⟩
      · rw [hasked] at hy
        split at hy
        · cases hy
        · exact h.asking u y hy
      · rw [hitems, hasked, ← h.order u]
        by_cases hu : u = t
        · subst hu
          rw [if_pos rfl, packetsBy_concat_self hby, hold]
          simp
        · rw [if_neg hu, packetsBy_concat_of_ne hu hby]

/-- A new call goes to the end of its thread's. -/
theorem Ordered.pushBack (h : w.Ordered issued) {t : ι}
    (hidle : w.ring.machine.pc (some t) = .idle) (fresh : ℕ → Pushed) (packet : PcapPacket) :
    (w.next c fresh (.pushBack t packet)).Ordered (issued ++ [(t, packet)]) := by
  have hnew : IsBy (issued ++ [(t, packet)]) t ⟨w.calls, packet⟩ := by
    rw [IsBy, h.calls_eq, List.getElem?_concat_length]
  have hnext : w.next c fresh (.pushBack t packet) =
      ⟨⟨w.ring.machine.goto (some t) (.loadHead (enqueueCall ⟨w.calls, packet⟩)), w.ring.books⟩,
        w.check, w.calls + 1, w.returned, w.handed⟩ := by
    simp only [LoggerWorld.next, hidle, World.next, Machine.act, BuffRing.Books.record]
  have hothers {u : ι} (hu : u ≠ t) :
      (w.ring.machine.goto (some t) (.loadHead (enqueueCall ⟨w.calls, packet⟩))).pc (some u) =
        w.ring.machine.pc (some u) :=
    Machine.goto_pc_of_ne _ (fun heq => hu (Option.some.inj heq)) _
  rw [hnext]
  refine ⟨by simp [h.calls_eq], fun x hx => ?_, fun u x hx => ?_, fun u => ?_⟩
  · obtain ⟨u, hu⟩ := h.owned x hx
    exact ⟨u, hu.append _⟩
  · by_cases hu : u = t
    · subst hu
      rw [Machine.goto_pc_self] at hx
      rwa [← Option.some.inj hx]
    · rw [hothers hu] at hx
      exact (h.asking u x hx).append _
  · have horder := h.order u
    simp only [packetsBy_append h.owned]
    by_cases hu : u = t
    · subst hu
      rw [hidle] at horder
      rw [Machine.goto_pc_self, issuedBy, List.filter_append, List.map_append]
      simp only [asked?, Option.toList_none, List.map_nil, List.append_nil] at horder
      rw [horder, issuedBy]
      simp [asked?, enqueueCall]
    · rw [hothers hu, horder, issuedBy, issuedBy, List.filter_append]
      simp [Ne.symm hu]

end LoggerWorld

end Restore.Logger
