import Restore.Verification.BuffRing.Sequential

/-! # A call that runs alone

A thread whose `DoEnqueue` no other thread steps into leaves the ring as the function
computes it and returns the function's values. -/

namespace Restore.BuffRing

variable {ι T : Type*} [DecidableEq ι] {c : RingConfig} {t : ι}

/-- Thread `t` takes any number of steps, and no other thread takes one. -/
def Machine.Alone (c : RingConfig) (t : ι) : Machine ι T → Machine ι T → Prop :=
  Relation.ReflTransGen fun s s' => s' = s.run c t

theorem Machine.Alone.step {s s' s'' : Machine ι T} (h : s.run c t = s')
    (hrest : Machine.Alone c t s' s'') : Machine.Alone c t s s'' :=
  Relation.ReflTransGen.head h.symm hrest

/-- The copy loop from its `i`-th round on. -/
theorem copy_alone {call : Call T} (hside : call.side = .prod) (mv : HeadMove) (rounds i : ℕ)
    (hi : i + rounds = (ptrPairs c mv.oldHead mv.n).length) (m : RingMem T) (pcs : ι → Pc T) :
    Machine.Alone c t ⟨m, Function.update pcs t (.copy call mv i)⟩
      ⟨⟨m.prod, m.cons, ((ptrPairs c mv.oldHead mv.n).drop i).foldl
          (fun ring p => Function.update ring p.2 (call.obj p.1)) m.data⟩,
        Function.update pcs t (.copy call mv (ptrPairs c mv.oldHead mv.n).length)⟩ := by
  induction rounds generalizing i m with
  | zero =>
      rw [← hi, List.drop_of_length_le (by omega)]
      exact Relation.ReflTransGen.refl
  | succ rounds ih =>
      have hlt : i < (ptrPairs c mv.oldHead mv.n).length := by omega
      rw [List.drop_eq_getElem_cons hlt, List.foldl_cons]
      refine Machine.Alone.step ?_ (ih (i + 1) (by omega) { m with
        data := Function.update m.data (ptrPairs c mv.oldHead mv.n)[i].2
          (call.obj (ptrPairs c mv.oldHead mv.n)[i].1) })
      simp only [Machine.run, Function.update_self, List.getElem?_eq_getElem hlt, hside,
        Machine.goto, Function.update_idem]

/-- The calls after the head move: copies and tail store. -/
theorem publish_alone {call : Call T} (hside : call.side = .prod) (mv : HeadMove)
    {m m' : RingMem T} (pcs : ι → Pc T)
    (hcall : updateTail { m with data := enqueuePtrs c mv.oldHead call.obj mv.n m.data } .prod
      mv.oldHead mv.newHead c.singleProducer = some m') :
    Machine.Alone c t ⟨m, Function.update pcs t (.copy call mv 0)⟩
      ⟨m', Function.update pcs t (.returned call mv.n (mv.entries - mv.n))⟩ := by
  rw [updateTail] at hcall
  split at hcall
  · cases hcall
  · next htail =>
    obtain rfl := Option.some.inj hcall
    refine (copy_alone hside mv _ 0 (Nat.zero_add _) m pcs).trans ?_
    rw [List.drop_zero]
    have hstore (mem : RingMem T) : Machine.Alone c t
        ⟨mem, Function.update pcs t (.storeTail call mv)⟩
        ⟨mem.setTail .prod mv.newHead,
          Function.update pcs t (.returned call mv.n (mv.entries - mv.n))⟩ := by
      refine Machine.Alone.step ?_ Relation.ReflTransGen.refl
      simp only [Machine.run, Function.update_self, hside, Machine.goto, Function.update_idem]
    cases hsingle : c.singleProducer with
    | true =>
        refine Machine.Alone.step ?_ (hstore _)
        simp only [Machine.run, Function.update_self, List.getElem?_eq_none (Nat.le_refl _), hside,
          RingConfig.single, hsingle, if_true, Machine.goto, Function.update_idem]
        rfl
    | false =>
        rw [hsingle] at htail
        simp only [Bool.not_false, Bool.true_and, bne_iff_ne, ne_eq, not_not] at htail
        have hawait (mem : RingMem T) (heq : (mem.ht .prod).tail = mv.oldHead) :
            Machine.Alone c t ⟨mem, Function.update pcs t (.awaitTail call mv)⟩
              ⟨mem.setTail .prod mv.newHead,
                Function.update pcs t (.returned call mv.n (mv.entries - mv.n))⟩ := by
          refine Machine.Alone.step ?_ (hstore mem)
          simp only [Machine.run, Function.update_self, hside, heq, if_true, Machine.goto,
            Function.update_idem]
        refine Machine.Alone.step ?_ (hawait _ htail)
        simp only [Machine.run, Function.update_self, List.getElem?_eq_none (Nat.le_refl _),
          hside, RingConfig.single, hsingle, Bool.false_eq_true, if_false, Machine.goto,
          Function.update_idem]
        rfl

theorem run_moveHead_alone {call : Call T} (hside : call.side = .prod) (mv : HeadMove)
    {m : RingMem T} (pcs : ι → Pc T) (hhead : (m.ht .prod).head = mv.oldHead) :
    Machine.run c ⟨m, Function.update pcs t (.moveHead call mv)⟩ t =
      ⟨m.setHead .prod mv.newHead, Function.update pcs t (.copy call mv 0)⟩ := by
  simp only [Machine.run, Function.update_self, hside, RingMem.casHead, hhead, if_true,
    Machine.goto, Function.update_idem, ite_self]

/-- A `DoEnqueue` that runs alone. -/
theorem doEnqueue_run_alone {s : Machine ι T} {call : Call T} (hpc : s.pc t = .loadHead call)
    (hside : call.side = .prod) {m : RingMem T} {n space : UInt32}
    (hcall : doEnqueue c s.mem call.obj call.max = some (m, n, space)) :
    Machine.Alone c t s ⟨m, Function.update s.pc t (.returned call n space)⟩ := by
  have hload : s.run c t =
      ⟨s.mem, Function.update s.pc t (.loadTail call (s.mem.ht .prod).head)⟩ := by
    simp only [Machine.run, hpc, hside, Machine.goto]
  refine Machine.Alone.step hload ?_
  obtain ⟨entries, hentries⟩ : ∃ entries,
      c.entries .prod (s.mem.ht Side.prod.other).tail (s.mem.ht .prod).head = entries := ⟨_, rfl⟩
  by_cases hn : c.clamp call.max entries = 0
  · have hmove : moveHead c .prod s.mem call.max =
        some (s.mem, ⟨0, (s.mem.ht .prod).head, (s.mem.ht .prod).head, entries⟩) := by
      simp only [moveHead, hentries, hn, if_true]
    rw [doEnqueue, moveProdHead, hmove] at hcall
    obtain ⟨hm, hcount⟩ := Prod.mk.inj (Option.some.inj hcall)
    obtain ⟨rfl, rfl⟩ := Prod.mk.inj hcount
    subst hm
    refine Machine.Alone.step ?_ Relation.ReflTransGen.refl
    simp only [Machine.run, Function.update_self, hside, hentries, hn, if_true, Machine.goto,
      Function.update_idem]
  · have hmove := moveHead_eq c .prod s.mem call.max
    dsimp only at hmove
    rw [hentries] at hmove
    rw [doEnqueue, moveProdHead, hmove] at hcall
    simp only [Option.bind_eq_bind, Option.bind_some, if_neg hn] at hcall
    obtain ⟨m', htail, hreturn⟩ := Option.bind_eq_some_iff.mp hcall
    obtain ⟨hm, hcount⟩ := Prod.mk.inj (Option.some.inj hreturn)
    obtain ⟨rfl, rfl⟩ := Prod.mk.inj hcount
    subst hm
    obtain ⟨mv, hmv⟩ : ∃ mv : HeadMove, mv = ⟨c.clamp call.max entries, (s.mem.ht .prod).head,
      (s.mem.ht .prod).head + c.clamp call.max entries, entries⟩ := ⟨_, rfl⟩
    have hcopy := publish_alone (t := t) hside mv s.pc (by rw [hmv]; exact htail)
    have hmove := run_moveHead_alone (c := c) (t := t) hside mv s.pc (m := s.mem) (by rw [hmv])
    rw [hmv] at hcopy hmove
    refine Machine.Alone.step ?_ (Machine.Alone.step hmove hcopy)
    simp only [Machine.run, Function.update_self, hside, hentries, hn, if_false, Machine.goto,
      Function.update_idem]

end Restore.BuffRing
