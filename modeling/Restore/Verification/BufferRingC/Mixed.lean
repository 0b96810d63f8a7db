import Restore.Verification.BufferRingC.Interleaving

/-! # The C ring under mixed calls

What holds of `BuffRing<T>` with several producers and consumers holds of the C ring, whichever
of its functions the threads call, and every call moves all its objects or none. -/

namespace Restore.BufferRingC

open Restore.BuffRing (RingConfig RingMem Side HeadMove Books batch)
open Restore.Batches (offset settled settled_isPrefix)

variable {ι T : Type*}

/-- A ring of a power of two slots that nobody has used: what is left over of its creation, which
is not part of the header. -/
structure BufferRing.Unused (r : BufferRing T) (bits : ℕ) : Prop where
  size_eq : r.size.toNat = 2 ^ bits
  mask_eq : r.mask = r.size - 1
  capacity_le : r.capacity ≤ r.mask
  prod_head : r.prod.head = 0
  prod_tail : r.prod.tail = 0
  cons_head : r.cons.head = 0
  cons_tail : r.cons.tail = 0

theorem BufferRing.Unused.sized {r : BufferRing T} {bits : ℕ} (h : r.Unused bits) :
    r.multi.Sized bits := by
  have hstores := r.stores_empty h.size_eq h.mask_eq h.capacity_le
    (h.prod_tail.trans h.prod_head.symm) (h.cons_head.trans h.prod_head.symm)
    (h.cons_tail.trans h.prod_head.symm)
  exact hstores.sized

theorem BufferRing.Unused.prod_eq {r : BufferRing T} {bits : ℕ} (h : r.Unused bits) :
    r.mem.prod = {} := by
  simp [mem, h.prod_head, h.prod_tail]

theorem BufferRing.Unused.cons_eq {r : BufferRing T} {bits : ℕ} (h : r.Unused bits) :
    r.mem.cons = {} := by
  simp [mem, h.cons_head, h.cons_tail]

variable [DecidableEq ι] {r : BufferRing T} {w : World ι T} {bits : ℕ}

theorem World.Reachable.refines_of_unused (hr : r.Unused bits) (hw : w.Reachable r) :
    w.Refines r :=
  hw.refines hr.sized hr.prod_eq hr.cons_eq

/-! ## Slots -/

/-- Whichever functions the threads call, the four indices stay in order, no two calls hold a
slot together, and a call copies only slots that it holds. -/
theorem mixed_calls_disjoint (hr : r.Unused bits) (hw : w.Reachable r) :
    w.machine.ring.mem.Ordered r.multi ∧
      (∀ t u, t ≠ u → Disjoint ((w.machine.pc t).toBuffRing.slots r.multi)
        ((w.machine.pc u).toBuffRing.slots r.multi)) ∧
      ∀ t slot, (w.machine.pc t).toBuffRing.nextSlot? r.multi = some slot →
        (∃ x ∈ (w.machine.pc t).toBuffRing.slots r.multi, x.toNat = slot) ∧
          ∀ u, u ≠ t → ∀ x ∈ (w.machine.pc u).toBuffRing.slots r.multi, x.toNat ≠ slot := by
  have hc := hr.sized
  have hreach := (hw.refines_of_unused hr).reachable
  obtain ⟨-, W, h⟩ := hreach.tracks hc hr.prod_eq hr.cons_eq
  refine ⟨h.ordered hc, fun t u hne => ?_, fun t slot hslot => ?_⟩
  · rw [Set.disjoint_left]
    exact fun x hx hy => h.slots_ne hc hne hx hy rfl
  · obtain ⟨x, hx, rfl⟩ := h.nextSlot_mem hc hslot
    exact ⟨⟨x, hx, rfl⟩, fun u hu y hy heq => h.slots_ne hc hu hy hx (UInt32.toNat_inj.mp heq)⟩

omit [DecidableEq ι] in
/-- Threads that keep to a side each are never in one another's way. -/
theorem admissible_of_home (home : ι → Side) (hinj : Function.Injective home) {w : World ι T}
    (hhome : ∀ t, (w.machine.pc t).call?.all (fun call => call.side = home t) = true)
    (hreserved : ∀ σ, w.books.reserved σ < 2 ^ 31) : w.Admissible where
  exclusive t u call call' ht hu hside _ := by
    have hsides : home t = home u := by
      have htside := hhome t
      have huside := hhome u
      rw [ht] at htside
      rw [hu] at huside
      simp only [Option.all_some, decide_eq_true_eq] at htside huside
      rw [← htside, hside, huside]
    exact hinj hsides
  window t call _ := (Nat.sub_le _ _).trans_lt (hreserved _)

/-- A schedule in which each thread keeps to its side, and few items are reserved. -/
theorem World.reachable_foldl {home : ι → Side} (hinj : Function.Injective home)
    (actions : List (Action ι T))
    (hkept : ∀ w ∈ actions.scanl World.next (World.start r),
      (∀ t, (w.machine.pc t).call?.all (fun call => call.side = home t) = true) ∧
        ∀ σ, w.books.reserved σ < 2 ^ 31) :
    (actions.foldl World.next (World.start r)).Reachable r :=
  Schedules.reaches_foldl .refl fun w hw =>
    admissible_of_home home hinj (hkept w hw).1 (hkept w hw).2

/-- Of two threads, one puts objects in and the other takes them out. -/
def sideOf (t : Bool) : Side := if t then .cons else .prod

theorem sideOf_injective : Function.Injective sideOf := by
  intro t u h
  cases t <;> cases u <;> first | rfl | cases h

/-- A single producer holds slot 1 while a consumer of the multi function holds slot 0. -/
theorem mixed_calls_disjoint_of_two :
    let r : BufferRing ℕ := ⟨4, 3, 3, ⟨0, 0, 1⟩, ⟨0, 0, 0⟩, fun _ => 0⟩
    let actions : List (Action Bool ℕ) :=
      .enter false .ringEnqueueBulk id 1 :: List.replicate 7 (.run false) ++
        [.enter true .ringMcDequeueBulk id 1, .run true, .run true, .run true,
          .enter false .ringSpEnqueueBulk id 1, .run false, .run false, .run false]
    let w := actions.foldl World.next (World.start r)
    (w.machine.pc true).toBuffRing.reservation? = some ⟨1, 0, 1, 1⟩ ∧
      (w.machine.pc false).toBuffRing.reservation? = some ⟨1, 1, 2, 2⟩ ∧
      Disjoint ((w.machine.pc false).toBuffRing.slots r.multi)
        ((w.machine.pc true).toBuffRing.slots r.multi) := by
  intro r actions w
  have hw : w.Reachable r := World.reachable_foldl sideOf_injective _ (by decide)
  have hr : r.Unused 2 := ⟨rfl, by decide, by decide, rfl, rfl, rfl, rfl⟩
  exact ⟨by decide, by decide, (mixed_calls_disjoint hr hw).2.1 false true (by decide)⟩

/-! ## All or nothing -/

/-- A reservation is as large as the call asks for. -/
def Pc.Whole : Pc T → Prop
  | .moveHead call mv | .copy call mv _ | .awaitTail call mv | .storeTail call mv => mv.n = call.n
  | .returned call n _ => n = 0 ∨ n = call.n
  | _ => True

theorem clamp_fixed (n entries : UInt32) :
    clamp .ringQueueFixed n entries = 0 ∨ clamp .ringQueueFixed n entries = n := by
  rw [clamp]
  split
  · exact .inl rfl
  · exact .inr rfl

theorem Machine.whole_goto {s : Machine ι T} (h : ∀ u, (s.pc u).Whole) (r : BufferRing T) (t : ι)
    {pc : Pc T} (hpc : pc.Whole) (u : ι) : ((Machine.goto ⟨r, s.pc⟩ t pc).pc u).Whole := by
  rcases eq_or_ne u t with rfl | hne
  · rwa [Machine.goto_pc_self]
  · rw [Machine.goto_pc_of_ne _ hne]
    exact h u

theorem Machine.run_whole {s : Machine ι T} {t : ι} (h : (s.pc t).Whole) :
    ∃ r pc, s.run t = Machine.goto ⟨r, s.pc⟩ t pc ∧ pc.Whole := by
  cases hpc : s.pc t with
  | idle =>
      refine ⟨s.ring, s.pc t, ?_, h⟩
      simp only [run, hpc]
      rw [← hpc, goto, Function.update_eq_self]
  | loadTail call oldHead =>
      have hclamp := clamp_fixed call.n
        (s.ring.entries call.side (s.ring.ht call.side.other).tail oldHead)
      simp only [run, hpc]
      split
      · exact ⟨_, _, rfl, hclamp⟩
      · next hne => exact ⟨_, _, rfl, hclamp.resolve_left hne⟩
  | moveHead call mv =>
      rw [hpc] at h
      simp only [run, hpc, RingHeadtail.casHead]
      split
      · exact ⟨_, _, rfl, h⟩
      · by_cases hhead : (s.ring.ht call.side).head = mv.oldHead
        · rw [if_pos hhead]
          exact ⟨_, _, rfl, h⟩
        · rw [if_neg hhead]
          exact ⟨_, _, rfl, trivial⟩
  | copy call mv i =>
      rw [hpc] at h
      simp only [run, hpc]
      split
      · split
        all_goals exact ⟨_, _, rfl, h⟩
      · refine ⟨_, _, rfl, ?_⟩
        split
        all_goals exact h
  | awaitTail call mv =>
      rw [hpc] at h
      simp only [run, hpc]
      split
      · exact ⟨_, _, rfl, h⟩
      · refine ⟨s.ring, .awaitTail call mv, ?_, h⟩
        rw [← hpc, goto, Function.update_eq_self]
  | storeTail call mv =>
      rw [hpc] at h
      simp only [run, hpc]
      exact ⟨_, _, rfl, .inr h⟩
  | loadHead | returned | loadProdTail | loadConsTail | counted =>
      simp only [run, hpc]
      exact ⟨_, _, rfl, trivial⟩

theorem World.Reachable.whole (hw : w.Reachable r) (t : ι) : (w.machine.pc t).Whole := by
  have h : Relation.ReflTransGen (fun w w' => ∃ a, w' = World.next w a ∧ w'.Admissible)
    (World.start r) w := hw
  clear hw
  induction h generalizing t with
  | refl => trivial
  | tail _ hstep ih =>
      obtain ⟨a, rfl, -⟩ := hstep
      cases a with
      | run u =>
          obtain ⟨r', pc, hrun, hpc⟩ := Machine.run_whole (ih u)
          simp only [World.next, Machine.act, hrun]
          exact Machine.whole_goto ih r' u hpc t
      | enter u | enterCount u =>
          simp only [World.next, Machine.act]
          split
          · refine Machine.whole_goto ih _ u ?_ t
            trivial
          · exact ih t

/-- Whichever functions the threads call, what completed dequeue calls have copied out, up to the
first one in flight, is a prefix of what enqueue calls have reserved, and a call that returns has
moved either nothing or all the objects it was called for, as one batch of that order. -/
theorem mixed_calls_fifo (hr : r.Unused bits) (hw : w.Reachable r) :
    settled w.books.dequeued <+: w.books.enqueued.flatten ∧
      (∀ k n l, w.books.dequeued[k]? = some (n, some l) →
        l = (w.books.enqueued.flatten.drop (offset (w.books.dequeued.map Prod.fst) k)).take n ∧
          l.length = n) ∧
      ∀ t call n space, w.machine.pc t = .returned call n space → n = 0 ∨ n = call.n ∧
        match call.side with
        | .prod => w.books.enqueued[w.books.ticket t]? = some (batch call.objTable n.toNat)
        | .cons => w.books.dequeued[w.books.ticket t]? =
            some (n.toNat, some (batch call.objTable n.toNat)) := by
  have hreach := (hw.refines_of_unused hr).reachable
  have h := hreach.logs hr.sized hr.prod_eq hr.cons_eq
  refine ⟨settled_isPrefix fun k n l hl => (h.answered k n l hl).1, h.answered, ?_⟩
  intro t call n space hpc
  have hwhole := hw.whole t
  have hserves := h.serves t
  have hpcs : w.toBuffRing.machine.pc t = .returned call.toBuffRing n space :=
    congrArg Pc.toBuffRing hpc
  rw [hpc] at hwhole
  rw [hpcs] at hserves
  by_cases hn : n = 0
  · exact .inl hn
  · exact .inr ⟨hwhole.resolve_left hn, hserves hn⟩

/-- Three of three objects go in, and two of them come out. -/
theorem mixed_calls_fifo_of_three :
    let r : BufferRing ℕ := ⟨4, 3, 3, ⟨0, 0, 1⟩, ⟨0, 0, 0⟩, fun _ => 0⟩
    let actions : List (Action Bool ℕ) :=
      .enter false .ringEnqueueBulk (fun i => 7 + i) 3 :: List.replicate 8 (.run false) ++
        .enter true .ringMcDequeueBulk id 2 :: List.replicate 8 (.run true)
    let w := actions.foldl World.next (World.start r)
    settled w.books.dequeued = [7, 8] ∧ settled w.books.dequeued <+: w.books.enqueued.flatten := by
  intro r actions w
  have hw : w.Reachable r := World.reachable_foldl sideOf_injective _ (by decide)
  have hr : r.Unused 2 := ⟨rfl, by decide, by decide, rfl, rfl, rfl, rfl⟩
  exact ⟨by decide, (mixed_calls_fifo hr hw).1⟩

/-! ## Waiting -/

/-- The thread is in `update_tail`, in front of a tail that is not the one it waits for. -/
def Machine.Waits (s : Machine ι T) (t : ι) : Prop :=
  ∃ call mv, s.pc t = .awaitTail call mv ∧ (s.ring.ht call.side).tail ≠ mv.oldHead

omit [DecidableEq ι] in
theorem Machine.waits_toBuffRing {s : Machine ι T} {t : ι} (h : s.Waits t) :
    s.toBuffRing.Waits t := by
  obtain ⟨call, mv, hpc, hne⟩ := h
  refine ⟨call.toBuffRing, mv, congrArg Pc.toBuffRing hpc, fun heq => hne ?_⟩
  rw [← heq]
  exact (mem_ht_tail _ _).symm

/-- A call with a reservation that does not wait comes one step closer to its tail store. -/
theorem World.Refines.remaining_lt (h : w.Refines r) (hr : r.Unused bits) {u : ι} {mv : HeadMove}
    (hmv : (w.machine.pc u).toBuffRing.reservation? = some mv)
    (hfree : ¬w.machine.toBuffRing.Waits u) :
    ((w.next (.run u)).machine.pc u).toBuffRing.remaining r.multi <
      (w.machine.pc u).toBuffRing.remaining r.multi := by
  by_cases hlast : ∃ call mv i, w.machine.pc u = .copy call mv i ∧ call.single ≠ 0 ∧
    (BuffRing.ptrPairs r.multi mv.oldHead mv.n).length ≤ i
  · obtain ⟨call, mv, i, hpc, hsingle, hlast⟩ := hlast
    have hpairs : w.machine.ring.config .ringQueueFixed isMp isMc = r.multi := h.multi_eq
    simp only [World.next, Machine.act, Machine.run, hpc, hpairs, List.getElem?_eq_none hlast,
      if_pos hsingle, Machine.goto_pc_self, Pc.toBuffRing, BuffRing.Pc.remaining]
    omega
  · have hmore (call : Call T) (mv : HeadMove) (i : ℕ) (hpc : w.machine.pc u = .copy call mv i)
        (hsingle : call.single ≠ 0) :
        i < (BuffRing.ptrPairs w.machine.ring.multi mv.oldHead mv.n).length := by
      rw [h.multi_eq]
      exact Nat.lt_of_not_le fun hle => hlast ⟨call, mv, i, hpc, hsingle, hle⟩
    have hrun := w.machine.run_toBuffRing u (h.headKept hr.sized hr.prod_eq hr.cons_eq u) hmore
    have hlt := BuffRing.remaining_lt (w := w.toBuffRing) (c := r.multi) hmv hfree
    rw [h.multi_eq] at hrun
    have hpcs : ((w.next (.run u)).machine.pc u).toBuffRing =
        ((w.toBuffRing.next r.multi (.run u)).machine.pc u) :=
      congrFun (congrArg BuffRing.Machine.pc hrun) u
    rw [hpcs]
    exact hlt

/-- Whichever functions the threads call, a side on which some call has a reservation has a call
whose range starts at the tail; it does not wait, and each of its steps brings it closer to its
tail store. -/
theorem mixed_calls_never_stuck (hr : r.Unused bits) (hw : w.Reachable r) {t : ι} {call : Call T}
    {mv : HeadMove} (hcall : (w.machine.pc t).call? = some call)
    (hmv : (w.machine.pc t).toBuffRing.reservation? = some mv) :
    ∃ u call' mv', (w.machine.pc u).call? = some call' ∧ call'.side = call.side ∧
      (w.machine.pc u).toBuffRing.reservation? = some mv' ∧
      mv'.oldHead = (w.machine.ring.ht call.side).tail ∧ ¬w.machine.Waits u ∧
      ((w.next (.run u)).machine.pc u).toBuffRing.remaining r.multi <
        (w.machine.pc u).toBuffRing.remaining r.multi := by
  have hrefines := hw.refines_of_unused hr
  obtain ⟨-, W, h⟩ := hrefines.reachable.tracks hr.sized hr.prod_eq hr.cons_eq
  have hside : (w.toBuffRing.machine.pc t).side? = some call.side := by
    have hpcs : w.toBuffRing.machine.pc t = (w.machine.pc t).toBuffRing := rfl
    rw [hpcs]
    cases hpc : w.machine.pc t <;> simp_all [Pc.call?, Pc.toBuffRing, BuffRing.Pc.side?]
  obtain ⟨u, mv', hmv', hside', hfirst⟩ := h.exists_first hmv hside
  have hfree := BuffRing.not_waits_of_first hmv' hside' hfirst
  obtain ⟨call', hcall', hsame⟩ :
      ∃ call', (w.machine.pc u).call? = some call' ∧ call'.side = call.side := by
    have hpcs : w.toBuffRing.machine.pc u = (w.machine.pc u).toBuffRing := rfl
    rw [hpcs] at hside'
    cases hpc : w.machine.pc u <;> simp_all [Pc.call?, Pc.toBuffRing, BuffRing.Pc.side?]
  refine ⟨u, call', mv', hcall', hsame, hmv', ?_,
    fun hwaits => hfree (Machine.waits_toBuffRing hwaits), ?_⟩
  · rw [hfirst]
    exact mem_ht_tail _ _
  · exact hrefines.remaining_lt hr hmv' hfree

/-- A single producer is in its copy loop, and a consumer in that of the multi function. -/
theorem mixed_calls_never_stuck_of_two :
    let r : BufferRing ℕ := ⟨4, 3, 3, ⟨0, 0, 1⟩, ⟨0, 0, 0⟩, fun _ => 0⟩
    let actions : List (Action Bool ℕ) :=
      .enter false .ringEnqueueBulk id 1 :: List.replicate 7 (.run false) ++
        [.enter true .ringMcDequeueBulk id 1, .run true, .run true, .run true,
          .enter false .ringSpEnqueueBulk id 1, .run false, .run false, .run false]
    let w := actions.foldl World.next (World.start r)
    (w.machine.pc false).toBuffRing.remaining r.multi = 4 ∧
      ∃ u call mv, (w.machine.pc u).call? = some call ∧ call.side = .prod ∧
        (w.machine.pc u).toBuffRing.reservation? = some mv ∧
        mv.oldHead = w.machine.ring.prod.tail ∧ ¬w.machine.Waits u ∧
        ((w.next (.run u)).machine.pc u).toBuffRing.remaining r.multi <
          (w.machine.pc u).toBuffRing.remaining r.multi := by
  intro r actions w
  have hw : w.Reachable r := World.reachable_foldl sideOf_injective _ (by decide)
  have hr : r.Unused 2 := ⟨rfl, by decide, by decide, rfl, rfl, rfl, rfl⟩
  have hmv : (w.machine.pc false).toBuffRing.reservation? = some ⟨1, 1, 2, 2⟩ := by decide
  have hside : (w.machine.pc false).call?.map Call.side = some .prod := by decide
  obtain ⟨call, hcall, hprod⟩ := Option.map_eq_some_iff.mp hside
  refine ⟨by decide, ?_⟩
  have hstuck := mixed_calls_never_stuck hr hw hcall hmv
  rwa [hprod] at hstuck

end Restore.BufferRingC
