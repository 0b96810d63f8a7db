import Restore.Model.LoggerMachine
import Restore.Verification.BuffRing.Linearization
import Mathlib.Data.List.Nodup

/-! # The log of the ring accounts for all packets

As long as every `push_back` finds room, every packet of a call that has returned is in the
published part of the ring's log, and `checkRotate` has taken the log in order. -/

namespace Restore.Logger

open BuffRing Counter

/-! ## The threads -/

/-- The packet that a thread wants to store and has no place for yet. -/
def asked? : Pc Pushed → Option Pushed
  | .loadHead call | .loadTail call _ | .moveHead call _ => some (call.obj 0)
  | _ => none

/-- Its number. -/
def asking? (pc : Pc Pushed) : Option ℕ := (asked? pc).map Pushed.number

/-- The call of a numbered packet that the log does not hold. -/
def Asks (calls : ℕ) (items : List Pushed) (call : Call Pushed) : Prop :=
  ∃ x, call = enqueueCall x ∧ x.number < calls ∧ x.number ∉ items.map Pushed.number

/-- What a thread in `push_back` is doing, with `released` packets of the log published. -/
def Pushes (calls : ℕ) (items : List Pushed) (released : ℕ) : Pc Pushed → Prop
  | .idle => True
  | .loadHead call | .loadTail call _ => Asks calls items call
  | .moveHead call mv => Asks calls items call ∧ mv.n = 1
  | .copy call mv _ | .awaitTail call mv | .storeTail call mv =>
      (∃ x, call = enqueueCall x) ∧ mv.n = 1
  | .returned call _ _ => ∃ x, call = enqueueCall x ∧ x ∈ items.take released
  | _ => False

/-- What the logger thread is doing, by its place in `checkRotate`. -/
def CheckPc.Agrees : CheckPc → Pc Pushed → Prop
  | .idle, .idle | .triggered, .idle | .draining _, .idle => True
  | .counting, .loadProdTail | .counting, .loadConsTail _ | .counting, .counted _ => True
  | .dequeuing, .loadHead call | .dequeuing, .loadTail call _ | .dequeuing, .moveHead call _
  | .dequeuing, .copy call _ _ | .dequeuing, .awaitTail call _ | .dequeuing, .storeTail call _
  | .dequeuing, .returned call _ _ => call.side = .cons
  | _, _ => False

theorem Pushes.side {calls : ℕ} {items : List Pushed} {released : ℕ} {pc : Pc Pushed}
    (h : Pushes calls items released pc) : pc.side? ≠ some .cons := by
  cases pc with
  | loadHead | loadTail =>
      obtain ⟨x, rfl, -⟩ := h
      exact fun h => by cases h
  | moveHead | copy | awaitTail | storeTail =>
      obtain ⟨⟨x, rfl, -⟩, -⟩ := h
      exact fun h => by cases h
  | idle | returned | loadProdTail | loadConsTail | counted => exact fun h => by cases h

theorem mem_take_of_isPrefix {items items' : List Pushed} (hitems : items <+: items')
    {released released' : ℕ} (hreleased : released ≤ released') {x : Pushed}
    (hx : x ∈ items.take released) : x ∈ items'.take released' :=
  List.take_subset_take_left _ hreleased ((hitems.take released).subset hx)

/-- What a thread does stays true while the log grows by other threads' packets. -/
theorem Pushes.mono {calls calls' : ℕ} {items items' : List Pushed} {released released' : ℕ}
    {pc : Pc Pushed} (h : Pushes calls items released pc) (hcalls : calls ≤ calls')
    (hitems : items <+: items') (hreleased : released ≤ released')
    (hasked : ∀ n, asking? pc = some n → n ∉ items.map Pushed.number →
      n ∉ items'.map Pushed.number) : Pushes calls' items' released' pc := by
  have hasks {call : Call Pushed} (hpc : asking? pc = some (call.obj 0).number)
      (h : Asks calls items call) : Asks calls' items' call := by
    obtain ⟨x, rfl, hlt, hnew⟩ := h
    exact ⟨x, rfl, hlt.trans_le hcalls, hasked _ hpc hnew⟩
  cases pc with
  | loadHead | loadTail => exact hasks rfl h
  | moveHead => exact ⟨hasks rfl h.1, h.2⟩
  | returned =>
      obtain ⟨x, hcall, hx⟩ := h
      exact ⟨x, hcall, mem_take_of_isPrefix hitems hreleased hx⟩
  | idle | copy | awaitTail | storeTail | loadProdTail | loadConsTail | counted => exact h

theorem Pushes.asking {calls : ℕ} {items : List Pushed} {released : ℕ} {pc : Pc Pushed}
    (h : Pushes calls items released pc) {n : ℕ} (hn : asking? pc = some n) :
    n < calls ∧ n ∉ items.map Pushed.number := by
  have hasks {call : Call Pushed} (hcall : (call.obj 0).number = n) (h : Asks calls items call) :
      n < calls ∧ n ∉ items.map Pushed.number := by
    obtain ⟨x, rfl, hx⟩ := h
    exact hcall ▸ hx
  cases pc with
  | loadHead | loadTail => exact hasks (Option.some.inj hn) h
  | moveHead => exact hasks (Option.some.inj hn) h.1
  | _ => cases hn

namespace LoggerWorld

variable {ι : Type*} {c : RingConfig} {w : LoggerWorld ι}

/-- The log of the ring accounts for all packets: the published part for those of calls
that have returned, and the part that the consumer has passed for those that
`checkRotate` has taken. -/
structure Accounts (w : LoggerWorld ι) : Prop where
  numbered : ∀ x ∈ w.ring.books.items, x.number < w.calls
  distinct : (w.ring.books.items.map Pushed.number).Nodup
  producers : ∀ t, Pushes w.calls w.ring.books.items (w.ring.books.released .prod)
    (w.ring.machine.pc (some t))
  apart : ∀ t u n, asking? (w.ring.machine.pc (some t)) = some n →
    asking? (w.ring.machine.pc (some u)) = some n → t = u
  check : w.check.Agrees (w.ring.machine.pc none)
  taken : w.handed ++ w.draining = w.ring.books.items.take (w.ring.books.released .cons)
  kept : ∀ x r, (x, r) ∈ w.returned → x ∈ w.ring.books.items.take (w.ring.books.released .prod)

theorem accounts_start (mem : RingMem Pushed) : (start mem : LoggerWorld ι).Accounts where
  numbered x hx := absurd hx List.not_mem_nil
  distinct := List.nodup_nil
  producers t := trivial
  apart t u n h := by cases h
  check := trivial
  taken := rfl
  kept x r hx := absurd hx List.not_mem_nil

variable [DecidableEq ι]

/-! ## A step in `push_back` -/

/-- A thread in `push_back` adds at most the packet that it asks a place for. -/
theorem Accounts.producer (h : w.Accounts) (t : ι) (pc : Pc Pushed) (mem : RingMem Pushed)
    (books : BuffRing.Books (Option ι) Pushed) (returned : List (Pushed × Int))
    (hle : w.ring.books.released .cons ≤ w.ring.books.items.length)
    (hitems : books.items = w.ring.books.items ∨ ∃ x,
      books.items = w.ring.books.items ++ [x] ∧
        asking? (w.ring.machine.pc (some t)) = some x.number)
    (hcons : books.released .cons = w.ring.books.released .cons)
    (hprod : w.ring.books.released .prod ≤ books.released .prod)
    (hpc : Pushes w.calls books.items (books.released .prod) pc)
    (hask : ∀ n, asking? pc = some n → asking? (w.ring.machine.pc (some t)) = some n)
    (hreturned : ∀ x r, (x, r) ∈ returned →
      (x, r) ∈ w.returned ∨ x ∈ books.items.take (books.released .prod)) :
    Accounts ⟨⟨Machine.goto ⟨mem, w.ring.machine.pc⟩ (some t) pc, books⟩, w.check, w.calls,
      returned, w.handed⟩ := by
  have hprefix : w.ring.books.items <+: books.items := by
    rcases hitems with heq | ⟨x, heq, -⟩
    · rw [heq]
    · rw [heq]
      exact List.prefix_append _ _
  have hothers {u : ι} (hu : u ≠ t) :
      (Machine.goto ⟨mem, w.ring.machine.pc⟩ (some t) pc).pc (some u) =
        w.ring.machine.pc (some u) :=
    Machine.goto_pc_of_ne _ (fun heq => hu (Option.some.inj heq)) pc
  have hlogger : (Machine.goto ⟨mem, w.ring.machine.pc⟩ (some t) pc).pc none =
      w.ring.machine.pc none := Machine.goto_pc_of_ne _ (Option.some_ne_none t).symm pc
  refine ⟨?_, ?_, fun u => ?_, fun u v n hu hv => ?_, ?_, ?_, ?_⟩
  · rcases hitems with heq | ⟨x, heq, hx⟩
    · simpa only [heq] using h.numbered
    · simp only [heq, List.forall_mem_append, List.forall_mem_singleton]
      exact ⟨h.numbered, ((h.producers t).asking hx).1⟩
  · rcases hitems with heq | ⟨x, heq, hx⟩
    · simpa only [heq] using h.distinct
    · simp only [heq, List.map_append, List.map_cons, List.map_nil]
      rw [← List.concat_eq_append]
      exact List.Nodup.concat ((h.producers t).asking hx).2 h.distinct
  · rcases eq_or_ne u t with rfl | hu
    · rwa [Machine.goto_pc_self]
    · rw [hothers hu]
      refine (h.producers u).mono (Nat.le_refl _) hprefix hprod fun n hn hnew => ?_
      rcases hitems with heq | ⟨x, heq, hx⟩
      · rwa [heq]
      · rw [heq, List.map_append, List.mem_append, not_or]
        refine ⟨hnew, fun hmem => hu (h.apart u t n hn ?_)⟩
        rw [hx, ← List.mem_singleton.mp hmem]
  · have hold {u : ι} (hu : asking? ((Machine.goto ⟨mem, w.ring.machine.pc⟩ (some t) pc).pc
        (some u)) = some n) : asking? (w.ring.machine.pc (some u)) = some n := by
      rcases eq_or_ne u t with rfl | hne
      · exact hask n (by rwa [Machine.goto_pc_self] at hu)
      · rwa [hothers hne] at hu
    exact h.apart u v n (hold hu) (hold hv)
  · rw [hlogger]
    exact h.check
  · have hdraining : draining ⟨⟨Machine.goto ⟨mem, w.ring.machine.pc⟩ (some t) pc, books⟩,
        w.check, w.calls, returned, w.handed⟩ = w.draining := by
      unfold draining
      rw [hlogger]
    rw [hdraining, hcons]
    refine h.taken.trans ?_
    obtain ⟨rest, hrest⟩ := hprefix
    rw [← hrest, List.take_append_of_le_length hle]
  · intro x r hx
    rcases hreturned x r hx with hold | hnew
    · exact mem_take_of_isPrefix hprefix hprod (h.kept x r hold)
    · exact hnew

omit [DecidableEq ι] in
theorem released_le {bits : ℕ} {W : Side → Window (Option ι)}
    (hlogs : w.ring.Logs bits) (htracks : w.ring.Tracks c W) :
    w.ring.books.released .cons ≤ w.ring.books.released .prod ∧
      w.ring.books.released .prod ≤ w.ring.books.items.length := by
  have hbounded := htracks.bounded .cons
  have hcons := (W .cons).tail_le_head
  have hprod := (W .prod).tail_le_head
  have htotal := hlogs.total .prod
  rw [htracks.reserved_eq] at htotal
  rw [htracks.released_eq, htracks.released_eq, BuffRing.Books.items, List.length_flatten]
  simp only [BuffRing.Books.counts, RingConfig.slack, Side.other] at htotal hbounded
  omega

theorem clamp_one (c : RingConfig) {entries : UInt32} (h : entries ≠ 0) :
    c.clamp 1 entries = 1 := by
  refine if_neg fun hlt => h ?_
  rw [gt_iff_lt, UInt32.lt_iff_toNat_lt] at hlt
  rw [← UInt32.toNat_inj]
  exact Nat.lt_one_iff.mp hlt

/-- A step in `push_back`, unless it finds the ring full. -/
theorem Accounts.next_producer (h : w.Accounts) {bits : ℕ} {W : Side → Window (Option ι)}
    (hlogs : w.ring.Logs bits) (htracks : w.ring.Tracks c W)
    (hmulti : c.singleProducer = false) (fresh : ℕ → Pushed) {t : ι}
    (hroom : w.HasRoom c (.producer t)) : (w.next c fresh (.producer t)).Accounts := by
  have hle := (released_le hlogs htracks).1.trans (released_le hlogs htracks).2
  have hpushes := h.producers t
  cases hpc : w.ring.machine.pc (some t) with
  | idle =>
      simp only [next, World.next, Machine.act, Machine.run, BuffRing.Books.record, hpc]
      exact h
  | loadHead call =>
      rw [hpc] at hpushes
      simp only [next, World.next, Machine.act, Machine.run, BuffRing.Books.record, hpc]
      exact h.producer t _ _ _ _ hle (.inl rfl) rfl (Nat.le_refl _) hpushes
        (fun n hn => by rw [hpc]; exact hn) fun x r hx => .inl hx
  | loadTail call oldHead =>
      rw [hpc] at hpushes
      obtain ⟨x, rfl, hx⟩ := hpushes
      have hentries : c.entries .prod (w.ring.machine.mem.ht .cons).tail oldHead ≠ 0 := by
        simpa only [HasRoom, hpc, enqueueCall, Side.other] using hroom
      have hn := clamp_one c hentries
      simp only [next, World.next, Machine.act, Machine.run, BuffRing.Books.record, hpc,
        enqueueCall, Side.other, hn]
      rw [if_neg (by decide)]
      exact h.producer t _ _ _ _ hle (.inl rfl) rfl (Nat.le_refl _) ⟨⟨x, rfl, hx⟩, rfl⟩
        (fun n hn => by rw [hpc]; exact hn) fun x r hx => .inl hx
  | moveHead call mv =>
      rw [hpc] at hpushes
      obtain ⟨⟨x, rfl, hx⟩, hn⟩ := hpushes
      simp only [next, World.next, Machine.act, Machine.run, BuffRing.Books.record, hpc,
        enqueueCall, RingConfig.single, hmulti, Bool.false_eq_true, if_false, false_or,
        RingMem.casHead]
      by_cases hcas : (w.ring.machine.mem.ht .prod).head = mv.oldHead
      · simp only [hcas, if_true]
        refine h.producer t _ _ _ _ hle (.inr ⟨x, ?_, by rw [hpc]; rfl⟩) ?_ ?_
          ⟨⟨x, rfl⟩, hn⟩ (fun n hn => by cases hn) fun x r hx => .inl hx
        · simp [BuffRing.Books.items, BuffRing.Books.reserve, batch, hn]
        · simp
        · simp
      · simp only [hcas, if_false]
        exact h.producer t _ _ _ _ hle (.inl rfl) rfl (Nat.le_refl _) ⟨x, rfl, hx⟩
          (fun n hn => by rw [hpc]; exact hn) fun x r hx => .inl hx
  | copy call mv i =>
      rw [hpc] at hpushes
      obtain ⟨⟨x, rfl⟩, hn⟩ := hpushes
      simp only [next, World.next, Machine.act, Machine.run, BuffRing.Books.record, hpc]
      split
      · exact h.producer t _ _ _ _ hle (.inl rfl) rfl (Nat.le_refl _) ⟨⟨x, rfl⟩, hn⟩
          (fun n hn => by cases hn) fun x r hx => .inl hx
      · simp only [enqueueCall, RingConfig.single, hmulti, Bool.false_eq_true, if_false]
        exact h.producer t _ _ _ _ hle (.inl rfl) rfl (Nat.le_refl _) ⟨⟨x, rfl⟩, hn⟩
          (fun n hn => by cases hn) fun x r hx => .inl hx
  | awaitTail call mv =>
      rw [hpc] at hpushes
      simp only [next, World.next, Machine.act, Machine.run, BuffRing.Books.record, hpc]
      split
      · exact h.producer t _ _ _ _ hle (.inl rfl) rfl (Nat.le_refl _) hpushes
          (fun n hn => by cases hn) fun x r hx => .inl hx
      · exact h
  | storeTail call mv =>
      rw [hpc] at hpushes
      obtain ⟨⟨x, rfl⟩, hn⟩ := hpushes
      have hserves := hlogs.serves (some t)
      have hsound := htracks.sound (some t)
      rw [hpc] at hserves hsound
      have hitem := hserves.items_eq rfl (j := 0) (by rw [hn]; decide)
      rw [hsound.2.2, ← htracks.released_eq, Nat.add_zero] at hitem
      simp only [next, World.next, Machine.act, Machine.run, BuffRing.Books.record, hpc]
      refine h.producer t _ _ _ _ hle (.inl ?_) ?_ ?_ ⟨x, rfl, ?_⟩
        (fun n hn => by cases hn) fun x r hx => .inl hx
      · rfl
      · simp [enqueueCall]
      · simp [enqueueCall]
      · refine List.mem_of_getElem? (i := w.ring.books.released .prod) ?_
        rw [List.getElem?_take_of_lt (by simp [enqueueCall, hn])]
        exact hitem
  | returned call n space =>
      rw [hpc] at hpushes
      obtain ⟨x, rfl, hx⟩ := hpushes
      simp only [next, World.next, Machine.act, Machine.run, BuffRing.Books.record, hpc]
      refine h.producer t _ _ _ _ hle (.inl rfl) rfl (Nat.le_refl _) trivial
        (fun n hn => by cases hn) fun y r hy => ?_
      rcases List.mem_append.mp hy with hold | hnew
      · exact .inl hold
      · obtain ⟨rfl, rfl⟩ := Prod.mk.inj (List.mem_singleton.mp hnew)
        exact .inr hx
  | loadProdTail | loadConsTail | counted =>
      rw [hpc] at hpushes
      exact hpushes.elim

/-! ## A step in `checkRotate` -/

/-- The logger thread leaves the log and its published part alone. -/
theorem Accounts.logger (h : w.Accounts) (pc : Pc Pushed) (mem : RingMem Pushed)
    (books : BuffRing.Books (Option ι) Pushed) (check : CheckPc)
    (hitems : books.items = w.ring.books.items)
    (hprod : books.released .prod = w.ring.books.released .prod) (hcheck : check.Agrees pc)
    (htaken : w.handed ++ check.pending pc = books.items.take (books.released .cons)) :
    Accounts ⟨⟨Machine.goto ⟨mem, w.ring.machine.pc⟩ none pc, books⟩, check, w.calls,
      w.returned, w.handed⟩ := by
  have hothers (t : ι) : (Machine.goto ⟨mem, w.ring.machine.pc⟩ none pc).pc (some t) =
      w.ring.machine.pc (some t) := Machine.goto_pc_of_ne _ (Option.some_ne_none t) pc
  refine ⟨?_, ?_, fun t => ?_, fun t u n ht hu => ?_, ?_, ?_, ?_⟩
  · simpa only [hitems] using h.numbered
  · simpa only [hitems] using h.distinct
  · rw [hothers, hitems, hprod]
    exact h.producers t
  · rw [hothers] at ht hu
    exact h.apart t u n ht hu
  · rwa [Machine.goto_pc_self]
  · rwa [draining, Machine.goto_pc_self]
  · simpa only [hitems, hprod] using h.kept

/-- A step in `DoDequeue`. The taken part of the log grows at its tail store only. -/
theorem Accounts.next_dequeuing (h : w.Accounts) {bits : ℕ} {W : Side → Window (Option ι)}
    (hlogs : w.ring.Logs bits) (htracks : w.ring.Tracks c W) (fresh : ℕ → Pushed)
    (hcheck : w.check = .dequeuing) : (w.runLogger c fresh).Accounts := by
  have hagrees := h.check
  have htaken := h.taken
  rw [draining] at htaken
  simp only [runLogger, hcheck]
  rw [hcheck] at hagrees htaken
  cases hpc : w.ring.machine.pc none with
  | loadHead call =>
      rw [hpc] at hagrees htaken
      simp only [World.next, Machine.act, Machine.run, BuffRing.Books.record, hpc]
      exact h.logger _ _ _ _ rfl rfl hagrees htaken
  | loadTail call oldHead =>
      rw [hpc] at hagrees htaken
      simp only [World.next, Machine.act, Machine.run, BuffRing.Books.record, hpc]
      split
      next hn =>
        rw [hn]
        exact h.logger _ _ _ _ rfl rfl hagrees htaken
      next => exact h.logger _ _ _ _ rfl rfl hagrees htaken
  | moveHead call mv =>
      rw [hpc] at hagrees htaken
      have hitems : (w.ring.books.reserve none call mv.n.toNat).items =
          w.ring.books.items := by
        rw [BuffRing.Books.items, BuffRing.Books.reserve, show call.side = .cons from hagrees]
        rfl
      simp only [World.next, Machine.act, Machine.run, BuffRing.Books.record, hpc,
        RingMem.casHead]
      by_cases hmoves : c.single call.side = true ∨
          (w.ring.machine.mem.ht call.side).head = mv.oldHead
      · rw [if_pos hmoves]
        have hbooks := BuffRing.Books.reserve_released w.ring.books none call mv.n.toNat
        have hnext (mem : RingMem Pushed) := h.logger (.copy call mv 0) mem
          (w.ring.books.reserve none call mv.n.toNat) .dequeuing hitems (by rw [hbooks]) hagrees
          (by rw [hitems, hbooks]; exact htaken)
        by_cases hs : c.single call.side = true
        · rw [if_pos hs]
          exact hnext _
        · rw [if_neg hs, if_pos (hmoves.resolve_left hs)]
          exact hnext _
      · rw [not_or] at hmoves
        rw [if_neg hmoves.1, if_neg hmoves.2, if_neg (not_or.mpr hmoves)]
        exact h.logger _ _ _ _ rfl rfl hagrees htaken
  | copy call mv i =>
      rw [hpc] at hagrees htaken
      simp only [World.next, Machine.act, Machine.run, BuffRing.Books.record, hpc]
      split
      · simp only [show call.side = .cons from hagrees]
        exact h.logger _ _ _ _ rfl rfl rfl htaken
      · split <;> exact h.logger _ _ _ _ rfl rfl hagrees htaken
  | awaitTail call mv =>
      rw [hpc] at hagrees htaken
      have hstay := h.logger (.awaitTail call mv) w.ring.machine.mem w.ring.books .dequeuing
        rfl rfl hagrees htaken
      simp only [Machine.goto, ← hpc, Function.update_eq_self] at hstay
      simp only [World.next, Machine.act, Machine.run, BuffRing.Books.record, hpc]
      split
      · exact h.logger _ _ _ _ rfl rfl hagrees htaken
      · exact hstay
  | storeTail call mv =>
      rw [hpc] at hagrees htaken
      have hserves := hlogs.serves none
      have hsound := htracks.sound none
      rw [hpc] at hserves hsound
      have hside : call.side = .cons := hagrees
      have hcopied := hserves.copied
      simp only [BuffRing.Books.Copied, hside] at hcopied
      rw [hsound.2.2, hside, ← htracks.released_eq] at hcopied
      simp only [World.next, Machine.act, Machine.run, BuffRing.Books.record, hpc]
      have hitems : (w.ring.books.release none call mv.n.toNat).items = w.ring.books.items :=
        congrArg List.flatten (BuffRing.Books.release_enqueued _ none call _)
      refine h.logger _ _ _ _ hitems (by simp [hside]) hagrees ?_
      rw [hitems, BuffRing.Books.release_released, hside, Function.update_self, List.take_add,
        ← batch_eq_segment hcopied]
      have hhanded : w.handed ++ [] = _ := htaken
      rw [List.append_nil] at hhanded
      exact congrArg (· ++ _) hhanded
  | returned call n space =>
      rw [hpc] at htaken
      simp only [World.next, Machine.act, Machine.run, BuffRing.Books.record, hpc]
      exact h.logger _ _ _ _ rfl rfl trivial htaken
  | idle | loadProdTail | loadConsTail | counted =>
      rw [hpc] at hagrees
      exact hagrees.elim

theorem Accounts.next_logger (h : w.Accounts) {bits : ℕ} {W : Side → Window (Option ι)}
    (hlogs : w.ring.Logs bits) (htracks : w.ring.Tracks c W) (fresh : ℕ → Pushed) :
    (w.runLogger c fresh).Accounts := by
  have hagrees := h.check
  have htaken := h.taken
  rw [draining] at htaken
  unfold runLogger
  cases hcheck : w.check with
  | idle => exact h
  | counting =>
      rw [hcheck] at hagrees htaken
      cases hpc : w.ring.machine.pc none with
      | loadProdTail | loadConsTail =>
          rw [hpc] at htaken
          simp only [World.next, Machine.act, Machine.run, BuffRing.Books.record, hpc]
          exact h.logger _ _ _ _ rfl rfl trivial htaken
      | counted count =>
          rw [hpc] at htaken
          simp only [World.next, Machine.act, Machine.run, BuffRing.Books.record, hpc]
          split <;> exact h.logger _ _ _ _ rfl rfl trivial htaken
      | _ =>
          rw [hpc] at hagrees
          exact hagrees.elim
  | triggered =>
      rw [hcheck] at hagrees htaken
      cases hpc : w.ring.machine.pc none with
      | idle =>
          rw [hpc] at htaken
          simp only [World.next, Machine.act, BuffRing.Books.record, hpc]
          exact h.logger _ _ _ _ rfl rfl rfl htaken
      | _ =>
          rw [hpc] at hagrees
          exact hagrees.elim
  | dequeuing =>
      have hnext := h.next_dequeuing hlogs htracks fresh hcheck
      rwa [runLogger, hcheck] at hnext
  | draining rest =>
      rw [hcheck] at hagrees htaken
      cases rest with
      | nil =>
          dsimp only
          refine ⟨h.numbered, h.distinct, h.producers, h.apart, ?_, htaken, h.kept⟩
          cases hpc : w.ring.machine.pc none <;> rw [hpc] at hagrees <;> exact hagrees
      | cons x rest =>
          dsimp only
          refine ⟨h.numbered, h.distinct, h.producers, h.apart, ?_, ?_, h.kept⟩
          · cases hpc : w.ring.machine.pc none <;> rw [hpc] at hagrees <;> exact hagrees
          · rw [← htaken]
            exact List.append_assoc _ _ _

/-! ## Every step -/

/-- A new call asks for a place for a packet of its own. -/
theorem Accounts.enter (h : w.Accounts) {t : ι} (hpc : w.ring.machine.pc (some t) = .idle)
    (call : Call Pushed) (hcall : ∃ x, call = enqueueCall x ∧ x.number = w.calls) :
    Accounts ⟨⟨w.ring.machine.goto (some t) (.loadHead call), w.ring.books⟩, w.check,
      w.calls + 1, w.returned, w.handed⟩ := by
  obtain ⟨x, rfl, hnumber⟩ := hcall
  have hothers {u : ι} (hu : u ≠ t) :
      (w.ring.machine.goto (some t) (.loadHead (enqueueCall x))).pc (some u) =
        w.ring.machine.pc (some u) :=
    Machine.goto_pc_of_ne _ (fun heq => hu (Option.some.inj heq)) _
  have hlogger : (w.ring.machine.goto (some t) (.loadHead (enqueueCall x))).pc none =
      w.ring.machine.pc none := Machine.goto_pc_of_ne _ (Option.some_ne_none t).symm _
  have hnew {u : ι} (hu : u ≠ t) : asking? (w.ring.machine.pc (some u)) ≠ some w.calls :=
    fun hasks => Nat.lt_irrefl _ ((h.producers u).asking hasks).1
  refine ⟨fun y hy => Nat.lt_succ_of_lt (h.numbered y hy), h.distinct, fun u => ?_,
    fun u v n hu hv => ?_, ?_, ?_, h.kept⟩
  · rcases eq_or_ne u t with rfl | hu
    · rw [Machine.goto_pc_self]
      refine ⟨x, rfl, by rw [hnumber]; exact Nat.lt_succ_self _, fun hmem => ?_⟩
      obtain ⟨y, hy, heq⟩ := List.mem_map.mp hmem
      have := h.numbered y hy
      omega
    · rw [hothers hu]
      exact (h.producers u).mono (Nat.le_succ _) (List.prefix_refl _) (Nat.le_refl _)
        fun _ _ hn => hn
  · have hcalls {n : ℕ} (hn : asking? (.loadHead (enqueueCall x)) = some n) : n = w.calls :=
      (Option.some.inj hn).symm.trans hnumber
    by_cases hut : u = t
    · by_cases hvt : v = t
      · rw [hut, hvt]
      · rw [hut, Machine.goto_pc_self] at hu
        rw [hothers hvt, hcalls hu] at hv
        exact absurd hv (hnew hvt)
    · rw [hothers hut] at hu
      by_cases hvt : v = t
      · rw [hvt, Machine.goto_pc_self] at hv
        rw [hcalls hv] at hu
        exact absurd hu (hnew hut)
      · rw [hothers hvt] at hv
        exact h.apart u v n hu hv
  · rw [hlogger]
    exact h.check
  · rw [draining, hlogger]
    exact h.taken

theorem Accounts.next (h : w.Accounts) {bits : ℕ} {W : Side → Window (Option ι)}
    (hlogs : w.ring.Logs bits) (htracks : w.ring.Tracks c W)
    (hmulti : c.singleProducer = false) (fresh : ℕ → Pushed) {a : LoggerAction ι}
    (hroom : w.HasRoom c a) : (w.next c fresh a).Accounts := by
  cases a with
  | pushBack t packet =>
      rw [LoggerWorld.next]
      split
      next hpc =>
        simp only [World.next, Machine.act, BuffRing.Books.record, hpc]
        exact h.enter hpc _ ⟨_, rfl, rfl⟩
      next => exact h
  | producer t => exact h.next_producer hlogs htracks hmulti fresh hroom
  | checkRotate isTimeOut =>
      have hagrees := h.check
      have htaken := h.taken
      rw [draining] at htaken
      rw [LoggerWorld.next]
      split
      next hcheck =>
        rw [hcheck] at hagrees htaken
        cases hpc : w.ring.machine.pc none with
        | idle =>
            rw [hpc] at hagrees htaken
            split
            · exact ⟨h.numbered, h.distinct, h.producers, h.apart, by rw [hpc]; exact hagrees,
                by rw [draining, hpc]; exact htaken, h.kept⟩
            · simp only [World.next, Machine.act, BuffRing.Books.record, hpc]
              exact h.logger _ _ _ _ rfl rfl trivial htaken
        | _ =>
            rw [hpc] at hagrees
            exact hagrees.elim
      next => exact h
  | logger => exact h.next_logger hlogs htracks fresh

omit [DecidableEq ι] in
/-- The roles of the threads keep the single consumer single. -/
theorem Accounts.exclusive (h : w.Accounts) (hmulti : c.singleProducer = false) :
    w.ring.Exclusive c := by
  intro σ hs t u ht hu
  cases σ with
  | prod => exact absurd hs (by rw [RingConfig.single, hmulti]; decide)
  | cons =>
      cases t with
      | some t => exact absurd ht (h.producers t).side
      | none =>
          cases u with
          | some u => exact absurd hu (h.producers u).side
          | none => rfl

omit [DecidableEq ι] in
/-- The logger thread moves the head of the single consumer with a plain store. -/
theorem Accounts.unmoved_logger (h : w.Accounts) (hsingle : c.singleConsumer = true) :
    w.ring.Unmoved c none := by
  unfold World.Unmoved
  split
  next call mv hpc =>
    intro hs
    have hagrees := h.check
    rw [hpc] at hagrees
    cases hcheck : w.check with
    | dequeuing =>
        rw [hcheck] at hagrees
        rw [show call.side = .cons from hagrees, RingConfig.single, hsingle] at hs
        cases hs
    | _ =>
        rw [hcheck] at hagrees
        exact hagrees.elim
  next => trivial

/-- A step of the logger is at most one action on its ring, by the same thread. -/
theorem next_ring (c : RingConfig) (fresh : ℕ → Pushed) (w : LoggerWorld ι) (a : LoggerAction ι) :
    (w.next c fresh a).ring = w.ring ∨ ∃ b, (w.next c fresh a).ring = w.ring.next c b ∧
      ∀ t, b = .run (some t) → a = .producer t := by
  cases a with
  | pushBack t packet =>
      rw [next]
      split
      · exact .inr ⟨_, rfl, fun _ hb => by cases hb⟩
      · exact .inl rfl
  | producer t => exact .inr ⟨_, rfl, fun _ hb => by cases hb; rfl⟩
  | checkRotate isTimeOut =>
      rw [next]
      split
      · split
        · exact .inl rfl
        · exact .inr ⟨_, rfl, fun _ hb => by cases hb⟩
      · exact .inl rfl
  | logger =>
      rw [next, runLogger]
      split
      · exact .inl rfl
      · exact .inr ⟨_, rfl, fun _ hb => by cases hb⟩
      · exact .inr ⟨_, rfl, fun _ hb => by cases hb⟩
      · exact .inr ⟨_, rfl, fun _ hb => by cases hb⟩
      · exact .inl rfl
      · exact .inl rfl

/-! ## Runs -/

theorem Reachable.accounts {bits : ℕ} (hc : c.Sized bits) (hmulti : c.singleProducer = false)
    (hsingle : c.singleConsumer = true) {fresh : ℕ → Pushed} {mem : RingMem Pushed}
    (hprod : mem.prod = {}) (hcons : mem.cons = {}) (hw : w.Reachable c fresh mem) :
    (∃ W, w.ring.Tracks c W) ∧ w.ring.Logs bits ∧ w.Accounts := by
  have h : Relation.ReflTransGen (Step c fresh) (start mem) w := hw
  clear hw
  induction h with
  | refl =>
      exact ⟨⟨_, tracks_start c mem hprod hcons⟩, logs_start bits mem, accounts_start mem⟩
  | @tail w w' _ hstep ih =>
      obtain ⟨⟨W, htracks⟩, hlogs, haccounts⟩ := ih
      obtain ⟨a, rfl, hroom, hunmoved⟩ := hstep
      have hnext := haccounts.next hlogs htracks hmulti fresh hroom
      rcases next_ring c fresh w a with heq | ⟨b, heq, hthread⟩
      · rw [heq]
        exact ⟨⟨W, htracks⟩, hlogs, hnext⟩
      · have hring (t : Option ι) (hb : b = .run t) : w.ring.Unmoved c t := by
          cases t with
          | none => exact haccounts.unmoved_logger hsingle
          | some t =>
              rw [hthread t hb] at hunmoved
              exact hunmoved
        rw [heq]
        exact ⟨htracks.next (haccounts.exclusive hmulti) hc hring, hlogs.next htracks hc hring,
          hnext⟩

end LoggerWorld

end Restore.Logger
