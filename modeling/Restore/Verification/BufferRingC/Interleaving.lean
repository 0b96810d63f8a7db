import Restore.Model.BufferRingCMachine
import Restore.Verification.BuffRing.Linearization
import Restore.Verification.BuffRing.Progress
import Restore.Verification.BufferRingC.Refinement

/-! # Single and multi calls on one C ring

A call of a single function stores the head where a multi call would swap it, and skips the
wait for its tail. Alone on its side it finds the head it has loaded, and the tail it would have
waited for, so forgetting the flags takes every run to a run of `BuffRing<T>` on which several
producers and consumers are allowed. -/

namespace Restore.BufferRingC

open Restore.BuffRing (RingConfig RingMem Side HeadMove Books)

variable {ι T : Type*}

/-! ## Forgetting the flags -/

def Pc.toBuffRing : Pc T → BuffRing.Pc T
  | .idle => .idle
  | .loadHead call => .loadHead call.toBuffRing
  | .loadTail call oldHead => .loadTail call.toBuffRing oldHead
  | .moveHead call mv => .moveHead call.toBuffRing mv
  | .copy call mv i => .copy call.toBuffRing mv i
  | .awaitTail call mv => .awaitTail call.toBuffRing mv
  | .storeTail call mv => .storeTail call.toBuffRing mv
  | .returned call n space => .returned call.toBuffRing n space
  | .loadProdTail => .loadProdTail
  | .loadConsTail prodTail => .loadConsTail prodTail
  | .counted count => .counted count

def Machine.toBuffRing (s : Machine ι T) : BuffRing.Machine ι T :=
  ⟨s.ring.mem, fun t => (s.pc t).toBuffRing⟩

def World.toBuffRing (w : World ι T) : BuffRing.World ι T :=
  ⟨w.machine.toBuffRing, w.books⟩

@[simp] theorem Call.toBuffRing_side (call : Call T) : call.toBuffRing.side = call.side := rfl

/-- The ring with several producers and consumers that the C ring runs as. -/
def BufferRing.multi (r : BufferRing T) : RingConfig := r.config .ringQueueFixed isMp isMc

@[simp] theorem multi_single (r : BufferRing T) (σ : Side) : r.multi.single σ = false := by
  cases σ <;> rfl

section Memory

variable (r : BufferRing T) (σ : Side)

@[simp] theorem mem_ht_head : (r.mem.ht σ).head = (r.ht σ).head := by cases σ <;> rfl

@[simp] theorem mem_ht_tail : (r.mem.ht σ).tail = (r.ht σ).tail := by cases σ <;> rfl

@[simp] theorem mem_setHt_head (v : UInt32) :
    (r.setHt σ { r.ht σ with head := v }).mem = r.mem.setHead σ v := by
  cases σ <;> rfl

@[simp] theorem mem_setHt_tail (v : UInt32) :
    (r.setHt σ { r.ht σ with tail := v }).mem = r.mem.setTail σ v := by
  cases σ <;> rfl

@[simp] theorem multi_setHt (ht : RingHeadtail) : (r.setHt σ ht).multi = r.multi := by
  cases σ <;> rfl

theorem multi_entries (otherTail oldHead : UInt32) :
    r.multi.entries σ otherTail oldHead = r.entries σ otherTail oldHead := by
  cases σ <;> rfl

end Memory

variable [DecidableEq ι]

@[simp] theorem toBuffRing_goto (s : Machine ι T) (t : ι) (pc : Pc T) :
    (s.goto t pc).toBuffRing = s.toBuffRing.goto t pc.toBuffRing := by
  have hpcs := Function.comp_update Pc.toBuffRing s.pc t pc
  exact congrArg (BuffRing.Machine.mk s.ring.mem) hpcs

/-- No step changes the sizes. -/
theorem Machine.multi_act (s : Machine ι T) (a : Action ι T) :
    (s.act a).ring.multi = s.ring.multi := by
  cases a with
  | enter t | enterCount t =>
      simp only [act]
      split
      all_goals rfl
  | run t =>
      cases hpc : s.pc t with
      | moveHead call mv =>
          simp only [act, run, hpc, RingHeadtail.casHead]
          split
          · exact multi_setHt _ _ _
          · by_cases hhead : (s.ring.ht call.side).head = mv.oldHead
            · rw [if_pos hhead]
              exact multi_setHt _ _ _
            · rw [if_neg hhead]
              rfl
      | copy call mv i =>
          simp only [act, run, hpc]
          split
          · split
            all_goals rfl
          · rfl
      | loadTail call oldHead =>
          simp only [act, run, hpc]
          split
          all_goals rfl
      | awaitTail call mv =>
          simp only [act, run, hpc]
          split
          all_goals rfl
      | storeTail call mv =>
          simp only [act, run, hpc]
          exact multi_setHt _ _ _
      | _ => simp only [act, run, hpc, goto]

/-! ## Steps -/

/-- A single call that is about to store a head finds the one it has loaded. -/
def Machine.HeadKept (s : Machine ι T) (t : ι) : Prop :=
  ∀ call mv, s.pc t = .moveHead call mv → call.single ≠ 0 →
    (s.ring.ht call.side).head = mv.oldHead

/-- The books are kept as those of the other ring. -/
theorem Machine.record_toBuffRing (s : Machine ι T) (b : Books ι T) (t : ι)
    (hhead : s.HeadKept t) :
    s.record b (.run t) = b.record s.ring.multi s.toBuffRing (.run t) := by
  cases hpc : s.pc t with
  | moveHead call mv =>
      have hiff : call.single ≠ 0 ∨ (s.ring.ht call.side).head = mv.oldHead ↔
          (s.ring.ht call.side).head = mv.oldHead :=
        or_iff_right_of_imp (hhead call mv hpc)
      simp only [record, hpc, Books.record, toBuffRing, Pc.toBuffRing, Call.toBuffRing,
        multi_single, Bool.false_eq_true, false_or, mem_ht_head, hiff]
  | _ => simp only [record, hpc, Books.record, toBuffRing, Pc.toBuffRing, Call.toBuffRing]

/-- A step of a thread is the same step of the other ring, if a single call stores over the head
that it has loaded and has more slots to copy. -/
theorem Machine.run_toBuffRing (s : Machine ι T) (t : ι) (hhead : s.HeadKept t)
    (hmore : ∀ call mv i, s.pc t = .copy call mv i → call.single ≠ 0 →
      i < (BuffRing.ptrPairs s.ring.multi mv.oldHead mv.n).length) :
    (s.run t).toBuffRing = s.toBuffRing.run s.ring.multi t := by
  have hpcs : s.toBuffRing.pc t = (s.pc t).toBuffRing := rfl
  have hmem : s.toBuffRing.mem = s.ring.mem := rfl
  rw [BuffRing.Machine.run, hpcs]
  cases hpc : s.pc t with
  | loadHead call =>
      simp only [run, hpc, toBuffRing_goto, Pc.toBuffRing, hmem, mem_ht_head]
      rfl
  | loadTail call oldHead =>
      have hn : s.ring.multi.clamp call.n
          (s.ring.entries call.side (s.ring.ht call.side.other).tail oldHead) =
          clamp .ringQueueFixed call.n
            (s.ring.entries call.side (s.ring.ht call.side.other).tail oldHead) :=
        (clamp_eq s.ring .ringQueueFixed isMp isMc _ _).symm
      simp only [run, hpc, Pc.toBuffRing, Call.toBuffRing, hmem, mem_ht_tail, multi_entries, hn]
      split
      all_goals exact toBuffRing_goto s t _
  | moveHead call mv =>
      simp only [run, hpc, Pc.toBuffRing, Call.toBuffRing_side, hmem, multi_single,
        Bool.false_eq_true, if_false, RingMem.casHead, RingHeadtail.casHead, mem_ht_head]
      by_cases hsingle : call.single ≠ 0
      · rw [if_pos hsingle, if_pos (hhead call mv hpc hsingle), toBuffRing_goto]
        simp only [toBuffRing, mem_setHt_head]
        rfl
      · rw [if_neg hsingle]
        by_cases heq : (s.ring.ht call.side).head = mv.oldHead
        · rw [if_pos heq, if_pos heq]
          dsimp only
          rw [toBuffRing_goto]
          simp only [toBuffRing, mem_setHt_head]
          rfl
        · rw [if_neg heq, if_neg heq]
          exact toBuffRing_goto s t _
  | copy call mv i =>
      have hpairs : s.ring.config .ringQueueFixed isMp isMc = s.ring.multi := rfl
      simp only [run, hpc, hpairs, Pc.toBuffRing, Call.toBuffRing_side]
      cases hpair : (BuffRing.ptrPairs s.ring.multi mv.oldHead mv.n)[i]? with
      | some pair =>
          obtain ⟨side, objTable, n, single⟩ := call
          cases side with
          | prod =>
              dsimp only
              rw [toBuffRing_goto]
              rfl
          | cons =>
              dsimp only
              rw [toBuffRing_goto]
              rfl
      | none =>
          have hsingle : ¬call.single ≠ 0 := fun hsingle => by
            have hlt := hmore call mv i hpc hsingle
            rw [List.getElem?_eq_getElem hlt] at hpair
            cases hpair
          simp only [if_neg hsingle, toBuffRing_goto, multi_single, Bool.false_eq_true, if_false]
          rfl
  | awaitTail call mv =>
      simp only [run, hpc, Pc.toBuffRing, Call.toBuffRing_side, hmem, mem_ht_tail]
      split
      · exact toBuffRing_goto s t _
      · rfl
  | storeTail call mv =>
      simp only [run, hpc]
      rw [toBuffRing_goto]
      simp only [toBuffRing, mem_setHt_tail]
      rfl
  | loadConsTail prodTail =>
      simp only [run, hpc]
      rw [toBuffRing_goto]
      rfl
  | idle =>
      simp only [run, hpc]
      rfl
  | returned | loadProdTail | counted =>
      simp only [run, hpc]
      rw [toBuffRing_goto]
      rfl

/-- A single call that has copied its slots goes on to its tail store without a wait. The other
ring takes two steps, and the one in between finds the tail it waits for. -/
theorem Machine.run_toBuffRing_of_last (s : Machine ι T) {t : ι} {call : Call T} {mv : HeadMove}
    {i : ℕ} (hpc : s.pc t = .copy call mv i) (hsingle : call.single ≠ 0)
    (hlast : (BuffRing.ptrPairs s.ring.multi mv.oldHead mv.n).length ≤ i)
    (htail : (s.ring.ht call.side).tail = mv.oldHead) :
    s.toBuffRing.run s.ring.multi t = s.toBuffRing.goto t (.awaitTail call.toBuffRing mv) ∧
      (s.run t).toBuffRing = (s.toBuffRing.run s.ring.multi t).run s.ring.multi t := by
  have hpairs : s.ring.config .ringQueueFixed isMp isMc = s.ring.multi := rfl
  have hpcs : s.toBuffRing.pc t = .copy call.toBuffRing mv i := congrArg Pc.toBuffRing hpc
  have hfirst : s.toBuffRing.run s.ring.multi t =
      s.toBuffRing.goto t (.awaitTail call.toBuffRing mv) := by
    simp only [BuffRing.Machine.run, hpcs, List.getElem?_eq_none hlast, multi_single,
      Bool.false_eq_true, if_false]
  refine ⟨hfirst, ?_⟩
  have hfound : (s.toBuffRing.mem.ht call.side).tail = mv.oldHead := (mem_ht_tail _ _).trans htail
  rw [hfirst]
  simp only [run, hpc, hpairs, List.getElem?_eq_none hlast, if_pos hsingle, toBuffRing_goto,
    BuffRing.Machine.run, BuffRing.Machine.goto_pc_self, Call.toBuffRing_side]
  simp only [BuffRing.Machine.goto, hfound, if_true, Function.update_idem, Pc.toBuffRing]

/-! ## What a single call has loaded -/

@[simp] theorem Machine.goto_pc_self (s : Machine ι T) (t : ι) (pc : Pc T) :
    (s.goto t pc).pc t = pc :=
  Function.update_self ..

theorem Machine.goto_pc_of_ne (s : Machine ι T) {t u : ι} (hu : u ≠ t) (pc : Pc T) :
    (s.goto t pc).pc u = s.pc u :=
  Function.update_of_ne hu ..

/-- A step moves no other thread, and brings its own into a loop iteration from a load only. -/
theorem Machine.run_eq_goto (s : Machine ι T) (t : ι) :
    ∃ r pc, s.run t = Machine.goto ⟨r, s.pc⟩ t pc ∧ ∀ call, pc.looping? = some call →
      s.pc t = .loadHead call ∨
        (s.pc t).looping? = some call ∧ ∀ mv, s.pc t ≠ .moveHead call mv := by
  cases hpc : s.pc t with
  | idle =>
      refine ⟨s.ring, .idle, ?_, by simp [Pc.looping?]⟩
      simp only [run, hpc]
      rw [← hpc, goto, Function.update_eq_self]
  | loadHead call =>
      refine ⟨s.ring, .loadTail call (s.ring.ht call.side).head, by simp only [run, hpc], ?_⟩
      simp [Pc.looping?]
  | loadTail call oldHead =>
      simp only [run, hpc]
      split
      · exact ⟨_, _, rfl, by simp [Pc.looping?]⟩
      · exact ⟨_, _, rfl, by simp [Pc.looping?]⟩
  | moveHead call mv =>
      simp only [run, hpc, RingHeadtail.casHead]
      split
      · exact ⟨_, _, rfl, by simp [Pc.looping?]⟩
      · by_cases hhead : (s.ring.ht call.side).head = mv.oldHead
        · rw [if_pos hhead]
          exact ⟨_, _, rfl, by simp [Pc.looping?]⟩
        · rw [if_neg hhead]
          exact ⟨_, _, rfl, by simp [Pc.looping?]⟩
  | copy call mv i =>
      simp only [run, hpc]
      split
      · split
        all_goals exact ⟨_, _, rfl, by simp [Pc.looping?]⟩
      · refine ⟨_, _, rfl, ?_⟩
        split
        all_goals simp [Pc.looping?]
  | awaitTail call mv =>
      simp only [run, hpc]
      split
      · exact ⟨_, _, rfl, by simp [Pc.looping?]⟩
      · refine ⟨s.ring, .awaitTail call mv, ?_, by simp [Pc.looping?]⟩
        rw [← hpc, goto, Function.update_eq_self]
  | storeTail | returned | loadProdTail | loadConsTail | counted =>
      simp only [run, hpc]
      exact ⟨_, _, rfl, by simp [Pc.looping?]⟩

/-- A single call in a loop iteration has seen all that is reserved on its side. -/
def World.Fresh (w : World ι T) : Prop :=
  ∀ t call, (w.machine.pc t).looping? = some call → call.single ≠ 0 →
    w.books.seen t = w.books.reserved call.side

theorem Pc.call?_of_looping? {pc : Pc T} {call : Call T} (h : pc.looping? = some call) :
    pc.call? = some call := by
  cases pc <;> simp_all [looping?, call?]

/-- The books of a step: only a load changes what a thread has seen, and only a head move what is
reserved on its side. -/
theorem Machine.record_run (s : Machine ι T) (b : Books ι T) (t : ι) :
    (∀ u, u ≠ t → (s.record b (.run t)).seen u = b.seen u) ∧
    (∀ call, s.pc t = .loadHead call → (s.record b (.run t)).seen t = b.reserved call.side) ∧
    ((∀ call, s.pc t ≠ .loadHead call) → (s.record b (.run t)).seen = b.seen) ∧
    ∀ σ, (∀ call mv, s.pc t = .moveHead call mv → call.side ≠ σ) →
      (s.record b (.run t)).reserved σ = b.reserved σ := by
  cases hpc : s.pc t with
  | loadHead call =>
      simp only [record, hpc]
      refine ⟨fun u hu => Function.update_of_ne hu .., ?_, by simp, by simp⟩
      rintro _ ⟨⟩
      exact Function.update_self ..
  | moveHead call mv =>
      simp only [record, hpc]
      split
      · refine ⟨by simp, by simp, by simp, fun σ hσ => ?_⟩
        have hne : σ ≠ call.side := fun heq => hσ call mv rfl heq.symm
        rw [BuffRing.Books.reserve_reserved]
        exact Function.update_of_ne hne ..
      · simp
  | storeTail call mv => simp [record, hpc]
  | _ => simp [record, hpc]

theorem World.Fresh.next {w : World ι T} (h : w.Fresh) (hadm : w.Admissible) (a : Action ι T) :
    (w.next a).Fresh := by
  intro u call hloop hsingle
  cases a with
  | enter t entry objTable n =>
      simp only [World.next, Machine.act] at hloop
      split at hloop
      · rcases eq_or_ne u t with rfl | hne
        · simp [Pc.looping?] at hloop
        · rw [Machine.goto_pc_of_ne _ hne] at hloop
          exact h u call hloop hsingle
      · exact h u call hloop hsingle
  | enterCount t =>
      simp only [World.next, Machine.act] at hloop
      split at hloop
      · rcases eq_or_ne u t with rfl | hne
        · simp [Pc.looping?] at hloop
        · rw [Machine.goto_pc_of_ne _ hne] at hloop
          exact h u call hloop hsingle
      · exact h u call hloop hsingle
  | run t =>
      obtain ⟨r, pc, hrun, hpc⟩ := w.machine.run_eq_goto t
      obtain ⟨hothers, hload, hkept, hreserved⟩ := w.machine.record_run w.books t
      simp only [World.next, Machine.act, hrun] at hloop ⊢
      rcases eq_or_ne u t with rfl | hne
      · rw [Machine.goto_pc_self] at hloop
        rcases hpc call hloop with hhead | ⟨hold, hmove⟩
        · rw [hload call hhead, hreserved call.side fun call' mv hmv => by simp [hhead] at hmv]
        · rw [hkept fun call' hhead => by simp [hhead, Pc.looping?] at hold, hreserved,
            h u call hold hsingle]
          intro call' mv hmv
          rw [hmv] at hold
          obtain rfl := Option.some.inj hold
          exact absurd hmv (hmove mv)
      · rw [Machine.goto_pc_of_ne _ hne] at hloop
        have hold : (w.machine.pc u).looping? = some call := hloop
        rw [hothers u hne, hreserved, h u call hold hsingle]
        intro call' mv hmv hside
        refine hne (hadm.exclusive u t call call' (Pc.call?_of_looping? hold) ?_ hside.symm hsingle)
        rw [hmv]
        rfl

/-! ## Runs -/

omit [DecidableEq ι] in
theorem World.Admissible.toBuffRing {r : BufferRing T} {w : World ι T} (h : w.Admissible) :
    w.toBuffRing.Admissible r.multi where
  exclusive σ hσ := by simp at hσ
  window σ t hloop := by
    have hpcs : w.toBuffRing.machine.pc t = (w.machine.pc t).toBuffRing := rfl
    rw [hpcs] at hloop
    cases hpc : w.machine.pc t with
    | loadTail call oldHead | moveHead call mv =>
        rw [hpc] at hloop
        obtain rfl := Option.some.inj hloop
        exact h.window t call (by rw [hpc]; rfl)
    | _ => simp [hpc, Pc.toBuffRing, BuffRing.Pc.looping?] at hloop

/-- The world is one that the other ring can reach, too. -/
structure World.Refines (r : BufferRing T) (w : World ι T) : Prop where
  multi_eq : w.machine.ring.multi = r.multi
  admissible : w.Admissible
  fresh : w.Fresh
  reachable : w.toBuffRing.Reachable r.multi r.mem

theorem World.start_refines (r : BufferRing T) : (World.start r : World ι T).Refines r where
  multi_eq := rfl
  admissible := ⟨fun t u call call' h => by simp [World.start, Pc.call?] at h,
    fun t call h => by simp [World.start, Pc.looping?] at h⟩
  fresh t call h := by simp [World.start, Pc.looping?] at h
  reachable := Relation.ReflTransGen.refl

namespace World.Refines

variable {r : BufferRing T} {w : World ι T} {bits : ℕ}

theorem headKept (h : w.Refines r) (hc : r.multi.Sized bits) (hprod : r.mem.prod = {})
    (hcons : r.mem.cons = {}) (t : ι) : w.machine.HeadKept t := by
  intro call mv hpc hsingle
  obtain ⟨-, W, htracks⟩ := h.reachable.tracks hc hprod hcons
  have hseen := h.fresh t call (by rw [hpc]; rfl) hsingle
  have hsound := htracks.sound t
  have hpcs : w.toBuffRing.machine.pc t = .moveHead call.toBuffRing mv :=
    congrArg Pc.toBuffRing hpc
  rw [hpcs] at hsound
  obtain ⟨⟨hold, -, -⟩, -⟩ := hsound
  have hhead := htracks.head_eq call.side
  have hreserved := htracks.reserved_eq call.side
  have hmem : (w.toBuffRing.machine.mem.ht call.side).head = (w.machine.ring.ht call.side).head :=
    mem_ht_head _ _
  rw [← hmem, hhead, ← hreserved, hold]
  exact congrArg Counter.word hseen.symm

/-- A single call that copies holds the range at its tail. -/
theorem tail_eq (h : w.Refines r) (hc : r.multi.Sized bits) (hprod : r.mem.prod = {})
    (hcons : r.mem.cons = {}) {t : ι} {call : Call T} {mv : HeadMove} {i : ℕ}
    (hpc : w.machine.pc t = .copy call mv i) (hsingle : call.single ≠ 0) :
    (w.machine.ring.ht call.side).tail = mv.oldHead := by
  obtain ⟨-, W, htracks⟩ := h.reachable.tracks hc hprod hcons
  have hpcs : w.toBuffRing.machine.pc t = .copy call.toBuffRing mv i := congrArg Pc.toBuffRing hpc
  have hsound := htracks.sound t
  have hheld := htracks.held_eq call.side t
  rw [hpcs] at hsound hheld
  simp only [BuffRing.Pc.claim, Call.toBuffRing_side, if_true] at hheld
  have hseen := (W call.side).start_eq_tail_of_sole hheld fun u hu => ?_
  · have htail := htracks.tail_eq call.side
    have hmem : (w.toBuffRing.machine.mem.ht call.side).tail = (w.machine.ring.ht call.side).tail :=
      mem_ht_tail _ _
    rw [← hmem, htail, ← hseen, hsound.1]
  · -- any other holder would be in a call on the same side
    rw [htracks.held_eq] at hu
    have hpcu : w.toBuffRing.machine.pc u = (w.machine.pc u).toBuffRing := rfl
    rw [hpcu] at hu
    cases hpu : w.machine.pc u with
    | copy call' mv' _ | awaitTail call' mv' | storeTail call' mv' =>
        rw [hpu] at hu
        simp only [Pc.toBuffRing, BuffRing.Pc.claim, Call.toBuffRing_side] at hu
        have hside : call'.side = call.side := by
          by_contra hne
          simp [hne] at hu
        refine (h.admissible.exclusive t u call call' (by rw [hpc]; rfl) (by rw [hpu]; rfl)
          hside.symm hsingle).symm
    | _ => simp [hpu, Pc.toBuffRing, BuffRing.Pc.claim] at hu

/-- Entering a call is entering the call without its flag. -/
theorem reachable_enter (h : w.Refines r) {t : ι} {entry : Entry} {objTable : ℕ → T} {n : UInt32}
    (hadm : (w.next (.enter t entry objTable n)).Admissible) :
    (w.next (.enter t entry objTable n)).toBuffRing.Reachable r.multi r.mem := by
  cases hpc : w.machine.pc t with
  | idle =>
      have hpcs : w.machine.toBuffRing.pc t = .idle := congrArg Pc.toBuffRing hpc
      have heq : (w.next (.enter t entry objTable n)).toBuffRing = w.toBuffRing.next r.multi
          (.enter t (entry.call w.machine.ring objTable n).toBuffRing) := by
        simp only [World.next, Machine.act, hpc, BuffRing.World.next, BuffRing.Machine.act, hpcs,
          Pc.toBuffRing, World.toBuffRing, toBuffRing_goto, Machine.record, Books.record]
      have hadm' := hadm.toBuffRing (r := r)
      rw [heq] at hadm' ⊢
      exact h.reachable.next _ hadm'
  | _ =>
      simp only [World.next, Machine.act, hpc]
      exact h.reachable

theorem reachable_enterCount (h : w.Refines r) {t : ι}
    (hadm : (w.next (.enterCount t)).Admissible) :
    (w.next (.enterCount t)).toBuffRing.Reachable r.multi r.mem := by
  cases hpc : w.machine.pc t with
  | idle =>
      have hpcs : w.machine.toBuffRing.pc t = .idle := congrArg Pc.toBuffRing hpc
      have heq : (w.next (.enterCount t)).toBuffRing =
          w.toBuffRing.next r.multi (.enterCount t) := by
        simp only [World.next, Machine.act, hpc, BuffRing.World.next, BuffRing.Machine.act, hpcs,
          Pc.toBuffRing, World.toBuffRing, toBuffRing_goto, Machine.record, Books.record]
      have hadm' := hadm.toBuffRing (r := r)
      rw [heq] at hadm' ⊢
      exact h.reachable.next _ hadm'
  | _ =>
      simp only [World.next, Machine.act, hpc]
      exact h.reachable

/-- A step of a thread is one step of the other ring, or two where the wait is skipped. -/
theorem reachable_run (h : w.Refines r) (hc : r.multi.Sized bits) (hprod : r.mem.prod = {})
    (hcons : r.mem.cons = {}) {t : ι} (hadm : (w.next (.run t)).Admissible) :
    (w.next (.run t)).toBuffRing.Reachable r.multi r.mem := by
  have hhead := h.headKept hc hprod hcons t
  have hbooks := w.machine.record_toBuffRing w.books t hhead
  have hadm' := hadm.toBuffRing (r := r)
  by_cases hlast : ∃ call mv i, w.machine.pc t = .copy call mv i ∧ call.single ≠ 0 ∧
    (BuffRing.ptrPairs r.multi mv.oldHead mv.n).length ≤ i
  · obtain ⟨call, mv, i, hpc, hsingle, hlast⟩ := hlast
    have htail := h.tail_eq hc hprod hcons hpc hsingle
    obtain ⟨hfirst, hsecond⟩ :=
      w.machine.run_toBuffRing_of_last hpc hsingle (by rwa [h.multi_eq]) htail
    rw [h.multi_eq] at hfirst hsecond
    have hmid : w.toBuffRing.next r.multi (.run t) =
        ⟨w.machine.toBuffRing.goto t (.awaitTail call.toBuffRing mv), w.books⟩ := by
      have hpcs : w.machine.toBuffRing.pc t = .copy call.toBuffRing mv i :=
        congrArg Pc.toBuffRing hpc
      simp only [BuffRing.World.next, BuffRing.Machine.act, World.toBuffRing, hfirst, Books.record,
        hpcs]
    have heq : (w.next (.run t)).toBuffRing =
        (w.toBuffRing.next r.multi (.run t)).next r.multi (.run t) := by
      rw [hmid]
      rw [hfirst] at hsecond
      simp only [BuffRing.World.next, BuffRing.Machine.act, World.toBuffRing, World.next,
        Machine.act, Books.record, BuffRing.Machine.goto_pc_self, hsecond, Machine.record, hpc]
    have hadmid : (w.toBuffRing.next r.multi (.run t)).Admissible r.multi := by
      rw [hmid]
      refine ⟨fun σ hσ => by simp at hσ, fun σ u hloop => ?_⟩
      have hreach := h.admissible.toBuffRing (r := r)
      rcases eq_or_ne u t with rfl | hne
      · simp [BuffRing.Pc.looping?] at hloop
      · rw [BuffRing.Machine.goto_pc_of_ne _ hne] at hloop
        exact hreach.window σ u hloop
    rw [heq] at hadm' ⊢
    exact (h.reachable.next _ hadmid).next _ hadm'
  · have hmore (call : Call T) (mv : HeadMove) (i : ℕ) (hpc : w.machine.pc t = .copy call mv i)
        (hsingle : call.single ≠ 0) :
        i < (BuffRing.ptrPairs w.machine.ring.multi mv.oldHead mv.n).length := by
      rw [h.multi_eq]
      exact Nat.lt_of_not_le fun hle => hlast ⟨call, mv, i, hpc, hsingle, hle⟩
    have hrun := w.machine.run_toBuffRing t hhead hmore
    rw [h.multi_eq] at hrun hbooks
    have heq : (w.next (.run t)).toBuffRing = w.toBuffRing.next r.multi (.run t) := by
      simp only [World.next, Machine.act, World.toBuffRing, BuffRing.World.next,
        BuffRing.Machine.act, hrun, hbooks]
    rw [heq] at hadm' ⊢
    exact h.reachable.next _ hadm'

/-- Every step is none, one or two steps of the other ring. -/
theorem next (h : w.Refines r) (hc : r.multi.Sized bits) (hprod : r.mem.prod = {})
    (hcons : r.mem.cons = {}) (a : Action ι T) (hadm : (w.next a).Admissible) :
    (w.next a).Refines r where
  multi_eq := (w.machine.multi_act a).trans h.multi_eq
  admissible := hadm
  fresh := h.fresh.next h.admissible a
  reachable := by
    cases a with
    | enter t entry objTable n => exact h.reachable_enter hadm
    | enterCount t => exact h.reachable_enterCount hadm
    | run t => exact h.reachable_run hc hprod hcons hadm

end World.Refines

theorem World.Reachable.refines {r : BufferRing T} {w : World ι T} {bits : ℕ}
    (hc : r.multi.Sized bits) (hprod : r.mem.prod = {}) (hcons : r.mem.cons = {})
    (hw : w.Reachable r) : w.Refines r := by
  have h : Relation.ReflTransGen (fun w w' => ∃ a, w' = World.next w a ∧ w'.Admissible)
    (World.start r) w := hw
  clear hw
  induction h with
  | refl => exact World.start_refines r
  | tail _ hstep ih =>
      obtain ⟨a, rfl, hadm⟩ := hstep
      exact ih.next hc hprod hcons a hadm

end Restore.BufferRingC
