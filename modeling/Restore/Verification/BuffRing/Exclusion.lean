import Mathlib.Order.CompletePartialOrder
import Restore.Shared.Schedules
import Restore.Verification.BuffRing.Reservations

/-! # No slot is shared by two calls

The order of the four indices and the disjointness of all slots in use, in every world
that threads can bring about. -/

namespace Restore.BuffRing

open Restore.Counter

variable {ι T : Type*}

/-! ## Slots in use -/

/-- `cons_.tail <= cons_.head <= prod_.tail <= prod_.head <= cons_.tail + capacity_`, as
wrapping distances from `cons_.tail`. -/
structure RingMem.Ordered (c : RingConfig) (m : RingMem T) : Prop where
  cons_head_le : m.cons.head - m.cons.tail ≤ m.prod.tail - m.cons.tail
  prod_tail_le : m.prod.tail - m.cons.tail ≤ m.prod.head - m.cons.tail
  prod_head_le : m.prod.head - m.cons.tail ≤ c.capacity

/-- The reservation of a call between its head move and its tail store. -/
def Pc.reservation? : Pc T → Option HeadMove
  | .copy _ mv _ | .awaitTail _ mv | .storeTail _ mv => some mv
  | _ => none

/-- The slots that a thread has reserved, on either side. -/
def Pc.slots (c : RingConfig) (pc : Pc T) : Set UInt32 :=
  {x | ∃ mv i, pc.reservation? = some mv ∧ i < mv.n ∧ x = (mv.oldHead + i) &&& c.mask}

/-- The slot that a thread's next step reads or writes. -/
def Pc.nextSlot? (c : RingConfig) : Pc T → Option ℕ
  | .copy _ mv i => (ptrPairs c mv.oldHead mv.n)[i]?.map Prod.snd
  | _ => none

variable {c : RingConfig} {w : World ι T} {W : Side → Window ι}

/-- All held ranges lie in one turn of the ring. -/
theorem World.Tracks.held_span (h : w.Tracks c W) {σ : Side} {t : ι} {a n : ℕ}
    (hheld : (W σ).held t = some (a, n)) :
    (W .cons).tail ≤ a ∧ a + n ≤ (W .cons).tail + c.capacity.toNat := by
  obtain ⟨hle, -, hhead⟩ := (W σ).within hheld
  obtain ⟨hctail, hcons, hptail, hprod⟩ := h.chain
  cases σ <;> omega

/-- Ranges of two threads share no count, on one side or across. -/
theorem World.Tracks.counts_ne (h : w.Tracks c W) {σ τ : Side} {t u : ι} (hne : t ≠ u)
    {a n b l j k : ℕ} (ht : (W σ).held t = some (a, n)) (hu : (W τ).held u = some (b, l))
    (hj : a ≤ j ∧ j < a + n) (hk : b ≤ k ∧ k < b + l) : j ≠ k := by
  obtain ⟨-, hcons, -, -⟩ := h.chain
  obtain ⟨hta, -, hth⟩ := (W σ).within ht
  obtain ⟨hua, -, huh⟩ := (W τ).within hu
  rcases eq_or_ne τ σ with rfl | hτ
  · have := (W τ).apart hne ht hu
    omega
  · obtain rfl := Side.eq_other hτ
    cases σ <;> simp only [Side.other] at hua huh <;> omega

/-- A thread with a reservation holds the range of counts that starts at its old head. -/
theorem World.Tracks.held_of_reservation (h : w.Tracks c W) {t : ι} {mv : HeadMove}
    (hmv : (w.machine.pc t).reservation? = some mv) :
    ∃ σ, (W σ).held t = some (w.books.seen t, mv.n.toNat) ∧
      mv.oldHead = word (w.books.seen t) := by
  have hsound := h.sound t
  cases hpc : w.machine.pc t with
  | copy call mv' _ | awaitTail call mv' | storeTail call mv' =>
      rw [hpc] at hmv hsound
      simp only [Pc.reservation?, Option.some.injEq] at hmv
      subst hmv
      refine ⟨call.side, ?_, hsound.1⟩
      rw [h.held_eq, hpc]
      simp [Pc.claim]
  | _ => simp [hpc, Pc.reservation?] at hmv

theorem World.Tracks.count_of_slot (h : w.Tracks c W) {bits : ℕ} (hc : c.Sized bits) {t : ι}
    {x : UInt32} (hx : x ∈ (w.machine.pc t).slots c) :
    ∃ σ a n k, (W σ).held t = some (a, n) ∧ a ≤ k ∧ k < a + n ∧ x.toNat = k % 2 ^ bits := by
  obtain ⟨mv, i, hmv, hi, rfl⟩ := hx
  obtain ⟨σ, hheld, hold⟩ := h.held_of_reservation hmv
  rw [UInt32.lt_iff_toNat_lt] at hi
  refine ⟨σ, _, _, w.books.seen t + i.toNat, hheld, Nat.le_add_right _ _, by omega, ?_⟩
  rw [hold, word_add_toNat]
  exact word_and_mask _ bits (hc.bits_le.trans (by decide)) c.mask hc.mask_eq

/-- Slots reserved by two threads differ. -/
theorem World.Tracks.slots_ne (h : w.Tracks c W) {bits : ℕ} (hc : c.Sized bits) {t u : ι}
    (hne : t ≠ u) {x y : UInt32} (hx : x ∈ (w.machine.pc t).slots c)
    (hy : y ∈ (w.machine.pc u).slots c) : x ≠ y := by
  obtain ⟨σ, a, n, j, ht, haj, hjn, hxj⟩ := h.count_of_slot hc hx
  obtain ⟨τ, b, l, k, hu, hbk, hkl, hyk⟩ := h.count_of_slot hc hy
  have hjk := h.counts_ne hne ht hu ⟨haj, hjn⟩ ⟨hbk, hkl⟩
  have hts := h.held_span ht
  have hus := h.held_span hu
  have hcap := hc.capacity_lt
  intro heq
  rw [heq, hyk] at hxj
  exact slot_ne hjk (by omega) (by omega) hxj.symm

/-- The copy loops stay inside the thread's own reservation. -/
theorem World.Tracks.nextSlot_mem (h : w.Tracks c W) {bits : ℕ} (hc : c.Sized bits) {t : ι}
    {slot : ℕ} (hslot : (w.machine.pc t).nextSlot? c = some slot) :
    ∃ x ∈ (w.machine.pc t).slots c, x.toNat = slot := by
  cases hpc : w.machine.pc t with
  | copy call mv i =>
      have hmv : (w.machine.pc t).reservation? = some mv := by rw [hpc]; rfl
      obtain ⟨σ, hheld, hold⟩ := h.held_of_reservation hmv
      have hspan := h.held_span hheld
      have hcap := hc.capacity_lt
      rw [hpc] at hslot
      simp only [Pc.nextSlot?, hold, ptrPairs_eq hc _ mv.n (by omega)] at hslot
      simp only [List.getElem?_map, Option.map_map, Option.map_eq_some_iff,
        List.getElem?_eq_some_iff, List.length_range, List.getElem_range] at hslot
      obtain ⟨j, ⟨hi, rfl⟩, hj⟩ := hslot
      have hin := mv.n.toNat_lt
      have hiword : (word i).toNat = i := by
        rw [word_toNat]
        omega
      refine ⟨(mv.oldHead + word i) &&& c.mask, ⟨mv, word i, rfl, ?_, rfl⟩, ?_⟩
      · rw [UInt32.lt_iff_toNat_lt, hiword]
        exact hi
      · rw [hold, word_add, word_and_mask _ bits (hc.bits_le.trans (by decide)) c.mask hc.mask_eq]
        exact hj
  | _ => simp [hpc, Pc.nextSlot?] at hslot

theorem World.Tracks.ordered (h : w.Tracks c W) {bits : ℕ} (hc : c.Sized bits) :
    w.machine.mem.Ordered c := by
  have hcap := hc.capacity_lt
  have htwo := hc.two_pow_le
  obtain ⟨hctail, hcons, hptail, hprod⟩ := h.chain
  have hph : w.machine.mem.prod.head = word (W .prod).head := h.head_eq .prod
  have hpt : w.machine.mem.prod.tail = word (W .prod).tail := h.tail_eq .prod
  have hch : w.machine.mem.cons.head = word (W .cons).head := h.head_eq .cons
  have hct : w.machine.mem.cons.tail = word (W .cons).tail := h.tail_eq .cons
  constructor
  · rw [UInt32.le_iff_toNat_le, hch, hct, hpt, word_sub_toNat hctail (by omega),
      word_sub_toNat (by omega) (by omega)]
    omega
  · rw [UInt32.le_iff_toNat_le, hct, hpt, hph, word_sub_toNat (by omega) (by omega),
      word_sub_toNat (by omega) (by omega)]
    omega
  · rw [UInt32.le_iff_toNat_le, hct, hph, word_sub_toNat (by omega) (by omega)]
    omega

/-! ## Runs -/

theorem admissible_start (c : RingConfig) (mem : RingMem T) :
    (World.start mem : World ι T).Admissible c where
  exclusive σ _ t u ht := by simp [World.start, Pc.side?] at ht
  window σ t ht := by simp [World.start, Pc.looping?] at ht

variable [DecidableEq ι]

theorem World.Reachable.next {mem : RingMem T} (hw : w.Reachable c mem) (a : Action ι T)
    (hadm : (w.next c a).Admissible c) : (w.next c a).Reachable c mem :=
  Relation.ReflTransGen.tail hw ⟨a, rfl, hadm⟩

omit [DecidableEq ι] in
/-- With several producers and consumers allowed, only the window is left to keep. -/
theorem admissible_of_multi (hmulti : ∀ σ, c.single σ = false)
    (hreserved : ∀ σ, w.books.reserved σ < 2 ^ 31) : w.Admissible c where
  exclusive σ hs := by simp [hmulti σ] at hs
  window σ t _ := (Nat.sub_le _ _).trans_lt (hreserved σ)

theorem Side.forall_iff {p : Side → Prop} : (∀ σ, p σ) ↔ p .prod ∧ p .cons := by
  refine ⟨fun h => ⟨h _, h _⟩, fun h σ => ?_⟩
  cases σ with
  | prod => exact h.1
  | cons => exact h.2

instance (p : Side → Prop) [DecidablePred p] : Decidable (∀ σ, p σ) :=
  decidable_of_iff _ Side.forall_iff.symm

/-- In a schedule that reserves few items, every world is reachable. -/
theorem World.Reachable.scanl {mem : RingMem T} (hmulti : ∀ σ, c.single σ = false)
    (hw : w.Reachable c mem) {actions : List (Action ι T)}
    (hfew : ∀ w' ∈ actions.scanl (World.next c) w, ∀ σ, w'.books.reserved σ < 2 ^ 31) :
    ∀ w' ∈ actions.scanl (World.next c) w, w'.Reachable c mem :=
  Schedules.reaches_scanl hw fun w' hw' => admissible_of_multi hmulti (hfew w' hw')

theorem World.reachable_foldl {mem : RingMem T} (hmulti : ∀ σ, c.single σ = false)
    (actions : List (Action ι T))
    (hfew : ∀ w ∈ actions.scanl (World.next c) (World.start mem), ∀ σ,
      w.books.reserved σ < 2 ^ 31) :
    (actions.foldl (World.next c) (World.start mem)).Reachable c mem :=
  Schedules.reaches_foldl .refl fun w hw => admissible_of_multi hmulti (hfew w hw)

theorem World.Reachable.tracks {bits : ℕ} (hc : c.Sized bits) {mem : RingMem T}
    (hprod : mem.prod = {}) (hcons : mem.cons = {}) (hw : w.Reachable c mem) :
    w.Admissible c ∧ ∃ W, w.Tracks c W := by
  have h : Relation.ReflTransGen (World.Step c) (World.start mem) w := hw
  clear hw
  induction h with
  | refl => exact ⟨admissible_start c mem, _, tracks_start c mem hprod hcons⟩
  | tail _ hstep ih =>
      obtain ⟨hadm, W, htracks⟩ := ih
      obtain ⟨a, rfl, hadm'⟩ := hstep
      exact ⟨hadm', htracks.next hadm.exclusive hc fun t _ => htracks.unmoved hadm t⟩

/-- Whatever threads do to a constructed ring, the four indices stay in order, no two calls
hold a slot together, and a call copies only slots that it holds. -/
theorem reservations_disjoint {size : UInt32} {fuel : ℕ} {behavior : BuffRingBehavior}
    {sp sc : Bool} {data : ℕ → T} {m : RingMem T}
    (hring : buffRing fuel size behavior sp sc data = some (c, m))
    (hw : w.Reachable c m) :
    w.machine.mem.Ordered c ∧
      (∀ t u, t ≠ u → Disjoint ((w.machine.pc t).slots c) ((w.machine.pc u).slots c)) ∧
      ∀ t slot, (w.machine.pc t).nextSlot? c = some slot →
        (∃ x ∈ (w.machine.pc t).slots c, x.toNat = slot) ∧
          ∀ u, u ≠ t → ∀ x ∈ (w.machine.pc u).slots c, x.toNat ≠ slot := by
  obtain ⟨rfl, bits, hc⟩ := buffRing_sized hring
  obtain ⟨-, W, h⟩ := hw.tracks hc rfl rfl
  refine ⟨h.ordered hc, fun t u hne => ?_, fun t slot hslot => ?_⟩
  · rw [Set.disjoint_left]
    exact fun x hx hy => h.slots_ne hc hne hx hy rfl
  · obtain ⟨x, hx, rfl⟩ := h.nextSlot_mem hc hslot
    exact ⟨⟨x, hx, rfl⟩, fun u hu y hy heq => h.slots_ne hc hu hy hx (UInt32.toNat_inj.mp heq)⟩

/-- Two producers hold slots 0 and 1 of a ring of four. -/
theorem reservations_disjoint_of_two_producers :
    let c : RingConfig := ⟨4, 3, 3, .kRingQueueVariable, false, false⟩
    let call : Call ℕ := ⟨.prod, fun _ => 7, 1⟩
    let w : World Bool ℕ := [Action.enter false call, .run false, .run false, .run false,
      .enter true call, .run true, .run true, .run true].foldl (World.next c)
      (World.start ⟨{}, {}, fun _ => 0⟩)
    Disjoint ((w.machine.pc false).slots c) ((w.machine.pc true).slots c) := by
  intro c call w
  have hw : w.Reachable c ⟨{}, {}, fun _ => 0⟩ := World.reachable_foldl (by decide) _ (by decide)
  have hring : buffRing 0 4 .kRingQueueVariable false false (fun _ => 0) =
      some (c, ⟨{}, {}, fun _ => 0⟩) := rfl
  exact (reservations_disjoint hring hw).2.1 false true (by decide)

end Restore.BuffRing
