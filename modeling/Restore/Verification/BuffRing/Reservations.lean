import Restore.Verification.BuffRing.Sequential
import Restore.Shared.Window

/-! # Reservations of interleaved calls

On each side the ranges between a head move and the matching tail store form a ticket
window, and the four indices of the ring are the ends of the two windows. -/

namespace Restore.BuffRing

open Restore.Counter

variable {ι T : Type*}

/-- The range that a thread holds on side `σ`, when its reservation started at `seen`. -/
def Pc.claim (σ : Side) (seen : ℕ) : Pc T → Option (ℕ × ℕ)
  | .copy call mv _ | .awaitTail call mv | .storeTail call mv =>
      if call.side = σ then some (seen, mv.n.toNat) else none
  | _ => none

/-- What a thread's locals say about the windows. -/
def Pc.Sound (c : RingConfig) (W : Side → Window ι) (seen : ℕ) : Pc T → Prop
  | .loadTail call oldHead =>
      oldHead = word seen ∧ seen ≤ (W call.side).head ∧
        (c.single call.side = true → seen = (W call.side).head)
  | .moveHead call mv =>
      (mv.oldHead = word seen ∧ seen ≤ (W call.side).head ∧
        (c.single call.side = true → seen = (W call.side).head)) ∧
      mv.newHead = mv.oldHead + mv.n ∧ 0 < mv.n.toNat ∧
      -- only as good as the head that was loaded
      (seen = (W call.side).head →
        seen + mv.n.toNat ≤ (W call.side.other).tail + c.slack call.side)
  | .copy _ mv _ | .awaitTail _ mv => mv.oldHead = word seen ∧ mv.newHead = mv.oldHead + mv.n
  | .storeTail call mv =>
      mv.oldHead = word seen ∧ mv.newHead = mv.oldHead + mv.n ∧ seen = (W call.side).tail
  | _ => True

/-- The indices and the threads' locals agree with one window for each side. -/
structure World.Tracks (c : RingConfig) (w : World ι T) (W : Side → Window ι) : Prop where
  head_eq : ∀ σ, (w.machine.mem.ht σ).head = word (W σ).head
  tail_eq : ∀ σ, (w.machine.mem.ht σ).tail = word (W σ).tail
  bounded : ∀ σ, (W σ).head ≤ (W σ.other).tail + c.slack σ
  reserved_eq : ∀ σ, w.books.reserved σ = (W σ).head
  released_eq : ∀ σ, w.books.released σ = (W σ).tail
  held_eq : ∀ σ t, (W σ).held t = (w.machine.pc t).claim σ (w.books.seen t)
  sound : ∀ t, (w.machine.pc t).Sound c W (w.books.seen t)

/-- The four indices in their order around the ring. -/
theorem World.Tracks.chain {c : RingConfig} {w : World ι T} {W : Side → Window ι}
    (h : w.Tracks c W) :
    (W .cons).tail ≤ (W .cons).head ∧ (W .cons).head ≤ (W .prod).tail ∧
      (W .prod).tail ≤ (W .prod).head ∧ (W .prod).head ≤ (W .cons).tail + c.capacity.toNat :=
  ⟨(W .cons).tail_le_head, h.bounded .cons, (W .prod).tail_le_head, h.bounded .prod⟩

/-- A single side serves one call at a time. -/
def World.Exclusive (c : RingConfig) (w : World ι T) : Prop :=
  ∀ σ, c.single σ = true → ∀ t u, (w.machine.pc t).side? = some σ →
    (w.machine.pc u).side? = some σ → t = u

@[simp] theorem Side.other_other (σ : Side) : σ.other.other = σ := by cases σ <;> rfl

theorem Side.other_ne (σ : Side) : σ.other ≠ σ := by cases σ <;> decide

theorem Side.eq_other {σ τ : Side} (h : τ ≠ σ) : τ = σ.other := by
  cases σ <;> cases τ <;> first | rfl | exact absurd rfl h

section Memory

variable (m : RingMem T) (σ : Side) (v : UInt32)

@[simp] theorem RingMem.ht_setHead_self : (m.setHead σ v).ht σ = ⟨v, (m.ht σ).tail⟩ := by
  cases σ <;> rfl

@[simp] theorem RingMem.ht_setTail_self : (m.setTail σ v).ht σ = ⟨(m.ht σ).head, v⟩ := by
  cases σ <;> rfl

theorem RingMem.ht_setHead_of_ne {τ : Side} (h : τ ≠ σ) : (m.setHead σ v).ht τ = m.ht τ := by
  cases σ <;> cases τ <;> first | rfl | exact absurd rfl h

theorem RingMem.ht_setTail_of_ne {τ : Side} (h : τ ≠ σ) : (m.setTail σ v).ht τ = m.ht τ := by
  cases σ <;> cases τ <;> first | rfl | exact absurd rfl h

end Memory

theorem tracks_start (c : RingConfig) (mem : RingMem T) (hprod : mem.prod = {})
    (hcons : mem.cons = {}) :
    (World.start mem : World ι T).Tracks c fun _ => Window.empty where
  head_eq σ := by cases σ <;> simp [World.start, RingMem.ht, hprod, hcons, Window.empty, word]
  tail_eq σ := by cases σ <;> simp [World.start, RingMem.ht, hprod, hcons, Window.empty, word]
  bounded σ := by simp [Window.empty]
  reserved_eq σ := rfl
  released_eq σ := rfl
  held_eq σ t := rfl
  sound t := trivial

variable {c : RingConfig} {w : World ι T} {W W' : Side → Window ι}

/-- Locals stay sound while the windows move forward, provided no other call runs on a
single side and a thread about to store its tail keeps the tail it waited for. -/
theorem Pc.Sound.mono {pc : Pc T} {seen : ℕ} (h : pc.Sound c W seen)
    (hhead : ∀ σ, (W σ).head ≤ (W' σ).head) (htail : ∀ σ, (W σ).tail ≤ (W' σ).tail)
    (hsingle : ∀ σ, pc.side? = some σ → c.single σ = true → (W' σ).head = (W σ).head)
    (hstore : ∀ call mv, pc = .storeTail call mv → (W' call.side).tail = (W call.side).tail) :
    pc.Sound c W' seen := by
  cases pc with
  | loadTail call oldHead =>
      obtain ⟨hold, hle, hone⟩ := h
      refine ⟨hold, hle.trans (hhead _), fun hs => ?_⟩
      rw [hsingle _ rfl hs, hone hs]
  | moveHead call mv =>
      obtain ⟨⟨hold, hle, hone⟩, hnew, hn, hroom⟩ := h
      refine ⟨⟨hold, hle.trans (hhead _), fun hs => ?_⟩, hnew, hn, fun heq => ?_⟩
      · rw [hsingle _ rfl hs, hone hs]
      · -- an advanced head would have overtaken the loaded one
        have hsame : seen = (W call.side).head :=
          Nat.le_antisymm hle (heq ▸ hhead call.side)
        have := hroom hsame
        have := htail call.side.other
        omega
  | storeTail call mv =>
      obtain ⟨hold, hnew, heq⟩ := h
      exact ⟨hold, hnew, by rw [hstore call mv rfl, heq]⟩
  | _ => exact h

/-! ## What the locals know -/

/-- The loaded head and the other tail give an exact count unless the head has moved on. -/
theorem World.Tracks.clamp_bound (h : w.Tracks c W) {bits : ℕ} (hc : c.Sized bits) (σ : Side)
    (n : UInt32) {seen : ℕ} (hseen : seen = (W σ).head) :
    seen + (c.clamp n (c.entries σ (w.machine.mem.ht σ.other).tail (word seen))).toNat ≤
      (W σ.other).tail + c.slack σ := by
  have hcap := hc.capacity_lt
  have htwo := hc.two_pow_le
  have hbounded := h.bounded σ
  have hother := h.bounded σ.other
  have htails := (W σ).tail_le_head
  rw [Side.other_other] at hother
  have hslack : (W σ.other).tail + c.slack σ - seen < 2 ^ 32 := by
    have := (W σ.other).tail_le_head
    cases σ <;> simp only [RingConfig.slack, Side.other] at * <;> omega
  subst hseen
  rw [h.tail_eq, entries_word c σ hbounded, clamp_word c n hslack, word_toNat]
  have hreach := reach_le_entries c n ((W σ.other).tail + c.slack σ - (W σ).head)
  rw [Nat.mod_eq_of_lt (by omega)]
  omega

/-- With fewer than `2 ^ 31` items reserved in a loop iteration, no head goes all the way
round. -/
theorem World.Tracks.unmoved (h : w.Tracks c W) (hadm : w.Admissible c) (t : ι) :
    w.Unmoved c t := by
  unfold World.Unmoved
  split
  next call mv hpc =>
    intro _ hcas
    have hsound := h.sound t
    rw [hpc] at hsound
    obtain ⟨⟨hold, hle, -⟩, -, -, -⟩ := hsound
    have hwindow := hadm.window call.side t (by rw [hpc]; rfl)
    rw [h.reserved_eq] at hwindow ⊢
    rw [h.head_eq, hold] at hcas
    exact (eq_of_word_eq hle (by omega) hcas.symm).symm
  next => trivial

/-- A head move on a loaded head succeeds only if no head move came in between. -/
theorem World.Tracks.seen_eq_head (h : w.Tracks c W) {t : ι} (hunmoved : w.Unmoved c t)
    {call : Call T} {mv : HeadMove} (hpc : w.machine.pc t = .moveHead call mv)
    (hmoves : c.single call.side = true ∨ (w.machine.mem.ht call.side).head = mv.oldHead) :
    w.books.seen t = (W call.side).head := by
  have hsound := h.sound t
  rw [hpc] at hsound
  obtain ⟨⟨-, -, hsingle⟩, -, -, -⟩ := hsound
  cases hs : c.single call.side with
  | true => exact hsingle hs
  | false =>
      rw [World.Unmoved, hpc] at hunmoved
      rw [← h.reserved_eq]
      exact (hunmoved hs (hmoves.resolve_left (by rw [hs]; decide))).symm

/-- A thread that leaves the copy loop of a single side holds the range at the tail. -/
theorem World.Tracks.first_of_single (h : w.Tracks c W) (hexclusive : w.Exclusive c) {t : ι}
    {call : Call T} {mv : HeadMove} {i : ℕ} (hpc : w.machine.pc t = .copy call mv i)
    (hs : c.single call.side = true) : w.books.seen t = (W call.side).tail := by
  have hheld : (W call.side).held t = some (w.books.seen t, mv.n.toNat) := by
    rw [h.held_eq, hpc]
    simp [Pc.claim]
  refine (W call.side).start_eq_tail_of_sole hheld fun u hu => ?_
  refine hexclusive _ hs u t ?_ (by rw [hpc]; rfl)
  rw [h.held_eq] at hu
  cases hpcu : w.machine.pc u <;> simp_all [Pc.claim, Pc.side?]

/-- A thread that finds the tail it waits for holds the range at the tail. -/
theorem World.Tracks.first_of_await (h : w.Tracks c W) {bits : ℕ} (hc : c.Sized bits) {t : ι}
    {call : Call T} {mv : HeadMove} (hpc : w.machine.pc t = .awaitTail call mv)
    (htail : (w.machine.mem.ht call.side).tail = mv.oldHead) :
    w.books.seen t = (W call.side).tail := by
  have hheld : (W call.side).held t = some (w.books.seen t, mv.n.toNat) := by
    rw [h.held_eq, hpc]
    simp [Pc.claim]
  obtain ⟨hle, hn, hhead⟩ := (W call.side).within hheld
  have hsound := h.sound t
  rw [hpc] at hsound
  rw [h.tail_eq, hsound.1] at htail
  have hcap := hc.capacity_lt
  have htwo := hc.two_pow_le
  have hbounded := h.bounded call.side
  have hother := h.bounded call.side.other
  have htails := (W call.side.other).tail_le_head
  rw [Side.other_other] at hother
  refine (eq_of_word_eq hle ?_ htail).symm
  cases hside : call.side <;> simp only [hside, RingConfig.slack, Side.other] at * <;> omega

variable [DecidableEq ι]

@[simp] theorem Machine.goto_pc_self (s : Machine ι T) (t : ι) (pc : Pc T) :
    (s.goto t pc).pc t = pc := by
  simp only [Machine.goto, Function.update_self]

theorem Machine.goto_pc_of_ne (s : Machine ι T) {t u : ι} (hu : u ≠ t) (pc : Pc T) :
    (s.goto t pc).pc u = s.pc u := by
  simp only [Machine.goto, Function.update_of_ne hu]

/-! ## Steps of one thread that move no index -/

/-- A thread changes its own locals, its book entry and slots, but no index. -/
theorem World.Tracks.local (h : w.Tracks c W) (t : ι) (pc : Pc T) (mem : RingMem T)
    (books : Books ι T) (hmem : ∀ σ, mem.ht σ = w.machine.mem.ht σ)
    (hreserved : books.reserved = w.books.reserved)
    (hreleased : books.released = w.books.released)
    (hseen : ∀ u, u ≠ t → books.seen u = w.books.seen u)
    (hclaim : ∀ σ, pc.claim σ (books.seen t) = (w.machine.pc t).claim σ (w.books.seen t))
    (hsound : pc.Sound c W (books.seen t)) :
    World.Tracks c ⟨Machine.goto ⟨mem, w.machine.pc⟩ t pc, books⟩ W where
  head_eq σ := by rw [← h.head_eq σ, ← hmem σ]; rfl
  tail_eq σ := by rw [← h.tail_eq σ, ← hmem σ]; rfl
  bounded := h.bounded
  reserved_eq σ := by rw [← h.reserved_eq σ, ← hreserved]
  released_eq σ := by rw [← h.released_eq σ, ← hreleased]
  held_eq σ u := by
    rcases eq_or_ne u t with rfl | hu
    · rw [Machine.goto_pc_self, h.held_eq, hclaim]
    · rw [Machine.goto_pc_of_ne _ hu, h.held_eq, hseen u hu]
  sound u := by
    rcases eq_or_ne u t with rfl | hu
    · rwa [Machine.goto_pc_self]
    · rw [Machine.goto_pc_of_ne _ hu, hseen u hu]
      exact h.sound u

/-- The same, for a step that touches neither the books nor the memory. -/
theorem World.Tracks.goto (h : w.Tracks c W) (t : ι) (pc : Pc T)
    (hclaim : ∀ σ, pc.claim σ (w.books.seen t) =
      (w.machine.pc t).claim σ (w.books.seen t))
    (hsound : pc.Sound c W (w.books.seen t)) :
    World.Tracks c ⟨w.machine.goto t pc, w.books⟩ W :=
  h.local t pc w.machine.mem w.books (fun _ => rfl) rfl rfl (fun _ _ => rfl) hclaim hsound

/-! ## Head moves and tail stores -/

/-- A thread moves one side's window from `W σ` to `v` and changes only its own locals. -/
theorem World.Tracks.advance (h : w.Tracks c W) (t : ι) (σ : Side) (v : Window ι) (pc : Pc T)
    (mem : RingMem T) (books : Books ι T)
    (hself : mem.ht σ = ⟨word v.head, word v.tail⟩)
    (hother : ∀ τ, τ ≠ σ → mem.ht τ = w.machine.mem.ht τ)
    (hhead : (W σ).head ≤ v.head) (htail : (W σ).tail ≤ v.tail)
    (hbounded : v.head ≤ (W σ.other).tail + c.slack σ)
    (hreserved : books.reserved = Function.update w.books.reserved σ v.head)
    (hreleased : books.released = Function.update w.books.released σ v.tail)
    (hbooks : books.seen = w.books.seen)
    (hheld : v.held = Function.update (W σ).held t (pc.claim σ (w.books.seen t)))
    (hclaim : ∀ τ, τ ≠ σ →
      pc.claim τ (w.books.seen t) = (w.machine.pc t).claim τ (w.books.seen t))
    (hsingle : c.single σ = true → v.head = (W σ).head ∨
      ∀ u, (w.machine.pc u).side? = some σ → u = t)
    (hstore : ∀ u call mv, u ≠ t → w.machine.pc u = .storeTail call mv → call.side = σ →
      v.tail = (W σ).tail)
    (hsound : pc.Sound c (Function.update W σ v) (w.books.seen t)) :
    World.Tracks c ⟨Machine.goto ⟨mem, w.machine.pc⟩ t pc, books⟩ (Function.update W σ v) where
  head_eq τ := by
    rcases eq_or_ne τ σ with rfl | hτ
    · simp [Machine.goto, hself]
    · simp [Machine.goto, hother τ hτ, hτ, h.head_eq]
  tail_eq τ := by
    rcases eq_or_ne τ σ with rfl | hτ
    · simp [Machine.goto, hself]
    · simp [Machine.goto, hother τ hτ, hτ, h.tail_eq]
  bounded τ := by
    have hne := σ.other_ne
    rcases eq_or_ne τ σ with rfl | hτ
    · simpa [hne] using hbounded
    · obtain rfl := Side.eq_other hτ
      have hold := h.bounded σ.other
      rw [Side.other_other] at hold
      simp only [Function.update_of_ne hne, Side.other_other, Function.update_self]
      omega
  reserved_eq τ := by
    rcases eq_or_ne τ σ with rfl | hτ
    · simp [hreserved]
    · simp [hreserved, hτ, h.reserved_eq]
  released_eq τ := by
    rcases eq_or_ne τ σ with rfl | hτ
    · simp [hreleased]
    · simp [hreleased, hτ, h.released_eq]
  held_eq τ u := by
    rcases eq_or_ne τ σ with rfl | hτ <;> rcases eq_or_ne u t with rfl | hu
    · simp [Machine.goto, hheld, hbooks]
    · simp [Machine.goto, hheld, hbooks, hu, h.held_eq]
    · simp [Machine.goto, hτ, hbooks, h.held_eq, hclaim τ hτ]
    · simp [Machine.goto, hτ, hbooks, hu, h.held_eq]
  sound u := by
    rcases eq_or_ne u t with rfl | hu
    · simpa only [Machine.goto, Function.update_self, hbooks] using hsound
    · simp only [Machine.goto, Function.update_of_ne hu, hbooks]
      refine (h.sound u).mono ?_ ?_ ?_ ?_
      · exact (Function.forall_update_iff W fun τ x => (W τ).head ≤ x.head).mpr
          ⟨hhead, fun _ _ => le_rfl⟩
      · exact (Function.forall_update_iff W fun τ x => (W τ).tail ≤ x.tail).mpr
          ⟨htail, fun _ _ => le_rfl⟩
      · intro τ hside hs
        rcases eq_or_ne τ σ with rfl | hτ
        · rcases hsingle hs with heq | hsole
          · simpa using heq
          · exact absurd (hsole u hside) hu
        · simp [hτ]
      · intro call mv hpc
        rcases eq_or_ne call.side σ with hσ | hσ
        · simpa [hσ] using hstore u call mv hu hpc hσ
        · simp [hσ]

/-- A head move that finds the head it loaded reserves the next range of its window. -/
theorem World.Tracks.reserve (h : w.Tracks c W) (hexclusive : w.Exclusive c) {t : ι}
    {call : Call T} {mv : HeadMove} (hpc : w.machine.pc t = .moveHead call mv)
    (hseen : w.books.seen t = (W call.side).head) (books : Books ι T)
    (hreserved : books.reserved = Function.update w.books.reserved call.side
      (w.books.reserved call.side + mv.n.toNat))
    (hreleased : books.released = w.books.released)
    (hbooks : books.seen = w.books.seen) :
    ∃ hfree hn, World.Tracks c
      ⟨Machine.goto ⟨w.machine.mem.setHead call.side mv.newHead, w.machine.pc⟩ t
        (.copy call mv 0), books⟩
      (Function.update W call.side ((W call.side).reserve t mv.n.toNat hfree hn)) := by
  have hsound := h.sound t
  rw [hpc] at hsound
  obtain ⟨⟨hold, -, -⟩, hnew, hn, hroom⟩ := hsound
  have hfree : (W call.side).held t = none := by rw [h.held_eq, hpc]; rfl
  refine ⟨hfree, hn, ?_⟩
  apply h.advance t call.side ((W call.side).reserve t mv.n.toNat hfree hn)
  · rw [RingMem.ht_setHead_self, h.tail_eq, hnew, hold, hseen, word_add_toNat]
    rfl
  · intro τ hτ
    exact RingMem.ht_setHead_of_ne _ _ _ hτ
  · exact Nat.le_add_right _ _
  · exact le_rfl
  · rw [hseen] at hroom
    exact hroom rfl
  · rw [hreserved, h.reserved_eq]
    rfl
  · have htail : ((W call.side).reserve t mv.n.toNat hfree hn).tail =
        w.books.released call.side := (h.released_eq call.side).symm
    rw [hreleased, htail, Function.update_eq_self]
  · exact hbooks
  · simp [Window.reserve, Pc.claim, hseen]
  · intro τ hτ
    simp [hpc, Pc.claim, Ne.symm hτ]
  · intro hs
    exact Or.inr fun u hside => hexclusive _ hs u t hside (by rw [hpc]; rfl)
  · intro _ _ _ _ _ _
    rfl
  · exact ⟨hold, hnew⟩

/-- A tail store retires the first range of its window. -/
theorem World.Tracks.retire (h : w.Tracks c W) {t : ι} {call : Call T} {mv : HeadMove}
    (hpc : w.machine.pc t = .storeTail call mv) (space : UInt32) (books : Books ι T)
    (hreserved : books.reserved = w.books.reserved)
    (hreleased : books.released = Function.update w.books.released call.side
      (w.books.released call.side + mv.n.toNat))
    (hbooks : books.seen = w.books.seen) :
    ∃ hfirst, World.Tracks c
      ⟨Machine.goto ⟨w.machine.mem.setTail call.side mv.newHead, w.machine.pc⟩ t
        (.returned call mv.n space), books⟩
      (Function.update W call.side ((W call.side).retire t mv.n.toNat hfirst)) := by
  have hsound := h.sound t
  rw [hpc] at hsound
  obtain ⟨hold, hnew, hseen⟩ := hsound
  have hfirst : (W call.side).held t = some ((W call.side).tail, mv.n.toNat) := by
    rw [h.held_eq, hpc, ← hseen]
    simp [Pc.claim]
  refine ⟨hfirst, ?_⟩
  apply h.advance t call.side ((W call.side).retire t mv.n.toNat hfirst)
  · rw [RingMem.ht_setTail_self, h.head_eq, hnew, hold, hseen, word_add_toNat]
    rfl
  · intro τ hτ
    exact RingMem.ht_setTail_of_ne _ _ _ hτ
  · exact le_rfl
  · exact Nat.le_add_right _ _
  · exact h.bounded call.side
  · have hhead : ((W call.side).retire t mv.n.toNat hfirst).head = w.books.reserved call.side :=
      (h.reserved_eq call.side).symm
    rw [hreserved, hhead, Function.update_eq_self]
  · rw [hreleased, h.released_eq]
    rfl
  · exact hbooks
  · simp [Window.retire, Pc.claim]
  · intro τ hτ
    simp [hpc, Pc.claim, Ne.symm hτ]
  · intro _
    exact Or.inl rfl
  · -- two threads cannot both hold the range at the tail
    intro u call' mv' hu hpc' hσ
    have hsound' := h.sound u
    rw [hpc'] at hsound'
    have hheld' : (W call.side).held u = some ((W call.side).tail, mv'.n.toNat) := by
      rw [h.held_eq, hpc', ← hσ, ← hsound'.2.2]
      simp [Pc.claim]
    exact absurd rfl ((W call.side).start_ne hu hheld' hfirst)
  · trivial

/-! ## Every step -/

section Books

variable (b : Books ι T) (t : ι) (call : Call T) (n : ℕ)

@[simp] theorem Books.reserve_reserved : (b.reserve t call n).reserved =
    Function.update b.reserved call.side (b.reserved call.side + n) := by
  unfold Books.reserve
  cases call.side <;> rfl

@[simp] theorem Books.reserve_released : (b.reserve t call n).released = b.released := by
  unfold Books.reserve
  cases call.side <;> rfl

@[simp] theorem Books.reserve_seen : (b.reserve t call n).seen = b.seen := by
  unfold Books.reserve
  cases call.side <;> rfl

omit [DecidableEq ι]

@[simp] theorem Books.release_reserved : (b.release t call n).reserved = b.reserved := by
  unfold Books.release
  cases call.side <;> rfl

@[simp] theorem Books.release_released : (b.release t call n).released =
    Function.update b.released call.side (b.released call.side + n) := by
  unfold Books.release
  cases call.side <;> rfl

@[simp] theorem Books.release_seen : (b.release t call n).seen = b.seen := by
  unfold Books.release
  cases call.side <;> rfl

end Books

/-- Every step of every thread keeps the windows. -/
theorem World.Tracks.run (h : w.Tracks c W) (hexclusive : w.Exclusive c) {bits : ℕ}
    (hc : c.Sized bits) {t : ι} (hunmoved : w.Unmoved c t) :
    ∃ W', (w.next c (.run t)).Tracks c W' := by
  cases hpc : w.machine.pc t with
  | idle =>
      refine ⟨W, ?_⟩
      simpa only [World.next, Machine.act, Machine.run, Books.record, hpc] using h
  | loadHead call =>
      refine ⟨W, ?_⟩
      simp only [World.next, Machine.act, Machine.run, Books.record, hpc]
      apply h.local t
      · exact fun _ => rfl
      · rfl
      · rfl
      · exact fun u hu => by simp [hu]
      · simp [hpc, Pc.claim]
      · dsimp only
        rw [Function.update_self, h.reserved_eq, h.head_eq]
        exact ⟨rfl, le_rfl, fun _ => rfl⟩
  | loadTail call oldHead =>
      refine ⟨W, ?_⟩
      have hsound := h.sound t
      rw [hpc] at hsound
      obtain ⟨hold, hle, hsingle⟩ := hsound
      simp only [World.next, Machine.act, Machine.run, Books.record, hpc]
      split
      · exact h.goto t _ (by simp [hpc, Pc.claim]) trivial
      · rename_i hne
        refine h.goto t _ (by simp [hpc, Pc.claim]) ⟨⟨hold, hle, hsingle⟩, rfl, ?_, fun heq => ?_⟩
        · exact Nat.pos_of_ne_zero fun hz => hne (UInt32.toNat_inj.mp hz)
        · rw [hold]
          exact h.clamp_bound hc call.side call.max heq
  | moveHead call mv =>
      simp only [World.next, Machine.act, Machine.run, Books.record, hpc, RingMem.casHead]
      by_cases hmoves : c.single call.side = true ∨ (w.machine.mem.ht call.side).head = mv.oldHead
      · have hseen := h.seen_eq_head hunmoved hpc hmoves
        obtain ⟨_, _, hnext⟩ := h.reserve hexclusive hpc hseen (w.books.reserve t call mv.n.toNat)
          (by simp) (by simp) (by simp)
        rw [if_pos hmoves]
        by_cases hs : c.single call.side = true
        · rw [if_pos hs]
          exact ⟨_, hnext⟩
        · rw [if_neg hs, if_pos (hmoves.resolve_left hs)]
          exact ⟨_, hnext⟩
      · refine ⟨W, ?_⟩
        rw [not_or] at hmoves
        rw [if_neg hmoves.1, if_neg hmoves.2, if_neg (not_or.mpr hmoves)]
        exact h.goto t _ (by simp [hpc, Pc.claim]) trivial
  | copy call mv i =>
      refine ⟨W, ?_⟩
      have hsound := h.sound t
      rw [hpc] at hsound
      simp only [World.next, Machine.act, Machine.run, Books.record, hpc]
      split
      · split
        · exact h.local t _ _ _ (fun σ => by cases σ <;> rfl) rfl rfl (fun _ _ => rfl)
            (by simp [hpc, Pc.claim]) hsound
        · exact h.goto t _ (by simp [hpc, Pc.claim]) hsound
      · by_cases hs : c.single call.side = true
        · rw [if_pos hs]
          exact h.goto t _ (by simp [hpc, Pc.claim])
            ⟨hsound.1, hsound.2, h.first_of_single hexclusive hpc hs⟩
        · rw [if_neg hs]
          exact h.goto t _ (by simp [hpc, Pc.claim]) hsound
  | awaitTail call mv =>
      refine ⟨W, ?_⟩
      have hsound := h.sound t
      rw [hpc] at hsound
      simp only [World.next, Machine.act, Machine.run, Books.record, hpc]
      split
      · rename_i htail
        exact h.goto t _ (by simp [hpc, Pc.claim])
          ⟨hsound.1, hsound.2, h.first_of_await hc hpc htail⟩
      · exact h
  | storeTail call mv =>
      simp only [World.next, Machine.act, Machine.run, Books.record, hpc]
      obtain ⟨_, hnext⟩ := h.retire hpc (mv.entries - mv.n) (w.books.release t call mv.n.toNat)
        (by simp) (by simp) (by simp)
      exact ⟨_, hnext⟩
  | loadProdTail | loadConsTail | returned | counted =>
      refine ⟨W, ?_⟩
      simp only [World.next, Machine.act, Machine.run, Books.record, hpc]
      exact h.goto t _ (by simp [hpc, Pc.claim]) trivial

theorem World.Tracks.next (h : w.Tracks c W) (hexclusive : w.Exclusive c) {bits : ℕ}
    (hc : c.Sized bits) {a : Action ι T} (hunmoved : ∀ t, a = .run t → w.Unmoved c t) :
    ∃ W', (w.next c a).Tracks c W' := by
  cases a with
  | run t => exact h.run hexclusive hc (hunmoved t rfl)
  | enter t call =>
      refine ⟨W, ?_⟩
      simp only [World.next, Machine.act, Books.record]
      split
      · rename_i hpc
        exact h.goto t _ (by simp [hpc, Pc.claim]) trivial
      · exact h
  | enterCount t =>
      refine ⟨W, ?_⟩
      simp only [World.next, Machine.act, Books.record]
      split
      · rename_i hpc
        exact h.goto t _ (by simp [hpc, Pc.claim]) trivial
      · exact h

end Restore.BuffRing
