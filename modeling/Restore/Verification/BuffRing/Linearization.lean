import Restore.Shared.Batches
import Restore.Verification.BuffRing.Exclusion

/-! # The interleaved ring is one queue

The head moves order all batches. Every slot between the consumers' released count and
the producers' holds the item of that count, so a consumer copies out exactly the items
of the range it reserved, whenever it copies them. -/

namespace Restore.BuffRing

open Restore.Counter Restore.Batches

variable {ι T : Type*}

/-! ## The log and the slots -/

/-- All reserved items, in the order of the producers' head moves. -/
def Books.items (b : Books ι T) : List T := b.enqueued.flatten

/-- The sizes of one side's reservations, in the order of its head moves. -/
def Books.counts (b : Books ι T) : Side → List ℕ
  | .prod => b.enqueued.map List.length
  | .cons => b.dequeued.map Prod.fst

/-- The log entry of the thread's latest reservation. -/
def Books.Logged (b : Books ι T) (t : ι) (call : Call T) (n : ℕ) (answer : Option (List T)) :
    Prop :=
  match call.side with
  | .prod => b.enqueued[b.ticket t]? = some (batch call.obj n)
  | .cons => b.dequeued[b.ticket t]? = some (n, answer)

/-- What the first `done` copies of a call have achieved. -/
def Books.Copied (b : Books ι T) (bits : ℕ) (data : ℕ → T) (t : ι) (call : Call T)
    (done : ℕ) : Prop :=
  match call.side with
  | .prod => ∀ j < done, data ((b.seen t + j) % 2 ^ bits) = call.obj j
  | .cons => ∀ j < done, b.items[b.seen t + j]? = some (call.obj j)

/-- A call in flight has its place in the log, and its copies agree with the log. -/
structure Books.Serves (b : Books ι T) (bits : ℕ) (data : ℕ → T) (t : ι) (call : Call T)
    (n done : ℕ) : Prop where
  logged : b.Logged t call n none
  place : offset (b.counts call.side) (b.ticket t) = b.seen t
  le : done ≤ n
  copied : b.Copied bits data t call done

def Pc.Serves (bits : ℕ) (b : Books ι T) (data : ℕ → T) (t : ι) : Pc T → Prop
  | .copy call mv i => b.Serves bits data t call mv.n.toNat i
  | .awaitTail call mv | .storeTail call mv =>
      b.Serves bits data t call mv.n.toNat mv.n.toNat
  | .returned call n _ =>
      n ≠ 0 → b.Logged t call n.toNat (some (batch call.obj n.toNat))
  | _ => True

/-- Log, slots and calls in flight agree. -/
structure World.Logs (bits : ℕ) (w : World ι T) : Prop where
  total : ∀ σ, (w.books.counts σ).sum = w.books.reserved σ
  stored : ∀ k, w.books.released .cons ≤ k → k < w.books.released .prod →
    w.books.items[k]? = some (w.machine.mem.data (k % 2 ^ bits))
  answered : ∀ k n l, w.books.dequeued[k]? = some (n, some l) →
    l = (w.books.items.drop (offset (w.books.counts .cons) k)).take n ∧ l.length = n
  serves : ∀ t, (w.machine.pc t).Serves bits w.books w.machine.mem.data t

theorem logs_start (bits : ℕ) (mem : RingMem T) :
    (World.start mem : World ι T).Logs bits where
  total σ := by cases σ <;> rfl
  stored k _ hk := absurd hk (Nat.not_lt_zero k)
  answered k n l h := by simp [World.start] at h
  serves t := trivial

/-- A run of items read one by one is a segment of the log. -/
theorem batch_eq_segment {items : List T} {obj : ℕ → T} {s n : ℕ}
    (h : ∀ j < n, items[s + j]? = some (obj j)) :
    batch obj n = (items.drop s).take n := by
  apply List.ext_getElem?
  intro j
  by_cases hj : j < n
  · rw [List.getElem?_take_of_lt hj, List.getElem?_drop, h j hj]
    simp [batch, hj]
  · rw [List.getElem?_eq_none (by simpa using hj),
      List.getElem?_eq_none (by simp only [List.length_take]; omega)]

variable {c : RingConfig} {w : World ι T} {W : Side → Window ι} {bits : ℕ}

/-- A producer in flight finds its own items in the log. -/
theorem Books.Serves.items_eq {b : Books ι T} {data : ℕ → T} {t : ι} {call : Call T}
    {n done : ℕ} (h : b.Serves bits data t call n done) (hside : call.side = .prod) {j : ℕ}
    (hj : j < n) : b.items[b.seen t + j]? = some (call.obj j) := by
  have hlogged := h.logged
  have hplace := h.place
  simp only [Books.Logged, hside] at hlogged
  rw [hside] at hplace
  rw [← hplace, Books.items, Books.counts, getElem?_flatten hlogged (by simpa using hj)]
  simp [batch, hj]

/-! ## Frame

What the other threads' claims survive. -/

/-- Later books keep what a call relies on. -/
structure Books.Extends (b b' : Books ι T) (bits : ℕ) (data data' : ℕ → T) (pc : Pc T) (t : ι) :
    Prop where
  seen : b'.seen t = b.seen t
  ticket : b'.ticket t = b.ticket t
  enqueued : b.enqueued <+: b'.enqueued
  counts : b.counts .cons <+: b'.counts .cons
  dequeued : ∀ n answer, b.dequeued[b.ticket t]? = some (n, answer) →
    (answer = none → offset (b.counts .cons) (b.ticket t) = b.seen t ∧
      pc.claim .cons (b.seen t) = some (b.seen t, n)) →
    b'.dequeued[b.ticket t]? = some (n, answer)
  data : ∀ a n, pc.claim .prod (b.seen t) = some (a, n) →
    ∀ j < n, data' ((a + j) % 2 ^ bits) = data ((a + j) % 2 ^ bits)

theorem Books.Serves.extend {b b' : Books ι T} {data data' : ℕ → T} {pc : Pc T} {t : ι}
    (he : b.Extends b' bits data data' pc t) {call : Call T} {n done : ℕ}
    (hclaim : pc.claim call.side (b.seen t) = some (b.seen t, n))
    (h : b.Serves bits data t call n done) : b'.Serves bits data' t call n done := by
  obtain ⟨hlogged, hplace, hle, hcopied⟩ := h
  cases hside : call.side with
  | prod =>
      simp only [Books.Logged, Books.Copied, hside, Books.counts] at hlogged hplace hcopied
      have hlen : b.ticket t ≤ (b.enqueued.map List.length).length := by
        rw [List.length_map]
        exact (List.getElem?_eq_some_iff.mp hlogged).1.le
      refine ⟨?_, ?_, hle, ?_⟩
      · simp only [Books.Logged, hside, he.ticket]
        exact getElem?_of_isPrefix he.enqueued hlogged
      · rw [hside, he.ticket, he.seen, ← hplace]
        exact offset_of_isPrefix (he.enqueued.map _) hlen
      · simp only [Books.Copied, hside]
        intro j hj
        rw [he.seen, he.data _ _ (hside ▸ hclaim) j (hj.trans_le hle), hcopied j hj]
  | cons =>
      simp only [Books.Logged, Books.Copied, hside, Books.counts] at hlogged hplace hcopied
      have hlen : b.ticket t ≤ (b.counts .cons).length := by
        rw [Books.counts, List.length_map]
        exact (List.getElem?_eq_some_iff.mp hlogged).1.le
      refine ⟨?_, ?_, hle, ?_⟩
      · simp only [Books.Logged, hside, he.ticket]
        exact he.dequeued _ _ hlogged fun _ => ⟨hplace, hside ▸ hclaim⟩
      · rw [hside, he.ticket, he.seen, ← hplace]
        exact offset_of_isPrefix he.counts hlen
      · simp only [Books.Copied, hside]
        intro j hj
        rw [he.seen]
        exact getElem?_of_isPrefix he.enqueued.flatten (hcopied j hj)

theorem Pc.Serves.extend {b b' : Books ι T} {data data' : ℕ → T} {pc : Pc T} {t : ι}
    (he : b.Extends b' bits data data' pc t) (h : pc.Serves bits b data t) :
    pc.Serves bits b' data' t := by
  cases pc with
  | copy call mv _ | awaitTail call mv | storeTail call mv =>
      exact Books.Serves.extend he (by simp [Pc.claim]) h
  | returned call n space =>
      intro hn
      have hlogged := h hn
      unfold Books.Logged at hlogged ⊢
      rw [he.ticket]
      cases hside : call.side with
      | prod =>
          simp only [hside] at hlogged
          exact getElem?_of_isPrefix he.enqueued hlogged
      | cons =>
          simp only [hside] at hlogged
          exact he.dequeued _ _ hlogged (by simp)
  | _ => trivial

/-- Books and slots are as before, up to the head that one thread has loaded. -/
theorem Books.Extends.of_eq {b b' : Books ι T} {data : ℕ → T} {pc : Pc T} {t : ι}
    (hseen : b'.seen t = b.seen t) (hticket : b'.ticket = b.ticket)
    (henq : b'.enqueued = b.enqueued) (hdeq : b'.dequeued = b.dequeued) :
    b.Extends b' bits data data pc t where
  seen := hseen
  ticket := by rw [hticket]
  enqueued := by rw [henq]
  counts := by simp only [Books.counts, hdeq, List.prefix_rfl]
  dequeued := fun _ _ h _ => by rw [hdeq, h]
  data := fun _ _ _ _ _ => rfl

/-- The copy loop of a call visits the slots of its reservation in order. -/
theorem World.Tracks.ptrPairs_eq (h : w.Tracks c W) (hc : c.Sized bits) {t : ι}
    {call : Call T} {mv : HeadMove} {i : ℕ} (hpc : w.machine.pc t = .copy call mv i) :
    ptrPairs c mv.oldHead mv.n =
      (List.range mv.n.toNat).map fun j => (j, (w.books.seen t + j) % 2 ^ bits) := by
  have hmv : (w.machine.pc t).reservation? = some mv := by rw [hpc]; rfl
  obtain ⟨σ, hheld, hold⟩ := h.held_of_reservation hmv
  have hspan := h.held_span hheld
  have hcap := hc.capacity_lt
  rw [hold, BuffRing.ptrPairs_eq hc _ mv.n (by omega)]

variable [DecidableEq ι]

/-- The threads agree with the new log once the moving thread does and the others keep
what they rely on. -/
theorem World.Logs.serves_goto (h : w.Logs bits) {t : ι} {pc : Pc T} {mem : RingMem T}
    {books : Books ι T}
    (hothers : ∀ u, u ≠ t → w.books.Extends books bits w.machine.mem.data mem.data
      (w.machine.pc u) u)
    (hself : pc.Serves bits books mem.data t) (u : ι) :
    ((Machine.goto ⟨mem, w.machine.pc⟩ t pc).pc u).Serves bits books mem.data u := by
  rcases eq_or_ne u t with rfl | hu
  · rwa [Machine.goto_pc_self]
  · rw [Machine.goto_pc_of_ne _ hu]
    exact (h.serves u).extend (hothers u hu)

/-! ## Steps that write no slot and log nothing -/

theorem World.Logs.local (h : w.Logs bits) (t : ι) (pc : Pc T) (books : Books ι T)
    (hreserved : books.reserved = w.books.reserved)
    (hreleased : books.released = w.books.released)
    (henqueued : books.enqueued = w.books.enqueued)
    (hdequeued : books.dequeued = w.books.dequeued) (hticket : books.ticket = w.books.ticket)
    (hseen : ∀ u, u ≠ t → books.seen u = w.books.seen u)
    (hserves : pc.Serves bits books w.machine.mem.data t) :
    World.Logs bits ⟨w.machine.goto t pc, books⟩ where
  total σ := by
    have := h.total σ
    cases σ <;> simpa only [Books.counts, henqueued, hdequeued, hreserved] using this
  stored k hlo hhi := by
    rw [hreleased] at hlo hhi
    rw [Books.items, henqueued]
    exact h.stored k hlo hhi
  answered k n l := by
    simpa only [Books.items, Books.counts, henqueued, hdequeued] using h.answered k n l
  serves := h.serves_goto
    (fun u hu => Books.Extends.of_eq (hseen u hu) hticket henqueued hdequeued) hserves

theorem World.Logs.goto (h : w.Logs bits) (t : ι) (pc : Pc T)
    (hserves : pc.Serves bits w.books w.machine.mem.data t) :
    World.Logs bits ⟨w.machine.goto t pc, w.books⟩ :=
  h.local t pc w.books rfl rfl rfl rfl rfl (fun _ _ => rfl) hserves

/-! ## Slot copies -/

/-- A slot written by a producer in flight holds no other thread's item. -/
theorem World.Logs.storeSlot (h : w.Logs bits) (htracks : w.Tracks c W) (hc : c.Sized bits)
    {t : ι} {call : Call T} {mv : HeadMove} {i : ℕ} (hpc : w.machine.pc t = .copy call mv i)
    (hside : call.side = .prod) (hi : i < mv.n.toNat) :
    World.Logs bits ⟨Machine.goto ⟨⟨w.machine.mem.prod, w.machine.mem.cons, Function.update
      w.machine.mem.data ((w.books.seen t + i) % 2 ^ bits) (call.obj i)⟩, w.machine.pc⟩ t
      (.copy call mv (i + 1)), w.books⟩ := by
  have hcap := hc.capacity_lt
  have hheld : (W .prod).held t = some (w.books.seen t, mv.n.toNat) := by
    rw [htracks.held_eq, hpc]
    simp [Pc.claim, hside]
  have hwithin := (W .prod).within hheld
  have hspan := htracks.held_span hheld
  have hserves := h.serves t
  rw [hpc] at hserves
  refine ⟨h.total, fun k hlo hhi => ?_, h.answered, h.serves_goto (fun u hu => ?_) ?_⟩
  · -- counts up to the producers' tail are outside every reservation
    have hold := h.stored k hlo hhi
    rw [htracks.released_eq] at hlo hhi
    have hne : k % 2 ^ bits ≠ (w.books.seen t + i) % 2 ^ bits :=
      slot_ne (by omega) (by omega) (by omega)
    simpa only [Machine.goto, Function.update_of_ne hne] using hold
  · refine ⟨rfl, rfl, List.prefix_rfl, List.prefix_rfl, fun _ _ hentry _ => hentry, ?_⟩
    intro a n hclaim j hj
    rw [← htracks.held_eq] at hclaim
    have huspan := htracks.held_span hclaim
    have hcounts : a + j ≠ w.books.seen t + i :=
      htracks.counts_ne hu hclaim hheld ⟨by omega, by omega⟩ ⟨by omega, by omega⟩
    exact Function.update_of_ne (slot_ne hcounts (by omega) (by omega)) _ _
  · obtain ⟨hlogged, hplace, -, hcopied⟩ := hserves
    refine ⟨hlogged, hplace, hi, ?_⟩
    simp only [Books.Copied, hside, Machine.goto] at hcopied ⊢
    intro j hj
    by_cases hji : j = i
    · rw [hji, Function.update_self]
    · have hne : (w.books.seen t + j) % 2 ^ bits ≠ (w.books.seen t + i) % 2 ^ bits :=
        slot_ne (by omega) (by omega) (by omega)
      rw [Function.update_of_ne hne]
      exact hcopied j (by omega)

/-- A slot read by a consumer in flight holds the next item of its range. -/
theorem World.Logs.loadSlot (h : w.Logs bits) (htracks : w.Tracks c W)
    {t : ι} {call : Call T} {mv : HeadMove} {i : ℕ} (hpc : w.machine.pc t = .copy call mv i)
    (hside : call.side = .cons) (hi : i < mv.n.toNat) :
    World.Logs bits ⟨w.machine.goto t (.copy ⟨call.side, Function.update call.obj i
      (w.machine.mem.data ((w.books.seen t + i) % 2 ^ bits)), call.max⟩ mv (i + 1)),
      w.books⟩ := by
  have hheld : (W .cons).held t = some (w.books.seen t, mv.n.toNat) := by
    rw [htracks.held_eq, hpc]
    simp [Pc.claim, hside]
  have hwithin := (W .cons).within hheld
  obtain ⟨-, hbounded, -, -⟩ := htracks.chain
  have hserves := h.serves t
  rw [hpc] at hserves
  obtain ⟨hlogged, hplace, -, hcopied⟩ := hserves
  have hread : w.books.items[w.books.seen t + i]? =
      some (w.machine.mem.data ((w.books.seen t + i) % 2 ^ bits)) := by
    apply h.stored
    · rw [htracks.released_eq]
      omega
    · rw [htracks.released_eq]
      omega
  refine h.goto t _ ⟨?_, hplace, hi, ?_⟩
  · simpa only [Books.Logged, hside] using hlogged
  · simp only [Books.Copied, hside] at hcopied ⊢
    intro j hj
    by_cases hji : j = i
    · rw [hji, Function.update_self, hread]
    · rw [Function.update_of_ne hji]
      exact hcopied j (by omega)

/-! ## Head moves -/

section Reserve

variable (b : Books ι T) (t : ι) (call : Call T) (n : ℕ)

theorem Books.reserve_counts (σ : Side) : (b.reserve t call n).counts σ =
    b.counts σ ++ if call.side = σ then [n] else [] := by
  unfold Books.reserve
  cases call.side <;> cases σ <;> simp [Books.counts]

theorem Books.reserve_ticket : (b.reserve t call n).ticket =
    Function.update b.ticket t (b.counts call.side).length := by
  unfold Books.reserve
  cases call.side <;> simp [Books.counts]

theorem Books.enqueued_prefix_reserve : b.enqueued <+: (b.reserve t call n).enqueued := by
  unfold Books.reserve
  cases call.side <;> simp

theorem Books.dequeued_prefix_reserve : b.dequeued <+: (b.reserve t call n).dequeued := by
  unfold Books.reserve
  cases call.side <;> simp

theorem Books.reserve_logged : (b.reserve t call n).Logged t call n none := by
  unfold Books.reserve Books.Logged
  cases call.side <;> simp

/-- A new entry has no answer yet. -/
theorem Books.answered_of_reserve {k m : ℕ} {l : List T}
    (h : (b.reserve t call n).dequeued[k]? = some (m, some l)) :
    b.dequeued[k]? = some (m, some l) := by
  unfold Books.reserve at h
  cases hside : call.side with
  | prod => simpa only [hside] using h
  | cons =>
      simp only [hside] at h
      rcases lt_trichotomy k b.dequeued.length with hlt | heq | hgt
      · rwa [List.getElem?_append_left hlt] at h
      · simp [heq] at h
      · rw [List.getElem?_eq_none (by simp only [List.length_append, List.length_singleton]; omega)]
          at h
        exact absurd h (by simp)

end Reserve

/-- The books after a head move, which no other thread relies on. -/
theorem Books.extends_reserve (b : Books ι T) {t u : ι} (hu : u ≠ t) (call : Call T) (n : ℕ)
    (data : ℕ → T) (pc : Pc T) : b.Extends (b.reserve t call n) bits data data pc u where
  seen := by rw [Books.reserve_seen]
  ticket := by rw [Books.reserve_ticket, Function.update_of_ne hu]
  enqueued := b.enqueued_prefix_reserve t call n
  counts := by
    rw [Books.reserve_counts]
    exact List.prefix_append _ _
  dequeued := fun _ _ hentry _ =>
    getElem?_of_isPrefix (b.dequeued_prefix_reserve t call n) hentry
  data := fun _ _ _ _ _ => rfl

theorem World.Logs.reserve (h : w.Logs bits) (htracks : w.Tracks c W) {t : ι} {call : Call T}
    (mv : HeadMove) (hseen : w.books.seen t = (W call.side).head)
    (mem : RingMem T) (hdata : mem.data = w.machine.mem.data) :
    World.Logs bits ⟨Machine.goto ⟨mem, w.machine.pc⟩ t (.copy call mv 0),
      w.books.reserve t call mv.n.toNat⟩ := by
  have hitems : w.books.items <+: (w.books.reserve t call mv.n.toNat).items :=
    (w.books.enqueued_prefix_reserve t call _).flatten
  refine ⟨fun σ => ?_, fun k hlo hhi => ?_, fun k n l hl => ?_,
    h.serves_goto (fun u hu => ?_) ?_⟩
  · rw [Books.reserve_counts, List.sum_append, h.total, Books.reserve_reserved]
    rcases eq_or_ne call.side σ with rfl | hσ
    · simp
    · simp [hσ, Ne.symm hσ]
  · rw [Books.reserve_released] at hlo hhi
    rw [Machine.goto, hdata]
    exact getElem?_of_isPrefix hitems (h.stored k hlo hhi)
  · have hold := w.books.answered_of_reserve t call _ hl
    obtain ⟨rfl, hlen⟩ := h.answered k n l hold
    have hk : k ≤ (w.books.counts .cons).length := by
      rw [Books.counts, List.length_map]
      exact (List.getElem?_eq_some_iff.mp hold).1.le
    rw [Books.reserve_counts, offset_of_isPrefix (List.prefix_append _ _) hk,
      segment_of_isPrefix hitems hlen]
    exact ⟨rfl, hlen⟩
  · dsimp only [Machine.goto]
    rw [hdata]
    exact w.books.extends_reserve hu call _ _ _
  · refine ⟨w.books.reserve_logged t call _, ?_, Nat.zero_le _, ?_⟩
    · rw [Books.reserve_ticket, Function.update_self, Books.reserve_counts, Books.reserve_seen,
        offset_of_isPrefix (List.prefix_append _ _) le_rfl, offset_length, h.total,
        htracks.reserved_eq, hseen]
    · cases hside : call.side <;> simp [Books.Copied, hside]

/-! ## Tail stores -/

section Release

variable (b : Books ι T) (t : ι) (call : Call T) (n : ℕ)

omit [DecidableEq ι]

theorem Books.release_enqueued : (b.release t call n).enqueued = b.enqueued := by
  unfold Books.release
  cases call.side <;> rfl

theorem Books.release_ticket : (b.release t call n).ticket = b.ticket := by
  unfold Books.release
  cases call.side <;> rfl

theorem Books.release_counts (σ : Side) : (b.release t call n).counts σ = b.counts σ := by
  unfold Books.release
  cases call.side <;> cases σ <;> try rfl
  simp only [Books.counts]
  apply List.ext_getElem?
  intro k
  rw [List.getElem?_map, List.getElem?_map, List.getElem?_modify]
  cases b.dequeued[k]? with
  | none => rfl
  | some r => by_cases hk : b.ticket t = k <;> simp [hk]

theorem Books.release_dequeued_of_ne {k : ℕ} (hk : call.side = .cons → b.ticket t ≠ k) :
    (b.release t call n).dequeued[k]? = b.dequeued[k]? := by
  unfold Books.release
  cases hside : call.side with
  | prod => rfl
  | cons => exact List.getElem?_modify_ne _ _ (hk hside)

theorem Books.release_dequeued_self (hside : call.side = .cons) {answer : Option (List T)}
    (h : b.dequeued[b.ticket t]? = some (n, answer)) :
    (b.release t call n).dequeued[b.ticket t]? = some (n, some (batch call.obj n)) := by
  unfold Books.release
  simp only [hside, List.getElem?_modify_eq, h]
  rfl

end Release

omit [DecidableEq ι] in
/-- Two consumers in flight have their own entries. -/
theorem World.Logs.ticket_ne (h : w.Logs bits) (htracks : w.Tracks c W) {t u : ι} (hu : u ≠ t)
    {call : Call T} {mv : HeadMove} (hpc : w.machine.pc t = .storeTail call mv)
    (hside : call.side = .cons) {n : ℕ} {answer : Option (List T)}
    (hentry : w.books.dequeued[w.books.ticket u]? = some (n, answer))
    (hflight : answer = none →
      offset (w.books.counts .cons) (w.books.ticket u) = w.books.seen u ∧
        (w.machine.pc u).claim .cons (w.books.seen u) = some (w.books.seen u, n)) :
    w.books.ticket t ≠ w.books.ticket u := by
  have hserves := h.serves t
  rw [hpc] at hserves
  obtain ⟨hlogged, hplace, -, -⟩ := hserves
  simp only [Books.Logged, hside] at hlogged hplace
  have hheld : (W .cons).held t = some (w.books.seen t, mv.n.toNat) := by
    rw [htracks.held_eq, hpc]
    simp [Pc.claim, hside]
  intro heq
  rw [heq, hentry] at hlogged
  simp only [Option.some.injEq, Prod.mk.injEq] at hlogged
  obtain ⟨hplace', hclaim⟩ := hflight hlogged.2
  rw [← htracks.held_eq] at hclaim
  refine (W .cons).start_ne hu hclaim hheld ?_
  rw [← hplace, ← hplace', heq]

theorem World.Logs.retire (h : w.Logs bits) (htracks : w.Tracks c W) {t : ι} {call : Call T}
    {mv : HeadMove} (hpc : w.machine.pc t = .storeTail call mv) (space : UInt32)
    (mem : RingMem T) (hdata : mem.data = w.machine.mem.data) :
    World.Logs bits ⟨Machine.goto ⟨mem, w.machine.pc⟩ t (.returned call mv.n space),
      w.books.release t call mv.n.toNat⟩ := by
  have hserves := h.serves t
  have hsound := htracks.sound t
  rw [hpc] at hserves hsound
  have hfirst : w.books.seen t = w.books.released call.side := by
    rw [htracks.released_eq, hsound.2.2]
  have hitems : (w.books.release t call mv.n.toNat).items = w.books.items := by
    rw [Books.items, Books.release_enqueued, Books.items]
  refine ⟨fun σ => ?_, fun k hlo hhi => ?_, fun k n l hl => ?_,
    h.serves_goto (fun u hu => ?_) ?_⟩
  · rw [Books.release_counts, Books.release_reserved, h.total]
  · rw [Books.release_released] at hlo hhi
    rw [hitems]
    dsimp only [Machine.goto]
    rw [hdata]
    cases hside : call.side with
    | prod =>
        rw [hside, Function.update_of_ne (by decide)] at hlo
        rw [hside, Function.update_self, ← hside, ← hfirst] at hhi
        by_cases hold : k < w.books.released .prod
        · exact h.stored k hlo hold
        · -- the new counts are those that this thread has just filled
          have hcopied := hserves.copied
          simp only [Books.Copied, hside] at hcopied
          rw [hside] at hfirst
          obtain ⟨j, rfl⟩ := Nat.exists_eq_add_of_le (hfirst.trans_le (Nat.le_of_not_lt hold))
          rw [hserves.items_eq hside (by omega), hcopied j (by omega)]
    | cons =>
        rw [hside, Function.update_self] at hlo
        rw [hside, Function.update_of_ne (by decide)] at hhi
        exact h.stored k (by omega) hhi
  · rw [Books.release_counts, hitems]
    by_cases hown : call.side = .cons ∧ w.books.ticket t = k
    · obtain ⟨hside, rfl⟩ := hown
      have hlogged := hserves.logged
      have hplace := hserves.place
      have hcopied := hserves.copied
      simp only [Books.Logged, Books.Copied, hside] at hlogged hplace hcopied
      rw [Books.release_dequeued_self _ _ _ _ hside hlogged] at hl
      simp only [Option.some.injEq, Prod.mk.injEq] at hl
      obtain ⟨rfl, rfl⟩ := hl
      rw [hplace]
      exact ⟨batch_eq_segment hcopied, length_batch _ _⟩
    · rw [Books.release_dequeued_of_ne _ _ _ _ fun hside hk => hown ⟨hside, hk⟩] at hl
      exact h.answered k n l hl
  · dsimp only [Machine.goto]
    rw [hdata]
    exact {
      seen := by rw [Books.release_seen]
      ticket := by rw [Books.release_ticket]
      enqueued := by rw [Books.release_enqueued]
      counts := by rw [Books.release_counts]
      dequeued := fun n answer hentry hflight => by
        rw [Books.release_dequeued_of_ne, hentry]
        exact fun hside => h.ticket_ne htracks hu hpc hside hentry hflight
      data := fun _ _ _ _ _ => rfl }
  · intro _
    have hlogged := hserves.logged
    unfold Books.Logged at hlogged ⊢
    rw [Books.release_ticket]
    cases hside : call.side with
    | prod => simpa only [hside, Books.release_enqueued] using hlogged
    | cons =>
        simp only [hside] at hlogged
        exact Books.release_dequeued_self _ _ _ _ hside hlogged

/-! ## Every step -/

theorem World.Logs.run (h : w.Logs bits) (htracks : w.Tracks c W) (hc : c.Sized bits) {t : ι}
    (hunmoved : w.Unmoved c t) : (w.next c (.run t)).Logs bits := by
  cases hpc : w.machine.pc t with
  | idle => simpa only [World.next, Machine.act, Machine.run, Books.record, hpc] using h
  | loadHead call =>
      simp only [World.next, Machine.act, Machine.run, Books.record, hpc]
      exact h.local t _ _ rfl rfl rfl rfl rfl (fun u hu => Function.update_of_ne hu _ _) trivial
  | loadTail call oldHead =>
      simp only [World.next, Machine.act, Machine.run, Books.record, hpc]
      split
      · rename_i hn
        exact h.goto t _ fun hne => absurd hn hne
      · exact h.goto t _ trivial
  | moveHead call mv =>
      simp only [World.next, Machine.act, Machine.run, Books.record, hpc, RingMem.casHead]
      by_cases hmoves : c.single call.side = true ∨ (w.machine.mem.ht call.side).head = mv.oldHead
      · have hseen := htracks.seen_eq_head hunmoved hpc hmoves
        have hdata : (w.machine.mem.setHead call.side mv.newHead).data = w.machine.mem.data := by
          cases call.side <;> rfl
        have hnext := h.reserve htracks mv hseen _ hdata
        rw [if_pos hmoves]
        by_cases hs : c.single call.side = true
        · rw [if_pos hs]
          exact hnext
        · rw [if_neg hs, if_pos (hmoves.resolve_left hs)]
          exact hnext
      · rw [not_or] at hmoves
        rw [if_neg hmoves.1, if_neg hmoves.2, if_neg (not_or.mpr hmoves)]
        exact h.goto t _ trivial
  | copy call mv i =>
      simp only [World.next, Machine.act, Machine.run, Books.record, hpc,
        htracks.ptrPairs_eq hc hpc]
      by_cases hi : i < mv.n.toNat
      · rw [List.getElem?_map, List.getElem?_range hi, Option.map_some]
        cases hside : call.side with
        | prod => simpa only [hside] using h.storeSlot htracks hc hpc hside hi
        | cons => simpa only [hside] using h.loadSlot htracks hpc hside hi
      · rw [List.getElem?_eq_none (by simpa using hi)]
        have hserves := h.serves t
        rw [hpc] at hserves
        have hdone : i = mv.n.toNat := Nat.le_antisymm hserves.le (Nat.le_of_not_lt hi)
        rw [hdone] at hserves
        dsimp only
        split
        · exact h.goto t _ hserves
        · exact h.goto t _ hserves
  | awaitTail call mv =>
      have hserves := h.serves t
      rw [hpc] at hserves
      simp only [World.next, Machine.act, Machine.run, Books.record, hpc]
      split
      · exact h.goto t _ hserves
      · exact h
  | storeTail call mv =>
      simp only [World.next, Machine.act, Machine.run, Books.record, hpc]
      exact h.retire htracks hpc _ _ (by cases call.side <;> rfl)
  | loadProdTail | loadConsTail | returned | counted =>
      simp only [World.next, Machine.act, Machine.run, Books.record, hpc]
      exact h.goto t _ trivial

theorem World.Logs.next (h : w.Logs bits) (htracks : w.Tracks c W) (hc : c.Sized bits)
    {a : Action ι T} (hunmoved : ∀ t, a = .run t → w.Unmoved c t) : (w.next c a).Logs bits := by
  cases a with
  | run t => exact h.run htracks hc (hunmoved t rfl)
  | enter t call =>
      simp only [World.next, Machine.act, Books.record]
      split
      · exact h.goto t _ trivial
      · exact h
  | enterCount t =>
      simp only [World.next, Machine.act, Books.record]
      split
      · exact h.goto t _ trivial
      · exact h

/-! ## Runs -/

theorem World.Reachable.logs (hc : c.Sized bits) {mem : RingMem T} (hprod : mem.prod = {})
    (hcons : mem.cons = {}) (hw : w.Reachable c mem) : w.Logs bits := by
  have h : Relation.ReflTransGen (World.Step c) (World.start mem) w := hw
  clear hw
  induction h with
  | refl => exact logs_start bits mem
  | tail hreach hstep ih =>
      obtain ⟨hadm, W, htracks⟩ := World.Reachable.tracks hc hprod hcons hreach
      obtain ⟨a, rfl, -⟩ := hstep
      exact ih.next htracks hc fun t _ => htracks.unmoved hadm t

/-- What completed `DoDequeue` calls have copied out, up to the first call still in flight,
is a prefix of what `DoEnqueue` calls have reserved, and every call that returns a
count has put in, or copied out, the batch of that count that the log holds for it. -/
theorem linearizable_fifo {size : UInt32} {fuel : ℕ} {behavior : BuffRingBehavior}
    {sp sc : Bool} {data : ℕ → T} {m : RingMem T}
    (hring : buffRing fuel size behavior sp sc data = some (c, m))
    (hw : w.Reachable c m) :
    settled w.books.dequeued <+: w.books.enqueued.flatten ∧
      (∀ k n l, w.books.dequeued[k]? = some (n, some l) →
        l = (w.books.enqueued.flatten.drop (offset (w.books.dequeued.map Prod.fst) k)).take n ∧
          l.length = n) ∧
      ∀ t call n space, w.machine.pc t = .returned call n space → n ≠ 0 →
        match call.side with
        | .prod => w.books.enqueued[w.books.ticket t]? = some (batch call.obj n.toNat)
        | .cons => w.books.dequeued[w.books.ticket t]? =
            some (n.toNat, some (batch call.obj n.toNat)) := by
  obtain ⟨rfl, bits, hc⟩ := buffRing_sized hring
  have h := hw.logs hc rfl rfl
  refine ⟨settled_isPrefix fun k n l hl => (h.answered k n l hl).1, h.answered, ?_⟩
  intro t call n space hpc hn
  have hserves := h.serves t
  rw [hpc] at hserves
  exact hserves hn

/-- A consumer that took one item after a producer put in two has copied out the first. -/
theorem linearizable_fifo_of_one_of_two :
    let c : RingConfig := ⟨4, 3, 3, .kRingQueueVariable, false, false⟩
    let actions : List (Action Bool ℕ) :=
      .enter false ⟨.prod, fun i => 7 + i, 2⟩ :: List.replicate 8 (.run false) ++
        .enter true ⟨.cons, fun _ => 0, 1⟩ :: List.replicate 7 (.run true)
    let w := actions.foldl (World.next c) (World.start ⟨{}, {}, fun _ => 0⟩)
    settled w.books.dequeued = [7] ∧ settled w.books.dequeued <+: w.books.enqueued.flatten := by
  intro c actions w
  have hw : w.Reachable c ⟨{}, {}, fun _ => 0⟩ := World.reachable_foldl (by decide) _ (by decide)
  have hring : buffRing 0 4 .kRingQueueVariable false false (fun _ => 0) =
      some (c, ⟨{}, {}, fun _ => 0⟩) := rfl
  exact ⟨by decide, (linearizable_fifo hring hw).1⟩

end Restore.BuffRing
