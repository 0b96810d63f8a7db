import Restore.Model.RingBuffMachine
import Restore.Verification.BuffRing.Linearization
import Restore.Verification.RingBuff.Refinement

/-! # `Put` and `GetHalf` calls that overlap

`Put` tests for room in one step and takes it in another, and it takes it before its item is
in the slot. As long as neither gap is hit, the calls are safe. -/

namespace Restore.RingBuff

open BuffRing Counter Batches

variable {ι T : Type*}

/-! ## The invariant -/

/-- The oldest half of the ring has been copied into its slots. -/
def Books.Ready (b : Books ι T) (half : ℕ) : Prop :=
  ∀ i < half, b.copied (b.delivered.length + i) = true

/-- The first `n` entries of `item` are the oldest items in the ring. -/
def Books.Fetched (b : Books ι T) (item : ℕ → T) (n : ℕ) : Prop :=
  ∀ j < n, b.reserved[b.delivered.length + j]? = some (item j)

def PutPc.Sound (b : Books ι T) (t : ι) : PutPc T → Prop
  | .copy item wdIdx =>
      wdIdx = word (b.ticket t) ∧ b.reserved[b.ticket t]? = some item ∧
        b.copied (b.ticket t) = false
  | .returned item ret => ret = 0 → b.reserved[b.ticket t]? = some item
  | _ => True

def GetPc.Sound (b : Books ι T) (size : ℕ) : GetPc T → Prop
  | .loadIdx _ => b.Ready (size / 2)
  | .copy item idx i =>
      b.Ready (size / 2) ∧ idx = b.delivered.length % size ∧ i ≤ size / 2 ∧ b.Fetched item i
  | .fetchAdd item => b.Ready (size / 2) ∧ b.Fetched item (size / 2)
  | _ => True

/-- The reservation whose item the thread has yet to copy. -/
def PutPc.Copying : PutPc T → Prop
  | .copy _ _ => True
  | _ => False

/-- Indices, slots and calls agree with the books. -/
structure World.Inv (bits : ℕ) (w : World ι T) : Prop where
  size_eq : w.machine.ring.size.toNat = 2 ^ bits
  rd_eq : w.machine.ring.rdIndex = word w.books.delivered.length
  wd_eq : w.machine.ring.wdIndex = word w.books.reserved.length
  few : w.books.reserved.length < 2 ^ 31
  bounded : w.books.reserved.length ≤ w.books.delivered.length + 2 ^ bits
  halves : 2 ^ bits / 2 ∣ w.books.delivered.length
  delivered : w.books.delivered <+: w.books.reserved
  consumed : ∀ k < w.books.delivered.length, w.books.copied k = true
  copied : ∀ k, w.books.copied k = true → k < w.books.reserved.length
  slots : ∀ k, w.books.delivered.length ≤ k → w.books.copied k = true →
    w.books.reserved[k]? = some (w.machine.ring.data (k % 2 ^ bits))
  puts : ∀ t, (w.machine.put t).Sound w.books t
  distinct : ∀ t u, (w.machine.put t).Copying → (w.machine.put u).Copying →
    w.books.ticket t = w.books.ticket u → t = u
  gets : w.machine.get.Sound w.books (2 ^ bits)

theorem inv_start {bits : ℕ} {r : RingBuff T} (hr : r.StoresAt (2 ^ bits) 0 []) :
    (World.start r : World ι T).Inv bits where
  size_eq := hr.size_eq
  rd_eq := hr.rd_eq
  wd_eq := hr.wd_eq
  few := (by decide : 0 < 2 ^ 31)
  bounded := Nat.zero_le _
  halves := Nat.dvd_zero _
  delivered := List.nil_prefix
  consumed k hk := absurd hk (Nat.not_lt_zero k)
  copied k hk := nomatch hk
  slots k _ hk := nomatch hk
  puts t := trivial
  distinct t u ht := ht.elim
  gets := trivial

variable {w : World ι T} {bits : ℕ}

theorem World.Inv.delivered_le (h : w.Inv bits) :
    w.books.delivered.length ≤ w.books.reserved.length := h.delivered.length_le

theorem World.Inv.size_le (h : w.Inv bits) : 2 ^ bits ≤ 2 ^ 31 :=
  Nat.pow_le_pow_right (by decide) (Nat.le_of_lt_succ (bits_lt h.size_eq))

theorem World.Inv.ticket_lt (h : w.Inv bits) {t : ι} (ht : (w.machine.put t).Copying) :
    w.books.ticket t < w.books.reserved.length := by
  have hsound := h.puts t
  cases hput : w.machine.put t with
  | copy item wdIdx =>
      rw [hput] at hsound
      exact (List.getElem?_eq_some_iff.mp hsound.2.1).1
  | _ =>
      rw [hput] at ht
      exact ht.elim

/-- A reservation that has not been copied lies in the ring. -/
theorem World.Inv.ticket_mem (h : w.Inv bits) {t : ι} {item : T} {wdIdx : UInt32}
    (hput : w.machine.put t = .copy item wdIdx) :
    w.books.delivered.length ≤ w.books.ticket t ∧
      w.books.ticket t < w.books.delivered.length + 2 ^ bits := by
  have hlt := h.ticket_lt (t := t) (by rw [hput]; trivial)
  have hsound := h.puts t
  rw [hput] at hsound
  obtain ⟨-, -, hcopied⟩ := hsound
  refine ⟨Nat.le_of_not_lt fun hlt => ?_, hlt.trans_le h.bounded⟩
  rw [h.consumed _ hlt] at hcopied
  cases hcopied

/-- A block that is ready ends before the last reservation. -/
theorem World.Inv.ready_le (h : w.Inv bits) (hbits : 1 ≤ bits)
    (hready : w.books.Ready (2 ^ bits / 2)) :
    w.books.delivered.length + 2 ^ bits / 2 ≤ w.books.reserved.length := by
  have hpos : 0 < 2 ^ bits / 2 := Nat.div_pos
    (Nat.pow_le_pow_right (by decide) hbits : 2 ^ 1 ≤ 2 ^ bits) (by decide)
  have hlast := h.copied _ (hready (2 ^ bits / 2 - 1) (by omega))
  omega

/-! ## What later books keep -/

theorem PutPc.Sound.mono {b b' : Books ι T} {t : ι} {pc : PutPc T} (h : pc.Sound b t)
    (hticket : b'.ticket t = b.ticket t) (hreserved : b.reserved <+: b'.reserved)
    (hcopied : pc.Copying → b'.copied (b.ticket t) = b.copied (b.ticket t)) : pc.Sound b' t := by
  cases pc with
  | copy item wdIdx =>
      obtain ⟨hidx, hitem, hopen⟩ := h
      rw [Sound, hticket]
      exact ⟨hidx, getElem?_of_isPrefix hreserved hitem, (hcopied trivial).trans hopen⟩
  | returned item ret =>
      rw [Sound, hticket]
      exact fun hret => getElem?_of_isPrefix hreserved (h hret)
  | _ => trivial

theorem GetPc.Sound.mono {b b' : Books ι T} {size : ℕ} {pc : GetPc T} (h : pc.Sound b size)
    (hdelivered : b'.delivered = b.delivered) (hreserved : b.reserved <+: b'.reserved)
    (hcopied : ∀ k, b.copied k = true → b'.copied k = true) : pc.Sound b' size := by
  have hready : b.Ready (size / 2) → b'.Ready (size / 2) := fun h i hi => by
    rw [hdelivered]
    exact hcopied _ (h i hi)
  have hfetched {item : ℕ → T} {n : ℕ} : b.Fetched item n → b'.Fetched item n := fun h j hj => by
    rw [hdelivered]
    exact getElem?_of_isPrefix hreserved (h j hj)
  cases pc with
  | loadIdx item => exact hready h
  | copy item idx i =>
      obtain ⟨hr, hidx, hi, hf⟩ := h
      exact ⟨hready hr, by rw [hdelivered, hidx], hi, hfetched hf⟩
  | fetchAdd item => exact ⟨hready h.1, hfetched h.2⟩
  | _ => trivial

variable [DecidableEq ι]

theorem gotoPut_self (s : Machine ι T) (t : ι) (pc : PutPc T) : (s.gotoPut t pc).put t = pc := by
  rw [Machine.gotoPut]
  exact Function.update_self ..

theorem gotoPut_of_ne (s : Machine ι T) {t u : ι} (hu : u ≠ t) (pc : PutPc T) :
    (s.gotoPut t pc).put u = s.put u := by
  rw [Machine.gotoPut]
  exact Function.update_of_ne hu ..

/-! ## Steps that touch locals only -/

theorem World.Inv.gotoPut (h : w.Inv bits) (t : ι) {pc : PutPc T} (hpc : pc.Sound w.books t)
    (hcopying : ¬pc.Copying) : World.Inv bits ⟨w.machine.gotoPut t pc, w.books⟩ := by
  have hold (u : ι) (hu : ((w.machine.gotoPut t pc).put u).Copying) :
      (w.machine.put u).Copying := by
    rcases eq_or_ne u t with rfl | hne
    · rw [gotoPut_self] at hu
      exact absurd hu hcopying
    · rwa [gotoPut_of_ne _ hne] at hu
  refine { h with
    puts := fun u => ?_
    distinct := fun u v hu hv => h.distinct u v (hold u hu) (hold v hv) }
  rcases eq_or_ne u t with rfl | hne
  · dsimp only
    rwa [gotoPut_self]
  · dsimp only
    rw [gotoPut_of_ne _ hne]
    exact h.puts u

omit [DecidableEq ι] in
theorem World.Inv.gotoGet (h : w.Inv bits) {pc : GetPc T} (hpc : pc.Sound w.books (2 ^ bits)) :
    World.Inv bits ⟨{ w.machine with get := pc }, w.books⟩ :=
  { h with gets := hpc }

/-! ## Reservations, copies and deliveries -/

/-- A fetch-and-add that finds room reserves the next place. -/
theorem World.Inv.reserve (h : w.Inv bits) (t : ι) (item : T)
    (hroom : w.machine.ring.wdIndex < w.machine.ring.rdIndex + w.machine.ring.size)
    (hfew : w.books.reserved.length + 1 < 2 ^ 31) :
    World.Inv bits ⟨Machine.gotoPut { w.machine with
        ring := { w.machine.ring with wdIndex := w.machine.ring.wdIndex + 1 } } t
          (.copy item w.machine.ring.wdIndex), w.books.reserve t item⟩ := by
  have hbounded : w.books.reserved.length < w.books.delivered.length + 2 ^ bits := by
    have hpos := Nat.two_pow_pos bits
    have hsize := h.size_le
    have hle := h.delivered_le
    rw [h.wd_eq, h.rd_eq, word_add_toNat, h.size_eq, UInt32.lt_iff_toNat_lt, word_toNat,
      word_toNat] at hroom
    omega
  have hprefix : w.books.reserved <+: (w.books.reserve t item).reserved :=
    List.prefix_append _ _
  have hlength : (w.books.reserve t item).reserved.length = w.books.reserved.length + 1 :=
    List.length_append
  have hself : (w.books.reserve t item).ticket t = w.books.reserved.length :=
    Function.update_self ..
  have hother : ∀ u, u ≠ t → (w.books.reserve t item).ticket u = w.books.ticket u :=
    fun u hu => Function.update_of_ne hu ..
  have hold (u : ι) (hu : u ≠ t) (hcopying : ((w.machine.gotoPut t
      (.copy item w.machine.ring.wdIndex)).put u).Copying) :
      (w.machine.put u).Copying ∧ w.books.ticket u < w.books.reserved.length := by
    rw [gotoPut_of_ne _ hu] at hcopying
    exact ⟨hcopying, h.ticket_lt hcopying⟩
  exact {
    size_eq := h.size_eq
    rd_eq := h.rd_eq
    wd_eq := by
      show w.machine.ring.wdIndex + 1 = _
      rw [h.wd_eq, hlength, word_add_toNat]
      rfl
    few := by rwa [hlength]
    bounded := by
      rw [hlength]
      exact hbounded
    halves := h.halves
    delivered := h.delivered.trans hprefix
    consumed := h.consumed
    copied := fun k hk => by
      rw [hlength]
      exact (h.copied k hk).trans (Nat.lt_succ_self _)
    slots := fun k hle hk => getElem?_of_isPrefix hprefix (h.slots k hle hk)
    puts := fun u => by
      rcases eq_or_ne u t with rfl | hu
      · dsimp only
        rw [gotoPut_self, PutPc.Sound, hself, h.wd_eq]
        refine ⟨rfl, List.getElem?_concat_length, ?_⟩
        cases hk : w.books.copied w.books.reserved.length with
        | false => exact hk
        | true => exact absurd (h.copied _ hk) (Nat.lt_irrefl _)
      · dsimp only
        rw [gotoPut_of_ne _ hu]
        exact (h.puts u).mono (hother u hu) hprefix fun _ => rfl
    distinct := fun u v hu hv heq => by
      by_cases hut : u = t
      · by_cases hvt : v = t
        · rw [hut, hvt]
        · have hlt := (hold v hvt hv).2
          rw [hut, hself, hother v hvt] at heq
          omega
      · by_cases hvt : v = t
        · have hlt := (hold u hut hu).2
          rw [hvt, hself, hother u hut] at heq
          omega
        · rw [hother u hut, hother v hvt] at heq
          exact h.distinct u v (hold u hut hu).1 (hold v hvt hv).1 heq
    gets := h.gets.mono rfl hprefix fun _ hk => hk }

/-- The copy of `Put` fills a slot that no other stored item is in. -/
theorem World.Inv.store (h : w.Inv bits) {t : ι} {item : T} {wdIdx : UInt32}
    (hput : w.machine.put t = .copy item wdIdx) :
    World.Inv bits ⟨Machine.gotoPut { w.machine with
        ring := { w.machine.ring with
          data := Function.update w.machine.ring.data
            (wdIdx &&& (w.machine.ring.size - 1)).toNat item } } t (.returned item 0),
      w.books.store t⟩ := by
  obtain ⟨hlo, hhi⟩ := h.ticket_mem hput
  have hsound := h.puts t
  rw [hput] at hsound
  obtain ⟨hidx, hreserved, hopen⟩ := hsound
  have hslot : (wdIdx &&& (w.machine.ring.size - 1)).toNat = w.books.ticket t % 2 ^ bits := by
    rw [hidx, slot_toNat h.size_eq]
  have hself : (w.books.store t).copied (w.books.ticket t) = true := Function.update_self ..
  have hother : ∀ k, k ≠ w.books.ticket t → (w.books.store t).copied k = w.books.copied k :=
    fun k hk => Function.update_of_ne hk ..
  have hmono : ∀ k, w.books.copied k = true → (w.books.store t).copied k = true := by
    intro k hk
    by_cases heq : k = w.books.ticket t
    · rw [heq, hself]
    · rw [hother k heq, hk]
  have hold (u : ι) (hcopying : ((w.machine.gotoPut t (.returned item 0)).put u).Copying) :
      u ≠ t ∧ (w.machine.put u).Copying := by
    by_cases hu : u = t
    · rw [hu, gotoPut_self] at hcopying
      exact hcopying.elim
    · rw [gotoPut_of_ne _ hu] at hcopying
      exact ⟨hu, hcopying⟩
  exact {
    size_eq := h.size_eq
    rd_eq := h.rd_eq
    wd_eq := h.wd_eq
    few := h.few
    bounded := h.bounded
    halves := h.halves
    delivered := h.delivered
    consumed := fun k hk => hmono k (h.consumed k hk)
    copied := fun k hk => by
      by_cases heq : k = w.books.ticket t
      · rw [heq]
        exact (List.getElem?_eq_some_iff.mp hreserved).1
      · rw [hother k heq] at hk
        exact h.copied k hk
    slots := fun k hle hk => by
      show w.books.reserved[k]? = some (Function.update w.machine.ring.data _ item (k % 2 ^ bits))
      rw [hslot]
      by_cases heq : k = w.books.ticket t
      · rw [heq, Function.update_self, hreserved]
      · rw [hother k heq] at hk
        have hlt := (h.copied k hk).trans_le h.bounded
        have hle' : w.books.delivered.length ≤ k := hle
        rw [Function.update_of_ne (slot_ne heq (by omega) (by omega)), h.slots k hle hk]
    puts := fun u => by
      by_cases hu : u = t
      · rw [hu]
        dsimp only
        rw [gotoPut_self]
        exact fun _ => hreserved
      · dsimp only
        rw [gotoPut_of_ne _ hu]
        refine (h.puts u).mono rfl (List.prefix_refl _) fun hcopying => hother _ fun heq => hu ?_
        exact h.distinct u t hcopying (by rw [hput]; trivial) heq
    distinct := fun u v hu hv => h.distinct u v (hold u hu).2 (hold v hv).2
    gets := h.gets.mono rfl (List.prefix_refl _) hmono }

omit [DecidableEq ι] in
/-- The fetch-and-add of `GetHalf` hands over the block that it has copied. -/
theorem World.Inv.deliver (h : w.Inv bits) (hbits : 1 ≤ bits) {item : ℕ → T}
    (hget : w.machine.get = .fetchAdd item) :
    World.Inv bits ⟨{ w.machine with
        ring := { w.machine.ring with
          rdIndex := w.machine.ring.rdIndex + w.machine.ring.size >>> 1 }
        get := .returned item 1 },
      w.books.deliver (batch item (w.machine.ring.size >>> 1).toNat)⟩ := by
  have hgets := h.gets
  rw [hget] at hgets
  obtain ⟨hready, hfetched⟩ := hgets
  have hle := h.ready_le hbits hready
  have hhalf := half_toNat h.size_eq
  have hlength : (w.books.deliver (batch item (w.machine.ring.size >>> 1).toNat)).delivered.length =
      w.books.delivered.length + 2 ^ bits / 2 := by
    rw [Books.deliver, List.length_append, length_batch, hhalf]
  obtain ⟨rest, hrest⟩ := h.delivered
  exact {
    size_eq := h.size_eq
    rd_eq := by
      rw [hlength]
      show w.machine.ring.rdIndex + _ = _
      rw [h.rd_eq, word_add_toNat, hhalf]
    wd_eq := h.wd_eq
    few := h.few
    bounded := by
      rw [hlength]
      exact h.bounded.trans (Nat.add_le_add_right (Nat.le_add_right _ _) _)
    halves := by
      rw [hlength]
      exact Nat.dvd_add h.halves (Nat.dvd_refl _)
    delivered := by
      show w.books.delivered ++ batch item _ <+: w.books.reserved
      rw [hhalf, batch_eq_segment hfetched, ← hrest, List.drop_left,
        List.prefix_append_right_inj]
      exact List.take_prefix _ _
    consumed := fun k hk => by
      rw [hlength] at hk
      by_cases hold : k < w.books.delivered.length
      · exact h.consumed k hold
      · obtain ⟨i, rfl⟩ := Nat.exists_eq_add_of_le (Nat.le_of_not_lt hold)
        exact hready i (by omega)
    copied := h.copied
    slots := fun k hk => by
      rw [hlength] at hk
      exact h.slots k ((Nat.le_add_right _ _).trans hk)
    puts := h.puts
    distinct := h.distinct
    gets := trivial }

/-! ## Every step -/

theorem World.Inv.put (h : w.Inv bits) {t : ι} (hsettled : w.Settled (.put t))
    (hfew : (w.next (.put t)).books.reserved.length < 2 ^ 31) : (w.next (.put t)).Inv bits := by
  have hsound := h.puts t
  rw [World.Settled] at hsettled
  cases hput : w.machine.put t with
  | idle =>
      simp only [World.next, Machine.act, Machine.runPut, Books.record, hput]
      exact h
  | loadWd item =>
      simp only [World.next, Machine.act, Machine.runPut, Books.record, hput]
      exact h.gotoPut t trivial id
  | loadRd item wdIndex =>
      simp only [World.next, Machine.act, Machine.runPut, Books.record, hput]
      split
      · exact h.gotoPut t (fun hret => absurd hret (by decide)) id
      · exact h.gotoPut t trivial id
  | fetchAdd item =>
      rw [hput] at hsettled
      simp only [World.next, Machine.act, Machine.runPut, Books.record, hput] at hfew ⊢
      refine h.reserve t item hsettled ?_
      rwa [Books.reserve, List.length_append] at hfew
  | copy item wdIdx =>
      simp only [World.next, Machine.act, Machine.runPut, Books.record, hput]
      exact h.store hput
  | returned item ret =>
      simp only [World.next, Machine.act, Machine.runPut, Books.record, hput]
      exact h.gotoPut t trivial id

theorem World.Inv.get (h : w.Inv bits) (hbits : 1 ≤ bits)
    (hsettled : w.Settled (.get : Action ι T)) : (w.next .get).Inv bits := by
  have hgets := h.gets
  have hhalf := half_toNat h.size_eq
  rw [World.Settled] at hsettled
  cases hget : w.machine.get with
  | idle =>
      simp only [World.next, Machine.act, Machine.runGet, Books.record, hget]
      exact h
  | loadWd item =>
      simp only [World.next, Machine.act, Machine.runGet, Books.record, hget]
      exact h.gotoGet trivial
  | loadRd item wdIndex =>
      rw [hget] at hsettled
      simp only [World.next, Machine.act, Machine.runGet, Books.record, hget]
      split
      · next hpass =>
        refine h.gotoGet fun i hi => hsettled hpass i ?_
        rwa [hhalf]
      · exact h.gotoGet trivial
  | loadIdx item =>
      rw [hget] at hgets
      simp only [World.next, Machine.act, Machine.runGet, Books.record, hget]
      refine h.gotoGet ⟨hgets, ?_, Nat.zero_le _, fun j hj => absurd hj (Nat.not_lt_zero j)⟩
      rw [h.rd_eq, slot_toNat h.size_eq]
  | copy item idx i =>
      rw [hget] at hgets
      obtain ⟨hready, hidx, hi, hfetched⟩ := hgets
      simp only [World.next, Machine.act, Machine.runGet, Books.record, hget]
      split
      · next hmore =>
        rw [hhalf] at hmore
        refine h.gotoGet ⟨hready, hidx, hmore, fun j hj => ?_⟩
        by_cases heq : j = i
        · -- the slot of the next item, which its `Put` has filled
          rw [heq, Function.update_self, hidx, block_slot (block_le hbits h.halves) hmore]
          exact h.slots _ (Nat.le_add_right _ _) (hready i hmore)
        · rw [Function.update_of_ne heq]
          exact hfetched j (by omega)
      · next hdone =>
        rw [hhalf] at hdone
        have hall : i = 2 ^ bits / 2 := Nat.le_antisymm hi (Nat.le_of_not_lt hdone)
        rw [hall] at hfetched
        exact h.gotoGet ⟨hready, hfetched⟩
  | fetchAdd item =>
      simp only [World.next, Machine.act, Machine.runGet, Books.record, hget]
      exact h.deliver hbits hget
  | returned item ret =>
      simp only [World.next, Machine.act, Machine.runGet, Books.record, hget]
      exact h.gotoGet trivial

theorem World.Inv.next (h : w.Inv bits) (hbits : 1 ≤ bits) {a : Action ι T}
    (hsettled : w.Settled a) (hfew : (w.next a).books.reserved.length < 2 ^ 31) :
    (w.next a).Inv bits := by
  cases a with
  | enterPut t item =>
      simp only [World.next, Machine.act, Books.record]
      split
      · exact h.gotoPut t trivial id
      · exact h
  | enterGet item =>
      simp only [World.next, Machine.act, Books.record]
      split
      · exact h.gotoGet trivial
      · exact h
  | put t => exact h.put hsettled hfew
  | get => exact h.get hbits hsettled

/-! ## Runs -/

theorem World.ReachableSettled.inv (hbits : 1 ≤ bits) {r : RingBuff T}
    (hr : r.StoresAt (2 ^ bits) 0 []) (hw : w.ReachableSettled r) : w.Inv bits := by
  have hrun : Relation.ReflTransGen
      (fun w w' => ∃ a, w' = World.next w a ∧ w'.books.reserved.length < 2 ^ 31 ∧ w.Settled a)
      (World.start r) w := hw
  clear hw
  induction hrun with
  | refl => exact inv_start hr
  | tail _ hstep ih =>
      obtain ⟨a, rfl, hfew, hsettled⟩ := hstep
      exact ih.next hbits hsettled hfew

/-- In runs in which every fetch-and-add of `Put` still finds room, and `GetHalf` never passes
its test before its block has been copied, the ring is not overfilled, no `Put` has a slot
whose earlier item is still to be consumed, `GetHalf` reads filled slots only, and what it
delivers is a prefix of what has been reserved, with every stored item in its place. -/
theorem put_getHalf_safe {fuel : ℕ} {size : UInt32} {data : ℕ → T} {r : RingBuff T}
    (hpow : isPowerOf2 size = true) (htwo : 2 ≤ size.toNat)
    (hring : ringBuff fuel size data = some r) (hw : w.ReachableSettled r) :
    (w.machine.ring.wdIndex - w.machine.ring.rdIndex).toNat ≤ size.toNat ∧
      (∀ t item wdIdx, w.machine.put t = .copy item wdIdx → ∀ k < w.books.ticket t,
        k % size.toNat = w.books.ticket t % size.toNat → k < w.books.delivered.length) ∧
      (∀ item idx i, w.machine.get = .copy item idx i → i < size.toNat / 2 →
        w.books.copied (w.books.delivered.length + i) = true) ∧
      w.books.delivered <+: w.books.reserved ∧
      ∀ t item, w.machine.put t = .returned item 0 →
        w.books.reserved[w.books.ticket t]? = some item := by
  obtain ⟨bits, hbits, hpos, hstores⟩ := ringBuff_stores hpow hring
  have h := hw.inv (hpos htwo) hstores
  rw [hbits]
  refine ⟨?_, fun t item wdIdx hput k hk hslot => ?_, fun item idx i hget hi => ?_, h.delivered,
    fun t item hput => ?_⟩
  · have hsize := h.size_le
    have hbounded := h.bounded
    rw [h.wd_eq, h.rd_eq, word_sub_toNat h.delivered_le (by omega)]
    omega
  · obtain ⟨-, hhi⟩ := h.ticket_mem hput
    refine Classical.by_contradiction fun hle => ?_
    exact slot_ne (Nat.ne_of_lt hk) (by omega) (by omega) hslot
  · have hgets := h.gets
    rw [hget] at hgets
    exact hgets.1 i hi
  · have hputs := h.puts t
    rw [hput] at hputs
    exact hputs rfl

/-! ## Runs on a ring of two -/

def ringOfTwo : RingBuff ℕ := ⟨0, 0, 2, fun _ => 0⟩

theorem settled_put {w : World Bool ℕ} {t : Bool}
    (h : w.machine.ring.wdIndex < w.machine.ring.rdIndex + w.machine.ring.size) :
    w.Settled (.put t) := by
  rw [World.Settled]
  split
  · exact h
  · trivial

theorem settled_get {w : World Bool ℕ}
    (h : ∀ i < (w.machine.ring.size >>> 1).toNat,
      w.books.copied (w.books.delivered.length + i) = true) :
    w.Settled (.get : Action Bool ℕ) := by
  rw [World.Settled]
  split
  · exact fun _ => h
  · trivial

/-- Two producers reserve the two slots. The first item is delivered while the second one is still
being copied, and its slot is reserved once more. -/
theorem put_getHalf_safe_of_two_producers :
    let actions : List (Action Bool ℕ) :=
      [.enterPut false 7, .enterPut true 9, .put false, .put true, .put false, .put true,
        .put true, .put false, .put true, .enterGet fun _ => 0, .get, .get, .get, .get, .get, .get,
        .put true, .enterPut true 5, .put true, .put true, .put true]
    let w := actions.foldl World.next (World.start ringOfTwo)
    w.machine.put false = .copy 7 1 ∧ w.machine.put true = .copy 5 2 ∧
      w.books.reserved = [9, 7, 5] ∧ w.books.delivered = [9] ∧
      (w.machine.ring.wdIndex - w.machine.ring.rdIndex).toNat ≤ 2 ∧
      (∀ k < 2, k % 2 = 0 → k < w.books.delivered.length) ∧
      w.books.delivered <+: w.books.reserved := by
  intro actions w
  have hw : w.ReachableSettled ringOfTwo := by
    simp only [w, actions, List.foldl]
    repeat' refine Relation.ReflTransGen.tail ?_ ⟨_, rfl, by decide, ?_⟩
    · exact Relation.ReflTransGen.refl
    all_goals first
      | exact trivial
      | exact settled_put (by decide)
      | exact settled_get (by decide)
  have hring : ringBuff 0 2 (fun _ => 0) = some ringOfTwo := rfl
  have hcopy : w.machine.put true = .copy 5 2 := rfl
  obtain ⟨hsize, hslots, -, hprefix, -⟩ := put_getHalf_safe (by decide) (by decide) hring hw
  have hslot := hslots true 5 2 hcopy
  rw [show w.books.ticket true = 2 from rfl] at hslot
  exact ⟨rfl, hcopy, by decide, by decide, hsize, hslot, hprefix⟩

/-- Two threads find the last free slot and both take it. -/
def overfilled : World Bool ℕ :=
  [Action.enterPut false 7, .put false, .put false, .put false, .put false, .put false,
    .enterPut false 8, .put false, .put false, .enterPut true 9, .put true, .put true,
    .put false, .put true].foldl World.next (World.start ringOfTwo)

/-- `GetHalf` runs between the fetch-and-add of a `Put` and its copy. -/
def uncopied : World Bool ℕ :=
  [Action.enterPut false 7, .put false, .put false, .put false, .enterGet fun _ => 0, .get, .get,
    .get].foldl World.next (World.start ringOfTwo)

theorem put_overfills :
    (overfilled.Reachable ringOfTwo ∧
      (overfilled.machine.ring.wdIndex - overfilled.machine.ring.rdIndex).toNat = 3) ∧
    uncopied.Reachable ringOfTwo ∧
      (∃ item, uncopied.machine.get = .copy item 0 0) ∧ uncopied.books.reserved = [7] ∧
      uncopied.books.copied 0 = false :=
  ⟨⟨Schedules.reaches_foldl .refl (by decide), by decide⟩,
    Schedules.reaches_foldl .refl (by decide), ⟨_, rfl⟩, rfl, rfl⟩

end Restore.RingBuff
