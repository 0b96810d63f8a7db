import Restore.Verification.LoggerTest.Partition
import Restore.Verification.LoggerTest.Rounds

/-! # Every connection is logged in capture order

The packets of one connection are all in the group of one packet thread, and from there to the
drain loop nothing changes their order. -/

namespace Restore.LoggerTest

open BuffRing Pcap Logger LoggerWorld Counter WorkSharing

/-- What `makeCsvLog` has been called with, the batch that the logger thread is draining, and
what the ring stores. -/
def TestWorld.placed (c : RingConfig) (w : TestWorld) : List Pushed :=
  w.logger.handed ++ w.logger.draining ++ w.logger.ring.machine.mem.stored c

variable {rte : Rte} {fresh data : ℕ → Pushed} {ppv : Int32 → List PcapPacket} {w : TestWorld}

/-- What `init` leaves of the ring's memory. -/
abbrev ringMem (data : ℕ → Pushed) : RingMem Pushed := ⟨{}, {}, data⟩

theorem TestWorld.Sound.accounts (h : w.Sound rte loggerRing fresh ppv (ringMem data)) :
    (∃ W, w.logger.ring.Tracks loggerRing W) ∧ w.logger.ring.Logs 27 ∧ w.logger.Accounts :=
  h.reachable.accounts loggerRing_sized rfl rfl rfl rfl

/-! ## One thread -/

theorem TestWorld.Sound.placed_eq (h : w.Sound rte loggerRing fresh ppv (ringMem data)) :
    w.placed loggerRing =
      w.logger.ring.books.items.take (w.logger.ring.books.released .prod) := by
  obtain ⟨⟨W, htracks⟩, hlogs, haccounts⟩ := h.accounts
  rw [placed, stored_eq loggerRing_sized hlogs htracks, haccounts.taken, ← List.take_add,
    Nat.add_sub_cancel' (released_le hlogs htracks).1]

theorem packetsBy_isPrefix {issued : List (Int32 × PcapPacket)} {xs ys : List Pushed}
    (h : xs <+: ys) (id : Int32) : packetsBy issued id xs <+: packetsBy issued id ys :=
  (h.filter _).map _

/-- What the logger has of a thread's packets is a prefix of the thread's rounds. -/
theorem TestWorld.Sound.packetsBy_placed (h : w.Sound rte loggerRing fresh ppv (ringMem data))
    (id : Int32) :
    packetsBy w.issued id (w.placed loggerRing) <+: issuedBy w.issued id ∧
      issuedBy w.issued id <+: rounds kTimes (ppv id) := by
  refine ⟨?_, (h.pushed id).isPrefix⟩
  rw [h.placed_eq, ← h.ordered.order id]
  exact (packetsBy_isPrefix (List.take_prefix _ _) id).trans (List.prefix_append _ _)

/-! ## Threads that have returned -/

/-- Nothing is under way once every packet thread has returned. -/
theorem TestWorld.Sound.idle_of_exited (h : w.Sound rte loggerRing fresh ppv (ringMem data))
    (hexit : ∀ id ∈ threadIds rte.packetCoreNum, ∃ cnt, w.packetGet id = .exited cnt)
    (id : Int32) : w.logger.ring.machine.pc (some id) = .idle := by
  apply h.quiet
  by_cases hid : id ∈ threadIds rte.packetCoreNum
  · exact .inr (hexit id hid)
  · exact .inl hid

theorem TestWorld.Sound.released_of_exited
    (h : w.Sound rte loggerRing fresh ppv (ringMem data))
    (hexit : ∀ id ∈ threadIds rte.packetCoreNum, ∃ cnt, w.packetGet id = .exited cnt) :
    w.logger.ring.books.released .prod = w.logger.ring.books.items.length := by
  obtain ⟨⟨W, htracks⟩, hlogs, haccounts⟩ := h.accounts
  have htotal := hlogs.total .prod
  rw [htracks.reserved_eq] at htotal
  rw [htracks.released_eq, BuffRing.Books.items, List.length_flatten]
  simp only [BuffRing.Books.counts] at htotal
  rw [htotal]
  refine Nat.le_antisymm (W .prod).tail_le_head (Nat.le_of_not_lt fun hlt => ?_)
  -- a holder of the first range would be in `push_back`
  obtain ⟨t, n, hheld⟩ := (W .prod).exists_first hlt
  rw [htracks.held_eq] at hheld
  cases t with
  | some id =>
      rw [h.idle_of_exited hexit id] at hheld
      cases hheld
  | none =>
      have hagrees := haccounts.check
      cases hpc : w.logger.ring.machine.pc none with
      | copy call mv i | awaitTail call mv | storeTail call mv =>
          rw [hpc] at hagrees hheld
          have hside : call.side = .cons := by
            cases hcheck : w.logger.check <;> rw [hcheck] at hagrees
            case dequeuing => exact hagrees
            all_goals exact hagrees.elim
          simp [Pc.claim, hside] at hheld
      | _ =>
          rw [hpc] at hheld
          cases hheld

/-- A packet thread that has returned has pushed whole rounds, and the logger has all of them. -/
theorem TestWorld.Sound.packetsBy_of_exited
    (h : w.Sound rte loggerRing fresh ppv (ringMem data))
    (hexit : ∀ id ∈ threadIds rte.packetCoreNum, ∃ cnt, w.packetGet id = .exited cnt)
    {id : Int32} (hid : id ∈ threadIds rte.packetCoreNum) :
    ∃ cnt ≤ kTimes, (w.stopRunning = false → cnt = kTimes) ∧
      packetsBy w.issued id (w.placed loggerRing) = rounds cnt (ppv id) := by
  obtain ⟨cnt, hcnt⟩ := hexit id hid
  have hpushed := h.pushed id
  rw [hcnt] at hpushed
  refine ⟨cnt, hpushed.2.1, hpushed.2.2, ?_⟩
  have horder := h.ordered.order id
  rw [h.idle_of_exited hexit id] at horder
  rw [h.placed_eq, h.released_of_exited hexit, List.take_length, ← hpushed.1, ← horder]
  simp [asked?]

theorem nodup_threadIds (coreNum : Int32) : (threadIds coreNum).Nodup := by
  refine List.Nodup.map_on (fun i hi j hj heq => ?_) List.nodup_range
  have hlti := Nat.lt_trans (List.mem_range.mp hi) (Int32.toNatClampNeg_lt coreNum)
  have hltj := Nat.lt_trans (List.mem_range.mp hj) (Int32.toNatClampNeg_lt coreNum)
  rw [← Int32.toNatClampNeg_ofNat_of_lt hlti, heq, Int32.toNatClampNeg_ofNat_of_lt hltj]

/-- The calls of all threads, one thread after the other. -/
theorem TestWorld.Sound.issued_perm (hw : w.Sound rte loggerRing fresh ppv (ringMem data)) :
    (shares w.issued Prod.fst id (threadIds rte.packetCoreNum)).Perm w.issued := by
  rw [shares_perm_iff]
  intro e he
  rw [List.map_id]
  exact List.count_eq_one_of_mem (nodup_threadIds rte.packetCoreNum) (hw.started e he)

/-! ## One connection -/

section Capture

variable {packet : PcapPacket} {fileReader : Str → Option Mmap}

/-- The packet threads are as many as there are groups. -/
theorem groupNum_eq (hcores : 1 ≤ rte.packetCoreNum.toInt) (hmax : rte.packetCoreNum.toInt < 256) :
    (groupNum rte).toNat = rte.packetCoreNum.toNatClampNeg := by
  have hnat : (rte.packetCoreNum.toNatClampNeg : Int) = rte.packetCoreNum.toInt :=
    Int.toNat_of_nonneg (by omega)
  rw [groupNum_toNat hcores]
  omega

/-- The threads' shares of a capture. -/
structure Shared (packet : PcapPacket) (fileReader : Str → Option Mmap) (rte : Rte)
    (ppv : Int32 → List PcapPacket) : Prop where
  cores : 1 ≤ rte.packetCoreNum.toInt
  max : rte.packetCoreNum.toInt < 256
  found : ∃ gPcapReaderPtr ret, pcapReaderInit packet fileReader rte = some (gPcapReaderPtr, ret) ∧
    ∀ id ∈ threadIds rte.packetCoreNum, packetGet gPcapReaderPtr id = some (ppv id)

variable (h : Shared packet fileReader rte ppv)
include h

theorem Shared.groups : groupNum rte ≠ 0 := by
  intro hzero
  have hnum := groupNum_eq h.cores h.max
  have hcores := h.cores
  have hnat : (rte.packetCoreNum.toNatClampNeg : Int) = rte.packetCoreNum.toInt :=
    Int.toNat_of_nonneg (by omega)
  rw [hzero, UInt8.toNat_zero] at hnum
  omega

theorem Shared.ppv_eq {id : Int32} (hid : id ∈ threadIds rte.packetCoreNum) :
    ppv id = (parsed packet fileReader rte).filter fun q =>
      groupOf (groupNum rte) q = id.toNatClampNeg % (groupNum rte).toNat := by
  obtain ⟨reader, ret, hinit, hget⟩ := h.found
  obtain ⟨ret', hreader⟩ : ∃ ret', pcapReaderInit packet fileReader rte = some (_, ret') :=
    pcapReaderInit_eq h.groups
  obtain ⟨rfl, -⟩ := Prod.mk.inj (Option.some.inj (hinit.symm.trans hreader))
  exact Option.some.inj ((hget id hid).symm.trans (packetGet_eq h.groups _ hid))

theorem Shared.lt_of_mem {id : Int32} (hid : id ∈ threadIds rte.packetCoreNum) :
    id.toNatClampNeg < (groupNum rte).toNat ∧ Int32.ofNat id.toNatClampNeg = id := by
  obtain ⟨i, hi, rfl⟩ := List.mem_map.mp hid
  have hlt := Nat.lt_trans (List.mem_range.mp hi) (Int32.toNatClampNeg_lt rte.packetCoreNum)
  rw [Int32.toNatClampNeg_ofNat_of_lt hlt, groupNum_eq h.cores h.max]
  exact ⟨List.mem_range.mp hi, rfl⟩

/-- The thread that pushes the packets of a group. -/
theorem Shared.thread_eq {id : Int32} (hid : id ∈ threadIds rte.packetCoreNum) {q : PcapPacket}
    (hq : q ∈ ppv id) : id = Int32.ofNat (groupOf (groupNum rte) q) := by
  obtain ⟨hlt, hid'⟩ := h.lt_of_mem hid
  rw [h.ppv_eq hid, List.mem_filter, decide_eq_true_eq, Nat.mod_eq_of_lt hlt] at hq
  rw [hq.2, hid']

theorem Shared.thread_mem (p : PcapPacket) :
    Int32.ofNat (groupOf (groupNum rte) p) ∈ threadIds rte.packetCoreNum := by
  have hpos : 0 < (groupNum rte).toNat := Nat.pos_of_ne_zero fun hzero =>
    h.groups (UInt8.toNat_inj.mp hzero)
  refine List.mem_map_of_mem (List.mem_range.mpr ?_)
  rw [← groupNum_eq h.cores h.max]
  exact Nat.mod_lt _ hpos

/-- The connection's packets in the thread's share are those of the capture. -/
theorem Shared.filter_ppv (p : PcapPacket) :
    (ppv (Int32.ofNat (groupOf (groupNum rte) p))).filter (SameTuple p) =
      (parsed packet fileReader rte).filter (SameTuple p) := by
  have hmem := h.thread_mem p
  obtain ⟨i, hi, heq⟩ := List.mem_map.mp hmem
  have hpos : 0 < (groupNum rte).toNat := Nat.pos_of_ne_zero fun hzero =>
    h.groups (UInt8.toNat_inj.mp hzero)
  have hlt : groupOf (groupNum rte) p < (groupNum rte).toNat := Nat.mod_lt _ hpos
  have hsmall : (Int32.ofNat (groupOf (groupNum rte) p)).toNatClampNeg =
      groupOf (groupNum rte) p :=
    Int32.toNatClampNeg_ofNat_of_lt (Nat.lt_trans hlt
      (Nat.lt_of_lt_of_le (groupNum rte).toNat_lt (by decide)))
  rw [h.ppv_eq hmem, hsmall, Nat.mod_eq_of_lt hlt]
  exact filter_sameTuple_group _ _ p

/-- All the connection's packets are pushed by one thread. -/
theorem Shared.isBy (hw : w.Sound rte loggerRing fresh ppv (ringMem data)) {p : PcapPacket}
    {x : Pushed} (hx : x ∈ w.logger.ring.books.items) (hsame : SameTuple p x.packet) :
    IsBy w.issued (Int32.ofNat (groupOf (groupNum rte) p)) x := by
  obtain ⟨id, hby⟩ := hw.ordered.owned x hx
  have hissued : (id, x.packet) ∈ w.issued := List.mem_of_getElem? hby
  have hid := hw.started _ hissued
  have hpushed : x.packet ∈ issuedBy w.issued id :=
    List.mem_map_of_mem (f := Prod.snd) (List.mem_filter.mpr ⟨hissued, by simp⟩)
  have hround := (hw.pushed id).isPrefix.subset hpushed
  obtain ⟨ps, hps, hmem⟩ := List.mem_flatten.mp hround
  rw [(List.mem_replicate.mp hps).2] at hmem
  have hthread := h.thread_eq hid hmem
  rw [hsame.groupOf_eq] at hthread
  rwa [← hthread]

/-- The connection's packets that the logger has are those that it has of one thread. -/
theorem Shared.filter_placed (hw : w.Sound rte loggerRing fresh ppv (ringMem data))
    (p : PcapPacket) :
    ((w.placed loggerRing).map Pushed.packet).filter (SameTuple p) =
      (packetsBy w.issued (Int32.ofNat (groupOf (groupNum rte) p)) (w.placed loggerRing)).filter
        (SameTuple p) := by
  rw [packetsBy, List.filter_map, List.filter_map, List.filter_filter]
  refine congrArg (List.map Pushed.packet) (List.filter_congr fun x hx => ?_)
  rw [hw.placed_eq] at hx
  by_cases hsame : SameTuple p x.packet
  · simp [hsame, h.isBy hw (List.mem_of_mem_take hx) hsame]
  · simp [hsame]

/-- Once the packet threads have returned, the logger has whole rounds of every connection. -/
theorem Shared.filter_placed_of_exited (hw : w.Sound rte loggerRing fresh ppv (ringMem data))
    (hexit : ∀ id ∈ threadIds rte.packetCoreNum, ∃ cnt, w.packetGet id = .exited cnt)
    (p : PcapPacket) :
    ∃ cnt ≤ kTimes, (w.stopRunning = false → cnt = kTimes) ∧
      ((w.placed loggerRing).map Pushed.packet).filter (SameTuple p) =
        rounds cnt ((parsed packet fileReader rte).filter (SameTuple p)) := by
  obtain ⟨cnt, hcnt, hwhole, hrounds⟩ := hw.packetsBy_of_exited hexit (h.thread_mem p)
  refine ⟨cnt, hcnt, hwhole, ?_⟩
  rw [h.filter_placed hw, hrounds, filter_rounds, h.filter_ppv p]

/-! ## Room for a small capture -/

theorem Shared.ppv_perm :
    ((threadIds rte.packetCoreNum).flatMap ppv).Perm (parsed packet fileReader rte) := by
  have hshares : (threadIds rte.packetCoreNum).flatMap ppv =
      shares (parsed packet fileReader rte) (groupOf (groupNum rte))
        (fun id : Int32 => id.toNatClampNeg % (groupNum rte).toNat)
        (threadIds rte.packetCoreNum) := by
    refine List.flatMap_congr fun id hid => ?_
    exact h.ppv_eq hid
  have hpos : 0 < (groupNum rte).toNat := Nat.pos_of_ne_zero fun hzero =>
    h.groups (UInt8.toNat_inj.mp hzero)
  rw [hshares, shares_perm_iff, threadIds_map rte.packetCoreNum (· % (groupNum rte).toNat),
    ← groupNum_eq h.cores h.max]
  exact fun q _ => count_map_mod (Nat.mod_lt _ hpos)

/-- No more calls than the rounds of all packets. -/
theorem Shared.issued_length_le (hw : w.Sound rte loggerRing fresh ppv (ringMem data)) :
    w.issued.length ≤ kTimes * (parsed packet fileReader rte).length := by
  rw [← hw.issued_perm.length_eq, ← h.ppv_perm.length_eq]
  refine length_flatMap_le _ fun id _ => ?_
  have hle := (hw.pushed id).isPrefix.length_le
  rw [issuedBy, List.length_map, length_rounds] at hle
  exact hle

omit h in
/-- The log holds fewer packets than calls while one is asking for its place. -/
theorem TestWorld.Sound.items_lt (hw : w.Sound rte loggerRing fresh ppv (ringMem data))
    {id : Int32} {n : ℕ} (hasks : asking? (w.logger.ring.machine.pc (some id)) = some n) :
    w.logger.ring.books.items.length < w.issued.length := by
  obtain ⟨-, -, haccounts⟩ := hw.accounts
  obtain ⟨hlt, hnew⟩ := (haccounts.producers id).asking hasks
  have hnodup : (n :: w.logger.ring.books.items.map Pushed.number).Nodup :=
    List.nodup_cons.mpr ⟨hnew, haccounts.distinct⟩
  have hsub : n :: w.logger.ring.books.items.map Pushed.number ⊆ List.range w.logger.calls := by
    intro k hk
    rw [List.mem_range]
    rcases List.mem_cons.mp hk with rfl | hk
    · exact hlt
    · obtain ⟨x, hx, rfl⟩ := List.mem_map.mp hk
      exact haccounts.numbered x hx
  have hle := (List.subperm_of_subset hnodup hsub).length_le
  rw [List.length_cons, List.length_map, List.length_range, hw.ordered.calls_eq] at hle
  exact hle

/-- A capture whose rounds all fit into the ring never finds it full, and never moves a head all
the way round. -/
theorem Shared.hasRoom (hw : w.Sound rte loggerRing fresh ppv (ringMem data))
    (hsmall : kTimes * (parsed packet fileReader rte).length ≤ 2 ^ 27 - 1) (a : TestAction) :
    w.HasRoom loggerRing a := by
  cases a with
  | loggerThread | stopRunning | skipOutput => trivial
  | packetThread id =>
      obtain ⟨⟨W, htracks⟩, hlogs, haccounts⟩ := hw.accounts
      have hissued := h.issued_length_le hw
      have htotal := hlogs.total .prod
      rw [htracks.reserved_eq] at htotal
      have hitems : w.logger.ring.books.items.length = (W .prod).head := by
        rw [← htotal, BuffRing.Books.items, List.length_flatten]
        rfl
      have hcap : loggerRing.capacity.toNat = 2 ^ 27 - 1 := rfl
      obtain ⟨hctail, hcons, hptail, -⟩ := htracks.chain
      constructor
      · simp only [LoggerWorld.HasRoom]
        split
        next call oldHead hpc =>
          have hlt := hw.items_lt (n := (call.obj 0).number) (by rw [hpc]; rfl)
          have hsound := htracks.sound (some id)
          have hpushes := haccounts.producers id
          rw [hpc] at hsound hpushes
          obtain ⟨x, rfl, -⟩ := hpushes
          obtain ⟨hold, hle, -⟩ := hsound
          simp only [enqueueCall] at hle
          have htail : (w.logger.ring.machine.mem.ht .cons).tail = word (W .cons).tail :=
            htracks.tail_eq .cons
          have hslack : loggerRing.slack .prod = 2 ^ 27 - 1 := rfl
          have hentries := entries_word loggerRing .prod
            (show w.logger.ring.books.seen (some id) ≤ (W .cons).tail + loggerRing.slack .prod by
              omega)
          intro hzero
          simp only [enqueueCall, Side.other, htail, hold, hentries] at hzero
          have hnat := congrArg UInt32.toNat hzero
          rw [word_toNat, hslack, Nat.mod_eq_of_lt (by omega), UInt32.toNat_zero] at hnat
          omega
        next => trivial
      · simp only [LoggerWorld.Unmoved, World.Unmoved]
        split
        next call mv hpc =>
          intro _ hcas
          have hlt := hw.items_lt (n := (call.obj 0).number) (by rw [hpc]; rfl)
          have hsound := htracks.sound (some id)
          have hpushes := haccounts.producers id
          rw [hpc] at hsound hpushes
          obtain ⟨⟨x, rfl, -⟩, -⟩ := hpushes
          obtain ⟨⟨hold, hle, -⟩, -⟩ := hsound
          have hhead := htracks.head_eq .prod
          simp only [enqueueCall] at hle hcas ⊢
          rw [hhead, hold] at hcas
          rw [htracks.reserved_eq]
          exact (eq_of_word_eq hle (by omega) hcas.symm).symm
        next => trivial

/-- So every run on a small capture is one in which each `push_back` finds room. -/
theorem Shared.reachableWithRoom
    (hsmall : kTimes * (parsed packet fileReader rte).length ≤ 2 ^ 27 - 1)
    (hw : w.Reachable rte loggerRing fresh ppv (ringMem data)) :
    w.ReachableWithRoom rte loggerRing fresh ppv (ringMem data) := by
  have hrun : Relation.ReflTransGen (TestWorld.Step rte loggerRing fresh ppv)
    (TestWorld.start (ringMem data)) w := hw
  clear hw
  induction hrun with
  | refl => exact Relation.ReflTransGen.refl
  | tail _ hstep ih =>
      obtain ⟨a, rfl, hstarted⟩ := hstep
      have hsound := ih.sound loggerRing_sized rfl rfl rfl rfl
      exact Relation.ReflTransGen.tail ih ⟨a, rfl, hstarted, h.hasRoom hsound hsmall a⟩

end Capture

/-! ## Runs -/

variable {packet : PcapPacket} {fileReader : Str → Option Mmap}

/-- In every run with one logger thread in which each `push_back` finds room: what the logger has
formatted, is draining and has in its ring are, connection by connection, a prefix of the packet
threads' rounds of that connection's packets in capture order. -/
theorem connections_logged_in_order {fuel : ℕ} {c : RingConfig} {mem : RingMem Pushed}
    (hring : buffRing fuel (2 * kVectorThreshold) .kRingQueueVariable false true data =
      some (c, mem)) (h : Shared packet fileReader rte ppv)
    (hw : w.ReachableWithRoom rte c fresh ppv mem) (p : PcapPacket) :
    ((w.placed c).map Pushed.packet).filter (SameTuple p) <+:
      rounds kTimes ((parsed packet fileReader rte).filter (SameTuple p)) := by
  rw [buffRing_logger] at hring
  obtain ⟨rfl, rfl⟩ := Prod.mk.inj (Option.some.inj hring)
  have hsound := hw.sound loggerRing_sized rfl rfl rfl rfl
  obtain ⟨hplaced, hissued⟩ :=
    hsound.packetsBy_placed (Int32.ofNat (groupOf (groupNum rte) p))
  rw [h.filter_placed hsound, ← h.filter_ppv p, ← filter_rounds]
  exact (hplaced.trans hissued).filter _

/-- The packet of `tcpFileReader`. -/
def tcpPacket : PcapPacket := ⟨100, 7, 0x0a000001, 0x0a000002, 80, 1024, 6, 0x0800⟩

/-- The shares of two threads, of which the second one gets the packet. -/
def tcpPpv (id : Int32) : List PcapPacket := if id = 1 then [tcpPacket] else []

theorem parsed_tcp (rte : Rte) :
    parsed ⟨0, 0, 0, 0, 0, 0, 0, 0⟩ tcpFileReader rte = [tcpPacket] := by
  simp only [parsed, tcpFileReader]
  rw [emittedFrom, if_pos (by decide), emittedFrom, if_pos (by decide), emittedFrom,
    if_neg (by decide)]
  decide

theorem forall_threadIds_two {p : Int32 → Prop} (h0 : p 0) (h1 : p 1) :
    ∀ id ∈ threadIds 2, p id := by
  have hids : threadIds 2 = [0, 1] := by decide
  rw [hids]
  simp [h0, h1]

theorem shared_tcp :
    Shared ⟨0, 0, 0, 0, 0, 0, 0, 0⟩ tcpFileReader twoThreads tcpPpv where
  cores := by decide
  max := by decide
  found := by
    have hgroups : groupNum twoThreads ≠ 0 := by decide
    obtain ⟨ret, hinit⟩ : ∃ ret, pcapReaderInit ⟨0, 0, 0, 0, 0, 0, 0, 0⟩ tcpFileReader
        twoThreads = some (_, ret) := pcapReaderInit_eq hgroups
    refine ⟨_, ret, hinit, fun id hid => ?_⟩
    rw [packetGet_eq hgroups _ hid, parsed_tcp]
    revert id
    exact forall_threadIds_two rfl rfl

theorem TestWorld.reachable_foldl (actions : List TestAction)
    (h : ∀ a ∈ actions, TestWorld.Started rte a) (c : RingConfig) (mem : RingMem Pushed) :
    (actions.foldl (TestWorld.next c fresh ppv) (TestWorld.start mem)).Reachable rte c fresh ppv
      mem := by
  induction actions using List.reverseRecOn with
  | nil => exact Relation.ReflTransGen.refl
  | append_singleton actions a ih =>
      rw [List.foldl_concat]
      refine .tail (ih fun b hb => h b (List.mem_append_left _ hb)) ⟨a, rfl, ?_⟩
      exact h a (List.mem_append_right _ (List.mem_singleton_self a))

/-- The second thread has pushed its packet once, and the logger thread has formatted it. -/
theorem connections_logged_in_order_of_one_packet :
    let actions : List TestAction := List.replicate 10 (.packetThread 1) ++
      List.replicate 11 (.loggerThread true)
    let w := actions.foldl (TestWorld.next loggerRing onePushed tcpPpv)
      (TestWorld.start (ringMem onePushed))
    w.logger.handed.map Pushed.packet = [tcpPacket] ∧
      ((w.placed loggerRing).map Pushed.packet).filter (SameTuple tcpPacket) <+:
        rounds kTimes ((parsed ⟨0, 0, 0, 0, 0, 0, 0, 0⟩ tcpFileReader
          twoThreads).filter (SameTuple tcpPacket)) := by
  intro actions w
  have hw : w.Reachable twoThreads loggerRing onePushed tcpPpv (ringMem onePushed) := by
    refine TestWorld.reachable_foldl actions (fun a ha => ?_) _ _
    rcases List.mem_append.mp ha with ha | ha
    · rw [(List.mem_replicate.mp ha).2]
      decide
    · rw [(List.mem_replicate.mp ha).2]
      trivial
  have hroom := shared_tcp.reachableWithRoom (by rw [parsed_tcp]; decide) hw
  exact ⟨by decide, connections_logged_in_order (buffRing_logger 0 onePushed) shared_tcp hroom _⟩

/-- In every run with one logger thread on a capture whose rounds fit into the ring, whatever the
schedule: once the packet threads have returned, the logger has of each connection whole rounds of
its packets in capture order, and `kTimes` of them unless `StopRunning` has been set. -/
theorem connections_logged_whole {fuel : ℕ} {c : RingConfig} {mem : RingMem Pushed}
    (hring : buffRing fuel (2 * kVectorThreshold) .kRingQueueVariable false true data =
      some (c, mem)) (h : Shared packet fileReader rte ppv)
    (hsmall : kTimes * (parsed packet fileReader rte).length ≤ 2 ^ 27 - 1)
    (hw : w.Reachable rte c fresh ppv mem)
    (hexit : ∀ id ∈ threadIds rte.packetCoreNum, ∃ cnt, w.packetGet id = .exited cnt)
    (p : PcapPacket) :
    ∃ cnt ≤ kTimes, (w.stopRunning = false → cnt = kTimes) ∧
      ((w.placed c).map Pushed.packet).filter (SameTuple p) =
        rounds cnt ((parsed packet fileReader rte).filter (SameTuple p)) := by
  rw [buffRing_logger] at hring
  obtain ⟨rfl, rfl⟩ := Prod.mk.inj (Option.some.inj hring)
  have hsound := (h.reachableWithRoom hsmall hw).sound loggerRing_sized rfl rfl rfl rfl
  exact h.filter_placed_of_exited hsound hexit p

/-- The second thread has pushed its packet once when `StopRunning` is set. -/
theorem connections_logged_whole_of_one_round :
    let actions : List TestAction := List.replicate 11 (.packetThread 1) ++
      [.stopRunning, .packetThread 0, .packetThread 1]
    let w := actions.foldl (TestWorld.next loggerRing onePushed tcpPpv)
      (TestWorld.start (ringMem onePushed))
    w.packetGet 1 = .exited 1 ∧ ∃ cnt ≤ kTimes, (w.stopRunning = false → cnt = kTimes) ∧
      ((w.placed loggerRing).map Pushed.packet).filter (SameTuple tcpPacket) =
        rounds cnt ((parsed ⟨0, 0, 0, 0, 0, 0, 0, 0⟩ tcpFileReader
          twoThreads).filter (SameTuple tcpPacket)) := by
  intro actions w
  have hw : w.Reachable twoThreads loggerRing onePushed tcpPpv (ringMem onePushed) := by
    refine TestWorld.reachable_foldl actions (fun a ha => ?_) _ _
    rcases List.mem_append.mp ha with ha | ha
    · rw [(List.mem_replicate.mp ha).2]
      decide
    · simp only [List.mem_cons, List.not_mem_nil, or_false] at ha
      rcases ha with rfl | rfl | rfl
      · trivial
      · decide
      · decide
  have hone : w.packetGet 1 = .exited 1 := rfl
  have hexit : ∀ id ∈ threadIds 2, ∃ cnt, w.packetGet id = .exited cnt :=
    forall_threadIds_two ⟨0, rfl⟩ ⟨1, hone⟩
  exact ⟨hone, connections_logged_whole (buffRing_logger 0 onePushed) shared_tcp
    (by rw [parsed_tcp]; decide) hw hexit _⟩

end Restore.LoggerTest
