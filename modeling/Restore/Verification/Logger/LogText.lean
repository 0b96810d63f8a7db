import Restore.Shared.Delimited
import Restore.Verification.Logger.Paths
import Restore.Verification.Pcap.Decode

/-! # The log text determines the packets

Each number in a line is followed by a character that is not a digit, so that a line, and a text
made of lines, can be read in one way only. -/

namespace Restore.Logger

open Pcap

/-! ## The pieces of a line -/

/-- A number and the character behind it. -/
def number (stop : Char) (n : ℕ) : List Char := decimal n ++ [stop]

theorem number_delimited (stop : Char) (hstop : stop.isDigit = false) :
    Delimited (number stop) id := by
  refine Delimited.terminated (fun n hmem => ?_) fun _ _ => BasicBusinessLogger.decimal_inj
  have hdigit := Nat.isDigit_of_mem_toDigits (by decide) (by decide) hmem
  rw [hstop] at hdigit
  cases hdigit

/-- An address and the comma behind it. -/
def address (addr : UInt32) : List Char :=
  number '.' (addr >>> 24).toNat ++ (number '.' ((addr >>> 16) &&& 0xff).toNat ++
    (number '.' ((addr >>> 8) &&& 0xff).toNat ++ number ',' (addr &&& 0xff).toNat))

/-- The four numbers of an address are its bytes. -/
theorem address_bytes (addr : UInt32) :
    (addr >>> 24).toNat = addr.toNat / 2 ^ 24 ∧
      ((addr >>> 16) &&& 0xff).toNat = addr.toNat / 2 ^ 16 % 2 ^ 8 ∧
      ((addr >>> 8) &&& 0xff).toNat = addr.toNat / 2 ^ 8 % 2 ^ 8 ∧
      (addr &&& 0xff).toNat = addr.toNat % 2 ^ 8 := by
  have hmask (n : ℕ) : n &&& 255 = n % 2 ^ 8 := Nat.and_two_pow_sub_one_eq_mod n 8
  simp [UInt32.toNat_shiftRight, UInt32.toNat_and, Nat.shiftRight_eq_div_pow, hmask]

theorem address_delimited : Delimited address id := by
  have hdot := number_delimited '.' rfl
  have hcomma := number_delimited ',' rfl
  have hparts :=
    (hdot.comp fun addr : UInt32 => (addr >>> 24).toNat).append
      ((hdot.comp fun addr : UInt32 => ((addr >>> 16) &&& 0xff).toNat).append
        ((hdot.comp fun addr : UInt32 => ((addr >>> 8) &&& 0xff).toNat).append
          (hcomma.comp fun addr : UInt32 => (addr &&& 0xff).toNat)))
  intro a b r s h
  obtain ⟨hbytes, hrest⟩ := hparts a b r s h
  refine ⟨UInt32.toNat_inj.mp ?_, hrest⟩
  obtain ⟨ha₀, ha₁, ha₂, ha₃⟩ := address_bytes a
  obtain ⟨hb₀, hb₁, hb₂, hb₃⟩ := address_bytes b
  simp only [id_eq, Prod.mk.injEq, ha₀, ha₁, ha₂, ha₃, hb₀, hb₁, hb₂, hb₃] at hbytes
  show a.toNat = b.toNat
  omega

theorem csvLine_eq (packet : PcapPacket) :
    csvLine packet =
      "src ip=".toList ++ (address packet.scrIpv4 ++ (" dst ip=".toList ++
        (address packet.dstIpv4 ++ (" src port = ".toList ++
          (number ',' packet.scrPort.toNat ++ (" dst port= ".toList ++
            (number ' ' packet.dstPort.toNat ++ "\n".toList))))))) := by
  have hsep : ", ".toList = [',', ' '] := rfl
  have hdst : " dst ip=".toList = ' ' :: "dst ip=".toList := rfl
  have hscrPort : " src port = ".toList = ' ' :: "src port = ".toList := rfl
  have hdstPort : ", dst port= ".toList = ',' :: " dst port= ".toList := rfl
  have hend : " \n".toList = ' ' :: "\n".toList := rfl
  unfold csvLine
  simp only [ipFormat, address, number, hsep, hdst, hscrPort, hdstPort, hend,
    List.append_assoc, List.cons_append, List.nil_append]

theorem csvLine_delimited :
    Delimited csvLine fun p => (p.scrIpv4, p.dstIpv4, p.scrPort, p.dstPort) := by
  have hcomma := number_delimited ',' rfl
  have hblank := number_delimited ' ' rfl
  have hparts :=
    (Delimited.const "src ip=".toList).append
      ((address_delimited.comp PcapPacket.scrIpv4).append
        ((Delimited.const " dst ip=".toList).append
          ((address_delimited.comp PcapPacket.dstIpv4).append
            ((Delimited.const " src port = ".toList).append
              ((hcomma.comp fun p : PcapPacket => p.scrPort.toNat).append
                ((Delimited.const " dst port= ".toList).append
                  ((hblank.comp fun p : PcapPacket => p.dstPort.toNat).append
                    (Delimited.const "\n".toList))))))))
  intro p q r s h
  rw [csvLine_eq, csvLine_eq] at h
  obtain ⟨hfields, hrest⟩ := hparts p q r s h
  simp only [id_eq, Prod.mk.injEq, UInt16.toNat_inj, true_and, and_true] at hfields
  exact ⟨by simp [hfields], hrest⟩

/-! ## Whole texts -/

/-- Two lists of packets give the same log text exactly if they have the same length and agree,
packet by packet, in addresses and ports. -/
theorem csvText_eq_iff (ps qs : List PcapPacket) :
    ps.flatMap csvLine = qs.flatMap csvLine ↔ List.Forall₂ SameTuple ps qs := by
  constructor
  · intro h
    have hne (p : PcapPacket) : csvLine p ≠ [] := by
      rw [csvLine_eq]
      exact List.append_ne_nil_of_left_ne_nil (by decide) _
    refine (csvLine_delimited.forall₂_of_flatMap_eq hne h).imp fun p q hfields => ?_
    simp only [Prod.mk.injEq] at hfields
    exact ⟨hfields.1.symm, hfields.2.1.symm, hfields.2.2.1.symm, hfields.2.2.2.symm⟩
  · intro h
    induction h with
    | nil => rfl
    | cons hsame _ ih =>
        obtain ⟨hscr, hdst, hscrPort, hdstPort⟩ := hsame
        rw [List.flatMap_cons, List.flatMap_cons, ih, csvLine_eq, csvLine_eq, hscr, hdst,
          hscrPort, hdstPort]

end Restore.Logger
