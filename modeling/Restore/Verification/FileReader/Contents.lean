import Restore.Model.FileReader
import Mathlib.Data.UInt
import Mathlib.Order.Lattice

/-! # What a `FileReader` holds

`IsOK` says that the file could be opened, and not how much of it was read. -/

namespace Restore.FileReader

variable {calls : Calls} {file : List UInt8}

/-- The buffer is the file. -/
def Mmap.Holds (buff : Mmap) (file : List UInt8) : Prop :=
  buff.length.toNat = file.length ∧
    ∀ i < file.length, buff.data.map (fun data => data i) = file[i]?

/-- One of the calls that the constructor checks fails. -/
def Calls.Fails (calls : Calls) : Prop :=
  calls.stat = none ∨ calls.malloc = false ∨ calls.fd < 0

/-- The smaller of the two sizes, where a first one that is missing counts as the largest. -/
def Calls.size (calls : Calls) (stSize : Int64) : ℕ :=
  min (getFileSize calls.firstStat).toUInt64.toNat stSize.toUInt64.toNat

/-- The smaller size is that of the file, and each byte is read or was in the storage before. -/
def Calls.Delivers (calls : Calls) (file : List UInt8) : Prop :=
  (∃ stSize, calls.stat = some stSize ∧ calls.size stSize = file.length) ∧
    ∀ i < file.length, ∃ data, calls.storage = some data ∧
      (i < calls.read.getD 0 ∨ some (data i) = file[i]?)

theorem isOK_some (buff : Mmap) : isOK (some buff) = 1 := rfl

theorem fileReader_of_fails (h : calls.Fails) : fileReader calls file = none := by
  rw [fileReader, mmapCreate]
  cases hstat : calls.stat with
  | none => rfl
  | some stSize =>
      rcases h with h | h | h
      · rw [hstat] at h
        cases h
      · simp [h]
      · simp [h]

theorem fileReader_of_not_fails (file : List UInt8) (h : ¬ calls.Fails) : ∃ stSize size,
    calls.stat = some stSize ∧ size.toNat = calls.size stSize ∧
      fileReader calls file =
        some ⟨calls.fd, fill file calls.storage size calls.read, size⟩ := by
  rw [Calls.Fails, not_or, not_or] at h
  obtain ⟨hstat, hmalloc, hfd⟩ := h
  obtain ⟨stSize, hstat⟩ := Option.ne_none_iff_exists'.mp hstat
  let first := (getFileSize calls.firstStat).toUInt64
  let second := stSize.toUInt64
  refine ⟨stSize, if 0 + first ≤ second then first else second - 0, hstat, ?_, ?_⟩
  · rw [UInt64.zero_add, UInt64.sub_zero, apply_ite UInt64.toNat]
    exact (min_def first.toNat second.toNat).symm
  · rw [fileReader, mmapCreate, hstat]
    dsimp only
    rw [if_neg hmalloc, if_neg hfd]

/-- A byte of the buffer is that of the file if it was read, or in the storage before. -/
theorem fill_eq_iff {storage : Option (ℕ → UInt8)} {size : UInt64} {read : Option ℕ} {i : ℕ}
    (hi : i < file.length) (hsize : size.toNat = file.length) :
    (fill file storage size read).map (fun data => data i) = file[i]? ↔
      ∃ data, storage = some data ∧ (i < read.getD 0 ∨ some (data i) = file[i]?) := by
  have hget : file[i]? = some file[i] := List.getElem?_eq_getElem hi
  cases storage with
  | none => simp [fill, hget]
  | some data =>
      have hmin : i < min (read.getD 0) size.toNat ↔ i < read.getD 0 := by omega
      simp only [fill, Option.map_some, hmin, Option.some.injEq, exists_eq_left']
      split
      · rename_i hread
        simp [hread, hget, List.getD_eq_getElem?_getD]
      · rename_i hread
        simp [hread]

/-- `IsOK` is 1 only on the whole file, and else 0, if and only if one of the calls that the
constructor checks fails, or the calls deliver the whole file. -/
theorem isOK_exact_iff (calls : Calls) (file : List UInt8) :
    ((isOK (fileReader calls file) = 1 →
        ∃ buff, fileReader calls file = some buff ∧ buff.Holds file) ∧
      (isOK (fileReader calls file) ≠ 1 → isOK (fileReader calls file) = 0)) ↔
      calls.Fails ∨ calls.Delivers file := by
  by_cases hfails : calls.Fails
  · rw [fileReader_of_fails hfails]
    exact iff_of_true ⟨fun h => (by cases h), fun _ => rfl⟩ (.inl hfails)
  · obtain ⟨stSize, size, hstat, hsize, hreader⟩ := fileReader_of_not_fails file hfails
    rw [hreader, isOK_some, or_iff_right hfails]
    simp only [true_imp_iff, ne_eq, not_true, false_imp_iff, and_true, Option.some.injEq,
      exists_eq_left', Mmap.Holds, Calls.Delivers, hstat, hsize]
    exact and_congr_right fun hlen =>
      forall₂_congr fun i hi => fill_eq_iff hi (hsize.trans hlen)

/-- One byte of three is read. -/
def shortRead : Calls := ⟨some 3, some 3, true, 3, some fun _ => 0, some 1⟩

/-- There is no memory for the three bytes. -/
def noMemory : Calls := ⟨some 3, some 3, true, 3, none, none⟩

theorem isOK_inexact :
    (isOK (fileReader shortRead [1, 2, 3]) = 1 ∧
      ¬ ∃ buff, fileReader shortRead [1, 2, 3] = some buff ∧ buff.Holds [1, 2, 3]) ∧
    isOK (fileReader noMemory [1, 2, 3]) = 1 ∧
      ¬ ∃ buff, fileReader noMemory [1, 2, 3] = some buff ∧ buff.Holds [1, 2, 3] := by
  refine ⟨⟨rfl, ?_⟩, rfl, ?_⟩
  · rintro ⟨buff, hbuff, -, hbytes⟩
    obtain rfl := Option.some.inj hbuff
    exact absurd (hbytes 1 (by decide)) (by decide)
  · rintro ⟨buff, hbuff, -, hbytes⟩
    obtain rfl := Option.some.inj hbuff
    exact absurd (hbytes 1 (by decide)) (by decide)

end Restore.FileReader
