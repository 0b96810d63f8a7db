import Mathlib.Data.Nat.Notation
import Mathlib.Logic.Function.Basic

/-! # Files by path

A file is its bytes. Descriptors are written from their beginning, once. -/

namespace Restore.Files

variable {P : Type*} [DecidableEq P]

/-- The content of the file at each path, `none` where there is none. -/
abbrev FileSystem (P : Type*) := P → Option (List UInt8)

/-- `bytes` written over the beginning of a file. -/
def overwrite (old bytes : List UInt8) : List UInt8 := bytes ++ old.drop bytes.length

/-- `open` with `O_CREAT` and without `O_TRUNC`. -/
def create (files : FileSystem P) (path : P) : FileSystem P :=
  Function.update files path (some ((files path).getD []))

/-- What a `write` that has taken `bytes` leaves behind. -/
def write (files : FileSystem P) (path : P) (bytes : List UInt8) : FileSystem P :=
  Function.update files path ((files path).map (overwrite · bytes))

/-- `rename`, and whether there was a file to rename. -/
def rename (files : FileSystem P) (src dst : P) : FileSystem P × Bool :=
  match files src with
  | none => (files, false)
  | some content => (Function.update (Function.update files src none) dst (some content), true)

variable {files : FileSystem P} {path src dst : P}

theorem create_self : create files path path = some ((files path).getD []) :=
  Function.update_self ..

theorem write_create_self (bytes : List UInt8) :
    write (create files path) path bytes path =
      some (overwrite ((files path).getD []) bytes) := by
  rw [write, Function.update_self, create_self, Option.map_some]

/-- The part of the data that was written and what the file held behind it are the data if they
are so behind the part. -/
theorem overwrite_take_eq_iff {old data : List UInt8} (n : ℕ) :
    overwrite old (data.take n) = data ↔
      old.drop (data.take n).length = data.drop (data.take n).length := by
  have hrest : data.drop (data.take n).length = data.drop n := by
    rw [List.length_take]
    rcases Nat.le_total n data.length with hle | hle
    · rw [Nat.min_eq_left hle]
    · rw [Nat.min_eq_right hle, List.drop_length, List.drop_of_length_le hle]
  have hsplit := List.take_append_drop n data
  rw [hrest, overwrite]
  refine ⟨fun h => List.append_cancel_left (h.trans hsplit.symm), fun h => ?_⟩
  rw [h, hsplit]

theorem rename_of_none (h : files src = none) : rename files src dst = (files, false) := by
  rw [rename, h]

theorem rename_of_some (dst : P) {content : List UInt8} (h : files src = some content) :
    (rename files src dst).2 = true ∧ (rename files src dst).1 dst = some content := by
  rw [rename, h]
  exact ⟨rfl, Function.update_self ..⟩

end Restore.Files
