import Mathlib.Data.List.TakeWhile
import Mathlib.Data.Nat.Notation

/-! # Text as bytes -/

namespace Restore

/-- Text as bytes. -/
abbrev Str := List UInt8

namespace Byte

abbrev backspace : UInt8 := 8
abbrev tab : UInt8 := 9
abbrev newline : UInt8 := 10
abbrev carriageReturn : UInt8 := 13
abbrev escape : UInt8 := 0x1B
abbrev space : UInt8 := 0x20
abbrev delete : UInt8 := 127

end Byte

def bytesOf (s : String) : Str := s.toList.map Char.toUInt8

/-- `isprint` in the "C" locale. -/
def isPrint (c : UInt8) : Bool := 0x20 ≤ c && c ≤ 0x7E

/-- What C reads of a string: the bytes before the first NUL. -/
def cStr (s : Str) : Str := s.takeWhile (· ≠ 0)

theorem cStr_eq_self {s : Str} (hnul : (0 : UInt8) ∉ s) : cStr s = s :=
  List.takeWhile_eq_self_iff.mpr fun c hc => by
    simp only [ne_eq, decide_not, Bool.not_eq_true', decide_eq_false_iff_not]
    rintro rfl
    exact hnul hc

/-- `" \t\n\r"`. -/
def whitespace : Str := [Byte.space, Byte.tab, Byte.newline, Byte.carriageReturn]

end Restore
