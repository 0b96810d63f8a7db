import Restore.Shared.Bytes
import Restore.Shared.StdString

/-! # `Util` of `util.cpp`

What the source changes through a reference is returned beside the result. A position past the
end of a string, for which the library throws, makes the whole call `none`. -/

namespace Restore

open StdString

namespace Byte

abbrev hash : UInt8 := 0x23
abbrev semicolon : UInt8 := 0x3B
abbrev equalSign : UInt8 := 0x3D

end Byte

namespace Util

def lTrim (s : Str) : Option Str := erase s 0 (findFirstNotOf whitespace s)

def rTrim (s : Str) : Option Str := eraseTail whitespace s

def trim (s : Str) : Option Str := do rTrim (← lTrim s)

/-- The result, `key` and `value`. -/
def getKeyValueWithEqualSign (str : Str) : Option (ℤ × Str × Str) :=
  if str.length = 0 then some (0, [], [])
  else if str.head? = some Byte.hash ∨ str.head? = some Byte.semicolon then some (0, [], [])
  else match find [Byte.equalSign] str with
    | none => some (0, [], [])
    | some n => do
        let key ← trim (str.take n)
        let value ← trim (← substr str (n + 1))
        some (1, key, if value.length = 0 then [Byte.space] else value)

/-- The result, `str` and `value`. -/
def replaceValueAfterEqualSign (str value : Str) : ℤ × Str × Str :=
  match find [Byte.equalSign] str with
  | none => (-1, str, [])
  | some n =>
      let value := Byte.space :: value
      (0, str.take (n + 1) ++ value, value)

end Util

end Restore
