import Restore.Model.BuffRing

/-! # `RingBuff<T>` of `ring_buffer.h`

The constructor and the member functions, each run with no other call in between. -/

namespace Restore

/-- `data` is what memory holds from `data_` on: `size` slots, then whatever follows them. -/
structure RingBuff (T : Type*) where
  wdIndex : UInt32
  rdIndex : UInt32
  size : UInt32
  data : ℕ → T

namespace RingBuff

/-- The copy of `RoundupPowerOf2` in this header. -/
def roundupPowerOf2 (fuel : ℕ) (a : UInt32) : Option UInt32 := BuffRing.roundupPowerOf2 fuel a

/-- What a getter leaves: the value it returns, the caller's array, and the slots it read. -/
structure Got (T : Type*) where
  ret : Int32
  item : ℕ → T
  reads : List ℕ

variable {T : Type*}

/-- `RingBuff(size)` over fresh slots; `none` means that the loop does not end. -/
def ringBuff (fuel : ℕ) (size : UInt32) (data : ℕ → T) : Option (RingBuff T) :=
  (roundupPowerOf2 fuel size).map fun size => ⟨0, 0, size, data⟩

def put (r : RingBuff T) (item : T) : RingBuff T × Int32 :=
  if r.wdIndex ≥ r.rdIndex + r.size then (r, -1)
  else
    let wdIdx := r.wdIndex
    let idx := wdIdx &&& (r.size - 1)
    ({ r with wdIndex := r.wdIndex + 1, data := Function.update r.data idx.toNat item }, 0)

/-- `memcpy(item, &data_[idx], sizeof(T) * n)`, and what the getter returns. -/
def memcpy (r : RingBuff T) (item : ℕ → T) (idx n : UInt32) (ret : Int32) : Got T where
  ret := ret
  item i := if i < n.toNat then r.data (idx.toNat + i) else item i
  reads := (List.range n.toNat).map (idx.toNat + ·)

def getHalf (r : RingBuff T) (item : ℕ → T) : RingBuff T × Got T :=
  let halfSize := r.size >>> 1
  if r.wdIndex ≥ r.rdIndex + halfSize then
    let idx := r.rdIndex &&& (r.size - 1)
    ({ r with rdIndex := r.rdIndex + halfSize }, r.memcpy item idx halfSize 1)
  else (r, ⟨0, item, []⟩)

def getAll (r : RingBuff T) (item : ℕ → T) : RingBuff T × Got T :=
  let size := r.wdIndex - r.rdIndex
  let idx := r.rdIndex &&& (r.size - 1)
  ({ r with rdIndex := r.wdIndex }, r.memcpy item idx r.size size.toInt32)

end RingBuff

end Restore
