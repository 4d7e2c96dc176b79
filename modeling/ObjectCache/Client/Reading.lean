import ObjectCache.Cache.Blocks

namespace ObjectCache

def addSaturating (a b : UInt64) : UInt64 := if a + b < a then 18446744073709551615 else a + b

/-- A read of the bytes from `offset` up to `stop` of an object of the given size, at the block
`index`, with the bytes of the blocks before it. -/
structure Reading where
  object : ObjectName
  size : UInt64
  offset : UInt64
  stop : UInt64
  index : UInt64
  out : ByteArray

/-- The most bytes that memory can be asked for at once. -/
def longestRange : UInt64 := 9223372036854775807

namespace Reading

def start? (object : ObjectName) (size offset length : UInt64) : Option (Reading × Nat) :=
  if length = 0 ∨ size ≤ offset then none
  else
    let stop := min (addSaturating offset length) size
    let first := offset / blockSize
    some (⟨object, size, offset, stop, first, .empty⟩, ((stop - 1) / blockSize - first).toNat)

def fits (r : Reading) : Bool := r.stop - r.offset ≤ longestRange

def key (r : Reading) : BlockKey := ⟨r.object, r.index⟩

def blockStart (r : Reading) : UInt64 := blockSize * r.index

def blockLength (r : Reading) : UInt64 := min blockSize (r.size - r.blockStart)

def sliceStart (r : Reading) : Nat := r.offset.toNat - r.blockStart.toNat

def sliceStop (r : Reading) (block : ByteArray) : Nat :=
  min (r.stop - r.blockStart).toNat block.size

def next? (r : Reading) (block : ByteArray) : Option Reading :=
  if r.sliceStart < r.sliceStop block then
    some { r with
      index := r.index + 1
      out := r.out ++ block.extract r.sliceStart (r.sliceStop block) }
  else none

end Reading

end ObjectCache
