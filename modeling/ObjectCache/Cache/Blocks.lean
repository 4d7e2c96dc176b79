import ObjectCache.Event
import ObjectCache.Table

namespace ObjectCache

def blockSize : UInt64 := 262144

structure BlockKey where
  object : ObjectName
  index : UInt64
deriving DecidableEq, Repr

structure Block where
  key : BlockKey
  data : ByteArray

/-- The blocks stand in the order of their use, the least recently used first, and `total` is kept
beside them. The counters have no bound: those of 64 bits agree with them below 2 ^ 64 events. -/
structure BlockCache where
  budget : UInt64
  blocks : List Block
  total : UInt64
  generations : Counts ObjectName
  hits : Nat
  misses : Nat
  evictions : Nat

def Block.size (b : Block) : UInt64 := UInt64.ofNat b.data.size

namespace BlockCache

def defaultBudget : UInt64 := 268435456

def withBudget (budget : UInt64) : BlockCache := ⟨budget, [], 0, .empty, 0, 0, 0⟩

def find? (c : BlockCache) (key : BlockKey) : Option Block := c.blocks.find? (·.key = key)

def generation (c : BlockCache) (object : ObjectName) : Nat := c.generations.count object

def get (c : BlockCache) (key : BlockKey) : Option ByteArray × BlockCache :=
  match c.find? key with
  | some b =>
      (some b.data,
        { c with blocks := c.blocks.filter (·.key ≠ key) ++ [b], hits := c.hits + 1 })
  | none => (none, { c with misses := c.misses + 1 })

def evictOver (budget : UInt64) : UInt64 → List Block → List Block × List Block × UInt64
  | total, [] => ([], [], total)
  | total, b :: bs =>
      if budget < total then
        let (dropped, kept, total) := evictOver budget (total - b.size) bs
        (b :: dropped, kept, total)
      else ([], b :: bs, total)

def evictionEvent (b : Block) : Event := .evicted b.key.object b.key.index b.data.size

def put (c : BlockCache) (key : BlockKey) (data : ByteArray) : BlockCache × List Event :=
  if (c.find? key).isSome then (c, [])
  else
    let b : Block := ⟨key, data⟩
    let (dropped, kept, total) := evictOver c.budget (c.total + b.size) (c.blocks ++ [b])
    ({ c with blocks := kept, total := total, evictions := c.evictions + dropped.length },
      dropped.map evictionEvent)

def putIfCurrent (c : BlockCache) (key : BlockKey) (data : ByteArray) (generation : Nat) :
    Bool × BlockCache × List Event :=
  if c.generation key.object = generation then (true, c.put key data) else (false, c, [])

def sizes (bs : List Block) : UInt64 := bs.foldr (fun b n => b.size + n) 0

def invalidate (c : BlockCache) (object : ObjectName) : BlockCache × List Event :=
  let stale := c.blocks.filter (·.key.object = object)
  let freed := sizes stale
  ({ c with
      blocks := c.blocks.filter (·.key.object ≠ object)
      total := c.total - freed
      generations := c.generations.add object },
    [.blocksInvalidated object stale.length freed])

def clear (c : BlockCache) : BlockCache := { c with blocks := [], total := 0 }

def isEmpty (c : BlockCache) : Bool := c.blocks.isEmpty

def metrics (c : BlockCache) : Event :=
  .blockMetrics c.hits c.misses c.evictions c.blocks.length c.total

end BlockCache

end ObjectCache
