import ObjectCache.Name
import ObjectCache.Store.Error

namespace ObjectCache

inductive Event where
  | evicted (object : ObjectName) (index : UInt64) (size : Nat)
  | blocksInvalidated (object : ObjectName) (blocks : Nat) (freed : UInt64)
  | blockMetrics (hits misses evictions entries : Nat) (resident : UInt64)
  | metadataInvalidated (object : ObjectName) (listings : Nat)
  | metadataMetrics (hits misses : Nat) (rate : String) (heads listings : Nat)
  | retrying (operation path : String) (attempt limit delay : Nat) (cause : StoreError)
deriving DecidableEq, Repr

namespace Event

inductive Field where
  | number (n : Nat)
  | text (s : String)

def message : Event → String
  | evicted .. => "Evicted block"
  | blocksInvalidated .. => "Invalidated cached blocks"
  | blockMetrics .. => "Block cache metrics"
  | metadataInvalidated .. => "Invalidated metadata for object"
  | metadataMetrics .. => "Metadata cache metrics"
  | retrying .. => "Retrying object store operation"

def objectFields (o : ObjectName) : List (String × Field) :=
  [("bucket", .text o.bucket), ("key", .text o.key)]

def fields : Event → List (String × Field)
  | evicted o index size =>
      objectFields o ++ [("index", .number index.toNat), ("size", .number size)]
  | blocksInvalidated o blocks freed =>
      objectFields o ++ [("blocks", .number blocks), ("freed", .number freed.toNat)]
  | blockMetrics hits misses evictions entries resident =>
      [("hits", .number hits), ("misses", .number misses), ("evictions", .number evictions),
        ("entries", .number entries), ("resident_mb", .number (resident.toNat / 1048576))]
  | metadataInvalidated o listings => objectFields o ++ [("listings", .number listings)]
  | metadataMetrics hits misses rate heads listings =>
      [("hits", .number hits), ("misses", .number misses), ("hit_rate", .text rate),
        ("head_entries", .number heads), ("list_entries", .number listings)]
  | retrying operation path attempt limit delay cause =>
      [("operation", .text operation), ("path", .text path), ("attempt", .number attempt),
        ("max", .number limit), ("delay_ms", .number delay), ("error", .text cause.message)]

end Event

end ObjectCache
