import ObjectCache.Store.Call
import ObjectCache.Table

namespace ObjectCache

structure MemoryStore where
  objects : Table ObjectName ByteArray
  reportedSizes : Table ObjectName UInt64

namespace MemoryStore

def empty : MemoryStore := ⟨.empty, .empty⟩

def put (s : MemoryStore) (object : ObjectName) (data : ByteArray) : MemoryStore :=
  { s with objects := s.objects.insert object data }

def remove (s : MemoryStore) (object : ObjectName) : MemoryStore :=
  { s with objects := s.objects.erase object }

def reportSize (s : MemoryStore) (object : ObjectName) : Option UInt64 → MemoryStore
  | some size => { s with reportedSizes := s.reportedSizes.insert object size }
  | none => { s with reportedSizes := s.reportedSizes.erase object }

def size? (s : MemoryStore) (object : ObjectName) : Option UInt64 :=
  (s.reportedSizes.get? object).or
    ((s.objects.get? object).map fun data => UInt64.ofNat data.size)

def range (data : ByteArray) (offset length : UInt64) : ByteArray :=
  data.extract (min offset.toNat data.size) (min (offset.toNat + length.toNat) data.size)

def summary (key : String) (data : ByteArray) : ObjectSummary :=
  ⟨key, UInt64.ofNat data.size, none, ""⟩

def isUnder (name : ListingName) (object : ObjectName) : Bool :=
  object.bucket = name.bucket && name.stem.toList.isPrefixOf object.key.toList

def listing (s : MemoryStore) (name : ListingName) : List ObjectSummary :=
  let found := s.objects.entries.filter fun e => isUnder name e.1
  (found.map fun e => summary e.1.key e.2).mergeSort fun a b => a.key ≤ b.key

def answer (s : MemoryStore) : (call : StoreCall) → call.Result × MemoryStore
  | .head o =>
      match s.size? o with
      | some n => (.ok n, s)
      | none => (.error (.notFound o.key), s)
  | .get o offset length =>
      match s.objects.get? o with
      | some data => (.ok (range data offset length), s)
      | none => (.error (.notFound o.key), s)
  | .put o data => (.ok (), s.put o data)
  | .delete o => (.ok (), s.remove o)
  | .list name => (.ok (s.listing name), s)

end MemoryStore

end ObjectCache
