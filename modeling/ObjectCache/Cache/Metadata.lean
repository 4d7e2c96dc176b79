import ObjectCache.Event
import ObjectCache.Listing.Summary
import ObjectCache.Table
import ObjectCache.Text.Fixed
import ObjectCache.Time.Clock

namespace ObjectCache

open Time

structure HeadEntry where
  size : UInt64
  expires : Millis

structure ListingEntry where
  objects : List ObjectSummary
  expires : Millis

/-- Sizes are kept under the path of the object, and listings under their exact name. The counters
have no bound: those of 64 bits agree with them below 2 ^ 64 events. -/
structure MetadataCache where
  headTtl : Millis
  listingTtl : Millis
  heads : Table String HeadEntry
  listings : Table ListingName ListingEntry
  generations : Counts String
  hits : Nat
  misses : Nat

namespace MetadataCache

def defaultTtl : Millis := 5000

def withTtls (headTtl listingTtl : Millis) : MetadataCache :=
  ⟨headTtl, listingTtl, .empty, .empty, .empty, 0, 0⟩

def default : MetadataCache := withTtls defaultTtl defaultTtl

def generation (c : MetadataCache) (bucket : String) : Nat := c.generations.count bucket

def record (c : MetadataCache) (hit : Bool) : MetadataCache :=
  if hit then { c with hits := c.hits + 1 } else { c with misses := c.misses + 1 }

def getHead (c : MetadataCache) (now : Millis) (object : ObjectName) :
    Option UInt64 × MetadataCache :=
  match c.heads.get? object.path with
  | some e =>
      if now < e.expires then (some e.size, c.record true)
      else (none, { c with heads := c.heads.erase object.path }.record false)
  | none => (none, c.record false)

def storeHead (c : MetadataCache) (object : ObjectName) (size : UInt64) (expires : Millis) :
    MetadataCache :=
  { c with heads := c.heads.insert object.path ⟨size, expires⟩ }

def putHead (c : MetadataCache) (now : Millis) (object : ObjectName) (size : UInt64) :
    Option MetadataCache :=
  (deadline? now c.headTtl).map (c.storeHead object size)

def putHeadIfCurrent (c : MetadataCache) (now : Millis) (object : ObjectName) (size : UInt64)
    (generation : Nat) : Option (Bool × MetadataCache) :=
  (deadline? now c.headTtl).map fun expires =>
    if c.generation object.bucket = generation then (true, c.storeHead object size expires)
    else (false, c)

def getListing (c : MetadataCache) (now : Millis) (name : ListingName) :
    Option (List ObjectSummary) × MetadataCache :=
  match c.listings.get? name with
  | some e =>
      if now < e.expires then (some e.objects, c.record true)
      else (none, { c with listings := c.listings.erase name }.record false)
  | none => (none, c.record false)

def storeListing (c : MetadataCache) (name : ListingName) (objects : List ObjectSummary)
    (expires : Millis) : MetadataCache :=
  { c with listings := c.listings.insert name ⟨objects, expires⟩ }

def putListing (c : MetadataCache) (now : Millis) (name : ListingName)
    (objects : List ObjectSummary) : Option MetadataCache :=
  (deadline? now c.listingTtl).map (c.storeListing name objects)

def putListingIfCurrent (c : MetadataCache) (now : Millis) (name : ListingName)
    (objects : List ObjectSummary) (generation : Nat) : Option (Bool × MetadataCache) :=
  (deadline? now c.listingTtl).map fun expires =>
    if c.generation name.bucket = generation then (true, c.storeListing name objects expires)
    else (false, c)

def invalidate (c : MetadataCache) (object : ObjectName) : MetadataCache × List Event :=
  let listings := c.listings.filter fun name _ => name.bucket ≠ object.bucket
  ({ c with
      heads := c.heads.erase object.path
      listings
      generations := c.generations.add object.bucket },
    [.metadataInvalidated object (c.listings.size - listings.size)])

def entryCount (c : MetadataCache) : Nat := c.heads.size + c.listings.size

def purge (c : MetadataCache) (now : Millis) : Nat × MetadataCache :=
  let kept := { c with
    heads := c.heads.filter fun _ e => now < e.expires
    listings := c.listings.filter fun _ e => now < e.expires }
  (c.entryCount - kept.entryCount, kept)

def clear (c : MetadataCache) : MetadataCache :=
  { c with heads := .empty, listings := .empty, hits := 0, misses := 0 }

def hitRate (c : MetadataCache) : Float :=
  let total := c.hits + c.misses
  if 0 < total then Float.ofNat c.hits / Float.ofNat total * 100 else 0

def metrics (c : MetadataCache) : Event :=
  .metadataMetrics c.hits c.misses (Text.Fixed.ofFloat 1 c.hitRate ++ "%") c.heads.size
    c.listings.size

end MetadataCache

structure Sweeper where
  interval : Millis
  elapsed : Millis

namespace Sweeper

def start (interval : Millis) : Sweeper := ⟨interval, 0⟩

def isDueWithin (s : Sweeper) (span : Millis) : Bool :=
  s.elapsed / s.interval < (s.elapsed + span) / s.interval

def pass (s : Sweeper) (span now : Millis) (c : MetadataCache) : Sweeper × MetadataCache :=
  ({ s with elapsed := s.elapsed + span }, if s.isDueWithin span then (c.purge now).2 else c)

end Sweeper

end ObjectCache
