import ObjectCache.Time.Rfc3339

namespace ObjectCache

structure ObjectSummary where
  key : String
  size : UInt64
  modified : Option Time.Timestamp
  etag : String
deriving DecidableEq

namespace ObjectSummary

def ofCommonPrefix (key : String) : ObjectSummary := ⟨key, 0, none, ""⟩

def ofListed (key : String) (size : UInt64) (modified etag : String) : ObjectSummary :=
  ⟨key, size, Time.Rfc3339.parse? modified, etag⟩

end ObjectSummary

end ObjectCache
