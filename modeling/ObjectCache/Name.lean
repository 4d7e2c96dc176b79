namespace ObjectCache

structure ObjectName where
  bucket : String
  key : String
deriving DecidableEq, Inhabited, Repr

def ObjectName.path (o : ObjectName) : String := o.bucket ++ "/" ++ o.key

structure ListingName where
  bucket : String
  stem : String
  delimiter : String
deriving DecidableEq, Repr

end ObjectCache
