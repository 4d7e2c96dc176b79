import ObjectCache.Listing.Summary
import ObjectCache.Name
import ObjectCache.Store.Error

namespace ObjectCache

inductive StoreCall where
  | head (object : ObjectName)
  | get (object : ObjectName) (offset length : UInt64)
  | put (object : ObjectName) (data : ByteArray)
  | delete (object : ObjectName)
  | list (name : ListingName)

namespace StoreCall

abbrev Reply : StoreCall → Type
  | head _ => UInt64
  | get _ _ _ => ByteArray
  | put _ _ => Unit
  | delete _ => Unit
  | list _ => List ObjectSummary

abbrev Result (call : StoreCall) : Type := Except StoreError call.Reply

inductive Kind where
  | head
  | get
  | put
  | delete
  | list
deriving DecidableEq, Repr

def kind : StoreCall → Kind
  | head _ => .head
  | get _ _ _ => .get
  | put _ _ => .put
  | delete _ => .delete
  | list _ => .list

end StoreCall

end ObjectCache
