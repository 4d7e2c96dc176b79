import ObjectCache.Digest.Hmac
import ObjectCache.Table

namespace ObjectCache.Signing

def scopeEnd : String := "aws4_request"

def deriveKey (secret date region service : String) : ByteArray :=
  let dateKey := Digest.hmacSha256 ("AWS4" ++ secret).toUTF8 date.toUTF8
  let regionKey := Digest.hmacSha256 dateKey region.toUTF8
  let serviceKey := Digest.hmacSha256 regionKey service.toUTF8
  Digest.hmacSha256 serviceKey scopeEnd.toUTF8

structure KeyScope where
  secret : String
  region : String
  service : String
deriving DecidableEq

def KeyScope.key (s : KeyScope) (date : String) : ByteArray :=
  deriveKey s.secret date s.region s.service

structure DatedKey where
  date : String
  key : ByteArray

/-- The counters have no bound: those of 64 bits agree with them below 2 ^ 64 events. -/
structure KeyCache where
  keys : Table KeyScope DatedKey
  hits : Nat
  misses : Nat

namespace KeyCache

def empty : KeyCache := ⟨.empty, 0, 0⟩

def held? (c : KeyCache) (scope : KeyScope) (date : String) : Option ByteArray :=
  (c.keys.get? scope).bind fun k => if k.date = date then some k.key else none

def signingKey (c : KeyCache) (scope : KeyScope) (date : String) : ByteArray × KeyCache :=
  match c.held? scope date with
  | some key => (key, { c with hits := c.hits + 1 })
  | none =>
      let key := scope.key date
      (key, { c with keys := c.keys.insert scope ⟨date, key⟩, misses := c.misses + 1 })

def clear (c : KeyCache) : KeyCache := { c with keys := .empty }

end KeyCache

end ObjectCache.Signing
