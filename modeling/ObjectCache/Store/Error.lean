import ObjectCache.Signing.Error

namespace ObjectCache

inductive StoreError where
  | unauthorized (detail : String)
  | rateLimited
  | notFound (detail : String)
  | forbidden (detail : String)
  | conflict (detail : String)
  | network (detail : String)
  | server (status : UInt16) (detail : String)
  | timeout
  | request (detail : String)
  | malformed (detail : String)
  | signing (cause : SigningError)
deriving DecidableEq, Repr

inductive TransportFault where
  | timeout
  | connection
  | request
  | body
  | decoding
  | building
  | redirect
deriving DecidableEq, Repr

namespace StoreError

def message : StoreError → String
  | unauthorized detail => "Unauthorized: " ++ detail
  | rateLimited => "Rate limited, try again after backoff"
  | notFound detail => "Not found: " ++ detail
  | forbidden detail => "Forbidden: " ++ detail
  | conflict detail => "Conflict: " ++ detail
  | network detail => "Network error: " ++ detail
  | server status detail => "Server error (" ++ toString status.toNat ++ "): " ++ detail
  | timeout => "Request timeout"
  | request detail => "Request error: " ++ detail
  | malformed detail => "Malformed response: " ++ detail
  | signing cause => "Signing failed: " ++ cause.message

def isTransient : StoreError → Bool
  | rateLimited | timeout | network _ | server _ _ => true
  | _ => false

def errno : StoreError → Nat
  | unauthorized _ | forbidden _ => 13
  | rateLimited => 11
  | notFound _ => 2
  | conflict _ => 16
  | network _ | server _ _ | request _ | malformed _ => 5
  | timeout => 110
  | signing _ => 22

def ofStatus (status : UInt16) (detail : String) : StoreError :=
  if status = 401 then .unauthorized detail
  else if status = 403 then .forbidden detail
  else if status = 404 then .notFound detail
  else if status = 408 then .timeout
  else if status = 409 then .conflict detail
  else if status = 429 ∨ status = 503 then .rateLimited
  else if 500 ≤ status ∧ status ≤ 599 then .server status detail
  else .request ("HTTP " ++ toString status.toNat ++ ": " ++ detail)

def ofTransport (fault : TransportFault) (detail : String) : StoreError :=
  match fault with
  | .timeout => .timeout
  | .connection | .request | .body => .network detail
  | .decoding | .building | .redirect => .request detail

end StoreError

end ObjectCache
