import ObjectCache.Signing.Signer
import ObjectCache.Store.Error

namespace ObjectCache.Http

open Signing

structure Request where
  method : Method
  url : Url
  fields : Fields
  body : ByteArray

/-- `length` is the length that the reply announces; a body that breaks off is absent. -/
structure Reply where
  status : UInt16
  length : Option String
  body : Option ByteArray

def Reply.isSuccess (r : Reply) : Bool := 200 ≤ r.status && r.status < 300

inductive Delivery where
  | answered (reply : Reply)
  | closed
  | hanging

/-- The deliveries to come, in order. After them nobody can be reached, so that nothing is sent. The
clock is read once for each signature, and `readings` counts how often it was. -/
structure Wire where
  deliveries : List Delivery
  sent : List Request
  keys : KeyCache
  readings : Nat

namespace Wire

def unreachable : Wire := ⟨[], [], .empty, 0⟩

end Wire

def isFieldChar (c : Char) : Bool := (32 ≤ c.toNat && c.toNat ≠ 127) || c == '\t'

def isAddressChar (c : Char) : Bool :=
  Text.isLetter c || Text.Numeral.isDigit c || "!$&'()*+,-.:;=[]_~".toList.contains c

def longestAddress : Nat := 65534

def isAddress (u : Url) : Bool :=
  (u.scheme == "http" || u.scheme == "https") && u.text.utf8ByteSize ≤ longestAddress &&
    ((u.hostAndPort?).getD "").toList.all isAddressChar

def Request.isSendable (r : Request) : Bool :=
  isAddress r.url &&
    r.fields.entries.all fun e => e.1 == "host" || e.2.toList.all isFieldChar

def exchange (w : Wire) (r : Request) : Except StoreError Reply × Wire :=
  if !r.isSendable then (.error (.ofTransport .building "request cannot be built"), w)
  else
    match w.deliveries with
    | [] => (.error (.ofTransport .connection "no connection"), w)
    | d :: rest =>
        let w := { w with deliveries := rest, sent := w.sent ++ [r] }
        match d with
        | .answered reply => (.ok reply, w)
        | .closed => (.error (.ofTransport .request "connection closed"), w)
        | .hanging => (.error (.ofTransport .timeout "no answer"), w)

theorem length_le_of_exchange {w v : Wire} {r : Request} {result : Except StoreError Reply}
    (h : exchange w r = (result, v)) : v.deliveries.length ≤ w.deliveries.length := by
  unfold exchange at h
  split at h
  · cases h
    exact Nat.le_refl _
  · obtain ⟨ds, sent, keys, readings⟩ := w
    cases ds with
    | nil =>
        cases h
        exact Nat.le_refl _
    | cons d rest => cases d <;> cases h <;> simp

theorem length_lt_of_exchange_ok {w v : Wire} {r : Request} {reply : Reply}
    (h : exchange w r = (.ok reply, v)) : v.deliveries.length < w.deliveries.length := by
  unfold exchange at h
  split at h
  · cases h
  · obtain ⟨ds, sent, keys, readings⟩ := w
    cases ds with
    | nil => cases h
    | cons d rest =>
        cases d <;> cases h
        simp

end ObjectCache.Http
