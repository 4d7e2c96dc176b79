import ObjectCache.Http.Exchange
import ObjectCache.Listing.Page
import ObjectCache.Name
import ObjectCache.Store.Call
import ObjectCache.Store.Retry
import ObjectCache.Text.Lossy

namespace ObjectCache

open Http Signing

structure RemoteStore where
  signer : Signer
  maxRetries : UInt32

namespace RemoteStore

abbrev Attempt (α : Type) := Wire → Except StoreError α × Wire

def failureOf (path : String) (reply : Reply) : StoreError :=
  let body := Text.lossy (reply.body.getD .empty)
  .ofStatus reply.status (if body.isEmpty then path else body)

def send (s : RemoteStore) (method : Method) (url : Url) (fields : List (String × String))
    (body : ByteArray) (path : String) (clock : Time.Clock) : Attempt Reply := fun w =>
  let request := fields.foldl (fun r f => r.withField f.1 f.2) (SignableRequest.new method url)
  let signed := s.signer.signAt body (clock w.readings) request w.keys
  let w := { w with keys := signed.keys, readings := w.readings + 1 }
  match signed.failure with
  | some e => (.error (.signing e), w)
  | none =>
      match exchange w ⟨method, url, signed.request.fields, body⟩ with
      | (.error e, w) => (.error e, w)
      | (.ok reply, w) =>
          if reply.isSuccess then (.ok reply, w) else (.error (failureOf path reply), w)

def attempt {α : Type} (s : RemoteStore) (bucket key : String) (adapt : Url → Url)
    (method : Method) (fields : List (String × String)) (body : ByteArray) (path : String)
    (clock : Time.Clock) (read : Reply → Except StoreError α) : Attempt α := fun w =>
  match s.signer.objectUrl bucket key with
  | .error e => (.error (.signing e), w)
  | .ok url =>
      match s.send method (adapt url) fields body path clock w with
      | (.error e, w) => (.error e, w)
      | (.ok reply, w) => (read reply, w)

def readLength (path : String) (reply : Reply) : Except StoreError UInt64 :=
  match reply.length.bind Text.Numeral.word? with
  | some n => .ok n
  | none => .error (.malformed ("missing content-length for " ++ path))

def readBody (reply : Reply) : Except StoreError ByteArray :=
  match reply.body with
  | some body => .ok body
  | none => .error (.ofTransport .decoding "body broke off")

def readPage (reply : Reply) : Except StoreError Listing.Page := do
  let body ← readBody reply
  match Listing.Page.ofDocument? (Text.lossy body) with
  | some page => return page
  | none => throw (.malformed "listing cannot be read")

def plan (s : RemoteStore) (operation path : String) : Retry.Plan := ⟨operation, path, s.maxRetries⟩

def rangeText (offset length : UInt64) : String :=
  "bytes=" ++ toString offset.toNat ++ "-" ++ toString (offset + length - 1).toNat

def head (s : RemoteStore) (o : ObjectName) (clock : Time.Clock) (w : Wire) :
    Retry.Outcome Wire UInt64 :=
  Retry.run (s.plan "head" o.path)
    (s.attempt o.bucket o.key id .head [] .empty o.path clock (readLength o.path)) w

def getRange (s : RemoteStore) (o : ObjectName) (offset length : UInt64) (clock : Time.Clock)
    (w : Wire) : Retry.Outcome Wire ByteArray :=
  if length = 0 then ⟨.ok .empty, w, [], []⟩
  else
    Retry.run (s.plan "get_range" o.path)
      (s.attempt o.bucket o.key id .get [("range", rangeText offset length)] .empty o.path clock
        readBody) w

def put (s : RemoteStore) (o : ObjectName) (data : ByteArray) (clock : Time.Clock) (w : Wire) :
    Retry.Outcome Wire Unit :=
  Retry.run (s.plan "put" o.path)
    (s.attempt o.bucket o.key id .put [("content-type", "application/octet-stream")] data o.path
      clock fun _ => .ok ()) w

def delete (s : RemoteStore) (o : ObjectName) (clock : Time.Clock) (w : Wire) :
    Retry.Outcome Wire Unit :=
  Retry.run (s.plan "delete" o.path)
    (s.attempt o.bucket o.key id .delete [] .empty o.path clock fun _ => .ok ()) w

def pageParameters (name : ListingName) (token : Option String) : List (String × String) :=
  [("list-type", "2"), ("prefix", name.stem)] ++
    (if name.delimiter.isEmpty then [] else [("delimiter", name.delimiter)]) ++
    (match token with
      | some t => [("continuation-token", t)]
      | none => [])

def page (s : RemoteStore) (name : ListingName) (token : Option String) (clock : Time.Clock)
    (w : Wire) : Retry.Outcome Wire Listing.Page :=
  Retry.run (s.plan "list" name.bucket)
    (s.attempt name.bucket "" (·.withQuery (canonicalQuery (pageParameters name token))) .get []
      .empty name.bucket clock readPage) w

end RemoteStore

end ObjectCache
