import ObjectCache.Signing.Canonical
import ObjectCache.Signing.Credentials
import ObjectCache.Signing.Error
import ObjectCache.Signing.Key
import ObjectCache.Time.Instant
import ObjectCache.Url.Parse

namespace ObjectCache

open Signing Text

inductive Addressing where
  | path
  | virtualHosted
deriving DecidableEq, Repr

structure Method where
  name : String
  valid : isToken name = true

namespace Method

def ofName? (name : String) : Option Method :=
  if h : isToken name = true then some ⟨name, h⟩ else none

def get : Method := ⟨"GET", by decide⟩
def head : Method := ⟨"HEAD", by decide⟩
def put : Method := ⟨"PUT", by decide⟩
def delete : Method := ⟨"DELETE", by decide⟩

end Method

structure SignableRequest where
  method : Method
  url : Url
  fields : Fields

namespace SignableRequest

def new (method : Method) (url : Url) : SignableRequest := ⟨method, url, .empty⟩

def withField (r : SignableRequest) (name value : String) : SignableRequest :=
  { r with fields := r.fields.insert (lower name) value }

def authorization (r : SignableRequest) : Option String := r.fields.get? "authorization"

end SignableRequest

structure Signer where
  credentials : Credentials
  region : String
  service : String
  endpoint : String
  addressing : Addressing

namespace Signer

def defaultRegion : String := "us-east-1"

def defaultService : String := "s3"

def algorithm : String := "AWS4-HMAC-SHA256"

def longestExpiry : UInt64 := 604800

def dropLastSlashes (cs : List Char) : List Char := (cs.reverse.dropWhile (· == '/')).reverse

def withoutLastSlashes (s : String) : String := String.ofList (dropLastSlashes s.toList)

def new (credentials : Credentials) (region : String) : Signer :=
  ⟨credentials, region, defaultService, "", .path⟩

def withEndpoint (s : Signer) (endpoint : String) (addressing : Addressing) : Signer :=
  { s with endpoint := withoutLastSlashes endpoint, addressing }

def withService (s : Signer) (service : String) : Signer := { s with service }

def objectText (addressing : Addressing) (base : Url) (host bucket key : String) : String :=
  let key := encodeKey key
  match addressing with
  | .path =>
      let path := withoutLastSlashes base.path ++ "/" ++ bucket
      base.scheme ++ "://" ++ host ++ (if key.isEmpty then path else path ++ "/" ++ key)
  | .virtualHosted => base.scheme ++ "://" ++ bucket ++ "." ++ host ++ "/" ++ key

def objectUrl (s : Signer) (bucket key : String) : Except SigningError Url :=
  if s.endpoint.isEmpty then .error .missingHost
  else
    match Url.parse? s.endpoint with
    | none => .error (.invalidEndpoint s.endpoint)
    | some base =>
        match base.hostAndPort? with
        | none => .error .missingHost
        | some host =>
            let text := objectText s.addressing base host bucket key
            match Url.parse? text with
            | none => .error (.invalidEndpoint text)
            | some url => .ok url

def scope (s : Signer) (date : String) : String :=
  date ++ "/" ++ s.region ++ "/" ++ s.service ++ "/" ++ scopeEnd

def keyScope (s : Signer) : KeyScope := ⟨s.credentials.secret, s.region, s.service⟩

def stringToSign (s : Signer) (request : CanonicalRequest) (now : Time.Instant) : String :=
  algorithm ++ "\n" ++ now.stampText ++ "\n" ++ s.scope now.dateText ++ "\n" ++ request.hash

def signatureWith (s : Signer) (key : ByteArray) (request : CanonicalRequest)
    (now : Time.Instant) : String :=
  Hex.encode (Digest.hmacSha256 key (s.stringToSign request now).toUTF8)

def signature (s : Signer) (request : CanonicalRequest) (now : Time.Instant) (keys : KeyCache) :
    String × KeyCache :=
  let (key, keys) := keys.signingKey s.keyScope now.dateText
  (s.signatureWith key request now, keys)

def canonical (r : SignableRequest) (fields : Fields) (payloadHash : String) : CanonicalRequest where
  method := r.method.name
  path := canonicalPath r.url.path
  query := canonicalQuery (parseQuery (r.url.query.getD ""))
  fields := fields
  payloadHash := payloadHash

def signedFields (s : Signer) (fields : Fields) (host payloadHash : String) (now : Time.Instant) :
    Fields :=
  let fields := (((fields.erase "authorization").insert "host" host).insert "x-amz-date"
    now.stampText).insert "x-amz-content-sha256" payloadHash
  match s.credentials.token with
  | some token => fields.insert "x-amz-security-token" token
  | none => fields

def authorization (s : Signer) (names signature : String) (now : Time.Instant) : String :=
  algorithm ++ " Credential=" ++ s.credentials.id ++ "/" ++ s.scope now.dateText ++
    ", SignedHeaders=" ++ names ++ ", Signature=" ++ signature

structure Attempt where
  request : SignableRequest
  keys : KeyCache
  failure : Option SigningError

def signAt (s : Signer) (payload : ByteArray) (now : Time.Instant) (r : SignableRequest)
    (keys : KeyCache) : Attempt :=
  if !s.credentials.isComplete then ⟨r, keys, some .missingCredentials⟩
  else
    match r.url.hostAndPort? with
    | none => ⟨r, keys, some .missingHost⟩
    | some host =>
        let payloadHash := hexSha256 payload
        let fields := s.signedFields r.fields host payloadHash now
        let (signature, keys) := s.signature (canonical r fields payloadHash) now keys
        let text := s.authorization (CanonicalRequest.signedNames fields) signature now
        ⟨{ r with fields := fields.insert "authorization" text }, keys, none⟩

def presignParameters (s : Signer) (expiry : UInt64) (now : Time.Instant) :
    List (String × String) :=
  [("X-Amz-Algorithm", algorithm),
    ("X-Amz-Credential", s.credentials.id ++ "/" ++ s.scope now.dateText),
    ("X-Amz-Date", now.stampText),
    ("X-Amz-Expires", toString (max 1 (min expiry longestExpiry)).toNat)] ++
  (match s.credentials.token with
    | some token => [("X-Amz-Security-Token", token)]
    | none => []) ++
  [("X-Amz-SignedHeaders", "host")]

def presignAt (s : Signer) (method : Method) (bucket key : String) (expiry : UInt64)
    (now : Time.Instant) (keys : KeyCache) : Except SigningError String × KeyCache :=
  if !s.credentials.isComplete then (.error .missingCredentials, keys)
  else
    match s.objectUrl bucket key with
    | .error e => (.error e, keys)
    | .ok url =>
        match url.hostAndPort? with
        | none => (.error .missingHost, keys)
        | some host =>
            let path := canonicalPath url.path
            let query := canonicalQuery (s.presignParameters expiry now)
            let request : CanonicalRequest :=
              ⟨method.name, path, query, Fields.empty.insert "host" host, unsignedPayload⟩
            let (signature, keys) := s.signature request now keys
            (.ok (url.scheme ++ "://" ++ host ++ path ++ "?" ++ query ++ "&X-Amz-Signature=" ++
              signature), keys)

end Signer

end ObjectCache
