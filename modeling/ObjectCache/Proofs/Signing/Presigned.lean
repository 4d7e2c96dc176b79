import ObjectCache.Proofs.Signing.Verification
import ObjectCache.Proofs.Url.Parse

namespace ObjectCache

open Signing Text

namespace Signing

structure Presigned where
  scheme : String
  host : String
  path : String
  query : String

namespace Presigned

def ofText? (text : String) : Option Presigned :=
  match Url.cutAt (· == ':') text.toList with
  | (scheme, some ('/' :: '/' :: rest)) =>
      match Url.cutAt (· == '?') (rest.dropWhile (· != '/')) with
      | (path, some query) =>
          some ⟨String.ofList scheme, String.ofList (rest.takeWhile (· != '/')),
            String.ofList path, String.ofList query⟩
      | (_, none) => none
  | _ => none

def values (p : Presigned) (name : String) : List String :=
  ((parseQuery p.query).filter (·.1 == name)).map (·.2)

def isSignature (parameter : List Char) : Bool := (queryPair parameter).1 == "X-Amz-Signature"

def unsignedQuery (p : Presigned) : String :=
  String.ofList (joined '&' ((parameters p.query.toList).filter (!isSignature ·)))

def canonical (p : Presigned) (method : Method) : CanonicalRequest :=
  ⟨method.name, canonicalPath p.path, canonicalQuery (parseQuery p.unsignedQuery),
    Fields.empty.insert "host" p.host, "UNSIGNED-PAYLOAD"⟩

/-- The signature that a presigned URL should carry for a method. -/
def expected? (p : Presigned) (method : Method) (scope : KeyScope) : Option String :=
  match p.values "X-Amz-Date" with
  | [stamp] => some (scope.signature (p.canonical method) stamp)
  | _ => none

theorem ofText?_eq {scheme host path query : String} {cs : List Char}
    (hscheme : ':' ∉ scheme.toList) (hhost : '/' ∉ host.toList)
    (hpath : path.toList = '/' :: cs) (hmark : '?' ∉ path.toList) :
    ofText? (scheme ++ "://" ++ host ++ path ++ "?" ++ query) =
      some ⟨scheme, host, path, query⟩ := by
  have hplace : path.toList ++ '?' :: query.toList = '/' :: (cs ++ '?' :: query.toList) := by
    rw [hpath, List.cons_append]
  have htext : (scheme ++ "://" ++ host ++ path ++ "?" ++ query).toList =
      scheme.toList ++ ':' :: ('/' :: '/' ::
        (host.toList ++ (path.toList ++ '?' :: query.toList))) := by
    simp
  rw [ofText?, htext, Url.cutAt_append_cons hscheme, hplace]
  simp only [takeWhile_append_cons hhost, dropWhile_append_cons hhost]
  rw [← hplace, Url.cutAt_append_cons hmark]
  simp only [String.ofList_toList]

def signedQuery (pairs : List (String × String)) (signature : String) : String :=
  canonicalQuery pairs ++ "&X-Amz-Signature=" ++ signature

variable {pairs : List (String × String)} {signature : String}

end Presigned

end Signing

namespace Signer

section

variable (s : Signer) (method : Method) (url : Url) (host : String) (expiry : UInt64)
  (now : Time.Instant)

def presignedRequest : CanonicalRequest :=
  ⟨method.name, canonicalPath url.path, canonicalQuery (s.presignParameters expiry now),
    Fields.empty.insert "host" host, unsignedPayload⟩

def presignedSignature : String :=
  s.keyScope.signature (s.presignedRequest method url host expiry now) now.stampText

def presigned : Presigned where
  scheme := url.scheme
  host := host
  path := canonicalPath url.path
  query := Presigned.signedQuery (s.presignParameters expiry now)
    (s.presignedSignature method url host expiry now)

end

variable {s : Signer} {method : Method} {bucket key host : String} {expiry : UInt64}
  {now : Time.Instant} {keys : KeyCache} {url : Url}

end Signer

end ObjectCache
