import ObjectCache.Digest.Sha256
import ObjectCache.Signing.Fields
import ObjectCache.Text.Blank
import ObjectCache.Text.Hex
import ObjectCache.Text.Percent
import ObjectCache.Text.Token

namespace ObjectCache.Signing

open Text

def isUnreserved (c : Char) : Bool :=
  isLetter c || (48 ≤ c.toNat && c.toNat ≤ 57) || c == '-' || c == '_' || c == '.' || c == '~'

def encodeChars (cs : List Char) : List Char := Percent.encode isUnreserved cs

def encodeText (s : String) : String := String.ofList (encodeChars s.toList)

def decodeText (s : String) : String := (Percent.decodeText? s).getD s

def decodeChars (cs : List Char) : List Char := (decodeText (String.ofList cs)).toList

def onSegments (f : List Char → List Char) (cs : List Char) : List Char :=
  joined '/' ((pieces (· == '/') cs).map f)

def encodeKey (key : String) : String := String.ofList (onSegments encodeChars key.toList)

def canonicalPath (path : String) : String :=
  if path.isEmpty then "/"
  else String.ofList (onSegments (encodeChars ∘ decodeChars) path.toList)

def queryPair (piece : List Char) : String × String :=
  let name := piece.takeWhile (· != '=')
  let value := (piece.dropWhile (· != '=')).drop 1
  (decodeText (String.ofList name), decodeText (String.ofList value))

def parseQuery (query : String) : List (String × String) :=
  ((pieces (· == '&') query.toList).filter (!·.isEmpty)).map queryPair

def encodePair (p : String × String) : String × String := (encodeText p.1, encodeText p.2)

def pairLe (p q : String × String) : Bool :=
  p.1 < q.1 || (p.1 == q.1 && p.2 ≤ q.2)

def pairChars (p : String × String) : List Char := p.1.toList ++ '=' :: p.2.toList

def sortedPairs (pairs : List (String × String)) : List (String × String) :=
  (pairs.map encodePair).mergeSort pairLe

def canonicalQuery (pairs : List (String × String)) : String :=
  String.ofList (joined '&' ((sortedPairs pairs).map pairChars))

def hexSha256 (data : ByteArray) : String := Hex.encode (Digest.sha256 data)

def unsignedPayload : String := "UNSIGNED-PAYLOAD"

structure CanonicalRequest where
  method : String
  path : String
  query : String
  fields : Fields
  payloadHash : String

namespace CanonicalRequest

def signedNames (fields : Fields) : String := ";".intercalate fields.names

def fieldLine (e : String × String) : String := e.1 ++ ":" ++ collapse e.2 ++ "\n"

def fieldLines (fields : Fields) : String := String.join (fields.entries.map fieldLine)

def text (r : CanonicalRequest) : String :=
  r.method ++ "\n" ++ r.path ++ "\n" ++ r.query ++ "\n" ++ fieldLines r.fields ++ "\n" ++
    signedNames r.fields ++ "\n" ++ r.payloadHash

def hash (r : CanonicalRequest) : String := hexSha256 r.text.toUTF8

end CanonicalRequest

end ObjectCache.Signing
