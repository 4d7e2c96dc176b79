import ObjectCache.Proofs.Signing.Keys
import ObjectCache.Proofs.Signing.RequestText
import ObjectCache.Proofs.Text.Digits

namespace ObjectCache

open Signing Text

namespace Time.Instant

theorem notMem_dateChars (now : Time.Instant) : 'T' ∉ now.dateChars := by
  have hpadded : ∀ width n, 'T' ∉ Numeral.padded width n := by
    intro width n h
    cases isDigit_of_mem_padded h
  intro h
  rw [dateChars, List.mem_append, List.mem_append, yearText] at h
  rcases h with (h | h) | h
  · split at h
    · exact hpadded _ _ h
    · rcases List.mem_cons.1 h with h | h
      · split at h
        · cases h
        · cases h
      · exact hpadded _ _ h
  · exact hpadded _ _ h
  · exact hpadded _ _ h

end Time.Instant

namespace Signing

def stampDate (stamp : String) : String := String.ofList (stamp.toList.takeWhile (· != 'T'))

theorem stampDate_stampText (now : Time.Instant) : stampDate now.stampText = now.dateText := by
  rw [stampDate, Time.Instant.stampText, String.toList_ofList, List.append_assoc, List.cons_append,
    takeWhile_append_cons now.notMem_dateChars, Time.Instant.dateText]

def KeyScope.signature (scope : KeyScope) (request : CanonicalRequest) (stamp : String) : String :=
  let date := stampDate stamp
  let place := date ++ "/" ++ scope.region ++ "/" ++ scope.service ++ "/" ++ "aws4_request"
  let text := "AWS4-HMAC-SHA256" ++ "\n" ++ stamp ++ "\n" ++ place ++ "\n" ++ request.hash
  Hex.encode (Digest.hmacSha256 (deriveKey scope.secret date scope.region scope.service) text.toUTF8)

theorem KeyCache.Reached.signature {keys : KeyCache} (h : keys.Reached) (s : Signer)
    (request : CanonicalRequest) (now : Time.Instant) :
    (s.signature request now keys).1 = s.keyScope.signature request now.stampText := by
  have hkey := h.genuine.signingKey_fst s.keyScope now.dateText
  change s.signatureWith (keys.signingKey s.keyScope now.dateText).1 request now = _
  rw [hkey, KeyScope.signature, stampDate_stampText]
  rfl

theorem notMem_signature {scope : KeyScope} {request : CanonicalRequest} {stamp : String}
    {c : Char} (hc : c ∉ "0123456789abcdef".toList) :
    c ∉ (scope.signature request stamp).toList :=
  fun h => hc (Hex.mem_encode h)

structure Authorization where
  credential : String
  names : List String
  signature : String

def Authorization.ofText? (text : String) : Option Authorization :=
  match (pieces (· == ',') text.toList).reverse with
  | last :: before :: front => do
      let signature ← last.dropPrefix? " Signature=".toList
      let names ← before.dropPrefix? " SignedHeaders=".toList
      let credential ←
        (joined ',' front.reverse).dropPrefix? "AWS4-HMAC-SHA256 Credential=".toList
      some ⟨String.ofList credential, (pieces (· == ';') names).map String.ofList,
        String.ofList signature⟩
  | _ => none

theorem dropPrefix?_append (as bs : List Char) : (as ++ bs).dropPrefix? as = some bs :=
  List.dropPrefix?_eq_some_iff.2 ⟨as, rfl, by simp⟩

theorem Authorization.ofText?_eq {credential names signature : String}
    (hnames : ',' ∉ names.toList) (hsignature : ',' ∉ signature.toList) :
    ofText? ("AWS4-HMAC-SHA256" ++ " Credential=" ++ credential ++ ", SignedHeaders=" ++ names ++
        ", Signature=" ++ signature) =
      some ⟨credential, (pieces (· == ';') names.toList).map String.ofList, signature⟩ := by
  have htext : ("AWS4-HMAC-SHA256" ++ " Credential=" ++ credential ++ ", SignedHeaders=" ++ names ++
      ", Signature=" ++ signature).toList =
      ("AWS4-HMAC-SHA256 Credential=".toList ++ credential.toList) ++ ',' ::
        ((" SignedHeaders=".toList ++ names.toList) ++ ',' ::
          (" Signature=".toList ++ signature.toList)) := by
    simp
  have hbefore : ',' ∉ " SignedHeaders=".toList ++ names.toList := by
    rw [List.mem_append, not_or]
    exact ⟨by decide, hnames⟩
  have hlast : ',' ∉ " Signature=".toList ++ signature.toList := by
    rw [List.mem_append, not_or]
    exact ⟨by decide, hsignature⟩
  have hfront : ∀ front before last : List Char,
      (pieces (· == ',') front ++ ([before] ++ [last])).reverse =
        last :: before :: (pieces (· == ',') front).reverse := by
    simp
  -- the last two commas are the text's own, since neither part after them holds one
  rw [ofText?, htext, pieces_append, pieces_append, pieces_of_notMem hbefore,
    pieces_of_notMem hlast, hfront]
  simp only [dropPrefix?_append, List.reverse_reverse, joined_pieces, Option.bind_eq_bind,
    Option.bind_some, String.ofList_toList]

end Signing

namespace Signer

variable {s : Signer} {payload : ByteArray} {now : Time.Instant} {r : SignableRequest}
  {keys : KeyCache} {host payloadHash : String}

theorem get?_signedFields (s : Signer) (fields : Fields) (host payloadHash : String)
    (now : Time.Instant) (name : String) :
    (s.signedFields fields host payloadHash now).get? name =
      if name = "x-amz-security-token" ∧ s.credentials.token.isSome then s.credentials.token
      else if name = "x-amz-content-sha256" then some payloadHash
      else if name = "x-amz-date" then some now.stampText
      else if name = "host" then some host
      else if name = "authorization" then none
      else fields.get? name := by
  rw [signedFields]
  cases s.credentials.token <;> simp

def ownNames (s : Signer) : List String :=
  ["authorization", "host", "x-amz-date", "x-amz-content-sha256"] ++
    if s.credentials.token.isSome then ["x-amz-security-token"] else []

theorem isToken_of_mem_ownNames (s : Signer) : ∀ name ∈ s.ownNames, isToken name = true := by
  rw [ownNames]
  split
  · decide
  · decide

theorem get?_signedFields_of_other (fields : Fields) {name : String} (h : name ∉ s.ownNames) :
    (s.signedFields fields host payloadHash now).get? name = fields.get? name := by
  rw [get?_signedFields]
  rw [ownNames] at h
  split at h
  · simp_all
  · simp_all

theorem get?_signAt (payload : ByteArray) (now : Time.Instant) (r : SignableRequest)
    (keys : KeyCache) {name : String} (hname : name ∉ s.ownNames) :
    (s.signAt payload now r keys).request.fields.get? name = r.fields.get? name := by
  have hne : name ≠ "authorization" := by
    rintro rfl
    exact hname (by simp [ownNames])
  simp only [signAt]
  split
  · rfl
  · split
    · rfl
    · rw [Fields.get?_insert, if_neg hne, get?_signedFields_of_other _ hname]

theorem isToken_of_mem_signedFields {fields : Fields}
    (h : ∀ name ∈ fields.names, isToken name = true) :
    ∀ name ∈ (s.signedFields fields host payloadHash now).names, isToken name = true := by
  intro name hname
  by_cases hown : name ∈ s.ownNames
  · exact s.isToken_of_mem_ownNames name hown
  · rw [Fields.mem_names_iff, get?_signedFields_of_other fields hown, ← Fields.mem_names_iff]
      at hname
    exact h name hname

theorem names_ne_nil (fields : Fields) :
    (s.signedFields fields host payloadHash now).names ≠ [] := by
  have hhost : "host" ∈ (s.signedFields fields host payloadHash now).names := by
    rw [Fields.mem_names_iff, get?_signedFields]
    simp
  exact List.ne_nil_of_mem hhost

def ownSignature (s : Signer) (payload : ByteArray) (now : Time.Instant) (r : SignableRequest)
    (host : String) : String :=
  s.keyScope.signature (canonical r (s.signedFields r.fields host (hexSha256 payload) now)
    (hexSha256 payload)) now.stampText

def signedRequest (s : Signer) (payload : ByteArray) (now : Time.Instant) (r : SignableRequest)
    (host : String) : SignableRequest :=
  let fields := s.signedFields r.fields host (hexSha256 payload) now
  let text := s.authorization (CanonicalRequest.signedNames fields)
    (s.ownSignature payload now r host) now
  { r with fields := fields.insert "authorization" text }

theorem signAt_of_host (payload : ByteArray) (now : Time.Instant) (hkeys : keys.Reached)
    (hcomplete : s.credentials.isComplete = true)
    (hhost : r.url.hostAndPort? = some host) :
    (s.signAt payload now r keys).request = s.signedRequest payload now r host ∧
      (s.signAt payload now r keys).failure = none := by
  simp [signAt, hcomplete, hhost, signedRequest, ownSignature, hkeys.signature]

theorem erase_signedRequest (s : Signer) (payload : ByteArray) (now : Time.Instant)
    (r : SignableRequest) (host : String) :
    (s.signedRequest payload now r host).fields.erase "authorization" =
      s.signedFields r.fields host (hexSha256 payload) now := by
  apply Fields.erase_insert_of_missing
  rw [get?_signedFields]
  simp

end Signer

namespace Signing

/-- The signature that a request as it was sent should carry. -/
def KeyScope.expected? (scope : KeyScope) (sent : SignableRequest) (payload : ByteArray) :
    Option String :=
  let remaining := sent.fields.erase "authorization"
  (remaining.get? "x-amz-date").map
    (scope.signature (Signer.canonical sent remaining (hexSha256 payload)))

end Signing

namespace Signer

theorem ofText?_authorization (s : Signer) {fields : Fields} {signature : String}
    (now : Time.Instant) (hne : fields.names ≠ [])
    (hnames : ∀ name ∈ fields.names, isToken name = true) (hsignature : ',' ∉ signature.toList) :
    Authorization.ofText? (s.authorization (CanonicalRequest.signedNames fields) signature now) =
      some ⟨s.credentials.id ++ "/" ++ s.scope now.dateText, fields.names, signature⟩ := by
  have hcomma : ',' ∉ (CanonicalRequest.signedNames fields).toList :=
    CanonicalRequest.notMem_signedNames (by decide) (by decide) hnames
  have hpieces : (pieces (· == ';') (CanonicalRequest.signedNames fields).toList).map
      String.ofList = fields.names := by
    rw [CanonicalRequest.toList_signedNames, pieces_joined_of_notMem (by simpa using hne)]
    · simp [Function.comp_def]
    · intro p hp
      obtain ⟨name, hname, rfl⟩ := List.mem_map.1 hp
      exact notMem_of_isToken (hnames name hname) (by decide)
  have htext : s.authorization (CanonicalRequest.signedNames fields) signature now =
      "AWS4-HMAC-SHA256" ++ " Credential=" ++ (s.credentials.id ++ "/" ++ s.scope now.dateText) ++
        ", SignedHeaders=" ++ CanonicalRequest.signedNames fields ++ ", Signature=" ++
          signature := by
    simp [authorization, algorithm, String.append_assoc]
  rw [htext, Authorization.ofText?_eq hcomma hsignature, hpieces]

theorem authorization_signedRequest (s : Signer) (payload : ByteArray) (now : Time.Instant)
    (host : String) (hnames : ∀ name ∈ r.fields.names, isToken name = true) :
    (s.signedRequest payload now r host).authorization.bind Authorization.ofText? =
      some ⟨s.credentials.id ++ "/" ++ s.scope now.dateText,
        (s.signedFields r.fields host (hexSha256 payload) now).names,
        s.ownSignature payload now r host⟩ := by
  have hcomma : ',' ∉ (s.ownSignature payload now r host).toList := notMem_signature (by decide)
  rw [signedRequest, SignableRequest.authorization, Fields.get?_insert, if_pos rfl,
    Option.bind_some]
  exact s.ofText?_authorization now (names_ne_nil r.fields)
    (isToken_of_mem_signedFields hnames) hcomma

theorem expected?_signedRequest (s : Signer) (payload : ByteArray) (now : Time.Instant)
    (r : SignableRequest) (host : String) :
    s.keyScope.expected? (s.signedRequest payload now r host) payload =
      some (s.ownSignature payload now r host) := by
  rw [KeyScope.expected?, erase_signedRequest, get?_signedFields]
  simp [ownSignature, canonical, signedRequest]

/-- Whoever shares the secret and gets the request as it was signed finds in it the signature that
they work out themselves, over exactly the fields that it names, whatever the cache of keys was
used for before. -/
theorem signed_request_verifies (s : Signer) (payload : ByteArray) (now : Time.Instant)
    (r : SignableRequest) (keys : KeyCache) (host : String) (hkeys : keys.Reached)
    (hcomplete : s.credentials.isComplete = true) (hhost : r.url.hostAndPort? = some host)
    (hnames : ∀ name ∈ r.fields.names, isToken name = true) :
    let attempt := s.signAt payload now r keys
    let signed := attempt.request
    let remaining := signed.fields.erase "authorization"
    attempt.failure = none ∧ signed.method = r.method ∧ signed.url = r.url ∧
      (∃ a, signed.authorization.bind Authorization.ofText? = some a ∧
        s.keyScope.expected? signed payload = some a.signature ∧
        a.names = remaining.names ∧
        a.credential = s.credentials.id ++ "/" ++ stampDate now.stampText ++ "/" ++ s.region ++
          "/" ++ s.service ++ "/" ++ "aws4_request") ∧
      remaining.names.Pairwise (· < ·) ∧
      remaining.get? "host" = some host ∧
      remaining.get? "x-amz-date" = some now.stampText ∧
      remaining.get? "x-amz-content-sha256" = some (hexSha256 payload) ∧
      (s.credentials.token.isSome →
        remaining.get? "x-amz-security-token" = s.credentials.token) ∧
      ∀ name, name ∉ s.ownNames → signed.fields.get? name = r.fields.get? name := by
  intro attempt signed remaining
  obtain ⟨hsigned, hfailure⟩ := signAt_of_host payload now hkeys hcomplete hhost
  have hremaining : remaining = s.signedFields r.fields host (hexSha256 payload) now := by
    simp only [remaining, signed, attempt, hsigned]
    exact s.erase_signedRequest payload now r host
  have hget := s.get?_signedFields r.fields host (hexSha256 payload) now
  refine ⟨hfailure, ?_, ?_, ?_, remaining.sorted_names, ?_, ?_, ?_, ?_, ?_⟩
  · simp only [signed, attempt, hsigned, signedRequest]
  · simp only [signed, attempt, hsigned, signedRequest]
  · simp only [signed, attempt, hsigned]
    refine ⟨_, s.authorization_signedRequest payload now host hnames,
      s.expected?_signedRequest payload now r host, by rw [hremaining], ?_⟩
    simp [scope, scopeEnd, stampDate_stampText, String.append_assoc]
  · rw [hremaining, hget]
    simp
  · rw [hremaining, hget]
    simp
  · rw [hremaining, hget]
    simp
  · intro htoken
    rw [hremaining, hget]
    simp [htoken]
  · intro name hname
    simp only [signed, attempt, hsigned, signedRequest]
    have hne : name ≠ "authorization" := by
      rintro rfl
      exact hname (by simp [ownNames])
    rw [Fields.get?_insert, if_neg hne, get?_signedFields_of_other r.fields hname]

theorem request_signed_after_another_verifies :
    let s : Signer := ⟨⟨"id", "secret", some "token"⟩, "eu-west-1", "s3", "", .path⟩
    let other : Signer := ⟨⟨"id", "secret", none⟩, "us-east-1", "s3", "", .path⟩
    let url : Url := ⟨"https", some ⟨"", "", .name "h", some 9000⟩, "/b/k", some "x=1", none⟩
    let r : SignableRequest := ⟨.get, url, .ofList [("authorization", "old"), ("range", "bytes=0-9")]⟩
    let keys := (other.signAt .empty .epoch r .empty).keys
    let signed := (s.signAt .empty .epoch r keys).request
    keys.Reached ∧ s.credentials.isComplete = true ∧ r.url.hostAndPort? = some "h:9000" ∧
      (∀ name ∈ r.fields.names, isToken name = true) ∧
      ∃ a, signed.authorization.bind Authorization.ofText? = some a ∧
        s.keyScope.expected? signed .empty = some a.signature := by
  intro s other url r keys signed
  have hkeys : keys.Reached := KeyCache.Reached.empty.signAt other .empty .epoch r
  have hcomplete : s.credentials.isComplete = true := by decide
  have hhost : r.url.hostAndPort? = some "h:9000" := by decide +kernel
  have hnames : ∀ name ∈ r.fields.names, isToken name = true := by decide +kernel
  have hverifies := signed_request_verifies s .empty .epoch r keys "h:9000" hkeys hcomplete hhost
    hnames
  obtain ⟨a, hread, hexpected, _⟩ := hverifies.2.2.2.1
  exact ⟨hkeys, hcomplete, hhost, hnames, a, hread, hexpected⟩

end Signer

end ObjectCache
