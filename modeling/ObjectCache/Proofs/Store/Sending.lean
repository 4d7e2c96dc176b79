import ObjectCache.Http.Exchange
import ObjectCache.Proofs.Signing.Verification

namespace ObjectCache

open Signing Text

namespace Http

def isFieldText (text : String) : Bool := text.toList.all isFieldChar

theorem isFieldText_append (as bs : String) :
    isFieldText (as ++ bs) = (isFieldText as && isFieldText bs) := by
  rw [isFieldText, String.toList_append, List.all_append]
  rfl

theorem isFieldChar_of_isTokenChar {c : Char} (h : isTokenChar c = true) :
    isFieldChar c = true := by
  have hmarks : ∀ c ∈ "!#$%&'*+-.^_`|~".toList, isFieldChar c = true :=
    List.all_eq_true.1 (by decide)
  simp only [isTokenChar, Bool.or_eq_true, List.contains_iff_mem] at h
  rcases h with (h | h) | h
  · simp only [isLetter, Bool.or_eq_true, Bool.and_eq_true, decide_eq_true_eq] at h
    simp only [isFieldChar, Bool.or_eq_true, Bool.and_eq_true, decide_eq_true_eq]
    omega
  · simp only [Bool.and_eq_true, decide_eq_true_eq] at h
    simp only [isFieldChar, Bool.or_eq_true, Bool.and_eq_true, decide_eq_true_eq]
    omega
  · exact hmarks c h

theorem isFieldText_hex (bytes : ByteArray) : isFieldText (Hex.encode bytes) = true := by
  have hdigits : ∀ c ∈ "0123456789abcdef".toList, isFieldChar c = true :=
    List.all_eq_true.1 (by decide)
  exact List.all_eq_true.2 fun c hc => hdigits c (Hex.mem_encode hc)

theorem isFieldText_signedNames {fields : Fields} (h : ∀ name ∈ fields.names, isToken name = true) :
    isFieldText (CanonicalRequest.signedNames fields) = true := by
  rw [isFieldText, CanonicalRequest.toList_signedNames, List.all_eq_true]
  intro c hc
  rcases mem_joined hc with rfl | ⟨p, hp, hc⟩
  · decide
  · obtain ⟨name, hname, rfl⟩ := List.mem_map.1 hp
    have htoken := h name hname
    rw [isToken, Bool.and_eq_true, List.all_eq_true] at htoken
    exact isFieldChar_of_isTokenChar (htoken.2 c hc)

end Http

namespace Signer

open Http

structure IsPlain (s : Signer) (now : Time.Instant) : Prop where
  complete : s.credentials.isComplete = true
  id : isFieldText s.credentials.id = true
  token : isFieldText (s.credentials.token.getD "") = true
  scope : isFieldText (s.scope now.dateText) = true
  stamp : isFieldText now.stampText = true

variable {s : Signer} {now : Time.Instant} {r : SignableRequest} {host : String} {keys : KeyCache}

theorem IsPlain.authorization (h : s.IsPlain now) {names signature : String}
    (hnames : isFieldText names = true) (hsignature : isFieldText signature = true) :
    isFieldText (s.authorization names signature now) = true := by
  have hmarks : ∀ text ∈ [algorithm, " Credential=", "/", ", SignedHeaders=", ", Signature="],
      isFieldText text = true := by
    decide
  simp only [List.mem_cons, List.not_mem_nil, or_false, forall_eq_or_imp, forall_eq] at hmarks
  simp only [Signer.authorization, isFieldText_append, hmarks, h.id, h.scope, hnames, hsignature,
    Bool.and_true]

theorem IsPlain.signedFields (h : s.IsPlain now) {payload : ByteArray} {name value : String}
    (hfields : ∀ e ∈ r.fields.entries, isFieldText e.2 = true)
    (hvalue : (s.signedFields r.fields host (hexSha256 payload) now).get? name = some value) :
    name = "host" ∨ isFieldText value = true := by
  rw [get?_signedFields] at hvalue
  split at hvalue
  · have htoken := h.token
    rw [hvalue] at htoken
    exact .inr htoken
  · split at hvalue
    · cases hvalue
      exact .inr (isFieldText_hex _)
    · split at hvalue
      · cases hvalue
        exact .inr h.stamp
      · split at hvalue
        · rename_i hname
          exact .inl hname
        · split at hvalue
          · cases hvalue
          · exact .inr (hfields _ ((Fields.get?_eq_some_iff _ _ _).1 hvalue))

theorem IsPlain.isSendable (h : s.IsPlain now) (payload : ByteArray)
    (hhost : r.url.hostAndPort? = some host)
    (haddress : isAddress r.url = true) (hnames : ∀ name ∈ r.fields.names, isToken name = true)
    (hfields : ∀ e ∈ r.fields.entries, isFieldText e.2 = true) (keys : KeyCache) :
    let signed := s.signAt payload now r keys
    signed.failure = none ∧
      Request.isSendable ⟨r.method, r.url, signed.request.fields, payload⟩ = true := by
  simp only [signAt, h.complete, hhost]
  refine ⟨rfl, ?_⟩
  simp only [Request.isSendable, Bool.not_true, Bool.false_eq_true, if_false, haddress,
    Bool.true_and, List.all_eq_true]
  rintro ⟨name, value⟩ he
  rw [← Fields.get?_eq_some_iff, Fields.get?_insert] at he
  rw [Bool.or_eq_true]
  split at he
  · cases he
    exact .inr (h.authorization (isFieldText_signedNames (isToken_of_mem_signedFields hnames))
      (isFieldText_hex _))
  · rcases h.signedFields hfields he with rfl | hvalue
    · exact .inl rfl
    · exact .inr hvalue

end Signer

end ObjectCache
