import Mathlib.Data.List.Induction
import ObjectCache.Proofs.Signing.KeyReuse
import ObjectCache.Proofs.Signing.Verification

namespace ObjectCache.Signer

open Signing Text

variable {s : Signer} {q r : SignableRequest} {keys others : KeyCache} {e : SigningError}

def refusal? (s : Signer) (url : Url) : Option SigningError :=
  if s.credentials.isComplete = false then some .missingCredentials
  else if url.hostAndPort? = none then some .missingHost
  else none

theorem exists_host_of_refusal? {url : Url} (h : s.refusal? url = none) :
    s.credentials.isComplete = true ∧ ∃ host, url.hostAndPort? = some host := by
  rw [refusal?] at h
  split at h
  · cases h
  · rename_i hcomplete
    split at h
    · cases h
    · rename_i hhost
      exact ⟨by simpa using hcomplete, Option.ne_none_iff_exists'.1 hhost⟩

theorem signAt_of_refusal? (h : s.refusal? r.url = some e) (payload : ByteArray)
    (now : Time.Instant) (keys : KeyCache) :
    s.signAt payload now r keys = ⟨r, keys, some e⟩ := by
  rw [refusal?] at h
  rw [signAt]
  split at h
  · rename_i hcomplete
    cases h
    rw [hcomplete]
    rfl
  · rename_i hcomplete
    split at h
    · rename_i hhost
      cases h
      rw [Bool.not_eq_false] at hcomplete
      simp only [hcomplete, hhost]
      rfl
    · cases h

theorem signAt_of_no_refusal (h : s.refusal? r.url = none) (payload : ByteArray)
    (now : Time.Instant) (keys : KeyCache) :
    (s.signAt payload now r keys).failure = none ∧
      (s.signAt payload now r keys).keys =
        (keys.signingKey s.keyScope now.dateText).2 := by
  obtain ⟨hcomplete, host, hhost⟩ := exists_host_of_refusal? h
  simp only [signAt, hcomplete, hhost]
  exact ⟨rfl, rfl⟩

theorem failure_signAt (s : Signer) (payload : ByteArray) (now : Time.Instant)
    (r : SignableRequest) (keys : KeyCache) :
    (s.signAt payload now r keys).failure = s.refusal? r.url := by
  cases h : s.refusal? r.url with
  | none => exact (signAt_of_no_refusal h payload now keys).1
  | some e => rw [signAt_of_refusal? h]

theorem signAt_cases (s : Signer) (payload : ByteArray) (now : Time.Instant)
    (r : SignableRequest) (keys : KeyCache) :
    let attempt := s.signAt payload now r keys
    (∃ e, attempt.failure = some e ∧ attempt.request = r ∧ attempt.keys = keys) ∨
      attempt.failure = none ∧
        attempt.keys.hits + attempt.keys.misses = keys.hits + keys.misses + 1 := by
  intro attempt
  cases h : s.refusal? r.url with
  | none =>
      obtain ⟨hfailure, hkeys⟩ := signAt_of_no_refusal h payload now keys
      refine .inr ⟨hfailure, ?_⟩
      simp only [attempt, hkeys]
      exact KeyCache.counted_signingKey keys s.keyScope now.dateText
  | some e =>
      have hsame : attempt = ⟨r, keys, some e⟩ := signAt_of_refusal? h payload now keys
      rw [hsame]
      exact .inl ⟨e, rfl, rfl, rfl⟩

theorem presignAt_cases (s : Signer) (method : Method) (bucket key : String) (expiry : UInt64)
    (now : Time.Instant) (keys : KeyCache) :
    let answer := s.presignAt method bucket key expiry now keys
    (∃ e, answer = (.error e, keys)) ∨
      ∃ text, answer.1 = .ok text ∧
        answer.2.hits + answer.2.misses = keys.hits + keys.misses + 1 := by
  intro answer
  simp only [answer, presignAt]
  split
  · exact .inl ⟨_, rfl⟩
  · split
    · exact .inl ⟨_, rfl⟩
    · split
      · exact .inl ⟨_, rfl⟩
      · exact .inr ⟨_, rfl, KeyCache.counted_signingKey keys s.keyScope now.dateText⟩

/-- Requests that differ at most in fields that the signer sets itself. -/
structure Alike (s : Signer) (q r : SignableRequest) : Prop where
  method : q.method = r.method
  url : q.url = r.url
  others : ∀ name, name ∉ s.ownNames → q.fields.get? name = r.fields.get? name

theorem Alike.refl (s : Signer) (r : SignableRequest) : s.Alike r r := ⟨rfl, rfl, fun _ _ => rfl⟩

theorem Alike.trans {p : SignableRequest} (h : s.Alike p q) (h' : s.Alike q r) : s.Alike p r :=
  ⟨h.method.trans h'.method, h.url.trans h'.url,
    fun name hname => (h.others name hname).trans (h'.others name hname)⟩

theorem alike_signAt (s : Signer) (payload : ByteArray) (now : Time.Instant)
    (r : SignableRequest) (keys : KeyCache) :
    s.Alike (s.signAt payload now r keys).request r := by
  refine ⟨?_, ?_, fun name hname => get?_signAt payload now r keys hname⟩
  all_goals
    rw [signAt]
    split
    · rfl
    · split
      · rfl
      · rfl

theorem get?_signedFields_of_own {host payloadHash : String} {now : Time.Instant}
    (f g : Fields) {name : String} (h : name ∈ s.ownNames) :
    (s.signedFields f host payloadHash now).get? name =
      (s.signedFields g host payloadHash now).get? name := by
  rw [get?_signedFields, get?_signedFields]
  rw [ownNames, List.mem_append] at h
  rcases h with h | h
  · simp only [List.mem_cons, List.not_mem_nil, or_false] at h
    rcases h with rfl | rfl | rfl | rfl <;> simp
  · split at h
    · rename_i htoken
      rw [List.mem_singleton.1 h, if_pos ⟨rfl, htoken⟩, if_pos ⟨rfl, htoken⟩]
    · cases h

theorem signedFields_congr {f g : Fields}
    (h : ∀ name, name ∉ s.ownNames → f.get? name = g.get? name) (host payloadHash : String)
    (now : Time.Instant) :
    s.signedFields f host payloadHash now = s.signedFields g host payloadHash now := by
  apply Fields.ext_get?
  intro name
  by_cases hown : name ∈ s.ownNames
  · exact get?_signedFields_of_own f g hown
  · rw [get?_signedFields_of_other f hown, get?_signedFields_of_other g hown, h name hown]

theorem Alike.signedRequest (h : s.Alike q r) (payload : ByteArray) (now : Time.Instant)
    (host : String) : s.signedRequest payload now q host = s.signedRequest payload now r host := by
  obtain ⟨method, url, f⟩ := q
  obtain ⟨method', url', g⟩ := r
  obtain ⟨rfl, rfl, hothers⟩ := h
  simp only [Signer.signedRequest, ownSignature, canonical,
    signedFields_congr (f := f) (g := g) hothers]

theorem Alike.signAt (h : s.Alike q r) (hrefusal : s.refusal? r.url = none)
    (hkeys : keys.Reached) (hothers : others.Reached) (payload : ByteArray) (now : Time.Instant) :
    (s.signAt payload now q others).request = (s.signAt payload now r keys).request := by
  obtain ⟨hcomplete, host, hhost⟩ := exists_host_of_refusal? hrefusal
  rw [(signAt_of_host payload now hothers hcomplete (h.url ▸ hhost)).1,
    (signAt_of_host payload now hkeys hcomplete hhost).1, h.signedRequest]

def signAll (s : Signer) (steps : List (ByteArray × Time.Instant)) (r : SignableRequest)
    (keys : KeyCache) : Attempt :=
  steps.foldl (fun a step => s.signAt step.1 step.2 a.request a.keys) ⟨r, keys, none⟩

theorem signAll_concat (s : Signer) (steps : List (ByteArray × Time.Instant))
    (step : ByteArray × Time.Instant) (r : SignableRequest) (keys : KeyCache) :
    s.signAll (steps ++ [step]) r keys =
      s.signAt step.1 step.2 (s.signAll steps r keys).request (s.signAll steps r keys).keys :=
  List.foldl_concat ..

theorem alike_signAll (s : Signer) (steps : List (ByteArray × Time.Instant))
    (r : SignableRequest) (keys : KeyCache) : s.Alike (s.signAll steps r keys).request r := by
  induction steps using List.reverseRecOn with
  | nil => exact .refl s r
  | append_singleton steps step ih =>
      rw [signAll_concat]
      exact (alike_signAt s step.1 step.2 _ _).trans ih

theorem reached_signAll (hkeys : keys.Reached) (s : Signer)
    (steps : List (ByteArray × Time.Instant)) (r : SignableRequest) :
    (s.signAll steps r keys).keys.Reached := by
  induction steps using List.reverseRecOn with
  | nil => exact hkeys
  | append_singleton steps step ih =>
      rw [signAll_concat]
      exact ih.signAt s step.1 step.2 _

theorem signAll_of_refusal? (h : s.refusal? r.url = some e)
    (steps : List (ByteArray × Time.Instant)) (keys : KeyCache) :
    (s.signAll steps r keys).request = r ∧ (s.signAll steps r keys).keys = keys := by
  induction steps using List.reverseRecOn with
  | nil => exact ⟨rfl, rfl⟩
  | append_singleton steps step ih =>
      rw [signAll_concat, ih.1, ih.2, signAt_of_refusal? h]
      exact ⟨rfl, rfl⟩

theorem signAll_concat_request (hkeys : keys.Reached) (s : Signer)
    (steps : List (ByteArray × Time.Instant)) (payload : ByteArray) (now : Time.Instant)
    (r : SignableRequest) :
    (s.signAll (steps ++ [(payload, now)]) r keys).request =
      (s.signAt payload now r keys).request := by
  rw [signAll_concat]
  cases h : s.refusal? r.url with
  | none =>
      exact (alike_signAll s steps r keys).signAt h hkeys (reached_signAll hkeys s steps r)
        payload now
  | some e =>
      obtain ⟨hrequest, hsame⟩ := signAll_of_refusal? h steps keys
      rw [hrequest, hsame]

/-- Of all the times that a request is signed only the last one shows, whatever the cache of keys was
used for before and in between, and whatever stood in the fields that the signer sets. A request is
refused for want of credentials or of a host alone. Then neither it nor the cache, counts included,
is changed, and the same goes for a URL that is not presigned. -/
theorem last_signing_alone_shows (s : Signer) (r : SignableRequest) (keys : KeyCache)
    (earlier : List (ByteArray × Time.Instant)) (payload : ByteArray) (now : Time.Instant)
    (hkeys : keys.Reached) :
    let once := s.signAt payload now r keys
    let again := s.signAll (earlier ++ [(payload, now)]) r keys
    again.request = once.request ∧ again.failure = once.failure ∧
    (∀ q others, s.Alike q r → others.Reached → once.failure = none →
      (s.signAt payload now q others).request = once.request) ∧
    once.failure = s.refusal? r.url ∧
    (∀ any, let attempt := s.signAt payload now r any
      (∃ e, attempt.failure = some e ∧ attempt.request = r ∧ attempt.keys = any) ∨
        attempt.failure = none ∧
          attempt.keys.hits + attempt.keys.misses = any.hits + any.misses + 1) ∧
    ∀ any method bucket key expiry, let answer := s.presignAt method bucket key expiry now any
      (∃ e, answer = (.error e, any)) ∨
        ∃ text, answer.1 = .ok text ∧
          answer.2.hits + answer.2.misses = any.hits + any.misses + 1 := by
  intro once again
  refine ⟨signAll_concat_request hkeys s earlier payload now r, ?_, ?_,
    failure_signAt s payload now r keys, s.signAt_cases payload now r,
    fun any method bucket key expiry => s.presignAt_cases method bucket key expiry now any⟩
  · simp only [again, once, signAll_concat, failure_signAt,
      (alike_signAll s earlier r keys).url]
  · intro q others hq hothers hfailure
    rw [failure_signAt] at hfailure
    exact hq.signAt hfailure hkeys hothers payload now

theorem third_signing_alone_shows :
    let s : Signer := ⟨⟨"id", "secret", some "token"⟩, "eu-west-1", "s3", "", .path⟩
    let other : Signer := ⟨⟨"id", "secret", none⟩, "us-east-1", "s3", "", .path⟩
    let url : Url := ⟨"https", some ⟨"", "", .name "h", some 9000⟩, "/b/k", none, none⟩
    let plain : SignableRequest := ⟨.get, url, .ofList [("range", "bytes=0-9")]⟩
    let r := (plain.withField "Authorization" "old").withField "x-amz-date" "today"
    let keys := (other.signAt .empty .epoch r .empty).keys
    let steps := [("x".toUTF8, Time.Instant.epoch), ("y".toUTF8, ⟨86400, by decide⟩)]
    keys.Reached ∧ s.Alike plain r ∧ (s.signAt .empty .epoch r keys).failure = none ∧
      (s.signAll (steps ++ [(.empty, .epoch)]) r keys).request =
        (s.signAt .empty .epoch plain .empty).request := by
  intro s other url plain r keys steps
  have hkeys : keys.Reached := KeyCache.Reached.empty.signAt other .empty .epoch r
  have halike : s.Alike plain r := by
    refine ⟨rfl, rfl, fun name hname => ?_⟩
    have hauthorization : name ≠ lower "Authorization" := by
      rintro rfl
      exact hname (by decide +kernel)
    have hdate : name ≠ lower "x-amz-date" := by
      rintro rfl
      exact hname (by decide +kernel)
    simp only [r, SignableRequest.withField, Fields.get?_insert, if_neg hdate,
      if_neg hauthorization]
  obtain ⟨hlast, -, hothers, hrefusal, -, -⟩ :=
    last_signing_alone_shows s r keys steps .empty .epoch hkeys
  have hfailure : (s.signAt .empty .epoch r keys).failure = none := by
    rw [hrefusal]
    decide +kernel
  refine ⟨hkeys, halike, hfailure, ?_⟩
  rw [hlast, hothers plain .empty halike .empty hfailure]

end ObjectCache.Signer
