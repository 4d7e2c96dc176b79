import ObjectCache.Proofs.Client.ReadPlan
import ObjectCache.Proofs.Signing.ObjectUrl
import ObjectCache.Proofs.Store.Questions
import ObjectCache.Proofs.Text.Digits

namespace ObjectCache

open Http Signing Text Retry

namespace Http

def byteRange? (text : String) : Option (Nat × Nat) := do
  let positions ← text.toList.dropPrefix? "bytes=".toList
  match pieces (· == '-') positions with
  | [first, last] => return (← Numeral.natural? first, ← Numeral.natural? last)
  | _ => none

/-- A reply as HTTP has it for a range: the part asked for, cut at the end of the object, or all of the
object with the status of a plain reply. A body that breaks off may be of either kind. -/
inductive AnswersRange (data : ByteArray) (asked : String) (reply : Reply) : Prop
  | part {first last : Nat} (hasked : byteRange? asked = some (first, last))
      (hstatus : reply.status = 206)
      (hbody : ∀ body, reply.body = some body → body = data.extract first (last + 1))
  | whole (hstatus : reply.status = 200) (hbody : ∀ body, reply.body = some body → body = data)

def Delivery.success? : Delivery → Option Reply
  | .answered reply => if reply.isSuccess then some reply else none
  | .closed | .hanging => none

def firstSuccess? (deliveries : List Delivery) : Option Reply := deliveries.findSome? Delivery.success?

end Http

namespace RemoteStore

variable {s : RemoteStore} {o : ObjectName} {offset length : UInt64} {clock : Time.Clock} {w : Wire}
  {data body : ByteArray} {reply : Reply}

def rangeQuestion (o : ObjectName) (offset length : UInt64) : Question ByteArray :=
  ⟨o.bucket, o.key, id, .get, [("range", rangeText offset length)], .empty, o.path, readBody⟩

theorem getRange_eq_run (hlength : length ≠ 0) :
    s.getRange o offset length clock w =
      run (s.plan "get_range" o.path) ((rangeQuestion o offset length).ask s clock) w :=
  if_neg hlength

theorem toNat_last (hlength : length ≠ 0) (hend : offset.toNat + length.toNat ≤ 18446744073709551615) :
    (offset + length - 1).toNat + 1 = offset.toNat + length.toNat := by
  have hpos : 0 < length.toNat := by
    rw [Nat.pos_iff_ne_zero]
    exact fun hz => hlength (UInt64.toNat_inj.1 hz)
  have hsum : (offset + length).toNat = offset.toNat + length.toNat := by
    rw [UInt64.toNat_add]
    omega
  have hone : (1 : UInt64) ≤ offset + length := by
    rw [UInt64.le_iff_toNat_le, hsum, UInt64.toNat_one]
    omega
  rw [UInt64.toNat_sub_of_le _ _ hone, hsum, UInt64.toNat_one]
  omega

theorem byteRange?_rangeText (offset length : UInt64) :
    byteRange? (rangeText offset length) = some (offset.toNat, (offset + length - 1).toNat) := by
  have hmark : ∀ n, '-' ∉ Nat.toDigits 10 n := fun n => notMem_toDigits (by decide) (by decide)
  have htext : (rangeText offset length).toList = "bytes=".toList ++
      (Nat.toDigits 10 offset.toNat ++ '-' :: Nat.toDigits 10 (offset + length - 1).toNat) := by
    simp [rangeText, Nat.repr]
  rw [byteRange?, htext, dropPrefix?_append]
  simp only [Option.bind_eq_bind, Option.bind_some]
  rw [pieces_append, pieces_of_notMem (hmark _), pieces_of_notMem (hmark _)]
  simp only [List.cons_append, List.nil_append, Numeral.natural?_toDigits, Option.bind_some]
  rfl

theorem range_of_asks {url : Url} {r : Request} (h : (rangeQuestion o offset length).Asks s url r) :
    r.fields.get? "range" = some (rangeText offset length) := by
  have hname : "range" ∉ s.signer.ownNames := by
    rw [Signer.ownNames]
    split
    · decide
    · decide
  have hlower : lower "range" = "range" := by decide
  rw [h.fields "range" hname]
  simp [Question.unsigned, rangeQuestion, SignableRequest.withField, SignableRequest.new, hlower]

theorem not_isTransient_readBody (reply : Reply) : ¬IsTransient (readBody reply) := by
  rintro ⟨e, he, htransient⟩
  rw [readBody] at he
  split at he
  · cases he
  · cases he
    cases htransient

theorem success?_of_isTransient {d : Delivery}
    (h : IsTransient ((rangeQuestion o offset length).hear d)) : d.success? = none := by
  cases d with
  | answered reply =>
      rw [Delivery.success?]
      split
      · rename_i hreply
        simp only [Question.hear, hreply, if_true] at h
        exact absurd h (not_isTransient_readBody reply)
      · rfl
  | closed => rfl
  | hanging => rfl

theorem firstSuccess?_of_getRange (hlength : length ≠ 0)
    (h : (s.getRange o offset length clock w).result = .ok body) :
    ∃ reply, firstSuccess? w.deliveries = some reply ∧ reply.body = some body := by
  rw [getRange_eq_run hlength] at h
  obtain ⟨k, -, htransient, hends⟩ :=
    (rangeQuestion o offset length).run_ask s clock (s.plan "get_range" o.path) w
  obtain ⟨reply, hreply, hsuccess, hread⟩ := Question.heard_eq_ok_iff.1 (hends.of_ok h).1
  refine ⟨reply, ?_, ?_⟩
  · rw [firstSuccess?, List.findSome?_eq_some_iff]
    refine ⟨w.deliveries.take k, .answered reply, w.deliveries.drop (k + 1), ?_, ?_, ?_⟩
    · obtain ⟨hk, hget⟩ := List.getElem?_eq_some_iff.1 hreply
      rw [← hget, ← List.drop_eq_getElem_cons hk, List.take_append_drop]
    · exact if_pos hsuccess
    · intro d hd
      obtain ⟨i, hi, rfl⟩ := List.mem_take_iff_getElem.1 hd
      have hget : w.deliveries[i]? = some w.deliveries[i] := List.getElem?_eq_getElem (by omega)
      have hi := htransient i (by omega)
      rw [Question.heard, hget] at hi
      exact success?_of_isTransient hi
  · change readBody reply = .ok body at hread
    rw [readBody] at hread
    split at hread
    · cases hread
      assumption
    · cases hread

theorem body_of_answersRange (hlength : length ≠ 0)
    (hend : offset.toNat + length.toNat ≤ 18446744073709551615)
    (h : AnswersRange data (rangeText offset length) reply) (hbody : reply.body = some body) :
    reply.status = 206 ∧
        body = data.extract offset.toNat (min (offset.toNat + length.toNat) data.size) ∨
      reply.status = 200 ∧ body = data := by
  cases h with
  | part hasked hstatus hpart =>
      rw [byteRange?_rangeText] at hasked
      cases hasked
      rw [toNat_last hlength hend] at hpart
      exact .inl ⟨hstatus, by rw [extract_min_size, hpart body hbody]⟩
  | whole hstatus hwhole => exact .inr ⟨hstatus, hwhole body hbody⟩

theorem sent_getRange (s : RemoteStore) (o : ObjectName) (offset length : UInt64)
    (clock : Time.Clock) (w : Wire) :
    ∃ requests, (s.getRange o offset length clock w).state.sent = w.sent ++ requests ∧
      ∀ r ∈ requests, s.signer.objectUrl o.bucket o.key = .ok r.url ∧ r.method = .get ∧
        r.fields.get? "range" = some (rangeText offset length) := by
  by_cases hlength : length = 0
  · refine ⟨[], ?_, nofun⟩
    rw [getRange, if_pos hlength, List.append_nil]
  · rw [getRange_eq_run hlength]
    obtain ⟨k, -, -, hends⟩ :=
      (rangeQuestion o offset length).run_ask s clock (s.plan "get_range" o.path) w
    obtain ⟨_, _, requests, hspent⟩ := hends.spent
    refine ⟨requests, hspent.sent, fun r hr => ?_⟩
    obtain ⟨url, hasks⟩ := hspent.asks r hr
    have hplace : r.url = url := hasks.place
    exact ⟨hplace ▸ hasks.object, hasks.method, range_of_asks hasks⟩

theorem getRange_of_delivers {rest : List Delivery} (hlength : length ≠ 0)
    (h : (rangeQuestion o offset length).Sendable s clock)
    (hdelivers : (rangeQuestion o offset length).Delivers s.maxRetries.toNat w.deliveries body
      rest) :
    (s.getRange o offset length clock w).result = .ok body := by
  rw [getRange_eq_run hlength]
  exact (Question.run_of_delivers h hdelivers).1

theorem eq_extract_iff {start stop : Nat} (hstart : start < data.size) (hstop : stop ≤ data.size) :
    data = data.extract start stop ↔ start = 0 ∧ stop = data.size := by
  constructor
  · intro h
    have hsize := congrArg ByteArray.size h
    rw [ByteArray.size_extract] at hsize
    omega
  · rintro ⟨rfl, rfl⟩
    exact ByteArray.extract_zero_size.symm

/-- The bytes of a range come from the first success alone. They are the range itself if the server
has cut them. A server that has not sends the whole object, and then they are the range only where it
is all of the object, and longer than it where the object is. -/
theorem range_is_cut_by_server (s : RemoteStore) (o : ObjectName) (offset length : UInt64)
    (clock : Time.Clock) (w : Wire) (data : ByteArray) (hoffset : offset.toNat < data.size)
    (hend : offset.toNat + length.toNat ≤ 18446744073709551615)
    (hserver : ∀ reply, firstSuccess? w.deliveries = some reply →
      AnswersRange data (rangeText offset length) reply) :
    let outcome := s.getRange o offset length clock w
    let range := data.extract offset.toNat (min (offset.toNat + length.toNat) data.size)
    (∃ requests, outcome.state.sent = w.sent ++ requests ∧
      ∀ r ∈ requests, s.signer.objectUrl o.bucket o.key = .ok r.url ∧ r.method = .get ∧
        r.fields.get? "range" = some (rangeText offset length)) ∧
    (length = 0 → outcome.result = .ok range) ∧
    (length ≠ 0 → ∀ body, outcome.result = .ok body →
      ∃ reply, firstSuccess? w.deliveries = some reply ∧
        (reply.status = 206 ∧ body = range ∨
          reply.status = 200 ∧ body = data ∧
            (body = range ↔ offset = 0 ∧ data.size ≤ length.toNat) ∧
            (body.size ≤ length.toNat ↔ data.size ≤ length.toNat))) ∧
    (length ≠ 0 → (rangeQuestion o offset length).Sendable s clock →
      ∀ body rest,
        (rangeQuestion o offset length).Delivers s.maxRetries.toNat w.deliveries body rest →
        outcome.result = .ok body) := by
  intro outcome range
  refine ⟨sent_getRange s o offset length clock w, fun hzero => ?_, fun hlength body hbody => ?_,
    fun hlength hsendable body rest => getRange_of_delivers hlength hsendable⟩
  · simp only [outcome, range, getRange, if_pos hzero]
    have hnone : data.extract offset.toNat (min (offset.toNat + length.toNat) data.size) = .empty := by
      rw [ByteArray.extract_eq_empty_iff, hzero]
      simp
    rw [hnone]
  · obtain ⟨reply, hfirst, hreply⟩ := firstSuccess?_of_getRange hlength hbody
    refine ⟨reply, hfirst, ?_⟩
    rcases body_of_answersRange hlength hend (hserver reply hfirst) hreply with hpart | ⟨hstatus, rfl⟩
    · exact .inl hpart
    · refine .inr ⟨hstatus, rfl, ?_, Iff.rfl⟩
      rw [eq_extract_iff hoffset (Nat.min_le_right _ _), ← UInt64.toNat_inj, UInt64.toNat_zero]
      refine and_congr_right fun hzero => ?_
      omega

namespace Digits

def store : RemoteStore :=
  ⟨⟨⟨"id", "secret", none⟩, "us-east-1", "s3", "http://localhost:9000", .path⟩, 3⟩

def object : ObjectName := ⟨"b", "k"⟩

def content : ByteArray := "0123456789".toUTF8

theorem sendable : (rangeQuestion object 2 3).Sendable store .epoch := by
  have hplain : store.signer.IsPlain .epoch :=
    ⟨by decide, by decide, by decide, by decide +kernel, by decide +kernel⟩
  have hurl : (store.signer.objectUrl "b" "k").toOption =
      some ⟨"http", some ⟨"", "", .name "localhost", some 9000⟩, "/b/k", none, none⟩ := by
    decide +kernel
  have hhost : Url.hostAndPort? ⟨"http", some ⟨"", "", .name "localhost", some 9000⟩, "/b/k", none,
      none⟩ = some "localhost:9000" := by
    decide +kernel
  refine Question.sendable_of_plain (fun _ => hplain) (Signer.ok_of_toOption hurl) hhost ?_ rfl rfl
    ?_ ?_
  · decide +kernel
  · decide +kernel
  · decide +kernel

end Digits

open Digits

theorem part_is_read_after_failure :
    let busy : Reply := ⟨503, none, none⟩
    let part : Reply := ⟨206, some "3", some (content.extract 2 5)⟩
    let w : Wire := ⟨[.closed, .answered busy, .answered part], [], .empty, 0⟩
    AnswersRange content (rangeText 2 3) part ∧
      (store.getRange object 2 3 .epoch w).result = .ok (content.extract 2 5) ∧
      ∃ requests, (store.getRange object 2 3 .epoch w).state.sent = w.sent ++ requests ∧
        ∀ r ∈ requests, r.fields.get? "range" = some "bytes=2-4" := by
  intro busy part w
  have hoffset : (2 : UInt64).toNat < content.size := by decide +kernel
  have hend : (2 : UInt64).toNat + (3 : UInt64).toNat ≤ 18446744073709551615 := by decide
  have hanswers : AnswersRange content (rangeText 2 3) part :=
    .part (byteRange?_rangeText 2 3) rfl fun body hbody => (Option.some.inj hbody).symm
  have hserver : ∀ reply, firstSuccess? w.deliveries = some reply →
      AnswersRange content (rangeText 2 3) reply := by
    intro reply hreply
    have hpart : firstSuccess? w.deliveries = some part := rfl
    rw [hpart] at hreply
    cases hreply
    exact hanswers
  have hfailed : ∀ d ∈ [Delivery.closed, .answered busy],
      IsTransient ((rangeQuestion object 2 3).hear d) := by
    intro d hd
    rcases List.mem_pair.1 hd with rfl | rfl
    · exact ⟨_, rfl, rfl⟩
    · exact ⟨_, rfl, rfl⟩
  have hdelivers : (rangeQuestion object 2 3).Delivers store.maxRetries.toNat w.deliveries
      (content.extract 2 5) [] :=
    @Question.Delivers.intro _ _ _ [.closed, .answered busy] [] part _ hfailed (by decide) rfl rfl
  have htext : rangeText 2 3 = "bytes=2-4" := by decide +kernel
  obtain ⟨⟨requests, hsent, hasks⟩, -, -, hdelivered⟩ :=
    range_is_cut_by_server store object 2 3 .epoch w content hoffset hend hserver
  refine ⟨hanswers, ?_, requests, hsent, fun r hr => htext ▸ (hasks r hr).2.2⟩
  exact hdelivered (by decide) sendable _ _ hdelivers

theorem whole_object_passes_for_range :
    let whole : Reply := ⟨200, some "10", some content⟩
    let w : Wire := ⟨[.answered whole], [], .empty, 0⟩
    AnswersRange content (rangeText 2 3) whole ∧
      (store.getRange object 2 3 .epoch w).result = .ok content ∧
      content ≠ content.extract 2 5 ∧ ¬content.size ≤ (3 : UInt64).toNat := by
  intro whole w
  refine ⟨.whole rfl fun body hbody => (Option.some.inj hbody).symm, ?_, ?_, ?_⟩
  · exact getRange_of_delivers (by decide) sendable
      (@Question.Delivers.intro _ _ _ [] [] whole _ nofun (by decide) rfl rfl)
  · intro h
    have hsize := congrArg ByteArray.size h
    revert hsize
    decide +kernel
  · decide +kernel

end RemoteStore

end ObjectCache
