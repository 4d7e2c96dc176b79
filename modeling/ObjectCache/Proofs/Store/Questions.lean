import ObjectCache.Proofs.Store.RetryPolicy
import ObjectCache.Proofs.Store.Sending
import ObjectCache.Store.Remote

namespace ObjectCache

open Http Signing Retry

structure Question (α : Type) where
  bucket : String
  key : String
  adapt : Url → Url
  method : Method
  fields : List (String × String)
  body : ByteArray
  path : String
  read : Reply → Except StoreError α

namespace Question

variable {α : Type} {q : Question α} {s : RemoteStore} {clock : Time.Clock}
  {now : Time.Instant} {w v : Wire} {r : Request} {url : Url} {keys : KeyCache}
  {e : StoreError} {plan : Plan} {k n : Nat}

def ask (q : Question α) (s : RemoteStore) (clock : Time.Clock) : RemoteStore.Attempt α :=
  s.attempt q.bucket q.key q.adapt q.method q.fields q.body q.path clock q.read

def unsigned (q : Question α) (url : Url) : SignableRequest :=
  q.fields.foldl (fun r f => r.withField f.1 f.2) (SignableRequest.new q.method (q.adapt url))

def request? (q : Question α) (s : RemoteStore) (now : Time.Instant) (keys : KeyCache) :
    Except StoreError Request × KeyCache :=
  match s.signer.objectUrl q.bucket q.key with
  | .error e => (.error (.signing e), keys)
  | .ok url =>
      let signed := s.signer.signAt q.body now (q.unsigned url) keys
      match signed.failure with
      | some e => (.error (.signing e), signed.keys)
      | none =>
          let r : Request := ⟨q.method, q.adapt url, signed.request.fields, q.body⟩
          if r.isSendable then (.ok r, signed.keys)
          else (.error (.ofTransport .building "request cannot be built"), signed.keys)

def glances (q : Question α) (s : RemoteStore) : Nat :=
  match s.signer.objectUrl q.bucket q.key with
  | .error _ => 0
  | .ok _ => 1

/-- A request for the object asked about. Apart from those that the signer sets itself, it has the
fields of the question. -/
structure Asks (q : Question α) (s : RemoteStore) (url : Url) (r : Request) : Prop where
  object : s.signer.objectUrl q.bucket q.key = .ok url
  method : r.method = q.method
  place : r.url = q.adapt url
  body : r.body = q.body
  fields : ∀ name, name ∉ s.signer.ownNames →
    r.fields.get? name = (q.unsigned url).fields.get? name

theorem asks_of_request? (h : (q.request? s now keys).1 = .ok r) : ∃ url, q.Asks s url r := by
  simp only [request?] at h
  split at h
  · cases h
  · rename_i url hurl
    split at h
    · cases h
    · split at h
      · cases h
        exact ⟨url, hurl, rfl, rfl, rfl, fun name hname => Signer.get?_signAt _ _ _ _ hname⟩
      · cases h

theorem not_isTransient_of_request? (h : (q.request? s now keys).1 = .error e) :
    e.isTransient = false := by
  simp only [request?] at h
  split at h
  · cases h
    rfl
  · split at h
    · cases h
      rfl
    · split at h
      · cases h
      · cases h
        rfl

/-- Whenever the clock is read, and whatever keys are known by then, there is a request to send. -/
def Sendable (q : Question α) (s : RemoteStore) (clock : Time.Clock) : Prop :=
  ∀ n keys, ∃ r, (q.request? s (clock n) keys).1 = .ok r

theorem sendable_of_plain {host : String} (hplain : ∀ n, s.signer.IsPlain (clock n))
    (hurl : s.signer.objectUrl q.bucket q.key = .ok url)
    (hhost : (q.adapt url).hostAndPort? = some host) (haddress : isAddress (q.adapt url) = true)
    (hmethod : (q.unsigned url).method = q.method) (hplace : (q.unsigned url).url = q.adapt url)
    (hnames : ∀ name ∈ (q.unsigned url).fields.names, Text.isToken name = true)
    (hfields : ∀ e ∈ (q.unsigned url).fields.entries, isFieldText e.2 = true) :
    q.Sendable s clock := by
  intro n keys
  rw [← hplace] at hhost haddress
  obtain ⟨hfailure, hsendable⟩ := (hplain n).isSendable q.body hhost haddress hnames hfields keys
  rw [hmethod, hplace] at hsendable
  simp only [request?, hurl, hfailure, hsendable, if_true]
  exact ⟨_, rfl⟩

def hear (q : Question α) : Delivery → Except StoreError α
  | .answered reply =>
      if reply.isSuccess then q.read reply else .error (RemoteStore.failureOf q.path reply)
  | .closed => .error (.ofTransport .request "connection closed")
  | .hanging => .error (.ofTransport .timeout "no answer")

/-- What is made of the delivery at a place. After the last one nobody can be reached. -/
def heard (q : Question α) (deliveries : List Delivery) (n : Nat) : Except StoreError α :=
  match deliveries[n]? with
  | some d => q.hear d
  | none => .error (.ofTransport .connection "no connection")

theorem exchange_of_sendable (h : r.isSendable = true) (w : Wire) :
    exchange w r = match w.deliveries with
      | [] => (.error (.ofTransport .connection "no connection"), w)
      | d :: rest =>
          let v := { w with deliveries := rest, sent := w.sent ++ [r] }
          match d with
          | .answered reply => (.ok reply, v)
          | .closed => (.error (.ofTransport .request "connection closed"), v)
          | .hanging => (.error (.ofTransport .timeout "no answer"), v) := by
  rw [exchange, h]
  rfl

theorem exchange_of_not_sendable (h : ¬r.isSendable = true) (w : Wire) :
    exchange w r = (.error (.ofTransport .building "request cannot be built"), w) := by
  have hfalse : r.isSendable = false := by simpa using h
  rw [exchange, hfalse]
  rfl

theorem ask_eq (q : Question α) (s : RemoteStore) (clock : Time.Clock) (w : Wire) :
    q.ask s clock w = match q.request? s (clock w.readings) w.keys with
      | (.error e, keys) => (.error e, { w with keys, readings := w.readings + q.glances s })
      | (.ok r, keys) => (q.heard w.deliveries 0,
          ⟨w.deliveries.drop 1, w.sent ++ (w.deliveries.take 1).map fun _ => r, keys,
            w.readings + q.glances s⟩) := by
  simp only [ask, RemoteStore.attempt, RemoteStore.send, request?, unsigned, glances]
  cases s.signer.objectUrl q.bucket q.key with
  | error e => rfl
  | ok url =>
      obtain ⟨signed, hsigned⟩ : ∃ signed, s.signer.signAt q.body (clock w.readings) (q.fields.foldl
        (fun r f => r.withField f.1 f.2) (SignableRequest.new q.method (q.adapt url))) w.keys =
          signed := ⟨_, rfl⟩
      simp only [hsigned]
      cases signed.failure with
      | some e => rfl
      | none =>
          by_cases hr : Request.isSendable ⟨q.method, q.adapt url, signed.request.fields, q.body⟩ = true
          · simp only [exchange_of_sendable hr, hr]
            cases w.deliveries with
            | nil => simp [heard]
            | cons d rest =>
                cases d with
                | answered reply =>
                    cases hreply : reply.isSuccess with
                    | true => simp [heard, hear, hreply]
                    | false => simp [heard, hear, hreply]
                | closed => simp [heard, hear]
                | hanging => simp [heard, hear]
          · simp only [exchange_of_not_sendable hr, hr]
            rfl

theorem heard_drop (q : Question α) (deliveries : List Delivery) (n : Nat) :
    q.heard (deliveries.drop n) 0 = q.heard deliveries n := by
  rw [heard, heard, List.getElem?_drop, Nat.add_zero]

theorem heard_eq_ok_iff {deliveries : List Delivery} {a : α} :
    q.heard deliveries n = .ok a ↔
      ∃ reply, deliveries[n]? = some (.answered reply) ∧ reply.isSuccess = true ∧
        q.read reply = .ok a := by
  rw [heard]
  constructor
  · intro h
    split at h
    · rename_i d hd
      cases d with
      | answered reply =>
          rw [hear] at h
          split at h
          · rename_i hreply
            exact ⟨reply, hd, hreply, h⟩
          · cases h
      | closed => cases h
      | hanging => cases h
    · cases h
  · rintro ⟨reply, hd, hreply, hread⟩
    rw [hd]
    simp only [hear, hreply, if_true, hread]

structure Spent (q : Question α) (s : RemoteStore) (w : Wire) (n : Nat) (requests : List Request)
    (v : Wire) : Prop where
  deliveries : v.deliveries = w.deliveries.drop n
  sent : v.sent = w.sent ++ requests
  length : requests.length = min n w.deliveries.length
  asks : ∀ r ∈ requests, ∃ url, q.Asks s url r

variable {requests : List Request}

theorem spent_zero (q : Question α) (s : RemoteStore) (w : Wire) : q.Spent s w 0 [] w :=
  ⟨rfl, (List.append_nil _).symm, (Nat.zero_min _).symm, nofun⟩

theorem Spent.refused (h : q.Spent s w n requests v)
    (hr : (q.request? s (clock v.readings) v.keys).1 = .error e) :
    (q.ask s clock v).1 = .error e ∧ q.Spent s w n requests (q.ask s clock v).2 := by
  obtain ⟨keys, hkeys⟩ : ∃ keys, q.request? s (clock v.readings) v.keys = (.error e, keys) :=
    ⟨_, Prod.ext hr rfl⟩
  rw [ask_eq, hkeys]
  exact ⟨rfl, h.deliveries, h.sent, h.length, h.asks⟩

theorem Spent.next (h : q.Spent s w n requests v)
    (hr : (q.request? s (clock v.readings) v.keys).1 = .ok r) :
    (q.ask s clock v).1 = q.heard w.deliveries n ∧
      ∃ more, q.Spent s w (n + 1) (requests ++ more) (q.ask s clock v).2 := by
  obtain ⟨keys, hkeys⟩ : ∃ keys, q.request? s (clock v.readings) v.keys = (.ok r, keys) :=
    ⟨_, Prod.ext hr rfl⟩
  obtain ⟨url, hasks⟩ := asks_of_request? hr
  rw [ask_eq, hkeys]
  dsimp only
  refine ⟨?_, (v.deliveries.take 1).map fun _ => r, ?_, ?_, ?_, ?_⟩
  · rw [h.deliveries, heard_drop]
  · rw [h.deliveries, List.drop_drop]
  · rw [h.sent, List.append_assoc]
  · rw [List.length_append, h.length, List.length_map, List.length_take, h.deliveries,
      List.length_drop]
    omega
  · intro p hp
    rcases List.mem_append.1 hp with hp | hp
    · exact h.asks p hp
    · obtain ⟨-, -, rfl⟩ := List.mem_map.1 hp
      exact ⟨url, hasks⟩

theorem spent_after (h : ∀ i < n, IsTransient (outcomes (q.ask s clock) w i)) :
    (∃ requests, q.Spent s w n requests (after (q.ask s clock) w n)) ∧
      ∀ i < n, outcomes (q.ask s clock) w i = q.heard w.deliveries i := by
  induction n with
  | zero => exact ⟨⟨[], q.spent_zero s w⟩, nofun⟩
  | succ n ih =>
      obtain ⟨⟨requests, hspent⟩, hheard⟩ := ih fun i hi => h i (by omega)
      cases hr : (q.request? s (clock (after (q.ask s clock) w n).readings)
          (after (q.ask s clock) w n).keys).1 with
      | error e =>
          obtain ⟨c, hc, htransient⟩ := h n (by omega)
          have hsame : outcomes (q.ask s clock) w n = .error e := (hspent.refused hr).1
          rw [hsame] at hc
          cases hc
          rw [not_isTransient_of_request? hr] at htransient
          cases htransient
      | ok r =>
          obtain ⟨hfirst, more, hmore⟩ := hspent.next hr
          refine ⟨⟨_, hmore⟩, fun i hi => ?_⟩
          rcases Nat.lt_succ_iff_lt_or_eq.1 hi with hlt | rfl
          · exact hheard i hlt
          · exact hfirst

inductive Ends (q : Question α) (s : RemoteStore) (clock : Time.Clock) (limit : Nat) (w : Wire)
    (k : Nat) (o : Outcome Wire α) : Prop
  | refused {reading : Nat} {keys : KeyCache} {e : StoreError} {requests : List Request}
      (hrequest : (q.request? s (clock reading) keys).1 = .error e) (hresult : o.result = .error e)
      (hspent : q.Spent s w k requests o.state)
  | answered {requests : List Request} (hresult : o.result = q.heard w.deliveries k)
      (hstops : k < limit → ¬IsTransient (q.heard w.deliveries k))
      (hspent : q.Spent s w (k + 1) requests o.state)

theorem run_ask (q : Question α) (s : RemoteStore) (clock : Time.Clock) (plan : Plan) (w : Wire) :
    ∃ k, Course plan (q.ask s clock) 0 w k (run plan (q.ask s clock) w) ∧
      (∀ i < k, IsTransient (q.heard w.deliveries i)) ∧
      q.Ends s clock plan.limit.toNat w k (run plan (q.ask s clock) w) := by
  obtain ⟨k, h⟩ := run_course plan (q.ask s clock) w
  obtain ⟨⟨requests, hspent⟩, hheard⟩ := spent_after h.transient
  have hresult := h.result
  have hstate := h.state
  have hstops := h.stops
  rw [after] at hstate
  rw [Nat.zero_add] at hstops
  refine ⟨k, h, fun i hi => hheard i hi ▸ h.transient i hi, ?_⟩
  cases hr : (q.request? s (clock (after (q.ask s clock) w k).readings)
      (after (q.ask s clock) w k).keys).1 with
  | error e =>
      obtain ⟨hsame, hrest⟩ := hspent.refused hr
      exact .refused hr (hresult.trans hsame) (hstate ▸ hrest)
  | ok r =>
      obtain ⟨hsame, more, hmore⟩ := hspent.next hr
      rw [outcomes, hsame] at hresult hstops
      exact .answered hresult hstops (hstate ▸ hmore)

section

variable {limit : Nat} {o : Outcome Wire α}

theorem Ends.spent (h : q.Ends s clock limit w k o) :
    ∃ n ≤ k + 1, ∃ requests, q.Spent s w n requests o.state := by
  cases h with
  | refused hrequest hresult hspent => exact ⟨k, Nat.le_succ k, _, hspent⟩
  | answered hresult hstops hspent => exact ⟨k + 1, Nat.le_refl _, _, hspent⟩

theorem Ends.of_ok {a : α} (h : q.Ends s clock limit w k o) (hok : o.result = .ok a) :
    q.heard w.deliveries k = .ok a ∧ ∃ requests, q.Spent s w (k + 1) requests o.state := by
  cases h with
  | refused hrequest hresult hspent =>
      rw [hresult] at hok
      cases hok
  | answered hresult hstops hspent => exact ⟨hresult.symm.trans hok, _, hspent⟩

theorem Ends.of_sendable (h : q.Ends s clock limit w k o) (hs : q.Sendable s clock) :
    (k < limit → ¬IsTransient (q.heard w.deliveries k)) ∧
      o.result = q.heard w.deliveries k ∧ o.state.deliveries = w.deliveries.drop (k + 1) := by
  cases h with
  | refused hrequest hresult hspent =>
      obtain ⟨r, hr⟩ := hs _ _
      rw [hr] at hrequest
      cases hrequest
  | answered hresult hstops hspent => exact ⟨hstops, hresult, hspent.deliveries⟩

end

/-- Deliveries that begin with a success, after no more failures than may be retried. -/
inductive Delivers (q : Question α) (limit : Nat) :
    List Delivery → α → List Delivery → Prop
  | intro {failed rest : List Delivery} {reply : Reply} {a : α}
      (hfailed : ∀ d ∈ failed, IsTransient (q.hear d)) (hlimit : failed.length ≤ limit)
      (hsuccess : reply.isSuccess = true) (hread : q.read reply = .ok a) :
      Delivers q limit (failed ++ .answered reply :: rest) a rest

theorem run_of_delivers {rest : List Delivery} {a : α} (h : q.Sendable s clock)
    (hdelivers : q.Delivers plan.limit.toNat w.deliveries a rest) :
    (run plan (q.ask s clock) w).result = .ok a ∧
      (run plan (q.ask s clock) w).state.deliveries = rest := by
  obtain ⟨k, hcourse, htransient, hends⟩ := q.run_ask s clock plan w
  obtain ⟨hstops, hresult, hstate⟩ := hends.of_sendable h
  obtain ⟨deliveries, hdeliveries⟩ : ∃ deliveries, w.deliveries = deliveries := ⟨_, rfl⟩
  rw [hdeliveries] at hdelivers htransient hstops hresult hstate
  cases hdelivers with
  | @intro failed rest reply a hfailed hlimit hsuccess hread =>
      have hat : q.heard (failed ++ .answered reply :: rest) failed.length = .ok a := by
        refine heard_eq_ok_iff.2 ⟨reply, ?_, hsuccess, hread⟩
        rw [List.getElem?_append_right (Nat.le_refl _), Nat.sub_self, List.getElem?_cons_zero]
      have hle : k ≤ failed.length := by
        refine Nat.le_of_not_lt fun hlt => ?_
        obtain ⟨e, he, -⟩ := htransient _ hlt
        rw [hat] at he
        cases he
      rcases Nat.lt_or_eq_of_le hle with hlt | rfl
      · refine absurd ?_ (hstops (by omega))
        rw [heard, List.getElem?_append_left hlt, List.getElem?_eq_getElem hlt]
        exact hfailed _ (List.getElem_mem hlt)
      · refine ⟨hresult.trans hat, hstate.trans ?_⟩
        rw [← List.drop_drop, List.drop_left]
        rfl

end Question

end ObjectCache
