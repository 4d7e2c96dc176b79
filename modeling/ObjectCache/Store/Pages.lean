import ObjectCache.Store.Remote

namespace ObjectCache.RemoteStore

open Http

def remaining (w : Wire) : Nat := w.deliveries.length

variable (s : RemoteStore)

theorem remaining_le_of_send {method : Method} {url : Url} {fields : List (String × String)}
    {body : ByteArray} {path : String} {clock : Time.Clock} {w v : Wire}
    {result : Except StoreError Reply}
    (h : s.send method url fields body path clock w = (result, v)) : remaining v ≤ remaining w := by
  simp only [send] at h
  split at h
  · cases h
    exact Nat.le_refl _
  · split at h
    · rename_i he
      cases h
      have hle := length_le_of_exchange he
      exact hle
    · rename_i he
      have hle := length_le_of_exchange he
      split at h <;> cases h <;> exact hle

theorem remaining_lt_of_send_ok {method : Method} {url : Url} {fields : List (String × String)}
    {body : ByteArray} {path : String} {clock : Time.Clock} {w v : Wire} {reply : Reply}
    (h : s.send method url fields body path clock w = (.ok reply, v)) :
    remaining v < remaining w := by
  simp only [send] at h
  split at h
  · cases h
  · split at h
    · cases h
    · rename_i he
      have hlt := length_lt_of_exchange_ok he
      split at h <;> cases h
      exact hlt

theorem remaining_attempt_le {α : Type} (bucket key : String) (adapt : Url → Url)
    (method : Method) (fields : List (String × String)) (body : ByteArray) (path : String)
    (clock : Time.Clock) (read : Reply → Except StoreError α) (w : Wire) :
    remaining (s.attempt bucket key adapt method fields body path clock read w).2 ≤
      remaining w := by
  simp only [attempt]
  split
  · exact Nat.le_refl _
  · split <;>
      · rename_i h
        exact remaining_le_of_send s h

theorem remaining_attempt_lt {α : Type} {bucket key : String} {adapt : Url → Url}
    {method : Method} {fields : List (String × String)} {body : ByteArray} {path : String}
    {clock : Time.Clock} {read : Reply → Except StoreError α} {w : Wire} {a : α}
    (h : (s.attempt bucket key adapt method fields body path clock read w).1 = .ok a) :
    remaining (s.attempt bucket key adapt method fields body path clock read w).2 <
      remaining w := by
  revert h
  simp only [attempt]
  split
  · simp
  · split
    · simp
    · rename_i h
      exact fun _ => remaining_lt_of_send_ok s h

theorem remaining_page_lt {name : ListingName} {token : Option String} {clock : Time.Clock}
    {w : Wire} {p : Listing.Page} (h : (s.page name token clock w).result = .ok p) :
    remaining (s.page name token clock w).state < remaining w :=
  Retry.lt_of_ok (fun _ => remaining_attempt_le s ..) (fun _ _ => remaining_attempt_lt s) h

def listFrom (name : ListingName) (clock : Time.Clock) (token : Option String) (w : Wire) :
    Retry.Outcome Wire (List ObjectSummary) :=
  let first := s.page name token clock w
  match _h : first.result with
  | .error e => ⟨.error e, first.state, first.events, first.waits⟩
  | .ok page =>
      match page.next? with
      | none => ⟨.ok page.summaries, first.state, first.events, first.waits⟩
      | some next =>
          let rest := listFrom name clock (some next) first.state
          ⟨rest.result.map (page.summaries ++ ·), rest.state, first.events ++ rest.events,
            first.waits ++ rest.waits⟩
termination_by remaining w
decreasing_by exact remaining_page_lt s _h

def list (name : ListingName) (clock : Time.Clock) (w : Wire) :
    Retry.Outcome Wire (List ObjectSummary) := s.listFrom name clock none w

def answer (clock : Time.Clock) : (call : StoreCall) → Wire → Retry.Outcome Wire call.Reply
  | .head o, w => s.head o clock w
  | .get o offset length, w => s.getRange o offset length clock w
  | .put o data, w => s.put o data clock w
  | .delete o, w => s.delete o clock w
  | .list name, w => s.list name clock w

end ObjectCache.RemoteStore
