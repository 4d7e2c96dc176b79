import ObjectCache.Proofs.Store.PageChains

namespace ObjectCache

open Http Signing

namespace Signer

theorem query_canonical_withQuery (method : Method) (url : Url) (pairs : List (String × String))
    (own fields : Fields) (payloadHash : String) :
    (canonical ⟨method, url.withQuery (canonicalQuery pairs), own⟩ fields payloadHash).query =
      canonicalQuery pairs := by
  rw [Url.withQuery_canonicalQuery]
  exact canonicalQuery_parseQuery_canonicalQuery pairs

end Signer

namespace RemoteStore

variable {s : RemoteStore} {name : ListingName} {clock : Time.Clock} {f : Fetch} {r : Request}

theorem Fetch.url_of_mem_requests (h : r ∈ f.requests s name clock) :
    ∃ url : Url, r.url = url.withQuery (canonicalQuery (pageParameters name f.token)) := by
  obtain ⟨k, -, -, hends⟩ :=
    (pageQuestion name f.token).run_ask s clock (s.plan "list" name.bucket) f.before
  obtain ⟨n, -, requests, hspent⟩ := hends.spent
  rw [requests_of_spent hspent] at h
  obtain ⟨url, hasks⟩ := hspent.asks r h
  exact ⟨url, hasks.place⟩

theorem Fetch.query_of_mem_requests (h : r ∈ f.requests s name clock) (fields : Fields)
    (payloadHash : String) :
    some (Signer.canonical ⟨r.method, r.url, r.fields⟩ fields payloadHash).query = r.url.query := by
  obtain ⟨url, hurl⟩ := Fetch.url_of_mem_requests h
  rw [hurl, Signer.query_canonical_withQuery, Url.withQuery_canonicalQuery]

theorem exists_requests_of_list (s : RemoteStore) (name : ListingName) (clock : Time.Clock)
    (w : Wire) :
    ∃ requests, (s.list name clock w).state.sent = w.sent ++ requests ∧
      ∀ r ∈ requests, ∃ f : Fetch, r ∈ f.requests s name clock := by
  obtain ⟨earlier, pages, last, hlisted⟩ := exists_listed s name clock none w
  refine ⟨_, hlisted.sent, fun r hr => ?_⟩
  obtain ⟨f, -, hf⟩ := List.mem_flatMap.1 hr
  exact ⟨f, hf⟩

/-- Parameters come back from their canonical query, in the order in which they are encoded. It is the
same for the same parameters in any order and for no others, and stays what it is when it is read and
written again. So the query that a URL is given for a page is the one that is signed, in every request
that a listing sends. -/
theorem canonical_query_inverts_parsing (pairs : List (String × String)) (query : String)
    (s : RemoteStore) (name : ListingName) (clock : Time.Clock) (w : Wire) :
    (parseQuery (canonicalQuery pairs)).Perm pairs ∧
    (parseQuery (canonicalQuery pairs)).Pairwise Precedes ∧
    (∀ others, canonicalQuery others = canonicalQuery pairs ↔ others.Perm pairs) ∧
    canonicalQuery (parseQuery (canonicalQuery (parseQuery query))) =
      canonicalQuery (parseQuery query) ∧
    (∀ url : Url, (url.withQuery (canonicalQuery pairs)).query = some (canonicalQuery pairs)) ∧
    ∃ requests, (s.list name clock w).state.sent = w.sent ++ requests ∧
      ∀ fields payloadHash,
        requests.map (fun r =>
          some (Signer.canonical ⟨r.method, r.url, r.fields⟩ fields payloadHash).query) =
        requests.map (·.url.query) := by
  refine ⟨parseQuery_canonicalQuery_perm pairs, pairwise_parseQuery pairs,
    fun others => canonicalQuery_eq_iff, canonicalQuery_parseQuery_canonicalQuery _, ?_, ?_⟩
  · intro url
    rw [Url.withQuery_canonicalQuery]
  · obtain ⟨requests, hsent, hfetched⟩ := exists_requests_of_list s name clock w
    refine ⟨requests, hsent, fun fields payloadHash => List.map_congr_left fun r hr => ?_⟩
    obtain ⟨f, hf⟩ := hfetched r hr
    exact Fetch.query_of_mem_requests hf fields payloadHash

end RemoteStore

end ObjectCache
