import Mathlib.Data.List.Chain
import ObjectCache.Proofs.Signing.ObjectUrl
import ObjectCache.Proofs.Signing.Queries
import ObjectCache.Proofs.Store.Questions
import ObjectCache.Store.Pages

namespace ObjectCache

open Http Signing Text Retry

namespace Signing

def queryValues (query name : String) : List String :=
  ((parseQuery query).filter (·.1 == name)).map (·.2)

theorem queryValues_canonicalQuery {pairs : List (String × String)} {name : String}
    {values : List String} (h : (pairs.filter (·.1 == name)).map (·.2) = values)
    (hone : values.length ≤ 1) : queryValues (canonicalQuery pairs) name = values := by
  have hperm := ((parseQuery_canonicalQuery_perm pairs).filter (·.1 == name)).map (·.2)
  rw [h] at hperm
  match values, hone with
  | [], _ => exact hperm.eq_nil
  | [value], _ => exact List.perm_singleton.1 hperm

end Signing

namespace RemoteStore

variable {s : RemoteStore} {name : ListingName} {clock : Time.Clock} {token : Option String}
  {w : Wire} {page : Listing.Page} {e : StoreError}

def pageQuestion (name : ListingName) (token : Option String) : Question Listing.Page :=
  ⟨name.bucket, "", (·.withQuery (canonicalQuery (pageParameters name token))), .get, [], .empty,
    name.bucket, readPage⟩

theorem page_eq_run : s.page name token clock w =
    run (s.plan "list" name.bucket) ((pageQuestion name token).ask s clock) w :=
  rfl

structure PageQuery (name : ListingName) (token : Option String) (query : String) : Prop where
  kind : queryValues query "list-type" = ["2"]
  stem : queryValues query "prefix" = [name.stem]
  delimiter : queryValues query "delimiter" =
    if name.delimiter = "" then [] else [name.delimiter]
  token : queryValues query "continuation-token" = token.toList

theorem pageQuery_canonicalQuery (name : ListingName) (token : Option String) :
    PageQuery name token (canonicalQuery (pageParameters name token)) := by
  have hdelimiter : (if name.delimiter = "" then [] else [name.delimiter]).length ≤ 1 := by
    split
    · exact Nat.zero_le 1
    · exact Nat.le_refl 1
  have htoken : token.toList.length ≤ 1 := by
    cases token with
    | none => exact Nat.zero_le 1
    | some next => exact Nat.le_refl 1
  refine ⟨queryValues_canonicalQuery ?_ (Nat.le_refl 1),
    queryValues_canonicalQuery ?_ (Nat.le_refl 1), queryValues_canonicalQuery ?_ hdelimiter,
    queryValues_canonicalQuery ?_ htoken⟩
  all_goals
    by_cases hname : name.delimiter = ""
    · cases token <;> simp [pageParameters, hname]
    · cases token <;> simp [pageParameters, hname]

theorem sendable_pageQuestion {url : Url} {host : String} (hplain : ∀ n, s.signer.IsPlain (clock n))
    (hurl : s.signer.objectUrl name.bucket "" = .ok url) (hhost : url.hostAndPort? = some host)
    (haddress : isAddress { url with query := some (canonicalQuery (pageParameters name token)) } =
      true) :
    (pageQuestion name token).Sendable s clock := by
  rw [← Url.withQuery_canonicalQuery] at haddress
  exact Question.sendable_of_plain hplain hurl hhost haddress rfl rfl nofun nofun

structure Fetch where
  token : Option String
  before : Wire

namespace Fetch

variable (f : Fetch) (s : RemoteStore) (name : ListingName) (clock : Time.Clock)

def outcome : Outcome Wire Listing.Page := s.page name f.token clock f.before

def requests : List Request := (f.outcome s name clock).state.sent.drop f.before.sent.length

def heard (n : Nat) : Except StoreError Listing.Page :=
  (pageQuestion name f.token).heard f.before.deliveries n

def Leads (g : Fetch) : Prop :=
  ∃ page next, (f.outcome s name clock).result = .ok page ∧ page.isTruncated = true ∧
    page.token = some next ∧ g = ⟨some next, (f.outcome s name clock).state⟩

structure Goes (retries : Nat) : Prop where
  within : retries ≤ s.maxRetries.toNat
  failed : ∀ i < retries, IsTransient (f.heard name i)
  waits : (f.outcome s name clock).waits = (List.range retries).map fun i => pause (i + 1)
  sent : (f.outcome s name clock).state.sent = f.before.sent ++ f.requests s name clock
  length : (f.requests s name clock).length ≤ retries + 1
  asks : ∀ r ∈ f.requests s name clock, ∃ url query, s.signer.objectUrl name.bucket "" = .ok url ∧
    r.method = .get ∧ r.url = { url with query := some query } ∧ PageQuery name f.token query
  page : ∀ page, (f.outcome s name clock).result = .ok page →
    (f.requests s name clock).length = retries + 1 ∧
    (f.outcome s name clock).state.deliveries = f.before.deliveries.drop (retries + 1) ∧
    ∃ reply, f.before.deliveries[retries]? = some (.answered reply) ∧ reply.isSuccess = true ∧
      readPage reply = .ok page
  error : ∀ e, (f.outcome s name clock).result = .error e → e.isTransient = true →
    retries = s.maxRetries.toNat
  settled : (pageQuestion name f.token).Sendable s clock →
    (f.outcome s name clock).result = f.heard name retries

variable {f s name clock} {requests : List Request} {k n : Nat}

theorem requests_of_spent
    (h : (pageQuestion name f.token).Spent s f.before n requests (f.outcome s name clock).state) :
    f.requests s name clock = requests := by
  rw [Fetch.requests, h.sent, List.drop_left]

theorem asks_of_spent
    (h : (pageQuestion name f.token).Spent s f.before n requests (f.outcome s name clock).state) :
    ∀ r ∈ requests, ∃ url query, s.signer.objectUrl name.bucket "" = .ok url ∧
      r.method = .get ∧ r.url = { url with query := some query } ∧
        PageQuery name f.token query := by
  intro r hr
  obtain ⟨url, hasks⟩ := h.asks r hr
  refine ⟨url, _, hasks.object, hasks.method, ?_, pageQuery_canonicalQuery name f.token⟩
  rw [← Url.withQuery_canonicalQuery]
  exact hasks.place

theorem exists_goes (f : Fetch) (s : RemoteStore) (name : ListingName) (clock : Time.Clock) :
    ∃ retries, f.Goes s name clock retries := by
  obtain ⟨k, hcourse, htransient, hends⟩ :=
    (pageQuestion name f.token).run_ask s clock (s.plan "list" name.bucket) f.before
  have hwithin := hcourse.within
  have hwaits := hcourse.waits
  have hstops := hcourse.stops
  simp only [Nat.zero_add] at hwithin hwaits hstops
  obtain ⟨n, hn, requests, hspent⟩ := hends.spent
  have hrequests := requests_of_spent hspent
  refine ⟨k, hwithin, htransient, hwaits, hrequests ▸ hspent.sent, ?_, ?_, ?_, ?_, ?_⟩
  · rw [hrequests, hspent.length]
    omega
  · rw [hrequests]
    exact asks_of_spent hspent
  · intro page hpage
    obtain ⟨hheard, last, hlast⟩ := hends.of_ok hpage
    obtain ⟨reply, hreply, hsuccess, hread⟩ := Question.heard_eq_ok_iff.1 hheard
    obtain ⟨hk, -⟩ := List.getElem?_eq_some_iff.1 hreply
    refine ⟨?_, hlast.deliveries, reply, hreply, hsuccess, hread⟩
    rw [requests_of_spent hlast, hlast.length]
    omega
  · intro e he htransient
    refine Nat.le_antisymm hwithin (Nat.le_of_not_lt fun hlt => hstops hlt ⟨e, ?_, htransient⟩)
    rw [← hcourse.result]
    exact he
  · exact fun hsendable => (hends.of_sendable hsendable).2.1

theorem sent_outcome (f : Fetch) (s : RemoteStore) (name : ListingName) (clock : Time.Clock) :
    (f.outcome s name clock).state.sent = f.before.sent ++ f.requests s name clock := by
  obtain ⟨retries, h⟩ := f.exists_goes s name clock
  exact h.sent

end Fetch

theorem next?_eq_none_iff : page.next? = none ↔ page.isTruncated = false ∨ page.token = none := by
  rw [Listing.Page.next?]
  cases page.isTruncated <;> simp

theorem next?_eq_some_iff {next : String} :
    page.next? = some next ↔ page.isTruncated = true ∧ page.token = some next := by
  rw [Listing.Page.next?]
  cases page.isTruncated <;> simp

/-- The fetches of a listing from `first` on, the pages of those before the last one, and what comes
of it all. -/
structure Listed (s : RemoteStore) (name : ListingName) (clock : Time.Clock) (first : Fetch)
    (earlier : List Fetch) (earlierPages : List Listing.Page) (last : Fetch)
    (o : Outcome Wire (List ObjectSummary)) : Prop where
  head : (earlier ++ [last]).head? = some first
  chain : (earlier ++ [last]).IsChain fun f g => f.Leads s name clock g
  read : earlier.map (fun f => (f.outcome s name clock).result) = earlierPages.map .ok
  finished : ∀ page, (last.outcome s name clock).result = .ok page →
    (page.isTruncated = false ∨ page.token = none) ∧
    o.result = .ok ((earlierPages ++ [page]).flatMap fun p =>
      p.objects.map (fun x => .ofListed x.key x.size x.modified x.etag) ++
        p.commonPrefixes.map .ofCommonPrefix)
  failed : ∀ e, (last.outcome s name clock).result = .error e → o.result = .error e
  state : o.state = (last.outcome s name clock).state
  sent : o.state.sent = first.before.sent ++ (earlier ++ [last]).flatMap (·.requests s name clock)
  waits : o.waits = (earlier ++ [last]).flatMap fun f => (f.outcome s name clock).waits
  events : o.events = (earlier ++ [last]).flatMap fun f => (f.outcome s name clock).events

variable {f first : Fetch} {earlier : List Fetch} {pages : List Listing.Page} {last : Fetch}
  {rest : Outcome Wire (List ObjectSummary)}

theorem listed_of_error (h : (f.outcome s name clock).result = .error e) :
    Listed s name clock f [] [] f ⟨.error e, (f.outcome s name clock).state,
      (f.outcome s name clock).events, (f.outcome s name clock).waits⟩ where
  head := rfl
  chain := .singleton f
  read := rfl
  finished page hpage := by
    rw [h] at hpage
    cases hpage
  failed c hc := by
    rw [h] at hc
    cases hc
    rfl
  state := rfl
  sent := by simp [f.sent_outcome s name clock]
  waits := by simp
  events := by simp

theorem listed_of_last (h : (f.outcome s name clock).result = .ok page)
    (hnext : page.next? = none) :
    Listed s name clock f [] [] f ⟨.ok page.summaries, (f.outcome s name clock).state,
      (f.outcome s name clock).events, (f.outcome s name clock).waits⟩ where
  head := rfl
  chain := .singleton f
  read := rfl
  finished p hp := by
    rw [h] at hp
    cases hp
    refine ⟨next?_eq_none_iff.1 hnext, ?_⟩
    rw [List.nil_append, List.flatMap_singleton]
    rfl
  failed c hc := by
    rw [h] at hc
    cases hc
  state := rfl
  sent := by simp [f.sent_outcome s name clock]
  waits := by simp
  events := by simp

theorem Listed.cons {next : String} (h : (f.outcome s name clock).result = .ok page)
    (hnext : page.next? = some next)
    (hrest : Listed s name clock ⟨some next, (f.outcome s name clock).state⟩ earlier pages last
      rest) :
    Listed s name clock f (f :: earlier) (page :: pages) last
      ⟨rest.result.map (page.summaries ++ ·), rest.state,
        (f.outcome s name clock).events ++ rest.events,
        (f.outcome s name clock).waits ++ rest.waits⟩ where
  head := rfl
  chain := by
    obtain ⟨htruncated, htoken⟩ := next?_eq_some_iff.1 hnext
    rw [List.cons_append, List.isChain_cons]
    refine ⟨fun g hg => ?_, hrest.chain⟩
    rw [hrest.head] at hg
    cases hg
    exact ⟨page, next, h, htruncated, htoken, rfl⟩
  read := by rw [List.map_cons, List.map_cons, h, hrest.read]
  finished p hp := by
    obtain ⟨hlast, hresult⟩ := hrest.finished p hp
    refine ⟨hlast, ?_⟩
    rw [hresult]
    rfl
  failed e he := by
    rw [hrest.failed e he]
    rfl
  state := hrest.state
  sent := by
    rw [hrest.sent, f.sent_outcome s name clock, List.cons_append, List.flatMap_cons,
      List.append_assoc]
  waits := by rw [hrest.waits, List.cons_append, List.flatMap_cons]
  events := by rw [hrest.events, List.cons_append, List.flatMap_cons]

theorem listFrom_of_error (h : (s.page name token clock w).result = .error e) :
    s.listFrom name clock token w = ⟨.error e, (s.page name token clock w).state,
      (s.page name token clock w).events, (s.page name token clock w).waits⟩ := by
  rw [listFrom]
  split
  · rename_i he
    rw [h] at he
    cases he
    rfl
  · rename_i hok
    rw [h] at hok
    cases hok

theorem listFrom_of_ok (h : (s.page name token clock w).result = .ok page) :
    s.listFrom name clock token w =
      match page.next? with
      | none => ⟨.ok page.summaries, (s.page name token clock w).state,
          (s.page name token clock w).events, (s.page name token clock w).waits⟩
      | some next =>
          let first := s.page name token clock w
          let rest := s.listFrom name clock (some next) first.state
          ⟨rest.result.map (page.summaries ++ ·), rest.state, first.events ++ rest.events,
            first.waits ++ rest.waits⟩ := by
  rw [listFrom]
  split
  · rename_i he
    rw [h] at he
    cases he
  · rename_i hok
    rw [h] at hok
    cases hok
    rfl

theorem exists_listed (s : RemoteStore) (name : ListingName) (clock : Time.Clock)
    (token : Option String) (w : Wire) :
    ∃ earlier pages last, Listed s name clock ⟨token, w⟩ earlier pages last
      (s.listFrom name clock token w) := by
  induction token, w using listFrom.induct s name clock with
  | case1 token w first e he =>
      rw [listFrom_of_error he]
      exact ⟨[], [], ⟨token, w⟩, listed_of_error he⟩
  | case2 token w first page hpage hnext =>
      rw [listFrom_of_ok hpage, hnext]
      exact ⟨[], [], ⟨token, w⟩, listed_of_last hpage hnext⟩
  | case3 token w first page hpage next hnext ih =>
      obtain ⟨earlier, pages, last, hlisted⟩ := ih
      rw [listFrom_of_ok hpage, hnext]
      exact ⟨⟨token, w⟩ :: earlier, page :: pages, last, hlisted.cons hpage hnext⟩

/-- Deliveries that hold pages, one for each token: as many failures as may be retried, and then the
page. -/
inductive Serves (s : RemoteStore) (name : ListingName) (clock : Time.Clock) :
    Option String → List Delivery → List Listing.Page → Prop
  | last {token : Option String} {deliveries rest : List Delivery} {page : Listing.Page}
      (hsendable : (pageQuestion name token).Sendable s clock)
      (hpage : (pageQuestion name token).Delivers s.maxRetries.toNat deliveries page rest)
      (hlast : page.isTruncated = false ∨ page.token = none) :
      Serves s name clock token deliveries [page]
  | more {token : Option String} {deliveries rest : List Delivery} {page : Listing.Page}
      {pages : List Listing.Page} {next : String}
      (hsendable : (pageQuestion name token).Sendable s clock)
      (hpage : (pageQuestion name token).Delivers s.maxRetries.toNat deliveries page rest)
      (htruncated : page.isTruncated = true) (htoken : page.token = some next)
      (hrest : Serves s name clock (some next) rest pages) :
      Serves s name clock token deliveries (page :: pages)

theorem page_of_delivers {rest : List Delivery} (h : (pageQuestion name token).Sendable s clock)
    (hdelivers : (pageQuestion name token).Delivers s.maxRetries.toNat w.deliveries page rest) :
    (s.page name token clock w).result = .ok page ∧
      (s.page name token clock w).state.deliveries = rest := by
  rw [page_eq_run]
  exact Question.run_of_delivers h hdelivers

theorem listFrom_of_serves {deliveries : List Delivery}
    (h : Serves s name clock token deliveries pages) (hw : w.deliveries = deliveries) :
    (s.listFrom name clock token w).result = .ok (pages.flatMap Listing.Page.summaries) := by
  induction h generalizing w with
  | last hsendable hpage hlast =>
      rw [← hw] at hpage
      obtain ⟨hok, -⟩ := page_of_delivers hsendable hpage
      rw [listFrom_of_ok hok, next?_eq_none_iff.2 hlast, List.flatMap_singleton]
  | more hsendable hpage htruncated htoken hrest ih =>
      rw [← hw] at hpage
      obtain ⟨hok, hstate⟩ := page_of_delivers hsendable hpage
      rw [listFrom_of_ok hok, next?_eq_some_iff.2 ⟨htruncated, htoken⟩, List.flatMap_cons]
      dsimp only
      rw [ih hstate]
      rfl

/-- A listing is a chain of fetches, of which each but the first asks with the token of the page
before, until a page is the last one or cannot be had. Its entries are those of the pages in order,
each page taken once and on retries of its own, and if a page cannot be had there are none. All pages
are had if none of them takes more retries than there may be. -/
theorem listing_follows_tokens (s : RemoteStore) (name : ListingName) (clock : Time.Clock)
    (w : Wire) :
    (∃ earlier pages last, Listed s name clock ⟨none, w⟩ earlier pages last (s.list name clock w) ∧
      ∀ f ∈ earlier ++ [last], ∃ retries, f.Goes s name clock retries) ∧
    ∀ pages, Serves s name clock none w.deliveries pages →
      (s.list name clock w).result = .ok (pages.flatMap Listing.Page.summaries) := by
  obtain ⟨earlier, pages, last, h⟩ := exists_listed s name clock none w
  exact ⟨⟨earlier, pages, last, h, fun f _ => f.exists_goes s name clock⟩,
    fun pages hserves => listFrom_of_serves hserves rfl⟩

namespace Letters

def store : RemoteStore :=
  ⟨⟨⟨"id", "secret", none⟩, "us-east-1", "s3", "http://localhost:9000", .path⟩, 1⟩

def all : ListingName := ⟨"b", "", ""⟩

def front : Reply :=
  ⟨200, none, some ("<R><IsTruncated>1</IsTruncated><NextContinuationToken>t" ++
    "</NextContinuationToken><Contents><Key>a</Key><Size>1</Size></Contents></R>").toUTF8⟩

def back : Reply :=
  ⟨200, none, some ("<R><Contents><Key>c</Key></Contents><CommonPrefixes><Prefix>b/" ++
    "</Prefix></CommonPrefixes></R>").toUTF8⟩

theorem query_front : canonicalQuery (pageParameters all none) = "list-type=2&prefix=" := by
  rw [canonicalQuery_of_sorted (by decide +kernel)]
  decide +kernel

theorem query_back : canonicalQuery (pageParameters all (some "t")) =
    "continuation-token=t&list-type=2&prefix=" := by
  have hperm : (pageParameters all (some "t")).Perm
      [("continuation-token", "t"), ("list-type", "2"), ("prefix", "")] := by
    decide +kernel
  rw [canonicalQuery_eq_iff.2 hperm, canonicalQuery_of_sorted (by decide +kernel)]
  decide +kernel

theorem sendable (h : token = none ∨ token = some "t") :
    (pageQuestion all token).Sendable store .epoch := by
  have hplain : store.signer.IsPlain .epoch :=
    ⟨by decide, by decide, by decide, by decide +kernel, by decide +kernel⟩
  have hurl : (store.signer.objectUrl "b" "").toOption =
      some ⟨"http", some ⟨"", "", .name "localhost", some 9000⟩, "/b", none, none⟩ := by
    decide +kernel
  have hhost : Url.hostAndPort? ⟨"http", some ⟨"", "", .name "localhost", some 9000⟩, "/b", none,
      none⟩ = some "localhost:9000" := by
    decide +kernel
  refine sendable_pageQuestion (fun _ => hplain) (Signer.ok_of_toOption hurl) hhost ?_
  rcases h with rfl | rfl
  · rw [query_front]
    decide +kernel
  · rw [query_back]
    decide +kernel

end Letters

open Letters

theorem pages_are_joined_after_failures :
    let deliveries : List Delivery := [.closed, .answered front, .hanging, .answered back]
    (store.list all .epoch ⟨deliveries, [], .empty, 0⟩).result =
      .ok [⟨"a", 1, none, ""⟩, ⟨"c", 0, none, ""⟩, ⟨"b/", 0, none, ""⟩] := by
  intro deliveries
  have hfront : (readPage front).toOption = some ⟨true, some "t", [⟨"a", 1, "", ""⟩], []⟩ := by
    decide +kernel
  have hback : (readPage back).toOption = some ⟨false, none, [⟨"c", 0, "", ""⟩], ["b/"]⟩ := by
    decide +kernel
  have hclosed : ∀ d ∈ [Delivery.closed], IsTransient ((pageQuestion all none).hear d) := by
    intro d hd
    cases List.mem_singleton.1 hd
    exact ⟨_, rfl, rfl⟩
  have hhanging : ∀ d ∈ [Delivery.hanging], IsTransient ((pageQuestion all (some "t")).hear d) := by
    intro d hd
    cases List.mem_singleton.1 hd
    exact ⟨_, rfl, rfl⟩
  have hserves : Serves store all .epoch none deliveries
      [⟨true, some "t", [⟨"a", 1, "", ""⟩], []⟩, ⟨false, none, [⟨"c", 0, "", ""⟩], ["b/"]⟩] :=
    .more (sendable (.inl rfl))
      (@Question.Delivers.intro _ _ _ [.closed] [.hanging, .answered back] front _ hclosed
        (by decide) rfl (Signer.ok_of_toOption hfront)) rfl rfl
      (.last (sendable (.inr rfl))
        (@Question.Delivers.intro _ _ _ [.hanging] [] back _ hhanging (by decide) rfl
          (Signer.ok_of_toOption hback)) (.inl rfl))
  rw [(listing_follows_tokens store all .epoch ⟨deliveries, [], .empty, 0⟩).2 _ hserves]
  exact congrArg Except.ok (by decide +kernel)

end RemoteStore

end ObjectCache
