import ObjectCache.Proofs.Cache.History

namespace ObjectCache.MetadataCache

open Time

variable {c d : MetadataCache} {now headTtl listingTtl expires : Millis} {o : ObjectName}
  {name : ListingName} {size : UInt64} {objects : List ObjectSummary} {bucket : String}
  {newer older : List Request} {token : Nat} {current : Prop} {put : Option MetadataCache}
  {result : Option (Bool × MetadataCache)}

theorem deadline?_of_lt {ttl : Millis} (h : now + ttl < horizon) :
    deadline? now ttl = some (now + ttl) :=
  deadline?_eq_some_iff.2 ⟨h, rfl⟩

theorem putHead_of_lt (o : ObjectName) (size : UInt64) (h : now + c.headTtl < horizon) :
    c.putHead now o size = some (c.storeHead o size (now + c.headTtl)) := by
  rw [putHead, deadline?_of_lt h, Option.map_some]

theorem putListing_of_lt (name : ListingName) (objects : List ObjectSummary)
    (h : now + c.listingTtl < horizon) :
    c.putListing now name objects = some (c.storeListing name objects (now + c.listingTtl)) := by
  rw [putListing, deadline?_of_lt h, Option.map_some]

def TakenIf (current : Prop) (c : MetadataCache) (put : Option MetadataCache)
    (result : Option (Bool × MetadataCache)) : Prop :=
  ∃ taken d, result = some (taken, d) ∧ (taken = true ↔ current) ∧
    (taken = true → put = some d) ∧ (taken = false → d = c)

theorem takenIf_of_true (h : current) (hput : put = some d) :
    TakenIf current c put (some (true, d)) :=
  ⟨true, d, rfl, ⟨fun _ => h, fun _ => rfl⟩, fun _ => hput, Bool.noConfusion⟩

theorem takenIf_of_false (h : ¬current) : TakenIf current c put (some (false, c)) :=
  ⟨false, c, rfl, ⟨Bool.noConfusion, fun hcurrent => absurd hcurrent h⟩, Bool.noConfusion,
    fun _ => rfl⟩

theorem takenIf_putHeadIfCurrent (o : ObjectName) (size : UInt64)
    (h : now + c.headTtl < horizon) (hcurrent : c.generation o.bucket = token ↔ current) :
    TakenIf current c (c.putHead now o size) (c.putHeadIfCurrent now o size token) := by
  rw [putHeadIfCurrent, deadline?_of_lt h, Option.map_some]
  split
  · rename_i htoken
    exact takenIf_of_true (hcurrent.1 htoken) (putHead_of_lt o size h)
  · rename_i htoken
    exact takenIf_of_false fun hholds => htoken (hcurrent.2 hholds)

theorem takenIf_putListingIfCurrent (name : ListingName) (objects : List ObjectSummary)
    (h : now + c.listingTtl < horizon) (hcurrent : c.generation name.bucket = token ↔ current) :
    TakenIf current c (c.putListing now name objects)
      (c.putListingIfCurrent now name objects token) := by
  rw [putListingIfCurrent, deadline?_of_lt h, Option.map_some]
  split
  · rename_i htoken
    exact takenIf_of_true (hcurrent.1 htoken) (putListing_of_lt name objects h)
  · rename_i htoken
    exact takenIf_of_false fun hholds => htoken (hcurrent.2 hholds)

structure PutsHead (c : MetadataCache) (o : ObjectName) (x : HeadEntry) (d : MetadataCache) :
    Prop where
  heads : ∀ path, d.heads.get? path = if path = o.path then some x else c.heads.get? path
  listings : ∀ name, d.listings.get? name = c.listings.get? name
  generations : d.generation = c.generation

structure PutsListing (c : MetadataCache) (name : ListingName) (x : ListingEntry)
    (d : MetadataCache) : Prop where
  heads : ∀ path, d.heads.get? path = c.heads.get? path
  listings : ∀ other, d.listings.get? other =
    if other = name then some x else c.listings.get? other
  generations : d.generation = c.generation

theorem putsHead_of_putHead (h : c.putHead now o size = some d) :
    c.PutsHead o ⟨size, now + c.headTtl⟩ d := by
  obtain ⟨expires, hexpires, rfl⟩ := Option.map_eq_some_iff.1 h
  obtain ⟨-, rfl⟩ := deadline?_eq_some_iff.1 hexpires
  exact ⟨fun path => c.heads.get?_insert _ path _, fun _ => rfl, rfl⟩

theorem putsListing_of_putListing (h : c.putListing now name objects = some d) :
    c.PutsListing name ⟨objects, now + c.listingTtl⟩ d := by
  obtain ⟨expires, hexpires, rfl⟩ := Option.map_eq_some_iff.1 h
  obtain ⟨-, rfl⟩ := deadline?_eq_some_iff.1 hexpires
  exact ⟨fun _ => rfl, fun other => c.listings.get?_insert _ other _, rfl⟩

theorem invalidations_append (newer older : List Request) (bucket : String) :
    invalidations (newer ++ older) bucket =
      invalidations newer bucket + invalidations older bucket := by
  rw [invalidations, List.filterMap_append, List.count_append]
  rfl

theorem invalidations_eq_zero_iff {history : List Request} :
    invalidations history bucket = 0 ↔ ∀ o, .invalidate o ∈ history → o.bucket ≠ bucket := by
  rw [invalidations, List.count_eq_zero, List.mem_filterMap]
  constructor
  · rintro hnone o ho rfl
    exact hnone ⟨.invalidate o, ho, rfl⟩
  · rintro hnone ⟨q, hq, hbucket⟩
    cases q with
    | invalidate o => exact hnone o hq (Option.some.inj hbucket)
    | _ => cases hbucket

theorem generation_after_eq_iff :
    (after headTtl listingTtl (newer ++ older)).generation bucket =
        (after headTtl listingTtl older).generation bucket ↔
      ∀ o, .invalidate o ∈ newer → o.bucket ≠ bucket := by
  rw [generation_after, generation_after, invalidations_append, Nat.add_eq_right,
    invalidations_eq_zero_iff]

/-- With the generation that a bucket had earlier, a size or a listing of it is taken exactly if no
object of the bucket was invalidated in between. It is then put as without the condition; else nothing
changes. -/
theorem tokens_detect_bucket_invalidations (headTtl listingTtl : Millis)
    (newer older : List Request) (bucket : String) :
    let token := (after headTtl listingTtl older).generation bucket
    let c := after headTtl listingTtl (newer ++ older)
    let now := clock (newer ++ older)
    let undisturbed := ∀ o, .invalidate o ∈ newer → o.bucket ≠ bucket
    (∀ (o : ObjectName) (size : UInt64), o.bucket = bucket → now + headTtl < horizon →
      TakenIf undisturbed c (c.putHead now o size) (c.putHeadIfCurrent now o size token) ∧
      ∀ d, c.putHead now o size = some d → c.PutsHead o ⟨size, now + headTtl⟩ d) ∧
    ∀ (name : ListingName) (objects : List ObjectSummary), name.bucket = bucket →
      now + listingTtl < horizon →
      TakenIf undisturbed c (c.putListing now name objects)
        (c.putListingIfCurrent now name objects token) ∧
      ∀ d, c.putListing now name objects = some d →
        c.PutsListing name ⟨objects, now + listingTtl⟩ d := by
  intro token c now undisturbed
  have hheadTtl : c.headTtl = headTtl := headTtl_after headTtl listingTtl (newer ++ older)
  have hlistingTtl : c.listingTtl = listingTtl := listingTtl_after headTtl listingTtl (newer ++ older)
  have hcurrent : c.generation bucket = token ↔ undisturbed := generation_after_eq_iff
  rw [← hheadTtl, ← hlistingTtl]
  constructor
  · rintro o size rfl hlast
    exact ⟨takenIf_putHeadIfCurrent o size hlast hcurrent, fun d => putsHead_of_putHead⟩
  · rintro name objects rfl hlast
    exact ⟨takenIf_putListingIfCurrent name objects hlast hcurrent,
      fun d => putsListing_of_putListing⟩

theorem listing_asked_for_too_early_is_refused :
    let name : ListingName := ⟨"b", "k", "/"⟩
    let other := [Request.clear, .invalidate ⟨"a", "k"⟩, .advance 7, .putHead ⟨"b", "j"⟩ 3]
    let newer := .invalidate ⟨"b", "j"⟩ :: other
    let c := after 5 5 newer
    let d := after 5 5 other
    clock newer + 5 < horizon ∧ c.putListingIfCurrent 7 name [] 0 = some (false, c) ∧
      ∃ e, d.putListingIfCurrent 7 name [] 0 = some (true, e) ∧
        d.putListing 7 name [] = some e := by
  intro name other newer c d
  have hlast : clock newer + 5 < horizon := by decide
  obtain ⟨-, hstale⟩ := tokens_detect_bucket_invalidations 5 5 newer [] "b"
  obtain ⟨-, hcurrent⟩ := tokens_detect_bucket_invalidations 5 5 other [] "b"
  obtain ⟨⟨taken, _, hresult, htaken, -, hrefused⟩, -⟩ := hstale name [] rfl hlast
  obtain ⟨⟨fresh, e, hfresh, hiff, haccepted, -⟩, -⟩ := hcurrent name [] rfl hlast
  have hfalse : taken = false := by
    refine Bool.eq_false_iff.2 fun htrue => ?_
    exact htaken.1 htrue ⟨"b", "j"⟩ List.mem_cons_self rfl
  have htrue : fresh = true := hiff.2 (by simp [other])
  obtain rfl := hrefused hfalse
  subst hfalse htrue
  exact ⟨hlast, hresult, e, hfresh, haccepted rfl⟩

end ObjectCache.MetadataCache
