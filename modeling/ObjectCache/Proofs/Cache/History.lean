import ObjectCache.Proofs.Cache.Entries

namespace ObjectCache.MetadataCache

open Time

inductive Request where
  | getHead (object : ObjectName)
  | putHead (object : ObjectName) (size : UInt64)
  | putHeadIfCurrent (object : ObjectName) (size : UInt64) (generation : Nat)
  | getListing (name : ListingName)
  | putListing (name : ListingName) (objects : List ObjectSummary)
  | putListingIfCurrent (name : ListingName) (objects : List ObjectSummary) (generation : Nat)
  | generation (bucket : String)
  | invalidate (object : ObjectName)
  | purge
  | sweep (sweeper : Sweeper) (span : Millis)
  | clear
  | advance (span : Millis)

def perform (c : MetadataCache) (now : Millis) : Request → MetadataCache
  | .getHead o => (c.getHead now o).2
  | .putHead o size => (c.putHead now o size).getD c
  | .putHeadIfCurrent o size generation =>
      ((c.putHeadIfCurrent now o size generation).map (·.2)).getD c
  | .getListing name => (c.getListing now name).2
  | .putListing name objects => (c.putListing now name objects).getD c
  | .putListingIfCurrent name objects generation =>
      ((c.putListingIfCurrent now name objects generation).map (·.2)).getD c
  | .generation _ => c
  | .invalidate o => (c.invalidate o).1
  | .purge => (c.purge now).2
  | .sweep sweeper span => (sweeper.pass span now c).2
  | .clear => c.clear
  | .advance _ => c

namespace Request

def span : Request → Millis
  | advance span => span
  | _ => 0

def invalidated? : Request → Option String
  | invalidate o => some o.bucket
  | _ => none

def target? : Request → Option String
  | putHead o _ => some o.bucket
  | putHeadIfCurrent o _ _ => some o.bucket
  | putListing name _ => some name.bucket
  | putListingIfCurrent name _ _ => some name.bucket
  | invalidate o => some o.bucket
  | _ => none

def IsQuiet : Request → Prop
  | getHead _ => True
  | getListing _ => True
  | generation _ => True
  | purge => True
  | sweep .. => True
  | _ => False

end Request

def clock : List Request → Millis
  | [] => 0
  | q :: older => clock older + q.span

def invalidations (history : List Request) (bucket : String) : Nat :=
  (history.filterMap Request.invalidated?).count bucket

def after (headTtl listingTtl : Millis) : List Request → MetadataCache
  | [] => withTtls headTtl listingTtl
  | q :: older => (after headTtl listingTtl older).perform (clock older) q

variable {c : MetadataCache} {now : Millis} {q : Request} {newer older history : List Request}

theorem clock_append (newer older : List Request) :
    clock (newer ++ older) = clock newer + clock older := by
  induction newer with
  | nil => rw [List.nil_append, clock, Nat.zero_add]
  | cons q newer ih => rw [List.cons_append, clock, clock, ih, Nat.add_right_comm]

theorem invalidations_cons (q : Request) (older : List Request) (bucket : String) :
    invalidations (q :: older) bucket =
      invalidations older bucket + if q.invalidated? = some bucket then 1 else 0 := by
  cases h : q.invalidated? with
  | none => simp [invalidations, h]
  | some b => simp [invalidations, h, List.count_cons]

theorem span_of_quiet (hq : q.IsQuiet) : q.span = 0 := by
  cases q <;> first | rfl | exact hq.elim

theorem invalidated?_of_quiet (hq : q.IsQuiet) : q.invalidated? = none := by
  cases q <;> first | rfl | exact hq.elim

theorem clock_leaveOut (newer older : List Request) (hspan : q.span = 0) :
    clock (newer ++ q :: older) = clock (newer ++ older) := by
  rw [clock_append, clock_append, clock, hspan, Nat.add_zero]

theorem invalidations_leaveOut (newer older : List Request) (hq : q.invalidated? = none) :
    invalidations (newer ++ q :: older) = invalidations (newer ++ older) := by
  funext bucket
  simp [invalidations, hq]

theorem perform_putHead (c : MetadataCache) (now : Millis) (o : ObjectName) (size : UInt64) :
    c.perform now (.putHead o size) =
      if now + c.headTtl < horizon then c.storeHead o size (now + c.headTtl) else c := by
  simp only [perform, putHead, deadline?]
  split <;> rfl

theorem perform_putHeadIfCurrent (c : MetadataCache) (now : Millis) (o : ObjectName)
    (size : UInt64) (generation : Nat) :
    c.perform now (.putHeadIfCurrent o size generation) =
      if now + c.headTtl < horizon ∧ c.generation o.bucket = generation then
        c.storeHead o size (now + c.headTtl)
      else c := by
  simp only [perform, putHeadIfCurrent, deadline?]
  by_cases hlast : now + c.headTtl < horizon
  · by_cases hcurrent : c.generation o.bucket = generation <;> simp [hlast, hcurrent]
  · simp [hlast]

theorem perform_putListing (c : MetadataCache) (now : Millis) (name : ListingName)
    (objects : List ObjectSummary) :
    c.perform now (.putListing name objects) =
      if now + c.listingTtl < horizon then c.storeListing name objects (now + c.listingTtl)
      else c := by
  simp only [perform, putListing, deadline?]
  split <;> rfl

theorem perform_putListingIfCurrent (c : MetadataCache) (now : Millis) (name : ListingName)
    (objects : List ObjectSummary) (generation : Nat) :
    c.perform now (.putListingIfCurrent name objects generation) =
      if now + c.listingTtl < horizon ∧ c.generation name.bucket = generation then
        c.storeListing name objects (now + c.listingTtl)
      else c := by
  simp only [perform, putListingIfCurrent, deadline?]
  by_cases hlast : now + c.listingTtl < horizon
  · by_cases hcurrent : c.generation name.bucket = generation <;> simp [hlast, hcurrent]
  · simp [hlast]

theorem perform_sweep (c : MetadataCache) (now : Millis) (sweeper : Sweeper) (span : Millis) :
    c.perform now (.sweep sweeper span) =
      if sweeper.isDueWithin span then (c.purge now).2 else c := rfl

structure Follows (q : Request) (c d : MetadataCache) : Prop where
  headTtl : d.headTtl = c.headTtl
  listingTtl : d.listingTtl = c.listingTtl
  generation : ∀ bucket, d.generation bucket =
    c.generation bucket + if q.invalidated? = some bucket then 1 else 0

theorem Within.follows {d : MetadataCache} (h : d.Within c) (hq : q.invalidated? = none) :
    Follows q c d :=
  ⟨h.headTtl, h.listingTtl, fun bucket => by simp [h.generation_eq, hq]⟩

theorem follows_storeHead (c : MetadataCache) (o : ObjectName) (size : UInt64)
    (expires : Millis) (hq : q.invalidated? = none) : Follows q c (c.storeHead o size expires) :=
  ⟨rfl, rfl, fun bucket => by simp [hq, storeHead, MetadataCache.generation]⟩

theorem follows_storeListing (c : MetadataCache) (name : ListingName)
    (objects : List ObjectSummary) (expires : Millis) (hq : q.invalidated? = none) :
    Follows q c (c.storeListing name objects expires) :=
  ⟨rfl, rfl, fun bucket => by simp [hq, storeListing, MetadataCache.generation]⟩

theorem follows_perform (c : MetadataCache) (now : Millis) (q : Request) :
    Follows q c (c.perform now q) := by
  cases q with
  | getHead o => exact (within_getHead c now o).follows rfl
  | putHead o size =>
      rw [perform_putHead]
      split
      · exact follows_storeHead c o size _ rfl
      · exact (Within.refl c).follows rfl
  | putHeadIfCurrent o size generation =>
      rw [perform_putHeadIfCurrent]
      split
      · exact follows_storeHead c o size _ rfl
      · exact (Within.refl c).follows rfl
  | getListing name => exact (within_getListing c now name).follows rfl
  | putListing name objects =>
      rw [perform_putListing]
      split
      · exact follows_storeListing c name objects _ rfl
      · exact (Within.refl c).follows rfl
  | putListingIfCurrent name objects generation =>
      rw [perform_putListingIfCurrent]
      split
      · exact follows_storeListing c name objects _ rfl
      · exact (Within.refl c).follows rfl
  | generation bucket => exact (Within.refl c).follows rfl
  | invalidate o =>
      refine ⟨rfl, rfl, ?_⟩
      intro bucket
      simp only [Request.invalidated?, Option.some.injEq, eq_comm (a := o.bucket)]
      exact generation_invalidate c o bucket
  | purge => exact (within_purge c now).follows rfl
  | sweep sweeper span =>
      rw [perform_sweep]
      split
      · exact (within_purge c now).follows rfl
      · exact (Within.refl c).follows rfl
  | clear => exact ⟨rfl, rfl, fun bucket => rfl⟩
  | advance span => exact (Within.refl c).follows rfl

variable {headTtl listingTtl : Millis}

theorem headTtl_after (headTtl listingTtl : Millis) (history : List Request) :
    (after headTtl listingTtl history).headTtl = headTtl := by
  induction history with
  | nil => rfl
  | cons q older ih => exact (follows_perform _ _ q).headTtl.trans ih

theorem listingTtl_after (headTtl listingTtl : Millis) (history : List Request) :
    (after headTtl listingTtl history).listingTtl = listingTtl := by
  induction history with
  | nil => rfl
  | cons q older ih => exact (follows_perform _ _ q).listingTtl.trans ih

theorem generation_after (headTtl listingTtl : Millis) (history : List Request) :
    (after headTtl listingTtl history).generation = invalidations history := by
  induction history with
  | nil => rfl
  | cons q older ih =>
      funext bucket
      rw [after, (follows_perform _ _ q).generation, ih, invalidations_cons]

theorem heads_getHead (c : MetadataCache) (now : Millis) (o : ObjectName) (path : String) :
    (c.getHead now o).2.heads.get? path =
      if o.path = path then (c.heads.get? path).filter (now < ·.expires)
      else c.heads.get? path := by
  unfold getHead
  by_cases hpath : o.path = path
  · subst hpath
    cases he : c.heads.get? o.path with
    | none => simp [record, he]
    | some e =>
        by_cases hlt : now < e.expires
        · simp [record, he, hlt, Option.filter]
        · simp [record, hlt, Option.filter]
  · rw [if_neg hpath]
    split
    · split
      · rfl
      · simp [record, Ne.symm hpath]
    · rfl

theorem listings_getListing (c : MetadataCache) (now : Millis) (name other : ListingName) :
    (c.getListing now name).2.listings.get? other =
      if name = other then (c.listings.get? other).filter (now < ·.expires)
      else c.listings.get? other := by
  unfold getListing
  by_cases hname : name = other
  · subst hname
    cases he : c.listings.get? name with
    | none => simp [record, he]
    | some e =>
        by_cases hlt : now < e.expires
        · simp [record, he, hlt, Option.filter]
        · simp [record, hlt, Option.filter]
  · rw [if_neg hname]
    split
    · split
      · rfl
      · simp [record, Ne.symm hname]
    · rfl

theorem listings_getHead (c : MetadataCache) (now : Millis) (o : ObjectName) :
    (c.getHead now o).2.listings = c.listings := by
  unfold getHead
  split
  · split <;> rfl
  · rfl

theorem heads_getListing (c : MetadataCache) (now : Millis) (name : ListingName) :
    (c.getListing now name).2.heads = c.heads := by
  unfold getListing
  split
  · split <;> rfl
  · rfl

end ObjectCache.MetadataCache
