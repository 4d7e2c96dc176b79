import ObjectCache.Cache.Metadata

namespace ObjectCache.MetadataCache

open Time

structure Within (c d : MetadataCache) : Prop where
  heads : ∀ path e, c.heads.get? path = some e → d.heads.get? path = some e
  listings : ∀ name e, c.listings.get? name = some e → d.listings.get? name = some e
  generations : c.generations = d.generations
  headTtl : c.headTtl = d.headTtl
  listingTtl : c.listingTtl = d.listingTtl

theorem Within.refl (c : MetadataCache) : c.Within c :=
  ⟨fun _ _ h => h, fun _ _ h => h, rfl, rfl, rfl⟩

theorem Within.trans {c d e : MetadataCache} (h : c.Within d) (k : d.Within e) : c.Within e :=
  ⟨fun p x hx => k.heads p x (h.heads p x hx), fun n x hx => k.listings n x (h.listings n x hx),
    h.generations.trans k.generations, h.headTtl.trans k.headTtl,
    h.listingTtl.trans k.listingTtl⟩

theorem Within.generation_eq {c d : MetadataCache} (h : c.Within d) (bucket : String) :
    c.generation bucket = d.generation bucket := by
  simp only [generation, h.generations]

theorem within_record (c : MetadataCache) (hit : Bool) : (c.record hit).Within c := by
  cases hit <;> exact ⟨fun _ _ h => h, fun _ _ h => h, rfl, rfl, rfl⟩

theorem within_filter_heads (c : MetadataCache) (p : String → HeadEntry → Bool) :
    Within { c with heads := c.heads.filter p } c := by
  refine ⟨?_, fun _ _ h => h, rfl, rfl, rfl⟩
  intro path e h
  rw [Table.get?_filter, Option.filter_eq_some_iff] at h
  exact h.1

theorem within_filter_listings (c : MetadataCache) (p : ListingName → ListingEntry → Bool) :
    Within { c with listings := c.listings.filter p } c := by
  refine ⟨fun _ _ h => h, ?_, rfl, rfl, rfl⟩
  intro name e h
  rw [Table.get?_filter, Option.filter_eq_some_iff] at h
  exact h.1

theorem within_getHead (c : MetadataCache) (now : Millis) (o : ObjectName) :
    (c.getHead now o).2.Within c := by
  unfold getHead
  split
  · split
    · exact within_record c true
    · exact (within_record _ false).trans (within_filter_heads c _)
  · exact within_record c false

theorem within_getListing (c : MetadataCache) (now : Millis) (name : ListingName) :
    (c.getListing now name).2.Within c := by
  unfold getListing
  split
  · split
    · exact within_record c true
    · exact (within_record _ false).trans (within_filter_listings c _)
  · exact within_record c false

theorem within_purge (c : MetadataCache) (now : Millis) : (c.purge now).2.Within c :=
  (within_filter_listings { c with heads := c.heads.filter fun _ e => now < e.expires } _).trans
    (within_filter_heads c _)

theorem entry_of_getHead {c : MetadataCache} {now : Millis} {o : ObjectName} {n : UInt64}
    (h : (c.getHead now o).1 = some n) :
    ∃ e, c.heads.get? o.path = some e ∧ e.size = n ∧ now < e.expires := by
  unfold getHead at h
  split at h
  · rename_i e he
    split at h
    · exact ⟨e, he, by simpa using h, by assumption⟩
    · simp at h
  · simp at h

theorem entry_of_getListing {c : MetadataCache} {now : Millis} {name : ListingName}
    {objects : List ObjectSummary} (h : (c.getListing now name).1 = some objects) :
    ∃ e, c.listings.get? name = some e ∧ e.objects = objects ∧ now < e.expires := by
  unfold getListing at h
  split at h
  · rename_i e he
    split at h
    · exact ⟨e, he, by simpa using h, by assumption⟩
    · simp at h
  · simp at h

theorem heads_invalidate (c : MetadataCache) (o : ObjectName) (path : String) :
    (c.invalidate o).1.heads.get? path = if path = o.path then none else c.heads.get? path := by
  simp [invalidate]

theorem listings_of_invalidate {c : MetadataCache} {o : ObjectName} {name : ListingName}
    {e : ListingEntry} (h : (c.invalidate o).1.listings.get? name = some e) :
    c.listings.get? name = some e ∧ name.bucket ≠ o.bucket := by
  simpa [invalidate, Table.get?_filter, Option.filter_eq_some_iff] using h

theorem generation_invalidate (c : MetadataCache) (o : ObjectName) (bucket : String) :
    (c.invalidate o).1.generation bucket =
      c.generation bucket + if bucket = o.bucket then 1 else 0 := by
  simp only [generation, invalidate, Counts.count_add]
  split <;> simp [*]

end ObjectCache.MetadataCache
