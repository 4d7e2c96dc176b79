import ObjectCache.Proofs.Cache.Expiry

namespace ObjectCache.MetadataCache

open Time

namespace Request

def path? : Request → Option String
  | putHead o _ => some o.path
  | putHeadIfCurrent o _ _ => some o.path
  | invalidate o => some o.path
  | _ => none

def Stores (q : Request) (generation : String → Nat) (o : ObjectName) (size : UInt64) : Prop :=
  q = putHead o size ∨ q = putHeadIfCurrent o size (generation o.bucket)

end Request

def without (bucket : String) (history : List Request) : List Request :=
  history.filter fun q => q.target? ≠ some bucket

variable {q : Request} {history other older : List Request} {bucket b₁ b₂ : String}

theorem without_cons_of_eq (h : q.target? = some bucket) :
    without bucket (q :: older) = without bucket older := by
  simp [without, h]

theorem without_cons_of_ne (h : q.target? ≠ some bucket) :
    without bucket (q :: older) = q :: without bucket older := by
  simp [without, h]

theorem span_of_target (h : q.target? = some bucket) : q.span = 0 := by
  cases q <;> first | rfl | cases h

theorem target?_of_invalidated? (h : q.invalidated? = some bucket) : q.target? = some bucket := by
  cases q <;> first | exact h | cases h

theorem clock_without (bucket : String) (history : List Request) :
    clock (without bucket history) = clock history := by
  induction history with
  | nil => rfl
  | cons q older ih =>
      by_cases h : q.target? = some bucket
      · rw [without_cons_of_eq h, ih, clock, span_of_target h, Nat.add_zero]
      · rw [without_cons_of_ne h, clock, clock, ih]

theorem invalidations_without (hne : b₂ ≠ b₁) (history : List Request) :
    invalidations (without b₁ history) b₂ = invalidations history b₂ := by
  induction history with
  | nil => rfl
  | cons q older ih =>
      by_cases h : q.target? = some b₁
      · have hother : q.invalidated? ≠ some b₂ := by
          intro hinvalidated
          rw [target?_of_invalidated? hinvalidated, Option.some_inj] at h
          exact hne h
        rw [without_cons_of_eq h, ih, invalidations_cons, if_neg hother, Nat.add_zero]
      · rw [without_cons_of_ne h, invalidations_cons, invalidations_cons, ih]

namespace Slot

variable {V : Type} {s : Slot V} {w : Write V}

theorem lastWrite?_without (h : ∀ q ∈ history, q.target? = some bucket →
    ∀ now generation, s.write? now generation q = none) :
    s.lastWrite? (without bucket history) = s.lastWrite? history := by
  induction history with
  | nil => rfl
  | cons q older ih =>
      obtain ⟨hq, holder⟩ := List.forall_mem_cons.1 h
      by_cases htarget : q.target? = some bucket
      · rw [without_cons_of_eq htarget, ih holder, lastWrite?, hq htarget, Option.none_or]
      · have hwrite : s.write? (clock older) (invalidations (without bucket older)) q =
            s.write? (clock older) (invalidations older) q := by
          refine s.write?_congr fun b hb => invalidations_without ?_ older
          rintro rfl
          exact htarget hb
        rw [without_cons_of_ne htarget, lastWrite?, lastWrite?, clock_without, hwrite, ih holder]

theorem shown?_without (h : ∀ q ∈ history, q.target? = some bucket →
    ∀ now generation, s.write? now generation q = none) :
    s.shown? (without bucket history) = s.shown? history := by
  refine Option.ext fun v => ?_
  rw [shown?_eq_some_iff, shown?_eq_some_iff, clock_without, lastWrite?_without h]

theorem write?_head_of_path {ttl : Millis} {path : String} (htarget : q.target? = some bucket)
    (hpath : q.path? ≠ some path) (now : Millis) (generation : String → Nat) :
    (head ttl path).write? now generation q = none := by
  cases q with
  | putHead o size => exact if_neg fun h => hpath (congrArg some h.1)
  | putHeadIfCurrent o size g => exact if_neg fun h => hpath (congrArg some h.1)
  | invalidate o => exact if_neg fun h => hpath (congrArg some h)
  | clear => cases htarget
  | _ => rfl

theorem write?_listing_of_target {ttl : Millis} {name : ListingName}
    (htarget : q.target? = some bucket) (hne : bucket ≠ name.bucket) (now : Millis)
    (generation : String → Nat) : (listing ttl name).write? now generation q = none := by
  have hq : q.target? ≠ some name.bucket := by
    rw [htarget]
    exact fun h => hne (Option.some_inj.1 h)
  cases q with
  | putListing n objects =>
      exact if_neg fun h => hq (congrArg (fun m : ListingName => some m.bucket) h.1)
  | putListingIfCurrent n objects g =>
      exact if_neg fun h => hq (congrArg (fun m : ListingName => some m.bucket) h.1)
  | invalidate o => exact if_neg fun h => hq (congrArg some h)
  | clear => cases htarget
  | _ => rfl

theorem exists_of_lastWrite? (h : s.lastWrite? history = some w) :
    ∃ newer q older, history = newer ++ q :: older ∧
      s.write? (clock older) (invalidations older) q = some w ∧
      ∀ r ∈ newer, ∃ now generation, s.write? now generation r = none := by
  induction history with
  | nil => cases h
  | cons q older ih =>
      rw [lastWrite?] at h
      cases hq : s.write? (clock older) (invalidations older) q with
      | some x =>
          rw [hq, Option.some_or] at h
          exact ⟨[], q, older, rfl, hq.trans h, List.forall_mem_nil _⟩
      | none =>
          rw [hq, Option.none_or] at h
          obtain ⟨newer, p, oldest, rfl, hp, hnewer⟩ := ih h
          exact ⟨q :: newer, p, oldest, rfl, hp, List.forall_mem_cons.2 ⟨⟨_, _, hq⟩, hnewer⟩⟩

theorem stores_of_write?_head {ttl now t : Millis} {path : String} {generation : String → Nat}
    {size : UInt64} (h : (head ttl path).write? now generation q = some (.put size t)) :
    ∃ o, q.Stores generation o size ∧ o.path = path ∧ t = now := by
  cases q with
  | putHead o n =>
      obtain ⟨⟨hpath, -⟩, heq⟩ := Option.ite_none_right_eq_some.1 h
      cases heq
      exact ⟨o, .inl rfl, hpath, rfl⟩
  | putHeadIfCurrent o n g =>
      obtain ⟨⟨hpath, -, rfl⟩, heq⟩ := Option.ite_none_right_eq_some.1 h
      cases heq
      exact ⟨o, .inr rfl, hpath, rfl⟩
  | invalidate o => cases (Option.ite_none_right_eq_some.1 h).2
  | clear => cases h
  | _ => cases h

end Slot

theorem shown?_listing_of_same {ttl : Millis} {name : ListingName}
    (hsame : without bucket history = without bucket other) (hne : bucket ≠ name.bucket) :
    (Slot.listing ttl name).shown? history = (Slot.listing ttl name).shown? other := by
  have hwrite : ∀ q : Request, q.target? = some bucket → ∀ now generation,
      (Slot.listing ttl name).write? now generation q = none :=
    fun _ htarget => Slot.write?_listing_of_target htarget hne
  rw [← Slot.shown?_without fun q _ => hwrite q, hsame, Slot.shown?_without fun q _ => hwrite q]

theorem shown?_head_of_same {ttl : Millis} {path : String}
    (hsame : without bucket history = without bucket other)
    (hpath : ∀ q ∈ history ++ other, q.target? = some bucket → q.path? ≠ some path) :
    (Slot.head ttl path).shown? history = (Slot.head ttl path).shown? other := by
  have hwrite : ∀ q ∈ history ++ other, q.target? = some bucket → ∀ now generation,
      (Slot.head ttl path).write? now generation q = none :=
    fun q hq htarget => Slot.write?_head_of_path htarget (hpath q hq htarget)
  rw [← Slot.shown?_without fun q hq => hwrite q (List.mem_append_left _ hq), hsame,
    Slot.shown?_without fun q hq => hwrite q (List.mem_append_right _ hq)]

/-- Whatever is put or invalidated in one bucket, the generation and the listings of another are the
same, and so are its sizes unless it is about an object of the same path. And the size found for an
object was put for one of its path, in the generation of that one's bucket if in any, since an object
of its path was last invalidated. -/
theorem buckets_are_isolated (headTtl listingTtl : Millis) (hne : b₁ ≠ b₂)
    (hsame : without b₁ history = without b₁ other) :
    let c := after headTtl listingTtl history
    let d := after headTtl listingTtl other
    let now := clock history
    clock other = now ∧ c.generation b₂ = d.generation b₂ ∧
      (∀ name : ListingName, name.bucket = b₂ →
        (c.getListing now name).1 = (d.getListing now name).1) ∧
      (∀ o : ObjectName, o.bucket = b₂ →
        (∀ q ∈ history ++ other, q.target? = some b₁ → q.path? ≠ some o.path) →
        (c.getHead now o).1 = (d.getHead now o).1) ∧
      ∀ o size, (c.getHead now o).1 = some size → ∃ p newer q older,
        history = newer ++ q :: older ∧ q.Stores (invalidations older) p size ∧
          p.path = o.path ∧ now < clock older + headTtl ∧
          ∀ r, .invalidate r ∈ newer → r.path ≠ o.path := by
  intro c d now
  have hclock : clock other = now := by
    rw [← clock_without b₁ other, ← hsame]
    exact clock_without b₁ history
  refine ⟨hclock, ?_, ?_, ?_, ?_⟩
  · simp only [c, d, generation_after]
    rw [← invalidations_without hne.symm history, hsame, invalidations_without hne.symm other]
  · rintro name rfl
    rw [getListing_after, shown?_listing_of_same hsame hne, ← getListing_after headTtl, hclock]
  · rintro o rfl hpath
    rw [getHead_after, shown?_head_of_same hsame hpath, ← getHead_after headTtl listingTtl, hclock]
  · intro o size hfound
    rw [getHead_after, Slot.shown?_eq_some_iff] at hfound
    obtain ⟨t, hlast, hlt⟩ := hfound
    obtain ⟨newer, q, older, hhistory, hwrite, hnewer⟩ := Slot.exists_of_lastWrite? hlast
    obtain ⟨p, hstores, hp, rfl⟩ := Slot.stores_of_write?_head hwrite
    refine ⟨p, newer, q, older, hhistory, hstores, hp, hlt, ?_⟩
    intro r hr hpath
    obtain ⟨_, _, hnone⟩ := hnewer _ hr
    simp [Slot.head, hpath] at hnone

theorem size_outlives_other_bucket :
    let own := [Request.putHeadIfCurrent ⟨"b", "k"⟩ 5 0]
    let history := .invalidate ⟨"a", "k"⟩ :: .putHead ⟨"a", "k"⟩ 3 :: own
    "a" ≠ "b" ∧ without "a" history = without "a" own ∧
      ((after 10 10 own).getHead 0 ⟨"b", "k"⟩).1 = some 5 ∧
      ((after 10 10 history).getHead 0 ⟨"b", "k"⟩).1 = some 5 := by
  have hne : "a" ≠ "b" := by decide
  have hsame : without "a" [.invalidate ⟨"a", "k"⟩, .putHead ⟨"a", "k"⟩ 3,
      .putHeadIfCurrent ⟨"b", "k"⟩ 5 0] = without "a" [.putHeadIfCurrent ⟨"b", "k"⟩ 5 0] := rfl
  have hown : ((after 10 10 [.putHeadIfCurrent ⟨"b", "k"⟩ 5 0]).getHead 0 ⟨"b", "k"⟩).1 = some 5 :=
    rfl
  obtain ⟨-, -, -, hheads, -⟩ := buckets_are_isolated 10 10 hne hsame
  refine ⟨hne, hsame, hown, (hheads ⟨"b", "k"⟩ rfl ?_).trans hown⟩
  simp [Request.target?, Request.path?, ObjectName.path]

theorem size_crosses_buckets :
    "a/b" ≠ "a" ∧
      ((after 5000 5000 []).getHead 0 ⟨"a", "b/c"⟩).1 = none ∧
      ((after 5000 5000 [.putHead ⟨"a/b", "c"⟩ 7]).getHead 0 ⟨"a", "b/c"⟩).1 = some 7 ∧
      (after 5000 5000 []).generation "a" = 0 ∧
      ((after 5000 5000 [.putHeadIfCurrent ⟨"a", "b/c"⟩ 7 0, .invalidate ⟨"a/b", "c"⟩]).getHead 0
        ⟨"a/b", "c"⟩).1 = some 7 := by
  decide

end ObjectCache.MetadataCache
