import ObjectCache.Proofs.Client.Holdings

namespace ObjectCache.Client

open Time

variable {c : Client} {F : Facts} {r : Reading} {left : Nat} {o : ObjectName} {now : Millis}

theorem readOn_induction {P : Client → Reading → Nat → Prop} {T : Turn → Prop}
    (hawait : ∀ c r left, P c r left → (c.lookUp r).1 = none → T ((c.lookUp r).2.awaitBlock r left))
    (hshort : ∀ c r left block, P c r left → (c.lookUp r).1 = some block → r.next? block = none →
      T ((c.lookUp r).2.finishRead r))
    (hlast : ∀ c r block s, P c r 0 → (c.lookUp r).1 = some block → r.next? block = some s →
      T ((c.lookUp r).2.finishRead s))
    (hnext : ∀ c r left block s, P c r (left + 1) → (c.lookUp r).1 = some block →
      r.next? block = some s → P (c.lookUp r).2 s left)
    (c : Client) (r : Reading) (left : Nat) (h : P c r left) : T (c.readOn r left) := by
  induction left generalizing c r with
  | zero =>
      rw [readOn, readBlock]
      split
      · rename_i d hl
        have hd := hawait c r 0 h (by rw [hl])
        rwa [hl] at hd
      · rename_i block d hl
        rw [useBlock]
        split
        · rename_i hn
          have hd := hshort c r 0 block h (by rw [hl]) hn
          rwa [hl] at hd
        · rename_i s hn
          have hd := hlast c r block s h (by rw [hl]) hn
          rwa [hl] at hd
  | succ left ih =>
      rw [readOn, readBlock]
      split
      · rename_i d hl
        have hd := hawait c r (left + 1) h (by rw [hl])
        rwa [hl] at hd
      · rename_i block d hl
        rw [useBlock]
        split
        · rename_i hn
          have hd := hshort c r (left + 1) block h (by rw [hl]) hn
          rwa [hl] at hd
        · rename_i s hn
          have hd := hnext c r left block s h (by rw [hl]) hn
          rw [hl] at hd
          exact ih d s hd

structure Turn.Continues (t : Turn) (c : Client) (o : ObjectName) (size : UInt64) : Prop where
  within : t.client.Within c
  waiting : ∀ p, t.progress = .waiting p → ∃ r left,
    p = .block r left (t.client.blocks.generation o) ∧ r.object = o ∧ r.size = size ∧ r.Planned left

theorem continues_finishRead {d : Client} (h : c.Within d) (r : Reading) (size : UInt64) :
    (c.finishRead r).Continues d o size :=
  ⟨h, fun p hp => by simp [finishRead] at hp⟩

theorem continues_readOn (c : Client) (h : r.Planned left) :
    (c.readOn r left).Continues c r.object r.size := by
  refine readOn_induction
    (P := fun d s left => d.Within c ∧ s.object = r.object ∧ s.size = r.size ∧ s.Planned left)
    (T := fun t => t.Continues c r.object r.size) ?_ ?_ ?_ ?_ c r left
    ⟨.refl c, rfl, rfl, h⟩
  · rintro d s left ⟨hd, ho, hs, hp⟩ -
    refine ⟨(within_lookUp d s).trans hd, ?_⟩
    intro p hw
    simp only [awaitBlock, Progress.waiting.injEq] at hw
    exact ⟨s, left, by rw [← hw, ho]; rfl, ho, hs, hp⟩
  · rintro d s left block ⟨hd, -⟩ - -
    exact continues_finishRead ((within_lookUp d s).trans hd) _ _
  · rintro d s block s' ⟨hd, -⟩ - -
    exact continues_finishRead ((within_lookUp d s).trans hd) _ _
  · rintro d s left block s' ⟨hd, ho, hs, hp⟩ - hn
    have hp' := hp.next hn
    obtain ⟨-, rfl⟩ := Reading.eq_of_next? hn
    exact ⟨(within_lookUp d s).trans hd, ho, hs, hp'⟩

theorem within_readOn (c : Client) (r : Reading) (left : Nat) :
    (c.readOn r left).client.Within c := by
  refine readOn_induction (P := fun d _ _ => d.Within c) (T := fun t => t.client.Within c)
    ?_ ?_ ?_ ?_ c r left (.refl c)
  · intro d s left hd _
    exact (within_lookUp d s).trans hd
  · intro d s left block hd _ _
    exact (within_lookUp d s).trans hd
  · intro d s block s' hd _ _
    exact (within_lookUp d s).trans hd
  · intro d s left block s' hd _ _
    exact (within_lookUp d s).trans hd

theorem within_readAfter (c : Client) (r : Reading) (block : ByteArray) (left : Nat) :
    (c.readAfter r block left).client.Within c := by
  cases left with
  | zero =>
      rw [readAfter, useBlock]
      split <;> exact .refl c
  | succ left =>
      rw [readAfter, useBlock]
      split
      · exact .refl c
      · exact within_readOn c _ left

theorem continues_readAfter (c : Client) (h : r.Planned left) (block : ByteArray) :
    (c.readAfter r block left).Continues c r.object r.size := by
  cases left with
  | zero =>
      rw [readAfter, useBlock]
      split
      · exact continues_finishRead (.refl c) _ _
      · exact continues_finishRead (.refl c) _ _
  | succ left =>
      rw [readAfter, useBlock]
      split
      · exact continues_finishRead (.refl c) _ _
      · rename_i s hn
        have hs := continues_readOn c (h.next hn)
        obtain ⟨-, rfl⟩ := Reading.eq_of_next? hn
        exact hs

theorem continues_withSize (c : Client) (o : ObjectName) (size : UInt64) (purpose : Purpose) :
    (c.withSize o size purpose).Continues c o size := by
  cases purpose with
  | size => exact ⟨.refl c, fun p hp => by simp [withSize] at hp⟩
  | read offset length =>
      simp only [withSize]
      split
      · exact ⟨.refl c, fun p hp => by simp at hp⟩
      · rename_i r left hs
        obtain ⟨hp, ho, hsize, -⟩ := Reading.planned_of_start? hs
        split
        · rw [← ho, ← hsize]
          exact continues_readOn c hp
        · exact ⟨.refl c, fun p hp => by simp at hp⟩

def Pending.IsPlain : Pending → Prop
  | .head o _ _ => o.IsPlain
  | .block r _ _ => r.object.IsPlain
  | .list _ _ => True
  | .write o _ => o.IsPlain
  | .delete o => o.IsPlain

def Operation.IsPlain : Operation → Prop
  | .head o => o.IsPlain
  | .read o _ _ => o.IsPlain
  | .list _ => True
  | .write o _ => o.IsPlain
  | .delete o => o.IsPlain

theorem within_startHead (c : Client) (now : Millis) (o : ObjectName) (purpose : Purpose) :
    (c.startHead now o purpose).client.Within c := by
  have hm := MetadataCache.within_getHead c.metadata now o
  unfold startHead
  split
  · rename_i size m hg
    rw [hg] at hm
    exact (continues_withSize _ o size purpose).within.trans ⟨.refl _, hm⟩
  · rename_i m hg
    rw [hg] at hm
    exact ⟨.refl _, hm⟩

theorem within_start (c : Client) (now : Millis) (op : Operation) :
    (c.start now op).client.Within c := by
  cases op with
  | head o => exact within_startHead c now o _
  | read o offset length => exact within_startHead c now o _
  | list name =>
      have hm := MetadataCache.within_getListing c.metadata now name
      simp only [start]
      split
      · rename_i objects m hg
        rw [hg] at hm
        exact ⟨.refl _, hm⟩
      · rename_i m hg
        rw [hg] at hm
        exact ⟨.refl _, hm⟩
  | write o data => exact .refl c
  | delete o => exact .refl c

theorem startHead_cases (c : Client) (now : Millis) (o : ObjectName) (purpose : Purpose) :
    (∃ size, (c.metadata.getHead now o).1 = some size ∧
      (c.startHead now o purpose).Continues { c with metadata := (c.metadata.getHead now o).2 } o
        size) ∨
    ((c.metadata.getHead now o).1 = none ∧
      (c.startHead now o purpose).progress =
        .waiting (.head o (c.metadata.generation o.bucket) purpose)) := by
  have hm := MetadataCache.within_getHead c.metadata now o
  unfold startHead
  split
  · rename_i size m hg
    exact .inl ⟨size, by rw [hg], by rw [hg]; exact continues_withSize _ o size purpose⟩
  · rename_i m hg
    rw [hg] at hm
    exact .inr ⟨by rw [hg], by rw [hm.generation_eq]⟩

theorem afterHead_cases (c : Client) (now : Millis) (o : ObjectName) (generation : Nat)
    (purpose : Purpose) (size : UInt64) :
    (horizon ≤ now + c.metadata.headTtl ∧
      c.afterHead now o generation purpose (.ok size) = ⟨c, .finished .overflow, []⟩) ∨
    ∃ d : Client, c.afterHead now o generation purpose (.ok size) = d.withSize o size purpose ∧
      (d = c ∨ (c.metadata.generation o.bucket = generation ∧
        d = { c with metadata := c.metadata.storeHead o size (now + c.metadata.headTtl) })) := by
  cases ht : deadline? now c.metadata.headTtl with
  | none =>
      left
      simp only [deadline?] at ht
      split at ht
      · simp at ht
      · rename_i hge
        exact ⟨Nat.le_of_not_lt hge,
          by simp [afterHead, MetadataCache.putHeadIfCurrent, deadline?, hge]⟩
  | some t =>
      right
      obtain ⟨-, rfl⟩ := deadline?_eq_some_iff.1 ht
      by_cases hg : c.metadata.generation o.bucket = generation
      · exact ⟨_, by simp [afterHead, MetadataCache.putHeadIfCurrent, ht, hg], .inr ⟨hg, rfl⟩⟩
      · exact ⟨c, by simp [afterHead, MetadataCache.putHeadIfCurrent, ht, hg], .inl rfl⟩

theorem afterList_cases (c : Client) (now : Millis) (name : ListingName) (generation : Nat)
    (objects : List ObjectSummary) :
    (horizon ≤ now + c.metadata.listingTtl ∧
      c.afterList now name generation (.ok objects) = ⟨c, .finished .overflow, []⟩) ∨
    ∃ d : Client, c.afterList now name generation (.ok objects) =
        ⟨d, .finished (.entries objects), []⟩ ∧
      (d = c ∨ (c.metadata.generation name.bucket = generation ∧
        d = { c with metadata :=
          c.metadata.storeListing name objects (now + c.metadata.listingTtl) })) := by
  cases ht : deadline? now c.metadata.listingTtl with
  | none =>
      left
      simp only [deadline?] at ht
      split at ht
      · simp at ht
      · rename_i hge
        exact ⟨Nat.le_of_not_lt hge,
          by simp [afterList, MetadataCache.putListingIfCurrent, deadline?, hge]⟩
  | some t =>
      right
      obtain ⟨-, rfl⟩ := deadline?_eq_some_iff.1 ht
      by_cases hg : c.metadata.generation name.bucket = generation
      · exact ⟨_, by simp [afterList, MetadataCache.putListingIfCurrent, ht, hg], .inr ⟨hg, rfl⟩⟩
      · exact ⟨c, by simp [afterList, MetadataCache.putListingIfCurrent, ht, hg], .inl rfl⟩

theorem afterBlock_cases (c : Client) (r : Reading) (left generation : Nat) (block : ByteArray) :
    ∃ d : Client,
      (c.afterBlock r left generation (.ok block)).client = (d.readAfter r block left).client ∧
      (c.afterBlock r left generation (.ok block)).progress =
        (d.readAfter r block left).progress ∧
      (d = c ∨ (c.blocks.generation r.object = generation ∧
        d = { c with blocks := (c.blocks.put r.key block).1 })) := by
  by_cases hg : c.blocks.generation r.key.object = generation
  · refine ⟨{ c with blocks := (c.blocks.put r.key block).1 }, ?_, ?_, .inr ⟨hg, rfl⟩⟩
    · simp [afterBlock, BlockCache.putIfCurrent, hg]
    · simp [afterBlock, BlockCache.putIfCurrent, hg]
  · refine ⟨c, ?_, ?_, .inl rfl⟩
    · simp [afterBlock, BlockCache.putIfCurrent, hg]
    · simp [afterBlock, BlockCache.putIfCurrent, hg]

theorem client_afterMutation (c : Client) (o : ObjectName) (result : Except StoreError Unit) :
    (c.afterMutation o result).client = (c.invalidate o).1 := by
  cases result <;> rfl

structure SameTtls (c d : Client) : Prop where
  head : c.metadata.headTtl = d.metadata.headTtl
  listing : c.metadata.listingTtl = d.metadata.listingTtl

theorem Within.sameTtls {c d : Client} (h : c.Within d) : c.SameTtls d :=
  ⟨h.metadata.headTtl, h.metadata.listingTtl⟩

theorem sameTtls_afterHead (c : Client) (now : Millis) (o : ObjectName) (generation : Nat)
    (purpose : Purpose) (result : Except StoreError UInt64) :
    (c.afterHead now o generation purpose result).client.SameTtls c := by
  cases result with
  | error e => exact ⟨rfl, rfl⟩
  | ok size =>
      rcases afterHead_cases c now o generation purpose size with ⟨-, h⟩ | ⟨d, h, hd⟩
      · rw [h]
        exact ⟨rfl, rfl⟩
      · have hw := (continues_withSize d o size purpose).within.sameTtls
        rw [h]
        rcases hd with rfl | ⟨-, rfl⟩
        · exact hw
        · exact ⟨hw.head, hw.listing⟩

theorem sameTtls_afterBlock (c : Client) (r : Reading) (left generation : Nat)
    (result : Except StoreError ByteArray) :
    (c.afterBlock r left generation result).client.SameTtls c := by
  cases result with
  | error e => exact ⟨rfl, rfl⟩
  | ok block =>
      obtain ⟨d, h, -, hd⟩ := afterBlock_cases c r left generation block
      have hw := (within_readAfter d r block left).sameTtls
      rw [h]
      rcases hd with rfl | ⟨-, rfl⟩
      · exact hw
      · exact ⟨hw.head, hw.listing⟩

theorem sameTtls_afterList (c : Client) (now : Millis) (name : ListingName) (generation : Nat)
    (result : Except StoreError (List ObjectSummary)) :
    (c.afterList now name generation result).client.SameTtls c := by
  cases result with
  | error e => exact ⟨rfl, rfl⟩
  | ok objects =>
      rcases afterList_cases c now name generation objects with ⟨-, h⟩ | ⟨d, h, hd⟩
      · rw [h]
        exact ⟨rfl, rfl⟩
      · rw [h]
        rcases hd with rfl | ⟨-, rfl⟩ <;> exact ⟨rfl, rfl⟩

theorem sameTtls_afterMutation (c : Client) (o : ObjectName) (result : Except StoreError Unit) :
    (c.afterMutation o result).client.SameTtls c := by
  rw [client_afterMutation]
  exact ⟨rfl, rfl⟩

theorem sameTtls_resume (c : Client) (now : Millis) (p : Pending) (result : p.call.Result) :
    (c.resume now p result).client.SameTtls c := by
  cases p with
  | head o generation purpose => exact sameTtls_afterHead c now o generation purpose result
  | block r left generation => exact sameTtls_afterBlock c r left generation result
  | list name generation => exact sameTtls_afterList c now name generation result
  | write o data => exact sameTtls_afterMutation c o result
  | delete o => exact sameTtls_afterMutation c o result

end ObjectCache.Client
