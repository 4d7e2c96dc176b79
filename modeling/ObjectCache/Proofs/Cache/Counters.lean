import Mathlib.Data.Bool.Count
import ObjectCache.Proofs.Cache.Departures
import ObjectCache.Proofs.Cache.History

namespace ObjectCache

namespace BlockCache

def Request.isGet : Request → Bool
  | get _ => true
  | _ => false

def Reply.hit? : Reply → Option Bool
  | found data => some data.isSome
  | _ => none

theorem counter_perform (c : BlockCache) (q : Request) (hit : Bool) :
    (c.perform q).2.counter hit = c.counter hit + (c.perform q).1.hit?.toList.count hit := by
  cases q with
  | get key =>
      cases hf : c.find? key with
      | none => cases hit <;> simp [perform, get_of_missing hf, Reply.hit?, counter]
      | some b => cases hit <;> simp [perform, get_of_find? hf, Reply.hit?, counter]
  | put key data => exact counter_put c key data hit
  | putIfCurrent key data token =>
      by_cases hcurrent : c.generation key.object = token
      · simp only [perform, putIfCurrent_of_current data hcurrent]
        exact counter_put c key data hit
      · simp only [perform, putIfCurrent_of_stale data hcurrent]
        rfl
  | generation o => rfl
  | invalidate o => rfl
  | clear => rfl

theorem counter_performAll (c : BlockCache) (qs : List Request) (hit : Bool) :
    (c.performAll qs).2.counter hit =
      c.counter hit + ((c.performAll qs).1.filterMap Reply.hit?).count hit := by
  induction qs generalizing c with
  | nil => rfl
  | cons q qs ih =>
      have hrest := ih (c.perform q).2
      rw [counter_perform, Nat.add_assoc, ← List.count_append] at hrest
      rw [performAll, hrest]
      cases h : (c.perform q).1.hit? <;> simp [h]

theorem isSome_hit? (c : BlockCache) (q : Request) : (c.perform q).1.hit?.isSome = q.isGet := by
  cases q <;> rfl

theorem length_hits (c : BlockCache) (qs : List Request) :
    ((c.performAll qs).1.filterMap Reply.hit?).length = qs.countP Request.isGet := by
  induction qs generalizing c with
  | nil => rfl
  | cons q qs ih =>
      have hrest := ih (c.perform q).2
      rw [List.length_filterMap_eq_countP] at hrest ⊢
      rw [performAll, List.countP_cons, List.countP_cons, isSome_hit?, hrest]

end BlockCache

namespace MetadataCache

open Time

namespace Request

def isLookUp : Request → Bool
  | getHead _ => true
  | getListing _ => true
  | _ => false

def isClear : Request → Bool
  | clear => true
  | _ => false

end Request

variable {c : MetadataCache} {now : Millis} {q : Request}

def hit? (c : MetadataCache) (now : Millis) : Request → Option Bool
  | .getHead o => some (c.getHead now o).1.isSome
  | .getListing name => some (c.getListing now name).1.isSome
  | _ => none

def lookUps (headTtl listingTtl : Millis) : List Request → List Bool
  | [] => []
  | q :: older =>
      if q.isClear then []
      else ((after headTtl listingTtl older).hit? (clock older) q).toList ++
        lookUps headTtl listingTtl older

def LooksUpExpired (c : MetadataCache) (now : Millis) : Request → Prop
  | .getHead o => ∃ e, c.heads.get? o.path = some e ∧ e.expires ≤ now
  | .getListing name => ∃ e, c.listings.get? name = some e ∧ e.expires ≤ now
  | _ => False

def counter (c : MetadataCache) (hit : Bool) : Nat := if hit then c.hits else c.misses

theorem counter_record (c : MetadataCache) (found hit : Bool) :
    (c.record found).counter hit = c.counter hit + [found].count hit := by
  cases found <;> cases hit <;> rfl

theorem counter_getHead (c : MetadataCache) (now : Millis) (o : ObjectName) (hit : Bool) :
    (c.getHead now o).2.counter hit = c.counter hit + [(c.getHead now o).1.isSome].count hit := by
  unfold getHead
  split
  · split
    · exact counter_record c true hit
    · exact counter_record _ false hit
  · exact counter_record c false hit

theorem counter_getListing (c : MetadataCache) (now : Millis) (name : ListingName) (hit : Bool) :
    (c.getListing now name).2.counter hit =
      c.counter hit + [(c.getListing now name).1.isSome].count hit := by
  unfold getListing
  split
  · split
    · exact counter_record c true hit
    · exact counter_record _ false hit
  · exact counter_record c false hit

theorem counter_perform (c : MetadataCache) (now : Millis) (q : Request) (hit : Bool) :
    (c.perform now q).counter hit =
      if q.isClear then 0 else c.counter hit + (c.hit? now q).toList.count hit := by
  cases q with
  | getHead o => exact counter_getHead c now o hit
  | getListing name => exact counter_getListing c now name hit
  | putHead o size =>
      rw [perform_putHead]
      split <;> rfl
  | putHeadIfCurrent o size generation =>
      rw [perform_putHeadIfCurrent]
      split <;> rfl
  | putListing name objects =>
      rw [perform_putListing]
      split <;> rfl
  | putListingIfCurrent name objects generation =>
      rw [perform_putListingIfCurrent]
      split <;> rfl
  | sweep sweeper span =>
      rw [perform_sweep]
      split <;> rfl
  | clear => cases hit <;> rfl
  | generation bucket => rfl
  | invalidate o => rfl
  | purge => rfl
  | advance span => rfl

theorem counter_after (headTtl listingTtl : Millis) (history : List Request) (hit : Bool) :
    (after headTtl listingTtl history).counter hit =
      (lookUps headTtl listingTtl history).count hit := by
  induction history with
  | nil => cases hit <;> rfl
  | cons q older ih =>
      rw [after, counter_perform, lookUps, ih]
      split
      · rfl
      · rw [List.count_append, Nat.add_comm]

theorem isSome_hit? (c : MetadataCache) (now : Millis) (q : Request) :
    (c.hit? now q).isSome = q.isLookUp := by
  cases q <;> rfl

theorem length_lookUps (headTtl listingTtl : Millis) (history : List Request) :
    (lookUps headTtl listingTtl history).length =
      (history.takeWhile (!·.isClear)).countP Request.isLookUp := by
  induction history with
  | nil => rfl
  | cons q older ih =>
      rw [lookUps, List.takeWhile_cons]
      cases hclear : q.isClear with
      | true => rfl
      | false =>
          have hone := isSome_hit? (after headTtl listingTtl older) (clock older) q
          rw [if_neg Bool.false_ne_true, List.length_append, ih, Bool.not_false, if_pos rfl,
            List.countP_cons, Nat.add_comm, ← hone]
          cases (after headTtl listingTtl older).hit? (clock older) q <;> rfl

theorem hit?_of_looksUpExpired (h : c.LooksUpExpired now q) : c.hit? now q = some false := by
  cases q with
  | getHead o =>
      obtain ⟨e, he, hexpired⟩ := h
      simp [hit?, getHead, he, Nat.not_lt.2 hexpired]
  | getListing name =>
      obtain ⟨e, he, hexpired⟩ := h
      simp [hit?, getListing, he, Nat.not_lt.2 hexpired]
  | _ => exact h.elim

theorem counter_of_miss (h : c.hit? now q = some false) (hit : Bool) :
    (c.perform now q).counter hit = c.counter hit + [false].count hit := by
  have hclear : q.isClear = false := by
    cases q with
    | clear => cases h
    | _ => rfl
  rw [counter_perform, hclear, h, if_neg Bool.false_ne_true, Option.toList_some]

end MetadataCache

open BlockCache (withBudget)
open MetadataCache (after clock lookUps)

/-- A block cache counts each look-up as a hit, if it found the block, or as a miss. Whatever it
took in is resident or left once, with a put, an invalidation or a clearing, and it counts what left
with puts. A metadata cache counts each look-up since it was cleared, one of what has expired as a
miss. -/
theorem counters_account_for_lookups_and_blocks :
    (∀ (budget : UInt64) (qs : List BlockCache.Request),
      let run := (withBudget budget).performAll qs
      let c := run.2
      let found := run.1.filterMap BlockCache.Reply.hit?
      let inserted := (withBudget budget).insertions qs
      let departed := (withBudget budget).departures qs
      c.hits = found.count true ∧ c.misses = found.count false ∧
        c.hits + c.misses = qs.countP (·.isGet) ∧
        inserted.Perm (c.blocks ++ departed.map Prod.snd) ∧
        c.evictions = departed.countP (·.1.isPut) ∧
        inserted.length = c.blocks.length + c.evictions + departed.countP (·.1.isInvalidation) +
          departed.countP (·.1.isClear)) ∧
    ∀ (headTtl listingTtl : Time.Millis) (history : List MetadataCache.Request),
      let c := after headTtl listingTtl history
      let now := clock history
      let found := lookUps headTtl listingTtl history
      c.hits = found.count true ∧ c.misses = found.count false ∧
        c.hits + c.misses = (history.takeWhile (!·.isClear)).countP (·.isLookUp) ∧
        ∀ q, c.LooksUpExpired now q → c.hit? now q = some false ∧
          (c.perform now q).hits = c.hits ∧ (c.perform now q).misses = c.misses + 1 := by
  constructor
  · intro budget qs run c found inserted departed
    have hdistinct : (withBudget budget).Distinct := .nil
    have hhits : c.hits = found.count true :=
      ((withBudget budget).counter_performAll qs true).trans (Nat.zero_add _)
    have hmisses : c.misses = found.count false :=
      ((withBudget budget).counter_performAll qs false).trans (Nat.zero_add _)
    have hperm : inserted.Perm (c.blocks ++ departed.map Prod.snd) :=
      BlockCache.insertions_perm hdistinct qs
    have hevictions : c.evictions = departed.countP (·.1.isPut) :=
      (BlockCache.evictions_performAll hdistinct qs).trans (Nat.zero_add _)
    refine ⟨hhits, hmisses, ?_, hperm, hevictions, ?_⟩
    · rw [hhits, hmisses, List.count_true_add_count_false]
      exact (withBudget budget).length_hits qs
    · have hlength := hperm.length_eq
      have hways : departed.length = _ := BlockCache.length_departures hdistinct qs
      rw [List.length_append, List.length_map, hways, ← hevictions] at hlength
      rw [hlength, Nat.add_assoc, Nat.add_assoc, Nat.add_assoc]
  · intro headTtl listingTtl history c now found
    have hhits : c.hits = found.count true :=
      MetadataCache.counter_after headTtl listingTtl history true
    have hmisses : c.misses = found.count false :=
      MetadataCache.counter_after headTtl listingTtl history false
    refine ⟨hhits, hmisses, ?_, ?_⟩
    · rw [hhits, hmisses, List.count_true_add_count_false]
      exact MetadataCache.length_lookUps headTtl listingTtl history
    · intro q hexpired
      have hmiss := MetadataCache.hit?_of_looksUpExpired hexpired
      have hcounted := MetadataCache.counter_of_miss hmiss
      exact ⟨hmiss, hcounted true, hcounted false⟩

theorem crowded_caches_are_accounted_for :
    let key : UInt64 → BlockKey := fun index => ⟨⟨"b", "k"⟩, index⟩
    let qs : List BlockCache.Request := [.put (key 0) ⟨#[1, 2]⟩, .put (key 1) ⟨#[3]⟩,
      .put (key 0) ⟨#[9]⟩, .get (key 0), .put (key 2) ⟨#[4]⟩, .get (key 1),
      .put (key 3) ⟨#[5, 6, 7, 8, 9]⟩, .put (key 5) ⟨#[2]⟩, .put ⟨⟨"b", "j"⟩, 0⟩ ⟨#[3]⟩,
      .invalidate ⟨"b", "k"⟩, .putIfCurrent (key 4) ⟨#[1]⟩ 0, .clear,
      .putIfCurrent (key 4) ⟨#[1]⟩ 1, .get (key 4)]
    let c := ((withBudget 3).performAll qs).2
    let departed := (withBudget 3).departures qs
    let name : ListingName := ⟨"b", "", "/"⟩
    let history : List MetadataCache.Request := [.advance 7, .getHead ⟨"b", "k"⟩,
      .putListing name [], .putHead ⟨"b", "k"⟩ 3, .clear, .getListing name]
    let d := after 5 5 history
    c.hits = 2 ∧ c.misses = 1 ∧ c.blocks.length = 1 ∧ c.evictions = 4 ∧
      departed.countP (·.1.isInvalidation) = 1 ∧ departed.countP (·.1.isClear) = 1 ∧
      ((withBudget 3).insertions qs).length = 1 + 4 + 1 + 1 ∧
      d.hits + d.misses = 1 ∧ d.LooksUpExpired 7 (.getListing name) ∧
      (d.perform 7 (.getListing name)).misses = d.misses + 1 := by
  intro key qs c departed name history d
  obtain ⟨hblocks, hmetadata⟩ := counters_account_for_lookups_and_blocks
  obtain ⟨-, -, -, -, -, hinserted⟩ := hblocks 3 qs
  obtain ⟨-, -, hlookUps, hexpired⟩ := hmetadata 5 5 history
  have hentries : c.blocks.length = 1 := by decide
  have hevictions : c.evictions = 4 := by decide
  have hinvalidated : departed.countP (·.1.isInvalidation) = 1 := by decide
  have hcleared : departed.countP (·.1.isClear) = 1 := by decide
  rw [hentries, hevictions, hinvalidated, hcleared] at hinserted
  have hlate : d.LooksUpExpired 7 (.getListing name) := ⟨⟨[], 5⟩, rfl, by decide⟩
  exact ⟨by decide, by decide, hentries, hevictions, hinvalidated, hcleared, hinserted, hlookUps,
    hlate, (hexpired _ hlate).2.2⟩

end ObjectCache
