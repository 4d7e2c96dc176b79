import Mathlib.Data.List.Basic
import ObjectCache.Proofs.Cache.History

namespace ObjectCache

namespace Table

variable {K V : Type}

theorem size_filter_add (t : Table K V) (p : K → V → Bool) :
    (t.filter p).size + (t.filter fun k v => !p k v).size = t.size :=
  (t.entries.length_eq_length_filter_add fun e => p e.1 e.2).symm

theorem exists_keys [DecidableEq K] (t : Table K V) (p : V → Bool) :
    ∃ keys : List K, keys.Nodup ∧ keys.length = (t.filter fun _ v => p v).size ∧
      ∀ k, k ∈ keys ↔ ∃ v, t.get? k = some v ∧ p v := by
  refine ⟨(t.filter fun _ v => p v).entries.map (·.1), ?_, List.length_map _, ?_⟩
  · exact List.pairwise_map.2 (t.filter fun _ v => p v).distinct
  · intro k
    have hget (v : V) : (k, v) ∈ (t.filter fun _ v => p v).entries ↔
        t.get? k = some v ∧ p v := by
      rw [← get?_eq_some_iff, get?_filter, Option.filter_eq_some_iff]
    simp only [List.mem_map, Prod.exists, exists_and_right, exists_eq_right, hget]

end Table

namespace MetadataCache

open Time

inductive Write (V : Type) where
  | put (value : V) (time : Millis)
  | removal

/-- A place for one size or one listing: what a request writes to it at a time and in given
generations of the buckets, and whether a request looks at it. -/
structure Slot (V : Type) where
  ttl : Millis
  write? : Millis → (String → Nat) → Request → Option (Write V)
  looksAt : Request → Bool
  write?_of_quiet : ∀ {now generation q}, q.IsQuiet → write? now generation q = none
  write?_congr : ∀ {now g g' q}, (∀ bucket, q.target? = some bucket → g bucket = g' bucket) →
    write? now g q = write? now g' q

namespace Slot

def head (ttl : Millis) (path : String) : Slot UInt64 where
  ttl
  write? now generation
    | .putHead o size =>
        if o.path = path ∧ now + ttl < horizon then some (.put size now) else none
    | .putHeadIfCurrent o size g =>
        if o.path = path ∧ now + ttl < horizon ∧ generation o.bucket = g then
          some (.put size now)
        else none
    | .invalidate o => if o.path = path then some .removal else none
    | .clear => some .removal
    | _ => none
  looksAt
    | .getHead o => o.path = path
    | .purge => true
    | .sweep sweeper span => sweeper.isDueWithin span
    | _ => false
  write?_of_quiet {_ _ q} hq := by cases q <;> first | rfl | exact hq.elim
  write?_congr {_ _ _ q} h := by
    cases q with
    | putHeadIfCurrent o size g => simp only [h o.bucket rfl]
    | _ => rfl

def listing (ttl : Millis) (name : ListingName) : Slot (List ObjectSummary) where
  ttl
  write? now generation
    | .putListing n objects =>
        if n = name ∧ now + ttl < horizon then some (.put objects now) else none
    | .putListingIfCurrent n objects g =>
        if n = name ∧ now + ttl < horizon ∧ generation n.bucket = g then some (.put objects now)
        else none
    | .invalidate o => if o.bucket = name.bucket then some .removal else none
    | .clear => some .removal
    | _ => none
  looksAt
    | .getListing n => n = name
    | .purge => true
    | .sweep sweeper span => sweeper.isDueWithin span
    | _ => false
  write?_of_quiet {_ _ q} hq := by cases q <;> first | rfl | exact hq.elim
  write?_congr {_ _ _ q} h := by
    cases q with
    | putListingIfCurrent n objects g => simp only [h n.bucket rfl]
    | _ => rfl

variable {V : Type} {s : Slot V} {v : V} {t expires now : Millis} {q : Request}
  {newer older history : List Request}

def lastWrite? (s : Slot V) : List Request → Option (Write V)
  | [] => none
  | q :: older => (s.write? (clock older) (invalidations older) q).or (s.lastWrite? older)

def Spared (s : Slot V) (expires : Millis) : List Request → Prop
  | [] => True
  | q :: older => s.write? (clock older) (invalidations older) q = none →
      (s.looksAt q → clock older < expires) ∧ s.Spared expires older

/-- The slot was put and has expired, and nothing has looked at it since then. -/
def Lingers (s : Slot V) (history : List Request) : Prop :=
  ∃ v t, s.lastWrite? history = some (.put v t) ∧ t + s.ttl ≤ clock history ∧
    s.Spared (t + s.ttl) history

def next (s : Slot V) (now : Millis) (generation : String → Nat) (kept : Option (V × Millis))
    (q : Request) : Option (V × Millis) :=
  match s.write? now generation q with
  | some (.put v time) => some (v, time + s.ttl)
  | some .removal => none
  | none => if s.looksAt q then kept.filter (now < ·.2) else kept

def kept? (s : Slot V) : List Request → Option (V × Millis)
  | [] => none
  | q :: older => s.next (clock older) (invalidations older) (s.kept? older) q

def shown? (s : Slot V) (history : List Request) : Option V :=
  ((s.kept? history).filter (clock history < ·.2)).map (·.1)

theorem spared_of_clock_lt (s : Slot V) (h : clock history < expires) :
    s.Spared expires history := by
  induction history with
  | nil => trivial
  | cons q older ih =>
      have holder : clock older < expires := Nat.lt_of_le_of_lt (Nat.le_add_right _ _) h
      exact fun _ => ⟨fun _ => holder, ih holder⟩

theorem kept?_eq_some_iff : s.kept? history = some (v, expires) ↔
    ∃ t, s.lastWrite? history = some (.put v t) ∧ expires = t + s.ttl ∧
      s.Spared expires history := by
  induction history with
  | nil => simp [kept?, lastWrite?]
  | cons q older ih =>
      rw [kept?, next, lastWrite?, Spared]
      cases hw : s.write? (clock older) (invalidations older) q with
      | some w =>
          cases w with
          | put x t =>
              simp only [Option.some_or, Option.some.injEq, Write.put.injEq, Prod.mk.injEq,
                reduceCtorEq, false_implies, and_true]
              constructor
              · rintro ⟨rfl, rfl⟩
                exact ⟨t, ⟨rfl, rfl⟩, rfl⟩
              · rintro ⟨_, ⟨rfl, rfl⟩, rfl⟩
                exact ⟨rfl, rfl⟩
          | removal => simp
      | none =>
          by_cases hlook : s.looksAt q
          · simp only [hlook, if_true, Option.filter_eq_some_iff, ih, Option.none_or,
              forall_const, decide_eq_true_eq]
            constructor
            · rintro ⟨⟨t, hlast, he, hspared⟩, hlt⟩
              exact ⟨t, hlast, he, hlt, hspared⟩
            · rintro ⟨t, hlast, he, hlt, hspared⟩
              exact ⟨⟨t, hlast, he, hspared⟩, hlt⟩
          · simp [hlook, ih]

theorem shown?_eq_some_iff : s.shown? history = some v ↔
    ∃ t, s.lastWrite? history = some (.put v t) ∧ clock history < t + s.ttl := by
  simp only [shown?, Option.map_eq_some_iff, Option.filter_eq_some_iff, decide_eq_true_eq]
  constructor
  · rintro ⟨⟨v, expires⟩, ⟨hkept, hlt⟩, rfl⟩
    obtain ⟨t, hlast, rfl, -⟩ := kept?_eq_some_iff.1 hkept
    exact ⟨t, hlast, hlt⟩
  · rintro ⟨t, hlast, hlt⟩
    have hspared := s.spared_of_clock_lt hlt
    exact ⟨(v, t + s.ttl), ⟨kept?_eq_some_iff.2 ⟨t, hlast, rfl, hspared⟩, hlt⟩, rfl⟩

theorem lingers_iff : s.Lingers history ↔
    ∃ e, s.kept? history = some e ∧ ¬clock history < e.2 := by
  constructor
  · rintro ⟨v, t, hlast, hle, hspared⟩
    exact ⟨(v, t + s.ttl), kept?_eq_some_iff.2 ⟨t, hlast, rfl, hspared⟩, Nat.not_lt.2 hle⟩
  · rintro ⟨⟨v, expires⟩, hkept, hle⟩
    obtain ⟨t, hlast, rfl, hspared⟩ := kept?_eq_some_iff.1 hkept
    exact ⟨v, t, hlast, Nat.not_lt.1 hle, hspared⟩

theorem lastWrite?_leaveOut (hq : q.IsQuiet) :
    s.lastWrite? (newer ++ q :: older) = s.lastWrite? (newer ++ older) := by
  induction newer with
  | nil => rw [List.nil_append, List.nil_append, lastWrite?, s.write?_of_quiet hq, Option.none_or]
  | cons r newer ih =>
      rw [List.cons_append, List.cons_append, lastWrite?, lastWrite?,
        clock_leaveOut newer older (span_of_quiet hq),
        invalidations_leaveOut newer older (invalidated?_of_quiet hq), ih]

theorem shown?_leaveOut (hq : q.IsQuiet) :
    s.shown? (newer ++ q :: older) = s.shown? (newer ++ older) := by
  refine Option.ext fun v => ?_
  rw [shown?_eq_some_iff, shown?_eq_some_iff, clock_leaveOut newer older (span_of_quiet hq),
    lastWrite?_leaveOut hq]

end Slot

variable {q : Request}

def headAt (c : MetadataCache) (path : String) : Option (UInt64 × Millis) :=
  (c.heads.get? path).map fun e => (e.size, e.expires)

def listingAt (c : MetadataCache) (name : ListingName) :
    Option (List ObjectSummary × Millis) :=
  (c.listings.get? name).map fun e => (e.objects, e.expires)

theorem headAt_purge (c : MetadataCache) (now : Millis) (path : String) :
    (c.purge now).2.headAt path = (c.headAt path).filter (now < ·.2) := by
  simp [headAt, purge, Table.get?_filter, Option.filter_map, Function.comp_def]

theorem listingAt_purge (c : MetadataCache) (now : Millis) (name : ListingName) :
    (c.purge now).2.listingAt name = (c.listingAt name).filter (now < ·.2) := by
  simp [listingAt, purge, Table.get?_filter, Option.filter_map, Function.comp_def]

theorem headAt_perform (c : MetadataCache) (now : Millis) (q : Request) (path : String) :
    (c.perform now q).headAt path =
      (Slot.head c.headTtl path).next now c.generation (c.headAt path) q := by
  cases q with
  | getHead o =>
      simp only [Slot.next, Slot.head, headAt, perform, heads_getHead]
      by_cases hpath : o.path = path
      · simp [hpath, Option.filter_map, Function.comp_def]
      · simp [hpath]
  | putHead o size =>
      rw [perform_putHead]
      by_cases hlast : now + c.headTtl < horizon
      · by_cases hpath : o.path = path
        · simp [Slot.next, Slot.head, headAt, storeHead, hlast, hpath]
        · simp [Slot.next, Slot.head, headAt, storeHead, hlast, hpath, Ne.symm hpath]
      · simp [Slot.next, Slot.head, hlast]
  | putHeadIfCurrent o size generation =>
      rw [perform_putHeadIfCurrent]
      by_cases hin : now + c.headTtl < horizon ∧ c.generation o.bucket = generation
      · by_cases hpath : o.path = path
        · simp [Slot.next, Slot.head, headAt, storeHead, hin, hpath]
        · simp [Slot.next, Slot.head, headAt, storeHead, hin, hpath, Ne.symm hpath]
      · simp [Slot.next, Slot.head, hin]
  | getListing name => simp [Slot.next, Slot.head, headAt, perform, heads_getListing]
  | putListing name objects =>
      rw [perform_putListing]
      split <;> rfl
  | putListingIfCurrent name objects generation =>
      rw [perform_putListingIfCurrent]
      split <;> rfl
  | generation bucket => rfl
  | invalidate o =>
      simp only [Slot.next, Slot.head, headAt, perform, heads_invalidate]
      by_cases hpath : o.path = path
      · simp [hpath]
      · simp [hpath, Ne.symm hpath]
  | purge => exact headAt_purge c now path
  | sweep sweeper span =>
      rw [perform_sweep]
      by_cases hdue : sweeper.isDueWithin span
      · simp [Slot.next, Slot.head, hdue, headAt_purge]
      · simp [Slot.next, Slot.head, hdue]
  | clear => rfl
  | advance span => rfl

theorem listingAt_perform (c : MetadataCache) (now : Millis) (q : Request) (name : ListingName) :
    (c.perform now q).listingAt name =
      (Slot.listing c.listingTtl name).next now c.generation (c.listingAt name) q := by
  cases q with
  | getHead o => simp [Slot.next, Slot.listing, listingAt, perform, listings_getHead]
  | putHead o size =>
      rw [perform_putHead]
      split <;> rfl
  | putHeadIfCurrent o size generation =>
      rw [perform_putHeadIfCurrent]
      split <;> rfl
  | getListing n =>
      simp only [Slot.next, Slot.listing, listingAt, perform, listings_getListing]
      by_cases hname : n = name
      · simp [hname, Option.filter_map, Function.comp_def]
      · simp [hname]
  | putListing n objects =>
      rw [perform_putListing]
      by_cases hlast : now + c.listingTtl < horizon
      · by_cases hname : n = name
        · simp [Slot.next, Slot.listing, listingAt, storeListing, hlast, hname]
        · simp [Slot.next, Slot.listing, listingAt, storeListing, hlast, hname, Ne.symm hname]
      · simp [Slot.next, Slot.listing, hlast]
  | putListingIfCurrent n objects generation =>
      rw [perform_putListingIfCurrent]
      by_cases hin : now + c.listingTtl < horizon ∧ c.generation n.bucket = generation
      · by_cases hname : n = name
        · subst hname
          simp [Slot.next, Slot.listing, listingAt, storeListing, hin]
        · simp [Slot.next, Slot.listing, listingAt, storeListing, hin, hname, Ne.symm hname]
      · simp [Slot.next, Slot.listing, hin]
  | generation bucket => rfl
  | invalidate o =>
      simp only [Slot.next, Slot.listing, listingAt, perform, invalidate, Table.get?_filter]
      by_cases hbucket : o.bucket = name.bucket
      · cases c.listings.get? name <;> simp [hbucket, Option.filter]
      · cases c.listings.get? name <;> simp [hbucket, Ne.symm hbucket, Option.filter]
  | purge => exact listingAt_purge c now name
  | sweep sweeper span =>
      rw [perform_sweep]
      by_cases hdue : sweeper.isDueWithin span
      · simp [Slot.next, Slot.listing, hdue, listingAt_purge]
      · simp [Slot.next, Slot.listing, hdue]
  | clear => rfl
  | advance span => rfl

variable {headTtl listingTtl : Millis} {history newer older : List Request}

theorem headAt_after (headTtl listingTtl : Millis) (history : List Request) (path : String) :
    (after headTtl listingTtl history).headAt path = (Slot.head headTtl path).kept? history := by
  induction history with
  | nil => rfl
  | cons q older ih =>
      rw [after, headAt_perform, headTtl_after, generation_after, ih]
      rfl

theorem listingAt_after (headTtl listingTtl : Millis) (history : List Request)
    (name : ListingName) :
    (after headTtl listingTtl history).listingAt name =
      (Slot.listing listingTtl name).kept? history := by
  induction history with
  | nil => rfl
  | cons q older ih =>
      rw [after, listingAt_perform, listingTtl_after, generation_after, ih]
      rfl

theorem fst_getHead (c : MetadataCache) (now : Millis) (o : ObjectName) :
    (c.getHead now o).1 = ((c.headAt o.path).filter (now < ·.2)).map (·.1) := by
  unfold getHead headAt
  cases c.heads.get? o.path with
  | none => rfl
  | some e => by_cases h : now < e.expires <;> simp [Option.filter, h]

theorem fst_getListing (c : MetadataCache) (now : Millis) (name : ListingName) :
    (c.getListing now name).1 = ((c.listingAt name).filter (now < ·.2)).map (·.1) := by
  unfold getListing listingAt
  cases c.listings.get? name with
  | none => rfl
  | some e => by_cases h : now < e.expires <;> simp [Option.filter, h]

theorem getHead_after (headTtl listingTtl : Millis) (history : List Request) (o : ObjectName) :
    ((after headTtl listingTtl history).getHead (clock history) o).1 =
      (Slot.head headTtl o.path).shown? history := by
  rw [fst_getHead, headAt_after, Slot.shown?]

theorem getListing_after (headTtl listingTtl : Millis) (history : List Request)
    (name : ListingName) :
    ((after headTtl listingTtl history).getListing (clock history) name).1 =
      (Slot.listing listingTtl name).shown? history := by
  rw [fst_getListing, listingAt_after, Slot.shown?]

theorem fst_purge (c : MetadataCache) (now : Millis) :
    (c.purge now).1 = (c.heads.filter fun _ e => !decide (now < e.expires)).size +
      (c.listings.filter fun _ e => !decide (now < e.expires)).size := by
  have hheads := c.heads.size_filter_add fun _ e => decide (now < e.expires)
  have hlistings := c.listings.size_filter_add fun _ e => decide (now < e.expires)
  simp only [purge, entryCount]
  omega

theorem lingers_head_iff {path : String} : (Slot.head headTtl path).Lingers history ↔
    ∃ e, (after headTtl listingTtl history).heads.get? path = some e ∧
      !decide (clock history < e.expires) := by
  rw [Slot.lingers_iff, ← headAt_after headTtl listingTtl]
  simp only [headAt, Option.map_eq_some_iff, exists_exists_and_eq_and, Bool.not_eq_true',
    decide_eq_false_iff_not]

theorem lingers_listing_iff {name : ListingName} :
    (Slot.listing listingTtl name).Lingers history ↔
      ∃ e, (after headTtl listingTtl history).listings.get? name = some e ∧
        !decide (clock history < e.expires) := by
  rw [Slot.lingers_iff, ← listingAt_after headTtl listingTtl]
  simp only [listingAt, Option.map_eq_some_iff, exists_exists_and_eq_and, Bool.not_eq_true',
    decide_eq_false_iff_not]

/-- A size or a listing is found if and only if the last write to it is a put that has not expired.
So it makes no difference whether anything was looked up or purged before; and a purge counts what
was put last, has expired and was not looked at since. -/
theorem answers_follow_writes (headTtl listingTtl : Millis) (history : List Request) :
    let c := after headTtl listingTtl history
    let now := clock history
    (∀ o size, (c.getHead now o).1 = some size ↔
      ∃ t, (Slot.head headTtl o.path).lastWrite? history = some (.put size t) ∧
        now < t + headTtl) ∧
    (∀ name objects, (c.getListing now name).1 = some objects ↔
      ∃ t, (Slot.listing listingTtl name).lastWrite? history = some (.put objects t) ∧
        now < t + listingTtl) ∧
    (∀ newer q older, history = newer ++ q :: older → q.IsQuiet →
      let d := after headTtl listingTtl (newer ++ older)
      clock (newer ++ older) = now ∧
        (∀ o, (c.getHead now o).1 = (d.getHead now o).1) ∧
        ∀ name, (c.getListing now name).1 = (d.getListing now name).1) ∧
    ∃ (paths : List String) (names : List ListingName), paths.Nodup ∧ names.Nodup ∧
      (∀ path, path ∈ paths ↔ (Slot.head headTtl path).Lingers history) ∧
      (∀ name, name ∈ names ↔ (Slot.listing listingTtl name).Lingers history) ∧
      (c.purge now).1 = paths.length + names.length := by
  intro c now
  refine ⟨?_, ?_, ?_, ?_⟩
  · intro o size
    rw [getHead_after, Slot.shown?_eq_some_iff]
    rfl
  · intro name objects
    rw [getListing_after, Slot.shown?_eq_some_iff]
    rfl
  · intro newer q older hhistory hq d
    subst hhistory
    have hclock : clock (newer ++ older) = now := (clock_leaveOut newer older (span_of_quiet hq)).symm
    refine ⟨hclock, ?_, ?_⟩
    · intro o
      rw [getHead_after, Slot.shown?_leaveOut hq, ← getHead_after headTtl listingTtl, hclock]
    · intro name
      rw [getListing_after, Slot.shown?_leaveOut hq, ← getListing_after headTtl listingTtl, hclock]
  · obtain ⟨paths, hpaths, hpathsLength, hpath⟩ :=
      c.heads.exists_keys fun e => !decide (now < e.expires)
    obtain ⟨names, hnames, hnamesLength, hname⟩ :=
      c.listings.exists_keys fun e => !decide (now < e.expires)
    refine ⟨paths, names, hpaths, hnames, ?_, ?_, ?_⟩
    · exact fun path => (hpath path).trans lingers_head_iff.symm
    · exact fun name => (hname name).trans lingers_listing_iff.symm
    · rw [fst_purge, hpathsLength, hnamesLength]

end MetadataCache

end ObjectCache
