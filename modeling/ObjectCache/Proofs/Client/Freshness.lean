import ObjectCache.Proofs.Client.Overlap

namespace ObjectCache.Overlap

open Time Client

def Reported (history : List Happening) (o : ObjectName) (size : UInt64) : Prop :=
  ∃ place, .answered place (.head o) (.ok size) ∈ history

def vouched (headTtl listingTtl : Millis) (history : List Happening) : Facts where
  block key data := ∃ (r : Reading) (left : Nat), r.key = key ∧ r.Planned left ∧
    Backed history (.get r.object r.blockStart r.blockLength) (.ok data)
      fun older _ => Reported older r.object r.size
  head o x := Backed history (.head o) (.ok x.size) fun _ t => x.expires = t + headTtl
  listing name x := Backed history (.list name) (.ok x.objects) fun _ t =>
    x.expires = t + listingTtl

def bucketCount (history : List Happening) (bucket : String) : Nat :=
  ((invalidations history).map ObjectName.bucket).count bucket

def Asked (older : List Happening) : Pending → Prop
  | .head o generation _ => generation = bucketCount older o.bucket
  | .block r left generation => generation = (invalidations older).count r.object ∧
      r.Planned left ∧ Reported older r.object r.size
  | .list name generation => generation = bucketCount older name.bucket
  | .write _ _ => True
  | .delete _ => True

structure Flight.Tracked (history : List Happening) (f : Flight) : Prop where
  plain : f.pending.IsPlain
  asked : ∃ older newer, history = older ++ .called f.pending.call :: newer ∧
    f.place = older.length ∧ Asked older f.pending ∧
    ∀ result, f.result = some result → .answered f.place f.pending.call result ∈ newer

structure Synced (history : List Happening) (c : Client) : Prop where
  distinct : c.blocks.Distinct
  blocks : ∀ o, c.blocks.generation o = (invalidations history).count o
  buckets : ∀ bucket, c.metadata.generation bucket = bucketCount history bucket

structure Tracked {σ : Type} (headTtl listingTtl : Millis) (w : World σ) : Prop where
  synced : Synced w.history w.client
  holds : w.client.Holds (vouched headTtl listingTtl w.history)
  flights : ∀ f ∈ w.flights, f.Tracked w.history
  headTtl : w.client.metadata.headTtl = headTtl
  listingTtl : w.client.metadata.listingTtl = listingTtl

variable {σ : Type} {history more older newer : List Happening} {c d : Client}
  {headTtl listingTtl : Millis} {w : World σ} {o : ObjectName}

theorem Reported.append {size : UInt64} (h : Reported history o size) (more : List Happening) :
    Reported (history ++ more) o size := by
  obtain ⟨place, hp⟩ := h
  exact ⟨place, List.mem_append_left _ hp⟩

theorem Flight.Tracked.append {f : Flight} (h : f.Tracked history) (more : List Happening) :
    f.Tracked (history ++ more) := by
  obtain ⟨older, newer, rfl, hplace, hasked, hanswered⟩ := h.asked
  exact ⟨h.plain, older, newer ++ more, by simp, hplace, hasked,
    fun r hr => List.mem_append_left _ (hanswered r hr)⟩

theorem holds_of_quiet (h : c.Holds (vouched headTtl listingTtl history))
    (hmore : invalidations more = []) :
    c.Holds (vouched headTtl listingTtl (history ++ more)) := by
  have hnone : ∀ (call : StoreCall), ∀ o ∈ invalidations more, ¬call.Concerns o := by
    intro call o ho
    rw [hmore] at ho
    cases ho
  apply h.mono
  · rintro key data ⟨r, left, hkey, hp, hb⟩
    exact ⟨r, left, hkey, hp, hb.append (hnone _)⟩
  · exact fun p x hb => hb.append (hnone _)
  · exact fun name x hb => hb.append (hnone _)

theorem holds_of_besides (h : c.Holds ((vouched headTtl listingTtl history).besides o))
    (hmore : invalidations more = [o]) :
    c.Holds (vouched headTtl listingTtl (history ++ more)) := by
  have hone : ∀ p ∈ invalidations more, p = o := by
    intro p hp
    rw [hmore] at hp
    exact List.mem_singleton.1 hp
  apply h.mono
  · rintro key data ⟨⟨r, left, rfl, hp, hb⟩, hne⟩
    exact ⟨r, left, rfl, hp, hb.append fun p hp hc => hne (hc.trans (hone p hp))⟩
  · rintro p x ⟨hb, hne⟩
    exact hb.append fun q hq hc => hne (hc.trans (hone q hq))
  · rintro name x ⟨hb, hne⟩
    exact hb.append fun q hq hc => hne (hc.trans (congrArg ObjectName.bucket (hone q hq)))

theorem bucketCount_append (g h : List Happening) (bucket : String) :
    bucketCount (g ++ h) bucket = bucketCount g bucket + bucketCount h bucket := by
  simp [bucketCount]

theorem Synced.of_within (h : Synced history d) (k : c.Within d) : Synced history c :=
  ⟨k.blocks.distinct h.distinct, fun o => (k.blocks.generation_eq o).trans (h.blocks o),
    fun b => (k.metadata.generation_eq b).trans (h.buckets b)⟩

theorem Synced.of_quiet (h : Synced history c) (hmore : invalidations more = []) :
    Synced (history ++ more) c := by
  refine ⟨h.distinct, ?_, ?_⟩
  · intro o
    rw [h.blocks, invalidations_append, hmore, List.append_nil]
  · intro bucket
    rw [h.buckets, bucketCount_append, bucketCount, bucketCount, hmore]
    rfl

theorem Synced.invalidate (h : Synced history c) (hmore : invalidations more = [o]) :
    Synced (history ++ more) (c.invalidate o).1 := by
  refine ⟨BlockCache.distinct_invalidate h.distinct o, ?_, ?_⟩
  · intro p
    change (c.blocks.invalidate o).1.generation p = _
    rw [BlockCache.generation_invalidate, h.blocks, invalidations_append, hmore,
      List.count_append, List.count_singleton]
    by_cases hp : p = o
    · simp [hp]
    · simp [hp, Ne.symm hp]
  · intro bucket
    change (c.metadata.invalidate o).1.generation bucket = _
    rw [MetadataCache.generation_invalidate, h.buckets, bucketCount_append]
    by_cases hb : bucket = o.bucket
    · simp [bucketCount, hmore, hb]
    · simp [bucketCount, hmore, hb, Ne.symm hb]

theorem undisturbed_of_bucketCount {e : Happening} {bucket : String}
    (h : bucketCount (older ++ e :: newer) bucket = bucketCount older bucket) :
    ∀ o ∈ invalidations newer, o.bucket ≠ bucket := by
  intro o ho hb
  have hcons : older ++ e :: newer = older ++ [e] ++ newer := by simp
  rw [hcons, bucketCount_append, bucketCount_append] at h
  have hzero : bucketCount newer bucket = 0 := by omega
  exact List.count_eq_zero.1 hzero (List.mem_map.2 ⟨o, ho, hb⟩)

theorem undisturbed_of_count {e : Happening}
    (h : (invalidations (older ++ e :: newer)).count o = (invalidations older).count o) :
    ∀ p ∈ invalidations newer, o ≠ p := by
  intro p hp he
  have hcons : older ++ e :: newer = older ++ [e] ++ newer := by simp
  rw [hcons, invalidations_append, invalidations_append, List.count_append, List.count_append] at h
  have hzero : (invalidations newer).count o = 0 := by omega
  exact List.count_eq_zero.1 hzero (he ▸ hp)

theorem backed_of_tracked {p : Pending} {place : Nat} {result : p.call.Result} {now : Millis}
    (h : Flight.Tracked history ⟨p, place, some result⟩)
    (hundisturbed : ∀ older newer, history = older ++ .called p.call :: newer → Asked older p →
      ∀ o ∈ invalidations newer, ¬p.call.Concerns o)
    (hquiet : p.call.mutated? = none) {P : List Happening → Millis → Prop}
    (hP : ∀ older, Asked older p → P older now) :
    Backed (history ++ [.returned place p.call now]) p.call result P := by
  obtain ⟨older, newer, rfl, hplace, hasked, hanswered⟩ := h.asked
  change place = older.length at hplace
  subst hplace
  refine ⟨older, newer ++ [.returned older.length p.call now], now, by simp, ⟨?_, ?_, ?_⟩,
    hP older hasked⟩
  · exact List.mem_append_left _ (hanswered result rfl)
  · exact List.mem_append_right _ (List.mem_singleton.2 rfl)
  · intro o ho
    rw [invalidations_append, List.mem_append] at ho
    rcases ho with ho | ho
    · exact hundisturbed older newer rfl hasked o ho
    · simp [invalidations, Happening.invalidated?, hquiet] at ho

theorem Tracked.of_within (h : Tracked headTtl listingTtl w) (k : d.Within w.client) :
    Tracked headTtl listingTtl { w with client := d } :=
  ⟨h.synced.of_within k, h.holds.of_within k, h.flights, k.metadata.headTtl.trans h.headTtl,
    k.metadata.listingTtl.trans h.listingTtl⟩

theorem Tracked.of_flights (h : Tracked headTtl listingTtl w) {flights : List Flight}
    (hf : ∀ f ∈ flights, f.Tracked w.history) :
    Tracked headTtl listingTtl { w with flights } :=
  ⟨h.synced, h.holds, hf, h.headTtl, h.listingTtl⟩

theorem Tracked.of_quiet (h : Tracked headTtl listingTtl w) (hmore : invalidations more = []) :
    Tracked headTtl listingTtl { w with history := w.history ++ more } :=
  ⟨h.synced.of_quiet hmore, holds_of_quiet h.holds hmore,
    fun f hf => (h.flights f hf).append more, h.headTtl, h.listingTtl⟩

theorem Tracked.invalidate (h : Tracked headTtl listingTtl w) (hmore : invalidations more = [o]) :
    Tracked headTtl listingTtl
      { w with client := (w.client.invalidate o).1, history := w.history ++ more } :=
  ⟨h.synced.invalidate hmore, holds_of_besides (h.holds.invalidate o) hmore,
    fun f hf => (h.flights f hf).append more, h.headTtl, h.listingTtl⟩

theorem Tracked.settle {t : Turn} (h : Tracked headTtl listingTtl { w with client := t.client })
    (hwaiting : ∀ p, t.progress = .waiting p → p.IsPlain ∧ Asked w.history p) :
    Tracked headTtl listingTtl (w.settle t) := by
  unfold World.settle
  split
  · exact h
  · rename_i p hp
    obtain ⟨hplain, hasked⟩ := hwaiting p hp
    have hmore : invalidations [.called p.call] = [] := rfl
    refine (h.of_quiet hmore).of_flights ?_
    intro f hf
    rcases List.mem_append.1 hf with hf | hf
    · exact (h.flights f hf).append _
    · rw [List.mem_singleton.1 hf]
      exact ⟨hplain, w.history, [], rfl, rfl, hasked, fun r hr => by cases hr⟩

theorem asked_of_continues {t : Turn} {size : UInt64} (h : t.Continues c o size)
    (ho : o.IsPlain) (hc : Synced history c) (hsize : Reported history o size) :
    ∀ p, t.progress = .waiting p → p.IsPlain ∧ Asked history p := by
  intro p hp
  obtain ⟨r, left, rfl, rfl, rfl, hr⟩ := h.waiting p hp
  exact ⟨ho, (hc.of_within h.within).blocks r.object, hr, hsize⟩

theorem Tracked.reported_of_getHead (h : Tracked headTtl listingTtl w) (ho : o.IsPlain)
    {size : UInt64} (hg : (w.client.metadata.getHead w.now o).1 = some size) :
    Reported w.history o size := by
  obtain ⟨x, ⟨older, newer, t, hw, hv, -⟩, rfl, -⟩ := h.holds.of_getHead ho hg
  refine ⟨older.length, ?_⟩
  rw [hw]
  exact List.mem_append_right _ (List.mem_cons_of_mem _ hv.answered)

theorem Tracked.asked_of_startHead (h : Tracked headTtl listingTtl w) (ho : o.IsPlain)
    (purpose : Purpose) : ∀ p, (w.client.startHead w.now o purpose).progress = .waiting p →
      p.IsPlain ∧ Asked w.history p := by
  rcases startHead_cases w.client w.now o purpose with ⟨size, hg, hc⟩ | ⟨-, hp⟩
  · have hw : Within { w.client with metadata := (w.client.metadata.getHead w.now o).2 } w.client :=
      ⟨.refl _, MetadataCache.within_getHead _ _ _⟩
    exact asked_of_continues hc ho (h.synced.of_within hw) (h.reported_of_getHead ho hg)
  · intro p hq
    rw [hp, Progress.waiting.injEq] at hq
    subst hq
    exact ⟨ho, h.synced.buckets o.bucket⟩

theorem Tracked.asked_of_start (h : Tracked headTtl listingTtl w) {op : Operation}
    (hop : op.IsPlain) : ∀ p, (w.client.start w.now op).progress = .waiting p →
      p.IsPlain ∧ Asked w.history p := by
  cases op with
  | head o => exact h.asked_of_startHead hop _
  | read o offset length => exact h.asked_of_startHead hop _
  | list name =>
      intro p hp
      have hm := MetadataCache.within_getListing w.client.metadata w.now name
      simp only [Client.start] at hp
      split at hp
      · simp at hp
      · rename_i m hg
        rw [hg] at hm
        simp only [Progress.waiting.injEq] at hp
        subst hp
        exact ⟨trivial, (hm.generation_eq name.bucket).trans (h.synced.buckets name.bucket)⟩
  | write o data =>
      intro p hp
      simp only [Client.start, Progress.waiting.injEq] at hp
      subst hp
      exact ⟨hop, trivial⟩
  | delete o =>
      intro p hp
      simp only [Client.start, Progress.waiting.injEq] at hp
      subst hp
      exact ⟨hop, trivial⟩

theorem Tracked.settle_start (h : Tracked headTtl listingTtl w) {op : Operation}
    (hop : op.IsPlain) : Tracked headTtl listingTtl (w.settle (w.client.start w.now op)) :=
  (h.of_within (within_start w.client w.now op)).settle (h.asked_of_start hop)

theorem Tracked.storeHead (h : Tracked headTtl listingTtl w) (ho : o.IsPlain) {size : UInt64}
    {expires : Millis}
    (hb : Backed w.history (.head o) (.ok size) fun _ t => expires = t + headTtl) :
    Tracked headTtl listingTtl
      { w with client :=
        { w.client with metadata := w.client.metadata.storeHead o size expires } } :=
  ⟨⟨h.synced.distinct, h.synced.blocks, h.synced.buckets⟩, h.holds.storeHead ho hb, h.flights,
    h.headTtl, h.listingTtl⟩

theorem Tracked.storeListing (h : Tracked headTtl listingTtl w) {name : ListingName}
    {objects : List ObjectSummary} {expires : Millis}
    (hb : Backed w.history (.list name) (.ok objects) fun _ t => expires = t + listingTtl) :
    Tracked headTtl listingTtl
      { w with client :=
        { w.client with metadata := w.client.metadata.storeListing name objects expires } } :=
  ⟨⟨h.synced.distinct, h.synced.blocks, h.synced.buckets⟩, h.holds.storeListing hb, h.flights,
    h.headTtl, h.listingTtl⟩

theorem Tracked.putBlock (h : Tracked headTtl listingTtl w) {r : Reading} {left : Nat}
    (hr : r.Planned left) {data : ByteArray}
    (hb : Backed w.history (.get r.object r.blockStart r.blockLength) (.ok data)
      fun older _ => Reported older r.object r.size) :
    Tracked headTtl listingTtl
      { w with client := { w.client with blocks := (w.client.blocks.put r.key data).1 } } := by
  have hgen (p : ObjectName) :
      (w.client.blocks.put r.key data).1.generation p = w.client.blocks.generation p := by
    simp [BlockCache.generation]
  exact ⟨⟨BlockCache.distinct_put h.synced.distinct _ _,
      fun p => (hgen p).trans (h.synced.blocks p), h.synced.buckets⟩,
    h.holds.putBlock ⟨r, left, rfl, hr, hb⟩, h.flights, h.headTtl, h.listingTtl⟩

theorem Tracked.settle_continues {t : Turn} {size : UInt64} (h : Tracked headTtl listingTtl w)
    (ho : o.IsPlain) (ht : t.Continues w.client o size) (hsize : Reported w.history o size) :
    Tracked headTtl listingTtl (w.settle t) :=
  (h.of_within ht.within).settle (asked_of_continues ht ho h.synced hsize)

section Deliveries

variable {generation place : Nat}

theorem Tracked.settle_afterHead {purpose : Purpose} {result : Except StoreError UInt64}
    (h : Tracked headTtl listingTtl w)
    (hf : Flight.Tracked w.history ⟨.head o generation purpose, place, some result⟩) :
    Tracked headTtl listingTtl
      (World.settle { w with history := w.history ++ [.returned place (.head o) w.now] }
        (w.client.afterHead w.now o generation purpose result)) := by
  have hmore : invalidations [.returned place (.head o) w.now] = [] := rfl
  have hw := h.of_quiet hmore
  cases result with
  | error e => exact hw
  | ok size =>
      have hsize : Reported (w.history ++ [.returned place (.head o) w.now]) o size := by
        obtain ⟨older, newer, hnow, -, -, hanswered⟩ := hf.asked
        refine Reported.append ⟨place, ?_⟩ _
        rw [hnow]
        exact List.mem_append_right _ (List.mem_cons_of_mem _ (hanswered _ rfl))
      rcases afterHead_cases w.client w.now o generation purpose size with ⟨-, ht⟩ | ⟨d, ht, hd⟩
      · rw [ht]
        exact hw
      · rw [ht]
        rcases hd with rfl | ⟨hg, rfl⟩
        · exact hw.settle_continues hf.plain (continues_withSize _ o size purpose) hsize
        -- the generation has lasted, so nothing in the bucket was invalidated since the call
        · refine (hw.storeHead hf.plain ?_).settle_continues hf.plain
            (continues_withSize _ o size purpose) hsize
          refine backed_of_tracked hf ?_ rfl ?_
          · intro older newer hnow hasked p hp hc
            rw [h.synced.buckets, hnow, show generation = _ from hasked] at hg
            exact undisturbed_of_bucketCount hg p hp (congrArg ObjectName.bucket hc.symm)
          · intro older _
            rw [h.headTtl]

theorem Tracked.settle_afterBlock {r : Reading} {left : Nat}
    {result : Except StoreError ByteArray} (h : Tracked headTtl listingTtl w)
    (hf : Flight.Tracked w.history ⟨.block r left generation, place, some result⟩) :
    Tracked headTtl listingTtl
      (World.settle
        { w with
          history :=
            w.history ++ [.returned place (.get r.object r.blockStart r.blockLength) w.now] }
        (w.client.afterBlock r left generation result)) := by
  have hmore :
      invalidations [.returned place (.get r.object r.blockStart r.blockLength) w.now] = [] := rfl
  have hw := h.of_quiet hmore
  cases result with
  | error e => exact hw
  | ok block =>
      obtain ⟨older, newer, hnow, -, ⟨-, hr, hsize⟩, -⟩ := hf.asked
      have hsize' : Reported (w.history ++
          [.returned place (.get r.object r.blockStart r.blockLength) w.now]) r.object r.size := by
        rw [hnow]
        exact (hsize.append _).append _
      obtain ⟨d, hclient, hprogress, hd⟩ := afterBlock_cases w.client r left generation block
      have hcontinues : (w.client.afterBlock r left generation (.ok block)).Continues d r.object
          r.size := by
        have ht := continues_readAfter d hr block
        exact ⟨by rw [hclient]; exact ht.within, by rw [hclient, hprogress]; exact ht.waiting⟩
      rcases hd with rfl | ⟨hg, rfl⟩
      · exact hw.settle_continues hf.plain hcontinues hsize'
      · refine (hw.putBlock hr ?_).settle_continues hf.plain hcontinues hsize'
        refine backed_of_tracked hf ?_ rfl fun older hasked => hasked.2.2
        intro older newer hnow hasked p hp hc
        rw [h.synced.blocks, hnow, show generation = _ from hasked.1] at hg
        exact undisturbed_of_count hg p hp hc

theorem Tracked.settle_afterList {name : ListingName}
    {result : Except StoreError (List ObjectSummary)} (h : Tracked headTtl listingTtl w)
    (hf : Flight.Tracked w.history ⟨.list name generation, place, some result⟩) :
    Tracked headTtl listingTtl
      (World.settle { w with history := w.history ++ [.returned place (.list name) w.now] }
        (w.client.afterList w.now name generation result)) := by
  have hmore : invalidations [.returned place (.list name) w.now] = [] := rfl
  have hw := h.of_quiet hmore
  cases result with
  | error e => exact hw
  | ok objects =>
      rcases afterList_cases w.client w.now name generation objects with ⟨-, ht⟩ | ⟨d, ht, hd⟩
      · rw [ht]
        exact hw
      · rw [ht]
        rcases hd with rfl | ⟨hg, rfl⟩
        · exact hw
        · refine hw.storeListing (backed_of_tracked hf ?_ rfl ?_)
          · intro older newer hnow hasked p hp hc
            rw [h.synced.buckets, hnow, show generation = _ from hasked] at hg
            exact undisturbed_of_bucketCount hg p hp hc.symm
          · intro older _
            rw [h.listingTtl]

theorem Tracked.settle_afterMutation {call : StoreCall} {result : Except StoreError Unit}
    (h : Tracked headTtl listingTtl w) (hcall : call.mutated? = some o) :
    Tracked headTtl listingTtl
      (World.settle { w with history := w.history ++ [.returned place call w.now] }
        (w.client.afterMutation o result)) := by
  have hmore : invalidations [.returned place call w.now] = [o] := by
    simp [invalidations, Happening.invalidated?, hcall]
  cases result <;> exact h.invalidate hmore

theorem Tracked.settle_resume {p : Pending} {result : p.call.Result}
    (h : Tracked headTtl listingTtl w) (hf : Flight.Tracked w.history ⟨p, place, some result⟩) :
    Tracked headTtl listingTtl
      (World.settle { w with history := w.history ++ [.returned place p.call w.now] }
        (w.client.resume w.now p result)) := by
  cases p with
  | head o generation purpose => exact h.settle_afterHead hf
  | block r left generation => exact h.settle_afterBlock hf
  | list name generation => exact h.settle_afterList hf
  | write o data => exact h.settle_afterMutation rfl
  | delete o => exact h.settle_afterMutation rfl

end Deliveries

theorem Flight.Tracked.answer {p : Pending} {place : Nat}
    (hf : Flight.Tracked history ⟨p, place, none⟩) (result : p.call.Result) :
    Flight.Tracked (history ++ [.answered place p.call result]) ⟨p, place, some result⟩ := by
  obtain ⟨older, newer, rfl, hplace, hasked, -⟩ := hf.asked
  refine ⟨hf.plain, older, newer ++ [.answered place p.call result], by simp, hplace, hasked, ?_⟩
  intro r hr
  cases hr
  exact List.mem_append_right _ (List.mem_singleton.2 rfl)

theorem tracked_start (signer : Signer) (budget : UInt64) (headTtl listingTtl : Millis)
    (store : σ) (now : Millis) :
    Tracked headTtl listingTtl (World.start
      (.new signer (.withBudget budget) (.withTtls headTtl listingTtl)) store now) := by
  refine ⟨⟨.nil, fun _ => rfl, fun _ => rfl⟩, ⟨?_, ?_, ?_⟩, ?_, rfl, rfl⟩
  · simp [World.start, new, BlockCache.withBudget]
  · simp [World.start, new, MetadataCache.withTtls]
  · simp [World.start, new, MetadataCache.withTtls]
  · simp [World.start]

theorem tracked_step {env : Environment σ} {v : World σ} (h : Tracked headTtl listingTtl w)
    (hstep : Step env w v) : Tracked headTtl listingTtl v := by
  cases hstep with
  | start op hop => exact h.settle_start hop
  | answer before after p place result store hflights hanswers =>
      have hmore : invalidations [.answered place p.call result] = [] := rfl
      have hw := h.of_quiet hmore
      have hnew := (h.flights ⟨p, place, none⟩ (by rw [hflights]; simp)).answer result
      refine ⟨hw.synced, hw.holds, ?_, hw.headTtl, hw.listingTtl⟩
      intro f hf
      rcases List.mem_cons.1 (List.perm_middle.mem_iff.1 hf) with rfl | hf
      · exact hnew
      · refine hw.flights f ?_
        rw [hflights]
        exact List.perm_middle.mem_iff.2 (List.mem_cons_of_mem _ hf)
  | deliver before after p place result hflights =>
      have hrest : Tracked headTtl listingTtl { w with flights := before ++ after } := by
        refine h.of_flights ?_
        intro f hf
        refine h.flights f ?_
        rw [hflights]
        exact List.perm_middle.mem_iff.2 (List.mem_cons_of_mem _ hf)
      exact hrest.settle_resume (h.flights ⟨p, place, some result⟩ (by rw [hflights]; simp))
  | invalidate o ho => exact h.invalidate rfl
  | sweep => exact h.of_within ⟨.refl _, MetadataCache.within_purge _ _⟩
  | advance span => exact ⟨h.synced, h.holds, h.flights, h.headTtl, h.listingTtl⟩
  | drift store hdrift => exact ⟨h.synced, h.holds, h.flights, h.headTtl, h.listingTtl⟩

theorem tracked_of_reaches {env : Environment σ} {v : World σ} (h : Tracked headTtl listingTtl w)
    (hreaches : Reaches env w v) : Tracked headTtl listingTtl v := by
  induction hreaches with
  | refl => exact h
  | tail _ hstep ih => exact tracked_step ih hstep

theorem getHead_of_served {now : Millis} {size : UInt64}
    (h : (c.start now (.head o)).progress = .finished (.size size)) :
    (c.metadata.getHead now o).1 = some size := by
  simp only [Client.start, startHead] at h
  split at h
  · rename_i n m hg
    simp only [withSize, Progress.finished.injEq, Answer.size.injEq] at h
    rw [hg, h]
  · cases h

theorem getListing_of_served {now : Millis} {name : ListingName} {objects : List ObjectSummary}
    (h : (c.start now (.list name)).progress = .finished (.entries objects)) :
    (c.metadata.getListing now name).1 = some objects := by
  simp only [Client.start] at h
  split at h
  · rename_i found m hg
    simp only [Progress.finished.injEq, Answer.entries.injEq] at h
    rw [hg, h]
  · cases h

/-- A size or a listing from the caches is the answer to a call made after the latest invalidation
of what it is about, and reached the client less than its time to live ago. Over a store that
changes through the client alone it is what the store holds, once each change that was made is
known. -/
theorem served_metadata_is_fresh {env : Environment σ} (signer : Signer) (budget : UInt64)
    (headTtl listingTtl : Millis) (store : σ) (now : Millis)
    (h : Reaches env (.start (.new signer (.withBudget budget) (.withTtls headTtl listingTtl))
      store now) w) :
    (∀ o size, o.IsPlain → (w.client.start w.now (.head o)).progress = .finished (.size size) →
      Backed w.history (.head o) (.ok size) (fun _ t => w.now < t + headTtl) ∧
      ∀ view, env.Faithful view → w.Quiet (.head o) →
        (view w.store).Tells (.head o) (.ok size)) ∧
    (∀ name objects,
      (w.client.start w.now (.list name)).progress = .finished (.entries objects) →
      Backed w.history (.list name) (.ok objects) (fun _ t => w.now < t + listingTtl) ∧
      ∀ view, env.Faithful view → w.Quiet (.list name) →
        (view w.store).Tells (.list name) (.ok objects)) := by
  have htracked := tracked_of_reaches (tracked_start signer budget headTtl listingTtl store now) h
  have haccounted {view : σ → Contents} (henv : env.Faithful view) : Accounted view w :=
    accounted_of_reaches henv (accounted_start view _ store now) h
  constructor
  · intro o size ho hserved
    obtain ⟨x, ⟨older, newer, t, hw, hv, hx⟩, rfl, hlt⟩ :=
      htracked.holds.of_getHead ho (getHead_of_served hserved)
    have hb : Backed w.history (.head o) (.ok x.size) fun _ t => w.now < t + headTtl :=
      ⟨older, newer, t, hw, hv, Nat.lt_of_lt_of_eq hlt hx⟩
    exact ⟨hb, fun view henv hquiet => (haccounted henv).tells hb hquiet⟩
  · intro name objects hserved
    obtain ⟨x, ⟨older, newer, t, hw, hv, hx⟩, rfl, hlt⟩ :=
      htracked.holds.of_getListing (getListing_of_served hserved)
    have hb : Backed w.history (.list name) (.ok x.objects) fun _ t => w.now < t + listingTtl :=
      ⟨older, newer, t, hw, hv, Nat.lt_of_lt_of_eq hlt hx⟩
    exact ⟨hb, fun view henv hquiet => (haccounted henv).tells hb hquiet⟩

theorem size_is_served_in_time :
    let o : ObjectName := ⟨"b", "dir/k"⟩
    let store : Contents := ⟨fun _ => some ⟨#[1, 2, 3]⟩, fun _ => []⟩
    let client := Client.new (.new ⟨"", "", none⟩ "r") (.withBudget 0) (.withTtls 5000 5000)
    ∃ w, Reaches (.ofView id) (.start client store 100) w ∧
      (w.client.start w.now (.head o)).progress = .finished (.size 3) ∧
      Backed w.history (.head o) (.ok 3) (fun _ t => w.now < t + 5000) ∧
      w.store.Tells (.head o) (.ok 3) := by
  intro o store client
  have ho : o.IsPlain := by simp [o, ObjectName.IsPlain]
  have hanswers : store.Answers (.head o) (.ok 3) store := ⟨⟨_, rfl, rfl⟩, .inl rfl⟩
  let asked : Client := { client with metadata := client.metadata.record false }
  let stored : Client := { asked with metadata := asked.metadata.storeHead o 3 5107 }
  have hasked : Reaches (.ofView id) (.start client store 100)
      ⟨asked, store, 100, [⟨.head o 0 .size, 0, none⟩], [.called (.head o)]⟩ :=
    .single (.start _ (.head o) ho)
  have hanswered : Reaches (.ofView id) (.start client store 100)
      ⟨asked, store, 107, [⟨.head o 0 .size, 0, some (.ok (3 : UInt64))⟩],
        [.called (.head o), .answered 0 (.head o) (.ok 3)]⟩ :=
    (hasked.tail (.answer _ [] [] (.head o 0 .size) 0 (.ok (3 : UInt64)) store rfl hanswers)).tail
      (.advance _ 7)
  have hresumed : asked.resume 107 (.head o 0 .size) (.ok (3 : UInt64)) =
      ⟨stored, .finished (.size 3), []⟩ := by
    have hdeadline : deadline? 107 asked.metadata.headTtl = some 5107 := by decide
    have hgeneration : asked.metadata.generation o.bucket = 0 := rfl
    simp [Client.resume, afterHead, MetadataCache.putHeadIfCurrent, hdeadline, hgeneration, stored,
      withSize]
  have hstored : Reaches (.ofView id) (.start client store 100)
      ⟨stored, store, 5106, [],
        [.called (.head o), .answered 0 (.head o) (.ok 3), .returned 0 (.head o) 107]⟩ := by
    have hstep := hanswered.tail (.deliver _ [] [] (.head o 0 .size) 0 (.ok (3 : UInt64)) rfl)
    rw [hresumed] at hstep
    exact hstep.tail (.advance _ 4999)
  have hserved : (stored.start 5106 (.head o)).progress = .finished (.size 3) := by
    simp [Client.start, startHead, MetadataCache.getHead, stored, MetadataCache.storeHead, withSize]
  have hsize := (served_metadata_is_fresh _ _ _ _ _ _ hstored).1 o 3 ho hserved
  exact ⟨_, hstored, hserved, hsize.1,
    hsize.2 id (faithful_ofView id) (by simp [World.Quiet])⟩

end ObjectCache.Overlap
