import ObjectCache.Proofs.Client.Freshness
import ObjectCache.Proofs.Client.Transparency

namespace ObjectCache

def Block.IsWhole (b : Block) (content : ByteArray) : Prop := b.data = blockOf content b.key.index

namespace Client

open Time

variable {σ : Type} {serve : Server σ} {view : σ → Contents} {server : σ}
  {about : ObjectName → Prop} {c : Client} {b : Block} {content : ByteArray} {now : Millis}

def Turn.EndsWithin (t : Turn) (b : Block) : Prop :=
  ∃ answer, t.progress = .finished answer ∧ ∀ out, answer = .bytes out → out.size ≤ b.data.size

theorem endsWithin_finishRead (c : Client) {r : Reading} (h : r.out.size ≤ b.data.size) :
    (c.finishRead r).EndsWithin b := by
  refine ⟨.bytes r.out, rfl, ?_⟩
  rintro out ⟨⟩
  exact h

theorem endsWithin_withSize {size : UInt64} (hfound : c.blocks.find? b.key = some b)
    (hstart : b.key.index.toNat * 262144 < size.toNat) :
    (c.withSize b.key.object size (.read (blockSize * b.key.index) blockSize)).EndsWithin b := by
  obtain ⟨r, hr, hkey, hout⟩ := Reading.start?_block b.key.object hstart
  have hempty : r.out.size ≤ b.data.size := by simp [hout]
  have hlookUp : (c.lookUp r).1 = some b.data := by
    simp [lookUp, hkey, BlockCache.get_of_find? hfound]
  simp only [withSize, hr, readOn, readBlock]
  split
  · split
    · rename_i d hl
      rw [hl] at hlookUp
      cases hlookUp
    · rename_i block d hl
      rw [hl, Option.some.injEq] at hlookUp
      rw [useBlock]
      split
      · exact endsWithin_finishRead d hempty
      · rename_i s hn
        obtain ⟨-, rfl⟩ := Reading.eq_of_next? hn
        refine endsWithin_finishRead d ?_
        rw [hout, ByteArray.empty_append, ByteArray.size_extract, hlookUp]
        exact Nat.le_trans (Nat.sub_le _ _) (Nat.min_le_right _ _)
  · exact ⟨.overflow, rfl, by simp⟩

theorem endsWithin_afterHead {generation : Nat} {result : Except StoreError UInt64}
    (hfound : c.blocks.find? b.key = some b)
    (hstart : ∀ size, result = .ok size → b.key.index.toNat * 262144 < size.toNat) :
    (c.afterHead now b.key.object generation (.read (blockSize * b.key.index) blockSize)
      result).EndsWithin b := by
  cases result with
  | error e => exact ⟨.failed e, rfl, by simp⟩
  | ok size =>
      rcases afterHead_cases c now b.key.object generation
        (.read (blockSize * b.key.index) blockSize) size with ⟨-, h⟩ | ⟨d, h, hd⟩
      · rw [h]
        exact ⟨.overflow, rfl, by simp⟩
      · rw [h]
        refine endsWithin_withSize ?_ (hstart size rfl)
        rcases hd with rfl | ⟨-, rfl⟩ <;> exact hfound

theorem run_block (hserve : serve.Faithful view) (h : c.Holds (factsOf (view server) about))
    (hplain : b.key.object.IsPlain) (hfound : c.blocks.find? b.key = some b)
    (ho : (view server).objects b.key.object = some content)
    (hstart : b.key.index.toNat * 262144 < content.size) (now : Millis) :
    let outcome := run serve now (.read b.key.object (blockSize * b.key.index) blockSize) server c
    ∀ out, outcome.answer = .bytes out → out.size ≤ b.data.size := by
  have hsize (size : UInt64) (ht : (view server).Tells (.head b.key.object) (.ok size)) :
      b.key.index.toNat * 262144 < size.toNat := by
    obtain ⟨content', ho', hn⟩ := ht
    rwa [← hn, ← Option.some.inj (ho.symm.trans ho')]
  have hm := MetadataCache.within_getHead c.metadata now b.key.object
  intro outcome
  cases hg : c.metadata.getHead now b.key.object with
  | mk found m =>
      rw [hg] at hm
      cases found with
      | some size =>
          obtain ⟨x, hx, rfl, -⟩ := h.of_getHead hplain (by rw [hg])
          obtain ⟨answer, hend, hout⟩ := endsWithin_withSize
            (c := { c with metadata := m }) hfound (hsize x.size hx)
          have hanswer : outcome.answer = answer := by
            simp [outcome, run, Client.start, startHead, hg, hend]
          rw [hanswer]
          exact hout
      | none =>
          let d : Client := { c with metadata := m }
          let service := serve (.head b.key.object) server d
          let p : Pending := .head b.key.object (m.generation b.key.object.bucket)
            (.read (blockSize * b.key.index) blockSize)
          have hanswers := hserve.answers (.head b.key.object) server d
          have hclient : service.client = d := hserve.client _ _ _
          have hends : (service.client.resume now p service.result).EndsWithin b := by
            rw [hclient]
            exact endsWithin_afterHead hfound fun size hr => hsize size (hr ▸ hanswers.tells)
          obtain ⟨answer, hend, hout⟩ := hends
          have hall := serveAll_of_finished serve now server d p hend
          have hanswer : outcome.answer = (serveAll serve now server d p).answer := by
            simp [outcome, run, Client.start, startHead, hg, d, p]
          rw [hanswer, hall]
          exact hout

end Client

namespace Overlap

open Time Client

/-- How a resident block was fetched: a size was reported, and then the block was asked for up to
that size. `between` is what happened in between. -/
structure Fetched (history : List Happening) (content : ByteArray) (b : Block) (size : UInt64)
    (between : List Happening) : Prop where
  start_lt : b.key.index.toNat * 262144 < size.toNat
  reported : ∃ older newer place, history =
    older ++ .answered place (.head b.key.object) (.ok size) :: between ++
      .called (.get b.key.object (blockSize * b.key.index)
        (min blockSize (size - blockSize * b.key.index))) :: newer ∧
    b.key.object ∉ invalidations newer
  bytes : b.data = blockUpTo content b.key.index size
  whole_iff : b.IsWhole content ↔ min ((b.key.index.toNat + 1) * 262144) content.size ≤ size.toNat
  whole : b.key.object ∉ invalidations between → b.IsWhole content

variable {σ τ : Type} {view : σ → Contents} {w : World σ} {headTtl listingTtl : Millis}
  {o : ObjectName}

theorem quiet_of_rest (h : w.flights = []) (call : StoreCall) : w.Quiet call := by
  intro f hf
  rw [h] at hf
  cases hf

theorem fetched_at_rest (ht : Tracked headTtl listingTtl w) (ha : Accounted view w)
    (hrest : w.flights = []) {b : Block} (hb : b ∈ w.client.blocks.blocks) :
    ∃ content size between, (view w.store).objects b.key.object = some content ∧
      Fetched w.history content b size between := by
  obtain ⟨r, left, hkey, hr, hbacked⟩ := ht.holds.block b hb
  obtain ⟨key, data⟩ := b
  simp only at hkey
  subst hkey
  obtain ⟨content, ho, hdata⟩ := ha.tells hbacked (quiet_of_rest hrest _)
  obtain ⟨before, newer, t, hw, hv, place, hplace⟩ := hbacked
  obtain ⟨older, between, rfl⟩ := List.append_of_mem hplace
  have hlt := Nat.lt_of_lt_of_le hr.start_lt hr.stop_le
  have hbytes : data = blockUpTo content r.index r.size :=
    hdata.trans (hr.range_eq_blockUpTo content)
  have hwhole_iff : Block.IsWhole ⟨r.key, data⟩ content ↔
      min ((r.index.toNat + 1) * 262144) content.size ≤ r.size.toNat := by
    rw [Block.IsWhole, hbytes]
    exact blockUpTo_eq_blockOf_iff hlt
  have hcalm : r.object ∉ invalidations newer := fun hi => hv.undisturbed _ hi rfl
  refine ⟨content, r.size, between, ho, hlt, ⟨older, newer, place, ?_, hcalm⟩, hbytes, hwhole_iff,
    ?_⟩
  · rw [hw]
    simp [Reading.key, Reading.blockStart, Reading.blockLength]
  · intro hbetween
    have hsplit : w.history = older ++ .answered place (.head r.object) (.ok r.size) ::
        (between ++ .called (.get r.object r.blockStart r.blockLength) :: newer) := by
      rw [hw]
      simp
    -- a change after the report would have been followed by an invalidation, so the size is right
    have htells := ha.tells_of_undisturbed hsplit ?_ (quiet_of_rest hrest _)
    · obtain ⟨content', ho', hsize⟩ := htells
      rw [Option.some.inj (ho.symm.trans ho')] at hwhole_iff ⊢
      rw [hwhole_iff, ← hsize]
      exact Nat.min_le_right _ _
    · intro p hp hc
      have hcons : between ++ .called (.get r.object r.blockStart r.blockLength) :: newer =
          between ++ [.called (.get r.object r.blockStart r.blockLength)] ++ newer := by simp
      rw [hcons, invalidations_append, invalidations_append, List.mem_append,
        List.mem_append] at hp
      change r.object = p at hc
      subst hc
      rcases hp with (hp | hp) | hp
      · exact hbetween hp
      · cases hp
      · exact hcalm hp

theorem holds_at_rest (ht : Tracked headTtl listingTtl w) (ha : Accounted view w)
    (hrest : w.flights = []) {about : ObjectName → Prop}
    (hwhole : ∀ b ∈ w.client.blocks.blocks, about b.key.object → ∀ content,
      (view w.store).objects b.key.object = some content → b.IsWhole content) :
    w.client.Holds (factsOf (view w.store) about) := by
  refine ⟨?_, ?_, ?_⟩
  · intro b hb habout
    obtain ⟨content, -, -, ho, -⟩ := fetched_at_rest ht ha hrest hb
    exact ⟨content, ho, hwhole b hb habout content ho⟩
  · intro path x hx
    obtain ⟨p, hp, hpath, hbacked⟩ := ht.holds.head path x hx
    exact ⟨p, hp, hpath, ha.tells hbacked (quiet_of_rest hrest _)⟩
  · intro name x hx
    exact ha.tells (ht.holds.listing name x hx) (quiet_of_rest hrest _)

theorem Fetched.short_of_not_whole {history between : List Happening} {content : ByteArray}
    {b : Block} {size : UInt64} (h : Fetched history content b size between)
    (hshort : ¬b.IsWhole content) :
    b.key.index.toNat * 262144 < content.size ∧
      b.data.size < (blockOf content b.key.index).size := by
  have hstart := h.start_lt
  rw [h.whole_iff] at hshort
  rw [h.bytes, size_blockOf, blockUpTo, ByteArray.size_extract]
  omega

theorem Fetched.not_grants {history between : List Happening} {content : ByteArray} {b : Block}
    {size : UInt64} (h : Fetched history content b size between) {s : Contents} {answer : Answer}
    (ho : s.objects b.key.object = some content)
    (hshort : b.data.size < (blockOf content b.key.index).size)
    (hanswer : ∀ out, answer = .bytes out → out.size ≤ b.data.size) :
    ¬Grants s (.read b.key.object (blockSize * b.key.index) blockSize) answer := by
  intro hgrants
  cases answer with
  | bytes out =>
      obtain ⟨content', ho', hout⟩ := hgrants
      obtain rfl := Option.some.inj (ho.symm.trans ho')
      have hle := hanswer out rfl
      rw [hout, range_eq_extract, toNat_blockSize_mul h.start_lt, toNat_blockSize,
        ← Nat.succ_mul] at hle
      exact Nat.not_lt.2 hle hshort
  | size n => exact hgrants
  | entries objects => exact hgrants
  | done => exact hgrants
  | failed cause => exact hgrants
  | overflow => exact hgrants

/-- Once no operation is under way no resident block is stale, and it is whole just if the size that
its read carried reaches as far as the object does; it is so when nothing of the object was
invalidated between the report of that size and the fetch. If all blocks of an object are whole, its
reads are exact, but for those of more bytes than memory can be asked for; where one is not whole, a
read is not exact. -/
theorem blocks_at_rest {env : Environment σ} (henv : env.Faithful view) (signer : Signer)
    (budget : UInt64) (headTtl listingTtl : Millis) (store : σ) (now : Millis)
    (h : Reaches env (.start (.new signer (.withBudget budget) (.withTtls headTtl listingTtl))
      store now) w) (hrest : w.flights = []) (hhead : w.now + headTtl < horizon)
    (hlisting : w.now + listingTtl < horizon) :
    (∀ b ∈ w.client.blocks.blocks, ∃ content size between,
      (view w.store).objects b.key.object = some content ∧
      Fetched w.history content b size between) ∧
    ∀ (o : ObjectName) (serve : Server τ) (sight : τ → Contents) (server : τ), o.IsPlain →
      serve.Faithful sight → sight server = view w.store →
      let outcome offset length :=
        run serve.noting w.now (.read o offset length) (server, []) w.client
      let isExact offset length :=
        Grants (view w.store) (.read o offset length) (outcome offset length).answer
      let exceeds offset length := Exceeds (view w.store) (.read o offset length)
      ((∀ b ∈ w.client.blocks.blocks, b.key.object = o → ∀ content,
          (view w.store).objects o = some content → b.IsWhole content) →
        ∀ offset length, isExact offset length ∧ ¬exceeds offset length ∨
          (outcome offset length).answer = .overflow ∧ exceeds offset length ∨
          ∃ e, (outcome offset length).answer = .failed e ∧
            (outcome offset length).server.2 = [e]) ∧
      ∀ b ∈ w.client.blocks.blocks, b.key.object = o → ∀ content,
        (view w.store).objects o = some content → ¬b.IsWhole content →
        ¬isExact (blockSize * b.key.index) blockSize := by
  have ht := tracked_of_reaches (tracked_start signer budget headTtl listingTtl store now) h
  have ha := accounted_of_reaches henv (accounted_start view _ store now) h
  refine ⟨fun b hb => fetched_at_rest ht ha hrest hb, ?_⟩
  intro o serve sight server hplain hserve hsight outcome isExact exceeds
  constructor
  · intro hwhole offset length
    have hholds : w.client.Holds (factsOf (sight server) (· = o)) := by
      rw [hsight]
      refine holds_at_rest ht ha hrest ?_
      rintro b hb rfl
      exact hwhole b hb rfl
    have hread : Operation.IsPlain (.read o offset length) := hplain
    have habout : Operation.ReadsAbout (· = o) (.read o offset length) := rfl
    have hrun := sound_run hserve hread habout [] hholds (ht.headTtl ▸ hhead)
      (ht.listingTtl ▸ hlisting)
    have hsame := (hrun.1.unchanged rfl).trans hsight
    rcases hrun.1.answer with hfail | ⟨hconcludes, -⟩
    · exact .inr (.inr hfail)
    · rw [hsame] at hconcludes
      rcases hconcludes with ⟨hexceeds, hoverflow⟩ | ⟨hnot, hgrants⟩
      · exact .inr (.inl ⟨hoverflow, hexceeds⟩)
      · exact .inl ⟨hgrants, hnot⟩
  · rintro b hb rfl content ho hshort hexact
    obtain ⟨content', size, between, ho', hf⟩ := fetched_at_rest ht ha hrest hb
    obtain rfl := Option.some.inj (ho.symm.trans ho')
    obtain ⟨hstart, hlt⟩ := hf.short_of_not_whole hshort
    have hholds : w.client.Holds (factsOf (sight server) fun _ => False) := by
      rw [hsight]
      exact holds_at_rest ht ha hrest fun _ _ hfalse => hfalse.elim
    exact hf.not_grants ho hlt (run_block (faithful_noting hserve) hholds hplain
      (ht.synced.distinct.find? hb) (hsight ▸ ho) hstart _) hexact

namespace Crossing

def object : ObjectName := ⟨"b", "dir/k"⟩

def written : ByteArray := ⟨#[2, 3]⟩

def oldStore : MemoryStore := MemoryStore.empty.put object ⟨#[1]⟩

def newStore : MemoryStore := oldStore.put object written

def reading : Reading := ⟨object, 1, 0, 1, 0, .empty⟩

def cut : Block := ⟨⟨object, 0⟩, ⟨#[2]⟩⟩

def client : Client := .new (.new ⟨"", "", none⟩ "r") (.withBudget 9) (.withTtls 5000 5000)

def asked : Client := { client with metadata := client.metadata.record false }

def invalidated : Client := (asked.invalidate object).1

def missed : Client := (invalidated.lookUp reading).2

def stored : Client := { missed with blocks := (missed.blocks.put reading.key cut.data).1 }

def head : Pending := .head object 0 (.read 0 1)

def measured : Flight := ⟨head, 0, some (.ok (1 : UInt64))⟩

def before : List Happening := [.called (.head object), .answered 0 (.head object) (.ok 1)]

def during : List Happening :=
  before ++ [.called (.put object written), .answered 2 (.put object written) (.ok ())]

def after : List Happening := during ++ [.returned 2 (.put object written) 0]

abbrev Reached (w : World MemoryStore) : Prop :=
  Reaches (.ofView MemoryStore.view) (.start client oldStore 0) w

theorem plain_object : object.IsPlain := by simp [object, ObjectName.IsPlain]

theorem objects_oldStore : oldStore.view.objects object = some ⟨#[1]⟩ := by
  simp [oldStore, MemoryStore.view, MemoryStore.put]

theorem objects_newStore : newStore.view.objects object = some written := by
  simp [newStore, MemoryStore.view, MemoryStore.put]

theorem not_whole_cut : ¬cut.IsWhole written := by
  intro hwhole
  have hsize := congrArg ByteArray.size hwhole
  rw [size_blockOf] at hsize
  exact absurd hsize (by decide)

theorem resume_invalidated :
    invalidated.resume 0 head (.ok (1 : UInt64)) = ⟨missed, .waiting (.block reading 0 1), []⟩ := by
  have hdeadline : deadline? 0 invalidated.metadata.headTtl = some 5000 := by decide
  have hgeneration : invalidated.metadata.generation object.bucket = 1 := by rfl
  have hplan : Reading.start? object 1 0 1 = some (reading, 0) := by rfl
  have hfits : reading.fits = true := by decide
  have hmissing : invalidated.lookUp reading = (none, missed) := rfl
  have hawaited : missed.blocks.generation reading.object = 1 := by rfl
  simp [head, Client.resume, afterHead, MetadataCache.putHeadIfCurrent, hdeadline, hgeneration,
    withSize, hplan, hfits, readOn, readBlock, hmissing, awaitBlock, hawaited]

theorem put_missed : missed.blocks.put reading.key cut.data =
    ({ missed.blocks with blocks := [cut], total := 1 }, []) := by
  have hmissing : missed.blocks.find? reading.key = none := rfl
  have hblocks : missed.blocks.blocks = [] := rfl
  have hbudget : missed.blocks.budget = 9 := rfl
  have htotal : missed.blocks.total = 0 := by decide
  have hkey : (⟨reading.key, cut.data⟩ : Block) = cut := rfl
  have hsize : cut.size = 1 := by decide
  rw [BlockCache.put_of_missing hmissing, hkey]
  simp [BlockCache.takeIn, BlockCache.evictOver, hblocks, hsize, hbudget, htotal]

theorem resume_missed : missed.resume 0 (.block reading 0 1) (.ok cut.data) =
    ⟨stored, .finished (.bytes (reading.out ++ cut.data.extract 0 1)), []⟩ := by
  have hgeneration : missed.blocks.generation reading.key.object = 1 := by rfl
  have hslice : reading.sliceStart = 0 ∧ reading.sliceStop cut.data = 1 := by decide
  simp [Client.resume, afterBlock, BlockCache.putIfCurrent, hgeneration, readAfter, useBlock,
    Reading.next?, hslice, put_missed, finishRead, stored]

theorem written_reached : Reached
    ⟨asked, newStore, 0, [measured, ⟨.write object written, 2, some (.ok ())⟩], during⟩ := by
  have hmeasured : Reached ⟨asked, oldStore, 0, [measured], before⟩ :=
    .tail (.single (.start _ (.read object 0 1) plain_object))
      (.answer _ [] [] head 0 (.ok (1 : UInt64)) oldStore rfl
        ⟨⟨⟨#[1]⟩, objects_oldStore, rfl⟩, .inl rfl⟩)
  exact (hmeasured.tail (.start _ (.write object written) plain_object)).tail
    (.answer _ [measured] [] (.write object written) 2 (.ok ()) newStore rfl
      ⟨trivial, .inl (oldStore.replaces_put object written)⟩)

theorem fetching_reached : Reached
    ⟨missed, newStore, 0, [⟨.block reading 0 1, 6, none⟩], after ++ [.returned 0 (.head object) 0,
      .called (.get object reading.blockStart reading.blockLength)]⟩ := by
  have hinvalidated : Reached ⟨invalidated, newStore, 0, [measured], after⟩ :=
    written_reached.tail (.deliver _ [measured] [] (.write object written) 2 (.ok ()) rfl)
  have hstep := hinvalidated.tail (.deliver _ [] [] head 0 (.ok (1 : UInt64)) rfl)
  rw [resume_invalidated] at hstep
  exact hstep

theorem cut_reached : ∃ w, Reached w ∧ w.flights = [] ∧ w.now = 0 ∧ w.store = newStore ∧
    cut ∈ w.client.blocks.blocks := by
  have hrange : cut.data = MemoryStore.range written reading.blockStart reading.blockLength := by
    decide
  have hfetched := fetching_reached.tail
    (.answer _ [] [] (.block reading 0 1) 6 (.ok cut.data) newStore rfl
      ⟨⟨written, objects_newStore, hrange⟩, .inl rfl⟩)
  have hended := hfetched.tail (.deliver _ [] [] (.block reading 0 1) 6 (.ok cut.data) rfl)
  have hresident : cut ∈ stored.blocks.blocks := by simp [stored, put_missed]
  rw [resume_missed] at hended
  exact ⟨_, hended, rfl, rfl, rfl, hresident⟩

end Crossing

open Crossing

theorem cut_block_is_accounted_for :
    ∃ w, Reached w ∧ w.flights = [] ∧ cut ∈ w.client.blocks.blocks ∧
      ∃ size between, Fetched w.history written cut size between := by
  obtain ⟨w, hw, hrest, hnow, hstore, hb⟩ := cut_reached
  have hclock : w.now + 5000 < horizon := by
    rw [hnow]
    decide
  obtain ⟨content, size, between, ho, hf⟩ := (blocks_at_rest (τ := MemoryStore)
    (faithful_ofView MemoryStore.view) _ _ _ _ _ _ hw hrest hclock hclock).1 cut hb
  rw [hstore] at ho
  have hcontent : content = written := Option.some.inj (ho.symm.trans objects_newStore)
  exact ⟨w, hw, hrest, hb, size, between, hcontent ▸ hf⟩

theorem read_at_rest_is_cut_short :
    ∃ w, Reached w ∧ w.flights = [] ∧
      (∃ b ∈ w.client.blocks.blocks, ∃ content,
        w.store.view.objects b.key.object = some content ∧ ¬b.IsWhole content) ∧
      ¬Grants w.store.view (.read object 0 blockSize)
        (run MemoryStore.serve w.now (.read object 0 blockSize) w.store w.client).answer := by
  obtain ⟨w, hw, hrest, -, hstore, hb⟩ := cut_reached
  have ht := tracked_of_reaches (tracked_start _ _ _ _ _ _) hw
  have ha := accounted_of_reaches (faithful_ofView MemoryStore.view) (accounted_start _ _ _ _) hw
  have ho : w.store.view.objects object = some written := by rw [hstore, objects_newStore]
  obtain ⟨content, size, between, ho', hf⟩ := fetched_at_rest ht ha hrest hb
  obtain rfl := Option.some.inj (ho.symm.trans ho')
  obtain ⟨hstart, hlt⟩ := hf.short_of_not_whole not_whole_cut
  have hholds : w.client.Holds (factsOf w.store.view fun _ => False) :=
    holds_at_rest ht ha hrest fun _ _ hfalse => hfalse.elim
  have hzero : blockSize * 0 = 0 := by decide
  have hread := hf.not_grants ho hlt (run_block MemoryStore.faithful_serve hholds plain_object
    (ht.synced.distinct.find? hb) ho hstart w.now)
  change ¬Grants _ (.read object (blockSize * 0) blockSize)
    (run _ _ (.read object (blockSize * 0) blockSize) _ _).answer at hread
  rw [hzero] at hread
  exact ⟨w, hw, hrest, ⟨cut, hb, written, ho, not_whole_cut⟩, hread⟩

end Overlap

end ObjectCache
