import ObjectCache.Client.Run
import ObjectCache.Proofs.Client.Turns
import ObjectCache.Proofs.Store.Contents

namespace ObjectCache.Client

open Time

/-- What an operation that succeeds has to answer, by what the store holds in the end. -/
def Grants (s : Contents) : Operation → Answer → Prop
  | .head o, .size n => ∃ content, s.objects o = some content ∧ n.toNat = content.size
  | .read o offset length, .bytes data =>
      ∃ content, s.objects o = some content ∧ data = MemoryStore.range content offset length
  | .list name, .entries objects => objects = s.listing name
  | .write o data, .done => s.objects o = some data
  | .delete o, .done => s.objects o = none
  | _, _ => False

theorem grants_unique {s : Contents} {op : Operation} {a b : Answer} (ha : Grants s op a)
    (hb : Grants s op b) : a = b := by
  cases op with
  | head o =>
      cases a <;> cases b <;> simp_all [Grants]
      rename_i n m
      obtain ⟨content, hc, hn⟩ := ha
      obtain ⟨content', hc', hm⟩ := hb
      rw [← UInt64.toNat_inj, hn, hm, Option.some.inj (hc.symm.trans hc')]
  | read o offset length =>
      cases a <;> cases b <;> simp_all [Grants]
      obtain ⟨content, hc, rfl⟩ := ha
      obtain ⟨content', hc', rfl⟩ := hb
      rw [Option.some.inj (hc.symm.trans hc')]
  | list name => cases a <;> cases b <;> simp_all [Grants]
  | write o data => cases a <;> cases b <;> simp_all [Grants]
  | delete o => cases a <;> cases b <;> simp_all [Grants]

/-- The operation is a read of a range that is longer than memory can be asked for. -/
def Exceeds (s : Contents) : Operation → Prop
  | .read o offset length => ∃ content, s.objects o = some content ∧
      longestRange.toNat < (MemoryStore.range content offset length).size
  | _ => False

/-- How an operation ends of which no call fails. -/
def Concludes (s : Contents) (op : Operation) (answer : Answer) : Prop :=
  Exceeds s op ∧ answer = .overflow ∨ ¬Exceeds s op ∧ Grants s op answer

theorem concludes_unique {s : Contents} {op : Operation} {a b : Answer} (ha : Concludes s op a)
    (hb : Concludes s op b) : a = b := by
  rcases ha with ⟨hexceeds, rfl⟩ | ⟨hnot, ha⟩
  · rcases hb with ⟨-, rfl⟩ | ⟨hnot, -⟩
    · rfl
    · exact absurd hexceeds hnot
  · rcases hb with ⟨hexceeds, -⟩ | ⟨-, hb⟩
    · exact absurd hexceeds hnot
    · exact grants_unique ha hb

theorem exceeds_read_iff {s : Contents} {o : ObjectName} {content : ByteArray}
    {offset length : UInt64} (ho : s.objects o = some content) :
    Exceeds s (.read o offset length) ↔
      longestRange.toNat < (MemoryStore.range content offset length).size := by
  constructor
  · rintro ⟨content', ho', hlt⟩
    rwa [Option.some.inj (ho.symm.trans ho')]
  · exact fun hlt => ⟨content, ho, hlt⟩

theorem concludes_read {s : Contents} {o : ObjectName} {content : ByteArray}
    {offset length : UInt64} (ho : s.objects o = some content)
    (hfits : (MemoryStore.range content offset length).size ≤ longestRange.toNat) :
    Concludes s (.read o offset length) (.bytes (MemoryStore.range content offset length)) :=
  .inr ⟨fun h => Nat.not_lt.2 hfits ((exceeds_read_iff ho).1 h), content, ho, rfl⟩

def factsOf (s : Contents) (about : ObjectName → Prop) : Facts where
  block key data := about key.object →
    ∃ content, s.objects key.object = some content ∧ data = blockOf content key.index
  head o x := s.Tells (.head o) (.ok x.size)
  listing name x := s.Tells (.list name) (.ok x.objects)

def Purpose.operation (o : ObjectName) : Purpose → Operation
  | .size => .head o
  | .read offset length => .read o offset length

def Pending.Serves (s : Contents) (op : Operation) : Pending → Prop
  | .head o _ purpose => op = purpose.operation o
  | .block r left _ => ∃ content offset length, op = .read r.object offset length ∧
      s.objects r.object = some content ∧ r.Sound content left ∧ r.Yields content offset length
  | .list name _ => op = .list name
  | .write o data => op = .write o data
  | .delete o => op = .delete o

def Operation.mutated? : Operation → Option ObjectName
  | .write o _ => some o
  | .delete o => some o
  | _ => none

theorem Pending.Serves.mutated?_eq {s : Contents} {op : Operation} {p : Pending}
    (h : p.Serves s op) : p.call.mutated? = op.mutated? := by
  cases p with
  | head o generation purpose =>
      cases h
      cases purpose <;> rfl
  | block r left generation =>
      obtain ⟨content, offset, length, rfl, -⟩ := h
      rfl
  | list name generation =>
      cases h
      rfl
  | write o data =>
      cases h
      rfl
  | delete o =>
      cases h
      rfl

structure Turn.Sound (t : Turn) (s : Contents) (about : ObjectName → Prop) (op : Operation) :
    Prop where
  holds : t.client.Holds (factsOf s about)
  finished : ∀ a, t.progress = .finished a → Concludes s op a
  waiting : ∀ p, t.progress = .waiting p → p.Serves s op

variable {s t : Contents} {about : ObjectName → Prop} {c : Client} {r : Reading} {left : Nat}
  {content : ByteArray} {offset length : UInt64}

theorem sound_of_finished {u : Turn} {op : Operation} {a : Answer}
    (h : u.client.Holds (factsOf s about)) (hu : u.progress = .finished a)
    (ha : Concludes s op a) : u.Sound s about op := by
  refine ⟨h, ?_, ?_⟩
  · intro b hb
    rw [hu, Progress.finished.injEq] at hb
    rwa [← hb]
  · intro p hp
    rw [hu] at hp
    cases hp

theorem sound_of_waiting {u : Turn} {op : Operation} {p : Pending}
    (h : u.client.Holds (factsOf s about)) (hu : u.progress = .waiting p)
    (hp : p.Serves s op) : u.Sound s about op := by
  refine ⟨h, ?_, ?_⟩
  · intro a ha
    rw [hu] at ha
    cases ha
  · intro q hq
    rw [hu, Progress.waiting.injEq] at hq
    rwa [← hq]

theorem sound_finishRead {o : ObjectName} (h : c.Holds (factsOf s about))
    (ho : s.objects o = some content) (hout : r.out = MemoryStore.range content offset length)
    (hfits : (MemoryStore.range content offset length).size ≤ longestRange.toNat) :
    (c.finishRead r).Sound s about (.read o offset length) := by
  refine sound_of_finished h rfl ?_
  rw [hout]
  exact concludes_read ho hfits

theorem whole_of_lookUp (h : c.Holds (factsOf s about)) (habout : about r.object)
    (ho : s.objects r.object = some content) {block : ByteArray}
    (hl : (c.lookUp r).1 = some block) : block = blockOf content r.index := by
  obtain ⟨content', ho', hb⟩ := h.of_lookUp hl habout
  change s.objects r.object = some content' at ho'
  rw [hb, Option.some.inj (ho.symm.trans ho')]
  rfl

theorem sound_readOn (h : c.Holds (factsOf s about)) (habout : about r.object)
    (ho : s.objects r.object = some content) (hr : r.Sound content left)
    (hyields : r.Yields content offset length) :
    (c.readOn r left).Sound s about (.read r.object offset length) := by
  refine readOn_induction
    (P := fun d q left => d.Holds (factsOf s about) ∧ q.Sound content left ∧
      q.object = r.object ∧ q.offset = r.offset ∧ q.stop = r.stop)
    (T := fun t => t.Sound s about (.read r.object offset length)) ?_ ?_ ?_ ?_ c r left
    ⟨h, hr, rfl, rfl, rfl⟩
  · rintro d q left ⟨hd, hq, hobject, hoffset, hstop⟩ -
    refine sound_of_waiting (hd.of_within (within_lookUp d q)) rfl ?_
    exact ⟨content, offset, length, by rw [hobject], by rw [hobject, ho], hq,
      by rw [hoffset, hstop, hyields.range], hyields.fits⟩
  · rintro d q left block ⟨hd, hq, hobject, -⟩ hl hn
    have hb := whole_of_lookUp hd (hobject ▸ habout) (hobject ▸ ho) hl
    obtain ⟨q', hq', -⟩ := hq.next?
    rw [← hb, hn] at hq'
    cases hq'
  · rintro d q block q' ⟨hd, hq, hobject, hoffset, hstop⟩ hl hn
    have hb := whole_of_lookUp hd (hobject ▸ habout) (hobject ▸ ho) hl
    rw [hb] at hn
    refine sound_finishRead (hd.of_within (within_lookUp d q)) ho ?_ hyields.fits
    rw [hq.out_of_last hn, hoffset, hstop, hyields.range]
  · rintro d q left block q' ⟨hd, hq, hobject, hoffset, hstop⟩ hl hn
    have hb := whole_of_lookUp hd (hobject ▸ habout) (hobject ▸ ho) hl
    rw [hb] at hn
    have hq' := hq.next hn
    obtain ⟨-, rfl⟩ := Reading.eq_of_next? hn
    exact ⟨hd.of_within (within_lookUp d q), hq', hobject, hoffset, hstop⟩

theorem sound_readAfter (h : c.Holds (factsOf s about)) (habout : about r.object)
    (ho : s.objects r.object = some content) (hr : r.Sound content left)
    (hyields : r.Yields content offset length) :
    (c.readAfter r (blockOf content r.index) left).Sound s about
      (.read r.object offset length) := by
  obtain ⟨q, hn, -⟩ := hr.next?
  cases left with
  | zero =>
      simp only [readAfter, useBlock, hn]
      exact sound_finishRead h ho (by rw [hr.out_of_last hn, hyields.range]) hyields.fits
  | succ left =>
      have hq := hr.next hn
      simp only [readAfter, useBlock, hn]
      obtain ⟨-, rfl⟩ := Reading.eq_of_next? hn
      exact sound_readOn h habout ho hq ⟨hyields.range, hyields.fits⟩

theorem sound_withSize (h : c.Holds (factsOf s about)) {o : ObjectName} {size : UInt64}
    {purpose : Purpose} (habout : purpose ≠ .size → about o)
    (hsize : s.Tells (.head o) (.ok size)) :
    (c.withSize o size purpose).Sound s about (purpose.operation o) := by
  obtain ⟨content, ho, hn⟩ := hsize
  cases purpose with
  | size => exact sound_of_finished h rfl (.inr ⟨id, content, ho, hn.symm⟩)
  | read offset length =>
      simp only [withSize]
      split
      · rename_i hs
        have hempty := Reading.range_of_start?_eq_none hs hn
        have hfits : (MemoryStore.range content offset length).size ≤ longestRange.toNat := by
          rw [hempty, ByteArray.size_empty]
          exact Nat.zero_le _
        refine sound_of_finished h rfl ?_
        rw [← hempty]
        exact concludes_read ho hfits
      · rename_i q left hs
        have hfits_iff := Reading.fits_iff_of_start? hs hn
        split
        · rename_i hfits
          obtain ⟨-, rfl, -⟩ := Reading.planned_of_start? hs
          exact sound_readOn h (habout (by simp)) ho (Reading.sound_of_start? hs hn)
            ⟨Reading.range_of_start? hs hn, hfits_iff.1 hfits⟩
        · rename_i hfits
          rw [hfits_iff] at hfits
          exact sound_of_finished h rfl
            (.inl ⟨(exceeds_read_iff ho).2 (Nat.lt_of_not_le hfits), rfl⟩)

def Operation.ReadsAbout (about : ObjectName → Prop) : Operation → Prop
  | .read o _ _ => about o
  | _ => True

theorem sound_startHead (h : c.Holds (factsOf s about)) {now : Millis} {o : ObjectName}
    {purpose : Purpose} (ho : o.IsPlain) (habout : purpose ≠ .size → about o) :
    (c.startHead now o purpose).Sound s about (purpose.operation o) := by
  have hm := MetadataCache.within_getHead c.metadata now o
  unfold startHead
  split
  · rename_i size m hg
    rw [hg] at hm
    obtain ⟨x, hx, rfl, -⟩ := h.of_getHead ho (by rw [hg])
    have hw : Within { c with metadata := m } c := ⟨.refl _, hm⟩
    exact sound_withSize (h.of_within hw) habout hx
  · rename_i m hg
    rw [hg] at hm
    exact sound_of_waiting (h.of_within ⟨.refl _, hm⟩) rfl rfl

theorem sound_start (h : c.Holds (factsOf s about)) {now : Millis} {op : Operation}
    (hplain : op.IsPlain) (habout : op.ReadsAbout about) :
    (c.start now op).Sound s about op := by
  cases op with
  | head o => exact sound_startHead h hplain (fun hp => absurd rfl hp)
  | read o offset length => exact sound_startHead h hplain (fun _ => habout)
  | list name =>
      have hm := MetadataCache.within_getListing c.metadata now name
      simp only [start]
      split
      · rename_i objects m hg
        rw [hg] at hm
        obtain ⟨x, hx, rfl, -⟩ := h.of_getListing (by rw [hg])
        exact sound_of_finished (h.of_within ⟨.refl _, hm⟩) rfl (.inr ⟨id, hx⟩)
      · rename_i m hg
        rw [hg] at hm
        exact sound_of_waiting (h.of_within ⟨.refl _, hm⟩) rfl rfl
  | write o data => exact sound_of_waiting h rfl rfl
  | delete o => exact sound_of_waiting h rfl rfl

theorem sound_afterHead (h : c.Holds (factsOf s about)) {now : Millis} {o : ObjectName}
    {generation : Nat} {purpose : Purpose} {size : UInt64} (ho : o.IsPlain)
    (hclock : now + c.metadata.headTtl < horizon) (habout : purpose ≠ .size → about o)
    (hsize : s.Tells (.head o) (.ok size)) :
    (c.afterHead now o generation purpose (.ok size)).Sound s about (purpose.operation o) := by
  rcases afterHead_cases c now o generation purpose size with ⟨hge, -⟩ | ⟨d, hd, hcases⟩
  · exact absurd hclock (Nat.not_lt.2 hge)
  · rw [hd]
    refine sound_withSize ?_ habout hsize
    rcases hcases with rfl | ⟨-, rfl⟩
    · exact h
    · exact h.storeHead ho hsize

theorem sound_afterBlock (h : c.Holds (factsOf s about)) (habout : about r.object)
    (ho : s.objects r.object = some content) (hr : r.Sound content left)
    (hyields : r.Yields content offset length) (generation : Nat) :
    (c.afterBlock r left generation (.ok (blockOf content r.index))).Sound s about
      (.read r.object offset length) := by
  obtain ⟨d, hclient, hprogress, hcases⟩ :=
    afterBlock_cases c r left generation (blockOf content r.index)
  have hd : d.Holds (factsOf s about) := by
    rcases hcases with rfl | ⟨-, rfl⟩
    · exact h
    · exact h.putBlock fun _ => ⟨content, ho, rfl⟩
  have hs := sound_readAfter hd habout ho hr hyields
  exact ⟨by rw [hclient]; exact hs.holds, by rw [hprogress]; exact hs.finished,
    by rw [hprogress]; exact hs.waiting⟩

theorem sound_afterList (h : c.Holds (factsOf s about)) {now : Millis} {name : ListingName}
    {generation : Nat} {objects : List ObjectSummary}
    (hclock : now + c.metadata.listingTtl < horizon)
    (htells : s.Tells (.list name) (.ok objects)) :
    (c.afterList now name generation (.ok objects)).Sound s about (.list name) := by
  rcases afterList_cases c now name generation objects with ⟨hge, -⟩ | ⟨d, hd, hcases⟩
  · exact absurd hclock (Nat.not_lt.2 hge)
  · rw [hd]
    refine sound_of_finished ?_ rfl (.inr ⟨id, htells⟩)
    rcases hcases with rfl | ⟨-, rfl⟩
    · exact h
    · exact h.storeListing htells

theorem holds_of_replaces {o : ObjectName} {new : Option ByteArray}
    (h : c.Holds ((factsOf s about).besides o)) (hr : s.Replaces o new t) :
    c.Holds (factsOf t about) := by
  apply h.mono
  · rintro key data ⟨hb, hne⟩ ha
    obtain ⟨content, ho, hd⟩ := hb ha
    exact ⟨content, by rw [hr.others _ hne, ho], hd⟩
  · rintro p x ⟨hx, hne⟩
    have hc : ¬(StoreCall.head p).Concerns o := hne
    have ht : s.Tells (.head p) (.ok x.size) := hx
    exact hr.tells hc ht
  · rintro name x ⟨hx, hne⟩
    have hc : ¬(StoreCall.list name).Concerns o := hne
    have ht : s.Tells (.list name) (.ok x.objects) := hx
    exact hr.tells hc ht

theorem holds_invalidate (h : c.Holds (factsOf s about)) (o : ObjectName) :
    (c.invalidate o).1.Holds (factsOf s about) :=
  (h.invalidate o).mono (fun _ _ hb => hb.1) (fun _ _ hx => hx.1) (fun _ _ hx => hx.1)

theorem holds_afterMutation (h : c.Holds (factsOf s about)) {call : StoreCall} {o : ObjectName}
    {result : call.Result} (hm : call.mutated? = some o) (ha : s.Answers call result t) :
    (c.invalidate o).1.Holds (factsOf t about) := by
  rcases ha.eq_or_replaces with rfl | ⟨p, new, hp, hr⟩
  · exact holds_invalidate h o
  · rw [hm, Option.some.injEq] at hp
    subst hp
    exact holds_of_replaces (h.invalidate o) hr

def Turn.After (u : Turn) (t : Contents) (about : ObjectName → Prop) (op : Operation) {α : Type} :
    Except StoreError α → Prop
  | .error e => u.progress = .finished (.failed e) ∧ u.client.Holds (factsOf t about)
  | .ok _ => u.Sound t about op

theorem after_afterMutation (h : c.Holds (factsOf s about)) {call : StoreCall} {o : ObjectName}
    {op : Operation} {answer : call.Result} {result : Except StoreError Unit}
    (hm : call.mutated? = some o) (ha : s.Answers call answer t)
    (hdone : ∀ u, result = .ok u → Concludes t op .done) :
    (c.afterMutation o result).After t about op result := by
  have hc := holds_afterMutation h hm ha
  cases result with
  | error e => exact ⟨rfl, hc⟩
  | ok u => exact sound_of_finished hc rfl (hdone u rfl)

theorem after_resume (h : c.Holds (factsOf s about)) {now : Millis} {p : Pending}
    {op : Operation} {result : p.call.Result} (hp : p.Serves s op) (hplain : op.IsPlain)
    (habout : op.ReadsAbout about) (hhead : now + c.metadata.headTtl < horizon)
    (hlisting : now + c.metadata.listingTtl < horizon) (ha : s.Answers p.call result t) :
    (c.resume now p result).After t about op result := by
  cases p with
  | head o generation purpose =>
      obtain rfl := ha.eq_of_mutated?_eq_none rfl
      cases hp
      cases result with
      | error e => exact ⟨rfl, h⟩
      | ok size =>
          refine sound_afterHead h ?_ hhead ?_ ha.tells
          · cases purpose <;> exact hplain
          · intro hne
            cases purpose with
            | size => exact absurd rfl hne
            | read offset length => exact habout
  | block r left generation =>
      obtain rfl := ha.eq_of_mutated?_eq_none rfl
      obtain ⟨content, offset, length, rfl, ho, hr, hyields⟩ := hp
      cases result with
      | error e => exact ⟨rfl, h⟩
      | ok block =>
          obtain ⟨content', ho', hb⟩ := ha.tells
          obtain rfl := Option.some.inj (ho.symm.trans ho')
          rw [hr.planned.range_eq_blockOf hr.size] at hb
          subst hb
          exact sound_afterBlock h habout ho hr hyields generation
  | list name generation =>
      obtain rfl := ha.eq_of_mutated?_eq_none rfl
      cases hp
      cases result with
      | error e => exact ⟨rfl, h⟩
      | ok objects => exact sound_afterList h hlisting ha.tells
  | write o data =>
      cases hp
      refine after_afterMutation h rfl ha ?_
      rintro u rfl
      rcases ha.effect with he | ⟨⟨e, he⟩, -⟩
      · exact .inr ⟨id, he.object⟩
      · cases he
  | delete o =>
      cases hp
      refine after_afterMutation h rfl ha ?_
      rintro u rfl
      rcases ha.effect with he | ⟨⟨e, he⟩, -⟩
      · exact .inr ⟨id, he.object⟩
      · cases he

variable {σ : Type}

structure Server.Faithful (serve : Server σ) (view : σ → Contents) : Prop where
  answers : ∀ call s c,
    (view s).Answers call (serve call s c).result (view (serve call s c).server)
  client : ∀ call s c, (serve call s c).client = c

def failures {α : Type} : Except StoreError α → List StoreError
  | .ok _ => []
  | .error e => [e]

def Server.noting (serve : Server σ) : Server (σ × List StoreError) := fun call s c =>
  let service := serve call s.1 c
  ⟨service.result, (service.server, s.2 ++ failures service.result), service.client,
    service.events⟩

theorem faithful_noting {serve : Server σ} {view : σ → Contents} (h : serve.Faithful view) :
    serve.noting.Faithful fun s => view s.1 :=
  ⟨fun call s c => h.answers call s.1 c, fun call s c => h.client call s.1 c⟩

section Runs

variable (serve : Server σ) (now : Millis) (server : σ) (client : Client) (p : Pending)

theorem serveAll_of_finished {answer : Answer}
    (h : ((serve p.call server client).client.resume now p
      (serve p.call server client).result).progress = .finished answer) :
    let service := serve p.call server client
    let turn := service.client.resume now p service.result
    serveAll serve now server client p =
      ⟨answer, service.server, turn.client, service.events ++ turn.events⟩ := by
  rw [serveAll]
  split
  · rename_i a ha
    rw [h, Progress.finished.injEq] at ha
    rw [ha]
  · rename_i q hq
    rw [h] at hq
    cases hq

theorem serveAll_of_waiting {q : Pending}
    (h : ((serve p.call server client).client.resume now p
      (serve p.call server client).result).progress = .waiting q) :
    let service := serve p.call server client
    let turn := service.client.resume now p service.result
    let rest := serveAll serve now service.server turn.client q
    serveAll serve now server client p =
      { rest with events := service.events ++ turn.events ++ rest.events } := by
  rw [serveAll]
  split
  · rename_i a ha
    rw [h] at ha
    cases ha
  · rename_i q' hq
    rw [h, Progress.waiting.injEq] at hq
    rw [hq]

theorem serveAll_noting (noted : List StoreError) :
    let o := serveAll serve.noting now (server, noted) client p
    serveAll serve now server client p = ⟨o.answer, o.server.1, o.client, o.events⟩ := by
  induction server, client, p using serveAll.induct serve now generalizing noted with
  | case1 server client p service turn answer h =>
      rw [serveAll_of_finished serve now server client p h,
        serveAll_of_finished serve.noting now (server, noted) client p h]
      rfl
  | case2 server client p service turn q h ih =>
      rw [serveAll_of_waiting serve now server client p h,
        serveAll_of_waiting serve.noting now (server, noted) client p h,
        ih (noted ++ failures service.result)]
      rfl

theorem run_noting (op : Operation) (noted : List StoreError) :
    let o := run serve.noting now op (server, noted) client
    run serve now op server client = ⟨o.answer, o.server.1, o.client, o.events⟩ := by
  simp only [run]
  split
  · rfl
  · rw [serveAll_noting serve now server _ _ noted]

end Runs

structure Outcome.Sound (o : Outcome (σ × List StoreError)) (view : σ → Contents) (s : Contents)
    (about : ObjectName → Prop) (op : Operation) (noted : List StoreError) : Prop where
  holds : o.client.Holds (factsOf (view o.server.1) about)
  unchanged : op.mutated? = none → view o.server.1 = s
  answer : (∃ e, o.answer = .failed e ∧ o.server.2 = noted ++ [e]) ∨
    Concludes (view o.server.1) op o.answer ∧ o.server.2 = noted

variable {serve : Server σ} {view : σ → Contents} {server : σ} {now : Millis} {op : Operation}

theorem after_service (hserve : serve.Faithful view) (hplain : op.IsPlain)
    (habout : op.ReadsAbout about) {p : Pending} (h : c.Holds (factsOf (view server) about))
    (hp : p.Serves (view server) op) (hhead : now + c.metadata.headTtl < horizon)
    (hlisting : now + c.metadata.listingTtl < horizon) :
    let service := serve p.call server c
    let turn := service.client.resume now p service.result
    turn.After (view service.server) about op service.result ∧
      (op.mutated? = none → view service.server = view server) ∧ turn.client.SameTtls c := by
  intro service turn
  have hc : service.client = c := hserve.client p.call server c
  have hanswers := hserve.answers p.call server c
  exact ⟨after_resume (hc ▸ h) hp hplain habout (hc ▸ hhead) (hc ▸ hlisting) hanswers,
    fun hop => hanswers.eq_of_mutated?_eq_none (hp.mutated?_eq.trans hop),
    hc ▸ sameTtls_resume service.client now p service.result⟩

theorem sound_serveAll (hserve : serve.Faithful view) (hplain : op.IsPlain)
    (habout : op.ReadsAbout about) {p : Pending} (noted : List StoreError)
    (h : c.Holds (factsOf (view server) about)) (hp : p.Serves (view server) op)
    (hhead : now + c.metadata.headTtl < horizon)
    (hlisting : now + c.metadata.listingTtl < horizon) :
    (serveAll serve.noting now (server, noted) c p).Sound view (view server) about op noted ∧
      (serveAll serve.noting now (server, noted) c p).client.SameTtls c := by
  induction server, c, p using serveAll.induct serve now generalizing noted with
  | case1 server c p service turn answer hf =>
      obtain ⟨hafter, hsame, httls⟩ := after_service hserve hplain habout h hp hhead hlisting
      rw [serveAll_of_finished serve.noting now (server, noted) c p hf]
      refine ⟨?_, httls⟩
      change (Outcome.mk answer (service.server, noted ++ failures service.result) turn.client
        (service.events ++ turn.events)).Sound view (view server) about op noted
      change turn.After (view service.server) about op service.result at hafter
      cases hresult : service.result with
      | error e =>
          rw [hresult] at hafter
          obtain ⟨hprogress, hholds⟩ := hafter
          rw [hf, Progress.finished.injEq] at hprogress
          exact ⟨hholds, hsame, .inl ⟨e, hprogress, rfl⟩⟩
      | ok v =>
          rw [hresult] at hafter
          exact ⟨hafter.holds, hsame, .inr ⟨hafter.finished answer hf, List.append_nil noted⟩⟩
  | case2 server c p service turn q hf ih =>
      obtain ⟨hafter, hsame, httls⟩ := after_service hserve hplain habout h hp hhead hlisting
      rw [serveAll_of_waiting serve.noting now (server, noted) c p hf]
      change turn.After (view service.server) about op service.result at hafter
      cases hresult : service.result with
      | error e =>
          rw [hresult] at hafter
          have hprogress := hafter.1
          rw [hf] at hprogress
          cases hprogress
      | ok v =>
          rw [hresult] at hafter
          have hs : (serve.noting p.call (server, noted) c).server = (service.server, noted) := by
            refine Prod.ext rfl ?_
            change noted ++ failures service.result = noted
            rw [hresult]
            exact List.append_nil noted
          have hrest := ih noted hafter.holds (hafter.waiting q hf) (httls.head ▸ hhead)
            (httls.listing ▸ hlisting)
          simp only [hs]
          exact ⟨⟨hrest.1.holds, fun hop => (hrest.1.unchanged hop).trans (hsame hop),
            hrest.1.answer⟩, hrest.2.head.trans httls.head, hrest.2.listing.trans httls.listing⟩

theorem sound_run (hserve : serve.Faithful view) (hplain : op.IsPlain)
    (habout : op.ReadsAbout about) (noted : List StoreError)
    (h : c.Holds (factsOf (view server) about)) (hhead : now + c.metadata.headTtl < horizon)
    (hlisting : now + c.metadata.listingTtl < horizon) :
    (run serve.noting now op (server, noted) c).Sound view (view server) about op noted ∧
      (run serve.noting now op (server, noted) c).client.SameTtls c := by
  have hstart : (c.start now op).Sound (view server) about op := sound_start h hplain habout
  have httls := (within_start c now op).sameTtls
  simp only [run]
  split
  · rename_i answer hf
    exact ⟨⟨hstart.holds, fun _ => rfl, .inr ⟨hstart.finished answer hf, rfl⟩⟩, httls⟩
  · rename_i p hf
    have hrest := sound_serveAll hserve hplain habout noted hstart.holds (hstart.waiting p hf)
      (httls.head ▸ hhead) (httls.listing ▸ hlisting)
    exact ⟨⟨hrest.1.holds, hrest.1.unchanged, hrest.1.answer⟩, hrest.2.head.trans httls.head,
      hrest.2.listing.trans httls.listing⟩

end ObjectCache.Client
