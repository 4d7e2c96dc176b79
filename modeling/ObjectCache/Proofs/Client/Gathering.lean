import ObjectCache.Proofs.Client.Soundness

namespace ObjectCache.Client

open Time

variable {σ : Type} {serve : Server σ} {now : Millis} {s t : σ} {c d : Client} {o : ObjectName}
  {r q : Reading} {left : Nat} {block data : ByteArray} {offset length : UInt64}

structure Ending (σ : Type) where
  answer : Answer
  server : σ
  client : Client

def Outcome.ending (o : Outcome σ) : Ending σ := ⟨o.answer, o.server, o.client⟩

def Turn.ending (u : Turn) (serve : Server σ) (now : Millis) (s : σ) : Ending σ :=
  match u.progress with
  | .finished a => ⟨a, s, u.client⟩
  | .waiting p => (serveAll serve now s u.client p).ending

theorem ending_run (serve : Server σ) (now : Millis) (op : Operation) (s : σ) (c : Client) :
    (run serve now op s c).ending = (c.start now op).ending serve now s := by
  simp only [run, Turn.ending]
  cases (c.start now op).progress with
  | finished a => rfl
  | waiting p => rfl

theorem ending_serveAll (serve : Server σ) (now : Millis) (s : σ) (c : Client) (p : Pending) :
    (serveAll serve now s c p).ending =
      ((serve p.call s c).client.resume now p (serve p.call s c).result).ending serve now
        (serve p.call s c).server := by
  cases h : ((serve p.call s c).client.resume now p (serve p.call s c).result).progress with
  | finished a =>
      rw [Turn.ending, h, serveAll_of_finished serve now s c p h]
      rfl
  | waiting q =>
      rw [Turn.ending, h, serveAll_of_waiting serve now s c p h]
      rfl

theorem ending_of_waiting {p : Pending} (serve : Server σ) (now : Millis) (s : σ) {u : Turn}
    (h : u.progress = .waiting p) :
    u.ending serve now s = (serveAll serve now s u.client p).ending := by
  rw [Turn.ending, h]

def keep (c : Client) (r : Reading) (block : ByteArray) (generation : Nat) : Client :=
  { c with blocks := (c.blocks.putIfCurrent r.key block generation).2.1 }

abbrev fetch (serve : Server σ) (s : σ) (c : Client) (r : Reading) :
    Service σ (.get r.object r.blockStart r.blockLength) :=
  serve (.get r.object r.blockStart r.blockLength) s c

inductive Obtains (serve : Server σ) (s : σ) (c : Client) (r : Reading) :
    ByteArray → σ → Client → Prop
  | resident {block : ByteArray} {d : Client} (h : c.lookUp r = (some block, d)) :
      Obtains serve s c r block s d
  | fetched {block : ByteArray} {d : Client} (h : c.lookUp r = (none, d))
      (hresult : (fetch serve s d r).result = .ok block) :
      Obtains serve s c r block (fetch serve s d r).server
        ((fetch serve s d r).client.keep r block (d.blocks.generation r.object))

structure Visit where
  reading : Reading
  client : Client
  obtained : Except StoreError ByteArray

def blocksOf (visits : List Visit) : List ByteArray := visits.filterMap (·.obtained.toOption)

theorem blocksOf_cons (r : Reading) (c : Client) (block : ByteArray) (visits : List Visit) :
    blocksOf (⟨r, c, .ok block⟩ :: visits) = block :: blocksOf visits :=
  rfl

theorem blocksOf_singleton (r : Reading) (c : Client) (block : ByteArray) :
    blocksOf [⟨r, c, .ok block⟩] = [block] :=
  rfl

/-- The visits of a read from where it stands, with `left` blocks to go after the one at hand, and how
it ends. -/
inductive Walks (serve : Server σ) :
    σ → Client → Reading → Nat → List Visit → Ending σ → Prop
  | failed {s : σ} {c d : Client} {r : Reading} {left : Nat} {e : StoreError}
      (h : c.lookUp r = (none, d)) (hresult : (fetch serve s d r).result = .error e) :
      Walks serve s c r left [⟨r, c, .error e⟩]
        ⟨.failed e, (fetch serve s d r).server, (fetch serve s d r).client⟩
  | short {s t : σ} {c d : Client} {r : Reading} {left : Nat} {block : ByteArray}
      (h : Obtains serve s c r block t d) (hn : r.next? block = none) :
      Walks serve s c r left [⟨r, c, .ok block⟩] ⟨.bytes r.out, t, d⟩
  | last {s t : σ} {c d : Client} {r q : Reading} {block : ByteArray}
      (h : Obtains serve s c r block t d) (hn : r.next? block = some q) :
      Walks serve s c r 0 [⟨r, c, .ok block⟩] ⟨.bytes q.out, t, d⟩
  | next {s t : σ} {c d : Client} {r q : Reading} {left : Nat} {block : ByteArray}
      {visits : List Visit} {e : Ending σ} (h : Obtains serve s c r block t d)
      (hn : r.next? block = some q) (hrest : Walks serve t d q left visits e) :
      Walks serve s c r (left + 1) (⟨r, c, .ok block⟩ :: visits) e

theorem readOn_of_found (left : Nat) (h : c.lookUp r = (some block, d)) :
    c.readOn r left = d.readAfter r block left := by
  cases left with
  | zero => rw [readOn, readBlock, h, readAfter]
  | succ left => rw [readOn, readBlock, h, readAfter]

theorem readOn_of_missing (left : Nat) (h : c.lookUp r = (none, d)) :
    c.readOn r left = d.awaitBlock r left := by
  cases left with
  | zero => rw [readOn, readBlock, h]
  | succ left => rw [readOn, readBlock, h]

theorem readAfter_of_short (c : Client) (left : Nat) (hn : r.next? block = none) :
    c.readAfter r block left = c.finishRead r := by
  cases left with
  | zero => rw [readAfter, useBlock, hn]
  | succ left => rw [readAfter, useBlock, hn]

theorem readAfter_of_last (c : Client) (hn : r.next? block = some q) :
    c.readAfter r block 0 = c.finishRead q := by
  rw [readAfter, useBlock, hn]

theorem readAfter_of_next (c : Client) (left : Nat) (hn : r.next? block = some q) :
    c.readAfter r block (left + 1) = c.readOn q left := by
  rw [readAfter, useBlock, hn]

theorem ending_awaitBlock (serve : Server σ) (now : Millis) (s : σ) (c : Client) (r : Reading)
    (left : Nat) :
    (c.awaitBlock r left).ending serve now s =
      ((fetch serve s c r).client.afterBlock r left (c.blocks.generation r.object)
        (fetch serve s c r).result).ending serve now (fetch serve s c r).server := by
  rw [ending_of_waiting serve now s rfl, ending_serveAll]
  rfl

theorem obtains_readOn (serve : Server σ) (now : Millis) (s : σ) (c : Client) (r : Reading)
    (left : Nat) :
    (∃ d e, c.lookUp r = (none, d) ∧ (fetch serve s d r).result = .error e ∧
      (c.readOn r left).ending serve now s =
        ⟨.failed e, (fetch serve s d r).server, (fetch serve s d r).client⟩) ∨
    ∃ block t d, Obtains serve s c r block t d ∧
      (c.readOn r left).ending serve now s = (d.readAfter r block left).ending serve now t := by
  rcases hl : c.lookUp r with ⟨found, d⟩
  cases found with
  | some block =>
      rw [readOn_of_found left hl]
      exact .inr ⟨block, s, d, .resident hl, rfl⟩
  | none =>
      rw [readOn_of_missing left hl, ending_awaitBlock]
      cases hresult : (fetch serve s d r).result with
      | error e => exact .inl ⟨d, e, rfl, hresult, rfl⟩
      | ok block => exact .inr ⟨block, _, _, .fetched hl hresult, rfl⟩

theorem walks_of_next
    (hnext : ∀ block t d q, Obtains serve s c r block t d → r.next? block = some q →
      ∃ visits, Walks serve s c r left visits ((d.readAfter r block left).ending serve now t)) :
    ∃ visits, Walks serve s c r left visits ((c.readOn r left).ending serve now s) := by
  rcases obtains_readOn serve now s c r left with ⟨d, e, hl, hresult, he⟩ | ⟨block, t, d, hb, he⟩
  · rw [he]
    exact ⟨_, .failed hl hresult⟩
  · rw [he]
    cases hn : r.next? block with
    | none =>
        rw [readAfter_of_short d left hn]
        exact ⟨_, .short hb hn⟩
    | some q => exact hnext block t d q hb hn

theorem walks_readOn (serve : Server σ) (now : Millis) (s : σ) (c : Client) (r : Reading)
    (left : Nat) :
    ∃ visits, Walks serve s c r left visits ((c.readOn r left).ending serve now s) := by
  induction left generalizing s c r with
  | zero =>
      refine walks_of_next fun block t d q hb hn => ?_
      rw [readAfter_of_last d hn]
      exact ⟨_, .last hb hn⟩
  | succ left ih =>
      refine walks_of_next fun block t d q hb hn => ?_
      obtain ⟨visits, hrest⟩ := ih t d q
      rw [readAfter_of_next d left hn]
      exact ⟨_, .next hb hn hrest⟩

inductive Sizes (serve : Server σ) (now : Millis) (s : σ) (c : Client) (o : ObjectName) :
    UInt64 → σ → Client → Prop
  | cached {size : UInt64} {m : MetadataCache} (h : c.metadata.getHead now o = (some size, m)) :
      Sizes serve now s c o size s { c with metadata := m }
  | asked {size : UInt64} {m n : MetadataCache} {service : Service σ (.head o)} {current : Bool}
      (h : c.metadata.getHead now o = (none, m))
      (hserve : serve (.head o) s { c with metadata := m } = service)
      (hresult : service.result = .ok size)
      (hput : service.client.metadata.putHeadIfCurrent now o size (m.generation o.bucket) =
        some (current, n)) :
      Sizes serve now s c o size service.server { service.client with metadata := n }

theorem ending_startHead {size : UInt64} (h : Sizes serve now s c o size t d) (purpose : Purpose) :
    (c.startHead now o purpose).ending serve now s =
      (d.withSize o size purpose).ending serve now t := by
  cases h with
  | cached h => rw [startHead, h]
  | @asked m n service current h hserve hresult hput =>
      subst hserve
      have hwaits : c.startHead now o purpose = ⟨{ c with metadata := m },
          .waiting (.head o (m.generation o.bucket) purpose), []⟩ := by
        rw [startHead, h]
      rw [hwaits, ending_of_waiting serve now s rfl, ending_serveAll]
      simp only [resume, Pending.call, hresult, afterHead, hput]

theorem sizes_startHead
    (h : ((c.startHead now o (.read offset length)).ending serve now s).answer = .bytes data) :
    ∃ size t d, Sizes serve now s c o size t d := by
  unfold startHead at h
  split at h
  · rename_i size m hg
    exact ⟨size, s, _, .cached hg⟩
  · rename_i m hg
    rw [ending_of_waiting serve now s rfl, ending_serveAll] at h
    generalize hservice : serve (Pending.head o (m.generation o.bucket)
      (.read offset length)).call s { c with metadata := m } = service at h
    obtain ⟨result, t, d, events⟩ := service
    cases result with
    | error e => cases h
    | ok size =>
        simp only [resume, afterHead] at h
        split at h
        · cases h
        · rename_i current n hput
          exact ⟨size, t, _, .asked hg hservice rfl hput⟩

/-- The blocks that a read obtains when the object is taken to have a size, and its answer. -/
def Reads (serve : Server σ) (s : σ) (c : Client) (o : ObjectName) (size offset length : UInt64)
    (blocks : List ByteArray) (a : Answer) : Prop :=
  match Reading.start? o size offset length with
  | none => blocks = [] ∧ a = .bytes .empty
  | some (r, left) =>
      ∃ visits e, Walks serve s c r left visits e ∧ blocks = blocksOf visits ∧ a = e.answer

theorem reads_withSize {size : UInt64}
    (h : ((c.withSize o size (.read offset length)).ending serve now s).answer = .bytes data) :
    ∃ blocks, Reads serve s c o size offset length blocks (.bytes data) := by
  unfold Reads
  simp only [withSize] at h
  cases hs : Reading.start? o size offset length with
  | none =>
      rw [hs] at h
      exact ⟨[], rfl, h.symm⟩
  | some p =>
      rw [hs] at h
      dsimp only at h
      split at h
      · obtain ⟨visits, hwalks⟩ := walks_readOn serve now s c p.1 p.2
        exact ⟨_, visits, _, hwalks, rfl, h.symm⟩
      · cases h

theorem reads_of_run (h : (run serve now (.read o offset length) s c).answer = .bytes data) :
    ∃ size t d blocks, Sizes serve now s c o size t d ∧
      Reads serve t d o size offset length blocks (.bytes data) := by
  have hstart := congrArg Ending.answer (ending_run serve now (.read o offset length) s c)
  replace hstart := hstart.symm.trans h
  obtain ⟨size, t, d, hsize⟩ := sizes_startHead hstart
  rw [start, ending_startHead hsize] at hstart
  obtain ⟨blocks, hreads⟩ := reads_withSize hstart
  exact ⟨size, t, d, blocks, hsize, hreads⟩

end ObjectCache.Client
