import ObjectCache.Proofs.Cache.Residence
import ObjectCache.Proofs.Client.Contiguity

namespace ObjectCache

open Time

namespace Reading

structure Exact (r : Reading) : Prop where
  offset_lt_stop : r.offset < r.stop
  start : r.blockStart.toNat = r.index.toNat * 262144
  start_lt_stop : r.blockStart < r.stop
  start_lt_size : r.blockStart < r.size
  length : r.blockLength.toNat = min 262144 (r.size.toNat - r.blockStart.toNat)
  length_pos : 1 ≤ r.blockLength.toNat
  fetched_le_size : r.blockStart.toNat + r.blockLength.toNat ≤ r.size.toNat
  next_index : (r.index + 1).toNat = r.index.toNat + 1

variable {r q : Reading} {left : Nat} {block : ByteArray}

theorem Planned.exact (h : r.Planned left) : r.Exact := by
  have hstart := h.toNat_blockStart
  have hlength := h.toNat_blockLength
  have hlt := h.start_lt
  have hle := h.stop_le
  refine ⟨UInt64.lt_iff_toNat_lt.2 h.offset_lt, hstart, ?_, ?_, ?_, ?_, ?_, h.toNat_index_succ⟩
  · rwa [UInt64.lt_iff_toNat_lt, hstart]
  · rw [UInt64.lt_iff_toNat_lt, hstart]
    exact Nat.lt_of_lt_of_le hlt hle
  · rw [hlength, hstart]
  · rw [hlength]
    omega
  · rw [hlength, hstart]
    omega

theorem Planned.size_le_of_none (h : r.Planned left) (hn : r.next? block = none) :
    block.size ≤ r.sliceStart := by
  unfold next? at hn
  split at hn
  · cases hn
  · rename_i hle
    have hoffset := h.offset_lt
    have hstart := h.start_lt
    rw [h.sliceStart_eq, h.sliceStop_eq] at hle
    rw [h.sliceStart_eq]
    omega

end Reading

namespace Client

variable {σ : Type} {serve : Server σ} {now : Millis} {s : σ} {c d : Client} {o : ObjectName}
  {r q : Reading} {left : Nat} {block : ByteArray} {offset length size : UInt64}
  {v : Visit} {visits : List Visit} {e : Ending σ}

namespace Visit

def index (v : Visit) : Nat := v.reading.index.toNat

def call? (v : Visit) : Option StoreCall :=
  match v.client.blocks.find? v.reading.key with
  | some _ => none
  | none => some (.get v.reading.object v.reading.blockStart v.reading.blockLength)

def Contributes (v : Visit) : Prop :=
  ∃ block, v.obtained = .ok block ∧ v.reading.sliceStart < v.reading.sliceStop block ∧
    v.reading.sliceStop block ≤ block.size

def Stops (v : Visit) : Prop :=
  (∃ e, v.obtained = .error e) ∨ ∃ block, v.obtained = .ok block ∧ block.size ≤ v.reading.sliceStart

def IsWhole (v : Visit) : Prop :=
  ∃ block, v.obtained = .ok block ∧ block.size = v.reading.blockLength.toNat

def span (v : Visit) : Nat × Nat :=
  (v.reading.blockStart.toNat + v.reading.sliceStart,
    v.reading.blockStart.toNat + match v.obtained with
      | .ok block => v.reading.sliceStop block
      | .error _ => v.reading.sliceStart)

end Visit

/-- Visits of one block after the other from `first` on, up to `last` or to one that stops them. -/
structure Sweep (first last : Nat) (visits : List Visit) : Prop where
  indices : visits.map Visit.index = List.range' first visits.length
  before : ∀ v ∈ visits.dropLast, v.Contributes
  stops : ∃ v, visits.getLast? = some v ∧ (v.Stops ∨ v.Contributes ∧ v.index = last)

theorem sweep_singleton (v : Visit) {last : Nat} (h : v.Stops ∨ v.Contributes ∧ v.index = last) :
    Sweep v.index last [v] :=
  ⟨rfl, nofun, v, rfl, h⟩

theorem Sweep.cons {last : Nat} (hv : v.Contributes) (h : Sweep (v.index + 1) last visits) :
    Sweep v.index last (v :: visits) := by
  obtain ⟨w, hw, hstops⟩ := h.stops
  obtain ⟨u, rest, rfl⟩ : ∃ u rest, visits = u :: rest := by
    cases visits with
    | nil => cases hw
    | cons u rest => exact ⟨u, rest, rfl⟩
  refine ⟨?_, ?_, w, ?_, hstops⟩
  · rw [List.map_cons, h.indices]
    exact List.range'_succ.symm
  · rw [List.dropLast_cons_cons]
    exact List.forall_mem_cons.2 ⟨hv, h.before⟩
  · rwa [List.getLast?_cons_cons]

theorem contributes_of_next? {client : Client} (hn : r.next? block = some q) :
    Visit.Contributes ⟨r, client, .ok block⟩ :=
  ⟨block, rfl, (Reading.eq_of_next? hn).1, Nat.min_le_right _ _⟩

theorem stops_of_next? {client : Client} (hp : r.Planned left) (hn : r.next? block = none) :
    Visit.Stops ⟨r, client, .ok block⟩ :=
  .inr ⟨block, rfl, hp.size_le_of_none hn⟩

theorem Walks.sweep (h : Walks serve s c r left visits e) (hp : r.Planned left) :
    Sweep r.index.toNat ((r.stop.toNat - 1) / 262144) visits := by
  induction h with
  | @failed s c d r left e h hresult => exact sweep_singleton ⟨r, c, .error e⟩ (.inl (.inl ⟨e, rfl⟩))
  | short h hn => exact sweep_singleton _ (.inl (stops_of_next? hp hn))
  | last h hn => exact sweep_singleton _ (.inr ⟨contributes_of_next? hn, hp.last⟩)
  | next h hn _ ih =>
      have hrest := ih (hp.next hn)
      obtain ⟨-, -, hstop, hindex, -⟩ := hp.slice_of_some hn
      rw [hstop, hindex] at hrest
      exact Sweep.cons (contributes_of_next? hn) hrest

structure Visit.Follows (v : Visit) (o : ObjectName) (size offset : UInt64) (stop : Nat) : Prop where
  object : v.reading.object = o
  size : v.reading.size = size
  offset : v.reading.offset = offset
  stop : v.reading.stop.toNat = stop
  exact : v.reading.Exact

theorem Walks.follows (h : Walks serve s c r left visits e) (hp : r.Planned left) :
    ∀ v ∈ visits, v.Follows r.object r.size r.offset r.stop.toNat := by
  have hfirst : ∀ {r : Reading} {left : Nat} {c : Client} {obtained : Except StoreError ByteArray},
      r.Planned left → Visit.Follows ⟨r, c, obtained⟩ r.object r.size r.offset r.stop.toNat :=
    fun hp => ⟨rfl, rfl, rfl, rfl, hp.exact⟩
  induction h with
  | failed h hresult => exact List.forall_mem_singleton.2 (hfirst hp)
  | short h hn => exact List.forall_mem_singleton.2 (hfirst hp)
  | last h hn => exact List.forall_mem_singleton.2 (hfirst hp)
  | next h hn _ ih =>
      have hrest := ih (hp.next hn)
      obtain ⟨-, rfl⟩ := Reading.eq_of_next? hn
      exact List.forall_mem_cons.2 ⟨hfirst hp, hrest⟩

def Server.recording (serve : Server σ) : Server (σ × List StoreCall) := fun call s c =>
  let service := serve call s.1 c
  ⟨service.result, (service.server, s.2 ++ [call]), service.client, service.events⟩

theorem fst_lookUp (c : Client) (r : Reading) :
    (c.lookUp r).1 = (c.blocks.find? r.key).map (·.data) := by
  rw [lookUp, BlockCache.get]
  cases c.blocks.find? r.key with
  | none => rfl
  | some b => rfl

theorem call?_of_found {obtained : Except StoreError ByteArray} (h : c.lookUp r = (some block, d)) :
    Visit.call? ⟨r, c, obtained⟩ = none := by
  have hfound := fst_lookUp c r
  rw [h] at hfound
  cases hb : c.blocks.find? r.key with
  | none =>
      rw [hb] at hfound
      cases hfound
  | some b => simp only [Visit.call?, hb]

theorem call?_of_missing {obtained : Except StoreError ByteArray} (h : c.lookUp r = (none, d)) :
    Visit.call? ⟨r, c, obtained⟩ = some (.get r.object r.blockStart r.blockLength) := by
  have hmissing := fst_lookUp c r
  rw [h] at hmissing
  cases hb : c.blocks.find? r.key with
  | none => simp only [Visit.call?, hb]
  | some b =>
      rw [hb] at hmissing
      cases hmissing

variable {x y : σ × List StoreCall} {f : Ending (σ × List StoreCall)}

theorem Obtains.calls (h : Obtains serve.recording x c r block y d) :
    y.2 = x.2 ++ (Visit.call? ⟨r, c, .ok block⟩).toList := by
  cases h with
  | resident h => rw [call?_of_found h, Option.toList_none, List.append_nil]
  | fetched h hresult =>
      rw [call?_of_missing h]
      rfl

theorem filterMap_call?_cons (v : Visit) (visits : List Visit) :
    (v :: visits).filterMap Visit.call? = v.call?.toList ++ visits.filterMap Visit.call? := by
  rw [List.filterMap_cons]
  cases v.call? with
  | none => rfl
  | some call => rfl

theorem Walks.calls (h : Walks serve.recording x c r left visits f) :
    f.server.2 = x.2 ++ visits.filterMap Visit.call? := by
  induction h with
  | failed h hresult =>
      rw [filterMap_call?_cons, call?_of_missing h]
      rfl
  | short h hn => rw [filterMap_call?_cons, h.calls, List.filterMap_nil, List.append_nil]
  | last h hn => rw [filterMap_call?_cons, h.calls, List.filterMap_nil, List.append_nil]
  | next h hn _ ih => rw [filterMap_call?_cons, ih, h.calls, List.append_assoc]

inductive Tiles : Nat → Nat → List (Nat × Nat) → Prop
  | nil (p : Nat) : Tiles p p []
  | cons {p q stop : Nat} {spans : List (Nat × Nat)} (h : p < q) (hrest : Tiles q stop spans) :
      Tiles p stop ((p, q) :: spans)

def Visit.slice (v : Visit) : ByteArray :=
  match v.obtained with
  | .ok block => block.extract v.reading.sliceStart (v.reading.sliceStop block)
  | .error _ => .empty

def slices : List Visit → ByteArray
  | [] => .empty
  | v :: rest => v.slice ++ slices rest

theorem size_slice (v : Visit) : v.slice.size = v.span.2 - v.span.1 := by
  rw [Visit.slice, Visit.span]
  cases v.obtained with
  | error e => simp
  | ok block =>
      have hle : v.reading.sliceStop block ≤ block.size := Nat.min_le_right _ _
      rw [ByteArray.size_extract, Nat.min_eq_left hle, Nat.add_sub_add_left]

theorem Tiles.add_size_slices {p stop : Nat} (h : Tiles p stop (visits.map Visit.span)) :
    p + (slices visits).size = stop := by
  induction visits generalizing p with
  | nil =>
      cases h
      rfl
  | cons v rest ih =>
      rw [List.map_cons] at h
      generalize hspan : v.span = span at h
      cases h with
      | cons hlt hrest =>
          have hsize := size_slice v
          rw [hspan] at hsize
          rw [slices, ByteArray.size_append, hsize, ← ih hrest]
          omega

theorem slice_of_none {client : Client} (hn : r.next? block = none) :
    Visit.slice ⟨r, client, .ok block⟩ = .empty := by
  unfold Reading.next? at hn
  split at hn
  · cases hn
  · rename_i hle
    rw [Visit.slice, ByteArray.extract_eq_empty_iff]
    exact Nat.le_trans (Nat.min_le_left _ _) (Nat.le_of_not_lt hle)

theorem Walks.answer_eq {data : ByteArray} (h : Walks serve s c r left visits e)
    (ha : e.answer = .bytes data) : data = r.out ++ slices visits := by
  induction h with
  | failed h hresult => cases ha
  | short h hn =>
      cases ha
      rw [slices, slices, slice_of_none hn, ByteArray.append_empty, ByteArray.append_empty]
  | last h hn =>
      cases ha
      obtain ⟨-, rfl⟩ := Reading.eq_of_next? hn
      rw [slices, slices, ByteArray.append_empty]
      rfl
  | next h hn _ ih =>
      rw [ih ha, slices, ← ByteArray.append_assoc]
      obtain ⟨-, rfl⟩ := Reading.eq_of_next? hn
      rfl

theorem span_of_whole {client : Client} (hp : r.Planned left)
    (hsize : block.size = r.blockLength.toNat) :
    Visit.span ⟨r, client, .ok block⟩ =
      (max r.offset.toNat (r.index.toNat * 262144),
        min r.stop.toNat ((r.index.toNat + 1) * 262144)) := by
  have hle := hp.stop_le
  have hlt := hp.start_lt
  rw [hp.toNat_blockLength] at hsize
  simp only [Visit.span, hp.toNat_blockStart, hp.sliceStart_eq, hp.sliceStop_eq, hsize]
  rw [Prod.mk.injEq]
  constructor
  · omega
  · omega

theorem next?_of_whole (hp : r.Planned left) (hsize : block.size = r.blockLength.toNat) :
    r.next? block ≠ none := by
  have hoffset := hp.offset_lt
  have hreached := hp.reached
  have hlt := hp.start_lt
  have hle := hp.stop_le
  intro hn
  have hshort := hp.size_le_of_none hn
  rw [hsize, hp.toNat_blockLength, hp.sliceStart_eq] at hshort
  omega

theorem Walks.tiles (h : Walks serve s c r left visits e) (hp : r.Planned left)
    (hwhole : ∀ v ∈ visits, v.IsWhole) :
    visits.length = left + 1 ∧ (∃ data, e.answer = .bytes data) ∧
      Tiles (max r.offset.toNat (r.index.toNat * 262144)) r.stop.toNat (visits.map Visit.span) := by
  have hlt : ∀ {r : Reading} {left : Nat}, r.Planned left →
      max r.offset.toNat (r.index.toNat * 262144) <
        min r.stop.toNat ((r.index.toNat + 1) * 262144) := by
    intro r left hp
    have hoffset := hp.offset_lt
    have hreached := hp.reached
    have hstart := hp.start_lt
    omega
  induction h with
  | failed h hresult =>
      obtain ⟨block, hblock, -⟩ := List.forall_mem_singleton.1 hwhole
      cases hblock
  | short h hn =>
      obtain ⟨block, hblock, hsize⟩ := List.forall_mem_singleton.1 hwhole
      cases hblock
      exact absurd hn (next?_of_whole hp hsize)
  | last h hn =>
      obtain ⟨block, hblock, hsize⟩ := List.forall_mem_singleton.1 hwhole
      cases hblock
      have hlast := hp.last
      have hstop := hlt hp
      refine ⟨rfl, ⟨_, rfl⟩, ?_⟩
      rw [List.map_singleton, span_of_whole hp hsize]
      rw [Nat.min_eq_left (by omega)] at hstop ⊢
      exact .cons hstop (.nil _)
  | next h hn _ ih =>
      rw [List.forall_mem_cons] at hwhole
      obtain ⟨block, hblock, hsize⟩ := hwhole.1
      cases hblock
      have hq := hp.next hn
      obtain ⟨hlength, hdata, htiles⟩ := ih hq hwhole.2
      have hmore := hq.start_lt
      have hstop := hlt hp
      obtain ⟨-, hoffset, hsame, hindex, -⟩ := hp.slice_of_some hn
      rw [hsame, hindex] at hmore
      rw [hoffset, hsame, hindex, hp.reaches.max_next] at htiles
      refine ⟨by rw [List.length_cons, hlength], hdata, ?_⟩
      rw [List.map_cons, span_of_whole hp hsize]
      rw [Nat.min_eq_right (Nat.le_of_lt hmore)] at hstop ⊢
      exact .cons hstop htiles

theorem Sizes.calls {x y : σ × List StoreCall} (h : Sizes serve.recording now x c o size y d) :
    y.2 = x.2 ∨ y.2 = x.2 ++ [.head o] := by
  cases h with
  | cached h => exact .inl rfl
  | asked h hserve hresult hput =>
      subst hserve
      exact .inr rfl

/-- A read calls the store for its size, if at all, and then for the blocks that it finds missing: all
blocks of its range in their order, or those up to one that it does not get or that has nothing of the
range. A range longer than memory can be asked for is not read. -/
theorem read_fetches_by_plan (h : Sizes serve.recording now (s, []) c o size x d) :
    let ending := (run serve.recording now (.read o offset length) (s, []) c).ending
    let stop := min (offset.toNat + length.toNat) size.toNat
    (x.2 = [] ∨ x.2 = [.head o]) ∧
    (length = 0 ∨ size ≤ offset → ending = ⟨.bytes .empty, x, d⟩) ∧
    (length ≠ 0 → offset < size → longestRange.toNat < stop - offset.toNat →
      ending = ⟨.overflow, x, d⟩) ∧
    (length ≠ 0 → offset < size → stop - offset.toNat ≤ longestRange.toNat →
      ∃ r left visits, Reading.start? o size offset length = some (r, left) ∧
        Walks serve.recording x d r left visits ending ∧
        ending.server.2 = x.2 ++ visits.filterMap Visit.call? ∧
        Sweep (offset.toNat / 262144) ((stop - 1) / 262144) visits ∧
        (∀ v ∈ visits, v.Follows o size offset stop) ∧
        ((∀ v ∈ visits, v.IsWhole) →
          visits.length = (stop - 1) / 262144 + 1 - offset.toNat / 262144 ∧
          Tiles offset.toNat stop (visits.map Visit.span) ∧
          ending.answer = .bytes (slices visits) ∧
          (slices visits).size = stop - offset.toNat)) := by
  intro ending stop
  have hending : ending = (d.withSize o size (.read offset length)).ending serve.recording now x :=
    (ending_run serve.recording now (.read o offset length) (s, []) c).trans (ending_startHead h _)
  refine ⟨h.calls, fun hnone => ?_, fun hlength hoffset hlong => ?_,
    fun hlength hoffset hfits => ?_⟩
  · rw [hending, withSize, Reading.start?, if_pos hnone]
    rfl
  · obtain ⟨r, left, hs⟩ := Reading.exists_of_start? o hlength hoffset
    obtain ⟨hp, -, -, rfl, -, hstop, -⟩ := Reading.planned_of_start? hs
    have hnot : ¬r.fits = true := by
      rw [hp.fits_iff, hstop]
      exact Nat.not_le.2 hlong
    rw [hending, withSize, hs]
    dsimp only
    rw [if_neg hnot]
    rfl
  · obtain ⟨r, left, hs⟩ := Reading.exists_of_start? o hlength hoffset
    obtain ⟨hp, rfl, rfl, rfl, hout, hstop, hindex⟩ := Reading.planned_of_start? hs
    have hread : ending = (d.readOn r left).ending serve.recording now x := by
      rw [hending, withSize, hs]
      dsimp only
      rw [if_pos (hp.fits_iff.2 (hstop ▸ hfits))]
    obtain ⟨visits, hwalks⟩ := walks_readOn serve.recording now x d r left
    rw [← hread] at hwalks
    have hsweep := hwalks.sweep hp
    have hfollows := hwalks.follows hp
    rw [hstop, hindex] at hsweep
    rw [hstop] at hfollows
    refine ⟨r, left, visits, hs, hwalks, hwalks.calls, hsweep, hfollows, fun hwhole => ?_⟩
    obtain ⟨hcount, ⟨data, hdata⟩, htiles⟩ := hwalks.tiles hp hwhole
    have hlast := hp.last
    have hoffset := hp.offset_lt
    have hanswer := hwalks.answer_eq hdata
    rw [hstop, hindex, Nat.max_eq_left (Nat.div_mul_le_self _ _)] at htiles
    have hsize := htiles.add_size_slices
    rw [hout, ByteArray.empty_append] at hanswer
    rw [hstop, hindex] at hlast
    rw [hstop] at hoffset
    refine ⟨?_, htiles, hanswer ▸ hdata, ?_⟩
    · omega
    · omega

namespace Known

def object : ObjectName := ⟨"b", "k"⟩

def store : ScriptedStore :=
  { ScriptedStore.empty with store := MemoryStore.empty.put object ⟨#[1, 2, 3]⟩ }

def client (size : UInt64) : Client :=
  ⟨.withBudget 262144, (MetadataCache.withTtls 5000 5000).storeHead object size 5000,
    .new ⟨"", "", none⟩ "r", .empty⟩

def asked (size : UInt64) : Client :=
  { client size with metadata := (client size).metadata.record true }

theorem sizes (size : UInt64) :
    Sizes ScriptedStore.serve.recording 0 (store, []) (client size) object size (store, [])
      (asked size) :=
  .cached rfl

def ending (size length : UInt64) : Ending (ScriptedStore × List StoreCall) :=
  (run ScriptedStore.serve.recording 0 (.read object 0 length) (store, []) (client size)).ending

end Known

open Known

theorem known_object_is_fetched :
    ∃ r left visits, Reading.start? object 3 0 9 = some (r, left) ∧
      Walks ScriptedStore.serve.recording (store, []) (asked 3) r left visits (ending 3 9) ∧
      (ending 3 9).server.2 = visits.filterMap Visit.call? ∧ Sweep 0 0 visits := by
  have hlength : (9 : UInt64) ≠ 0 := by decide
  have hoffset : (0 : UInt64) < 3 := by decide
  obtain ⟨r, left, visits, hs, hwalks, hcalls, hsweep, -⟩ :=
    (read_fetches_by_plan (sizes 3)).2.2.2 hlength hoffset (by decide)
  exact ⟨r, left, visits, hs, hwalks, hcalls, hsweep⟩

theorem longest_read_overflows :
    ending 18446744073709551615 18446744073709551615 =
      ⟨.overflow, (store, []), asked 18446744073709551615⟩ :=
  rfl

end Client

end ObjectCache
