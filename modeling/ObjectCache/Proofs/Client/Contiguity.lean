import ObjectCache.Client.Script
import ObjectCache.Proofs.Client.Gathering
import ObjectCache.Proofs.Client.ReadPlan

namespace ObjectCache

open Time

variable {offset stop index p e : Nat} {block data : ByteArray} {blocks rest : List ByteArray}

def sliceOf (offset stop index : Nat) (block : ByteArray) : ByteArray :=
  block.extract (offset - index * 262144) (stop - index * 262144)

def joinedSlices (offset stop : Nat) : Nat → List ByteArray → ByteArray
  | _, [] => .empty
  | index, block :: rest =>
      sliceOf offset stop index block ++ joinedSlices offset stop (index + 1) rest

/-- The blocks that a read takes from `index` on: up to the last one of the range, or to one that has
nothing of it. -/
inductive Taken (offset stop : Nat) : Nat → List ByteArray → Prop
  | short {index : Nat} {block : ByteArray} (h : sliceOf offset stop index block = .empty) :
      Taken offset stop index [block]
  | last {index : Nat} {block : ByteArray} (hlast : stop ≤ (index + 1) * 262144) :
      Taken offset stop index [block]
  | next {index : Nat} {block : ByteArray} {rest : List ByteArray}
      (h : sliceOf offset stop index block ≠ .empty) (hmore : (index + 1) * 262144 < stop)
      (hrest : Taken offset stop (index + 1) rest) : Taken offset stop index (block :: rest)

def byteAt? (index : Nat) (blocks : List ByteArray) (p : Nat) : Option UInt8 :=
  blocks[p / 262144 - index]?.bind fun block => block.data[p % 262144]?

def Stands (start index : Nat) (blocks : List ByteArray) (data : ByteArray) : Prop :=
  ∀ j < data.size, byteAt? index blocks (start + j) = data.data[j]?

/-- Blocks of the full size, but for the last and for one before an empty last. -/
def Unbroken : List ByteArray → Prop
  | [] => True
  | [_] => True
  | block :: next :: rest =>
      (block.size = 262144 ∧ Unbroken (next :: rest)) ∨
        (block.size ≤ 262144 ∧ next :: rest = [.empty])

theorem size_sliceOf (offset stop index : Nat) (block : ByteArray) :
    (sliceOf offset stop index block).size =
      min (stop - index * 262144) block.size - (offset - index * 262144) := by
  rw [sliceOf, ByteArray.size_extract]

theorem sliceOf_empty (offset stop index : Nat) : sliceOf offset stop index .empty = .empty := by
  rw [← ByteArray.size_eq_zero_iff, size_sliceOf, ByteArray.size_empty, Nat.min_zero, Nat.zero_sub]

theorem joinedSlices_singleton (offset stop index : Nat) (block : ByteArray) :
    joinedSlices offset stop index [block] = sliceOf offset stop index block := by
  rw [joinedSlices, joinedSlices, ByteArray.append_empty]

theorem joinedSlices_pair_empty (offset stop index : Nat) (block : ByteArray) :
    joinedSlices offset stop index [block, .empty] = sliceOf offset stop index block := by
  rw [joinedSlices, joinedSlices_singleton, sliceOf_empty, ByteArray.append_empty]

theorem size_pos_of_ne_empty (h : sliceOf offset stop index block ≠ .empty) :
    0 < (sliceOf offset stop index block).size := by
  rw [Nat.pos_iff_ne_zero]
  intro hzero
  exact h (ByteArray.size_eq_zero_iff.1 hzero)

theorem max_add_slice {start stop size offset : Nat}
    (h : 0 < min (stop - start) size - (offset - start)) :
    max offset start + (min (stop - start) size - (offset - start)) = min stop (start + size) := by
  omega

theorem slice_end (h : sliceOf offset stop index block ≠ .empty) :
    max offset (index * 262144) + (sliceOf offset stop index block).size =
      min stop (index * 262144 + block.size) := by
  have hpos := size_pos_of_ne_empty h
  rw [size_sliceOf] at hpos ⊢
  exact max_add_slice hpos

theorem getElem?_sliceOf {j : Nat} (h : j < (sliceOf offset stop index block).size) :
    (sliceOf offset stop index block).data[j]? = block.data[offset - index * 262144 + j]? := by
  rw [size_sliceOf] at h
  rw [sliceOf, ByteArray.data_extract, Array.getElem?_extract, ByteArray.size_data, if_pos]
  omega

theorem byteAt?_cons_of_lt (hstart : index * 262144 ≤ p) (hstop : p < (index + 1) * 262144) :
    byteAt? index (block :: rest) p = block.data[p - index * 262144]? := by
  have hdiv : p / 262144 - index = 0 := by omega
  have hmod : p % 262144 = p - index * 262144 := by omega
  rw [byteAt?, hdiv, hmod, List.getElem?_cons_zero, Option.bind_some]

theorem byteAt?_cons_of_le (h : (index + 1) * 262144 ≤ p) :
    byteAt? index (block :: rest) p = byteAt? (index + 1) rest p := by
  have hdiv : p / 262144 - index = (p / 262144 - (index + 1)) + 1 := by omega
  rw [byteAt?, hdiv, List.getElem?_cons_succ, byteAt?]

theorem isSome_byteAt?_cons (hstart : index * 262144 ≤ p) (hstop : p < (index + 1) * 262144) :
    (byteAt? index (block :: rest) p).isSome ↔ p - index * 262144 < block.size := by
  rw [byteAt?_cons_of_lt hstart hstop, isSome_getElem?, ByteArray.size_data]

theorem getElem?_append (a b : ByteArray) (j : Nat) :
    (a ++ b).data[j]? = if j < a.size then a.data[j]? else b.data[j - a.size]? := by
  rw [ByteArray.data_append, Array.getElem?_append, ByteArray.size_data]

structure Reaches (offset stop index : Nat) : Prop where
  offset_lt : offset < stop
  start_lt : index * 262144 < stop
  reached : offset < (index + 1) * 262144

theorem Reaches.next (h : Reaches offset stop index) (hmore : (index + 1) * 262144 < stop) :
    Reaches offset stop (index + 1) := by
  have hle : (index + 1) * 262144 ≤ (index + 1 + 1) * 262144 :=
    Nat.mul_le_mul_right _ (Nat.le_succ _)
  exact ⟨h.offset_lt, hmore, Nat.lt_of_lt_of_le h.reached hle⟩

theorem Reaches.max_next (h : Reaches offset stop index) :
    max offset ((index + 1) * 262144) = (index + 1) * 262144 := by
  have hreached := h.reached
  omega

theorem Taken.ne_nil (h : Taken offset stop index blocks) : blocks ≠ [] := by
  cases h <;> simp

theorem lt_max_add_slice {start stop size offset p : Nat} (hp : p < stop)
    (hstart : max offset start ≤ p) (hbyte : p - start < size) :
    p < max offset start + (min (stop - start) size - (offset - start)) := by
  omega

theorem lt_slice_end (hp : p < stop) (hblock : p < (index + 1) * 262144)
    (hstart : max offset (index * 262144) ≤ p)
    (hbyte : (byteAt? index (block :: rest) p).isSome) :
    p < max offset (index * 262144) + (sliceOf offset stop index block).size := by
  have hle := Nat.le_trans (Nat.le_max_right _ _) hstart
  rw [isSome_byteAt?_cons hle hblock] at hbyte
  rw [size_sliceOf]
  exact lt_max_add_slice hp hstart hbyte

theorem Taken.covered_le (h : Taken offset stop index blocks) (hr : Reaches offset stop index)
    (he : e ≤ stop)
    (hcovered : ∀ p, max offset (index * 262144) ≤ p → p < e →
      (byteAt? index blocks p).isSome) :
    e ≤ max offset (index * 262144) + (joinedSlices offset stop index blocks).size := by
  by_cases hstart : max offset (index * 262144) < e
  · induction h with
    | @short index block h =>
        have hreached := hr.reached
        have hbyte := hcovered _ (Nat.le_refl _) hstart
        have hend := lt_slice_end (Nat.lt_of_lt_of_le hstart he) (by omega) (Nat.le_refl _) hbyte
        rw [h] at hend
        exact absurd hend (Nat.lt_irrefl _)
    | @last index block hlast =>
        have hbyte := hcovered (e - 1) (by omega) (by omega)
        have hend : e - 1 < max offset (index * 262144) + (sliceOf offset stop index block).size :=
          lt_slice_end (by omega) (by omega) (by omega) hbyte
        rw [joinedSlices_singleton]
        exact Nat.le_of_pred_lt hend
    | @next index block rest h hmore hrest ih =>
        have hreached := hr.reached
        have hbyte := hcovered (min e ((index + 1) * 262144) - 1) (by omega) (by omega)
        have hend : min e ((index + 1) * 262144) - 1 <
            max offset (index * 262144) + (sliceOf offset stop index block).size :=
          lt_slice_end (by omega) (by omega) (by omega) hbyte
        replace hend := Nat.le_of_pred_lt hend
        rw [joinedSlices, ByteArray.size_append, ← Nat.add_assoc]
        by_cases hlater : e ≤ (index + 1) * 262144
        · rw [Nat.min_eq_left hlater] at hend
          exact Nat.le_add_right_of_le hend
        · have hrest : ∀ p, (index + 1) * 262144 ≤ p → p < e →
              (byteAt? (index + 1) rest p).isSome := by
            intro p hp he
            have h := hcovered p (by omega) he
            rwa [byteAt?_cons_of_le hp] at h
          have hbehind : (index + 1) * 262144 < e := Nat.lt_of_not_le hlater
          rw [hr.max_next] at ih
          rw [Nat.min_eq_right (Nat.le_of_lt hbehind)] at hend
          exact Nat.le_trans (ih (hr.next hmore) hrest hbehind) (Nat.add_le_add_right hend _)
  · exact Nat.le_add_right_of_le (Nat.le_of_not_lt hstart)

theorem byteAt?_slice {j : Nat}
    (hfits : max offset (index * 262144) + j < (index + 1) * 262144)
    (hj : j < (sliceOf offset stop index block).size) :
    byteAt? index (block :: rest) (max offset (index * 262144) + j) =
      (sliceOf offset stop index block).data[j]? := by
  have hstart : index * 262144 ≤ max offset (index * 262144) + j := by omega
  have hplace : max offset (index * 262144) + j - index * 262144 =
      offset - index * 262144 + j := by omega
  rw [byteAt?_cons_of_lt hstart hfits, getElem?_sliceOf hj, hplace]

theorem stands_slice
    (hfits : max offset (index * 262144) + (sliceOf offset stop index block).size ≤
      (index + 1) * 262144) :
    Stands (max offset (index * 262144)) index (block :: rest)
      (sliceOf offset stop index block) := by
  intro j hj
  exact byteAt?_slice (by omega) hj

theorem stands_append_iff
    (hfull : max offset (index * 262144) + (sliceOf offset stop index block).size =
      (index + 1) * 262144) :
    Stands (max offset (index * 262144)) index (block :: rest)
        (sliceOf offset stop index block ++ data) ↔
      Stands ((index + 1) * 262144) (index + 1) rest data := by
  generalize hslice : (sliceOf offset stop index block).size = width at hfull
  constructor
  · intro h j hj
    have hjoin := h (width + j) (by rw [ByteArray.size_append]; omega)
    rw [getElem?_append, hslice, if_neg (by omega), Nat.add_sub_cancel_left, ← Nat.add_assoc,
      hfull, byteAt?_cons_of_le (Nat.le_add_right _ _)] at hjoin
    exact hjoin
  · intro h j hj
    rw [ByteArray.size_append, hslice] at hj
    rw [getElem?_append, hslice]
    split
    · rename_i hlt
      exact byteAt?_slice (by omega) (hslice ▸ hlt)
    · rename_i hge
      have htail := h (j - width) (by omega)
      have hplace : (index + 1) * 262144 + (j - width) =
          max offset (index * 262144) + j := by omega
      rw [hplace] at htail
      rw [byteAt?_cons_of_le (by omega), htail]

theorem Stands.isSome_byteAt? {start : Nat} (h : Stands start index blocks data)
    (hstart : start ≤ p) (hp : p < start + data.size) : (byteAt? index blocks p).isSome := by
  have hj := h (p - start) (by omega)
  rw [Nat.add_sub_cancel' hstart] at hj
  rw [hj, isSome_getElem?, ByteArray.size_data]
  omega

theorem eq_empty_of_size_slice (hr : Reaches offset stop index) (hoffset : offset ≤ index * 262144)
    (h : (sliceOf offset stop index block).size = 0) : block = .empty := by
  have hstart := hr.start_lt
  rw [size_sliceOf] at h
  rw [← ByteArray.size_eq_zero_iff]
  omega

theorem Taken.eq_of_size_zero (h : Taken offset stop index blocks) (hr : Reaches offset stop index)
    (hoffset : offset ≤ index * 262144) (hsize : (joinedSlices offset stop index blocks).size = 0) :
    blocks = [.empty] := by
  cases h with
  | short h =>
      rw [eq_empty_of_size_slice hr hoffset (ByteArray.size_eq_zero_iff.2 h)]
  | last hlast =>
      rw [joinedSlices_singleton] at hsize
      rw [eq_empty_of_size_slice hr hoffset hsize]
  | next h hmore hrest =>
      have hpos := size_pos_of_ne_empty h
      rw [joinedSlices, ByteArray.size_append] at hsize
      omega

def InPlace (offset stop index : Nat) (blocks : List ByteArray) : Prop :=
  (joinedSlices offset stop index blocks).size ≤ stop - max offset (index * 262144) ∧
    Stands (max offset (index * 262144)) index blocks (joinedSlices offset stop index blocks)

theorem inPlace_of_slice (hr : Reaches offset stop index)
    (hjoined : joinedSlices offset stop index (block :: rest) = sliceOf offset stop index block)
    (hfits : max offset (index * 262144) + (sliceOf offset stop index block).size ≤
      (index + 1) * 262144) : InPlace offset stop index (block :: rest) := by
  have ⟨hoffset, hstart, hreached⟩ := hr
  rw [InPlace, hjoined]
  refine ⟨?_, stands_slice hfits⟩
  rw [size_sliceOf]
  omega

theorem inPlace_cons_of_full (hr : Reaches offset stop index)
    (hmore : (index + 1) * 262144 < stop) (hblock : block.size = 262144) :
    InPlace offset stop index (block :: rest) ↔ InPlace offset stop (index + 1) rest := by
  have ⟨hoffset, hstart, hreached⟩ := hr
  have hfull : max offset (index * 262144) + (sliceOf offset stop index block).size =
      (index + 1) * 262144 := by
    rw [size_sliceOf]
    omega
  rw [InPlace, InPlace, hr.max_next, joinedSlices, stands_append_iff hfull, ByteArray.size_append]
  refine and_congr ?_ Iff.rfl
  omega

theorem InPlace.size_zero_of_short (h : InPlace offset stop index (block :: rest))
    (hmore : (index + 1) * 262144 < stop)
    (hslice : sliceOf offset stop index block ≠ .empty) (hblock : block.size < 262144) :
    (joinedSlices offset stop (index + 1) rest).size = 0 := by
  have hwithin : index * 262144 + block.size < (index + 1) * 262144 := by omega
  have hend : max offset (index * 262144) + (sliceOf offset stop index block).size =
      index * 262144 + block.size := by
    rw [slice_end hslice]
    omega
  have hstands := h.2
  rw [joinedSlices] at hstands
  generalize joinedSlices offset stop (index + 1) rest = tail at hstands
  rw [← Nat.le_zero, ← Nat.not_lt]
  intro htail
  -- a byte of the tail would stand where the block has none
  have hbehind : index * 262144 + block.size < max offset (index * 262144) +
      (sliceOf offset stop index block ++ tail).size := by
    rw [ByteArray.size_append, ← Nat.add_assoc, hend]
    exact Nat.lt_add_of_pos_right htail
  have hp := hstands.isSome_byteAt? (Nat.le.intro hend) hbehind
  rw [isSome_byteAt?_cons (Nat.le_add_right _ _) hwithin, Nat.add_sub_cancel_left] at hp
  exact Nat.lt_irrefl _ hp

theorem InPlace.size_le_of_taken (h : InPlace offset stop index (block :: rest))
    (hr : Reaches offset stop index) (hmore : (index + 1) * 262144 < stop)
    (hslice : sliceOf offset stop index block ≠ .empty)
    (hrest : Taken offset stop (index + 1) rest) : block.size ≤ 262144 := by
  have hreached := hr.reached
  obtain ⟨hle, hstands⟩ := h
  rw [joinedSlices] at hle hstands
  rw [← Nat.not_lt]
  intro hlong
  have hstop : max offset (index * 262144) + (sliceOf offset stop index block ++
      joinedSlices offset stop (index + 1) rest).size ≤ stop := by
    have hstart : max offset (index * 262144) ≤ stop :=
      Nat.max_le.2 ⟨Nat.le_of_lt hr.offset_lt, Nat.le_of_lt hr.start_lt⟩
    exact Nat.add_le_of_le_sub' hstart hle
  have hcovered : ∀ p, max offset ((index + 1) * 262144) ≤ p →
      p < max offset (index * 262144) + (sliceOf offset stop index block ++
        joinedSlices offset stop (index + 1) rest).size →
      (byteAt? (index + 1) rest p).isSome := by
    intro p hp hlt
    rw [hr.max_next] at hp
    have h := hstands.isSome_byteAt? (p := p) (by omega) hlt
    rwa [byteAt?_cons_of_le hp] at h
  have hcount := hrest.covered_le (hr.next hmore) hstop hcovered
  rw [hr.max_next, ByteArray.size_append, ← Nat.add_assoc, Nat.add_le_add_iff_right,
    slice_end hslice] at hcount
  have hover : (index + 1) * 262144 < index * 262144 + block.size := by omega
  exact Nat.not_lt.2 hcount (Nat.lt_min.2 ⟨hmore, hover⟩)

theorem inPlace_iff_unbroken (h : Taken offset stop index blocks)
    (hr : Reaches offset stop index) : InPlace offset stop index blocks ↔ Unbroken blocks := by
  induction h with
  | @short index block h =>
      have hfits : max offset (index * 262144) + (sliceOf offset stop index block).size ≤
          (index + 1) * 262144 := by
        have hreached := hr.reached
        rw [h, ByteArray.size_empty]
        omega
      exact iff_of_true (inPlace_of_slice hr (joinedSlices_singleton ..) hfits) trivial
  | @last index block hlast =>
      have hfits : max offset (index * 262144) + (sliceOf offset stop index block).size ≤
          (index + 1) * 262144 := by
        have ⟨hoffset, hstart, hreached⟩ := hr
        rw [size_sliceOf]
        omega
      exact iff_of_true (inPlace_of_slice hr (joinedSlices_singleton ..) hfits) trivial
  | @next index block rest h hmore hrest ih =>
      obtain ⟨following, rest, rfl⟩ := List.exists_cons_of_ne_nil hrest.ne_nil
      have hnext := ih (hr.next hmore)
      constructor
      · intro hin
        have hle := hin.size_le_of_taken hr hmore h hrest
        rcases Nat.lt_or_eq_of_le hle with hshort | hfull
        · have hzero := hin.size_zero_of_short hmore h hshort
          have hoffset := Nat.le_of_lt hr.reached
          exact .inr ⟨hle, hrest.eq_of_size_zero (hr.next hmore) hoffset hzero⟩
        · exact .inl ⟨hfull, hnext.1 ((inPlace_cons_of_full hr hmore hfull).1 hin)⟩
      · rintro (⟨hfull, hunbroken⟩ | ⟨hle, hempty⟩)
        · exact (inPlace_cons_of_full hr hmore hfull).2 (hnext.2 hunbroken)
        · have hfits : max offset (index * 262144) + (sliceOf offset stop index block).size ≤
              (index + 1) * 262144 := by
            have hreached := hr.reached
            rw [size_sliceOf]
            omega
          rw [hempty]
          exact inPlace_of_slice hr (joinedSlices_pair_empty ..) hfits

namespace Reading

variable {r q : Reading} {left : Nat}

theorem Planned.reaches (h : r.Planned left) :
    Reaches r.offset.toNat r.stop.toNat r.index.toNat :=
  ⟨h.offset_lt, h.start_lt, h.reached⟩

theorem Planned.extract_eq (h : r.Planned left) (block : ByteArray) :
    block.extract r.sliceStart (r.sliceStop block) =
      sliceOf r.offset.toNat r.stop.toNat r.index.toNat block := by
  rw [h.sliceStart_eq, h.sliceStop_eq, extract_min_size, sliceOf]

theorem Planned.slice_of_none (h : r.Planned left) (hn : r.next? block = none) :
    sliceOf r.offset.toNat r.stop.toNat r.index.toNat block = .empty := by
  unfold next? at hn
  split at hn
  · cases hn
  · rename_i hle
    rw [← h.extract_eq, ByteArray.extract_eq_empty_iff]
    exact Nat.le_trans (Nat.min_le_left _ _) (Nat.le_of_not_lt hle)

theorem Planned.slice_of_some (h : r.Planned left) (hn : r.next? block = some q) :
    sliceOf r.offset.toNat r.stop.toNat r.index.toNat block ≠ .empty ∧
      q.offset = r.offset ∧ q.stop = r.stop ∧ q.index.toNat = r.index.toNat + 1 ∧
      q.out = r.out ++ sliceOf r.offset.toNat r.stop.toNat r.index.toNat block := by
  obtain ⟨hlt, rfl⟩ := eq_of_next? hn
  refine ⟨?_, rfl, rfl, h.toNat_index_succ, by rw [h.extract_eq]⟩
  rw [← h.extract_eq, Ne, ByteArray.extract_eq_empty_iff]
  have hle : r.sliceStop block ≤ block.size := Nat.min_le_right _ _
  omega

end Reading

namespace Client

variable {σ : Type} {serve : Server σ} {now : Millis} {s : σ} {c : Client} {r : Reading}
  {left : Nat} {o : ObjectName} {size offset length : UInt64} {data : ByteArray}
  {blocks : List ByteArray}

theorem Walks.taken {visits : List Visit} {e : Ending σ} (h : Walks serve s c r left visits e)
    (hp : r.Planned left) (ha : e.answer = .bytes data) :
    Taken r.offset.toNat r.stop.toNat r.index.toNat (blocksOf visits) ∧
      data = r.out ++
        joinedSlices r.offset.toNat r.stop.toNat r.index.toNat (blocksOf visits) := by
  induction h with
  | failed hl hresult => cases ha
  | short h hn =>
      cases ha
      have hslice := hp.slice_of_none hn
      rw [blocksOf_singleton]
      refine ⟨.short hslice, ?_⟩
      rw [joinedSlices_singleton, hslice, ByteArray.append_empty]
  | last h hn =>
      cases ha
      obtain ⟨-, -, -, -, hout⟩ := hp.slice_of_some hn
      have hlast := hp.last
      rw [blocksOf_singleton]
      refine ⟨.last (by omega), ?_⟩
      rw [joinedSlices_singleton, hout]
  | next h hn hrest ih =>
      obtain ⟨hslice, hoffset, hstop, hindex, hout⟩ := hp.slice_of_some hn
      have hq := hp.next hn
      obtain ⟨htaken, hdata⟩ := ih hq ha
      have hmore := hq.start_lt
      rw [hoffset, hstop, hindex] at htaken hdata
      rw [hstop, hindex] at hmore
      rw [blocksOf_cons]
      refine ⟨.next hslice hmore htaken, ?_⟩
      rw [joinedSlices, ← ByteArray.append_assoc, ← hout]
      exact hdata

/-- Every byte is the one that the blocks have at its position of the object, `blocks` beginning with
the block that `offset` is in. -/
def Contiguous (offset : Nat) (blocks : List ByteArray) (data : ByteArray) : Prop :=
  Stands offset (offset / 262144) blocks data

theorem joinedSlices_of_reads (h : Reads serve s c o size offset length blocks (.bytes data)) :
    data = joinedSlices offset.toNat (min (offset.toNat + length.toNat) size.toNat)
        (offset.toNat / 262144) blocks ∧
      (data.size ≤ min length.toNat (size.toNat - offset.toNat) ∧
          Contiguous offset.toNat blocks data ↔
        Unbroken blocks) := by
  unfold Reads at h
  split at h
  · rename_i hs
    obtain ⟨rfl, hdata⟩ := h
    cases hdata
    refine ⟨rfl, iff_of_true ⟨Nat.zero_le _, ?_⟩ trivial⟩
    intro j hj
    cases hj
  · rename_i r left hs
    obtain ⟨hp, -, -, rfl, hout, hstop, hindex⟩ := Reading.planned_of_start? hs
    obtain ⟨visits, e, hwalks, rfl, ha⟩ := h
    obtain ⟨htaken, hdata⟩ := hwalks.taken hp ha.symm
    have hiff := inPlace_iff_unbroken htaken hp.reaches
    rw [hout, ByteArray.empty_append] at hdata
    rw [InPlace, ← hdata, hstop, hindex, Nat.max_eq_left (Nat.div_mul_le_self _ _)] at hiff
    rw [hstop, hindex] at hdata
    refine ⟨hdata, ?_⟩
    rw [← hiff, Contiguous]
    refine and_congr ?_ Iff.rfl
    omega

/-- The bytes that a read answers are the slices of its blocks, one behind the other. They are within
the range and in their places just if every block with another one behind it has the full size, unless
the one behind it is empty and the last. -/
theorem read_in_place_iff_unbroken
    (h : (run serve now (.read o offset length) s c).answer = .bytes data) :
    ∃ size t d blocks, Sizes serve now s c o size t d ∧
      Reads serve t d o size offset length blocks (.bytes data) ∧
      data = joinedSlices offset.toNat (min (offset.toNat + length.toNat) size.toNat)
        (offset.toNat / 262144) blocks ∧
      (data.size ≤ min length.toNat (size.toNat - offset.toNat) ∧
          Contiguous offset.toNat blocks data ↔
        Unbroken blocks) := by
  obtain ⟨size, t, d, blocks, hsize, hreads⟩ := reads_of_run h
  exact ⟨size, t, d, blocks, hsize, hreads, joinedSlices_of_reads hreads⟩

namespace Gap

def object : ObjectName := ⟨"b", "k"⟩

def client : Client :=
  ⟨(((BlockCache.withBudget 262144).put ⟨object, 0⟩ ⟨#[1]⟩).1.put ⟨object, 1⟩ ⟨#[2]⟩).1,
    (MetadataCache.withTtls 5000 5000).storeHead object 262145 5000, .new ⟨"", "", none⟩ "r", .empty⟩

theorem answer_read :
    (run ScriptedStore.serve 0 (.read object 0 262145) .empty client).answer =
      .bytes ⟨#[1, 2]⟩ := by
  rfl

end Gap

open Gap

theorem read_of_short_blocks_is_joined :
    ∃ size t d blocks,
      Sizes ScriptedStore.serve 0 .empty client object size t d ∧
      Reads ScriptedStore.serve t d object size 0 262145 blocks (.bytes ⟨#[1, 2]⟩) ∧
      ⟨#[1, 2]⟩ = joinedSlices 0 (min 262145 size.toNat) 0 blocks ∧
      (2 ≤ min 262145 (size.toNat - 0) ∧ Contiguous 0 blocks ⟨#[1, 2]⟩ ↔ Unbroken blocks) :=
  read_in_place_iff_unbroken answer_read

theorem byte_follows_a_gap :
    ∃ size t d blocks data,
      (run ScriptedStore.serve 0 (.read object 0 262145) .empty client).answer = .bytes data ∧
      Sizes ScriptedStore.serve 0 .empty client object size t d ∧
      Reads ScriptedStore.serve t d object size 0 262145 blocks (.bytes data) ∧
      ¬Contiguous 0 blocks data := by
  refine ⟨262145, _, _, [⟨#[1]⟩, ⟨#[2]⟩], ⟨#[1, 2]⟩, answer_read, .cached rfl, ?_, ?_⟩
  · exact ⟨_, _, .next (q := ⟨object, 262145, 0, 262145, 1, ⟨#[1]⟩⟩) (.resident rfl) rfl
      (.last (q := ⟨object, 262145, 0, 262145, 2, ⟨#[1, 2]⟩⟩) (.resident rfl) rfl), rfl, rfl⟩
  · intro h
    have hj := h 1 (by decide)
    revert hj
    decide

end Client

end ObjectCache
