import ObjectCache.Client.Reading
import ObjectCache.Store.Memory

namespace ObjectCache

theorem toNat_addSaturating (a b : UInt64) :
    (addSaturating a b).toNat = min (a.toNat + b.toNat) 18446744073709551615 := by
  have ha := a.toNat_lt
  have hb := b.toNat_lt
  unfold addSaturating
  split
  · rename_i h
    rw [UInt64.lt_iff_toNat_lt, UInt64.toNat_add] at h
    simp only [UInt64.toNat_ofNat]
    omega
  · rename_i h
    rw [UInt64.not_lt, UInt64.le_iff_toNat_le, UInt64.toNat_add] at h
    rw [UInt64.toNat_add]
    omega

theorem toNat_min (a b : UInt64) : (min a b).toNat = min a.toNat b.toNat := by
  change (if a ≤ b then a else b).toNat = _
  split
  · rename_i h
    exact (Nat.min_eq_left h).symm
  · rename_i h
    rw [UInt64.not_le, UInt64.lt_iff_toNat_lt] at h
    exact (Nat.min_eq_right (Nat.le_of_lt h)).symm

theorem toNat_blockSize : blockSize.toNat = 262144 := rfl

theorem toNat_blockSize_mul {index size : UInt64} (h : index.toNat * 262144 < size.toNat) :
    (blockSize * index).toNat = index.toNat * 262144 := by
  have hsize := size.toNat_lt
  rw [UInt64.toNat_mul, toNat_blockSize, Nat.mul_comm, Nat.mod_eq_of_lt]
  omega

def blockOf (content : ByteArray) (index : UInt64) : ByteArray :=
  content.extract (index.toNat * 262144) ((index.toNat + 1) * 262144)

theorem size_blockOf (content : ByteArray) (index : UInt64) :
    (blockOf content index).size =
      min ((index.toNat + 1) * 262144) content.size - index.toNat * 262144 := by
  simp [blockOf]

theorem extract_min_size (data : ByteArray) (i j : Nat) :
    data.extract i (min j data.size) = data.extract i j := by
  ext1
  simp only [ByteArray.data_extract, ← ByteArray.size_data]
  rw [Array.extract_eq_extract_right]
  omega

theorem range_eq_extract (data : ByteArray) (offset length : UInt64) :
    MemoryStore.range data offset length =
      data.extract offset.toNat (offset.toNat + length.toNat) := by
  rw [MemoryStore.range, extract_min_size]
  by_cases h : offset.toNat ≤ data.size
  · rw [Nat.min_eq_left h]
  · have hleft :
        data.extract (min offset.toNat data.size) (offset.toNat + length.toNat) = .empty := by
      rw [ByteArray.extract_eq_empty_iff]
      omega
    have hright : data.extract offset.toNat (offset.toNat + length.toNat) = .empty := by
      rw [ByteArray.extract_eq_empty_iff]
      omega
    rw [hleft, hright]

def blockUpTo (content : ByteArray) (index size : UInt64) : ByteArray :=
  content.extract (index.toNat * 262144) (min ((index.toNat + 1) * 262144) size.toNat)

theorem blockUpTo_eq_blockOf_iff {content : ByteArray} {index size : UInt64}
    (h : index.toNat * 262144 < size.toNat) :
    blockUpTo content index size = blockOf content index ↔
      min ((index.toNat + 1) * 262144) content.size ≤ size.toNat := by
  have hb := size_blockOf content index
  constructor
  · intro heq
    have hsize := congrArg ByteArray.size heq
    rw [hb, blockUpTo, ByteArray.size_extract] at hsize
    omega
  · intro hle
    rw [blockOf, blockUpTo, ← extract_min_size content _ ((index.toNat + 1) * 262144),
      ← extract_min_size content _ (min _ _)]
    congr 1
    omega

namespace Reading

structure Planned (r : Reading) (left : Nat) : Prop where
  offset_lt : r.offset.toNat < r.stop.toNat
  stop_le : r.stop.toNat ≤ r.size.toNat
  last : r.index.toNat + left = (r.stop.toNat - 1) / 262144
  reached : r.offset.toNat < (r.index.toNat + 1) * 262144

theorem planned_of_start? {o : ObjectName} {size offset length : UInt64} {r : Reading} {left : Nat}
    (h : start? o size offset length = some (r, left)) :
    r.Planned left ∧ r.object = o ∧ r.size = size ∧ r.offset = offset ∧ r.out = .empty ∧
      r.stop.toNat = min (offset.toNat + length.toNat) size.toNat ∧
      r.index.toNat = offset.toNat / 262144 := by
  unfold start? at h
  split at h
  · simp at h
  · rename_i hc
    simp only [not_or, UInt64.not_le] at hc
    obtain ⟨hlength, hoffset⟩ := hc
    have hsize := size.toNat_lt
    have hlen : 0 < length.toNat := by
      rw [Nat.pos_iff_ne_zero]
      intro hz
      exact hlength (UInt64.toNat_inj.1 hz)
    rw [UInt64.lt_iff_toNat_lt] at hoffset
    simp only [Option.some.injEq, Prod.mk.injEq] at h
    obtain ⟨rfl, rfl⟩ := h
    have hstop : (min (addSaturating offset length) size).toNat =
        min (offset.toNat + length.toNat) size.toNat := by
      rw [toNat_min, toNat_addSaturating]
      omega
    have hone : (1 : UInt64) ≤ min (addSaturating offset length) size := by
      rw [UInt64.le_iff_toNat_le, hstop, UInt64.toNat_one]
      omega
    have hfirst : (offset / blockSize).toNat = offset.toNat / 262144 := by
      rw [UInt64.toNat_div, toNat_blockSize]
    have hlast : ((min (addSaturating offset length) size - 1) / blockSize).toNat =
        (min (offset.toNat + length.toNat) size.toNat - 1) / 262144 := by
      rw [UInt64.toNat_div, UInt64.toNat_sub_of_le _ _ hone, hstop, UInt64.toNat_one,
        toNat_blockSize]
    have hle : offset / blockSize ≤ (min (addSaturating offset length) size - 1) / blockSize := by
      rw [UInt64.le_iff_toNat_le, hfirst, hlast]
      omega
    refine ⟨⟨?_, ?_, ?_, ?_⟩, rfl, rfl, rfl, rfl, hstop, hfirst⟩
    · simp only [hstop]
      omega
    · simp only [hstop]
      omega
    · simp only [hstop, hfirst]
      rw [UInt64.toNat_sub_of_le _ _ hle, hfirst, hlast]
      omega
    · simp only [hfirst]
      omega

theorem Planned.fits_iff {r : Reading} {left : Nat} (h : r.Planned left) :
    r.fits = true ↔ r.stop.toNat - r.offset.toNat ≤ longestRange.toNat := by
  have hoffset : r.offset ≤ r.stop := UInt64.le_iff_toNat_le.2 (Nat.le_of_lt h.offset_lt)
  rw [Reading.fits, decide_eq_true_eq, UInt64.le_iff_toNat_le, UInt64.toNat_sub_of_le _ _ hoffset]

theorem start?_eq_none {o : ObjectName} {size offset length : UInt64}
    (h : start? o size offset length = none) : length.toNat = 0 ∨ size.toNat ≤ offset.toNat := by
  unfold start? at h
  split at h
  · rename_i hc
    rcases hc with hc | hc
    · exact .inl (by rw [hc]; rfl)
    · exact .inr hc
  · simp at h

theorem exists_of_start? (o : ObjectName) {size offset length : UInt64} (hlength : length ≠ 0)
    (hoffset : offset < size) : ∃ r left, start? o size offset length = some (r, left) := by
  unfold start?
  rw [if_neg (not_or.2 ⟨hlength, UInt64.not_le.2 hoffset⟩)]
  exact ⟨_, _, rfl⟩

theorem start?_block (o : ObjectName) {size index : UInt64}
    (h : index.toNat * 262144 < size.toNat) :
    ∃ r : Reading, start? o size (blockSize * index) blockSize = some (r, 0) ∧
      r.key = ⟨o, index⟩ ∧ r.out = .empty := by
  have hoffset := toNat_blockSize_mul h
  cases hs : start? o size (blockSize * index) blockSize with
  | none =>
      have hnone := start?_eq_none hs
      rw [hoffset, toNat_blockSize] at hnone
      omega
  | some p =>
      obtain ⟨r, left⟩ := p
      obtain ⟨hp, rfl, -, -, hout, hstop, hindex⟩ := planned_of_start? hs
      have hlast := hp.last
      rw [hoffset, Nat.mul_div_cancel _ (by decide)] at hindex
      rw [hoffset, toNat_blockSize] at hstop
      have hleft : left = 0 := by omega
      refine ⟨r, by rw [hleft], ?_, hout⟩
      rw [Reading.key, UInt64.toNat_inj.1 hindex]

variable {r s : Reading} {left : Nat} {block content : ByteArray}

theorem Planned.start_lt (h : r.Planned left) : r.index.toNat * 262144 < r.stop.toNat := by
  have hlt := h.offset_lt
  have hlast := h.last
  omega

theorem Planned.toNat_blockStart (h : r.Planned left) :
    r.blockStart.toNat = r.index.toNat * 262144 :=
  toNat_blockSize_mul h.start_lt

theorem Planned.toNat_blockLength (h : r.Planned left) :
    r.blockLength.toNat = min 262144 (r.size.toNat - r.index.toNat * 262144) := by
  have hlt := h.start_lt
  have hle := h.stop_le
  have hb := h.toNat_blockStart
  unfold blockLength
  rw [toNat_min, UInt64.toNat_sub_of_le, hb, toNat_blockSize]
  rw [UInt64.le_iff_toNat_le]
  omega

theorem Planned.sliceStop_eq (h : r.Planned left) (block : ByteArray) :
    r.sliceStop block = min (r.stop.toNat - r.index.toNat * 262144) block.size := by
  have hlt := h.start_lt
  have hb := h.toNat_blockStart
  unfold sliceStop
  rw [UInt64.toNat_sub_of_le, hb]
  rw [UInt64.le_iff_toNat_le]
  omega

theorem Planned.sliceStart_eq (h : r.Planned left) :
    r.sliceStart = r.offset.toNat - r.index.toNat * 262144 := by
  rw [sliceStart, h.toNat_blockStart]

theorem eq_of_next? (h : r.next? block = some s) :
    r.sliceStart < r.sliceStop block ∧
      s = { r with
        index := r.index + 1
        out := r.out ++ block.extract r.sliceStart (r.sliceStop block) } := by
  unfold next? at h
  split at h
  · exact ⟨by assumption, by simpa using h.symm⟩
  · simp at h

theorem Planned.toNat_index_succ (h : r.Planned left) :
    (r.index + 1).toNat = r.index.toNat + 1 := by
  have hlt := h.start_lt
  have hstop := r.stop.toNat_lt
  rw [UInt64.toNat_add, UInt64.toNat_one]
  omega

theorem Planned.next (h : r.Planned (left + 1)) (hn : r.next? block = some s) :
    s.Planned left := by
  obtain ⟨-, rfl⟩ := eq_of_next? hn
  have hi := h.toNat_index_succ
  have hlast := h.last
  have hr := h.reached
  refine ⟨h.offset_lt, h.stop_le, ?_, ?_⟩
  · simp only [hi]
    omega
  · simp only [hi, Nat.add_mul]
    omega

structure Sound (r : Reading) (content : ByteArray) (left : Nat) : Prop where
  planned : r.Planned left
  size : r.size.toNat = content.size
  out : r.out = content.extract r.offset.toNat (r.index.toNat * 262144)

structure Yields (r : Reading) (content : ByteArray) (offset length : UInt64) : Prop where
  range : content.extract r.offset.toNat r.stop.toNat = MemoryStore.range content offset length
  fits : (MemoryStore.range content offset length).size ≤ longestRange.toNat

section Start

variable {o : ObjectName} {size offset length : UInt64}

theorem range_of_start?_eq_none (h : start? o size offset length = none)
    (hsize : content.size = size.toNat) : MemoryStore.range content offset length = .empty := by
  have hnone := start?_eq_none h
  rw [MemoryStore.range, ByteArray.extract_eq_empty_iff]
  omega

theorem sound_of_start? (h : start? o size offset length = some (r, left))
    (hsize : content.size = size.toNat) : r.Sound content left := by
  obtain ⟨hp, -, hr, hoffset, hout, -, hindex⟩ := planned_of_start? h
  refine ⟨hp, by rw [hr, hsize], ?_⟩
  rw [hout, eq_comm, ByteArray.extract_eq_empty_iff, hoffset, hindex]
  omega

theorem range_of_start? (h : start? o size offset length = some (r, left))
    (hsize : content.size = size.toNat) :
    content.extract r.offset.toNat r.stop.toNat = MemoryStore.range content offset length := by
  obtain ⟨hp, -, -, hoffset, -, hstop, -⟩ := planned_of_start? h
  have hlt := hp.offset_lt
  rw [hoffset] at hlt
  rw [MemoryStore.range, hstop, hoffset, hsize]
  congr 1
  omega

theorem fits_iff_of_start? (h : start? o size offset length = some (r, left))
    (hsize : content.size = size.toNat) :
    r.fits = true ↔ (MemoryStore.range content offset length).size ≤ longestRange.toNat := by
  obtain ⟨hp, -, hr, -⟩ := planned_of_start? h
  have hle := hp.stop_le
  rw [hr, ← hsize] at hle
  rw [hp.fits_iff, ← range_of_start? h hsize, ByteArray.size_extract, Nat.min_eq_left hle]

end Start

theorem slice_start_lt {start width stop size offset : Nat} (hwidth : 0 < width)
    (hstart : start < stop) (hstop : stop ≤ size) (hoffset : offset < stop)
    (hreached : offset < start + width) :
    offset - start < min (stop - start) (min (start + width) size - start) := by
  omega

theorem slice_stop_eq {start width stop size : Nat} (hstart : start < stop)
    (hstop : stop ≤ size) :
    min (start + min (stop - start) (min (start + width) size - start)) (start + width) =
      min stop (start + width) := by
  omega

theorem Sound.append_slice (h : r.Sound content left) :
    r.sliceStart < r.sliceStop (blockOf content r.index) ∧
      r.out ++ (blockOf content r.index).extract r.sliceStart
          (r.sliceStop (blockOf content r.index)) =
        content.extract r.offset.toNat (min r.stop.toNat ((r.index.toNat + 1) * 262144)) := by
  have hp := h.planned
  have hlt := hp.start_lt
  have hle := hp.stop_le
  have hoff := hp.offset_lt
  have hreach := hp.reached
  have hb := size_blockOf content r.index
  rw [h.size] at hle
  rw [hp.sliceStop_eq, hp.sliceStart_eq, h.out, hb, blockOf, ByteArray.extract_extract]
  rw [Nat.add_mul, Nat.one_mul] at hreach ⊢
  generalize r.index.toNat * 262144 = start at hlt hreach ⊢
  refine ⟨slice_start_lt (by decide) hlt hle hoff hreach, ?_⟩
  rw [slice_stop_eq hlt hle]
  by_cases hfirst : start ≤ r.offset.toNat
  · have hempty : content.extract r.offset.toNat start = .empty := by
      rw [ByteArray.extract_eq_empty_iff]
      exact Nat.le_trans (Nat.min_le_left _ _) hfirst
    rw [hempty, ByteArray.empty_append, Nat.add_sub_cancel' hfirst]
  · have hlater : r.offset.toNat ≤ start := Nat.le_of_not_le hfirst
    have hstop : start ≤ min r.stop.toNat (start + 262144) :=
      Nat.le_min.2 ⟨Nat.le_of_lt hlt, Nat.le_add_right ..⟩
    rw [Nat.sub_eq_zero_of_le hlater, Nat.add_zero,
      ← ByteArray.extract_eq_extract_append_extract start hlater hstop]

theorem Sound.next? (h : r.Sound content left) :
    ∃ s, r.next? (blockOf content r.index) = some s ∧ s.object = r.object ∧ s.offset = r.offset ∧
      s.stop = r.stop ∧ s.size = r.size ∧
      s.out = content.extract r.offset.toNat (min r.stop.toNat ((r.index.toNat + 1) * 262144)) := by
  obtain ⟨hlt, hout⟩ := h.append_slice
  exact ⟨_, if_pos hlt, rfl, rfl, rfl, rfl, hout⟩

theorem Sound.next (h : r.Sound content (left + 1))
    (hn : r.next? (blockOf content r.index) = some s) : s.Sound content left := by
  have hp := h.planned.next hn
  obtain ⟨-, rfl⟩ := eq_of_next? hn
  refine ⟨hp, h.size, ?_⟩
  have hi := h.planned.toNat_index_succ
  have hlt := hp.start_lt
  simp only [hi] at hlt ⊢
  rw [h.append_slice.2, Nat.min_eq_right (Nat.le_of_lt hlt)]

theorem Sound.out_of_last (h : r.Sound content 0)
    (hn : r.next? (blockOf content r.index) = some s) :
    s.out = content.extract r.offset.toNat r.stop.toNat := by
  obtain ⟨-, rfl⟩ := eq_of_next? hn
  have hlast := h.planned.last
  have hlt := h.planned.offset_lt
  have hstop : r.stop.toNat ≤ (r.index.toNat + 1) * 262144 := by omega
  rw [h.append_slice.2, Nat.min_eq_left hstop]

end Reading

theorem Reading.Planned.range_eq_blockUpTo {r : Reading} {left : Nat} (h : r.Planned left)
    (content : ByteArray) :
    MemoryStore.range content r.blockStart r.blockLength = blockUpTo content r.index r.size := by
  have hlt := h.start_lt
  have hle := h.stop_le
  rw [range_eq_extract, h.toNat_blockStart, h.toNat_blockLength, blockUpTo, Nat.add_mul,
    Nat.one_mul]
  congr 1
  omega

theorem Reading.Planned.range_eq_blockOf {r : Reading} {left : Nat} (h : r.Planned left)
    {content : ByteArray} (hsize : r.size.toNat = content.size) :
    MemoryStore.range content r.blockStart r.blockLength = blockOf content r.index := by
  have hlt := Nat.lt_of_lt_of_le h.start_lt h.stop_le
  rw [h.range_eq_blockUpTo, blockUpTo_eq_blockOf_iff hlt, hsize]
  exact Nat.min_le_right _ _

end ObjectCache
