import ObjectCache.Proofs.Cache.Residence

namespace ObjectCache.BlockCache

def bytes : List Block → Nat
  | [] => 0
  | b :: bs => b.data.size + bytes bs

@[simp] theorem bytes_nil : bytes [] = 0 := rfl

@[simp] theorem bytes_cons (b : Block) (bs : List Block) :
    bytes (b :: bs) = b.data.size + bytes bs := rfl

@[simp] theorem bytes_append (as bs : List Block) : bytes (as ++ bs) = bytes as + bytes bs := by
  induction as with
  | nil => simp
  | cons a as ih => simp [ih, Nat.add_assoc]

@[simp] theorem bytes_reverse (bs : List Block) : bytes bs.reverse = bytes bs := by
  induction bs with
  | nil => rfl
  | cons b bs ih => simp [ih, Nat.add_comm]

theorem bytes_filter_add (p : Block → Bool) (bs : List Block) :
    bytes (bs.filter p) + bytes (bs.filter fun b => !p b) = bytes bs := by
  induction bs with
  | nil => rfl
  | cons b bs ih =>
      by_cases hp : p b
      · simp only [List.filter_cons, hp, if_true, Bool.not_true, Bool.false_eq_true, if_false,
          bytes_cons]
        omega
      · simp only [List.filter_cons, hp, Bool.false_eq_true, if_false, Bool.not_false, if_true,
          bytes_cons]
        omega

theorem toNat_size {b : Block} (h : b.data.size < UInt64.size) : b.size.toNat = b.data.size :=
  UInt64.toNat_ofNat_of_lt' h

theorem toNat_sizes {bs : List Block} (h : bytes bs < UInt64.size) :
    (sizes bs).toNat = bytes bs := by
  induction bs with
  | nil => rfl
  | cons b bs ih =>
      rw [bytes_cons] at h
      have hb : b.size.toNat = b.data.size := toNat_size (by omega)
      have hbs := ih (by omega)
      simp only [sizes, List.foldr_cons] at hbs ⊢
      rw [UInt64.toNat_add, hb, hbs, bytes_cons]
      exact Nat.mod_eq_of_lt h

inductive Request where
  | get (key : BlockKey)
  | put (key : BlockKey) (data : ByteArray)
  | putIfCurrent (key : BlockKey) (data : ByteArray) (generation : Nat)
  | generation (object : ObjectName)
  | invalidate (object : ObjectName)
  | clear

inductive Reply where
  | found (data : Option ByteArray)
  | taken (current : Bool) (events : List Event)
  | generation (n : Nat)
  | done (events : List Event)

def perform (c : BlockCache) : Request → Reply × BlockCache
  | .get key => (.found (c.get key).1, (c.get key).2)
  | .put key data => (.taken true (c.put key data).2, (c.put key data).1)
  | .putIfCurrent key data generation =>
      let (current, kept, events) := c.putIfCurrent key data generation
      (.taken current events, kept)
  | .generation o => (.generation (c.generation o), c)
  | .invalidate o => (.done (c.invalidate o).2, (c.invalidate o).1)
  | .clear => (.done [], c.clear)

def performAll (c : BlockCache) : List Request → List Reply × BlockCache
  | [] => ([], c)
  | q :: qs =>
      let (reply, c) := c.perform q
      let (replies, c) := c.performAll qs
      (reply :: replies, c)

def Request.incoming : Request → Nat
  | .put _ data => data.size
  | .putIfCurrent _ data _ => data.size
  | _ => 0

/-- What is resident and what comes in are in memory together, so that a word counts their bytes. -/
def Countable (c : BlockCache) : List Request → Prop
  | [] => True
  | q :: qs => bytes c.blocks + q.incoming < UInt64.size ∧ (c.perform q).2.Countable qs

instance decidableCountable : (c : BlockCache) → (qs : List Request) → Decidable (c.Countable qs)
  | _, [] => isTrue trivial
  | c, q :: qs =>
      have := decidableCountable (c.perform q).2 qs
      inferInstanceAs (Decidable (bytes c.blocks + q.incoming < UInt64.size ∧
        (c.perform q).2.Countable qs))

structure Accurate (c : BlockCache) : Prop where
  distinct : c.Distinct
  total : c.total.toNat = bytes c.blocks

variable {c : BlockCache} {key : BlockKey} {data : ByteArray} {o : ObjectName}

theorem accurate_withBudget (budget : UInt64) : (withBudget budget).Accurate := ⟨.nil, rfl⟩

theorem Accurate.bytes_lt (h : c.Accurate) : bytes c.blocks < UInt64.size :=
  h.total ▸ c.total.toNat_lt

theorem filter_key_eq (h : c.Distinct) {b : Block} (hb : b ∈ c.blocks) :
    c.blocks.filter (fun a => a.key = b.key) = [b] := by
  unfold Distinct at h
  generalize c.blocks = blocks at h hb
  induction blocks with
  | nil => cases hb
  | cons a bs ih =>
      rw [List.pairwise_cons] at h
      rcases List.mem_cons.1 hb with rfl | hb
      · have hnone : bs.filter (fun a => a.key = b.key) = [] := by
          rw [List.filter_eq_nil_iff]
          intro x hx
          simpa using (h.1 x hx).symm
        simp [hnone]
      · have hne : a.key ≠ b.key := h.1 b hb
        simp [hne, ih h.2 hb]

theorem Accurate.get (h : c.Accurate) (key : BlockKey) : (c.get key).2.Accurate := by
  constructor
  · exact (within_get c key).distinct h.distinct
  · cases hf : c.find? key with
    | none =>
        rw [get_of_missing hf]
        exact h.total
    | some b =>
        obtain ⟨hb, hkey⟩ := mem_of_find? hf
        have hsum := bytes_filter_add (fun a => a.key = b.key) c.blocks
        rw [filter_key_eq h.distinct hb, bytes_cons, bytes_nil] at hsum
        rw [get_of_find? hf, h.total, bytes_append, bytes_cons, bytes_nil, ← hsum, ← hkey]
        simp [Nat.add_comm]

theorem toNat_sub_size {total : UInt64} {b : Block} {bs : List Block}
    (h : total.toNat = bytes (b :: bs)) : (total - b.size).toNat = bytes bs := by
  rw [bytes_cons] at h
  have hle : b.data.size ≤ total.toNat := h ▸ Nat.le_add_right _ _
  have hb : b.size.toNat = b.data.size := toNat_size (Nat.lt_of_le_of_lt hle total.toNat_lt)
  rw [UInt64.toNat_sub_of_le, hb]
  · omega
  · rwa [UInt64.le_iff_toNat_le, hb]

theorem toNat_evictOver {budget total : UInt64} {bs : List Block} (h : total.toNat = bytes bs) :
    (evictOver budget total bs).2.2.toNat = bytes (evictOver budget total bs).2.1 := by
  induction bs generalizing total with
  | nil => exact h
  | cons b bs ih =>
      rw [evictOver]
      split
      · exact ih (toNat_sub_size h)
      · exact h

theorem Accurate.toNat_incoming (h : c.Accurate) {b : Block}
    (hfits : bytes c.blocks + b.data.size < UInt64.size) :
    (c.total + b.size).toNat = bytes (c.blocks ++ [b]) := by
  have hb : b.size.toNat = b.data.size := toNat_size (by omega)
  rw [UInt64.toNat_add, h.total, hb, bytes_append, bytes_cons, bytes_nil, Nat.add_zero]
  exact Nat.mod_eq_of_lt hfits

theorem Accurate.put (h : c.Accurate) (key : BlockKey)
    (hfits : bytes c.blocks + data.size < UInt64.size) : (c.put key data).1.Accurate := by
  constructor
  · exact distinct_put h.distinct key data
  · cases hf : c.find? key with
    | some b =>
        rw [put_of_find? hf]
        exact h.total
    | none =>
        rw [put_of_missing hf]
        exact toNat_evictOver (h.toNat_incoming hfits)

theorem Accurate.toNat_freed (h : c.Accurate) (p : Block → Bool) :
    (sizes (c.blocks.filter p)).toNat = bytes (c.blocks.filter p) := by
  have hsum := bytes_filter_add p c.blocks
  have hlt := h.bytes_lt
  exact toNat_sizes (by omega)

theorem Accurate.invalidate (h : c.Accurate) (o : ObjectName) : (c.invalidate o).1.Accurate := by
  constructor
  · exact distinct_invalidate h.distinct o
  · have hsum := bytes_filter_add (fun b => b.key.object = o) c.blocks
    have hfreed := h.toNat_freed fun b => b.key.object = o
    have hkept : c.blocks.filter (fun b => b.key.object ≠ o) =
        c.blocks.filter (fun b => !decide (b.key.object = o)) := by
      simp
    simp only [BlockCache.invalidate]
    rw [hkept, UInt64.toNat_sub_of_le, h.total, hfreed]
    · omega
    · rw [UInt64.le_iff_toNat_le, h.total, hfreed]
      omega

theorem accurate_clear (c : BlockCache) : c.clear.Accurate := ⟨.nil, rfl⟩

end ObjectCache.BlockCache
