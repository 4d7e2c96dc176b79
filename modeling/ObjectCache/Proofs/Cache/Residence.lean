import ObjectCache.Cache.Blocks

namespace ObjectCache.BlockCache

theorem mem_of_find? {c : BlockCache} {key : BlockKey} {b : Block} (h : c.find? key = some b) :
    b ∈ c.blocks ∧ b.key = key := by
  refine ⟨List.mem_of_find?_eq_some h, ?_⟩
  have hk := List.find?_some h
  simpa using hk

theorem get_of_find? {c : BlockCache} {key : BlockKey} {b : Block} (h : c.find? key = some b) :
    c.get key = (some b.data,
      { c with blocks := c.blocks.filter (·.key ≠ key) ++ [b], hits := c.hits + 1 }) := by
  simp [get, h]

theorem get_of_missing {c : BlockCache} {key : BlockKey} (h : c.find? key = none) :
    c.get key = (none, { c with misses := c.misses + 1 }) := by
  simp [get, h]

def takeIn (c : BlockCache) (b : Block) : List Block × List Block × UInt64 :=
  evictOver c.budget (c.total + b.size) (c.blocks ++ [b])

theorem put_of_find? {c : BlockCache} {key : BlockKey} {data : ByteArray} {b : Block}
    (h : c.find? key = some b) : c.put key data = (c, []) := by
  simp [put, h]

theorem put_of_missing {c : BlockCache} {key : BlockKey} {data : ByteArray}
    (h : c.find? key = none) :
    c.put key data =
      ({ c with
          blocks := (c.takeIn ⟨key, data⟩).2.1
          total := (c.takeIn ⟨key, data⟩).2.2
          evictions := c.evictions + (c.takeIn ⟨key, data⟩).1.length },
        (c.takeIn ⟨key, data⟩).1.map evictionEvent) := by
  simp [put, h, takeIn]

theorem evictOver_append (budget total : UInt64) (bs : List Block) :
    (evictOver budget total bs).1 ++ (evictOver budget total bs).2.1 = bs := by
  induction bs generalizing total with
  | nil => rfl
  | cons b bs ih =>
      simp only [evictOver]
      split
      · simp [ih]
      · rfl

theorem sublist_takeIn (c : BlockCache) (b : Block) :
    (c.takeIn b).2.1.Sublist (c.blocks ++ [b]) := by
  have happend := evictOver_append c.budget (c.total + b.size) (c.blocks ++ [b])
  conv => rhs; rw [← happend]
  exact List.sublist_append_right _ _

def Distinct (c : BlockCache) : Prop := c.blocks.Pairwise fun a b => a.key ≠ b.key

theorem Distinct.find? {c : BlockCache} (h : c.Distinct) {b : Block} (hb : b ∈ c.blocks) :
    c.find? b.key = some b := by
  unfold Distinct at h
  unfold BlockCache.find?
  generalize c.blocks = blocks at h hb
  induction blocks with
  | nil => cases hb
  | cons a bs ih =>
      rw [List.pairwise_cons] at h
      rcases List.mem_cons.1 hb with rfl | hb
      · simp
      · rw [List.find?_cons_of_neg (by simpa using h.1 b hb)]
        exact ih h.2 hb

structure Within (c d : BlockCache) : Prop where
  mem : ∀ b ∈ c.blocks, b ∈ d.blocks
  distinct : d.Distinct → c.Distinct
  generations : c.generations = d.generations

theorem Within.refl (c : BlockCache) : c.Within c := ⟨fun _ h => h, id, rfl⟩

theorem Within.trans {c d e : BlockCache} (h : c.Within d) (k : d.Within e) : c.Within e :=
  ⟨fun b hb => k.mem b (h.mem b hb), h.distinct ∘ k.distinct,
    h.generations.trans k.generations⟩

theorem Within.generation_eq {c d : BlockCache} (h : c.Within d) (o : ObjectName) :
    c.generation o = d.generation o := by
  simp only [generation, h.generations]

theorem within_get (c : BlockCache) (key : BlockKey) : (c.get key).2.Within c := by
  cases h : c.find? key with
  | none =>
      rw [get_of_missing h]
      exact ⟨fun _ hb => hb, id, rfl⟩
  | some b =>
      rw [get_of_find? h]
      refine ⟨?_, ?_, rfl⟩
      · intro x hx
        rcases List.mem_append.1 hx with hx | hx
        · exact (List.mem_filter.1 hx).1
        · rw [List.mem_singleton.1 hx]
          exact (mem_of_find? h).1
      · intro hd
        refine List.pairwise_append.2 ⟨hd.filter _, List.pairwise_singleton _ _, ?_⟩
        intro x hx y hy
        rw [List.mem_singleton.1 hy, (mem_of_find? h).2]
        simpa using (List.mem_filter.1 hx).2

theorem mem_of_get {c : BlockCache} {key : BlockKey} {data : ByteArray}
    (h : (c.get key).1 = some data) : ⟨key, data⟩ ∈ c.blocks := by
  cases hf : c.find? key with
  | none => simp [get_of_missing hf] at h
  | some b =>
      obtain ⟨hb, hk⟩ := mem_of_find? hf
      simp only [get_of_find? hf, Option.some.injEq] at h
      rw [← hk, ← h]
      exact hb

theorem mem_of_mem_put {c : BlockCache} {key : BlockKey} {data : ByteArray} {b : Block}
    (h : b ∈ (c.put key data).1.blocks) : b ∈ c.blocks ∨ b = ⟨key, data⟩ := by
  cases hf : c.find? key with
  | none =>
      rw [put_of_missing hf] at h
      simpa using (sublist_takeIn c ⟨key, data⟩).mem h
  | some a =>
      rw [put_of_find? hf] at h
      exact .inl h

@[simp] theorem generations_put (c : BlockCache) (key : BlockKey) (data : ByteArray) :
    (c.put key data).1.generations = c.generations := by
  cases hf : c.find? key with
  | none => rw [put_of_missing hf]
  | some b => rw [put_of_find? hf]

def counter (c : BlockCache) (hit : Bool) : Nat := if hit then c.hits else c.misses

@[simp] theorem counter_put (c : BlockCache) (key : BlockKey) (data : ByteArray) (hit : Bool) :
    (c.put key data).1.counter hit = c.counter hit := by
  cases hf : c.find? key with
  | none =>
      rw [put_of_missing hf]
      rfl
  | some b => rw [put_of_find? hf]

theorem Distinct.concat {c : BlockCache} {b : Block} (h : c.Distinct)
    (hb : c.find? b.key = none) : (c.blocks ++ [b]).Pairwise fun a b => a.key ≠ b.key := by
  refine List.pairwise_append.2 ⟨h, List.pairwise_singleton _ _, ?_⟩
  intro x hx y hy
  rw [List.mem_singleton.1 hy]
  simpa using List.find?_eq_none.1 hb x hx

theorem distinct_put {c : BlockCache} (h : c.Distinct) (key : BlockKey) (data : ByteArray) :
    (c.put key data).1.Distinct := by
  cases hf : c.find? key with
  | some b =>
      rw [put_of_find? hf]
      exact h
  | none =>
      have hnew := h.concat (b := ⟨key, data⟩) hf
      rw [put_of_missing hf]
      exact hnew.sublist (sublist_takeIn c ⟨key, data⟩)

theorem distinct_invalidate {c : BlockCache} (h : c.Distinct) (o : ObjectName) :
    (c.invalidate o).1.Distinct :=
  h.filter _

theorem mem_invalidate {c : BlockCache} {o : ObjectName} {b : Block} :
    b ∈ (c.invalidate o).1.blocks ↔ b ∈ c.blocks ∧ b.key.object ≠ o := by
  simp [invalidate]

theorem generation_invalidate (c : BlockCache) (o p : ObjectName) :
    (c.invalidate o).1.generation p = c.generation p + if p = o then 1 else 0 := by
  simp only [generation, invalidate, Counts.count_add]
  split <;> simp [*]

end ObjectCache.BlockCache
