import ObjectCache.Client.Basic
import ObjectCache.Proofs.Cache.Touches

namespace ObjectCache

namespace BlockCache

def access (content : BlockKey → ByteArray) (c : BlockCache) (key : BlockKey) : Bool × BlockCache :=
  match c.get key with
  | (some _, c) => (true, c)
  | (none, c) => (false, (c.putIfCurrent key (content key) (c.generation key.object)).2.1)

def accessAll (content : BlockKey → ByteArray) (c : BlockCache) : List BlockKey →
    List Bool × BlockCache
  | [] => ([], c)
  | key :: keys =>
      let (hit, c) := c.access content key
      let (hits, c) := c.accessAll content keys
      (hit :: hits, c)

/-- A block that is fetched is in memory together with the resident ones, so that a word counts
their bytes. -/
def Admits (content : BlockKey → ByteArray) (c : BlockCache) : List BlockKey → Prop
  | [] => True
  | key :: keys =>
      ((c.find? key).isNone → bytes c.blocks + (content key).size < UInt64.size) ∧
        (c.access content key).2.Admits content keys

instance decidableAdmits (content : BlockKey → ByteArray) :
    (c : BlockCache) → (keys : List BlockKey) → Decidable (c.Admits content keys)
  | _, [] => isTrue trivial
  | c, key :: keys =>
      have := decidableAdmits content (c.access content key).2 keys
      inferInstanceAs (Decidable
        (((c.find? key).isNone → bytes c.blocks + (content key).size < UInt64.size) ∧
          (c.access content key).2.Admits content keys))

variable {content : BlockKey → ByteArray} {c d : BlockCache} {key : BlockKey}
  {uses : List BlockKey} {budget small large : UInt64}

theorem access_of_find? {b : Block} (h : c.find? key = some b) :
    c.access content key = (true, (c.get key).2) := by
  simp [access, get_of_find? h]

theorem access_of_missing (h : c.find? key = none) :
    c.access content key = (false, ((c.get key).2.put key (content key)).1) := by
  simp [access, get_of_missing h, putIfCurrent]

theorem hit_access : (c.access content key).1 = (c.find? key).isSome := by
  cases h : c.find? key with
  | none => rw [access_of_missing h]; rfl
  | some b => rw [access_of_find? h]; rfl

theorem find?_get_of_missing (h : c.find? key = none) : (c.get key).2.find? key = none := by
  rw [get_of_missing h]
  exact h

theorem misses_put (c : BlockCache) (key : BlockKey) (data : ByteArray) :
    (c.put key data).1.misses = c.misses :=
  counter_put c key data false

theorem misses_accessAll (content : BlockKey → ByteArray) (c : BlockCache)
    (keys : List BlockKey) :
    (c.accessAll content keys).2.misses =
      c.misses + (c.accessAll content keys).1.count false := by
  induction keys generalizing c with
  | nil => rfl
  | cons key keys ih =>
      rw [accessAll, ih]
      cases h : c.find? key with
      | none =>
          simp only [access_of_missing h, misses_put, get_of_missing h, List.count_cons_self]
          omega
      | some b =>
          simp only [access_of_find? h, get_of_find? h]
          rw [List.count_cons_of_ne (by decide)]

structure Stocked (content : BlockKey → ByteArray) (budget : UInt64) (uses : List BlockKey)
    (c : BlockCache) : Prop where
  recent : Recent (fun key => (content key).size) budget uses c
  faithful : ∀ b ∈ c.blocks, b.data = content b.key

theorem stocked_withBudget (content : BlockKey → ByteArray) (budget : UInt64) :
    Stocked content budget [] (withBudget budget) :=
  ⟨recent_withBudget _ budget, fun b hb => by cases hb⟩

theorem Stocked.access (h : Stocked content budget uses c)
    (hroom : (c.find? key).isNone → bytes c.blocks + (content key).size < UInt64.size) :
    Stocked content budget (uses ++ [key]) (c.access content key).2 := by
  cases hf : c.find? key with
  | some b =>
      rw [access_of_find? hf]
      exact ⟨h.recent.get_found hf, fun b hb => h.faithful b ((within_get c key).mem b hb)⟩
  | none =>
      have hrecent := h.recent.get_missing hf
      have hmissing := find?_get_of_missing hf
      have hbytes : bytes (c.get key).2.blocks + (content key).size < UInt64.size := by
        rw [get_of_missing hf]
        exact hroom (by simp [hf])
      rw [access_of_missing hf]
      refine ⟨hrecent.put_missing hmissing rfl hbytes, ?_⟩
      intro b hb
      rcases mem_of_mem_put hb with hb | rfl
      · exact h.faithful b ((within_get c key).mem b hb)
      · rfl

theorem Stocked.weight_eq (h : Stocked content budget uses c) :
    weight (fun key => (content key).size) c.residents = bytes c.blocks :=
  weight_residents h.recent.sized

theorem Stocked.initial (hs : Stocked content small uses c) (hl : Stocked content large uses d)
    (hle : small ≤ large) : c.residents <+: d.residents :=
  hs.recent.longest.of_le hl.recent.longest (UInt64.le_iff_toNat_le.1 hle)

theorem Stocked.mem_of_le (hs : Stocked content small uses c) (hl : Stocked content large uses d)
    (hle : small ≤ large) {b : Block} (hb : b ∈ c.blocks) : b ∈ d.blocks := by
  have hkey : b.key ∈ c.residents := by
    rw [residents, List.mem_reverse]
    exact List.mem_map_of_mem hb
  have hlarger := (hs.initial hl hle).subset hkey
  rw [residents, List.mem_reverse, List.mem_map] at hlarger
  obtain ⟨a, ha, hab⟩ := hlarger
  have hdata : a.data = b.data := by
    rw [hl.faithful a ha, hs.faithful b hb, hab]
  cases a
  cases b
  simp_all

theorem Stocked.hit_of_le (hs : Stocked content small uses c) (hl : Stocked content large uses d)
    (hle : small ≤ large) (hhit : (c.access content key).1) : (d.access content key).1 := by
  rw [hit_access, ← mem_residents_iff] at hhit ⊢
  exact (hs.initial hl hle).subset hhit

theorem Stocked.room_of_le (hs : Stocked content small uses c) (hl : Stocked content large uses d)
    (hle : small ≤ large)
    (hroom : (d.find? key).isNone → bytes d.blocks + (content key).size < UInt64.size)
    (hmissing : (c.find? key).isNone) : bytes c.blocks + (content key).size < UInt64.size := by
  obtain ⟨rest, hrest⟩ := hs.initial hl hle
  have hweight := hl.weight_eq
  rw [← hrest, weight_append, hs.weight_eq] at hweight
  by_cases hkey : key ∈ d.residents
  · have hnot : key ∉ c.residents := by
      rw [mem_residents_iff]
      simpa using hmissing
    rw [← hrest, List.mem_append, or_iff_right hnot] at hkey
    have hsize := size_le_weight (fun key => (content key).size) hkey
    have hlt := hl.recent.balanced.accurate.bytes_lt
    omega
  · have hlt := hroom (by simpa [mem_residents_iff] using hkey)
    omega

theorem count_false_le {hits more : List Bool}
    (h : List.Forall₂ (fun hit hit' => hit = true → hit' = true) hits more) :
    more.count false ≤ hits.count false := by
  induction h with
  | nil => exact Nat.le_refl _
  | @cons hit hit' hits more hle _ ih =>
      cases hit with
      | true =>
          rw [hle rfl, List.count_cons_of_ne (by decide), List.count_cons_of_ne (by decide)]
          exact ih
      | false =>
          rw [List.count_cons_self]
          cases hit' with
          | true =>
              rw [List.count_cons_of_ne (by decide)]
              exact Nat.le_succ_of_le ih
          | false =>
              rw [List.count_cons_self]
              exact Nat.succ_le_succ ih

theorem stocked_accessAll (hs : Stocked content small uses c) (hl : Stocked content large uses d)
    (hle : small ≤ large) {keys : List BlockKey} (hroom : d.Admits content keys) :
    Stocked content small (uses ++ keys) (c.accessAll content keys).2 ∧
      Stocked content large (uses ++ keys) (d.accessAll content keys).2 ∧
      List.Forall₂ (fun hit hit' => hit = true → hit' = true) (c.accessAll content keys).1
        (d.accessAll content keys).1 := by
  induction keys generalizing c d uses with
  | nil =>
      rw [List.append_nil]
      exact ⟨hs, hl, .nil⟩
  | cons key keys ih =>
      have hc := hs.access (hs.room_of_le hl hle hroom.1)
      have hd := hl.access hroom.1
      obtain ⟨hsmall, hlarge, hhits⟩ := ih hc hd hroom.2
      rw [List.append_assoc] at hsmall hlarge
      exact ⟨hsmall, hlarge, .cons (hs.hit_of_le hl hle) hhits⟩

/-- With a larger budget, each access finds its block if it does with the smaller one, and whatever
stays resident with the smaller budget does with the larger. -/
theorem larger_budget_hits_more (content : BlockKey → ByteArray) (keys : List BlockKey)
    {small large : UInt64} (hle : small ≤ large)
    (hroom : (withBudget large).Admits content keys) :
    let s := (withBudget small).accessAll content keys
    let l := (withBudget large).accessAll content keys
    (∀ b ∈ s.2.blocks, b ∈ l.2.blocks) ∧
      List.Forall₂ (fun hit hit' => hit = true → hit' = true) s.1 l.1 ∧
      l.1.count false ≤ s.1.count false ∧ l.2.misses ≤ s.2.misses := by
  intro s l
  obtain ⟨hs, hl, hhits⟩ := stocked_accessAll (stocked_withBudget content small)
    (stocked_withBudget content large) hle hroom
  have hfetches := count_false_le hhits
  refine ⟨fun b hb => hs.mem_of_le hl hle hb, hhits, hfetches, ?_⟩
  rw [misses_accessAll, misses_accessAll]
  exact Nat.add_le_add_left hfetches _

theorem one_more_block_is_found :
    let key : UInt64 → BlockKey := fun index => ⟨⟨"b", "k"⟩, index⟩
    let content : BlockKey → ByteArray := fun key =>
      if key.index = 1 then ⟨#[]⟩ else if key.index = 3 then ⟨#[5, 6, 7, 8]⟩ else ⟨#[1, 2]⟩
    let keys := [key 0, key 1, key 0, key 2, key 3, key 2, key 1, key 0, key 2]
    let s := (withBudget 3).accessAll content keys
    let l := (withBudget 5).accessAll content keys
    (3 : UInt64) ≤ 5 ∧ (withBudget 5).Admits content keys ∧
      s.1 = [false, false, true, false, false, false, false, false, false] ∧
      l.1 = [false, false, true, false, false, false, false, false, true] ∧
      List.Forall₂ (fun hit hit' => hit = true → hit' = true) s.1 l.1 ∧
      l.2.misses ≤ s.2.misses := by
  intro key content keys
  have hle : (3 : UInt64) ≤ 5 := by decide
  have hroom : (withBudget 5).Admits content keys := by decide
  obtain ⟨-, hhits, -, hmisses⟩ := larger_budget_hits_more content keys hle hroom
  exact ⟨hle, hroom, by decide, by decide, hhits, hmisses⟩

end BlockCache

namespace Client

theorem readBlock_accesses (content : BlockKey → ByteArray) (c : Client) (r : Reading) (left : Nat)
    (go : Client → Reading → Turn) :
    let kept := { c with blocks := (c.blocks.access content r.key).2 }
    let turn := c.readBlock r left go
    ((c.blocks.access content r.key).1 = true ∧
        ∃ block, turn = kept.useBlock r block (go kept)) ∨
      ((c.blocks.access content r.key).1 = false ∧
        ∃ generation events, turn.progress = .waiting (.block r left generation) ∧
          turn.client.afterBlock r left generation (.ok (content r.key)) =
            let after := kept.readAfter r (content r.key) left
            { after with events := events ++ after.events }) := by
  intro kept turn
  cases h : c.blocks.find? r.key with
  | some b =>
      refine .inl ⟨?_, b.data, ?_⟩
      · rw [BlockCache.access_of_find? h]
      · simp only [turn, kept, readBlock, lookUp, BlockCache.access_of_find? h,
          BlockCache.get_of_find? h]
  | none =>
      have haccess : c.blocks.access content r.key =
          (false, ((c.blocks.get r.key).2.put r.key (content r.key)).1) :=
        BlockCache.access_of_missing h
      have hget := BlockCache.get_of_missing h
      have hput : (c.blocks.get r.key).2.putIfCurrent r.key (content r.key)
          (c.blocks.generation r.object) =
            (true, (c.blocks.get r.key).2.put r.key (content r.key)) := by
        rw [hget]
        exact if_pos rfl
      have hturn : turn = { c with blocks := (c.blocks.get r.key).2 }.awaitBlock r left := by
        simp only [turn, readBlock, lookUp, hget]
      refine .inr ⟨congrArg Prod.fst haccess, c.blocks.generation r.object, ?_⟩
      rw [hturn]
      refine ⟨((c.blocks.get r.key).2.put r.key (content r.key)).2, ?_, ?_⟩
      · rw [hget]
        rfl
      · simp only [kept, haccess, awaitBlock, afterBlock, hput]

end Client

end ObjectCache
