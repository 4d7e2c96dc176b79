import ObjectCache.Proofs.Cache.Budget
import ObjectCache.Proofs.Cache.LastUse
import ObjectCache.Proofs.Cache.Recency

namespace ObjectCache.BlockCache

inductive Touch where
  | insertion (key : BlockKey)
  | hit (key : BlockKey)
deriving DecidableEq

def Touch.key : Touch → BlockKey
  | insertion key => key
  | hit key => key

variable {size : BlockKey → Nat} {uses : List BlockKey} {key : BlockKey} {ts : List Touch}
  {c : BlockCache} {budget : UInt64} {data : ByteArray}

def residents (c : BlockCache) : List BlockKey := (c.blocks.map Block.key).reverse

structure Recent (size : BlockKey → Nat) (budget : UInt64) (uses : List BlockKey)
    (c : BlockCache) : Prop where
  balanced : c.Balanced budget
  sized : ∀ b ∈ c.blocks, b.data.size = size b.key
  longest : LongestWithin size budget.toNat (latest uses) c.residents

theorem residents_eq (c : BlockCache) : c.residents = c.blocks.reverse.map Block.key :=
  List.map_reverse.symm

theorem mem_residents_iff : key ∈ c.residents ↔ (c.find? key).isSome := by
  simp [residents, find?, List.find?_isSome]

theorem weight_residents (h : ∀ b ∈ c.blocks, b.data.size = size b.key) :
    weight size c.residents = bytes c.blocks := by
  rw [residents, weight_eq_of_perm (List.reverse_perm _), weight_map_key h]

theorem longestWithin_fitting (room : Nat) {bs : List Block}
    (hsized : ∀ b ∈ bs, b.data.size = size b.key) :
    LongestWithin size room (bs.map Block.key)
      ((IdealCache.fitting room bs).map Block.key) := by
  have hweight (n : Nat) : weight size ((bs.take n).map Block.key) = bytes (bs.take n) := by
    have htake : ∀ b ∈ bs.take n, b.data.size = size b.key := fun b hb =>
      hsized b (List.mem_of_mem_take hb)
    exact weight_map_key htake
  refine ⟨(List.take_prefix _ _).map _, ?_, ?_⟩
  · rw [IdealCache.fitting, hweight]
    exact Nat.findGreatest_spec (P := fun n => bytes (bs.take n) ≤ room) (Nat.zero_le _)
      (Nat.zero_le _)
  · intro more hmore hfits
    have hlength : more.length ≤ bs.length := by simpa using hmore.length_le
    have htake := List.prefix_iff_eq_take.1 hmore
    rw [← List.map_take] at htake
    rw [htake, hweight] at hfits
    rw [htake, IdealCache.fitting]
    exact (List.take_prefix_take_left (Nat.le_findGreatest hlength hfits)).map _

theorem recent_withBudget (size : BlockKey → Nat) (budget : UInt64) :
    Recent size budget [] (withBudget budget) := by
  refine ⟨balanced_withBudget budget, ?_, ?_⟩
  · intro b hb
    cases hb
  · exact longestWithin_iff.2 ⟨Nat.zero_le _, [], rfl, by simp⟩

theorem Recent.get_missing (h : Recent size budget uses c) (hf : c.find? key = none) :
    Recent size budget uses (c.get key).2 := by
  have hbalanced := h.balanced.get key
  rw [get_of_missing hf] at hbalanced ⊢
  exact ⟨hbalanced, h.sized, h.longest⟩

theorem Recent.get_found (h : Recent size budget uses c) {b : Block} (hf : c.find? key = some b) :
    Recent size budget (uses ++ [key]) (c.get key).2 := by
  obtain ⟨hb, rfl⟩ := mem_of_find? hf
  have hkey : b.key ∈ c.residents := mem_residents_iff.2 (by simp [hf])
  have hbalanced := h.balanced.get b.key
  rw [get_of_find? hf] at hbalanced ⊢
  refine ⟨hbalanced, ?_, ?_⟩
  · intro x hx
    rcases List.mem_append.1 hx with hx | hx
    · exact h.sized x (List.mem_filter.1 hx).1
    · exact List.mem_singleton.1 hx ▸ h.sized b hb
  · have hpromote := h.longest.promote (nodup_latest uses) hkey
    rw [← latest_concat] at hpromote
    simpa [residents, List.filter_map, List.filter_reverse, Function.comp_def] using hpromote

theorem Recent.put_missing (h : Recent size budget uses c) (hf : c.find? key = none)
    (hsize : data.size = size key) (hroom : bytes c.blocks + data.size < UInt64.size) :
    Recent size budget (uses ++ [key]) (c.put key data).1 := by
  have hbalanced := h.balanced.put key hroom
  have hsized : ∀ b ∈ (c.put key data).1.blocks, b.data.size = size b.key := by
    intro b hb
    rcases mem_of_mem_put hb with hb | rfl
    · exact h.sized b hb
    · exact hsize
  have hkey : key ∉ c.residents := by simp [mem_residents_iff, hf]
  have hkept := IdealCache.kept_evictOver budget
    (h.balanced.accurate.toNat_incoming (b := ⟨key, data⟩) hroom)
  have hincoming : ∀ b ∈ (⟨key, data⟩ : Block) :: c.blocks.reverse,
      b.data.size = size b.key := by
    simpa [hsize] using h.sized
  have hfitting := longestWithin_fitting budget.toNat hincoming
  refine ⟨hbalanced, hsized, ?_⟩
  rw [latest_concat]
  refine h.longest.admit hkey ?_
  rw [residents_eq, residents_eq, put_of_missing hf, takeIn, h.balanced.budget_eq, hkept,
    List.reverse_reverse]
  simpa using hfitting

def touch? (c : BlockCache) : Request → Option Touch
  | .get key => if (c.find? key).isSome then some (.hit key) else none
  | .put key _ => if (c.find? key).isSome then none else some (.insertion key)
  | _ => none

def touches (c : BlockCache) : List Request → List Touch
  | [] => []
  | q :: qs => (c.touch? q).toList ++ (c.perform q).2.touches qs

def Request.Fills (size : BlockKey → Nat) : Request → Prop
  | .get _ => True
  | .put key data => data.size = size key
  | _ => False

instance decidableFills (size : BlockKey → Nat) : (q : Request) → Decidable (q.Fills size)
  | .get _ => isTrue trivial
  | .put key data => inferInstanceAs (Decidable (data.size = size key))
  | .putIfCurrent .. => isFalse id
  | .generation _ => isFalse id
  | .invalidate _ => isFalse id
  | .clear => isFalse id

theorem Recent.perform (h : Recent size budget uses c) {q : Request} (hq : q.Fills size)
    (hroom : bytes c.blocks + q.incoming < UInt64.size) :
    Recent size budget (uses ++ (c.touch? q).toList.map Touch.key) (c.perform q).2 := by
  cases q with
  | get key =>
      cases hf : c.find? key with
      | none => simpa [touch?, hf, BlockCache.perform] using h.get_missing hf
      | some b => simpa [touch?, hf, Touch.key, BlockCache.perform] using h.get_found hf
  | put key data =>
      cases hf : c.find? key with
      | none => simpa [touch?, hf, Touch.key, BlockCache.perform] using h.put_missing hf hq hroom
      | some b => simpa [touch?, hf, BlockCache.perform, put_of_find? hf] using h
  | putIfCurrent key data generation => exact hq.elim
  | generation o => exact hq.elim
  | invalidate o => exact hq.elim
  | clear => exact hq.elim

def Grounded (ts : List Touch) : Prop := ∀ t ∈ ts, .insertion t.key ∈ ts

theorem Grounded.mem_iff (h : Grounded ts) : key ∈ ts.map Touch.key ↔ .insertion key ∈ ts := by
  constructor
  · intro hkey
    obtain ⟨t, ht, rfl⟩ := List.mem_map.1 hkey
    exact h t ht
  · intro hkey
    exact List.mem_map_of_mem (f := Touch.key) hkey

theorem Recent.grounded (h : Recent size budget (ts.map Touch.key) c) (hts : Grounded ts)
    (q : Request) : Grounded (ts ++ (c.touch? q).toList) := by
  have hnew : ∀ t ∈ (c.touch? q).toList, t = .insertion t.key ∨ t.key ∈ c.residents := by
    intro t ht
    rw [Option.mem_toList] at ht
    cases q with
    | get key =>
        simp only [touch?, Option.ite_none_right_eq_some, Option.some.injEq] at ht
        exact .inr (mem_residents_iff.2 (ht.2 ▸ ht.1))
    | put key data =>
        simp only [touch?, Option.ite_none_left_eq_some, Option.some.injEq] at ht
        exact .inl (ht.2 ▸ rfl)
    | _ => simp [touch?] at ht
  intro t ht
  rcases List.mem_append.1 ht with ht | ht
  · exact List.mem_append_left _ (hts t ht)
  · rcases hnew t ht with heq | hkey
    · exact heq ▸ List.mem_append_right _ ht
    · have huses := mem_latest.1 (h.longest.initial.subset hkey)
      exact List.mem_append_left _ (hts.mem_iff.1 huses)

theorem recent_performAll (h : Recent size budget (ts.map Touch.key) c) (hts : Grounded ts)
    {qs : List Request} (hqs : ∀ q ∈ qs, q.Fills size) (hfits : c.Countable qs) :
    Recent size budget ((ts ++ c.touches qs).map Touch.key) (c.performAll qs).2 ∧
      Grounded (ts ++ c.touches qs) := by
  induction qs generalizing c ts with
  | nil =>
      rw [touches, List.append_nil]
      exact ⟨h, hts⟩
  | cons q qs ih =>
      rw [List.forall_mem_cons] at hqs
      have hstep := h.perform hqs.1 hfits.1
      rw [← List.map_append] at hstep
      have hrest := ih hstep (h.grounded hts q) hqs.2 hfits.2
      rwa [List.append_assoc] at hrest

/-- Look-ups and puts leave in the cache the keys that were touched last, from the latest on, as
long as their blocks fit the budget together. -/
theorem residents_are_latest_that_fit (budget : UInt64) (size : BlockKey → Nat)
    (qs : List Request) (hqs : ∀ q ∈ qs, q.Fills size)
    (hfits : (withBudget budget).Countable qs) :
    let c := ((withBudget budget).performAll qs).2
    let ts := (withBudget budget).touches qs
    let order := latest (ts.map Touch.key)
    order.Pairwise (LaterIn (ts.map Touch.key)) ∧
      (∀ key, key ∈ order ↔ .insertion key ∈ ts) ∧
      LongestWithin size budget.toNat order c.residents ∧
      ∀ newer key older, order = newer ++ key :: older →
        (key ∈ c.residents ↔ weight size (newer ++ [key]) ≤ budget.toNat) := by
  intro c ts order
  have hnone : Grounded [] := fun t ht => by cases ht
  obtain ⟨hrecent, hgrounded⟩ :=
    recent_performAll (recent_withBudget size budget) hnone hqs hfits
  have hlongest : LongestWithin size budget.toNat order c.residents := hrecent.longest
  refine ⟨pairwise_latest _, fun key => mem_latest.trans hgrounded.mem_iff, hlongest, ?_⟩
  intro newer key older hsplit
  have hd : order.Nodup := nodup_latest _
  rw [hsplit] at hlongest hd
  exact hlongest.mem_iff hd

theorem evicted_key_is_resident_again :
    let key : UInt64 → BlockKey := fun index => ⟨⟨"b", "k"⟩, index⟩
    let size : BlockKey → Nat := fun key =>
      if key.index = 1 then 0 else if key.index = 3 then 5 else 2
    let qs : List Request := [.put (key 0) ⟨#[1, 2]⟩, .put (key 1) ⟨#[]⟩, .put (key 2) ⟨#[3, 4]⟩,
      .get (key 1), .put (key 3) ⟨#[5, 6, 7, 8, 9]⟩, .get (key 0), .put (key 0) ⟨#[1, 3]⟩,
      .put (key 1) ⟨#[]⟩, .get (key 0)]
    let c := ((withBudget 3).performAll qs).2
    let order := latest (((withBudget 3).touches qs).map Touch.key)
    (∀ q ∈ qs, q.Fills size) ∧ (withBudget 3).Countable qs ∧
      order = [key 0, key 1, key 3, key 2] ∧ c.residents = [key 0, key 1] ∧
      LongestWithin size (3 : UInt64).toNat order c.residents := by
  intro key size qs c order
  have hqs : ∀ q ∈ qs, q.Fills size := by decide
  have hfits : (withBudget 3).Countable qs := by decide
  have horder : order = [key 0, key 1, key 3, key 2] := by decide
  have hresidents : c.residents = [key 0, key 1] := by decide
  exact ⟨hqs, hfits, horder, hresidents, (residents_are_latest_that_fit 3 size qs hqs hfits).2.2.1⟩

end ObjectCache.BlockCache
