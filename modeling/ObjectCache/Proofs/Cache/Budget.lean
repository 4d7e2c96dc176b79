import Mathlib.Logic.Relation
import ObjectCache.Proofs.Cache.Requests

namespace ObjectCache.BlockCache

structure Balanced (budget : UInt64) (c : BlockCache) : Prop where
  accurate : c.Accurate
  budget_eq : c.budget = budget
  within : c.total ≤ budget

structure Eviction where
  total : UInt64
  blocks : List Block

inductive Drops (budget : UInt64) : Eviction → Eviction → Prop
  | front {total : UInt64} {b : Block} {bs : List Block} (h : budget < total) :
      Drops budget ⟨total, b :: bs⟩ ⟨total - b.size, bs⟩

def Eviction.Covered (budget : UInt64) (e : Eviction) : Prop :=
  budget < e.total →
    ∃ b bs, e.blocks = b :: bs ∧ (e.total - b.size).toNat + b.data.size = e.total.toNat

variable {budget total : UInt64} {bs : List Block} {c : BlockCache}

theorem Drops.exact {e f : Eviction} (h : Drops budget e f) (he : e.total.toNat = bytes e.blocks) :
    f.total.toNat = bytes f.blocks := by
  cases h with
  | front _ => exact toNat_sub_size he

theorem exact_of_drops {e f : Eviction} (h : Relation.ReflTransGen (Drops budget) e f)
    (he : e.total.toNat = bytes e.blocks) : f.total.toNat = bytes f.blocks := by
  induction h with
  | refl => exact he
  | tail _ hdrop ih => exact hdrop.exact ih

theorem covered_of_exact {e : Eviction} (he : e.total.toNat = bytes e.blocks) :
    e.Covered budget := by
  obtain ⟨total, bs⟩ := e
  intro hover
  cases bs with
  | nil =>
      rw [UInt64.lt_iff_toNat_lt, he] at hover
      exact absurd hover (Nat.not_lt_zero _)
  | cons b bs =>
      refine ⟨b, bs, rfl, ?_⟩
      rw [toNat_sub_size he, he, bytes_cons, Nat.add_comm]

theorem drops_evictOver (budget total : UInt64) (bs : List Block) :
    Relation.ReflTransGen (Drops budget) ⟨total, bs⟩
      ⟨(evictOver budget total bs).2.2, (evictOver budget total bs).2.1⟩ := by
  induction bs generalizing total with
  | nil => exact .refl
  | cons b bs ih =>
      rw [evictOver]
      split
      · rename_i hover
        exact (ih (total - b.size)).head (.front hover)
      · exact .refl

theorem total_evictOver_le (h : total.toNat = bytes bs) :
    (evictOver budget total bs).2.2 ≤ budget := by
  induction bs generalizing total with
  | nil =>
      rw [UInt64.le_iff_toNat_le, evictOver, h]
      exact Nat.zero_le _
  | cons b bs ih =>
      rw [evictOver]
      split
      · exact ih (toNat_sub_size h)
      · rename_i hfits
        exact UInt64.not_lt.1 hfits

theorem Accurate.toNat_total_invalidate (h : c.Accurate) (o : ObjectName) :
    (c.invalidate o).1.total.toNat + bytes (c.blocks.filter (·.key.object = o)) =
      c.total.toNat := by
  have hsum := bytes_filter_add (fun b => b.key.object = o) c.blocks
  have hkept : (c.invalidate o).1.blocks =
      c.blocks.filter fun b => !decide (b.key.object = o) := by
    simp [BlockCache.invalidate]
  rw [(h.invalidate o).total, h.total, hkept]
  omega

theorem balanced_withBudget (budget : UInt64) : (withBudget budget).Balanced budget :=
  ⟨accurate_withBudget budget, rfl, UInt64.zero_le⟩

theorem Balanced.get (h : c.Balanced budget) (key : BlockKey) :
    (c.get key).2.Balanced budget := by
  have haccurate := h.accurate.get key
  cases hf : c.find? key with
  | none =>
      rw [get_of_missing hf] at haccurate ⊢
      exact ⟨haccurate, h.budget_eq, h.within⟩
  | some b =>
      rw [get_of_find? hf] at haccurate ⊢
      exact ⟨haccurate, h.budget_eq, h.within⟩

theorem Balanced.put (h : c.Balanced budget) (key : BlockKey) {data : ByteArray}
    (hfits : bytes c.blocks + data.size < UInt64.size) : (c.put key data).1.Balanced budget := by
  have haccurate := h.accurate.put key hfits
  cases hf : c.find? key with
  | some b =>
      rw [put_of_find? hf]
      exact h
  | none =>
      rw [put_of_missing hf] at haccurate ⊢
      have hincoming := h.accurate.toNat_incoming (b := ⟨key, data⟩) hfits
      refine ⟨haccurate, h.budget_eq, ?_⟩
      rw [← h.budget_eq]
      exact total_evictOver_le hincoming

theorem Balanced.invalidate (h : c.Balanced budget) (o : ObjectName) :
    (c.invalidate o).1.Balanced budget := by
  refine ⟨h.accurate.invalidate o, h.budget_eq, ?_⟩
  have hwithin := h.within
  have htotal := h.accurate.toNat_total_invalidate o
  rw [UInt64.le_iff_toNat_le] at hwithin ⊢
  omega

theorem Balanced.clear (h : c.Balanced budget) : c.clear.Balanced budget :=
  ⟨accurate_clear c, h.budget_eq, UInt64.zero_le⟩

theorem Balanced.perform (h : c.Balanced budget) (q : Request)
    (hfits : bytes c.blocks + q.incoming < UInt64.size) : (c.perform q).2.Balanced budget := by
  cases q with
  | get key => exact h.get key
  | put key data => exact h.put key hfits
  | putIfCurrent key data generation =>
      simp only [BlockCache.perform, putIfCurrent]
      split
      · exact h.put key hfits
      · exact h
  | generation o => exact h
  | invalidate o => exact h.invalidate o
  | clear => exact h.clear

theorem Balanced.performAll (h : c.Balanced budget) (qs : List Request)
    (hfits : c.Countable qs) : (c.performAll qs).2.Balanced budget := by
  induction qs generalizing c with
  | nil => exact h
  | cons q qs ih => exact ih (h.perform q hfits.1) hfits.2

def incoming (c : BlockCache) (b : Block) : Eviction := ⟨c.total + b.size, c.blocks ++ [b]⟩

/-- What is taken from the total, whether an invalidation frees it or it makes room, never exceeds
it. Making room goes by single drops and ends within the budget. -/
structure Solvent (budget : UInt64) (c : BlockCache) : Prop where
  distinct : c.blocks.Pairwise fun a b => a.key ≠ b.key
  total : c.total.toNat = bytes c.blocks
  within : c.total ≤ budget
  freed : ∀ o, (c.invalidate o).1.total.toNat + bytes (c.blocks.filter (·.key.object = o)) =
    c.total.toNat
  covered : ∀ b, c.find? b.key = none → bytes c.blocks + b.data.size < UInt64.size →
    ∀ e, Relation.ReflTransGen (Drops budget) (c.incoming b) e → e.Covered budget
  settled : ∀ b, c.find? b.key = none → bytes c.blocks + b.data.size < UInt64.size →
    Relation.ReflTransGen (Drops budget) (c.incoming b)
        ⟨(c.put b.key b.data).1.total, (c.put b.key b.data).1.blocks⟩ ∧
      (c.put b.key b.data).1.total ≤ budget

theorem Balanced.drops_put (h : c.Balanced budget) {b : Block} (hmissing : c.find? b.key = none) :
    Relation.ReflTransGen (Drops budget) (c.incoming b)
      ⟨(c.put b.key b.data).1.total, (c.put b.key b.data).1.blocks⟩ := by
  have hdrops := drops_evictOver c.budget (c.total + b.size) (c.blocks ++ [b])
  rw [put_of_missing hmissing, takeIn, ← h.budget_eq]
  exact hdrops

theorem Balanced.solvent (h : c.Balanced budget) : c.Solvent budget where
  distinct := h.accurate.distinct
  total := h.accurate.total
  within := h.within
  freed := h.accurate.toNat_total_invalidate
  covered _ _ hb _ he := covered_of_exact (exact_of_drops he (h.accurate.toNat_incoming hb))
  settled b hmissing hb := ⟨h.drops_put hmissing, (h.put b.key hb).within⟩

theorem solvent_performAll (budget : UInt64) (qs : List Request)
    (hfits : (withBudget budget).Countable qs) :
    ((withBudget budget).performAll qs).2.Solvent budget := by
  have hbalanced := (balanced_withBudget budget).performAll qs hfits
  exact hbalanced.solvent

theorem full_cache_is_solvent :
    let key : UInt64 → BlockKey := fun index => ⟨⟨"b", "k"⟩, index⟩
    let qs : List Request := [.put (key 0) ⟨#[1, 2]⟩, .put (key 1) ⟨#[3, 4]⟩, .get (key 0),
      .invalidate ⟨"b", "j"⟩, .putIfCurrent (key 2) ⟨#[5]⟩ 0]
    let c := ((withBudget 3).performAll qs).2
    (withBudget 3).Countable qs ∧ c.find? (key 3) = none ∧
      bytes c.blocks + 3 < UInt64.size ∧ c.Solvent 3 := by
  intro key qs c
  have hfits : (withBudget 3).Countable qs := by decide
  have hmissing : c.find? (key 3) = none := by decide
  have hroom : bytes c.blocks + 3 < UInt64.size := by decide
  exact ⟨hfits, hmissing, hroom, solvent_performAll 3 qs hfits⟩

end ObjectCache.BlockCache
