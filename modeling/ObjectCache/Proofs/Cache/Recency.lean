import Mathlib.Data.Nat.Find
import ObjectCache.Proofs.Cache.Requests

namespace ObjectCache

structure IdealCache where
  budget : Nat
  entries : List Block
  invalidated : List ObjectName
  cut : Nat

namespace IdealCache

open BlockCache (Request Reply bytes bytes_nil bytes_cons bytes_append bytes_reverse evictOver
  evictionEvent)

def empty (budget : Nat) : IdealCache := ⟨budget, [], [], 0⟩

def find? (s : IdealCache) (key : BlockKey) : Option Block := s.entries.find? (·.key = key)

def fitting (budget : Nat) (bs : List Block) : List Block :=
  bs.take (Nat.findGreatest (fun n => bytes (bs.take n) ≤ budget) bs.length)

def beyond (budget : Nat) (bs : List Block) : List Block := bs.drop (fitting budget bs).length

def get (s : IdealCache) (key : BlockKey) : Option ByteArray × IdealCache :=
  match s.find? key with
  | some b => (some b.data, { s with entries := b :: s.entries.filter (·.key ≠ key) })
  | none => (none, s)

def put (s : IdealCache) (key : BlockKey) (data : ByteArray) : IdealCache × List Event :=
  if (s.find? key).isSome then (s, [])
  else
    let all := ⟨key, data⟩ :: s.entries
    ({ s with
        entries := fitting s.budget all
        cut := s.cut + (beyond s.budget all).length },
      (beyond s.budget all).reverse.map evictionEvent)

def invalidate (s : IdealCache) (o : ObjectName) : IdealCache × List Event :=
  let stale := s.entries.filter (·.key.object = o)
  ({ s with
      entries := s.entries.filter (·.key.object ≠ o)
      invalidated := o :: s.invalidated },
    [.blocksInvalidated o stale.length (UInt64.ofNat (bytes stale))])

def perform (s : IdealCache) : Request → Reply × IdealCache
  | .get key => (.found (s.get key).1, (s.get key).2)
  | .put key data => (.taken true (s.put key data).2, (s.put key data).1)
  | .putIfCurrent key data generation =>
      if s.invalidated.count key.object = generation then
        (.taken true (s.put key data).2, (s.put key data).1)
      else (.taken false [], s)
  | .generation o => (.generation (s.invalidated.count o), s)
  | .invalidate o => (.done (s.invalidate o).2, (s.invalidate o).1)
  | .clear => (.done [], { s with entries := [] })

def performAll (s : IdealCache) : List Request → List Reply × IdealCache
  | [] => ([], s)
  | q :: qs =>
      let (reply, s) := s.perform q
      let (replies, s) := s.performAll qs
      (reply :: replies, s)

theorem fitting_of_le {budget : Nat} {bs : List Block} (h : bytes bs ≤ budget) :
    fitting budget bs = bs := by
  have hall : bytes (bs.take bs.length) ≤ budget := by rwa [List.take_length]
  have hn := Nat.findGreatest_eq (P := fun n => bytes (bs.take n) ≤ budget) hall
  rw [fitting, hn, List.take_length]

theorem fitting_concat_of_lt {budget : Nat} {bs : List Block} {b : Block}
    (h : budget < bytes (bs ++ [b])) : fitting budget (bs ++ [b]) = fitting budget bs := by
  have hbound : Nat.findGreatest (fun n => bytes (bs.take n) ≤ budget) bs.length ≤ bs.length :=
    Nat.findGreatest_le _
  have heq : Nat.findGreatest (fun n => bytes ((bs ++ [b]).take n) ≤ budget) (bs ++ [b]).length =
      Nat.findGreatest (fun n => bytes (bs.take n) ≤ budget) bs.length := by
    rw [Nat.findGreatest_eq_iff]
    obtain ⟨hle, hfits, hmore⟩ := Nat.findGreatest_eq_iff.1
      (rfl : Nat.findGreatest (fun n => bytes (bs.take n) ≤ budget) bs.length = _)
    refine ⟨?_, ?_, ?_⟩
    · rw [List.length_append]
      omega
    · intro hne
      rw [List.take_append_of_le_length hle]
      exact hfits hne
    · intro n hn hn'
      by_cases hlast : n ≤ bs.length
      · rw [List.take_append_of_le_length hlast]
        exact hmore hn hlast
      · rw [List.take_of_length_le (by simp; omega)]
        exact Nat.not_le.2 h
  rw [fitting, heq, List.take_append_of_le_length hbound, fitting]

theorem fitting_append_beyond (budget : Nat) (bs : List Block) :
    fitting budget bs ++ beyond budget bs = bs := by
  rw [beyond]
  conv => lhs; lhs; rw [fitting]
  rw [fitting, List.length_take, Nat.min_eq_left (Nat.findGreatest_le _), List.take_append_drop]

theorem kept_evictOver (budget : UInt64) {total : UInt64} {bs : List Block}
    (h : total.toNat = bytes bs) :
    (evictOver budget total bs).2.1 = (fitting budget.toNat bs.reverse).reverse := by
  induction bs generalizing total with
  | nil => rfl
  | cons b bs ih =>
      have hbytes : bytes (bs.reverse ++ [b]) = total.toNat := by
        rw [h, bytes_append, bytes_reverse, bytes_cons, bytes_cons, bytes_nil]
        omega
      rw [evictOver, List.reverse_cons]
      split
      -- the oldest block goes, and the list that is cut does not reach it either
      · rename_i hover
        rw [UInt64.lt_iff_toNat_lt, ← hbytes] at hover
        rw [fitting_concat_of_lt hover]
        exact ih (BlockCache.toNat_sub_size h)
      · rename_i hfits
        rw [UInt64.not_lt, UInt64.le_iff_toNat_le, ← hbytes] at hfits
        rw [fitting_of_le hfits]
        simp

theorem dropped_evictOver (budget : UInt64) {total : UInt64} {bs : List Block}
    (h : total.toNat = bytes bs) :
    (evictOver budget total bs).1 = (beyond budget.toNat bs.reverse).reverse := by
  have hwhole := BlockCache.evictOver_append budget total bs
  have hideal := congrArg List.reverse (fitting_append_beyond budget.toNat bs.reverse)
  rw [List.reverse_append, List.reverse_reverse] at hideal
  rw [kept_evictOver budget h] at hwhole
  exact List.append_cancel_right (hwhole.trans hideal.symm)

structure Refines (c : BlockCache) (s : IdealCache) : Prop where
  accurate : c.Accurate
  budget : s.budget = c.budget.toNat
  entries : s.entries = c.blocks.reverse
  generations : ∀ o, c.generation o = s.invalidated.count o
  cut : s.cut = c.evictions

variable {c : BlockCache} {s : IdealCache} {key : BlockKey}

theorem Refines.find?_eq (h : Refines c s) (key : BlockKey) : s.find? key = c.find? key := by
  rw [find?, h.entries]
  cases hf : c.find? key with
  | none =>
      have hnone := List.find?_eq_none.1 hf
      rw [List.find?_eq_none]
      intro b hb
      exact hnone b (List.mem_reverse.1 hb)
  | some b =>
      obtain ⟨hb, rfl⟩ := BlockCache.mem_of_find? hf
      have hunique := BlockCache.filter_key_eq h.accurate.distinct hb
      rw [← List.head?_filter, List.filter_reverse, hunique]
      rfl

theorem Refines.get (h : Refines c s) (key : BlockKey) :
    (c.get key).1 = (s.get key).1 ∧ Refines (c.get key).2 (s.get key).2 := by
  have haccurate := h.accurate.get key
  have hfind := h.find?_eq key
  cases hf : c.find? key with
  | none =>
      rw [hf] at hfind
      rw [BlockCache.get_of_missing hf] at haccurate ⊢
      rw [IdealCache.get, hfind]
      exact ⟨rfl, haccurate, h.budget, h.entries, h.generations, h.cut⟩
  | some b =>
      rw [hf] at hfind
      rw [BlockCache.get_of_find? hf] at haccurate ⊢
      rw [IdealCache.get, hfind]
      refine ⟨rfl, haccurate, h.budget, ?_, h.generations, h.cut⟩
      simp [h.entries, List.filter_reverse]

theorem Refines.put (h : Refines c s) (key : BlockKey) {data : ByteArray}
    (hfits : bytes c.blocks + data.size < UInt64.size) :
    (c.put key data).2 = (s.put key data).2 ∧ Refines (c.put key data).1 (s.put key data).1 := by
  have haccurate := h.accurate.put key hfits
  have hfind := h.find?_eq key
  cases hf : c.find? key with
  | some b =>
      rw [BlockCache.put_of_find? hf, IdealCache.put, hfind, hf]
      exact ⟨rfl, h⟩
  | none =>
      have htotal := h.accurate.toNat_incoming (b := ⟨key, data⟩) hfits
      have hall : (c.blocks ++ [(⟨key, data⟩ : Block)]).reverse = ⟨key, data⟩ :: s.entries := by
        simp [h.entries]
      have hkept := kept_evictOver c.budget htotal
      have hdropped := dropped_evictOver c.budget htotal
      rw [hall, ← h.budget] at hkept hdropped
      rw [BlockCache.put_of_missing hf] at haccurate ⊢
      simp only [IdealCache.put, hfind, hf, Option.isSome_none, Bool.false_eq_true, if_false]
      refine ⟨?_, haccurate, h.budget, ?_, ?_, ?_⟩
      · rw [BlockCache.takeIn, hdropped]
      · rw [BlockCache.takeIn, hkept, List.reverse_reverse]
      · exact h.generations
      · rw [BlockCache.takeIn, hdropped, List.length_reverse, h.cut]

theorem Refines.invalidate (h : Refines c s) (o : ObjectName) :
    (c.invalidate o).2 = (s.invalidate o).2 ∧
      Refines (c.invalidate o).1 (s.invalidate o).1 := by
  have hfreed := h.accurate.toNat_freed fun b => b.key.object = o
  constructor
  · simp only [BlockCache.invalidate, IdealCache.invalidate, h.entries, List.filter_reverse,
      List.length_reverse, bytes_reverse]
    rw [← hfreed, UInt64.ofNat_toNat]
  · refine ⟨h.accurate.invalidate o, h.budget, ?_, ?_, h.cut⟩
    · simp [BlockCache.invalidate, IdealCache.invalidate, h.entries, List.filter_reverse]
    · intro p
      rw [BlockCache.generation_invalidate, h.generations, IdealCache.invalidate, List.count_cons]
      by_cases hp : p = o
      · simp [hp]
      · simp [hp, Ne.symm hp]

theorem Refines.clear (h : Refines c s) : Refines c.clear { s with entries := [] } :=
  ⟨BlockCache.accurate_clear c, h.budget, rfl, h.generations, h.cut⟩

theorem refines_perform (h : Refines c s) (q : Request)
    (hfits : bytes c.blocks + q.incoming < UInt64.size) :
    (c.perform q).1 = (s.perform q).1 ∧ Refines (c.perform q).2 (s.perform q).2 := by
  cases q with
  | get key =>
      obtain ⟨hreply, hrefines⟩ := h.get key
      exact ⟨congrArg Reply.found hreply, hrefines⟩
  | put key data =>
      obtain ⟨hreply, hrefines⟩ := h.put key hfits
      exact ⟨congrArg (Reply.taken true) hreply, hrefines⟩
  | putIfCurrent key data generation =>
      simp only [BlockCache.perform, BlockCache.putIfCurrent, perform, ← h.generations]
      split
      · obtain ⟨hreply, hrefines⟩ := h.put key hfits
        exact ⟨congrArg (Reply.taken true) hreply, hrefines⟩
      · exact ⟨rfl, h⟩
  | generation o => exact ⟨congrArg Reply.generation (h.generations o), h⟩
  | invalidate o =>
      obtain ⟨hreply, hrefines⟩ := h.invalidate o
      exact ⟨congrArg Reply.done hreply, hrefines⟩
  | clear => exact ⟨rfl, h.clear⟩

theorem refines_performAll (h : Refines c s) (qs : List Request) (hfits : c.Countable qs) :
    (c.performAll qs).1 = (s.performAll qs).1 ∧
      Refines (c.performAll qs).2 (s.performAll qs).2 := by
  induction qs generalizing c s with
  | nil => exact ⟨rfl, h⟩
  | cons q qs ih =>
      obtain ⟨hreply, hrefines⟩ := refines_perform h q hfits.1
      obtain ⟨hreplies, hrest⟩ := ih hrefines hfits.2
      exact ⟨congrArg₂ List.cons hreply hreplies, hrest⟩

/-- Whatever is asked of it, a block cache answers and reports as the list does, keeps the same
blocks in the same order, and counts what was cut off. -/
theorem cache_performs_as_list (budget : UInt64) (qs : List Request)
    (hfits : (BlockCache.withBudget budget).Countable qs) :
    let run := (BlockCache.withBudget budget).performAll qs
    let ideal := (IdealCache.empty budget.toNat).performAll qs
    run.1 = ideal.1 ∧ run.2.blocks.reverse = ideal.2.entries ∧ run.2.evictions = ideal.2.cut := by
  have hempty : Refines (.withBudget budget) (.empty budget.toNat) :=
    ⟨BlockCache.accurate_withBudget budget, rfl, rfl, fun _ => rfl, rfl⟩
  obtain ⟨hreplies, hrefines⟩ := refines_performAll hempty qs hfits
  exact ⟨hreplies, hrefines.entries.symm, hrefines.cut.symm⟩

theorem full_cache_performs_as_list :
    let key : UInt64 → BlockKey := fun index => ⟨⟨"b", "k"⟩, index⟩
    let qs : List Request := [.put (key 0) ⟨#[1, 2]⟩, .put (key 1) ⟨#[3]⟩, .get (key 0),
      .put (key 2) ⟨#[4]⟩, .invalidate ⟨"b", "j"⟩, .putIfCurrent (key 3) ⟨#[]⟩ 0]
    let run := (BlockCache.withBudget 3).performAll qs
    let ideal := (IdealCache.empty (3 : UInt64).toNat).performAll qs
    (BlockCache.withBudget 3).Countable qs ∧ run.1 = ideal.1 ∧
      run.2.blocks.reverse = ideal.2.entries ∧ run.2.evictions = ideal.2.cut := by
  intro key qs
  have hfits : (BlockCache.withBudget 3).Countable qs := by decide
  exact ⟨hfits, cache_performs_as_list 3 qs hfits⟩

end IdealCache

end ObjectCache
