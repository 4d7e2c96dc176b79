import Mathlib.Data.List.Nodup
import Mathlib.Data.List.Perm.Subperm
import ObjectCache.Proofs.Cache.BlockGenerations

namespace ObjectCache.BlockCache

namespace Request

def isPut : Request → Bool
  | put .. => true
  | putIfCurrent .. => true
  | _ => false

def isInvalidation : Request → Bool
  | invalidate _ => true
  | _ => false

def isClear : Request → Bool
  | clear => true
  | _ => false

end Request

def inserted? (c : BlockCache) : Request → Option Block
  | .put key data => if c.find? key = none then some ⟨key, data⟩ else none
  | .putIfCurrent key data token =>
      if c.generation key.object = token ∧ c.find? key = none then some ⟨key, data⟩ else none
  | _ => none

def received (c : BlockCache) (q : Request) : List Block := c.blocks ++ (c.inserted? q).toList

def departed (c : BlockCache) (q : Request) : List Block :=
  (c.received q).filter fun b => ((c.perform q).2.find? b.key).isNone

def insertions (c : BlockCache) : List Request → List Block
  | [] => []
  | q :: qs => (c.inserted? q).toList ++ (c.perform q).2.insertions qs

def departures (c : BlockCache) : List Request → List (Request × Block)
  | [] => []
  | q :: qs => (c.departed q).map (q, ·) ++ (c.perform q).2.departures qs

variable {c d : BlockCache} {q : Request} {b : Block} {bs : List Block}

inductive Moves (c : BlockCache) (q : Request) : Prop
  | takesIn (b : Block) (isPut : q.isPut) (inserted : c.inserted? q = some b)
      (missing : c.find? b.key = none) (after : (c.perform q).2 = (c.put b.key b.data).1)
  | keeps (inserted : c.inserted? q = none) (blocks : (c.perform q).2.blocks.Perm c.blocks)
      (evictions : (c.perform q).2.evictions = c.evictions)
  | removes (isPut : q.isPut = false) (inserted : c.inserted? q = none)
      (blocks : (c.perform q).2.blocks.Sublist c.blocks)
      (evictions : (c.perform q).2.evictions = c.evictions)

theorem blocks_get_perm (h : c.Distinct) (key : BlockKey) :
    (c.get key).2.blocks.Perm c.blocks := by
  cases hf : c.find? key with
  | none => rw [get_of_missing hf]
  | some b =>
      obtain ⟨hb, rfl⟩ := mem_of_find? hf
      have hsplit := List.filter_append_perm (fun a => a.key ≠ b.key) c.blocks
      rw [get_of_find? hf]
      simpa [filter_key_eq h hb] using hsplit

theorem moves_of_put (key : BlockKey) (data : ByteArray) (hput : q.isPut)
    (hin : c.inserted? q = c.inserted? (.put key data))
    (hafter : (c.perform q).2 = (c.put key data).1) : c.Moves q := by
  cases hf : c.find? key with
  | none => exact .takesIn ⟨key, data⟩ hput (hin.trans (if_pos hf)) hf hafter
  | some b =>
      rw [put_of_find? hf] at hafter
      have hresident : c.find? key ≠ none := by simp [hf]
      exact .keeps (hin.trans (if_neg hresident)) (by rw [hafter]) (by rw [hafter])

theorem moves (h : c.Distinct) (q : Request) : c.Moves q := by
  cases q with
  | get key =>
      refine .keeps rfl (blocks_get_perm h key) ?_
      cases hf : c.find? key with
      | none => simp only [perform, get_of_missing hf]
      | some b => simp only [perform, get_of_find? hf]
  | put key data => exact moves_of_put key data rfl rfl rfl
  | putIfCurrent key data token =>
      by_cases hcurrent : c.generation key.object = token
      · refine moves_of_put key data rfl ?_ ?_
        · simp only [inserted?, hcurrent, true_and]
        · simp only [perform, putIfCurrent_of_current data hcurrent]
      · refine .keeps (if_neg fun hin => hcurrent hin.1) ?_ ?_
        · simp only [perform, putIfCurrent_of_stale data hcurrent, List.Perm.refl]
        · simp only [perform, putIfCurrent_of_stale data hcurrent]
  | generation o => exact .keeps rfl (.refl _) rfl
  | invalidate o => exact .removes rfl rfl List.filter_sublist rfl
  | clear => exact .removes rfl rfl (List.nil_sublist _) rfl

theorem received_of_some (h : c.inserted? q = some b) : c.received q = c.blocks ++ [b] := by
  rw [received, h, Option.toList_some]

theorem received_of_none (h : c.inserted? q = none) : c.received q = c.blocks := by
  rw [received, h, Option.toList_none, List.append_nil]

theorem nodup_received (h : c.Distinct) (q : Request) : ((c.received q).map Block.key).Nodup := by
  refine List.pairwise_map.2 ?_
  cases moves h q with
  | takesIn b _ hin hmissing _ =>
      rw [received_of_some hin]
      exact h.concat hmissing
  | keeps hin _ _ =>
      rw [received_of_none hin]
      exact h
  | removes _ hin _ _ =>
      rw [received_of_none hin]
      exact h

theorem subperm_received (h : c.Distinct) (q : Request) :
    (c.perform q).2.blocks.Subperm (c.received q) := by
  cases moves h q with
  | takesIn b _ hin hmissing hafter =>
      rw [received_of_some hin, hafter, put_of_missing hmissing]
      exact (sublist_takeIn c b).subperm
  | keeps hin hblocks _ =>
      rw [received_of_none hin]
      exact hblocks.subperm
  | removes _ hin hblocks _ =>
      rw [received_of_none hin]
      exact hblocks.subperm

theorem nodup_of_subperm (hbs : (bs.map Block.key).Nodup) (hd : d.blocks.Subperm bs) :
    (d.blocks.map Block.key).Nodup := by
  obtain ⟨kept, hperm, hsub⟩ := hd
  exact (hperm.map Block.key).nodup_iff.1 (hbs.sublist (hsub.map Block.key))

theorem distinct_perform (h : c.Distinct) (q : Request) : (c.perform q).2.Distinct :=
  List.pairwise_map.1 (nodup_of_subperm (nodup_received h q) (subperm_received h q))

theorem perm_append_missing (hbs : (bs.map Block.key).Nodup) (hd : d.blocks.Subperm bs) :
    bs.Perm (d.blocks ++ bs.filter fun b => (d.find? b.key).isNone) := by
  have hkeys := nodup_of_subperm hbs hd
  have hdistinct : d.Distinct := List.pairwise_map.1 hkeys
  have hkept : d.blocks.Perm (bs.filter fun b => (d.find? b.key).isSome) := by
    rw [List.perm_ext_iff_of_nodup hkeys.of_map (hbs.of_map.filter _)]
    intro b
    rw [List.mem_filter]
    constructor
    · intro hb
      exact ⟨hd.subset hb, by rw [hdistinct.find? hb, Option.isSome_some]⟩
    · rintro ⟨hb, hfound⟩
      obtain ⟨a, ha⟩ := Option.isSome_iff_exists.1 hfound
      obtain ⟨hmem, hkey⟩ := mem_of_find? ha
      exact List.inj_on_of_nodup_map hbs (hd.subset hmem) hb hkey ▸ hmem
  have hsplit := List.filter_append_perm (fun b => (d.find? b.key).isSome) bs
  simp only [Option.not_isSome] at hsplit
  exact hsplit.symm.trans (hkept.symm.append_right _)

theorem received_perm (h : c.Distinct) (q : Request) :
    (c.received q).Perm ((c.perform q).2.blocks ++ c.departed q) :=
  perm_append_missing (nodup_received h q) (subperm_received h q)

theorem departed_of_perm (h : c.Distinct) (hin : c.inserted? q = none)
    (hblocks : (c.perform q).2.blocks.Perm c.blocks) : c.departed q = [] := by
  have hlength := (received_perm h q).length_eq
  rw [received_of_none hin, List.length_append, hblocks.length_eq, Nat.left_eq_add] at hlength
  exact List.eq_nil_of_length_eq_zero hlength

theorem evictions_put {key : BlockKey} (hmissing : c.find? key = none) (data : ByteArray) :
    (c.put key data).1.evictions + (c.put key data).1.blocks.length =
      c.evictions + c.blocks.length + 1 := by
  have hsplit := evictOver_append c.budget (c.total + (⟨key, data⟩ : Block).size)
    (c.blocks ++ [⟨key, data⟩])
  have hlength := congrArg List.length hsplit
  rw [List.length_append, List.length_append, List.length_singleton] at hlength
  rw [put_of_missing hmissing, takeIn, Nat.add_assoc, Nat.add_assoc, hlength]

theorem evictions_perform (h : c.Distinct) (q : Request) :
    (c.perform q).2.evictions = c.evictions + if q.isPut then (c.departed q).length else 0 := by
  cases moves h q with
  | takesIn b hput hin hmissing hafter =>
      have hlength := (received_perm h q).length_eq
      have hcounted := evictions_put hmissing b.data
      rw [received_of_some hin, hafter, List.length_append, List.length_append,
        List.length_singleton] at hlength
      rw [hafter, if_pos hput]
      omega
  | keeps hin hblocks hevictions =>
      rw [hevictions, departed_of_perm h hin hblocks, List.length_nil, ite_self, Nat.add_zero]
  | removes hput _ _ hevictions =>
      rw [hevictions, hput, if_neg Bool.false_ne_true, Nat.add_zero]

theorem length_departed (h : c.Distinct) (q : Request) :
    (c.departed q).length = (if q.isPut then (c.departed q).length else 0) +
      (if q.isInvalidation then (c.departed q).length else 0) +
      if q.isClear then (c.departed q).length else 0 := by
  cases q with
  | get key =>
      have hnone : c.departed (.get key) = [] := departed_of_perm h rfl (blocks_get_perm h key)
      rw [hnone]
      rfl
  | generation o =>
      have hnone : c.departed (.generation o) = [] := departed_of_perm h rfl (.refl _)
      rw [hnone]
      rfl
  | _ => simp [Request.isPut, Request.isInvalidation, Request.isClear]

theorem insertions_perm (h : c.Distinct) (qs : List Request) :
    (c.blocks ++ c.insertions qs).Perm
      ((c.performAll qs).2.blocks ++ (c.departures qs).map Prod.snd) := by
  induction qs generalizing c with
  | nil => rfl
  | cons q qs ih =>
      have hstep := (received_perm h q).append_right ((c.perform q).2.insertions qs)
      have hrest := (ih (distinct_perform h q)).append_left (c.departed q)
      have hsnd : ((c.departed q).map (q, ·)).map Prod.snd = c.departed q := by
        simp [Function.comp_def]
      rw [performAll, insertions, departures, List.map_append, hsnd, ← List.append_assoc]
      rw [List.append_assoc (c.perform q).2.blocks] at hstep
      -- what leaves with the first request goes in front of the rest of the run and back behind it
      have hfront := hstep.trans (List.perm_append_comm_assoc _ _ _)
      exact (hfront.trans hrest).trans (List.perm_append_comm_assoc _ _ _)

theorem countP_departed (c : BlockCache) (q : Request) (p : Request → Bool) :
    ((c.departed q).map (q, ·)).countP (p ·.1) = if p q then (c.departed q).length else 0 := by
  rw [List.countP_map]
  cases h : p q <;> simp [h, Function.comp_def]

theorem evictions_performAll (h : c.Distinct) (qs : List Request) :
    (c.performAll qs).2.evictions = c.evictions + (c.departures qs).countP (·.1.isPut) := by
  induction qs generalizing c with
  | nil => rfl
  | cons q qs ih =>
      have hrest := ih (distinct_perform h q)
      rw [evictions_perform h, Nat.add_assoc] at hrest
      rw [performAll, departures, List.countP_append, countP_departed, hrest]

theorem length_departures (h : c.Distinct) (qs : List Request) :
    (c.departures qs).length = (c.departures qs).countP (·.1.isPut) +
      (c.departures qs).countP (·.1.isInvalidation) + (c.departures qs).countP (·.1.isClear) := by
  induction qs generalizing c with
  | nil => rfl
  | cons q qs ih =>
      have hrest := ih (distinct_perform h q)
      have hone := length_departed h q
      simp only [departures, List.length_append, List.length_map, List.countP_append,
        countP_departed]
      omega

end ObjectCache.BlockCache
