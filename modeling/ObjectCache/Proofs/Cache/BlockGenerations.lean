import Mathlib.Data.List.Induction
import ObjectCache.Proofs.Cache.Requests

namespace ObjectCache.BlockCache

namespace Request

def invalidated? : Request → Option ObjectName
  | invalidate o => some o
  | _ => none

def Stores (q : Request) (generation : Nat) (b : Block) : Prop :=
  q = put b.key b.data ∨ q = putIfCurrent b.key b.data generation

end Request

def invalidations (qs : List Request) (o : ObjectName) : Nat :=
  (qs.filterMap Request.invalidated?).count o

variable {c : BlockCache} {q : Request} {qs rs : List Request} {o : ObjectName} {key : BlockKey}
  {data : ByteArray} {b : Block} {token : Nat}

theorem invalidations_cons (q : Request) (qs : List Request) (o : ObjectName) :
    invalidations (q :: qs) o =
      (if q.invalidated? = some o then 1 else 0) + invalidations qs o := by
  cases h : q.invalidated? with
  | none => simp [invalidations, h]
  | some p => simp [invalidations, h, List.count_cons, Nat.add_comm]

theorem invalidations_eq_zero_iff : invalidations qs o = 0 ↔ .invalidate o ∉ qs := by
  rw [invalidations, List.count_eq_zero, not_iff_not, List.mem_filterMap]
  constructor
  · rintro ⟨q, hq, ho⟩
    cases q <;> cases ho
    exact hq
  · exact fun h => ⟨.invalidate o, h, rfl⟩

theorem performAll_append (c : BlockCache) (qs rs : List Request) :
    (c.performAll (qs ++ rs)).2 = ((c.performAll qs).2.performAll rs).2 := by
  induction qs generalizing c with
  | nil => rfl
  | cons q qs ih => exact ih (c.perform q).2

theorem performAll_concat (c : BlockCache) (qs : List Request) (q : Request) :
    (c.performAll (qs ++ [q])).2 = ((c.performAll qs).2.perform q).2 :=
  performAll_append c qs [q]

theorem putIfCurrent_of_current (data : ByteArray) (h : c.generation key.object = token) :
    c.putIfCurrent key data token = (true, c.put key data) :=
  if_pos h

theorem putIfCurrent_of_stale (data : ByteArray) (h : c.generation key.object ≠ token) :
    c.putIfCurrent key data token = (false, c, []) :=
  if_neg h

theorem generation_put (c : BlockCache) (key : BlockKey) (data : ByteArray) (o : ObjectName) :
    (c.put key data).1.generation o = c.generation o := by
  simp only [generation, generations_put]

theorem generation_perform (c : BlockCache) (q : Request) (o : ObjectName) :
    (c.perform q).2.generation o =
      c.generation o + if q.invalidated? = some o then 1 else 0 := by
  cases q with
  | get key => exact (within_get c key).generation_eq o
  | put key data => exact generation_put c key data o
  | putIfCurrent key data token =>
      by_cases h : c.generation key.object = token
      · simp only [perform, putIfCurrent_of_current data h]
        exact generation_put c key data o
      · simp only [perform, putIfCurrent_of_stale data h]
        rfl
  | generation p => rfl
  | invalidate p =>
      simp only [Request.invalidated?, Option.some.injEq, eq_comm (a := p)]
      exact generation_invalidate c p o
  | clear => rfl

theorem generation_performAll (c : BlockCache) (qs : List Request) (o : ObjectName) :
    (c.performAll qs).2.generation o = c.generation o + invalidations qs o := by
  induction qs generalizing c with
  | nil => rfl
  | cons q qs ih =>
      have h := ih (c.perform q).2
      rw [generation_perform, Nat.add_assoc, ← invalidations_cons] at h
      exact h

theorem generation_performAll_eq_iff :
    (c.performAll qs).2.generation o = c.generation o ↔ .invalidate o ∉ qs := by
  rw [generation_performAll, Nat.add_eq_left, invalidations_eq_zero_iff]

theorem resident_of_perform (h : b ∈ (c.perform q).2.blocks) :
    (b ∈ c.blocks ∧ q ≠ .invalidate b.key.object) ∨ q.Stores (c.generation b.key.object) b := by
  cases q with
  | get key => exact .inl ⟨(within_get c key).mem b h, Request.noConfusion⟩
  | put key data =>
      rcases mem_of_mem_put h with h | rfl
      · exact .inl ⟨h, Request.noConfusion⟩
      · exact .inr (.inl rfl)
  | putIfCurrent key data token =>
      by_cases hcurrent : c.generation key.object = token
      · simp only [perform, putIfCurrent_of_current data hcurrent] at h
        rcases mem_of_mem_put h with h | rfl
        · exact .inl ⟨h, Request.noConfusion⟩
        · exact .inr (.inr (by rw [hcurrent]))
      · simp only [perform, putIfCurrent_of_stale data hcurrent] at h
        exact .inl ⟨h, Request.noConfusion⟩
  | generation p => exact .inl ⟨h, Request.noConfusion⟩
  | invalidate p =>
      obtain ⟨h, hne⟩ := mem_invalidate.1 h
      exact .inl ⟨h, fun heq => hne (Request.invalidate.inj heq).symm⟩
  | clear => cases h

/-- The block was put, and its object was not invalidated since. -/
def Supplied (c : BlockCache) (qs : List Request) (b : Block) : Prop :=
  ∃ older q newer, qs = older ++ q :: newer ∧
    q.Stores ((c.performAll older).2.generation b.key.object) b ∧
    .invalidate b.key.object ∉ newer

theorem Supplied.concat (h : c.Supplied qs b) (hq : q ≠ .invalidate b.key.object) :
    c.Supplied (qs ++ [q]) b := by
  obtain ⟨older, p, newer, rfl, hp, hnewer⟩ := h
  refine ⟨older, p, newer ++ [q], by simp, hp, ?_⟩
  intro hmem
  rcases List.mem_append.1 hmem with hmem | hmem
  · exact hnewer hmem
  · exact hq (List.mem_singleton.1 hmem).symm

theorem supplied_of_resident (hempty : c.blocks = []) (qs : List Request) :
    ∀ b ∈ (c.performAll qs).2.blocks, c.Supplied qs b := by
  induction qs using List.reverseRecOn with
  | nil =>
      intro b hb
      rw [performAll, hempty] at hb
      cases hb
  | append_singleton qs q ih =>
      intro b hb
      rw [performAll_concat] at hb
      rcases resident_of_perform hb with ⟨hb, hq⟩ | hq
      · exact (ih b hb).concat hq
      · exact ⟨qs, q, [], rfl, hq, List.not_mem_nil⟩

/-- A block is taken in exactly when its object was not invalidated since the generation was asked
for, whatever else was done. So if an object is filled in this way alone, what is found of it was
asked for after it was last invalidated. -/
theorem tokens_detect_invalidations (budget : UInt64) :
    (∀ (before between : List Request) (key : BlockKey) (data : ByteArray) (token : Nat),
      let c := ((withBudget budget).performAll before).2
      let d := (c.performAll between).2
      (c.perform (.generation key.object)).1 = .generation token →
        ((d.putIfCurrent key data token).1 = true ↔ .invalidate key.object ∉ between) ∧
        ((d.putIfCurrent key data token).1 = false →
          d.putIfCurrent key data token = (false, d, [])) ∧
        ((d.putIfCurrent key data token).1 = true →
          d.putIfCurrent key data token = (true, d.put key data))) ∧
    ∀ (qs : List Request) (key : BlockKey) (found : ByteArray),
      (∀ index data, .put ⟨key.object, index⟩ data ∉ qs) →
      (((withBudget budget).performAll qs).2.get key).1 = some found →
        ∃ older newer token, qs = older ++ .putIfCurrent key found token :: newer ∧
          ((withBudget budget).performAll older).2.generation key.object = token ∧
          ∀ first rest, older = first ++ rest →
            (((withBudget budget).performAll first).2.perform (.generation key.object)).1 =
              .generation token →
            .invalidate key.object ∉ rest ++ newer := by
  constructor
  · intro before between key data token c d htoken
    have htoken : c.generation key.object = token := Reply.generation.inj htoken
    by_cases hcurrent : d.generation key.object = token
    · have hnone := generation_performAll_eq_iff.1 (hcurrent.trans htoken.symm)
      rw [putIfCurrent_of_current data hcurrent]
      exact ⟨⟨fun _ => hnone, fun _ => rfl⟩, Bool.noConfusion, fun _ => rfl⟩
    · rw [putIfCurrent_of_stale data hcurrent]
      refine ⟨⟨Bool.noConfusion, ?_⟩, fun _ => rfl, Bool.noConfusion⟩
      intro hnone
      exact absurd ((generation_performAll_eq_iff.2 hnone).trans htoken) hcurrent
  · intro qs key found hfills hfound
    obtain ⟨older, q, newer, rfl, hq, hnewer⟩ := supplied_of_resident rfl qs _ (mem_of_get hfound)
    rcases hq with rfl | rfl
    · exact absurd (List.mem_append_right _ List.mem_cons_self) (hfills key.index found)
    · refine ⟨older, newer, _, rfl, rfl, ?_⟩
      intro first rest hsplit htoken hmem
      subst hsplit
      have hsame := Reply.generation.inj htoken
      rw [performAll_append] at hsame
      rcases List.mem_append.1 hmem with hmem | hmem
      · exact generation_performAll_eq_iff.1 hsame.symm hmem
      · exact hnewer hmem

theorem block_asked_for_too_early_is_refused :
    let key : BlockKey := ⟨⟨"b", "k"⟩, 1⟩
    let between := [.invalidate ⟨"b", "j"⟩, .invalidate key.object, .clear, .generation key.object]
    let qs := between ++ [.putIfCurrent key ⟨#[7]⟩ 1]
    let d := ((withBudget 9).performAll between).2
    d.putIfCurrent key ⟨#[5]⟩ 0 = (false, d, []) ∧ (d.putIfCurrent key ⟨#[7]⟩ 1).1 = true ∧
      (((withBudget 9).performAll qs).2.get key).1 = some ⟨#[7]⟩ ∧
      ∃ older newer token, qs = older ++ .putIfCurrent key ⟨#[7]⟩ token :: newer ∧
        .invalidate key.object ∉ newer := by
  intro key between qs d
  obtain ⟨hputs, hfills⟩ := tokens_detect_invalidations 9
  obtain ⟨hstale, hrefused, -⟩ := hputs [] between key ⟨#[5]⟩ 0 rfl
  obtain ⟨hfresh, -, -⟩ := hputs between [] key ⟨#[7]⟩ 1 rfl
  have hin : .invalidate key.object ∈ between := by simp [between]
  have hfalse : (d.putIfCurrent key ⟨#[5]⟩ 0).1 = false :=
    Bool.eq_false_iff.2 fun htrue => hstale.1 htrue hin
  have hfound : (((withBudget 9).performAll qs).2.get key).1 = some ⟨#[7]⟩ := rfl
  obtain ⟨older, newer, token, hsplit, htoken, hnone⟩ :=
    hfills qs key ⟨#[7]⟩ (by simp [qs, between]) hfound
  have hlast := hnone older [] (List.append_nil older).symm (congrArg Reply.generation htoken)
  exact ⟨hrefused hfalse, hfresh.2 List.not_mem_nil, hfound, older, newer, token, hsplit, hlast⟩

end ObjectCache.BlockCache
