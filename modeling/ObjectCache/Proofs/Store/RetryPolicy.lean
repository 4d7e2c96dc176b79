import Mathlib.Data.ENat.Lattice
import ObjectCache.Http.Exchange
import ObjectCache.Store.Retry

namespace ObjectCache

open Http

namespace StoreError

theorem isTransient_iff {e : StoreError} :
    e.isTransient = true ↔ e = .rateLimited ∨ e = .timeout ∨ (∃ detail, e = .network detail) ∨
      ∃ status detail, e = .server status detail := by
  cases e <;> simp [isTransient]

theorem isTransient_ofStatus (status : UInt16) (detail : String) :
    (ofStatus status detail).isTransient = true ↔
      status = 408 ∨ status = 429 ∨ 500 ≤ status ∧ status ≤ 599 := by
  unfold ofStatus
  grind [isTransient]

theorem isTransient_ofTransport (fault : TransportFault) (detail : String) :
    (ofTransport fault detail).isTransient = true ↔
      fault = .timeout ∨ fault = .connection ∨ fault = .request ∨ fault = .body := by
  cases fault <;> simp [ofTransport, isTransient]

theorem isTransient_of_exchange {w : Wire} {r : Request} {e : StoreError}
    (h : (exchange w r).1 = .error e) : e.isTransient = true ↔ r.isSendable = true := by
  rw [exchange] at h
  split at h
  · rename_i hr
    cases h
    simpa [isTransient_ofTransport] using hr
  · rename_i hr
    have hsendable : r.isSendable = true := by simpa using hr
    refine iff_of_true ?_ hsendable
    split at h
    · cases h
      rfl
    · rename_i d rest hd
      cases d with
      | answered reply => cases h
      | closed =>
          cases h
          rfl
      | hanging =>
          cases h
          rfl

end StoreError

namespace Retry

variable {σ α : Type} {plan : Plan} {attempt : σ → Except StoreError α × σ} {s t : σ}
  {done retries : UInt32} {k n : Nat}

def IsTransient (x : Except StoreError α) : Prop := ∃ e, x = .error e ∧ e.isTransient = true

def after (attempt : σ → Except StoreError α × σ) (s : σ) : Nat → σ
  | 0 => s
  | n + 1 => (attempt (after attempt s n)).2

def outcomes (attempt : σ → Except StoreError α × σ) (s : σ) (n : Nat) : Except StoreError α :=
  (attempt (after attempt s n)).1

noncomputable def failuresAtStart (outcomes : Nat → Except StoreError α) : ℕ∞ :=
  ⨅ i : { i // ¬IsTransient (outcomes i) }, (i.val : ℕ∞)

def pause (number : Nat) : UInt64 :=
  if number = 1 then 500 else if number = 2 then 1000 else 2000

theorem after_succ (attempt : σ → Except StoreError α × σ) (s : σ) (n : Nat) :
    after attempt s (n + 1) = after attempt (attempt s).2 n := by
  induction n with
  | zero => rfl
  | succ n ih => rw [after, ih, after]

theorem outcomes_succ (attempt : σ → Except StoreError α × σ) (s : σ) (n : Nat) :
    outcomes attempt s (n + 1) = outcomes attempt (attempt s).2 n := by
  rw [outcomes, after_succ, outcomes]

theorem delay_eq_pause (retries : UInt32) : delay retries = pause (retries.toNat + 1) := by
  rw [delay, pause]
  match retries.toNat with
  | 0 => rfl
  | 1 => rfl
  | 2 => rfl
  | n + 3 =>
      rw [if_neg (by omega), if_neg (by omega)]
      rfl

theorem pause_mem_backoff (number : Nat) : pause number ∈ backoff := by
  rw [pause]
  split
  · decide
  · split
    · decide
    · decide

/-- How attempts go that come after `done` retries: there are `k` more, after transient failures that
each lead to a pause and a report of it, and the last attempt decides. -/
structure Course (plan : Plan) (attempt : σ → Except StoreError α × σ) (done : Nat) (s : σ)
    (k : Nat) (o : Outcome σ α) : Prop where
  transient : ∀ i < k, IsTransient (outcomes attempt s i)
  within : done + k ≤ plan.limit.toNat
  stops : done + k < plan.limit.toNat → ¬IsTransient (outcomes attempt s k)
  result : o.result = outcomes attempt s k
  state : o.state = after attempt s (k + 1)
  waits : o.waits = (List.range k).map fun i => pause (done + i + 1)
  events : o.events.length = k
  event : ∀ i < k, ∃ e, outcomes attempt s i = .error e ∧
    o.events[i]? = some (.retrying plan.operation plan.path (done + i + 1) plan.limit.toNat
      (pause (done + i + 1)).toNat e)

theorem course_of_stop {o : Outcome σ α} (hdone : done ≤ plan.limit)
    (hstop : done < plan.limit → ¬IsTransient (attempt s).1)
    (ho : o = ⟨(attempt s).1, (attempt s).2, [], []⟩) :
    Course plan attempt done.toNat s 0 o := by
  subst ho
  exact ⟨nofun, UInt32.le_iff_toNat_le.1 hdone, fun h => hstop (UInt32.lt_iff_toNat_lt.2 h), rfl,
    rfl, rfl, rfl, nofun⟩

theorem Course.cons {e : StoreError} {rest : Outcome σ α} (hs : attempt s = (.error e, t))
    (he : e.isTransient = true) {d : Nat} (h : Course plan attempt (d + 1) t k rest) :
    Course plan attempt d s (k + 1)
      { rest with
        events := .retrying plan.operation plan.path (d + 1) plan.limit.toNat (pause (d + 1)).toNat
          e :: rest.events
        waits := pause (d + 1) :: rest.waits } := by
  have hsucc : ∀ i, outcomes attempt s (i + 1) = outcomes attempt t i := by
    intro i
    rw [outcomes_succ, hs]
  have hfirst : outcomes attempt s 0 = .error e := congrArg Prod.fst hs
  have hnext : ∀ i, d + 1 + i + 1 = d + (i + 1) + 1 := by omega
  refine ⟨?_, ?_, ?_, ?_, ?_, ?_, ?_, ?_⟩
  · intro i hi
    cases i with
    | zero => exact ⟨e, hfirst, he⟩
    | succ i =>
        rw [hsucc]
        exact h.transient i (by omega)
  · have hwithin := h.within
    omega
  · intro hlt
    rw [hsucc]
    exact h.stops (by omega)
  · rw [hsucc]
    exact h.result
  · rw [after_succ, hs]
    exact h.state
  · simp only [h.waits, hnext, List.range_succ_eq_map, List.map_cons, List.map_map]
    rfl
  · rw [List.length_cons, h.events]
  · intro i hi
    cases i with
    | zero => exact ⟨e, hfirst, rfl⟩
    | succ i =>
        obtain ⟨c, hc, hevent⟩ := h.event i (by omega)
        rw [hnext] at hevent
        exact ⟨c, by rw [hsucc, hc], by rw [List.getElem?_cons_succ, hevent]⟩

theorem exists_course (plan : Plan) (attempt : σ → Except StoreError α × σ) (done : UInt32) (s : σ)
    (hdone : done ≤ plan.limit) :
    ∃ k, Course plan attempt done.toNat s k (attempts plan attempt done s) := by
  induction done, s using attempts.induct plan attempt with
  | case1 done s a t hs =>
      refine ⟨0, course_of_stop hdone ?_ ?_⟩
      · rintro - ⟨e, he, -⟩
        rw [hs] at he
        cases he
      · rw [attempts_of_ok hs, hs]
  | case2 done s e t hs hretry ih =>
      have hnext : (done + 1).toNat = done.toNat + 1 := toNat_succ_of_lt hretry.2
      have hle : done + 1 ≤ plan.limit := by
        rw [UInt32.le_iff_toNat_le, hnext]
        exact UInt32.lt_iff_toNat_lt.1 hretry.2
      obtain ⟨k, hk⟩ := ih hle
      rw [hnext] at hk
      refine ⟨k + 1, ?_⟩
      rw [attempts_of_retry hs hretry, delay_eq_pause, hnext]
      exact hk.cons hs hretry.1
  | case3 done s e t hs hlast =>
      refine ⟨0, course_of_stop hdone ?_ ?_⟩
      · rintro hlt ⟨c, hc, htransient⟩
        rw [hs] at hc
        cases hc
        exact hlast ⟨htransient, hlt⟩
      · rw [attempts_of_error hs hlast, hs]

theorem run_course (plan : Plan) (attempt : σ → Except StoreError α × σ) (s : σ) :
    ∃ k, Course plan attempt 0 s k (run plan attempt s) :=
  exists_course plan attempt 0 s (UInt32.le_iff_toNat_le.2 (Nat.zero_le _))

theorem Course.eq_min {o : Outcome σ α} (h : Course plan attempt 0 s k o) :
    (k : ℕ∞) = min (plan.limit.toNat : ℕ∞) (failuresAtStart (outcomes attempt s)) := by
  have hle : (k : ℕ∞) ≤ failuresAtStart (outcomes attempt s) := by
    refine le_iInf fun ⟨i, hi⟩ => ?_
    rw [Nat.cast_le]
    exact Nat.le_of_not_lt fun hlt => hi (h.transient i hlt)
  have hwithin := h.within
  rw [Nat.zero_add] at hwithin
  rcases Nat.lt_or_eq_of_le hwithin with hlt | heq
  · have hstop : ¬IsTransient (outcomes attempt s k) := h.stops (by omega)
    have hge : failuresAtStart (outcomes attempt s) ≤ k :=
      iInf_le (fun i : { i // ¬IsTransient (outcomes attempt s i) } => (i.val : ℕ∞)) ⟨k, hstop⟩
    rw [le_antisymm hge hle, min_eq_right (Nat.cast_le.2 hwithin)]
  · rw [← heq, min_eq_left hle]

def counting (attempt : σ → Except StoreError α × σ) : σ × Nat → Except StoreError α × (σ × Nat) :=
  fun s => ((attempt s.1).1, ((attempt s.1).2, s.2 + 1))

theorem after_counting (attempt : σ → Except StoreError α × σ) (s : σ) (n : Nat) :
    after (counting attempt) (s, 0) n = (after attempt s n, n) := by
  induction n with
  | zero => rfl
  | succ n ih => rw [after, ih, counting, after]

theorem outcomes_counting (attempt : σ → Except StoreError α × σ) (s : σ) :
    outcomes (counting attempt) (s, 0) = outcomes attempt s := by
  funext n
  rw [outcomes, after_counting, counting, outcomes]

/-- An operation is attempted once, and once more for each transient failure at the start as far as the
limit allows. Each further attempt comes after a report and a pause, and the last one decides. -/
theorem transient_failures_are_retried (plan : Plan) (attempt : σ → Except StoreError α × σ)
    (s : σ) :
    (∃ retries : Nat,
      (retries : ℕ∞) = min (plan.limit.toNat : ℕ∞) (failuresAtStart (outcomes attempt s)) ∧
      let o := run plan (counting attempt) (s, 0)
      o.state = (after attempt s (1 + retries), 1 + retries) ∧
      o.result = outcomes attempt s retries ∧
      o.waits = (List.range retries).map (fun i => pause (i + 1)) ∧
      (∀ wait ∈ o.waits, wait ∈ backoff) ∧
      o.events.length = o.waits.length ∧
      ∀ i < retries, ∃ e, outcomes attempt s i = .error e ∧
        o.events[i]? = some (.retrying plan.operation plan.path (i + 1) plan.limit.toNat
          (pause (i + 1)).toNat e)) ∧
    (∀ e : StoreError, e.isTransient = true ↔ e = .rateLimited ∨ e = .timeout ∨
      (∃ detail, e = .network detail) ∨ ∃ status detail, e = .server status detail) ∧
    (∀ status detail, (StoreError.ofStatus status detail).isTransient = true ↔
      status = 408 ∨ status = 429 ∨ 500 ≤ status ∧ status ≤ 599) ∧
    (∀ fault detail, (StoreError.ofTransport fault detail).isTransient = true ↔
      fault = .timeout ∨ fault = .connection ∨ fault = .request ∨ fault = .body) ∧
    ∀ w r e, (exchange w r).1 = .error e → (e.isTransient = true ↔ r.isSendable = true) := by
  refine ⟨?_, fun e => StoreError.isTransient_iff, StoreError.isTransient_ofStatus,
    StoreError.isTransient_ofTransport, fun w r e => StoreError.isTransient_of_exchange⟩
  obtain ⟨k, h⟩ := run_course plan (counting attempt) (s, 0)
  have hmin := h.eq_min
  have hresult := h.result
  have hstate := h.state
  have hwaits := h.waits
  have hevent := h.event
  rw [outcomes_counting] at hmin hresult hevent
  rw [after_counting, Nat.add_comm] at hstate
  simp only [Nat.zero_add] at hwaits hevent
  refine ⟨k, hmin, hstate, hresult, hwaits, ?_, ?_, hevent⟩
  · intro wait hwait
    rw [hwaits] at hwait
    obtain ⟨i, -, rfl⟩ := List.mem_map.1 hwait
    exact pause_mem_backoff (i + 1)
  · rw [h.events, hwaits, List.length_map, List.length_range]

end Retry

end ObjectCache
