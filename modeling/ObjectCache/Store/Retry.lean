import ObjectCache.Event

namespace ObjectCache.Retry

def backoff : List UInt64 := [500, 1000, 2000]

def delay (retries : UInt32) : UInt64 := backoff[retries.toNat]?.getD (backoff.getLast (by decide))

structure Plan where
  operation : String
  path : String
  limit : UInt32

/-- The result of the last attempt, the state after it, and of each wait a report and the
milliseconds that it took. -/
structure Outcome (σ α : Type) where
  result : Except StoreError α
  state : σ
  events : List Event
  waits : List UInt64

theorem toNat_succ_of_lt {retries limit : UInt32} (h : retries < limit) :
    (retries + 1).toNat = retries.toNat + 1 := by
  have hlimit := limit.toNat_lt
  rw [UInt32.lt_iff_toNat_lt] at h
  rw [UInt32.toNat_add, UInt32.toNat_one]
  omega

variable {σ α : Type}

def attempts (plan : Plan) (attempt : σ → Except StoreError α × σ) (retries : UInt32) (s : σ) :
    Outcome σ α :=
  match attempt s with
  | (.ok a, s) => ⟨.ok a, s, [], []⟩
  | (.error e, s) =>
      if _h : e.isTransient ∧ retries < plan.limit then
        let wait := delay retries
        let rest := attempts plan attempt (retries + 1) s
        { rest with
          events := .retrying plan.operation plan.path (retries + 1).toNat plan.limit.toNat
            wait.toNat e :: rest.events
          waits := wait :: rest.waits }
      else ⟨.error e, s, [], []⟩
termination_by plan.limit.toNat - retries.toNat
decreasing_by
  have hlt := UInt32.lt_iff_toNat_lt.1 _h.2
  rw [toNat_succ_of_lt _h.2]
  omega

section

variable {plan : Plan} {attempt : σ → Except StoreError α × σ} {retries : UInt32} {s t : σ}

theorem attempts_of_ok {a : α} (h : attempt s = (.ok a, t)) :
    attempts plan attempt retries s = ⟨.ok a, t, [], []⟩ := by
  rw [attempts, h]

theorem attempts_of_error {e : StoreError} (h : attempt s = (.error e, t))
    (hlast : ¬(e.isTransient ∧ retries < plan.limit)) :
    attempts plan attempt retries s = ⟨.error e, t, [], []⟩ := by
  rw [attempts, h]
  exact dif_neg hlast

theorem attempts_of_retry {e : StoreError} (h : attempt s = (.error e, t))
    (hretry : e.isTransient ∧ retries < plan.limit) :
    attempts plan attempt retries s =
      let rest := attempts plan attempt (retries + 1) t
      { rest with
        events := .retrying plan.operation plan.path (retries + 1).toNat plan.limit.toNat
          (delay retries).toNat e :: rest.events
        waits := delay retries :: rest.waits } := by
  rw [attempts, h]
  exact dif_pos hretry

theorem lt_of_ok {m : σ → Nat} (hle : ∀ s, m (attempt s).2 ≤ m s)
    (hlt : ∀ s a, (attempt s).1 = .ok a → m (attempt s).2 < m s) {a : α}
    (h : (attempts plan attempt retries s).result = .ok a) :
    m (attempts plan attempt retries s).state < m s := by
  induction retries, s using attempts.induct plan attempt with
  | case1 retries s b t hs =>
      rw [attempts_of_ok hs]
      have hlower := hlt s b
      rw [hs] at hlower
      exact hlower rfl
  | case2 retries s e t hs hretry ih =>
      rw [attempts_of_retry hs hretry] at h ⊢
      have hs' := hle s
      rw [hs] at hs'
      exact Nat.lt_of_lt_of_le (ih h) hs'
  | case3 retries s e t hs hlast =>
      rw [attempts_of_error hs hlast] at h
      cases h

end

def run (plan : Plan) (attempt : σ → Except StoreError α × σ) (s : σ) : Outcome σ α :=
  attempts plan attempt 0 s

end ObjectCache.Retry
