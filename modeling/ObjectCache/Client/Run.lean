import ObjectCache.Client.Basic

namespace ObjectCache.Client

open Time

/-- An operation that has its size waits for blocks alone, each time with fewer left. -/
def Pending.rank : Pending → Nat × Nat
  | .head _ _ _ => (1, 0)
  | .block _ left _ => (0, left)
  | .list _ _ => (0, 0)
  | .write _ _ => (0, 0)
  | .delete _ => (0, 0)

def Pending.Before (p q : Pending) : Prop :=
  p.rank.1 < q.rank.1 ∨ (p.rank.1 = q.rank.1 ∧ p.rank.2 < q.rank.2)

def Turn.WaitsWithin (t : Turn) (left : Nat) : Prop :=
  ∀ p, t.progress = .waiting p → p.rank.1 = 0 ∧ p.rank.2 ≤ left

theorem waitsWithin_finishRead (c : Client) (r : Reading) (left : Nat) :
    (c.finishRead r).WaitsWithin left := by
  intro p h
  simp [finishRead] at h

theorem waitsWithin_awaitBlock (c : Client) (r : Reading) (left : Nat) :
    (c.awaitBlock r left).WaitsWithin left := by
  intro p h
  simp only [awaitBlock, Progress.waiting.injEq] at h
  subst h
  exact ⟨rfl, Nat.le_refl _⟩

theorem waitsWithin_useBlock {c : Client} {r : Reading} {block : ByteArray} {go : Reading → Turn}
    {left : Nat} (h : ∀ r, (go r).WaitsWithin left) : (c.useBlock r block go).WaitsWithin left := by
  unfold useBlock
  split
  · exact waitsWithin_finishRead _ _ _
  · exact h _

theorem waitsWithin_readBlock {c : Client} {r : Reading} {go : Client → Reading → Turn} {left : Nat}
    (h : ∀ c r, (go c r).WaitsWithin left) : (c.readBlock r left go).WaitsWithin left := by
  unfold readBlock
  split
  · exact waitsWithin_awaitBlock _ _ _
  · exact waitsWithin_useBlock (h _)

theorem waitsWithin_readOn (c : Client) (r : Reading) (left : Nat) :
    (c.readOn r left).WaitsWithin left := by
  induction left generalizing c r with
  | zero => exact waitsWithin_readBlock fun c r => waitsWithin_finishRead c r 0
  | succ left ih =>
      refine waitsWithin_readBlock fun c r p h => ?_
      have hp := ih c r p h
      exact ⟨hp.1, Nat.le_succ_of_le hp.2⟩

theorem waitsWithin_readAfter (c : Client) (r : Reading) (block : ByteArray) (left : Nat) :
    (c.readAfter r block (left + 1)).WaitsWithin left :=
  waitsWithin_useBlock fun r => waitsWithin_readOn c r left

theorem finished_readAfter_zero (c : Client) (r : Reading) (block : ByteArray) (p : Pending) :
    (c.readAfter r block 0).progress ≠ .waiting p := by
  simp only [readAfter, useBlock]
  split <;> simp [finishRead]

theorem withSize_waiting {c : Client} {o : ObjectName} {n : UInt64} {purpose : Purpose}
    {p : Pending} (h : (c.withSize o n purpose).progress = .waiting p) : p.rank.1 = 0 := by
  cases purpose with
  | size => simp [withSize] at h
  | read offset length =>
      simp only [withSize] at h
      split at h
      · simp at h
      · split at h
        · exact (waitsWithin_readOn _ _ _ _ h).1
        · simp at h

theorem before_of_resume_waiting {c : Client} {now : Millis} {p q : Pending}
    {result : p.call.Result} (h : (c.resume now p result).progress = .waiting q) :
    q.Before p := by
  cases p with
  | head o generation purpose =>
      cases result with
      | error e => simp [resume, afterHead] at h
      | ok size =>
          simp only [resume, afterHead] at h
          split at h
          · simp at h
          · exact .inl (by simpa [Pending.rank] using withSize_waiting h)
  | block r left generation =>
      cases result with
      | error e => simp [resume, afterBlock] at h
      | ok block =>
          cases left with
          | zero => exact absurd h (finished_readAfter_zero _ _ _ _)
          | succ left =>
              have hw := waitsWithin_readAfter _ _ _ _ _ h
              exact .inr ⟨hw.1, Nat.lt_succ_of_le hw.2⟩
  | list name generation =>
      cases result with
      | error e => simp [resume, afterList] at h
      | ok objects =>
          simp only [resume, afterList] at h
          split at h <;> simp at h
  | write o data => cases result <;> simp [resume, afterMutation] at h
  | delete o => cases result <;> simp [resume, afterMutation] at h

structure Service (σ : Type) (call : StoreCall) where
  result : call.Result
  server : σ
  client : Client
  events : List Event

abbrev Server (σ : Type) := (call : StoreCall) → σ → Client → Service σ call

structure Outcome (σ : Type) where
  answer : Answer
  server : σ
  client : Client
  events : List Event

def serveAll {σ : Type} (serve : Server σ) (now : Millis) (server : σ) (client : Client)
    (p : Pending) : Outcome σ :=
  let service := serve p.call server client
  let turn := service.client.resume now p service.result
  match _h : turn.progress with
  | .finished answer =>
      ⟨answer, service.server, turn.client, service.events ++ turn.events⟩
  | .waiting q =>
      let rest := serveAll serve now service.server turn.client q
      { rest with events := service.events ++ turn.events ++ rest.events }
termination_by p.rank
decreasing_by
  have hb := before_of_resume_waiting _h
  exact Prod.lex_def.2 hb

def run {σ : Type} (serve : Server σ) (now : Millis) (op : Operation) (server : σ)
    (client : Client) : Outcome σ :=
  let turn := client.start now op
  match turn.progress with
  | .finished answer => ⟨answer, server, turn.client, turn.events⟩
  | .waiting p =>
      let rest := serveAll serve now server turn.client p
      { rest with events := turn.events ++ rest.events }

end ObjectCache.Client
