namespace ObjectCache

structure Table (K V : Type) where
  entries : List (K × V)
  distinct : entries.Pairwise (fun a b => a.1 ≠ b.1)

namespace Table

variable {K V : Type}

def empty : Table K V := ⟨[], .nil⟩

def size (t : Table K V) : Nat := t.entries.length

def filter (p : K → V → Bool) (t : Table K V) : Table K V :=
  ⟨t.entries.filter fun e => p e.1 e.2, t.distinct.filter _⟩

variable [DecidableEq K]

def get? (t : Table K V) (k : K) : Option V :=
  (t.entries.find? (fun e => e.1 = k)).map (·.2)

def erase (t : Table K V) (k : K) : Table K V := t.filter fun j _ => j ≠ k

def insert (t : Table K V) (k : K) (v : V) : Table K V :=
  ⟨(k, v) :: (t.erase k).entries, by
    refine .cons ?_ (t.erase k).distinct
    intro e he
    have hne : e.1 ≠ k := by simpa using (List.mem_filter.1 he).2
    exact hne.symm⟩

@[simp] theorem get?_empty (k : K) : (empty : Table K V).get? k = none := rfl

theorem get?_eq_some_iff (t : Table K V) (k : K) (v : V) :
    t.get? k = some v ↔ (k, v) ∈ t.entries := by
  obtain ⟨es, hd⟩ := t
  simp only [get?]
  induction es with
  | nil => simp
  | cons e es ih =>
      rw [List.pairwise_cons] at hd
      by_cases he : e.1 = k
      · subst he
        simp only [List.find?_cons, decide_true, Option.map_some, List.mem_cons]
        constructor
        · intro h
          simp only [Option.some.injEq] at h
          subst h
          simp
        · rintro (h | h)
          · rw [← h]
          · exact absurd rfl (hd.1 (e.1, v) h)
      · have hk : ¬(k, v) = e := fun h => he (by rw [← h])
        simpa [List.find?_cons, he, hk] using ih hd.2

theorem get?_filter (p : K → V → Bool) (t : Table K V) (k : K) :
    (t.filter p).get? k = (t.get? k).filter (p k) := by
  apply Option.ext
  intro v
  rw [get?_eq_some_iff, filter, List.mem_filter, ← get?_eq_some_iff, Option.filter_eq_some_iff]

@[simp] theorem get?_erase (t : Table K V) (k j : K) :
    (t.erase k).get? j = if j = k then none else t.get? j := by
  rw [erase, get?_filter]
  by_cases h : j = k
  · cases t.get? j <;> simp [h]
  · cases t.get? j <;> simp [h]

@[simp] theorem get?_insert (t : Table K V) (k j : K) (v : V) :
    (t.insert k v).get? j = if j = k then some v else t.get? j := by
  apply Option.ext
  intro w
  rw [get?_eq_some_iff, insert]
  simp only [List.mem_cons]
  rw [← get?_eq_some_iff, get?_erase]
  by_cases h : j = k
  · simp [h, eq_comm]
  · simp [h]

end Table

/-- Counts have no bound: those of 64 bits agree with them below 2 ^ 64 events. -/
structure Counts (K : Type) where
  table : Table K Nat

namespace Counts

variable {K : Type} [DecidableEq K]

def empty : Counts K := ⟨.empty⟩

def count (c : Counts K) (k : K) : Nat := (c.table.get? k).getD 0

def add (c : Counts K) (k : K) : Counts K := ⟨c.table.insert k (c.count k + 1)⟩

@[simp] theorem count_empty (k : K) : (empty : Counts K).count k = 0 := rfl

@[simp] theorem count_add (c : Counts K) (k j : K) :
    (c.add k).count j = if j = k then c.count k + 1 else c.count j := by
  simp only [count, add, Table.get?_insert]
  split <;> simp [*]

end Counts

end ObjectCache
