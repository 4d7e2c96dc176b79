namespace ObjectCache.Time

abbrev Millis := Nat

/-- From here on there are no instants. -/
def horizon : Millis := 9223372036854775808000

def deadline? (now ttl : Millis) : Option Millis :=
  if now + ttl < horizon then some (now + ttl) else none

theorem deadline?_eq_some_iff {now ttl t : Millis} :
    deadline? now ttl = some t ↔ now + ttl < horizon ∧ t = now + ttl := by
  simp only [deadline?]
  split
  · simp [*, eq_comm]
  · simp [*]

end ObjectCache.Time
