import ObjectCache.Signing.Signer

namespace ObjectCache.Signing.KeyCache

/-- What any use of a key cache can leave. At any time keys may make room for others. -/
inductive Reached : KeyCache → Prop
  | empty : Reached .empty
  | signingKey {c : KeyCache} (h : Reached c) (scope : KeyScope) (date : String) :
      Reached (c.signingKey scope date).2
  | clear {c : KeyCache} (h : Reached c) : Reached c.clear
  | evict {c : KeyCache} (h : Reached c) (keep : KeyScope → DatedKey → Bool) :
      Reached { c with keys := c.keys.filter keep }

def Genuine (c : KeyCache) : Prop :=
  ∀ scope k, c.keys.get? scope = some k → k.key = scope.key k.date

variable {c : KeyCache}

theorem Genuine.held (h : c.Genuine) {scope : KeyScope} {date : String} {key : ByteArray}
    (hkey : c.held? scope date = some key) : key = scope.key date := by
  obtain ⟨k, hk, hdate⟩ := Option.bind_eq_some_iff.1 hkey
  split at hdate
  · rename_i heq
    rw [← Option.some.inj hdate, ← heq]
    exact h scope k hk
  · cases hdate

theorem Genuine.signingKey_fst (h : c.Genuine) (scope : KeyScope) (date : String) :
    (c.signingKey scope date).1 = scope.key date := by
  unfold signingKey
  split
  · rename_i key hkey
    exact h.held hkey
  · rfl

theorem Genuine.signingKey (h : c.Genuine) (scope : KeyScope) (date : String) :
    (c.signingKey scope date).2.Genuine := by
  unfold KeyCache.signingKey
  split
  · exact h
  · intro other k hk
    rw [Table.get?_insert] at hk
    split at hk
    · rename_i heq
      rw [← Option.some.inj hk, heq]
    · exact h other k hk

theorem Genuine.evict (h : c.Genuine) (keep : KeyScope → DatedKey → Bool) :
    Genuine { c with keys := c.keys.filter keep } := by
  intro scope k hk
  rw [Table.get?_filter, Option.filter_eq_some_iff] at hk
  exact h scope k hk.1

theorem Reached.genuine (h : c.Reached) : c.Genuine := by
  induction h with
  | empty => intro scope k hk; cases hk
  | signingKey _ scope date ih => exact ih.signingKey scope date
  | clear _ _ => intro scope k hk; cases hk
  | evict _ keep ih => exact ih.evict keep

theorem Reached.signAt (h : c.Reached) (s : Signer) (payload : ByteArray) (now : Time.Instant)
    (r : SignableRequest) : (s.signAt payload now r c).keys.Reached := by
  unfold Signer.signAt
  split
  · exact h
  · split
    · exact h
    · exact h.signingKey s.keyScope now.dateText

theorem Reached.presignAt (h : c.Reached) (s : Signer) (method : Method) (bucket key : String)
    (expiry : UInt64) (now : Time.Instant) :
    (s.presignAt method bucket key expiry now c).2.Reached := by
  unfold Signer.presignAt
  split
  · exact h
  · split
    · exact h
    · split
      · exact h
      · exact h.signingKey s.keyScope now.dateText

end ObjectCache.Signing.KeyCache
