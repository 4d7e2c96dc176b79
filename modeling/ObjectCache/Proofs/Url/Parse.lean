import ObjectCache.Proofs.Text.Digits
import ObjectCache.Proofs.Text.Pieces
import ObjectCache.Url.Parse

namespace ObjectCache

namespace Text

end Text

namespace Url

open Text

theorem cutAt_append_cons {mark : Char} {as : List Char} (h : mark ∉ as) (bs : List Char) :
    cutAt (· == mark) (as ++ mark :: bs) = (as, some bs) := by
  have htake := takeWhile_append_cons h bs
  have hdrop := dropWhile_append_cons h bs
  simp only [bne] at htake hdrop
  rw [cutAt, hdrop, htake]

namespace Host

end Host

structure Place.Settled (p : Place) : Prop where
  host : ∀ a, p.authority = some a → '/' ∉ a.host.chars
  path : p.authority.isSome → p.path = [] ∨ ∃ cs, p.path = '/' :: cs

theorem host_of_checks {p q : Prop} [Decidable p] [Decidable q] {user password : String}
    {host : Host} {port : Option UInt16} {left rest : List Char} {a : Authority}
    (h : (if p then none else if q then none else some (⟨user, password, host, port⟩, left)) =
      some (a, rest)) : a.host = host := by
  split at h
  · cases h
  · split at h
    · cases h
    · cases h
      rfl

variable {s host : String} {u : Url}

end Url

end ObjectCache
