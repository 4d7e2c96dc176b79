import Mathlib.Tactic.ByContra
import ObjectCache.Proofs.Signing.Canonical
import ObjectCache.Url.Parse

namespace ObjectCache

open Signing Text

namespace Signing

theorem mem_canonicalQuery {pairs : List (String × String)} {c : Char}
    (h : c ∈ (canonicalQuery pairs).toList) : c = '&' ∨ c = '=' ∨ isEncoded c = true := by
  by_contra hc
  rw [not_or, not_or, Bool.not_eq_true] at hc
  exact notMem_canonicalQuery hc.1 hc.2.1 hc.2.2 pairs h

theorem canonicalQuery_of_sorted {pairs : List (String × String)}
    (h : (pairs.map encodePair).Pairwise fun p q => pairLe p q = true) :
    canonicalQuery pairs = String.ofList (joined '&' ((pairs.map encodePair).map pairChars)) := by
  rw [canonicalQuery, sortedPairs, List.mergeSort_of_pairwise h]

def Precedes (p q : String × String) : Prop :=
  encodeText p.1 < encodeText q.1 ∨
    encodeText p.1 = encodeText q.1 ∧ encodeText p.2 ≤ encodeText q.2

theorem precedes_of_pairLe {p q : String × String}
    (h : pairLe (encodePair p) (encodePair q) = true) : Precedes p q := by
  rw [pairLe_iff] at h
  exact h

theorem map_encodePair_parseQuery (pairs : List (String × String)) :
    (parseQuery (canonicalQuery pairs)).map encodePair = sortedPairs pairs := by
  have hread : ∀ e ∈ sortedPairs pairs, encodePair (queryPair (pairChars e)) = e := by
    intro e he
    obtain ⟨p, -, rfl⟩ := exists_of_mem_sortedPairs he
    rw [queryPair_encodePair]
  rw [parseQuery_eq, parameters_canonicalQuery, List.map_map, List.map_map]
  exact (List.map_congr_left hread).trans (List.map_id _)

theorem pairwise_parseQuery (pairs : List (String × String)) :
    (parseQuery (canonicalQuery pairs)).Pairwise Precedes := by
  have hsorted : (sortedPairs pairs).Pairwise (fun p q => pairLe p q = true) :=
    List.pairwise_mergeSort pairLe_trans pairLe_total _
  rw [← map_encodePair_parseQuery, List.pairwise_map] at hsorted
  exact hsorted.imp precedes_of_pairLe

theorem canonicalQuery_parseQuery_canonicalQuery (pairs : List (String × String)) :
    canonicalQuery (parseQuery (canonicalQuery pairs)) = canonicalQuery pairs :=
  canonicalQuery_eq_iff.2 (parseQuery_canonicalQuery_perm pairs)

end Signing

namespace Url

theorem isAscii_of_isEncoded {c : Char} (h : isEncoded c = true) : c.toNat < 128 := by
  rw [isEncoded, Bool.or_eq_true, beq_iff_eq] at h
  rcases h with h | rfl
  · exact (keeps_isUnreserved c h).1
  · decide

theorem stands_of_isEncoded (special : Bool) {c : Char} (h : isEncoded c = true) :
    queryKeeps special c = true ∧ Path.isBreak c = false := by
  have hascii := isAscii_of_isEncoded h
  revert h
  refine forall_ascii (p := fun c => isEncoded c = true →
    queryKeeps special c = true ∧ Path.isBreak c = false) ?_ hascii
  cases special with
  | true => decide +kernel
  | false => decide +kernel

theorem stands_of_mem_canonicalQuery (special : Bool) {pairs : List (String × String)} {c : Char}
    (h : c ∈ (canonicalQuery pairs).toList) :
    queryKeeps special c = true ∧ Path.isBreak c = false := by
  rcases mem_canonicalQuery h with rfl | rfl | hc
  · cases special <;> decide
  · cases special <;> decide
  · exact stands_of_isEncoded special hc

theorem withQuery_canonicalQuery (u : Url) (pairs : List (String × String)) :
    u.withQuery (canonicalQuery pairs) = { u with query := some (canonicalQuery pairs) } := by
  have hbreaks : Path.withoutBreaks (canonicalQuery pairs).toList =
      (canonicalQuery pairs).toList := by
    rw [Path.withoutBreaks, List.filter_eq_self]
    intro c hc
    rw [(stands_of_mem_canonicalQuery true hc).2]
    rfl
  have hkeeps : ∀ c ∈ (canonicalQuery pairs).toList,
      queryKeeps (schemeKind u.scheme != .other) c = true :=
    fun c hc => (stands_of_mem_canonicalQuery _ hc).1
  simp only [withQuery, hbreaks, Percent.encode_of_keep hkeeps, String.ofList_toList]

end Url

end ObjectCache
