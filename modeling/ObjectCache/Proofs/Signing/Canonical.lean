import ObjectCache.Proofs.Text.Percent
import ObjectCache.Proofs.Text.Pieces
import ObjectCache.Signing.Canonical

namespace ObjectCache.Signing

open Text

theorem keeps_isUnreserved : Percent.Keeps isUnreserved := by
  intro c h
  constructor
  · simp only [isUnreserved, isLetter, Bool.or_eq_true, Bool.and_eq_true, decide_eq_true_eq,
      beq_iff_eq] at h
    rcases h with ((((h | h) | rfl) | rfl) | rfl) | rfl
    · omega
    · omega
    · decide
    · decide
    · decide
    · decide
  · rintro rfl
    cases h

theorem decodeText_encodeText (s : String) : decodeText (encodeText s) = s := by
  rw [decodeText, encodeText, encodeChars, Percent.decodeText?_encode keeps_isUnreserved]
  rfl

theorem decodeChars_encodeChars (cs : List Char) : decodeChars (encodeChars cs) = cs := by
  have h := decodeText_encodeText (String.ofList cs)
  rw [encodeText, String.toList_ofList] at h
  rw [decodeChars, h, String.toList_ofList]

def isEncoded (c : Char) : Bool := isUnreserved c || c == '%'

theorem isEncoded_of_mem_hexDigits : ∀ c ∈ Percent.hexDigits, isEncoded c = true :=
  List.all_eq_true.1 (by decide)

theorem isEncoded_of_mem_encodeChars {cs : List Char} {c : Char} (h : c ∈ encodeChars cs) :
    isEncoded c = true := by
  rcases Percent.mem_encode h with ⟨hkeep, _⟩ | rfl | hdigit
  · simp [isEncoded, hkeep]
  · rfl
  · exact isEncoded_of_mem_hexDigits c hdigit

theorem notMem_encodeChars {c : Char} (h : isEncoded c = false) (cs : List Char) :
    c ∉ encodeChars cs :=
  notMem_of_kind (fun _ hd => isEncoded_of_mem_encodeChars hd) h

theorem notMem_encodeText {c : Char} (h : isEncoded c = false) (s : String) :
    c ∉ (encodeText s).toList := by
  rw [encodeText, String.toList_ofList]
  exact notMem_encodeChars h s.toList

def rooted (path : String) : List Char := if path.isEmpty then ['/'] else path.toList

def decodedSegments (path : String) : List (List Char) :=
  (pieces (· == '/') (rooted path)).map decodeChars

theorem rooted_ne_nil (path : String) : rooted path ≠ [] := by
  rw [rooted]
  split
  · exact List.cons_ne_nil _ _
  · rename_i h
    rwa [String.isEmpty_iff, ← String.toList_eq_nil_iff] at h

theorem decodedSegments_ne_nil (path : String) : decodedSegments path ≠ [] := by
  rw [decodedSegments, Ne, List.map_eq_nil_iff]
  exact pieces_ne_nil _ _

theorem canonicalPath_eq (path : String) :
    canonicalPath path = String.ofList (joined '/' ((decodedSegments path).map encodeChars)) := by
  rw [canonicalPath, decodedSegments, rooted]
  split
  · decide +kernel
  · rw [onSegments, List.map_map]

theorem slash_notMem_encoded (path : String) :
    ∀ p ∈ (decodedSegments path).map encodeChars, '/' ∉ p := by
  intro p hp
  obtain ⟨cs, _, rfl⟩ := List.mem_map.1 hp
  exact notMem_encodeChars rfl cs

theorem map_decodeChars_encodeChars (ps : List (List Char)) :
    (ps.map encodeChars).map decodeChars = ps := by
  simp [Function.comp_def, decodeChars_encodeChars]

theorem map_encodeChars_injective {ps qs : List (List Char)}
    (h : ps.map encodeChars = qs.map encodeChars) : ps = qs := by
  rw [← map_decodeChars_encodeChars ps, h, map_decodeChars_encodeChars]

theorem canonicalPath_eq_iff {p q : String} :
    canonicalPath p = canonicalPath q ↔ decodedSegments p = decodedSegments q := by
  constructor
  · intro h
    rw [canonicalPath_eq, canonicalPath_eq] at h
    have hjoined := String.ofList_injective h
    refine map_encodeChars_injective (joined_injective ?_ ?_ (slash_notMem_encoded p)
      (slash_notMem_encoded q) hjoined)
    · simpa using decodedSegments_ne_nil p
    · simpa using decodedSegments_ne_nil q
  · intro h
    rw [canonicalPath_eq, h, canonicalPath_eq]

theorem eq_nil_of_decodeChars {cs : List Char} (h : decodeChars cs = []) : cs = [] := by
  rw [decodeChars, decodeText, String.toList_eq_nil_iff] at h
  cases hdecoded : Percent.decodeText? (String.ofList cs) with
  | none =>
      rw [hdecoded, Option.getD_none] at h
      simpa using congrArg String.toList h
  | some t =>
      rw [hdecoded, Option.getD_some] at h
      rw [h] at hdecoded
      simpa using congrArg String.toList (Percent.eq_empty_of_decodeText? hdecoded)

theorem encodeChars_eq_nil {cs : List Char} (h : encodeChars cs = []) : cs = [] := by
  rw [← decodeChars_encodeChars cs, h]
  decide +kernel

theorem canonicalPath_ne_empty (path : String) : canonicalPath path ≠ "" := by
  intro h
  rw [canonicalPath_eq, decodedSegments, List.map_map] at h
  have hjoined : joined '/' ((pieces (· == '/') (rooted path)).map (encodeChars ∘ decodeChars)) =
      [] := by
    simpa using congrArg String.toList h
  have hpieces := joined_eq_nil_of_map
    (fun p hp => eq_nil_of_decodeChars (encodeChars_eq_nil hp)) hjoined
  rw [joined_pieces] at hpieces
  exact rooted_ne_nil path hpieces

theorem rooted_canonicalPath (path : String) :
    rooted (canonicalPath path) = (canonicalPath path).toList := by
  rw [rooted, if_neg]
  rw [String.isEmpty_iff]
  exact canonicalPath_ne_empty path

theorem pieces_canonicalPath (path : String) :
    pieces (· == '/') (canonicalPath path).toList = (decodedSegments path).map encodeChars := by
  have hne : (decodedSegments path).map encodeChars ≠ [] := by
    simpa using decodedSegments_ne_nil path
  rw [canonicalPath_eq, String.toList_ofList,
    pieces_joined_of_notMem hne (slash_notMem_encoded path)]

theorem map_decodeChars_pieces_canonicalPath (path : String) :
    (pieces (· == '/') (canonicalPath path).toList).map decodeChars = decodedSegments path := by
  rw [pieces_canonicalPath, map_decodeChars_encodeChars]

theorem decodedSegments_canonicalPath (path : String) :
    decodedSegments (canonicalPath path) = decodedSegments path := by
  rw [← map_decodeChars_pieces_canonicalPath path, ← rooted_canonicalPath]
  rfl

theorem canonicalPath_canonicalPath (path : String) :
    canonicalPath (canonicalPath path) = canonicalPath path :=
  canonicalPath_eq_iff.2 (decodedSegments_canonicalPath path)

theorem notMem_canonicalPath {c : Char} (hslash : c ≠ '/') (hc : isEncoded c = false)
    (path : String) : c ∉ (canonicalPath path).toList := by
  rw [canonicalPath_eq, String.toList_ofList]
  refine notMem_joined hslash fun p hp => ?_
  obtain ⟨cs, _, rfl⟩ := List.mem_map.1 hp
  exact notMem_encodeChars hc cs

theorem queryPair_pairChars {name : String} (h : '=' ∉ name.toList) (value : String) :
    queryPair (pairChars (name, value)) = (decodeText name, decodeText value) := by
  simp [queryPair, pairChars, takeWhile_append_cons h, dropWhile_append_cons h]

theorem queryPair_encodePair (p : String × String) : queryPair (pairChars (encodePair p)) = p := by
  have hname : '=' ∉ (encodeText p.1).toList := notMem_encodeText (by decide) p.1
  rw [encodePair, queryPair_pairChars hname, decodeText_encodeText, decodeText_encodeText]

theorem notMem_pairChars_encodePair {c : Char} (hmark : c ≠ '=') (hc : isEncoded c = false)
    (p : String × String) : c ∉ pairChars (encodePair p) := by
  rw [pairChars, List.mem_append, List.mem_cons, not_or, not_or]
  exact ⟨notMem_encodeText hc p.1, hmark, notMem_encodeText hc p.2⟩

theorem pairChars_ne_nil (p : String × String) : pairChars p ≠ [] := by
  simp [pairChars]

theorem sortedPairs_perm (pairs : List (String × String)) :
    (sortedPairs pairs).Perm (pairs.map encodePair) :=
  List.mergeSort_perm _ _

theorem exists_of_mem_sortedPairs {pairs : List (String × String)} {e : String × String}
    (h : e ∈ sortedPairs pairs) : ∃ p ∈ pairs, encodePair p = e :=
  List.mem_map.1 ((sortedPairs_perm pairs).mem_iff.1 h)

theorem pairLe_iff {p q : String × String} :
    pairLe p q = true ↔ p.1 < q.1 ∨ p.1 = q.1 ∧ p.2 ≤ q.2 := by
  simp [pairLe]

theorem pairLe_trans (p q r : String × String) (hpq : pairLe p q = true)
    (hqr : pairLe q r = true) : pairLe p r = true := by
  rw [pairLe_iff] at *
  rcases hpq with hpq | ⟨hpq, hle⟩
  · rcases hqr with hqr | ⟨hqr, _⟩
    · exact .inl (String.lt_trans hpq hqr)
    · exact .inl (hqr ▸ hpq)
  · rcases hqr with hqr | ⟨hqr, hle'⟩
    · exact .inl (hpq ▸ hqr)
    · exact .inr ⟨hpq.trans hqr, String.le_trans hle hle'⟩

theorem pairLe_total (p q : String × String) : (pairLe p q || pairLe q p) = true := by
  rw [Bool.or_eq_true, pairLe_iff, pairLe_iff]
  by_cases hlt : p.1 < q.1
  · exact .inl (.inl hlt)
  · by_cases hgt : q.1 < p.1
    · exact .inr (.inl hgt)
    · have heq : p.1 = q.1 := String.le_antisymm (String.not_lt.1 hgt) (String.not_lt.1 hlt)
      rcases String.le_total p.2 q.2 with hle | hle
      · exact .inl (.inr ⟨heq, hle⟩)
      · exact .inr (.inr ⟨heq.symm, hle⟩)

theorem pairLe_antisymm {p q : String × String} (hpq : pairLe p q = true)
    (hqp : pairLe q p = true) : p = q := by
  rw [pairLe_iff] at hpq hqp
  rcases hpq with hlt | ⟨heq, hle⟩
  · rcases hqp with hgt | ⟨heq, _⟩
    · exact absurd (String.lt_trans hlt hgt) (String.lt_irrefl _)
    · exact absurd (heq ▸ hlt) (String.lt_irrefl _)
  · rcases hqp with hgt | ⟨_, hge⟩
    · exact absurd (heq ▸ hgt) (String.lt_irrefl _)
    · exact Prod.ext heq (String.le_antisymm hle hge)

theorem mergeSort_eq_of_perm {ps qs : List (String × String)} (h : ps.Perm qs) :
    ps.mergeSort pairLe = qs.mergeSort pairLe := by
  have hps : (ps.mergeSort pairLe).Pairwise (fun a b => pairLe a b = true) :=
    List.pairwise_mergeSort pairLe_trans pairLe_total _
  have hqs : (qs.mergeSort pairLe).Pairwise (fun a b => pairLe a b = true) :=
    List.pairwise_mergeSort pairLe_trans pairLe_total _
  have hperm : (ps.mergeSort pairLe).Perm (qs.mergeSort pairLe) :=
    (List.mergeSort_perm _ _).trans (h.trans (List.mergeSort_perm _ _).symm)
  exact hperm.eq_of_pairwise (fun _ _ _ _ => pairLe_antisymm) hps hqs

theorem sortedPairs_eq_of_perm {ps qs : List (String × String)} (h : ps.Perm qs) :
    sortedPairs ps = sortedPairs qs :=
  mergeSort_eq_of_perm (h.map encodePair)

def parameters (query : List Char) : List (List Char) :=
  (pieces (· == '&') query).filter (!·.isEmpty)

theorem parseQuery_eq (query : String) :
    parseQuery query = (parameters query.toList).map queryPair := rfl

theorem notMem_sortedPairs {c : Char} (hmark : c ≠ '=') (hc : isEncoded c = false)
    (pairs : List (String × String)) : ∀ cs ∈ (sortedPairs pairs).map pairChars, c ∉ cs := by
  intro cs hcs
  obtain ⟨e, he, rfl⟩ := List.mem_map.1 hcs
  obtain ⟨p, _, rfl⟩ := exists_of_mem_sortedPairs he
  exact notMem_pairChars_encodePair hmark hc p

theorem parameters_joined {ps : List (String × String)} (h : ∀ p ∈ ps, '&' ∉ pairChars p) :
    parameters (joined '&' (ps.map pairChars)) = ps.map pairChars := by
  have hsep : ∀ cs ∈ ps.map pairChars, '&' ∉ cs := by
    intro cs hcs
    obtain ⟨p, hp, rfl⟩ := List.mem_map.1 hcs
    exact h p hp
  rw [parameters]
  by_cases hnil : ps.map pairChars = []
  · rw [hnil]
    rfl
  · rw [pieces_joined_of_notMem hnil hsep, List.filter_eq_self]
    intro cs hcs
    obtain ⟨p, _, rfl⟩ := List.mem_map.1 hcs
    simpa using pairChars_ne_nil p

theorem parameters_canonicalQuery (pairs : List (String × String)) :
    parameters (canonicalQuery pairs).toList = (sortedPairs pairs).map pairChars := by
  rw [canonicalQuery, String.toList_ofList]
  refine parameters_joined fun p hp => ?_
  exact notMem_sortedPairs (by decide) (by decide) pairs _ (List.mem_map_of_mem hp)

theorem parseQuery_canonicalQuery_perm (pairs : List (String × String)) :
    (parseQuery (canonicalQuery pairs)).Perm pairs := by
  rw [parseQuery_eq, parameters_canonicalQuery]
  refine (((sortedPairs_perm pairs).map pairChars).map queryPair).trans (List.Perm.of_eq ?_)
  rw [List.map_map, List.map_map]
  simp [Function.comp_def, queryPair_encodePair]

theorem canonicalQuery_eq_iff {ps qs : List (String × String)} :
    canonicalQuery ps = canonicalQuery qs ↔ ps.Perm qs := by
  constructor
  · intro h
    have hps := parseQuery_canonicalQuery_perm ps
    rw [h] at hps
    exact hps.symm.trans (parseQuery_canonicalQuery_perm qs)
  · intro h
    rw [canonicalQuery, sortedPairs_eq_of_perm h, canonicalQuery]

theorem notMem_canonicalQuery {c : Char} (hsep : c ≠ '&') (hmark : c ≠ '=')
    (hc : isEncoded c = false) (pairs : List (String × String)) :
    c ∉ (canonicalQuery pairs).toList := by
  rw [canonicalQuery, String.toList_ofList]
  exact notMem_joined hsep (notMem_sortedPairs hmark hc pairs)

end ObjectCache.Signing
