import ObjectCache.Proofs.Signing.Canonical
import ObjectCache.Proofs.Url.Segments

namespace ObjectCache

open Text

namespace Signing

def keySegments (key : String) : List (List Char) := pieces (· == '/') key.toList

theorem keySegments_ne_nil (key : String) : keySegments key ≠ [] := pieces_ne_nil _ _

theorem slash_notMem_keySegments (key : String) : ∀ p ∈ keySegments key, '/' ∉ p := by
  intro p hp hmem
  have hcut := not_cut_of_mem_pieces _ _ p hp '/' hmem
  cases hcut

def isKeyChar (c : Char) : Bool := isUnreserved c || c == '/'

theorem keeps_isKeyChar : Percent.Keeps isKeyChar := by
  intro c h
  rw [isKeyChar, Bool.or_eq_true, beq_iff_eq] at h
  rcases h with h | rfl
  · exact keeps_isUnreserved c h
  · decide

theorem encode_isKeyChar {p : List Char} (h : '/' ∉ p) :
    Percent.encode isKeyChar p = encodeChars p := by
  have hchar : ∀ c ∈ p, Percent.encodeChar isKeyChar c = Percent.encodeChar isUnreserved c := by
    intro c hc
    have hne : c ≠ '/' := ne_of_mem_of_not_mem hc h
    rw [Percent.encodeChar, isKeyChar, beq_eq_false_iff_ne.2 hne, Bool.or_false,
      Percent.encodeChar]
  rw [encodeChars, Percent.encode, Percent.encode, List.flatMap_def, List.map_congr_left hchar,
    ← List.flatMap_def]

theorem joined_map_encodeChars {ps : List (List Char)} (h : ∀ p ∈ ps, '/' ∉ p) :
    joined '/' (ps.map encodeChars) = Percent.encode isKeyChar (joined '/' ps) := by
  induction ps with
  | nil => rfl
  | cons p ps ih =>
      rw [List.forall_mem_cons] at h
      cases ps with
      | nil => exact (encode_isKeyChar h.1).symm
      | cons q ps =>
          have hslash : Percent.encodeChar isKeyChar '/' = ['/'] := by decide
          have hrest := ih h.2
          rw [List.map_cons] at hrest
          rw [List.map_cons, List.map_cons, joined, hrest, joined, ← encode_isKeyChar h.1,
            Percent.encode, Percent.encode, Percent.encode, List.flatMap_append, List.flatMap_cons,
            hslash, List.singleton_append]

theorem toList_encodeKey (key : String) :
    (encodeKey key).toList = joined '/' ((keySegments key).map encodeChars) := by
  rw [encodeKey, String.toList_ofList]
  rfl

theorem decodeText?_encodeKey (key : String) : Percent.decodeText? (encodeKey key) = some key := by
  have hjoined := joined_map_encodeChars (slash_notMem_keySegments key)
  rw [← toList_encodeKey, keySegments, joined_pieces] at hjoined
  rw [← String.ofList_toList (s := encodeKey key), hjoined,
    Percent.decodeText?_encode keeps_isKeyChar]

theorem encodeKey_injective {a b : String} (h : encodeKey a = encodeKey b) : a = b := by
  have ha := decodeText?_encodeKey a
  rw [h, decodeText?_encodeKey] at ha
  exact (Option.some.inj ha).symm

theorem encodeKey_eq_empty_iff {key : String} : encodeKey key = "" ↔ key = "" := by
  constructor
  · intro h
    exact encodeKey_injective (h.trans (by decide))
  · rintro rfl
    decide

theorem isPlain_encodeChars (s : List Char) : Url.Path.IsPlain (encodeChars s) := by
  intro c hc
  have hencoded := isEncoded_of_mem_encodeChars hc
  have hlt : c.toNat < 128 := by
    rw [isEncoded, Bool.or_eq_true, beq_iff_eq] at hencoded
    rcases hencoded with h | rfl
    · exact (keeps_isUnreserved c h).1
    · decide
  exact forall_ascii (p := fun c => isEncoded c = true →
    Url.pathKeeps c = true ∧ Url.Path.isSeparator true c = false) (by decide) hlt hencoded

theorem isSingleDot_encodeChars {s : List Char} :
    Url.Path.isSingleDot (encodeChars s) = true ↔ s = ['.'] := by
  constructor
  · intro h
    have hdots : ∀ d ∈ [".", "%2e", "%2E"], decodeChars d.toList = ['.'] := by decide +kernel
    obtain ⟨d, hd, heq⟩ := List.any_eq_true.1 h
    rw [← decodeChars_encodeChars s, ← eq_of_beq heq, hdots d hd]
  · rintro rfl
    decide

theorem isDoubleDot_encodeChars {s : List Char} :
    Url.Path.isDoubleDot (encodeChars s) = true ↔ s = ['.', '.'] := by
  constructor
  · intro h
    have hdots : ∀ d ∈ ["..", "%2e.", "%2E.", ".%2e", ".%2E", "%2e%2e", "%2e%2E", "%2E%2e",
        "%2E%2E"], decodeChars d.toList = ['.', '.'] := by
      decide +kernel
    obtain ⟨d, hd, heq⟩ := List.any_eq_true.1 h
    rw [← decodeChars_encodeChars s, ← eq_of_beq heq, hdots d hd]
  · rintro rfl
    decide

def IsDot (s : List Char) : Prop := s = ['.'] ∨ s = ['.', '.']

instance (s : List Char) : Decidable (IsDot s) := inferInstanceAs (Decidable (_ ∨ _))

theorem isSettled_encodeChars {s : List Char} (h : ¬IsDot s) :
    Url.Path.IsSettled (encodeChars s) := by
  rw [IsDot, not_or] at h
  refine ⟨isPlain_encodeChars s, ?_, ?_⟩
  · rw [← Bool.not_eq_true, isSingleDot_encodeChars]
    exact h.1
  · rw [← Bool.not_eq_true, isDoubleDot_encodeChars]
    exact h.2

/-- Whether dot segments, from `depth` segments below the bucket on, stay inside it. -/
def staysInside : Nat → List (List Char) → Bool
  | _, [] => true
  | depth, s :: rest =>
      if s = ['.', '.'] then depth != 0 && staysInside (depth - 1) rest
      else if s = ['.'] then staysInside depth rest
      else staysInside (depth + 1) rest

end Signing

namespace Url.Path

open Signing

theorem notDrive_encodeChars (s : List Char) : startsWithDrive (encodeChars s) = false := by
  have hmark : ∀ c m, m ∈ encodeChars s → isDriveMark c m = false := by
    intro c m hm
    have hcolon : m ≠ ':' := ne_of_mem_of_not_mem hm (notMem_encodeChars (by decide) s)
    have hbar : m ≠ '|' := ne_of_mem_of_not_mem hm (notMem_encodeChars (by decide) s)
    simp [isDriveMark, hcolon, hbar]
  unfold startsWithDrive
  split
  · rename_i hs
    exact hmark _ _ (by simp [hs])
  · rename_i hs
    exact hmark _ _ (by simp [hs])
  · rfl

theorem up_cons {s : Segment} (h : startsWithDrive s = false) (done : List Segment) :
    up (s :: done) = done := by
  rw [up, h]
  exact if_neg Bool.false_ne_true

theorem resolveFrom_double (done : List Segment) (rest : List (List Char)) :
    resolveFrom done ((['.', '.'] :: rest).map encodeChars) =
      resolveFrom (if rest.isEmpty then [] :: up done else up done) (rest.map encodeChars) := by
  rw [List.map_cons, resolveFrom, if_pos (isDoubleDot_encodeChars.2 rfl), List.isEmpty_map]

theorem resolveFrom_single (done : List Segment) (rest : List (List Char)) :
    resolveFrom done ((['.'] :: rest).map encodeChars) =
      resolveFrom (if rest.isEmpty then [] :: done else done) (rest.map encodeChars) := by
  have hdouble : ¬isDoubleDot (encodeChars ['.']) = true := by decide
  rw [List.map_cons, resolveFrom, if_neg hdouble, if_pos (isSingleDot_encodeChars.2 rfl),
    List.isEmpty_map]

theorem resolveFrom_plain {s : List Char} (h : ¬IsDot s) (done : List Segment)
    (rest : List (List Char)) :
    resolveFrom done ((s :: rest).map encodeChars) =
      resolveFrom (encodeChars s :: done) (rest.map encodeChars) := by
  have hsettled := isSettled_encodeChars h
  rw [List.map_cons, resolveFrom, hsettled.notDouble, hsettled.notSingle,
    if_neg Bool.false_ne_true, if_neg Bool.false_ne_true]

variable {segs : List (List Char)}

theorem resolveFrom_of_staysInside (inner front : List Segment) (bucket : Segment)
    (hinner : ∀ s ∈ inner, startsWithDrive s = false)
    (hne : inner ≠ [] ∨ segs ≠ []) (h : staysInside inner.length segs = true) :
    ∃ tail, tail ≠ [] ∧ resolveFrom (inner ++ bucket :: front) (segs.map encodeChars) =
      front.reverse ++ bucket :: tail := by
  induction segs generalizing inner with
  | nil =>
      refine ⟨inner.reverse, ?_, ?_⟩
      · simpa using hne
      · simp [resolveFrom]
  | cons s rest ih =>
      -- a dot segment at the end leaves an empty segment in the bucket
      have hempty : ∀ {inner : List Segment}, (∀ s ∈ inner, startsWithDrive s = false) →
          staysInside inner.length rest = true → ∃ tail, tail ≠ [] ∧
            resolveFrom (if rest.isEmpty then [] :: (inner ++ bucket :: front)
              else inner ++ bucket :: front) (rest.map encodeChars) =
            front.reverse ++ bucket :: tail := by
        intro inner hinner hrest
        cases rest with
        | nil => exact ⟨inner.reverse ++ [[]], by simp, by simp [resolveFrom]⟩
        | cons t rest => exact ih _ hinner (.inr (List.cons_ne_nil _ _)) hrest
      by_cases hdouble : s = ['.', '.']
      · subst hdouble
        rw [staysInside, if_pos rfl, Bool.and_eq_true] at h
        cases inner with
        | nil => exact absurd h.1 (by decide)
        | cons t inner =>
            rw [List.forall_mem_cons] at hinner
            rw [resolveFrom_double, List.cons_append, up_cons hinner.1]
            exact hempty hinner.2 h.2
      · by_cases hsingle : s = ['.']
        · subst hsingle
          rw [staysInside, if_neg hdouble, if_pos rfl] at h
          rw [resolveFrom_single]
          exact hempty hinner h
        · rw [staysInside, if_neg hdouble, if_neg hsingle] at h
          rw [resolveFrom_plain (not_or.2 ⟨hsingle, hdouble⟩), ← List.cons_append]
          exact ih _ (List.forall_mem_cons.2 ⟨notDrive_encodeChars s, hinner⟩)
            (.inl (List.cons_ne_nil _ _)) h

theorem resolveFrom_of_not_staysInside (inner front : List Segment) {bucket other : Segment}
    (hinner : ∀ s ∈ inner, startsWithDrive s = false)
    (hbucket : startsWithDrive bucket = false) (hother : startsWithDrive other = false)
    (h : staysInside inner.length segs = false) :
    resolveFrom (inner ++ bucket :: front) (segs.map encodeChars) =
      resolveFrom (inner ++ other :: front) (segs.map encodeChars) := by
  induction segs generalizing inner with
  | nil => cases h
  | cons s rest ih =>
      have hrest : ∀ {inner : List Segment}, (∀ s ∈ inner, startsWithDrive s = false) →
          staysInside inner.length rest = false →
          resolveFrom (if rest.isEmpty then [] :: (inner ++ bucket :: front)
              else inner ++ bucket :: front) (rest.map encodeChars) =
            resolveFrom (if rest.isEmpty then [] :: (inner ++ other :: front)
              else inner ++ other :: front) (rest.map encodeChars) := by
        intro inner hinner hrest
        cases rest with
        | nil => cases hrest
        | cons t rest => exact ih _ hinner hrest
      by_cases hdouble : s = ['.', '.']
      · subst hdouble
        rw [resolveFrom_double, resolveFrom_double]
        cases inner with
        | nil => rw [List.nil_append, List.nil_append, up_cons hbucket, up_cons hother]
        | cons t inner =>
            rw [List.forall_mem_cons] at hinner
            rw [staysInside, if_pos rfl, List.length_cons, Bool.and_eq_false_iff] at h
            rw [List.cons_append, List.cons_append, up_cons hinner.1, up_cons hinner.1]
            exact hrest hinner.2 (h.resolve_left (by simp))
      · by_cases hsingle : s = ['.']
        · subst hsingle
          rw [staysInside, if_neg hdouble, if_pos rfl] at h
          rw [resolveFrom_single, resolveFrom_single]
          exact hrest hinner h
        · rw [staysInside, if_neg hdouble, if_neg hsingle] at h
          rw [resolveFrom_plain (not_or.2 ⟨hsingle, hdouble⟩),
            resolveFrom_plain (not_or.2 ⟨hsingle, hdouble⟩), ← List.cons_append,
            ← List.cons_append]
          exact ih _ (List.forall_mem_cons.2 ⟨notDrive_encodeChars s, hinner⟩) h

end Url.Path

end ObjectCache
