import ObjectCache.Proofs.Signing.ObjectKeys

namespace ObjectCache.Signing

open Text

inductive Escaped : List Char → Prop
  | nil : Escaped []
  | unreserved {c : Char} {cs : List Char} (hc : isUnreserved c = true) (h : Escaped cs) :
      Escaped (c :: cs)
  | escape {high low : Char} {cs : List Char} (hhigh : high ∈ "0123456789ABCDEF".toList)
      (hlow : low ∈ "0123456789ABCDEF".toList) (h : Escaped cs) :
      Escaped ('%' :: high :: low :: cs)

theorem Escaped.append {as bs : List Char} (ha : Escaped as) (hb : Escaped bs) :
    Escaped (as ++ bs) := by
  induction ha with
  | nil => exact hb
  | unreserved hc _ ih => exact .unreserved hc ih
  | escape hhigh hlow _ ih => exact .escape hhigh hlow ih

theorem escaped_escapes (bytes : List UInt8) : Escaped (bytes.flatMap Percent.escape) := by
  induction bytes with
  | nil => exact .nil
  | cons b bytes ih =>
      obtain ⟨hhigh, hlow⟩ := Percent.digitChar_mem b
      exact .escape hhigh hlow ih

theorem escaped_encodeChars (cs : List Char) : Escaped (encodeChars cs) := by
  induction cs with
  | nil => exact .nil
  | cons c cs ih =>
      rw [encodeChars, Percent.encode, List.flatMap_cons, ← Percent.encode, ← encodeChars,
        Percent.encodeChar]
      split
      · rename_i hc
        exact .unreserved hc ih
      · exact (escaped_escapes _).append ih

theorem escaped_of_mem_pieces {path : String} {segment : List Char}
    (h : segment ∈ pieces (· == '/') (canonicalPath path).toList) : Escaped segment := by
  rw [pieces_canonicalPath] at h
  obtain ⟨cs, -, rfl⟩ := List.mem_map.1 h
  exact escaped_encodeChars cs

theorem joined_nil_cons (sep : Char) {ps : List (List Char)} (h : ps ≠ []) :
    joined sep ([] :: ps) = sep :: joined sep ps := by
  cases ps with
  | nil => exact absurd rfl h
  | cons p ps => rfl

theorem rooted_slash (s : String) : rooted ("/" ++ s) = '/' :: s.toList := by
  have hne : ("/" ++ s).isEmpty = false := by
    rw [← Bool.not_eq_true, String.isEmpty_iff, ← String.toList_inj]
    simp
  rw [rooted, hne]
  simp

theorem decodedSegments_slash_encodeKey (key : String) :
    decodedSegments ("/" ++ encodeKey key) = [] :: keySegments key := by
  have hne : (keySegments key).map encodeChars ≠ [] := by
    simpa using keySegments_ne_nil key
  have hslash : ∀ p ∈ (keySegments key).map encodeChars, '/' ∉ p := by
    intro p hp
    obtain ⟨cs, -, rfl⟩ := List.mem_map.1 hp
    exact notMem_encodeChars (by decide) cs
  have hempty : decodeChars [] = [] := decodeChars_encodeChars []
  have hpieces : pieces (· == '/') (rooted ("/" ++ encodeKey key)) =
      [] :: (keySegments key).map encodeChars := by
    rw [rooted_slash, toList_encodeKey, pieces, if_pos (beq_self_eq_true '/'),
      pieces_joined_of_notMem hne hslash]
  rw [decodedSegments, hpieces, List.map_cons, hempty, map_decodeChars_encodeChars]

theorem canonicalPath_slash_encodeKey (key : String) :
    canonicalPath ("/" ++ encodeKey key) = "/" ++ encodeKey key := by
  have hne : (keySegments key).map encodeChars ≠ [] := by
    simpa using keySegments_ne_nil key
  have hempty : encodeChars [] = [] := rfl
  rw [← String.toList_inj, canonicalPath_eq, decodedSegments_slash_encodeKey, List.map_cons, hempty,
    String.toList_ofList, joined_nil_cons '/' hne, ← toList_encodeKey, String.toList_append]
  rfl

/-- Making a canonical path canonical changes nothing. It is never empty and has nothing but unreserved
characters and escapes in its segments, which decode to the segments of the path one by one; so two
paths share it just if their segments decode alike, and an escaped slash stays inside its segment. The
path of a key is canonical as it is written. An empty path counts as a slash. -/
theorem canonical_path_is_stable (path other key : String) :
    canonicalPath (canonicalPath path) = canonicalPath path ∧
    canonicalPath path ≠ "" ∧
    (∀ segment ∈ pieces (· == '/') (canonicalPath path).toList, Escaped segment) ∧
    (pieces (· == '/') (canonicalPath path).toList).map decodeChars =
      (pieces (· == '/') (rooted path)).map decodeChars ∧
    (canonicalPath path = canonicalPath other ↔
      (pieces (· == '/') (rooted path)).map decodeChars =
        (pieces (· == '/') (rooted other)).map decodeChars) ∧
    canonicalPath ("/" ++ encodeKey key) = "/" ++ encodeKey key := by
  exact ⟨canonicalPath_canonicalPath path, canonicalPath_ne_empty path,
    fun segment => escaped_of_mem_pieces, map_decodeChars_pieces_canonicalPath path,
    canonicalPath_eq_iff, canonicalPath_slash_encodeKey key⟩

theorem escaped_slash_stays_in_segment :
    let path := "/a%2fb/%zz%é"
    canonicalPath path = "/a%2Fb/%25zz%25%C3%A9" ∧
      "a%2Fb".toList ∈ pieces (· == '/') (canonicalPath path).toList ∧
      Escaped "a%2Fb".toList ∧
      canonicalPath "/a%2fb" ≠ canonicalPath "/a/b" := by
  intro path
  have hmem : "a%2Fb".toList ∈ pieces (· == '/') (canonicalPath path).toList := by decide +kernel
  obtain ⟨-, -, hescaped, -, -, -⟩ := canonical_path_is_stable path "" ""
  obtain ⟨-, -, -, -, hiff, -⟩ := canonical_path_is_stable "/a%2fb" "/a/b" ""
  refine ⟨by decide +kernel, hmem, hescaped _ hmem, fun heq => ?_⟩
  exact absurd (hiff.1 heq) (by decide +kernel)

end ObjectCache.Signing
