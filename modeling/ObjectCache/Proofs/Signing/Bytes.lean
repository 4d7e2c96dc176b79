import ObjectCache.Proofs.Signing.Canonical

namespace ObjectCache.Signing

open Text Percent

/-- The bytes that a text stands for in a URL. -/
def named (cs : List Char) : List UInt8 := decode (utf8 cs)

def IsText (bytes : List UInt8) : Prop := (⟨bytes.toArray⟩ : ByteArray).IsValidUTF8

instance (bytes : List UInt8) : Decidable (IsText bytes) :=
  inferInstanceAs (Decidable (ByteArray.IsValidUTF8 _))

/-- The bytes that a text is signed as. -/
def kept (cs : List Char) : List UInt8 := if IsText (named cs) then named cs else utf8 cs

def encodeByte (b : UInt8) : List Char :=
  if isUnreserved (Char.ofNat b.toNat) then [Char.ofNat b.toNat] else escape b

def encodeBytes (bytes : List UInt8) : List Char := bytes.flatMap encodeByte

theorem isText_utf8 (cs : List Char) : IsText (utf8 cs) := by
  refine ⟨cs, ByteArray.ext ?_⟩
  rw [List.utf8Encode, List.data_toByteArray, utf8]

theorem decodeText?_ofList (cs : List Char) :
    decodeText? (String.ofList cs) = String.fromUTF8? ⟨(named cs).toArray⟩ := by
  rw [decodeText?, decodedBytes, toUTF8_ofList, named]

theorem exists_text_of_isText {cs : List Char} (h : IsText (named cs)) :
    ∃ t, decodeText? (String.ofList cs) = some t ∧ utf8 t.toList = named cs := by
  rw [decodeText?_ofList, String.fromUTF8?]
  refine ⟨_, dif_pos h, ?_⟩
  rw [utf8_toList]
  rfl

theorem decodeText?_eq_none {cs : List Char} (h : ¬IsText (named cs)) :
    decodeText? (String.ofList cs) = none := by
  rw [decodeText?_ofList, String.fromUTF8?]
  exact dif_neg h

theorem utf8_decodeChars (cs : List Char) : utf8 (decodeChars cs) = kept cs := by
  rw [decodeChars, decodeText, kept]
  split
  · rename_i htext
    obtain ⟨t, ht, hbytes⟩ := exists_text_of_isText htext
    rw [ht, Option.getD_some, hbytes]
  · rename_i htext
    rw [decodeText?_eq_none htext, Option.getD_none, String.toList_ofList]

theorem kept_eq_named_iff {cs : List Char} : kept cs = named cs ↔ IsText (named cs) := by
  constructor
  · intro h
    rw [← h, ← utf8_decodeChars]
    exact isText_utf8 _
  · exact fun h => if_pos h

theorem map_kept_eq_map_named_iff {ps : List (List Char)} :
    ps.map kept = ps.map named ↔ ∀ p ∈ ps, IsText (named p) := by
  rw [List.map_inj_left]
  exact forall₂_congr fun _ _ => kept_eq_named_iff

theorem toNat_ofNat_byte (b : UInt8) : (Char.ofNat b.toNat).toNat = b.toNat := by
  have hb := b.toNat_lt
  exact toNat_ofNat (.inl (by omega))

theorem named_encodeByte_append (b : UInt8) (cs : List Char) :
    named (encodeByte b ++ cs) = b :: named cs := by
  rw [named, utf8_append, encodeByte]
  split
  · rename_i hkeep
    obtain ⟨hlt, hne⟩ := keeps_isUnreserved _ hkeep
    have hbyte : UInt8.ofNat (Char.ofNat b.toNat).toNat = b := by
      rw [toNat_ofNat_byte, UInt8.ofNat_toNat]
    rw [utf8, List.flatMap_cons, List.flatMap_nil, List.append_nil, utf8EncodeChar_of_lt hlt,
      hbyte, List.singleton_append, decode_cons_of_ne (hbyte ▸ ofNat_ne_of_ne hlt hne), named]
  · exact decode_escape b _

theorem named_encodeBytes (bytes : List UInt8) : named (encodeBytes bytes) = bytes := by
  induction bytes with
  | nil => rfl
  | cons b bytes ih => rw [encodeBytes, List.flatMap_cons, named_encodeByte_append, ← encodeBytes, ih]

theorem encodeByte_of_le {b : UInt8} (h : 128 ≤ b.toNat) : encodeByte b = escape b := by
  refine if_neg fun hkeep => ?_
  have hlt := (keeps_isUnreserved _ hkeep).1
  rw [toNat_ofNat_byte] at hlt
  exact Nat.not_lt.2 h hlt

theorem le_of_mem_utf8EncodeChar {c : Char} (h : 128 ≤ c.toNat) :
    ∀ b ∈ String.utf8EncodeChar c, 128 ≤ b.toNat := by
  have hlong : ¬c.val.toNat ≤ 127 := Nat.not_le.2 h
  intro b hb
  simp only [String.utf8EncodeChar, hlong, if_false] at hb
  split at hb
  · simp only [List.mem_cons, List.not_mem_nil, or_false] at hb
    rcases hb with rfl | rfl <;> simp only [UInt8.toNat_ofNat'] <;> omega
  · split at hb
    · simp only [List.mem_cons, List.not_mem_nil, or_false] at hb
      rcases hb with rfl | rfl | rfl <;> simp only [UInt8.toNat_ofNat'] <;> omega
    · simp only [List.mem_cons, List.not_mem_nil, or_false] at hb
      rcases hb with rfl | rfl | rfl | rfl <;> simp only [UInt8.toNat_ofNat'] <;> omega

theorem encodeBytes_utf8EncodeChar (c : Char) :
    encodeBytes (String.utf8EncodeChar c) = encodeChar isUnreserved c := by
  by_cases hlt : c.toNat < 128
  · have hbyte : Char.ofNat (UInt8.ofNat c.toNat).toNat = c := by
      rw [UInt8.toNat_ofNat_of_lt' (by rw [UInt8.size]; omega), Char.ofNat_toNat]
    rw [encodeChar, utf8EncodeChar_of_lt hlt, encodeBytes, List.flatMap_singleton,
      List.flatMap_singleton, encodeByte, hbyte]
  · have hlong : ∀ b ∈ String.utf8EncodeChar c, encodeByte b = escape b := fun b hb =>
      encodeByte_of_le (le_of_mem_utf8EncodeChar (Nat.le_of_not_lt hlt) b hb)
    have hreserved : ¬isUnreserved c = true := fun hkeep => hlt (keeps_isUnreserved c hkeep).1
    rw [encodeChar, if_neg hreserved, encodeBytes, List.flatMap_def,
      List.map_congr_left hlong, ← List.flatMap_def]

theorem encodeBytes_utf8 (cs : List Char) : encodeBytes (utf8 cs) = encodeChars cs := by
  induction cs with
  | nil => rfl
  | cons c cs ih =>
      rw [utf8, List.flatMap_cons, encodeBytes, List.flatMap_append, ← encodeBytes, ← utf8,
        ← encodeBytes, ih, encodeBytes_utf8EncodeChar]
      rfl

def segments (path : String) : List (List Char) := pieces (· == '/') (rooted path)

def pathOf (bytes : List (List UInt8)) : String :=
  String.ofList (joined '/' (bytes.map encodeBytes))

theorem isEncoded_of_mem_encodeBytes {bytes : List UInt8} {c : Char} (h : c ∈ encodeBytes bytes) :
    isEncoded c = true := by
  obtain ⟨b, _, hc⟩ := List.mem_flatMap.1 h
  rw [encodeByte] at hc
  split at hc
  · rename_i hkeep
    rw [List.mem_singleton.1 hc, isEncoded, hkeep, Bool.true_or]
  · obtain ⟨hhigh, hlow⟩ := digitChar_mem b
    simp only [escape, List.mem_cons, List.not_mem_nil, or_false] at hc
    rcases hc with rfl | rfl | rfl
    · rfl
    · exact isEncoded_of_mem_hexDigits _ hhigh
    · exact isEncoded_of_mem_hexDigits _ hlow

theorem notMem_encodeBytes {c : Char} (h : isEncoded c = false) (bytes : List UInt8) :
    c ∉ encodeBytes bytes :=
  notMem_of_kind (fun _ hd => isEncoded_of_mem_encodeBytes hd) h

theorem pathOf_inj {ps qs : List (List UInt8)} (hp : ps ≠ []) (hq : qs ≠ []) :
    pathOf ps = pathOf qs ↔ ps = qs := by
  have hslash : ∀ rs : List (List UInt8), ∀ cs ∈ rs.map encodeBytes, '/' ∉ cs := by
    intro rs cs hcs
    obtain ⟨bytes, _, rfl⟩ := List.mem_map.1 hcs
    exact notMem_encodeBytes (by decide) bytes
  constructor
  · intro h
    have hspelled := joined_injective (by simpa using hp) (by simpa using hq) (hslash ps) (hslash qs)
      (String.ofList_injective h)
    have hnamed := congrArg (List.map named) hspelled
    simpa [Function.comp_def, named_encodeBytes] using hnamed
  · rintro rfl
    rfl

theorem segments_ne_nil (path : String) : segments path ≠ [] := pieces_ne_nil _ _

theorem map_encodeChars_decodedSegments (path : String) :
    (decodedSegments path).map encodeChars = ((segments path).map kept).map encodeBytes := by
  rw [decodedSegments, List.map_map, List.map_map, segments]
  refine List.map_congr_left fun p _ => ?_
  rw [Function.comp, Function.comp, ← utf8_decodeChars, encodeBytes_utf8]

theorem canonicalPath_eq_pathOf (path : String) :
    canonicalPath path = pathOf ((segments path).map kept) := by
  rw [canonicalPath_eq, map_encodeChars_decodedSegments, pathOf]

theorem named_segments_canonicalPath (path : String) :
    (segments (canonicalPath path)).map named = (segments path).map kept := by
  rw [segments, rooted_canonicalPath, pieces_canonicalPath, map_encodeChars_decodedSegments,
    List.map_map]
  simp [Function.comp_def, named_encodeBytes]

abbrev BytePair := List UInt8 × List UInt8

def nameAndValue (parameter : List Char) : List Char × List Char :=
  (parameter.takeWhile (· != '='), (parameter.dropWhile (· != '=')).drop 1)

def namedPair (parameter : List Char) : BytePair :=
  (named (nameAndValue parameter).1, named (nameAndValue parameter).2)

def keptPair (parameter : List Char) : BytePair :=
  (kept (nameAndValue parameter).1, kept (nameAndValue parameter).2)

def encodeBytePair (p : BytePair) : String × String :=
  (String.ofList (encodeBytes p.1), String.ofList (encodeBytes p.2))

def queryOf (pairs : List BytePair) : String :=
  String.ofList (joined '&' (((pairs.map encodeBytePair).mergeSort pairLe).map pairChars))

theorem namedPair_pairChars (p : BytePair) : namedPair (pairChars (encodeBytePair p)) = p := by
  have hname : '=' ∉ encodeBytes p.1 := notMem_encodeBytes (by decide) p.1
  simp [namedPair, nameAndValue, pairChars, encodeBytePair, takeWhile_append_cons hname,
    dropWhile_append_cons hname, named_encodeBytes]

theorem encodePair_queryPair (parameter : List Char) :
    encodePair (queryPair parameter) = encodeBytePair (keptPair parameter) := by
  rw [encodeBytePair, keptPair, ← utf8_decodeChars, ← utf8_decodeChars, encodeBytes_utf8,
    encodeBytes_utf8]
  rfl

theorem canonicalQuery_parseQuery (query : String) :
    canonicalQuery (parseQuery query) = queryOf ((parameters query.toList).map keptPair) := by
  rw [canonicalQuery, queryOf, sortedPairs, parseQuery_eq, List.map_map, List.map_map]
  congr 4
  exact List.map_congr_left fun p _ => encodePair_queryPair p

theorem namedPairs_queryOf (pairs : List BytePair) :
    ((parameters (queryOf pairs).toList).map namedPair).Perm pairs := by
  have hperm := List.mergeSort_perm (pairs.map encodeBytePair) pairLe
  have hsep : ∀ e ∈ (pairs.map encodeBytePair).mergeSort pairLe, '&' ∉ pairChars e := by
    intro e he
    obtain ⟨p, _, rfl⟩ := List.mem_map.1 (hperm.mem_iff.1 he)
    simp [pairChars, encodeBytePair, notMem_encodeBytes (c := '&') (by decide)]
  rw [queryOf, String.toList_ofList, parameters_joined hsep]
  refine ((hperm.map pairChars).map namedPair).trans (List.Perm.of_eq ?_)
  rw [List.map_map, List.map_map]
  simp [Function.comp_def, namedPair_pairChars]

theorem queryOf_eq_iff {ps qs : List BytePair} : queryOf ps = queryOf qs ↔ ps.Perm qs := by
  constructor
  · intro h
    have hps := namedPairs_queryOf ps
    rw [h] at hps
    exact hps.symm.trans (namedPairs_queryOf qs)
  · intro h
    rw [queryOf, mergeSort_eq_of_perm (h.map encodeBytePair), queryOf]

theorem isText_kept (cs : List Char) : IsText (kept cs) := by
  rw [← utf8_decodeChars]
  exact isText_utf8 _

theorem keptPairs_perm_iff {ps : List (List Char)} :
    (ps.map keptPair).Perm (ps.map namedPair) ↔
      ∀ p ∈ ps, IsText (namedPair p).1 ∧ IsText (namedPair p).2 := by
  constructor
  · intro h p hp
    obtain ⟨q, _, hq⟩ := List.mem_map.1 (h.mem_iff.2 (List.mem_map_of_mem hp))
    rw [← hq]
    exact ⟨isText_kept _, isText_kept _⟩
  · intro h
    refine List.Perm.of_eq (List.map_congr_left fun p hp => ?_)
    exact Prod.ext (kept_eq_named_iff.2 (h p hp).1) (kept_eq_named_iff.2 (h p hp).2)

/-- The canonical texts of a path and of a query name the bytes that the path and the query name, and
are what these bytes are spelled as again, just if all of the bytes spell text. Whatever does not is
named as it is written. -/
theorem canonical_texts_name_same_bytes_iff (path query : String) :
    ((segments (canonicalPath path)).length = (segments path).length ∧
      (segments (canonicalPath path)).map named = (segments path).map kept ∧
      ((segments (canonicalPath path)).map named = (segments path).map named ↔
        ∀ p ∈ segments path, IsText (named p)) ∧
      (canonicalPath path = pathOf ((segments path).map named) ↔
        ∀ p ∈ segments path, IsText (named p))) ∧
    ((parameters (canonicalQuery (parseQuery query)).toList).map namedPair).Perm
      ((parameters query.toList).map keptPair) ∧
    (((parameters (canonicalQuery (parseQuery query)).toList).map namedPair).Perm
        ((parameters query.toList).map namedPair) ↔
      ∀ p ∈ parameters query.toList, IsText (namedPair p).1 ∧ IsText (namedPair p).2) ∧
    (canonicalQuery (parseQuery query) = queryOf ((parameters query.toList).map namedPair) ↔
      ∀ p ∈ parameters query.toList, IsText (namedPair p).1 ∧ IsText (namedPair p).2) := by
  have hpath := named_segments_canonicalPath path
  have hquery := namedPairs_queryOf ((parameters query.toList).map keptPair)
  rw [← canonicalQuery_parseQuery] at hquery
  refine ⟨⟨?_, hpath, ?_, ?_⟩, hquery, ?_, ?_⟩
  · simpa using congrArg List.length hpath
  · rw [hpath, map_kept_eq_map_named_iff]
  · rw [canonicalPath_eq_pathOf, pathOf_inj, map_kept_eq_map_named_iff]
    · simpa using segments_ne_nil path
    · simpa using segments_ne_nil path
  · rw [← keptPairs_perm_iff]
    exact ⟨hquery.symm.trans, hquery.trans⟩
  · rw [canonicalQuery_parseQuery, queryOf_eq_iff, keptPairs_perm_iff]

theorem escape_of_lone_byte_is_escaped_again :
    canonicalPath "/%FF" = "/%25FF" ∧
      (segments (canonicalPath "/%FF")).map named ≠ (segments "/%FF").map named ∧
      canonicalPath "/%FF" ≠ pathOf ((segments "/%FF").map named) := by
  decide +kernel

end ObjectCache.Signing
