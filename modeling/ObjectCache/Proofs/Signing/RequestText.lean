import ObjectCache.Proofs.Signing.Canonical
import ObjectCache.Proofs.Signing.Fields
import ObjectCache.Signing.Signer

namespace ObjectCache

namespace Signing

open Text

theorem notMem_of_isToken {s : String} (h : isToken s = true) {c : Char}
    (hc : isTokenChar c = false) : c ∉ s.toList := by
  rw [isToken, Bool.and_eq_true, List.all_eq_true] at h
  exact notMem_of_kind h.2 hc

namespace Fields

def collapsed (f : Fields) : List (String × String) := f.entries.map fun e => (e.1, collapse e.2)

def words? (f : Fields) (name : String) : Option (List (List Char)) :=
  (f.get? name).map fun value => words value.toList

theorem mem_collapsed_iff (f : Fields) (name value : String) :
    (name, value) ∈ f.collapsed ↔ (f.get? name).map collapse = some value := by
  simp only [collapsed, List.mem_map, Option.map_eq_some_iff, get?_eq_some_iff]
  constructor
  · rintro ⟨⟨_, raw⟩, he, heq⟩
    cases heq
    exact ⟨raw, he, rfl⟩
  · rintro ⟨raw, he, rfl⟩
    exact ⟨(name, raw), he, rfl⟩

theorem words?_eq_iff {f g : Fields} {name : String} :
    f.words? name = g.words? name ↔ (f.get? name).map collapse = (g.get? name).map collapse := by
  rw [words?, words?]
  cases f.get? name <;> cases g.get? name <;> simp [collapse_eq_iff]

theorem collapsed_eq_iff {f g : Fields} :
    f.collapsed = g.collapsed ↔ ∀ name, f.words? name = g.words? name := by
  constructor
  · intro h name
    rw [words?_eq_iff]
    apply Option.ext
    intro value
    rw [← mem_collapsed_iff, ← mem_collapsed_iff, h]
  · intro h
    have hf : f.collapsed.Pairwise fun a b => a.1 < b.1 := List.pairwise_map.2 f.sorted
    have hg : g.collapsed.Pairwise fun a b => a.1 < b.1 := List.pairwise_map.2 g.sorted
    refine pairwise_eq_of_mem_iff hf hg fun ⟨name, value⟩ => ?_
    rw [mem_collapsed_iff, mem_collapsed_iff, words?_eq_iff.1 (h name)]

theorem names_eq_of_collapsed {f g : Fields} (h : f.collapsed = g.collapsed) :
    f.names = g.names := by
  have hnames := congrArg (List.map Prod.fst) h
  simpa [collapsed, names, Function.comp_def] using hnames

end Fields

namespace CanonicalRequest

structure Separable (r : CanonicalRequest) : Prop where
  method : '\n' ∉ r.method.toList
  path : '\n' ∉ r.path.toList
  query : '\n' ∉ r.query.toList
  names : ∀ name ∈ r.fields.names, isToken name = true

def fieldChars (e : String × String) : List Char := e.1.toList ++ ':' :: e.2.toList

theorem toList_fieldLines (f : Fields) :
    (fieldLines f).toList = f.collapsed.flatMap fun e => fieldChars e ++ ['\n'] := by
  rw [fieldLines, String.toList_join, List.flatMap_map, Fields.collapsed, List.flatMap_map]
  simp [fieldLine, fieldChars]

theorem pieces_lines (es : List (String × String)) (rest : List Char)
    (h : ∀ e ∈ es, '\n' ∉ fieldChars e) :
    pieces (· == '\n') ((es.flatMap fun e => fieldChars e ++ ['\n']) ++ rest) =
      es.map fieldChars ++ pieces (· == '\n') rest := by
  induction es with
  | nil => rfl
  | cons e es ih =>
      have hrest := ih fun d hd => h d (.tail _ hd)
      rw [List.flatMap_cons, List.append_assoc, List.append_assoc, List.singleton_append,
        pieces_append, pieces_of_notMem (h e (.head _)), hrest]
      rfl

variable {r s : CanonicalRequest}

theorem Separable.name (h : r.Separable) {e : String × String} (he : e ∈ r.fields.collapsed) :
    isToken e.1 = true := by
  obtain ⟨d, hd, rfl⟩ := List.mem_map.1 he
  exact h.names d.1 (List.mem_map_of_mem hd)

theorem Separable.fieldChars (h : r.Separable) :
    ∀ e ∈ r.fields.collapsed, '\n' ∉ fieldChars e := by
  intro e he hmem
  have hname := notMem_of_isToken (h.name he) (c := '\n') (by decide)
  obtain ⟨d, _, rfl⟩ := List.mem_map.1 he
  rw [CanonicalRequest.fieldChars, List.mem_append, List.mem_cons] at hmem
  rcases hmem with hmem | hmem | hmem
  · exact hname hmem
  · cases hmem
  · exact notMem_collapse (by decide) (by decide) d.2 hmem

theorem toList_signedNames (f : Fields) :
    (CanonicalRequest.signedNames f).toList = joined ';' (f.names.map String.toList) := by
  rw [CanonicalRequest.signedNames, String.toList_intercalate, ← intercalate_eq_joined]
  rfl

theorem notMem_signedNames {c : Char} (hsep : c ≠ ';') (hc : isTokenChar c = false) {f : Fields}
    (h : ∀ name ∈ f.names, isToken name = true) : c ∉ (signedNames f).toList := by
  rw [toList_signedNames]
  refine notMem_joined hsep fun p hp => ?_
  obtain ⟨name, hname, rfl⟩ := List.mem_map.1 hp
  exact notMem_of_isToken (h name hname) hc

theorem Separable.signedNames (h : r.Separable) : '\n' ∉ (signedNames r.fields).toList :=
  notMem_signedNames (by decide) (by decide) h.names

theorem Separable.lines (h : r.Separable) :
    pieces (· == '\n') r.text.toList =
      r.method.toList :: r.path.toList :: r.query.toList ::
        (r.fields.collapsed.map CanonicalRequest.fieldChars ++
          [] :: (CanonicalRequest.signedNames r.fields).toList ::
            pieces (· == '\n') r.payloadHash.toList) := by
  have htext : r.text.toList = r.method.toList ++ '\n' :: (r.path.toList ++ '\n' ::
      (r.query.toList ++ '\n' :: ((fieldLines r.fields).toList ++ ([] ++ '\n' ::
        ((CanonicalRequest.signedNames r.fields).toList ++ '\n' :: r.payloadHash.toList))))) := by
    simp [text]
  rw [htext, pieces_append, pieces_append, pieces_append, toList_fieldLines,
    pieces_lines _ _ h.fieldChars, pieces_append, pieces_append, pieces_of_notMem h.method,
    pieces_of_notMem h.path, pieces_of_notMem h.query, pieces_of_notMem h.signedNames]
  rfl

theorem fieldChars_ne_nil (e : String × String) : CanonicalRequest.fieldChars e ≠ [] := by
  simp [CanonicalRequest.fieldChars]

theorem eq_of_map_fieldChars {es ds : List (String × String)}
    (he : ∀ e ∈ es, isToken e.1 = true) (hd : ∀ e ∈ ds, isToken e.1 = true)
    (h : es.map CanonicalRequest.fieldChars = ds.map CanonicalRequest.fieldChars) : es = ds := by
  induction es generalizing ds with
  | nil => simpa using h.symm
  | cons e es ih =>
      cases ds with
      | nil => simp at h
      | cons d ds =>
          rw [List.map_cons, List.map_cons, List.cons.injEq] at h
          have hname : ':' ∉ e.1.toList := notMem_of_isToken (he e (.head _)) (by decide)
          have hname' : ':' ∉ d.1.toList := notMem_of_isToken (hd d (.head _)) (by decide)
          obtain ⟨hfst, hsnd⟩ := eq_of_append_cons_eq hname hname' h.1
          have htail := ih (fun e he' => he e (.tail _ he')) (fun e hd' => hd e (.tail _ hd')) h.2
          rw [Prod.ext (String.toList_inj.1 hfst) (String.toList_inj.1 hsnd), htail]

theorem text_congr (hmethod : r.method = s.method) (hpath : r.path = s.path)
    (hquery : r.query = s.query) (hfields : r.fields.collapsed = s.fields.collapsed)
    (hpayload : r.payloadHash = s.payloadHash) : r.text = s.text := by
  have hlines : fieldLines r.fields = fieldLines s.fields := by
    rw [← String.toList_inj, toList_fieldLines, toList_fieldLines, hfields]
  rw [text, text, hmethod, hpath, hquery, hlines, hpayload, CanonicalRequest.signedNames,
    CanonicalRequest.signedNames, Fields.names_eq_of_collapsed hfields]

theorem text_eq_iff (hr : r.Separable) (hs : s.Separable) :
    r.text = s.text ↔ r.method = s.method ∧ r.path = s.path ∧ r.query = s.query ∧
      r.fields.collapsed = s.fields.collapsed ∧ r.payloadHash = s.payloadHash := by
  constructor
  · intro h
    have hlines := hr.lines
    rw [h, hs.lines, List.cons.injEq, List.cons.injEq, List.cons.injEq] at hlines
    obtain ⟨hmethod, hpath, hquery, hrest⟩ := hlines
    -- the fields end at the first empty line
    have hempty : ∀ t : CanonicalRequest, [] ∉ t.fields.collapsed.map fieldChars := by
      intro t hmem
      obtain ⟨e, _, he⟩ := List.mem_map.1 hmem
      exact fieldChars_ne_nil e he
    obtain ⟨hfields, hrest⟩ := eq_of_append_cons_eq (hempty s) (hempty r) hrest
    rw [List.cons.injEq] at hrest
    have hpayload : s.payloadHash.toList = r.payloadHash.toList := by
      rw [← joined_pieces '\n' s.payloadHash.toList, hrest.2, joined_pieces]
    refine ⟨String.toList_inj.1 hmethod.symm, String.toList_inj.1 hpath.symm,
      String.toList_inj.1 hquery.symm, ?_, String.toList_inj.1 hpayload.symm⟩
    exact (eq_of_map_fieldChars (fun _ => hs.name) (fun _ => hr.name) hfields).symm
  · rintro ⟨hmethod, hpath, hquery, hfields, hpayload⟩
    exact text_congr hmethod hpath hquery hfields hpayload

end CanonicalRequest

theorem separable_canonical (r : SignableRequest) (payloadHash : String)
    (h : ∀ name ∈ r.fields.names, isToken name = true) :
    (Signer.canonical r r.fields payloadHash).Separable where
  method := notMem_of_isToken r.method.valid (by decide)
  path := notMem_canonicalPath (by decide) (by decide) r.url.path
  query := notMem_canonicalQuery (by decide) (by decide) (by decide) _
  names := h

end Signing

namespace SignableRequest

open Signing Text

def withFields (r : SignableRequest) (headers : List (String × String)) : SignableRequest :=
  headers.foldl (fun r e => r.withField e.1 e.2) r

def headerName (e : String × String) : String := lower e.1

def headerWords (e : String × String) : List (List Char) := words e.2.toList

variable {r : SignableRequest} {headers others : List (String × String)}

theorem words?_withField (r : SignableRequest) (e : String × String) (name : String) :
    (r.withField e.1 e.2).fields.words? name =
      if name = headerName e then some (headerWords e) else r.fields.words? name := by
  rw [withField, Fields.words?, Fields.get?_insert, headerName]
  split
  · rfl
  · rfl

theorem words?_withFields_of_missing {name : String} (h : name ∉ headers.map headerName) :
    (r.withFields headers).fields.words? name = r.fields.words? name := by
  induction headers generalizing r with
  | nil => rfl
  | cons e headers ih =>
      rw [List.map_cons, List.mem_cons, not_or] at h
      rw [withFields, List.foldl_cons, ← withFields, ih h.2, words?_withField, if_neg h.1]

theorem words?_withFields_of_mem (hdistinct : (headers.map headerName).Nodup)
    {e : String × String} (he : e ∈ headers) :
    (r.withFields headers).fields.words? (headerName e) = some (headerWords e) := by
  induction headers generalizing r with
  | nil => cases he
  | cons d headers ih =>
      rw [List.map_cons, List.nodup_cons] at hdistinct
      rw [withFields, List.foldl_cons, ← withFields]
      cases he with
      | head _ => rw [words?_withFields_of_missing hdistinct.1, words?_withField, if_pos rfl]
      | tail _ he => exact ih hdistinct.2 he

theorem words?_withFields_congr (hdistinct : (headers.map headerName).Nodup)
    (h : (headers.map fun e => (headerName e, headerWords e)).Perm
      (others.map fun e => (headerName e, headerWords e))) (name : String) :
    (r.withFields headers).fields.words? name = (r.withFields others).fields.words? name := by
  have hnames : (headers.map headerName).Perm (others.map headerName) := by
    simpa [Function.comp_def] using h.map Prod.fst
  by_cases hname : name ∈ headers.map headerName
  · obtain ⟨e, he, rfl⟩ := List.mem_map.1 hname
    obtain ⟨d, hd, hsame⟩ := List.mem_map.1 (h.mem_iff.1 (List.mem_map_of_mem he))
    rw [Prod.mk.injEq] at hsame
    have hother := words?_withFields_of_mem (r := r) (hnames.nodup_iff.1 hdistinct) hd
    rw [words?_withFields_of_mem hdistinct he, ← hsame.1, hother, hsame.2]
  · have hother : name ∉ others.map headerName := fun hmem => hname (hnames.mem_iff.2 hmem)
    rw [words?_withFields_of_missing hname, words?_withFields_of_missing hother]

end SignableRequest

namespace Signing

open SignableRequest Text

/-- Two requests have the same canonical text when, and only when, they have the same method, the
same segments of the path and the same parameters of the query once decoded, in whatever order, the
same words in each field, and the same hash of the payload. The order in which headers are given,
the case of their names and the blanks in their values make no difference. -/
theorem canonical_text_eq_iff (r q : SignableRequest) (payloadHash otherHash : String)
    (hr : ∀ name ∈ r.fields.names, isToken name = true)
    (hq : ∀ name ∈ q.fields.names, isToken name = true) :
    ((Signer.canonical r r.fields payloadHash).text = (Signer.canonical q q.fields otherHash).text ↔
      r.method.name = q.method.name ∧
      decodedSegments r.url.path = decodedSegments q.url.path ∧
      (parseQuery (r.url.query.getD "")).Perm (parseQuery (q.url.query.getD "")) ∧
      (∀ name, r.fields.words? name = q.fields.words? name) ∧
      payloadHash = otherHash) ∧
    ∀ headers others : List (String × String),
      (headers.map headerName).Nodup →
      (headers.map fun e => (headerName e, headerWords e)).Perm
        (others.map fun e => (headerName e, headerWords e)) →
      (Signer.canonical r (r.withFields headers).fields payloadHash).text =
        (Signer.canonical r (r.withFields others).fields payloadHash).text := by
  constructor
  · have hiff := CanonicalRequest.text_eq_iff (separable_canonical r payloadHash hr)
      (separable_canonical q otherHash hq)
    rw [hiff, ← canonicalPath_eq_iff, ← canonicalQuery_eq_iff, ← Fields.collapsed_eq_iff]
    rfl
  · intro headers others hdistinct hsame
    have hwords := words?_withFields_congr (r := r) hdistinct hsame
    exact CanonicalRequest.text_congr rfl rfl rfl (Fields.collapsed_eq_iff.2 hwords) rfl

theorem respelled_request_has_same_text :
    let place : Option Url.Authority := some ⟨"", "", .name "h", none⟩
    let r : SignableRequest := ⟨.get, ⟨"https", place, "/b/a%2Db", some "x=1&y=2", none⟩,
      .ofList [("host", "h"), ("x-note", "a b")]⟩
    let q : SignableRequest := ⟨.get, ⟨"https", place, "/b/a-b", some "y=2&x=%31", none⟩,
      .ofList [("x-note", " a  b "), ("host", "h")]⟩
    (∀ name ∈ r.fields.names, isToken name = true) ∧
      (∀ name ∈ q.fields.names, isToken name = true) ∧
      (Signer.canonical r r.fields "").text = (Signer.canonical q q.fields "").text := by
  intro place r q
  have hr : ∀ name ∈ r.fields.names, isToken name = true := by decide +kernel
  have hq : ∀ name ∈ q.fields.names, isToken name = true := by decide +kernel
  have hsegments : decodedSegments r.url.path = decodedSegments q.url.path := by decide +kernel
  have hquery : (parseQuery (r.url.query.getD "")).Perm (parseQuery (q.url.query.getD "")) := by
    decide +kernel
  have hfields : r.fields.collapsed = q.fields.collapsed := by decide +kernel
  refine ⟨hr, hq, (canonical_text_eq_iff r q "" "" hr hq).1.2 ⟨rfl, hsegments, hquery, ?_, rfl⟩⟩
  exact Fields.collapsed_eq_iff.1 hfields

end Signing

end ObjectCache
