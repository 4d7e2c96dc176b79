import ObjectCache.Proofs.Signing.ObjectKeys
import ObjectCache.Proofs.Url.Network
import ObjectCache.Signing.Signer

namespace ObjectCache

open Signing Text Url

namespace Signing

def isBucketEnd (c : Char) : Bool :=
  (97 ≤ c.toNat && c.toNat ≤ 122) || (48 ≤ c.toNat && c.toNat ≤ 57)

def isBucketChar (c : Char) : Bool := isBucketEnd c || c == '-' || c == '.'

def isBucketName (bucket : String) : Bool :=
  bucket.toList.all isBucketChar && bucket.toList.head?.any isBucketEnd &&
    bucket.toList.getLast?.any isBucketEnd

variable {bucket : String}

theorem isBucketChar_of_mem (h : isBucketName bucket = true) :
    ∀ c ∈ bucket.toList, isBucketChar c = true := by
  rw [isBucketName, Bool.and_eq_true, Bool.and_eq_true] at h
  exact List.all_eq_true.1 h.1.1

theorem exists_cons_of_isBucketName (h : isBucketName bucket = true) :
    ∃ c cs, bucket.toList = c :: cs ∧ isBucketEnd c = true := by
  rw [isBucketName, Bool.and_eq_true, Bool.and_eq_true] at h
  cases hb : bucket.toList with
  | nil =>
      rw [hb] at h
      exact absurd h.1.2 (by decide)
  | cons c cs =>
      rw [hb] at h
      exact ⟨c, cs, rfl, h.1.2⟩

theorem isBucketChar_spec {c : Char} (h : isBucketChar c = true) :
    isUnreserved c = true ∧ Host.isNameChar c = true ∧ lowerChar c = c := by
  have hlt : c.toNat < 128 := by
    simp only [isBucketChar, isBucketEnd, Bool.or_eq_true, Bool.and_eq_true, decide_eq_true_eq,
      beq_iff_eq] at h
    rcases h with (h | rfl) | rfl
    · omega
    · decide
    · decide
  exact forall_ascii (p := fun c => isBucketChar c = true →
    isUnreserved c = true ∧ Host.isNameChar c = true ∧ lowerChar c = c) (by decide) hlt h

theorem encodeChars_bucket (h : isBucketName bucket = true) :
    encodeChars bucket.toList = bucket.toList :=
  Percent.encode_of_keep fun c hc => (isBucketChar_spec (isBucketChar_of_mem h c hc)).1

theorem not_isDot_bucket (h : isBucketName bucket = true) : ¬IsDot bucket.toList := by
  obtain ⟨c, cs, hb, hc⟩ := exists_cons_of_isBucketName h
  rw [hb]
  rintro (hdot | hdot)
  · cases hdot
    cases hc
  · cases hdot
    cases hc

theorem isSettled_bucket (h : isBucketName bucket = true) : Path.IsSettled bucket.toList := by
  rw [← encodeChars_bucket h]
  exact isSettled_encodeChars (not_isDot_bucket h)

theorem notDrive_bucket (h : isBucketName bucket = true) :
    Path.startsWithDrive bucket.toList = false := by
  rw [← encodeChars_bucket h]
  exact Path.notDrive_encodeChars _

end Signing

namespace Signer

variable {s : Signer} {base url : Url} {bucket key : String} {own : UInt16} {a : Authority}
  {segs : List Path.Segment}

def frontSegments (segs : List Path.Segment) : List Path.Segment := segs.rdropWhile List.isEmpty

def escapedSegments (key : String) : List Path.Segment := (keySegments key).map encodeChars

theorem settled_frontSegments (h : base.Parts own a segs) :
    ∀ s ∈ frontSegments segs, Path.IsSettled s :=
  fun s hs => h.settled s ((List.rdropWhile_prefix _ _).subset hs)

theorem withoutLastSlashes_path (h : base.Parts own a segs) :
    withoutLastSlashes base.path = String.ofList (Path.chars (frontSegments segs)) := by
  have hslash : ∀ s ∈ segs, '/' ∉ s := fun s hs => (h.settled s hs).plain.slash_notMem
  rw [withoutLastSlashes, h.path, String.toList_ofList]
  exact congrArg String.ofList (Path.rdropWhile_chars hslash)

theorem chars_escapedSegments (key : String) :
    Path.chars (escapedSegments key) = '/' :: (encodeKey key).toList := by
  rw [escapedSegments, Path.chars_eq_joined, toList_encodeKey]
  rw [Ne, List.map_eq_nil_iff]
  exact keySegments_ne_nil key

def keyPart (key : String) : List Path.Segment := if key = "" then [] else escapedSegments key

theorem isPlain_of_mem_escapedSegments (key : String) :
    ∀ s ∈ escapedSegments key, Path.IsPlain s := by
  intro s hs
  obtain ⟨p, _, rfl⟩ := List.mem_map.1 hs
  exact isPlain_encodeChars p

theorem isPlain_of_mem_keyPart (key : String) : ∀ s ∈ keyPart key, Path.IsPlain s := by
  rw [keyPart]
  split
  · exact nofun
  · exact isPlain_of_mem_escapedSegments key

theorem isPlain_writtenSegments (h : base.Parts own a segs) (hbucket : isBucketName bucket = true)
    (key : String) :
    ∀ s ∈ frontSegments segs ++ bucket.toList :: keyPart key, Path.IsPlain s := by
  intro s hs
  rcases List.mem_append.1 hs with hs | hs
  · exact (settled_frontSegments h s hs).plain
  · rcases List.mem_cons.1 hs with rfl | hs
    · exact (isSettled_bucket hbucket).plain
    · exact isPlain_of_mem_keyPart key s hs

def objectSegments (segs : List Path.Segment) (bucket key : String) : List Path.Segment :=
  Path.resolveFrom (bucket.toList :: (frontSegments segs).reverse) (keyPart key)

theorem settled_objectSegments (h : base.Parts own a segs) (hbucket : isBucketName bucket = true)
    (key : String) : ∀ s ∈ objectSegments segs bucket key, Path.IsSettled s :=
  Path.isSettled_of_mem_resolveFrom
    (List.forall_mem_cons.2 ⟨isSettled_bucket hbucket,
      fun s hs => settled_frontSegments h s (List.mem_reverse.1 hs)⟩)
    (isPlain_of_mem_keyPart key)

theorem objectText_path (h : base.Parts own a segs) :
    objectText .path base a.hostAndPort bucket key =
      urlText base.scheme a.host.chars a.port
        (frontSegments segs ++ bucket.toList :: keyPart key) := by
  have hempty : (encodeKey key).isEmpty = true ↔ key = "" :=
    String.isEmpty_iff.trans encodeKey_eq_empty_iff
  have hbucket : Path.chars (bucket.toList :: keyPart key) =
      '/' :: bucket.toList ++ Path.chars (keyPart key) :=
    List.flatMap_cons
  rw [← String.toList_inj, objectText, urlText, withoutLastSlashes_path h, Path.chars_append,
    hbucket, keyPart]
  by_cases hkey : key = ""
  · rw [if_pos (hempty.2 hkey), if_pos hkey]
    simp [Authority.hostAndPort, Host.text, Path.chars]
  · rw [if_neg (mt hempty.1 hkey), if_neg hkey, chars_escapedSegments]
    simp [Authority.hostAndPort, Host.text]

theorem objectText_virtualHosted (base : Url) (a : Authority) (bucket key : String) :
    objectText .virtualHosted base a.hostAndPort bucket key =
      urlText base.scheme (bucket.toList ++ '.' :: a.host.chars) a.port (escapedSegments key) := by
  rw [← String.toList_inj, objectText, urlText, chars_escapedSegments]
  simp [Authority.hostAndPort, Host.text]

theorem objectUrl_eq (hbase : Url.parse? s.endpoint = some base) (h : base.Parts own a segs) :
    s.objectUrl bucket key =
      match Url.parse? (objectText s.addressing base a.hostAndPort bucket key) with
      | none => .error (.invalidEndpoint (objectText s.addressing base a.hostAndPort bucket key))
      | some url => .ok url := by
  have hendpoint : s.endpoint.isEmpty = false := by
    rw [← Bool.not_eq_true, String.isEmpty_iff]
    intro hempty
    rw [hempty] at hbase
    cases hbase
  have hhost : base.hostAndPort? = some a.hostAndPort := by
    rw [Url.hostAndPort?, h.authority, Option.bind_some, if_neg h.host.ne_empty]
  cases hurl : Url.parse? (objectText s.addressing base a.hostAndPort bucket key) <;>
    simp [objectUrl, hendpoint, hbase, hhost, hurl]

theorem objectUrl_path (hbase : Url.parse? s.endpoint = some base) (h : base.Parts own a segs)
    (haddressing : s.addressing = .path) (key : String) (hbucket : isBucketName bucket = true) :
    s.objectUrl bucket key = .ok ⟨base.scheme, some ⟨"", "", a.host, a.port⟩,
      String.ofList (Path.chars (objectSegments segs bucket key)), none, none⟩ := by
  have hfront := settled_frontSegments h
  have hsettled : ∀ s ∈ frontSegments segs ++ [bucket.toList], Path.IsSettled s := by
    intro s hs
    rcases List.mem_append.1 hs with hs | hs
    · exact hfront s hs
    · rw [List.mem_singleton.1 hs]
      exact isSettled_bucket hbucket
  have hresolve : Path.resolve (frontSegments segs ++ bucket.toList :: keyPart key) =
      objectSegments segs bucket key := by
    have hmoved := Path.resolveFrom_settled hsettled [] (keyPart key)
    rwa [List.append_assoc, List.singleton_append, List.append_nil, List.reverse_append,
      List.reverse_singleton, List.singleton_append] at hmoved
  rw [objectUrl_eq hbase h, haddressing, objectText_path h,
    parse?_urlText h.scheme (hostText_of_isSpecial h.host) h.port (by simp)
      (isPlain_writtenSegments h hbucket key),
    Host.parseSpecial?_chars h.host, hresolve]
  rfl

theorem objectUrl_virtualHosted (hbase : Url.parse? s.endpoint = some base)
    (h : base.Parts own a segs) (haddressing : s.addressing = .virtualHosted)
    (hbucket : isBucketName bucket = true) (hurl : s.objectUrl bucket key = .ok url) :
    url = ⟨base.scheme, some ⟨"", "", .name (bucket ++ "." ++ a.host.text), a.port⟩,
      String.ofList (Path.chars (Path.resolve (escapedSegments key))), none, none⟩ := by
  have hchars : ∀ c ∈ bucket.toList, Host.isNameChar c = true ∧ lowerChar c = c :=
    fun c hc => (isBucketChar_spec (isBucketChar_of_mem hbucket c hc)).2
  have htext := (hostText_of_isSpecial h.host).labels_append fun c hc => (hchars c hc).1
  have hsegs : escapedSegments key ≠ [] := by
    rw [escapedSegments, Ne, List.map_eq_nil_iff]
    exact keySegments_ne_nil key
  rw [objectUrl_eq hbase h, haddressing, objectText_virtualHosted,
    parse?_urlText h.scheme htext h.port hsegs
      (isPlain_of_mem_escapedSegments key)] at hurl
  cases hhost : Host.parseSpecial? (bucket.toList ++ '.' :: a.host.chars) with
  | none =>
      rw [hhost] at hurl
      cases hurl
  | some host =>
      have hne : bucket.toList ≠ [] := by
        obtain ⟨c, cs, hb, _⟩ := exists_cons_of_isBucketName hbucket
        rw [hb]
        exact List.cons_ne_nil _ _
      have hname : String.ofList (bucket.toList ++ '.' :: a.host.chars) =
          bucket ++ "." ++ a.host.text := by
        simp [← String.toList_inj, Host.text]
      rw [hhost, Host.parseSpecial?_labels hne hchars h.host hhost, hname] at hurl
      exact (Except.ok.inj hurl).symm

theorem canonicalPath_chars (hne : segs ≠ []) (h : ∀ s ∈ segs, '/' ∉ s) :
    canonicalPath (String.ofList (Path.chars segs)) =
      String.ofList (Path.chars (segs.map (encodeChars ∘ decodeChars))) := by
  have hempty : (String.ofList (Path.chars segs)).isEmpty = false := by
    obtain ⟨s, rest, rfl⟩ := List.exists_cons_of_ne_nil hne
    rw [← Bool.not_eq_true, String.isEmpty_iff, ← String.toList_eq_nil_iff]
    simp [Path.chars]
  have hjoined : ∀ {ps : List Path.Segment}, ps ≠ [] → joined '/' ([] :: ps) = Path.chars ps := by
    intro ps hps
    obtain ⟨p, ps, rfl⟩ := List.exists_cons_of_ne_nil hps
    exact (Path.chars_eq_joined (List.cons_ne_nil p ps)).symm
  have hpieces : pieces (· == '/') (Path.chars segs) = [] :: segs := by
    rw [← hjoined hne]
    exact pieces_joined_of_notMem (List.cons_ne_nil _ _) (List.forall_mem_cons.2 ⟨List.not_mem_nil, h⟩)
  have hnil : (encodeChars ∘ decodeChars) [] = [] := by decide +kernel
  rw [canonicalPath, hempty, if_neg Bool.false_ne_true, String.toList_ofList, onSegments, hpieces,
    List.map_cons, hnil, hjoined (mt List.map_eq_nil_iff.1 hne)]

theorem canonical_encodeChars (s : List Char) :
    (encodeChars ∘ decodeChars) (encodeChars s) = encodeChars s := by
  rw [Function.comp_apply, decodeChars_encodeChars]

theorem canonical_bucket (hbucket : isBucketName bucket = true) :
    (encodeChars ∘ decodeChars) bucket.toList = bucket.toList := by
  rw [← encodeChars_bucket hbucket]
  exact canonical_encodeChars _

def canonicalFront (front : String) : String := if front = "" then "" else canonicalPath front

theorem canonicalFront_path (h : base.Parts own a segs) :
    canonicalFront (withoutLastSlashes base.path) =
      String.ofList (Path.chars ((frontSegments segs).map (encodeChars ∘ decodeChars))) := by
  rw [canonicalFront, withoutLastSlashes_path h]
  cases hfront : frontSegments segs with
  | nil => rfl
  | cons s rest =>
      have hslash : ∀ t ∈ s :: rest, '/' ∉ t := fun t ht =>
        (settled_frontSegments h t (hfront ▸ ht)).plain.slash_notMem
      rw [if_neg (by simp [← String.toList_eq_nil_iff, Path.chars]),
        canonicalPath_chars (List.cons_ne_nil _ _) hslash]

theorem toList_prefix_of_chars (front : List Path.Segment) {tail : List Path.Segment}
    (htail : tail ≠ []) :
    (String.ofList (Path.chars front) ++ "/" ++ bucket ++ "/").toList <+:
      Path.chars (front ++ bucket.toList :: tail) := by
  obtain ⟨t, rest, rfl⟩ := List.exists_cons_of_ne_nil htail
  refine ⟨t ++ Path.chars rest, ?_⟩
  simp [Path.chars]

theorem path_stays_in_bucket (h : base.Parts own a segs) (hbucket : isBucketName bucket = true)
    (hkey : key ≠ "") (hinside : staysInside 0 (keySegments key) = true) :
    (withoutLastSlashes base.path ++ "/" ++ bucket ++ "/").toList <+:
        Path.chars (objectSegments segs bucket key) ∧
      (canonicalFront (withoutLastSlashes base.path) ++ "/" ++ bucket ++ "/").toList <+:
        (canonicalPath (String.ofList (Path.chars (objectSegments segs bucket key)))).toList := by
  have hpart : keyPart key = (keySegments key).map encodeChars := if_neg hkey
  have hsettled := settled_objectSegments h hbucket key
  obtain ⟨tail, htail, hresolved⟩ := Path.resolveFrom_of_staysInside []
    (frontSegments segs).reverse bucket.toList nofun (.inr (keySegments_ne_nil key)) hinside
  rw [List.nil_append, List.reverse_reverse, ← hpart, ← objectSegments] at hresolved
  rw [hresolved] at hsettled ⊢
  constructor
  · rw [withoutLastSlashes_path h]
    exact toList_prefix_of_chars _ htail
  · rw [canonicalPath_chars (by simp) fun s hs => (hsettled s hs).plain.slash_notMem,
      canonicalFront_path h, String.toList_ofList, List.map_append, List.map_cons,
      canonical_bucket hbucket]
    exact toList_prefix_of_chars _ (mt List.map_eq_nil_iff.1 htail)

/-- Whether a key stays in its bucket is decided by its dot segments alone. One that leaves has the
same URL, and so the same presigned one, in all buckets. The endpoint has an ASCII host, since others
are not mapped by IDNA here but refused. -/
theorem object_url_stays_in_bucket (hbase : Url.parse? s.endpoint = some base)
    (hscheme : base.scheme = "http" ∨ base.scheme = "https") (haddressing : s.addressing = .path)
    (hbucket : isBucketName bucket = true) (hkey : key ≠ "") :
    ∃ url, s.objectUrl bucket key = .ok url ∧
      url.authority.map (fun a => (a.host, a.port)) =
        base.authority.map (fun a => (a.host, a.port)) ∧
      (staysInside 0 (keySegments key) = true →
        (withoutLastSlashes base.path ++ "/" ++ bucket ++ "/").toList <+: url.path.toList ∧
        (canonicalFront (withoutLastSlashes base.path) ++ "/" ++ bucket ++ "/").toList <+:
          (canonicalPath url.path).toList) ∧
      (staysInside 0 (keySegments key) = false → ∀ other, isBucketName other = true →
        s.objectUrl other key = .ok url ∧
        ∀ method expiry now keys, s.presignAt method other key expiry now keys =
          s.presignAt method bucket key expiry now keys) := by
  obtain ⟨own, hweb⟩ := IsWeb.exists_of_eq hscheme
  obtain ⟨a, segs, h⟩ := exists_parts_of_parse? hbase hweb
  have hurl := objectUrl_path hbase h haddressing key hbucket
  refine ⟨_, hurl, by rw [h.authority]; rfl, fun hinside => ?_, fun houtside other hother => ?_⟩
  · rw [String.toList_ofList]
    exact path_stays_in_bucket h hbucket hkey hinside
  · have hsame := Path.resolveFrom_of_not_staysInside [] (frontSegments segs).reverse nofun
      (notDrive_bucket hbucket) (notDrive_bucket hother) houtside
    have hpart : keyPart key = (keySegments key).map encodeChars := if_neg hkey
    rw [List.nil_append, List.nil_append, ← hpart, ← objectSegments, ← objectSegments] at hsame
    have hother := objectUrl_path hbase h haddressing key hother
    rw [← hsame] at hother
    refine ⟨hother, fun method expiry now keys => ?_⟩
    rw [presignAt, hother, presignAt, hurl]

theorem ok_of_toOption {ε α : Type} {e : Except ε α} {a : α} (h : e.toOption = some a) :
    e = .ok a := by
  cases e with
  | error _ => cases h
  | ok _ => exact congrArg Except.ok (Option.some.inj h)

theorem dot_segments_stay_or_leave :
    let s : Signer := ⟨⟨"id", "secret", none⟩, "us-east-1", "s3", "http://h:9000/base/", .path⟩
    (∃ url, s.objectUrl "b" "x/../k" = .ok url ∧ "/base/b/".toList <+: url.path.toList) ∧
      ∃ url, s.objectUrl "b" "x/../../c/k" = .ok url ∧
        ∀ other, isBucketName other = true → s.objectUrl other "x/../../c/k" = .ok url := by
  intro s
  have hbase : Url.parse? s.endpoint =
      some ⟨"http", some ⟨"", "", .name "h", some 9000⟩, "/base/", none, none⟩ := by
    decide +kernel
  have hfront : withoutLastSlashes "/base/" ++ "/" ++ "b" ++ "/" = "/base/b/" := by decide
  have hbucket : isBucketName "b" = true := by decide
  have hfirst : "x/../k" ≠ "" := by decide
  have hsecond : "x/../../c/k" ≠ "" := by decide
  obtain ⟨inside, hinside, _, hstays, _⟩ :=
    object_url_stays_in_bucket hbase (.inl rfl) rfl hbucket hfirst
  obtain ⟨outside, houtside, _, _, hleaves⟩ :=
    object_url_stays_in_bucket hbase (.inl rfl) rfl hbucket hsecond
  refine ⟨⟨inside, hinside, ?_⟩, outside, houtside, fun other hother => ?_⟩
  · rw [← hfront]
    exact (hstays (by decide)).1
  · exact (hleaves (by decide) other hother).1

theorem key_addresses_another_bucket :
    let s : Signer := ⟨⟨"id", "secret", none⟩, "us-east-1", "s3", "http://localhost:9000", .path⟩
    isBucketName "b" = true ∧ ∃ url, s.objectUrl "b" "../other/k" = .ok url ∧
      s.objectUrl "other" "k" = .ok url ∧ ¬"/b/".toList <+: url.path.toList := by
  intro s
  have hurl : (s.objectUrl "b" "../other/k").toOption =
      some ⟨"http", some ⟨"", "", .name "localhost", some 9000⟩, "/other/k", none, none⟩ := by
    decide +kernel
  have hother : (s.objectUrl "other" "k").toOption =
      some ⟨"http", some ⟨"", "", .name "localhost", some 9000⟩, "/other/k", none, none⟩ := by
    decide +kernel
  exact ⟨by decide, _, ok_of_toOption hurl, ok_of_toOption hother, by decide⟩

def objectHost : Addressing → String → Host → Host
  | .path, _, host => host
  | .virtualHosted, bucket, host => .name (bucket ++ "." ++ host.text)

def frontText : Addressing → Url → String
  | .path, base => withoutLastSlashes base.path
  | .virtualHosted, _ => ""

def bucketText : Addressing → String → String
  | .path, bucket => "/" ++ bucket
  | .virtualHosted, _ => ""

def keyText : Addressing → String → String
  | .path, key => if key = "" then "" else "/" ++ encodeKey key
  | .virtualHosted, key => "/" ++ encodeKey key

theorem toList_drop_one_keyText (addressing : Addressing) (key : String) :
    String.ofList ((keyText addressing key).toList.drop 1) = encodeKey key := by
  have hslash : String.ofList (("/" ++ encodeKey key).toList.drop 1) = encodeKey key := by
    simp
  cases addressing with
  | path =>
      rw [keyText]
      split
      · rename_i hkey
        rw [hkey]
        decide
      · exact hslash
  | virtualHosted => exact hslash

theorem settled_escapedSegments (hkey : ∀ p ∈ keySegments key, ¬IsDot p) :
    ∀ s ∈ escapedSegments key, Path.IsSettled s := by
  intro s hs
  obtain ⟨p, hp, rfl⟩ := List.mem_map.1 hs
  exact isSettled_encodeChars (hkey p hp)

theorem settled_keyPart (hkey : ∀ p ∈ keySegments key, ¬IsDot p) :
    ∀ s ∈ keyPart key, Path.IsSettled s := by
  rw [keyPart]
  split
  · exact nofun
  · exact settled_escapedSegments hkey

theorem objectSegments_of_not_isDot (hkey : ∀ p ∈ keySegments key, ¬IsDot p) :
    objectSegments segs bucket key = frontSegments segs ++ bucket.toList :: keyPart key := by
  have hsettled := Path.resolveFrom_settled (settled_keyPart hkey)
    (bucket.toList :: (frontSegments segs).reverse) []
  rw [List.append_nil, Path.resolveFrom] at hsettled
  rw [objectSegments, hsettled]
  simp

theorem resolve_escapedSegments (hkey : ∀ p ∈ keySegments key, ¬IsDot p) :
    Path.resolve (escapedSegments key) = escapedSegments key := by
  have hsettled := Path.resolveFrom_settled (settled_escapedSegments hkey) [] []
  rw [List.append_nil, List.append_nil, Path.resolveFrom, List.reverse_reverse] at hsettled
  exact hsettled

theorem ofList_chars_escapedSegments (key : String) :
    String.ofList (Path.chars (escapedSegments key)) = keyText .virtualHosted key := by
  rw [chars_escapedSegments, keyText, ← String.toList_inj]
  simp

theorem ofList_chars_bucket (front : List Path.Segment) (bucket key : String) :
    String.ofList (Path.chars (front ++ bucket.toList :: keyPart key)) =
      String.ofList (Path.chars front) ++ bucketText .path bucket ++ keyText .path key := by
  have hkey : String.ofList (Path.chars (keyPart key)) = keyText .path key := by
    rw [keyPart, keyText]
    split
    · rfl
    · exact ofList_chars_escapedSegments key
  rw [← hkey, bucketText, Path.chars_append, ← String.toList_inj]
  simp [Path.chars]

theorem objectUrl_of_not_isDot (hbase : Url.parse? s.endpoint = some base)
    (h : base.Parts own a segs) (hbucket : isBucketName bucket = true)
    (hkey : ∀ p ∈ keySegments key, ¬IsDot p) (hurl : s.objectUrl bucket key = .ok url) :
    url = ⟨base.scheme, some ⟨"", "", objectHost s.addressing bucket a.host, a.port⟩,
      frontText s.addressing base ++ bucketText s.addressing bucket ++ keyText s.addressing key,
      none, none⟩ := by
  cases haddressing : s.addressing with
  | path =>
      rw [objectUrl_path hbase h haddressing key hbucket, objectSegments_of_not_isDot hkey,
        ofList_chars_bucket] at hurl
      rw [frontText, withoutLastSlashes_path h]
      exact (Except.ok.inj hurl).symm
  | virtualHosted =>
      have hvirtual := objectUrl_virtualHosted hbase h haddressing hbucket hurl
      rwa [resolve_escapedSegments hkey, ofList_chars_escapedSegments] at hvirtual

theorem map_canonical_escapedSegments (key : String) :
    (escapedSegments key).map (encodeChars ∘ decodeChars) = escapedSegments key := by
  rw [escapedSegments, List.map_map]
  exact List.map_congr_left fun p _ => canonical_encodeChars p

theorem map_canonical_keyPart (key : String) :
    (keyPart key).map (encodeChars ∘ decodeChars) = keyPart key := by
  rw [keyPart]
  split
  · rfl
  · exact map_canonical_escapedSegments key

theorem canonicalPath_object (h : base.Parts own a segs) (hbucket : isBucketName bucket = true)
    (addressing : Addressing) (key : String) :
    canonicalPath (frontText addressing base ++ bucketText addressing bucket ++
        keyText addressing key) =
      canonicalFront (frontText addressing base) ++ bucketText addressing bucket ++
        keyText addressing key := by
  cases addressing with
  | path =>
      have hslash : ∀ s ∈ frontSegments segs ++ bucket.toList :: keyPart key, '/' ∉ s :=
        fun s hs => (isPlain_writtenSegments h hbucket key s hs).slash_notMem
      rw [frontText, canonicalFront_path h, withoutLastSlashes_path h, ← ofList_chars_bucket,
        canonicalPath_chars (by simp) hslash, List.map_append, List.map_cons,
        canonical_bucket hbucket, map_canonical_keyPart, ofList_chars_bucket]
  | virtualHosted =>
      have hne : escapedSegments key ≠ [] := mt List.map_eq_nil_iff.1 (keySegments_ne_nil key)
      have hslash : ∀ s ∈ escapedSegments key, '/' ∉ s :=
        fun s hs => (isPlain_of_mem_escapedSegments key s hs).slash_notMem
      rw [frontText, bucketText, canonicalFront, if_pos rfl, String.empty_append,
        String.empty_append, ← ofList_chars_escapedSegments, canonicalPath_chars hne hslash,
        map_canonical_escapedSegments]

/-- A key without dot segments is named exactly, in the path that is sent as in the one that is
signed. The endpoint has an ASCII host, since others are not mapped by IDNA here but refused. -/
theorem object_url_names_object (hbase : Url.parse? s.endpoint = some base)
    (hscheme : base.scheme = "http" ∨ base.scheme = "https")
    (hbucket : isBucketName bucket = true) (hkey : ∀ p ∈ keySegments key, ¬IsDot p)
    (hurl : s.objectUrl bucket key = .ok url) :
    ∃ a, base.authority = some a ∧
      url = ⟨base.scheme, some ⟨"", "", objectHost s.addressing bucket a.host, a.port⟩,
        frontText s.addressing base ++ bucketText s.addressing bucket ++ keyText s.addressing key,
        none, none⟩ ∧
      Percent.decodeText? (String.ofList ((keyText s.addressing key).toList.drop 1)) = some key ∧
      canonicalPath url.path = canonicalFront (frontText s.addressing base) ++
        bucketText s.addressing bucket ++ keyText s.addressing key ∧
      ∀ other, (∀ p ∈ keySegments other, ¬IsDot p) → s.objectUrl bucket other = .ok url →
        other = key := by
  obtain ⟨own, hweb⟩ := IsWeb.exists_of_eq hscheme
  obtain ⟨a, segs, h⟩ := exists_parts_of_parse? hbase hweb
  have hexact := objectUrl_of_not_isDot hbase h hbucket hkey hurl
  refine ⟨a, h.authority, hexact, ?_, ?_, fun other hdots hother => ?_⟩
  · rw [toList_drop_one_keyText, decodeText?_encodeKey]
  · rw [hexact]
    exact canonicalPath_object h hbucket s.addressing key
  · have hsame := objectUrl_of_not_isDot hbase h hbucket hdots hother
    rw [hexact] at hsame
    have hpath := congrArg Url.path hsame
    have htext : keyText s.addressing key = keyText s.addressing other :=
      (String.append_right_inj _).1 hpath
    apply encodeKey_injective
    rw [← toList_drop_one_keyText s.addressing, ← toList_drop_one_keyText s.addressing, htext]

theorem objects_are_named_in_both_styles :
    let path : Signer := ⟨⟨"id", "secret", none⟩, "us-east-1", "s3", "http://h:9000/base/", .path⟩
    let hosted : Signer := ⟨⟨"id", "secret", none⟩, "us-east-1", "s3", "https://h", .virtualHosted⟩
    (∃ url, path.objectUrl "b" "%2e/ é" = .ok url ∧
        canonicalPath url.path = "/base/b/%252e/%20%C3%A9") ∧
      ∃ url, hosted.objectUrl "b" "" = .ok url ∧ url.authority = some ⟨"", "", .name "b.h", none⟩ ∧
        canonicalPath url.path = "/" := by
  intro path hosted
  have hpathBase : Url.parse? path.endpoint =
      some ⟨"http", some ⟨"", "", .name "h", some 9000⟩, "/base/", none, none⟩ := by
    decide +kernel
  have hhostedBase : Url.parse? hosted.endpoint =
      some ⟨"https", some ⟨"", "", .name "h", none⟩, "/", none, none⟩ := by
    decide +kernel
  have hpath : (path.objectUrl "b" "%2e/ é").toOption = some
      ⟨"http", some ⟨"", "", .name "h", some 9000⟩, "/base/b/%252e/%20%C3%A9", none, none⟩ := by
    decide +kernel
  have hhosted : (hosted.objectUrl "b" "").toOption =
      some ⟨"https", some ⟨"", "", .name "b.h", none⟩, "/", none, none⟩ := by
    decide +kernel
  obtain ⟨_, _, _, _, hsigned, _⟩ := object_url_names_object hpathBase (.inl rfl) (by decide)
    (by decide) (ok_of_toOption hpath)
  obtain ⟨_, _, _, _, hhostedSigned, _⟩ := object_url_names_object hhostedBase (.inr rfl)
    (by decide) (by decide) (ok_of_toOption hhosted)
  refine ⟨⟨_, ok_of_toOption hpath, hsigned.trans ?_⟩, _, ok_of_toOption hhosted, rfl,
    hhostedSigned.trans ?_⟩
  · decide +kernel
  · decide +kernel

end Signer

end ObjectCache
