import ObjectCache.Listing.Page
import ObjectCache.Proofs.Markup.Writing
import ObjectCache.Proofs.Text.Digits

namespace ObjectCache.Listing

open Markup Text

def writtenField (name text : String) : List Char := written name.toList (escape text.toList)

def writtenObject (o : ListedObject) : List Char :=
  written "Contents".toList (writtenField "Key" o.key ++ (writtenField "LastModified" o.modified ++
    (writtenField "ETag" o.etag ++ writtenField "Size" (toString o.size.toNat))))

def writtenCommonPrefix (name : String) : List Char :=
  written "CommonPrefixes".toList (writtenField "Prefix" name)

namespace Page

def content (p : Page) : List Char :=
  writtenField "IsTruncated" (toString p.isTruncated) ++
    (p.token.toList.flatMap (writtenField "NextContinuationToken") ++
      (p.objects.flatMap writtenObject ++ p.commonPrefixes.flatMap writtenCommonPrefix))

def rootName : List Char := "ListBucketResult".toList

def rootAttributes : List Char := " xmlns=\"http://s3.amazonaws.com/doc/2006-03-01/\"".toList

def instruction : List Char := "<?xml version=\"1.0\" encoding=\"UTF-8\"?>".toList

def document (p : Page) : String :=
  String.ofList (instruction ++ '\n' :: (opening (rootName ++ rootAttributes) ++
    (p.content ++ closing rootName)))

end Page

def leaf (name text : String) : Tag × List Node :=
  (⟨name.toList, []⟩, Node.ofText (escape text.toList))

def group (name : String) (elements : List (Tag × List Node)) : Tag × List Node :=
  (⟨name.toList, []⟩, elements.map .ofElement)

def objectElement (o : ListedObject) : Tag × List Node :=
  group "Contents" [leaf "Key" o.key, leaf "LastModified" o.modified, leaf "ETag" o.etag,
    leaf "Size" (toString o.size.toNat)]

def commonPrefixElement (name : String) : Tag × List Node :=
  group "CommonPrefixes" [leaf "Prefix" name]

def Page.elements (p : Page) : List (Tag × List Node) :=
  leaf "IsTruncated" (toString p.isTruncated) ::
    (p.token.toList.map (leaf "NextContinuationToken") ++
      (p.objects.map objectElement ++ p.commonPrefixes.map commonPrefixElement))

theorem reads_field {name : String} (h : IsName name.toList) (text : String) :
    Node.Reads (writtenField name text) [.ofElement (leaf name text)] :=
  (Node.fills_text (notMem_escape _)).reads_written h

theorem reads_object (o : ListedObject) :
    Node.Reads (writtenObject o) [.ofElement (objectElement o)] := by
  have hfields := (reads_field (show IsName "Key".toList by decide) o.key).append
    ((reads_field (show IsName "LastModified".toList by decide) o.modified).append
      ((reads_field (show IsName "ETag".toList by decide) o.etag).append
        (reads_field (show IsName "Size".toList by decide) (toString o.size.toNat))))
  exact hfields.fills.reads_written (by decide)

theorem reads_commonPrefix (name : String) :
    Node.Reads (writtenCommonPrefix name) [.ofElement (commonPrefixElement name)] :=
  (reads_field (by decide) name).fills.reads_written (by decide)

theorem reads_content (p : Page) : Node.Reads p.content (p.elements.map .ofElement) := by
  have htoken : ∀ text, Node.Reads (writtenField "NextContinuationToken" text)
      [.ofElement (leaf "NextContinuationToken" text)] := reads_field (by decide)
  have htruncated := reads_field (show IsName "IsTruncated".toList by decide)
    (toString p.isTruncated)
  have hlists := (Node.reads_flatMap fun o (_ : o ∈ p.objects) => reads_object o).append
    (Node.reads_flatMap fun name (_ : name ∈ p.commonPrefixes) => reads_commonPrefix name)
  have h := htruncated.append
    ((Node.reads_flatMap fun text (_ : text ∈ p.token.toList) => htoken text).append hlists)
  simp only [Page.elements, List.map_cons, List.map_append, List.map_map]
  exact h

theorem next?_instruction (rest : List Char) :
    Token.next? (Page.instruction ++ rest) = some (.skipped, rest) :=
  rfl

theorem next?_root (rest : List Char) :
    Token.next? (opening (Page.rootName ++ Page.rootAttributes) ++ rest) =
      some (.openTag (Page.rootName ++ Page.rootAttributes), rest) :=
  rfl

theorem next?_break (name rest : List Char) :
    Token.next? ('\n' :: (opening name ++ rest)) = some (.text ['\n'], opening name ++ rest) :=
  rfl

theorem ofContent_root :
    Tag.ofContent (Page.rootName ++ Page.rootAttributes) =
      ⟨Page.rootName, Page.rootAttributes⟩ :=
  rfl

theorem root?_document (p : Page) {fuel : Nat} (hfuel : p.content.length + 3 < fuel) :
    Node.root? fuel (Page.instruction ++ '\n' ::
      (opening (Page.rootName ++ Page.rootAttributes) ++
        (p.content ++ closing Page.rootName))) =
      some (⟨Page.rootName, Page.rootAttributes⟩, p.elements.map .ofElement) := by
  obtain ⟨k, rfl⟩ : ∃ k, fuel = k + 3 := ⟨fuel - 3, by omega⟩
  have hcontent := (reads_content p).fills k Page.rootName [] (by decide) (by omega)
  rw [List.append_nil] at hcontent
  have hblank : ['\n'].all isSpace = true := rfl
  rw [Node.root?, next?_instruction]
  dsimp only
  rw [Node.root?, next?_break]
  simp only [hblank, if_true]
  rw [Node.root?, next?_root]
  simp only [ofContent_root, hcontent]
  rfl

theorem ofDocument?_document (p : Page) :
    Node.ofDocument? p.document =
      some (⟨Page.rootName, Page.rootAttributes⟩, p.elements.map .ofElement) := by
  have hmark : ∀ rest, Node.withoutMark (Page.instruction ++ rest) = Page.instruction ++ rest :=
    fun _ => rfl
  have hlength : Page.instruction.length = 38 := rfl
  rw [Node.ofDocument?, Page.document, String.toList_ofList]
  simp only [hmark]
  refine root?_document p ?_
  simp only [List.length_append, List.length_cons]
  omega

def trimmedText (s : String) : String := String.ofList (trimmed s.toList)

def ListedObject.trimmed (o : ListedObject) : ListedObject :=
  ⟨trimmedText o.key, o.size, trimmedText o.modified, trimmedText o.etag⟩

def Page.trimmed (p : Page) : Page :=
  ⟨p.isTruncated, p.token.map trimmedText, p.objects.map ListedObject.trimmed,
    p.commonPrefixes.map trimmedText⟩

theorem string?_ofText (text : String) :
    string? (Node.ofText (escape text.toList)) = some (trimmedText text) := by
  rw [string?, scalar?_ofText]
  rfl

theorem bool?_ofText (b : Bool) : bool? (Node.ofText (escape (toString b).toList)) = some b := by
  cases b <;> decide +kernel

theorem trimmedText_eq_self_iff {s : String} :
    trimmedText s = s ↔ ¬HasOuterBlank s.toList := by
  rw [← trimmed_eq_self_iff, ← String.toList_inj, trimmedText, String.toList_ofList]

theorem trimmedText_numeral (n : Nat) : trimmedText (toString n) = toString n := by
  rw [trimmedText_eq_self_iff, Numeral.toList_toString]
  rintro ⟨c, hc, h⟩
  have hmem : c ∈ Nat.toDigits 10 n := h.elim List.mem_of_head? List.mem_of_getLast?
  have hdigits : ∀ d < 10, isSpace (Nat.digitChar d) = false := by decide
  obtain ⟨d, hd, rfl⟩ := exists_digitChar_of_mem_toDigits (by decide) hmem
  rw [hdigits d hd] at hc
  cases hc

theorem word?_ofText (n : UInt64) :
    word? (Node.ofText (escape (toString n.toNat).toList)) = some n := by
  rw [word?, string?_ofText, trimmedText_numeral]
  exact Numeral.word?_toString.2 rfl

theorem name_leaf {name : String} (h : IsName name.toList) :
    String.ofList (Tag.localName ⟨name.toList, []⟩) = name := by
  rw [localName_name h, String.ofList_toList]

theorem wellFormedItems?_group (name : String) (es : List (Tag × List Node)) :
    wellFormedItems? (group name es).1 (group name es).2 = some (es.map .ofElement) := by
  rw [wellFormedItems?, group, items?_elements]
  rfl

namespace ObjectDraft

variable {d : ObjectDraft} {text : String} {rest : List Item}

theorem read?_key (h : d.key = none) :
    d.read? (.ofElement (leaf "Key" text) :: rest) =
      { d with key := some (trimmedText text) }.read? rest := by
  rw [Item.ofElement, leaf, read?, name_leaf (by decide), string?_ofText, once?, h]
  rfl

theorem read?_size {n : UInt64} (h : d.size = none) :
    d.read? (.ofElement (leaf "Size" (toString n.toNat)) :: rest) =
      { d with size := some n }.read? rest := by
  rw [Item.ofElement, leaf, read?, name_leaf (by decide), word?_ofText, once?, h]
  rfl

theorem read?_modified (h : d.modified = none) :
    d.read? (.ofElement (leaf "LastModified" text) :: rest) =
      { d with modified := some (trimmedText text) }.read? rest := by
  rw [Item.ofElement, leaf, read?, name_leaf (by decide), string?_ofText, once?, h]
  rfl

theorem read?_etag (h : d.etag = none) :
    d.read? (.ofElement (leaf "ETag" text) :: rest) =
      { d with etag := some (trimmedText text) }.read? rest := by
  rw [Item.ofElement, leaf, read?, name_leaf (by decide), string?_ofText, once?, h]
  rfl

end ObjectDraft

theorem object?_objectElement (o : ListedObject) :
    object? (objectElement o).1 (objectElement o).2 = some o.trimmed := by
  rw [object?, objectElement, wellFormedItems?_group]
  simp only [Option.bind_eq_bind, Option.bind_some, List.map_cons, List.map_nil]
  rw [ObjectDraft.read?_key rfl, ObjectDraft.read?_modified rfl, ObjectDraft.read?_etag rfl,
    ObjectDraft.read?_size rfl]
  rfl

theorem commonPrefix?_commonPrefixElement (name : String) :
    commonPrefix? (commonPrefixElement name).1 (commonPrefixElement name).2 =
      some (trimmedText name) := by
  rw [commonPrefix?, commonPrefixElement, wellFormedItems?_group, Option.bind_some,
    List.map_singleton, Item.ofElement, leaf, readPrefix?, name_leaf (by decide), string?_ofText]
  rfl

namespace PageDraft

variable {d : PageDraft} {current : Option (List Char)} {rest : List Item}

theorem read?_truncated {b : Bool} (h : d.isTruncated = none) :
    d.read? current (.ofElement (leaf "IsTruncated" (toString b)) :: rest) =
      { d with isTruncated := some b }.read? none rest := by
  rw [Item.ofElement, leaf, read?, name_leaf (by decide), bool?_ofText, once?, h]
  rfl

theorem read?_token {text : String} (h : d.token = none) :
    d.read? current (.ofElement (leaf "NextContinuationToken" text) :: rest) =
      { d with token := some (trimmedText text) }.read? none rest := by
  rw [Item.ofElement, leaf, read?, name_leaf (by decide), string?_ofText, once?, h]
  rfl

theorem read?_object {o : ListedObject}
    (h : current = some "Contents".toList ∨ d.objects = none) :
    d.read? current (.ofElement (objectElement o) :: rest) =
      { d with objects := some (o.trimmed :: d.objects.getD []) }.read?
        (some "Contents".toList) rest := by
  have hname : String.ofList (objectElement o).1.localName = "Contents" := name_leaf (by decide)
  have htag : (objectElement o).1.name = "Contents".toList := rfl
  have hgoes : (current == some "Contents".toList) = true ∨ d.objects.isNone = true :=
    h.imp beq_iff_eq.2 Option.isNone_iff_eq_none.2
  rw [Item.ofElement, read?, hname, htag, object?_objectElement, if_pos rfl, if_pos hgoes]
  rfl

theorem read?_commonPrefix {name : String}
    (h : current = some "CommonPrefixes".toList ∨ d.commonPrefixes = none) :
    d.read? current (.ofElement (commonPrefixElement name) :: rest) =
      { d with commonPrefixes := some (trimmedText name :: d.commonPrefixes.getD []) }.read?
        (some "CommonPrefixes".toList) rest := by
  have hname : String.ofList (commonPrefixElement name).1.localName = "CommonPrefixes" :=
    name_leaf (by decide)
  have htag : (commonPrefixElement name).1.name = "CommonPrefixes".toList := rfl
  have hgoes : (current == some "CommonPrefixes".toList) = true ∨ d.commonPrefixes.isNone = true :=
    h.imp beq_iff_eq.2 Option.isNone_iff_eq_none.2
  rw [Item.ofElement, read?, hname, htag, commonPrefix?_commonPrefixElement,
    if_neg (by decide), if_pos rfl, if_pos hgoes]
  rfl

theorem read?_commonPrefixes (d : PageDraft) (current : Option (List Char)) (names : List String)
    (h : current = some "CommonPrefixes".toList ∨ d.commonPrefixes = none) :
    (d.read? current ((names.map commonPrefixElement).map .ofElement)).map finish =
      some { d.finish with
        commonPrefixes := d.finish.commonPrefixes ++ names.map trimmedText } := by
  induction names generalizing d current with
  | nil => simp [read?]
  | cons name names ih =>
      rw [List.map_cons, List.map_cons, read?_commonPrefix h, ih _ _ (.inl rfl)]
      simp [finish]

theorem read?_lists (d : PageDraft) (current : Option (List Char)) (objects : List ListedObject)
    (names : List String) (h : current = some "Contents".toList ∨ d.objects = none)
    (hnames : d.commonPrefixes = none) :
    (d.read? current ((objects.map objectElement ++ names.map commonPrefixElement).map
      .ofElement)).map finish =
      some { d.finish with
        objects := d.finish.objects ++ objects.map ListedObject.trimmed
        commonPrefixes := names.map trimmedText } := by
  induction objects generalizing d current with
  | nil =>
      rw [List.map_nil, List.nil_append, read?_commonPrefixes d current names (.inr hnames)]
      simp [finish, hnames]
  | cons o objects ih =>
      rw [List.map_cons, List.cons_append, List.map_cons, read?_object h,
        ih { d with objects := some (o.trimmed :: d.objects.getD []) } _ (.inl rfl) hnames]
      simp [finish]

end PageDraft

theorem ofDocument?_page (p : Page) : Page.ofDocument? p.document = some p.trimmed := by
  have hroot : Tag.isWellFormed ⟨Page.rootName, Page.rootAttributes⟩ = true := by decide +kernel
  have hitems : wellFormedItems? ⟨Page.rootName, Page.rootAttributes⟩ (p.elements.map .ofElement) =
      some (p.elements.map .ofElement) := by
    rw [wellFormedItems?, hroot, items?_elements]
    rfl
  rw [Page.ofDocument?, ofDocument?_document]
  simp only [Option.bind_eq_bind, Option.bind_some, hitems]
  rw [Page.elements, List.map_cons, PageDraft.read?_truncated rfl, Page.trimmed]
  cases htoken : p.token with
  | none =>
      have hlists := PageDraft.read?_lists ⟨some p.isTruncated, none, none, none⟩ none p.objects
        p.commonPrefixes (.inr rfl) rfl
      rw [Option.map_eq_bind] at hlists
      exact hlists
  | some text =>
      have hlists := PageDraft.read?_lists
        ⟨some p.isTruncated, some (trimmedText text), none, none⟩ none p.objects
        p.commonPrefixes (.inr rfl) rfl
      rw [Option.map_eq_bind] at hlists
      rw [Option.toList_some, List.map_singleton, List.singleton_append, List.map_cons,
        PageDraft.read?_token rfl]
      exact hlists

theorem summaries_trimmed (p : Page) :
    p.trimmed.summaries =
      p.objects.map (fun o => ⟨trimmedText o.key, o.size,
        Time.Rfc3339.parse? (trimmedText o.modified), trimmedText o.etag⟩) ++
      p.commonPrefixes.map fun name => ⟨trimmedText name, 0, none, ""⟩ := by
  rw [Page.summaries, Page.trimmed, List.map_map, List.map_map]
  rfl

theorem names_trimmed_iff (p : Page) :
    p.trimmed.summaries.map (fun x => (x.key, x.size, x.etag)) =
        p.objects.map (fun o => (o.key, o.size, o.etag)) ++
          p.commonPrefixes.map (fun name => (name, 0, "")) ↔
      (∀ o ∈ p.objects, ¬HasOuterBlank o.key.toList ∧ ¬HasOuterBlank o.etag.toList) ∧
        ∀ name ∈ p.commonPrefixes, ¬HasOuterBlank name.toList := by
  have hsplit : ∀ {as bs cs ds : List (String × UInt64 × String)}, as.length = cs.length →
      (as ++ bs = cs ++ ds ↔ as = cs ∧ bs = ds) := by
    intro as bs cs ds hlength
    exact ⟨fun h => List.append_inj h hlength, fun ⟨has, hbs⟩ => by rw [has, hbs]⟩
  rw [summaries_trimmed, List.map_append, List.map_map, List.map_map, hsplit (by simp),
    List.map_inj_left, List.map_inj_left]
  simp [trimmedText_eq_self_iff]

/-- A listing is read from its document in order and with its exact sizes. Its names and tags are read
as they were written if no blank stands at their ends, and without that blank otherwise. -/
theorem listing_is_read_without_outer_blanks (p : Page) :
    ∃ read, Page.ofDocument? p.document = some read ∧
      read.isTruncated = p.isTruncated ∧ read.token = p.token.map trimmedText ∧
      read.summaries =
        p.objects.map (fun o => ⟨trimmedText o.key, o.size,
          Time.Rfc3339.parse? (trimmedText o.modified), trimmedText o.etag⟩) ++
        p.commonPrefixes.map (fun name => ⟨trimmedText name, 0, none, ""⟩) ∧
      (read.summaries.map (fun x => (x.key, x.size, x.etag)) =
          p.objects.map (fun o => (o.key, o.size, o.etag)) ++
            p.commonPrefixes.map (fun name => (name, 0, "")) ↔
        (∀ o ∈ p.objects, ¬HasOuterBlank o.key.toList ∧ ¬HasOuterBlank o.etag.toList) ∧
          ∀ name ∈ p.commonPrefixes, ¬HasOuterBlank name.toList) :=
  ⟨p.trimmed, ofDocument?_page p, rfl, rfl, summaries_trimmed p, names_trimmed_iff p⟩

theorem blank_of_key_is_lost :
    let p : Page := ⟨false, none, [⟨" a", 1, "", "\"e\""⟩], []⟩
    (Page.ofDocument? p.document).map Page.summaries = some [⟨"a", 1, none, "\"e\""⟩] ∧
      p.summaries = [⟨" a", 1, none, "\"e\""⟩] := by
  intro p
  rw [ofDocument?_page]
  exact ⟨by decide +kernel, by decide +kernel⟩

end ObjectCache.Listing
