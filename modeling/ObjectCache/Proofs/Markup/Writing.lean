import Mathlib.Data.List.DropRight
import Mathlib.Data.List.TakeWhile
import ObjectCache.Markup.Content
import ObjectCache.Proofs.Text.Pieces

namespace ObjectCache.Markup

open Text

variable {name cs t inner rest tail : List Char} {c : Char} {nodes children : List Node}

def references : List (Char × String) :=
  [('<', "lt"), ('>', "gt"), ('&', "amp"), ('\'', "apos"), ('"', "quot")]

def escapeChar (c : Char) : List Char :=
  match references.lookup c with
  | some word => '&' :: (word.toList ++ [';'])
  | none => [c]

def escape (cs : List Char) : List Char := cs.flatMap escapeChar

def opening (name : List Char) : List Char := '<' :: (name ++ ['>'])

def closing (name : List Char) : List Char := '<' :: '/' :: (name ++ ['>'])

def written (name content : List Char) : List Char := opening name ++ (content ++ closing name)

def IsName (name : List Char) : Prop := name ≠ [] ∧ ∀ c ∈ name, isLetter c = true

instance (name : List Char) : Decidable (IsName name) :=
  decidable_of_iff (name.isEmpty = false ∧ name.all isLetter = true) (by simp [IsName])

theorem isSpace_of_isLetter (h : isLetter c = true) : isSpace c = false := by
  simp only [isSpace, Bool.or_eq_false_iff, beq_eq_false_iff_ne]
  exact ⟨⟨⟨ne_of_kind h rfl, ne_of_kind h rfl⟩, ne_of_kind h rfl⟩, ne_of_kind h rfl⟩

theorem tagContent?_name (h : ∀ c ∈ name, isLetter c = true) (rest : List Char) :
    Token.tagContent? none (name ++ '>' :: rest) = some (name, rest) := by
  induction name with
  | nil => rfl
  | cons c cs ih =>
      rw [List.forall_mem_cons] at h
      have hend : c ≠ '>' := ne_of_kind h.1 rfl
      have hquote : ¬(c = '"' ∨ c = '\'') := not_or.2 ⟨ne_of_kind h.1 rfl, ne_of_kind h.1 rfl⟩
      simp only [List.cons_append, Token.tagContent?, if_neg hend, if_neg hquote, ih h.2,
        Option.map_some]

theorem IsName.getLast?_ne (h : IsName name) (hmark : isLetter c = false) :
    name.getLast? ≠ some c :=
  fun hlast => notMem_of_kind h.2 hmark (List.mem_of_getLast? hlast)

theorem markup?_of_isLetter (h : isLetter c = true) (cs : List Char) :
    Token.markup? (c :: cs) = Token.tag? (c :: cs) := by
  have hslash : c ≠ '/' := ne_of_kind h rfl
  have hquestion : c ≠ '?' := ne_of_kind h rfl
  have hbang : c ≠ '!' := ne_of_kind h rfl
  simp [Token.markup?, hslash, hquestion, hbang]

theorem next?_opening (h : IsName name) (rest : List Char) :
    Token.next? (opening name ++ rest) = some (.openTag name, rest) := by
  obtain ⟨c, cs, rfl⟩ := List.exists_cons_of_ne_nil h.1
  have hmarkup := markup?_of_isLetter (h.2 c List.mem_cons_self) (cs ++ '>' :: rest)
  have htext : opening (c :: cs) ++ rest = '<' :: (c :: cs ++ '>' :: rest) := by
    simp [opening]
  rw [htext, Token.next?, List.cons_append, hmarkup, Token.tag?, ← List.cons_append,
    tagContent?_name h.2, Option.map_some]
  dsimp only
  rw [if_neg (h.getLast?_ne rfl)]

theorem trimEnd_eq_rdropWhile (cs : List Char) : trimEnd cs = cs.rdropWhile isSpace := rfl

theorem trimEnd_name (h : IsName name) : trimEnd name = name := by
  rw [trimEnd_eq_rdropWhile, List.rdropWhile_eq_self_iff]
  intro hne
  rw [isSpace_of_isLetter (h.2 _ (List.getLast_mem hne))]
  exact Bool.false_ne_true

theorem takeWhile_isClose (h : IsName name) (rest : List Char) :
    (name ++ '>' :: rest).takeWhile (!Token.isClose ·) = name :=
  takeWhile_append_cons (notMem_of_kind h.2 rfl) rest

theorem next?_closing (h : IsName name) (rest : List Char) :
    Token.next? (closing name ++ rest) = some (.closeTag name, rest) := by
  have htext : closing name ++ rest = '<' :: '/' :: (name ++ '>' :: rest) := by
    simp [closing]
  have hempty : name.isEmpty = false := by
    simpa using h.1
  rw [htext, Token.next?, Token.markup?, Token.readCloseTag]
  simp only [takeWhile_isClose h, trimEnd_name h, hempty, List.drop_left]
  rfl

theorem next?_text (hne : t ≠ []) (ht : '<' ∉ t) (rest : List Char) :
    Token.next? (t ++ '<' :: rest) = some (.text t, '<' :: rest) := by
  obtain ⟨c, cs, rfl⟩ := List.exists_cons_of_ne_nil hne
  have hc : c ≠ '<' := ne_of_mem_of_not_mem List.mem_cons_self ht
  have htext := takeWhile_append_cons ht rest
  rw [List.cons_append] at htext
  rw [List.cons_append, Token.next?]
  · rw [htext, ← List.cons_append, List.drop_left]
  · nofun
  · intro ds hds
    cases hds
    exact hc rfl

theorem ofContent_name (h : IsName name) : Tag.ofContent name = ⟨name, []⟩ := by
  have hspace : ∀ c ∈ name, (!isSpace c) = true := by
    intro c hc
    rw [isSpace_of_isLetter (h.2 c hc)]
    rfl
  rw [Tag.ofContent, List.takeWhile_eq_self_iff.2 hspace, List.dropWhile_eq_nil_iff.2 hspace]

theorem localName_name (h : IsName name) : Tag.localName ⟨name, []⟩ = name := by
  have hcolon : ∀ c ∈ name, (c != ':') = true :=
    fun c hc => bne_iff_ne.2 (ne_of_kind (h.2 c hc) rfl)
  rw [Tag.localName, List.dropWhile_eq_nil_iff.2 hcolon]

namespace Node

theorem children?_mono {m n : Nat} {r : List Node × List Char} (hle : m ≤ n)
    (h : children? m name cs = some r) : children? n name cs = some r := by
  induction m generalizing n name cs r with
  | zero => cases h
  | succ m ih =>
      obtain ⟨n, rfl⟩ : ∃ k, n = k + 1 := ⟨n - 1, by omega⟩
      have hle : m ≤ n := Nat.le_of_succ_le_succ hle
      rw [children?] at h ⊢
      cases hnext : Token.next? cs with
      | none =>
          rw [hnext] at h
          cases h
      | some p =>
          obtain ⟨token, rest⟩ := p
          rw [hnext] at h
          cases token with
          | skipped => exact ih hle h
          | closeTag _ => exact h
          | openTag t =>
              simp only [Option.bind_eq_bind, Option.bind_eq_some_iff] at h ⊢
              obtain ⟨⟨inner, after⟩, hinner, ⟨⟨ns, last⟩, houter, hr⟩⟩ := h
              exact ⟨_, ih hle hinner, _, ih hle houter, hr⟩
          | text _ | verbatim _ | declaration | emptyTag _ =>
              obtain ⟨p, hp, hr⟩ := Option.map_eq_some_iff.1 h
              exact Option.map_eq_some_iff.2 ⟨p, ih hle hp, hr⟩

def Reads (cs : List Char) (nodes : List Node) : Prop :=
  ∀ fuel name tail more rest, children? fuel name tail = some (more, rest) →
    children? (fuel + cs.length) name (cs ++ tail) = some (nodes ++ more, rest)

def Fills (cs : List Char) (nodes : List Node) : Prop :=
  ∀ fuel name rest, IsName name → cs.length < fuel →
    children? fuel name (cs ++ (closing name ++ rest)) = some (nodes, rest)

theorem reads_nil : Reads [] [] := fun _ _ _ _ _ h => h

theorem Reads.append {as bs : List Char} {ns ms : List Node} (ha : Reads as ns)
    (hb : Reads bs ms) : Reads (as ++ bs) (ns ++ ms) := by
  intro fuel name tail more rest h
  have h := ha _ name _ _ rest (hb fuel name tail more rest h)
  rw [List.length_append, Nat.add_comm as.length, ← Nat.add_assoc, List.append_assoc,
    List.append_assoc]
  exact h

theorem reads_flatMap {α : Type} {xs : List α} {f : α → List Char} {g : α → Node}
    (h : ∀ x ∈ xs, Reads (f x) [g x]) : Reads (xs.flatMap f) (xs.map g) := by
  induction xs with
  | nil => exact reads_nil
  | cons x xs ih =>
      rw [List.flatMap_cons, List.map_cons]
      exact (h x List.mem_cons_self).append (ih fun y hy => h y (List.mem_cons_of_mem x hy))

theorem children?_closing {fuel : Nat} (h : IsName name) (hfuel : 0 < fuel) (rest : List Char) :
    children? fuel name (closing name ++ rest) = some ([], rest) := by
  obtain ⟨fuel, rfl⟩ : ∃ k, fuel = k + 1 := ⟨fuel - 1, by omega⟩
  rw [children?, next?_closing h]
  exact if_pos rfl

theorem Reads.fills (h : Reads cs nodes) : Fills cs nodes := by
  intro fuel name rest hname hfuel
  have hclose := children?_closing hname (Nat.sub_pos_of_lt hfuel) rest
  have hread := h _ name _ _ rest hclose
  rwa [List.append_nil, Nat.sub_add_cancel (Nat.le_of_lt hfuel)] at hread

def ofText (t : List Char) : List Node := if t = [] then [] else [.text t]

theorem fills_text (ht : '<' ∉ t) : Fills t (ofText t) := by
  intro fuel name rest hname hfuel
  by_cases hempty : t = []
  · subst hempty
    exact children?_closing hname hfuel rest
  · obtain ⟨fuel, rfl⟩ : ∃ k, fuel = k + 1 := ⟨fuel - 1, by omega⟩
    have hpos : 0 < t.length := List.length_pos_iff.2 hempty
    have hclose := children?_closing hname (Nat.lt_of_lt_of_le hpos (Nat.le_of_lt_succ hfuel)) rest
    rw [children?, closing, List.cons_append, next?_text hempty ht]
    dsimp only
    rw [closing, List.cons_append] at hclose
    rw [hclose, ofText, if_neg hempty]
    rfl

theorem Fills.reads_written (hname : IsName name) (h : Fills inner children) :
    Reads (written name inner) [.element ⟨name, []⟩ children] := by
  intro fuel outer tail more rest htail
  have hlength : (written name inner).length = 2 * name.length + inner.length + 5 := by
    simp only [written, opening, closing, List.length_append, List.length_cons, List.length_nil]
    omega
  have hinner := h (fuel + (2 * name.length + inner.length + 4)) name tail hname (by omega)
  have houter := children?_mono (Nat.le_add_right fuel (2 * name.length + inner.length + 4)) htail
  rw [hlength, ← Nat.add_assoc fuel _ 1, written, List.append_assoc, List.append_assoc, children?,
    next?_opening hname]
  simp only [ofContent_name hname, hinner, houter, Option.bind_eq_bind, Option.bind_some]
  rfl

end Node

structure Names (word : List Char) (c : Char) : Prop where
  opens : '<' ∉ word
  starts : '&' ∉ word
  ends : ';' ∉ word
  space : isSpace c = false
  reference : reference? word = some c

instance (word : List Char) (c : Char) : Decidable (Names word c) :=
  decidable_of_iff ('<' ∉ word ∧ '&' ∉ word ∧ ';' ∉ word ∧ isSpace c = false ∧
      reference? word = some c)
    ⟨fun ⟨ho, hs, he, hc, hr⟩ => ⟨ho, hs, he, hc, hr⟩,
      fun h => ⟨h.opens, h.starts, h.ends, h.space, h.reference⟩⟩

theorem names_of_mem : ∀ r ∈ references, Names r.2.toList r.1 := by
  decide

theorem escapeChar_cases (c : Char) :
    escapeChar c = [c] ∧ c ≠ '<' ∧ c ≠ '&' ∨
      ∃ word, escapeChar c = '&' :: (word ++ [';']) ∧ Names word c := by
  rw [escapeChar]
  cases h : references.lookup c with
  | none =>
      refine .inl ⟨rfl, ?_, ?_⟩
      · rintro rfl
        exact absurd h (by decide)
      · rintro rfl
        exact absurd h (by decide)
  | some word =>
      obtain ⟨before, after, hreferences, -⟩ := List.lookup_eq_some_iff.1 h
      have hmem : (c, word) ∈ references := by
        rw [hreferences]
        exact List.mem_append_right before List.mem_cons_self
      exact .inr ⟨word.toList, rfl, names_of_mem _ hmem⟩

theorem escape_cons (c : Char) (cs : List Char) : escape (c :: cs) = escapeChar c ++ escape cs :=
  List.flatMap_cons

theorem escape_concat (cs : List Char) (c : Char) :
    escape (cs ++ [c]) = escape cs ++ escapeChar c := by
  rw [escape, List.flatMap_append, List.flatMap_singleton, ← escape]

theorem notMem_escape (cs : List Char) : '<' ∉ escape cs := by
  intro h
  obtain ⟨c, -, hc⟩ := List.mem_flatMap.1 h
  rcases escapeChar_cases c with ⟨he, hopen, -⟩ | ⟨word, he, hword⟩
  · rw [he, List.mem_singleton] at hc
    exact hopen hc.symm
  · rw [he] at hc
    simp [hword.opens] at hc

theorem unescapeFrom?_word {word : List Char} (hstarts : '&' ∉ word) (hends : ';' ∉ word)
    (before cs : List Char) :
    unescapeFrom? (some before) (word ++ ';' :: cs) =
      (reference? (before.reverse ++ word)).bind fun c => (unescape? cs).map (c :: ·) := by
  induction word generalizing before with
  | nil =>
      have hend : ';' ≠ '&' := by decide
      rw [List.nil_append, List.append_nil, unescapeFrom?]
      simp only [if_neg hend, if_true, Option.bind_eq_bind, Option.map_eq_bind]
      rfl
  | cons c word ih =>
      rw [List.mem_cons, not_or] at hstarts hends
      rw [List.cons_append, unescapeFrom?]
      simp only [if_neg (Ne.symm hstarts.1), if_neg (Ne.symm hends.1)]
      rw [ih hstarts.2 hends.2, List.reverse_cons, List.append_assoc, List.singleton_append]

theorem unescape?_escape (cs : List Char) : unescape? (escape cs) = some cs := by
  induction cs with
  | nil => rfl
  | cons c cs ih =>
      rw [escape_cons]
      rcases escapeChar_cases c with ⟨he, -, hname⟩ | ⟨word, he, hword⟩
      · rw [he, List.singleton_append, unescape?, unescapeFrom?]
        simp only [if_neg hname]
        rw [← unescape?, ih]
        rfl
      · rw [he, List.cons_append, List.append_assoc, List.singleton_append, unescape?,
          unescapeFrom?]
        simp only [if_true]
        rw [unescapeFrom?_word hword.starts hword.ends, List.reverse_nil, List.nil_append,
          hword.reference, ih]
        rfl

theorem escapeChar_of_isSpace (h : isSpace c = true) : escapeChar c = [c] := by
  rcases escapeChar_cases c with ⟨he, -⟩ | ⟨word, -, hword⟩
  · exact he
  · rw [hword.space] at h
    cases h

theorem head_escapeChar (h : ¬isSpace c = true) :
    ∃ d ds, escapeChar c = d :: ds ∧ ¬isSpace d = true := by
  rcases escapeChar_cases c with ⟨he, -⟩ | ⟨word, he, -⟩
  · exact ⟨c, [], he, h⟩
  · exact ⟨'&', _, he, by decide⟩

theorem last_escapeChar (h : ¬isSpace c = true) :
    ∃ ds d, escapeChar c = ds ++ [d] ∧ ¬isSpace d = true := by
  rcases escapeChar_cases c with ⟨he, -⟩ | ⟨word, he, -⟩
  · exact ⟨[], c, he, h⟩
  · exact ⟨'&' :: word, ';', he, by decide⟩

theorem trimStart_escape (cs : List Char) : trimStart (escape cs) = escape (trimStart cs) := by
  simp only [trimStart]
  induction cs with
  | nil => rfl
  | cons c cs ih =>
      by_cases hc : isSpace c = true
      · rw [escape_cons, escapeChar_of_isSpace hc, List.singleton_append,
          List.dropWhile_cons_of_pos hc, List.dropWhile_cons_of_pos hc, ih]
      · obtain ⟨d, ds, he, hd⟩ := head_escapeChar hc
        rw [List.dropWhile_cons_of_neg hc, escape_cons, he, List.cons_append,
          List.dropWhile_cons_of_neg hd]

theorem trimEnd_escape (cs : List Char) : trimEnd (escape cs) = escape (trimEnd cs) := by
  simp only [trimEnd_eq_rdropWhile]
  induction cs using List.reverseRecOn with
  | nil => rfl
  | append_singleton cs c ih =>
      by_cases hc : isSpace c = true
      · rw [escape_concat, escapeChar_of_isSpace hc, List.rdropWhile_concat_pos _ _ _ hc,
          List.rdropWhile_concat_pos _ _ _ hc, ih]
      · obtain ⟨ds, d, he, hd⟩ := last_escapeChar hc
        rw [List.rdropWhile_concat_neg _ _ _ hc, escape_concat, he, ← List.append_assoc,
          List.rdropWhile_concat_neg _ _ _ hd]

theorem all_isSpace_escape (cs : List Char) : (escape cs).all isSpace = cs.all isSpace := by
  have hchar : ∀ c, (escapeChar c).all isSpace = isSpace c := by
    intro c
    by_cases hc : isSpace c = true
    · simp [escapeChar_of_isSpace hc]
    · obtain ⟨d, ds, he, hd⟩ := head_escapeChar hc
      simp [he, hc, hd]
  rw [escape, List.all_flatMap]
  simp only [hchar]

def trimmed (cs : List Char) : List Char := trimEnd (trimStart cs)

theorem trimmed_of_blank (h : cs.all isSpace = true) : trimmed cs = [] := by
  rw [trimmed, trimStart, List.dropWhile_eq_nil_iff.2 (List.all_eq_true.1 h)]
  rfl

def HasOuterBlank (cs : List Char) : Prop :=
  ∃ c, isSpace c = true ∧ (cs.head? = some c ∨ cs.getLast? = some c)

theorem trimStart_eq_self_iff : trimStart cs = cs ↔ ∀ c, cs.head? = some c → ¬isSpace c = true := by
  cases cs with
  | nil => simp [trimStart]
  | cons c cs => simp [trimStart, List.dropWhile_eq_self_iff]

theorem trimEnd_eq_self_iff : trimEnd cs = cs ↔ ∀ c, cs.getLast? = some c → ¬isSpace c = true := by
  rw [trimEnd_eq_rdropWhile, List.rdropWhile_eq_self_iff]
  constructor
  · intro h c hc
    have hne : cs ≠ [] := by
      rintro rfl
      cases hc
    rw [List.getLast?_eq_some_getLast hne] at hc
    cases hc
    exact h hne
  · exact fun h hne => h _ (List.getLast?_eq_some_getLast hne)

theorem trimmed_eq_self_iff : trimmed cs = cs ↔ ¬HasOuterBlank cs := by
  have hparts : trimmed cs = cs ↔ trimStart cs = cs ∧ trimEnd cs = cs := by
    constructor
    · intro h
      have hprefix : trimmed cs <+: trimStart cs := List.rdropWhile_prefix _ _
      rw [h] at hprefix
      have hstart : trimStart cs = cs :=
        ((List.dropWhile_suffix _).eq_of_length_le hprefix.length_le)
      rw [trimmed, hstart] at h
      exact ⟨hstart, h⟩
    · rintro ⟨hstart, hend⟩
      rw [trimmed, hstart, hend]
  rw [hparts, trimStart_eq_self_iff, trimEnd_eq_self_iff, HasOuterBlank]
  constructor
  · rintro ⟨hstart, hend⟩ ⟨c, hc, hfirst | hlast⟩
    · exact hstart c hfirst hc
    · exact hend c hlast hc
  · intro h
    exact ⟨fun c hfirst hc => h ⟨c, hc, .inl hfirst⟩, fun c hlast hc => h ⟨c, hc, .inr hlast⟩⟩

theorem trimmedRun_of_blank (h : cs.all isSpace = true) : trimmedRun [.text cs] = [] := by
  simp [trimmedRun, Piece.isBlank, h, onFirst, onLast]

theorem trimmedRun_of_not_blank (h : cs.all isSpace = false) :
    trimmedRun [.text cs] = [.text (trimmed cs)] := by
  simp [trimmedRun, Piece.isBlank, h, onFirst, onLast, Piece.trimmedStart, Piece.trimmedEnd,
    trimmed]

theorem scalar?_ofText (cs : List Char) :
    scalar? (Node.ofText (escape cs)) = some (trimmed cs) := by
  have hblank := all_isSpace_escape cs
  by_cases hempty : escape cs = []
  · rw [hempty] at hblank
    rw [hempty, trimmed_of_blank hblank.symm]
    rfl
  · rw [Node.ofText, if_neg hempty, scalar?, items?, itemsFrom?, itemsFrom?, closeRun?,
      List.reverse_singleton]
    cases hcs : cs.all isSpace with
    | true => rw [trimmedRun_of_blank (hblank.trans hcs), trimmed_of_blank hcs]
    | false =>
        rw [trimmedRun_of_not_blank (hblank.trans hcs), trimmed, trimStart_escape, trimEnd_escape,
          ← trimmed]
        simp [runText?, Piece.chars?, unescape?_escape]

def Node.ofElement (e : Tag × List Node) : Node := .element e.1 e.2

def Item.ofElement (e : Tag × List Node) : Item := .element e.1 e.2

theorem items?_elements (es : List (Tag × List Node)) :
    items? (es.map Node.ofElement) = some (es.map Item.ofElement) := by
  rw [items?]
  induction es with
  | nil => rfl
  | cons e es ih =>
      rw [List.map_cons, Node.ofElement, itemsFrom?, ih]
      rfl

end ObjectCache.Markup
