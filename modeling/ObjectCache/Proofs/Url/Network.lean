import Mathlib.Data.List.TakeWhile
import ObjectCache.Proofs.Url.Host
import ObjectCache.Proofs.Url.Parse
import ObjectCache.Proofs.Url.Segments

namespace ObjectCache.Url

open Text

def isHostChar (c : Char) : Bool := Host.isNameChar c || c == ':' || c == '[' || c == ']'

structure HostText (cs : List Char) : Prop where
  ne_nil : cs ≠ []
  chars : ∀ c ∈ cs, isHostChar c = true
  cut : ∀ rest, cutHost false (cs ++ rest) =
    (cs ++ (cutHost false rest).1, (cutHost false rest).2)

theorem isHostChar_of_isNameChar {c : Char} (h : Host.isNameChar c = true) :
    isHostChar c = true := by
  rw [isHostChar, h]
  rfl

theorem cutHost_cons {c : Char} {inside : Bool} (hcolon : c ≠ ':' ∨ inside = true)
    (cs : List Char) :
    cutHost inside (c :: cs) =
      (c :: (cutHost (if c == '[' then true else if c == ']' then false else inside) cs).1,
        (cutHost (if c == '[' then true else if c == ']' then false else inside) cs).2) := by
  rw [cutHost, if_neg]
  rcases hcolon with h | h
  · simp [h]
  · simp [h]

theorem cutHost_false_append {cs : List Char} (h : ∀ c ∈ cs, Host.isNameChar c = true)
    (rest : List Char) :
    cutHost false (cs ++ rest) = (cs ++ (cutHost false rest).1, (cutHost false rest).2) := by
  induction cs with
  | nil => rfl
  | cons c cs ih =>
      rw [List.forall_mem_cons] at h
      rw [List.cons_append, cutHost_cons (.inl (ne_of_kind h.1 (by decide))),
        beq_eq_false_iff_ne.2 (ne_of_kind h.1 (by decide)),
        beq_eq_false_iff_ne.2 (ne_of_kind h.1 (by decide)),
        if_neg (by decide), if_neg (by decide), ih h.2]
      rfl

theorem cutHost_true_append {cs : List Char} (h : ']' ∉ cs) (rest : List Char) :
    cutHost true (cs ++ rest) = (cs ++ (cutHost true rest).1, (cutHost true rest).2) := by
  induction cs with
  | nil => rfl
  | cons c cs ih =>
      rw [List.mem_cons, not_or] at h
      rw [List.cons_append, cutHost_cons (.inr rfl), beq_eq_false_iff_ne.2 (Ne.symm h.1)]
      simp only [Bool.false_eq_true, if_false, ite_self, ih h.2]
      rfl

theorem HostText.labels_append {as cs : List Char} (ha : ∀ c ∈ as, Host.isNameChar c = true)
    (h : HostText cs) : HostText (as ++ '.' :: cs) := by
  have hdot : ∀ c ∈ as ++ ['.'], Host.isNameChar c = true := by
    intro c hc
    rcases List.mem_append.1 hc with hc | hc
    · exact ha c hc
    · rw [List.mem_singleton.1 hc]
      decide
  have happend : as ++ '.' :: cs = (as ++ ['.']) ++ cs := by simp
  refine ⟨by simp, ?_, fun rest => ?_⟩
  · intro c hc
    rw [happend] at hc
    rcases List.mem_append.1 hc with hc | hc
    · exact isHostChar_of_isNameChar (hdot c hc)
    · exact h.chars c hc
  · rw [happend, List.append_assoc, cutHost_false_append hdot, h.cut, ← List.append_assoc]

theorem isHostChar_of_mem_ipv6 {a : Ipv6} {c : Char} (h : c ∈ a.text) :
    isHostChar c = true ∧ c ≠ ']' := by
  have hdigits : ∀ d < 16, isHostChar (Nat.digitChar d) = true ∧ Nat.digitChar d ≠ ']' := by
    decide
  rcases Ipv6.mem_text h with rfl | ⟨d, hd, rfl⟩
  · decide
  · exact hdigits d hd

theorem hostText_of_isSpecial {host : Host} (h : host.IsSpecial) : HostText host.chars := by
  cases host with
  | name t =>
      refine ⟨h.ne_nil, fun c hc => isHostChar_of_isNameChar (h.chars c hc), ?_⟩
      exact cutHost_false_append h.chars
  | ipv4 a =>
      have hchars : ∀ c ∈ a.text, Host.isNameChar c = true :=
        fun c hc => (Host.isNameChar_of_mem_ipv4 hc).1
      refine ⟨Host.ipv4_text_ne_nil a, fun c hc => isHostChar_of_isNameChar (hchars c hc), ?_⟩
      exact cutHost_false_append hchars
  | ipv6 a =>
      have hend : ']' ∉ a.text := fun hmem => (isHostChar_of_mem_ipv6 hmem).2 rfl
      refine ⟨by simp [Host.chars], ?_, fun rest => ?_⟩
      · intro c hc
        simp only [Host.chars, List.mem_cons, List.mem_append, List.not_mem_nil, or_false] at hc
        rcases hc with (rfl | hc) | rfl
        · decide
        · exact (isHostChar_of_mem_ipv6 hc).1
        · decide
      · rw [Host.chars, List.cons_append, List.cons_append, List.append_assoc,
          cutHost_cons (.inl (by decide)), if_pos (by decide), cutHost_true_append hend,
          List.singleton_append, cutHost_cons (.inl (by decide)), if_neg (by decide),
          if_pos (by decide)]
        simp

theorem keeps_isHostChar : Percent.Keeps isHostChar := by
  intro c h
  simp only [isHostChar, Bool.or_eq_true, beq_iff_eq] at h
  rcases h with ((h | rfl) | rfl) | rfl
  · exact Host.keeps_isNameChar c h
  · decide
  · decide
  · decide

theorem Host.parseSpecial?_labels {as : List Char} {host found : Host} (has : as ≠ [])
    (hname : ∀ c ∈ as, isNameChar c = true ∧ lowerChar c = c) (hhost : host.IsSpecial)
    (h : parseSpecial? (as ++ '.' :: host.chars) = some found) :
    found = .name (String.ofList (as ++ '.' :: host.chars)) := by
  -- what is not an address in brackets is a name
  have hof : ofName? (as ++ '.' :: host.chars) = some found := by
    have hchars := ((hostText_of_isSpecial hhost).labels_append fun c hc => (hname c hc).1).chars
    obtain ⟨c, rest, hcons⟩ := List.exists_cons_of_ne_nil has
    have hhead : (as ++ '.' :: host.chars).head? ≠ some '[' := by
      rw [hcons]
      rintro hhead
      cases Option.some.inj hhead
      exact absurd (hname '[' (by simp [hcons])).1 (by decide)
    have hdecoded := Percent.decodeText?_encode keeps_isHostChar
      (String.ofList (as ++ '.' :: host.chars))
    rw [String.toList_ofList, Percent.encode_of_keep hchars] at hdecoded
    rwa [parseSpecial?, if_neg hhead, hdecoded, Option.bind_some, String.toList_ofList] at h
  obtain ⟨hne, hall⟩ := isNameChar_of_ofName? hof
  have hlower : ∀ {cs : List Char}, cs.map lowerChar = cs →
      (as ++ '.' :: cs).map lowerChar = as ++ '.' :: cs := by
    intro cs hcs
    rw [List.map_append, List.map_cons, map_lowerChar_of_forall fun c hc => (hname c hc).2, hcs]
    rfl
  cases host with
  | name t =>
      have ht : IsName t.toList := hhost
      rw [chars] at hof hne hall ⊢
      rw [ofName?_eq hne hall, hlower ht.lower, endsInNumber_append ht.ne_nil, ht.noNumber,
        if_neg (by decide)] at hof
      exact (Option.some.inj hof).symm
  | ipv4 a =>
      rw [chars] at hof hne hall
      rw [ofName?_eq hne hall, hlower (map_lowerChar_ipv4 a),
        endsInNumber_append (ipv4_text_ne_nil a), Ipv4.endsInNumber_text, if_pos rfl,
        ipv4_parse?_append] at hof
      cases hof
  | ipv6 a => exact absurd (hall '[' (by simp [chars])) (by decide)

theorem toList_portText_some (p : UInt16) :
    (portText (some p)).toList = ':' :: Nat.toDigits 10 p.toNat := by
  rw [portText, String.toList_append]
  change ':' :: (Nat.repr p.toNat).toList = _
  rw [Nat.repr, String.toList_ofList]

theorem isHostChar_of_mem_portText {port : Option UInt16} {c : Char}
    (h : c ∈ (portText port).toList) : isHostChar c = true := by
  have hdigits : ∀ d < 10, isHostChar (Nat.digitChar d) = true := by decide
  cases port with
  | none => cases h
  | some p =>
      rw [toList_portText_some] at h
      rcases List.mem_cons.1 h with rfl | h
      · decide
      · obtain ⟨d, hd, rfl⟩ := exists_digitChar_of_mem_toDigits (by decide) h
        exact hdigits d hd

theorem port?_toDigits (p : UInt16) : port? (Nat.toDigits 10 p.toNat) = some (some p, []) := by
  have hdigits : (Nat.toDigits 10 p.toNat).takeWhile Numeral.isDigit = Nat.toDigits 10 p.toNat := by
    rw [List.takeWhile_eq_self_iff]
    exact fun c hc => Numeral.isDigit_of_mem_toDigits hc
  have hempty : (Nat.toDigits 10 p.toNat).isEmpty = false := by simp
  rw [port?, hdigits, hempty, Numeral.natural?_toDigits]
  have hlt : p.toNat < 65536 := p.toNat_lt
  simp [hlt]

theorem cutAt_of_notMem {mark : Char} {cs : List Char} (h : mark ∉ cs) :
    cutAt (· == mark) cs = (cs, none) := by
  have hdrop : cs.dropWhile (fun c => !c == mark) = [] := by
    rw [List.dropWhile_eq_nil_iff]
    intro c hc
    have hne : c ≠ mark := ne_of_mem_of_not_mem hc h
    simp [hne]
  rw [cutAt, hdrop]

theorem cutUser_of_notMem {cs : List Char} (h : '@' ∉ cs) : cutUser cs = (none, cs) := by
  rw [cutUser, cutAt_of_notMem (by simpa using h)]

theorem userAndPassword_nil : userAndPassword [] = ("", "") := by decide

theorem cutHost_hostText {cs : List Char} (h : HostText cs) (port : Option UInt16) :
    cutHost false (cs ++ (portText port).toList) =
      (cs, port.map fun p => Nat.toDigits 10 p.toNat) := by
  rw [h.cut]
  cases port with
  | none => simp [portText, cutHost]
  | some p => simp [toList_portText_some, cutHost]

theorem authority?_of_text {cs : List Char} {own port : Option UInt16} (h : HostText cs)
    (hport : port = none ∨ port ≠ own) (more : Bool) :
    authority? (.network own) (cs ++ (portText port).toList) more =
      (Host.parseSpecial? cs).map fun host => (⟨"", "", host, port⟩, []) := by
  have huser : '@' ∉ cs ++ (portText port).toList := by
    rw [List.mem_append, not_or]
    exact ⟨notMem_of_kind h.chars (by decide),
      notMem_of_kind (fun _ hc => isHostChar_of_mem_portText hc) (by decide)⟩
  have hempty : cs.isEmpty = false := by simpa using h.ne_nil
  have hown : (if port = own then none else port) = port := by
    rcases hport with rfl | hport
    · exact ite_self _
    · exact if_neg hport
  unfold authority?
  rw [cutUser_of_notMem huser]
  dsimp only
  rw [if_neg (by simp)]
  simp only [Option.getD_none, userAndPassword_nil, cutHost_hostText h, hempty]
  rw [if_neg (by decide)]
  cases hhost : Host.parseSpecial? cs with
  | none => rfl
  | some host =>
      have hne := (Host.isSpecial_of_parseSpecial? hhost).ne_empty
      cases port with
      | none =>
          simp only [Option.map_none, Option.bind_eq_bind, Option.bind_some, Option.map_some]
          rw [if_neg fun h => hne h.1, if_neg fun h => h.1 rfl, hown]
      | some p =>
          simp only [Option.map_some, Option.bind_eq_bind, Option.bind_some, port?_toDigits]
          rw [if_neg fun h => hne h.1, if_neg fun h => h.1 rfl, hown]

theorem not_isSeparator_of_isHostChar {c : Char} (h : isHostChar c = true) :
    Path.isSeparator true c = false := by
  have hslash : c ≠ '/' := ne_of_kind h (by decide)
  have hbackslash : c ≠ '\\' := ne_of_kind h (by decide)
  simp [Path.isSeparator, hslash, hbackslash]

variable {cs : List Char} {own port : Option UInt16} {segs : List Path.Segment}

theorem networkPlace?_of_text (h : HostText cs) (hport : port = none ∨ port ≠ own)
    (hne : segs ≠ []) (hsegs : ∀ s ∈ segs, Path.IsPlain s) (more : Bool) :
    networkPlace? (.network own)
        ('/' :: '/' :: (cs ++ (portText port).toList ++ Path.chars segs)) more =
      (Host.parseSpecial? cs).map fun host =>
        ⟨some ⟨"", "", host, port⟩, Path.chars (Path.resolve segs)⟩ := by
  have hchars : ∀ c ∈ cs ++ (portText port).toList, Path.isSeparator true c = false := by
    intro c hc
    rcases List.mem_append.1 hc with hc | hc
    · exact not_isSeparator_of_isHostChar (h.chars c hc)
    · exact not_isSeparator_of_isHostChar (isHostChar_of_mem_portText hc)
  obtain ⟨c, rest, hcs⟩ := List.exists_cons_of_ne_nil h.ne_nil
  have hfirst : Path.isSeparator true c = false := hchars c (by simp [hcs])
  have hslash : Path.isSeparator true '/' = true := rfl
  have hdrop : ('/' :: '/' :: (cs ++ (portText port).toList ++ Path.chars segs)).dropWhile
      (Path.isSeparator true) = cs ++ (portText port).toList ++ Path.chars segs := by
    simp [hcs, hfirst, hslash]
  have htake : (cs ++ (portText port).toList ++ Path.chars segs).takeWhile
      (!Path.isSeparator true ·) = cs ++ (portText port).toList := by
    rw [Path.chars_eq_joined hne, List.takeWhile_append_of_pos fun c hc => by simp [hchars c hc]]
    simp [hslash]
  rw [networkPlace?, hdrop]
  dsimp only
  rw [htake, List.drop_left, authority?_of_text h hport, Path.chars_eq_joined hne]
  cases Host.parseSpecial? cs with
  | none => rfl
  | some host =>
      simp only [Option.map_some, Option.bind_eq_bind, Option.bind_some, Path.afterSeparator, hslash,
        if_true, Path.segments_joined hne hsegs]

inductive IsWeb : String → UInt16 → Prop
  | http : IsWeb "http" 80
  | https : IsWeb "https" 443

theorem IsWeb.exists_of_eq {scheme : String} (h : scheme = "http" ∨ scheme = "https") :
    ∃ own, IsWeb scheme own := by
  rcases h with rfl | rfl
  · exact ⟨80, .http⟩
  · exact ⟨443, .https⟩

theorem IsWeb.schemeKind {scheme : String} {own : UInt16} (h : IsWeb scheme own) :
    schemeKind scheme = .network (some own) := by
  cases h <;> rfl

theorem IsWeb.scheme? {scheme : String} {own : UInt16} (h : IsWeb scheme own) (rest : List Char) :
    scheme? (scheme.toList ++ ':' :: rest) = some (scheme, rest) := by
  have hcolon : ':' ∉ scheme.toList := by
    cases h <;> decide
  rw [Url.scheme?, cutAt_append_cons hcolon]
  cases h <;> rfl

def isVisible (c : Char) : Bool := 33 ≤ c.toNat

theorem dropWhile_of_isVisible (h : ∀ c ∈ cs, isVisible c = true) :
    cs.dropWhile (fun c => c.toNat ≤ 32) = cs := by
  cases cs with
  | nil => rfl
  | cons c cs =>
      have hc := h c List.mem_cons_self
      rw [isVisible, decide_eq_true_eq] at hc
      exact List.dropWhile_cons_of_neg (by simpa using Nat.lt_of_succ_le hc)

theorem trimmed_of_isVisible (h : ∀ c ∈ cs, isVisible c = true) : trimmed cs = cs := by
  have hreverse : ∀ c ∈ cs.reverse, isVisible c = true := fun c hc => h c (List.mem_reverse.1 hc)
  rw [trimmed, dropWhile_of_isVisible h, dropWhile_of_isVisible hreverse, List.reverse_reverse]

theorem withoutBreaks_of_isVisible (h : ∀ c ∈ cs, isVisible c = true) :
    Path.withoutBreaks cs = cs := by
  rw [Path.withoutBreaks, List.filter_eq_self]
  intro c hc
  have hvisible := h c hc
  simp only [Path.isBreak, Bool.not_eq_true', Bool.or_eq_false_iff, beq_eq_false_iff_ne]
  refine ⟨⟨?_, ?_⟩, ?_⟩
  · rintro rfl
    cases hvisible
  · rintro rfl
    cases hvisible
  · rintro rfl
    cases hvisible

def isPlaceChar (c : Char) : Bool := isVisible c && c != '#' && c != '?'

theorem isPlaceChar_of_isHostChar {c : Char} (h : isHostChar c = true) : isPlaceChar c = true := by
  have hlt : c.toNat < 128 := by
    simp only [isHostChar, Bool.or_eq_true, beq_iff_eq] at h
    rcases h with ((h | rfl) | rfl) | rfl
    · exact Host.lt_of_isNameChar h
    · decide
    · decide
    · decide
  exact forall_ascii (p := fun c => isHostChar c = true → isPlaceChar c = true) (by decide) hlt h

theorem isPlaceChar_of_pathKeeps {c : Char} (h : pathKeeps c = true) : isPlaceChar c = true := by
  have hlt : c.toNat < 128 := by
    simp only [pathKeeps, keepsAllBut, Bool.and_eq_true, decide_eq_true_eq] at h
    omega
  exact forall_ascii (p := fun c => pathKeeps c = true → isPlaceChar c = true) (by decide) hlt h

def urlText (scheme : String) (hostText : List Char) (port : Option UInt16)
    (segs : List Path.Segment) : String :=
  scheme ++ "://" ++ String.ofList hostText ++ portText port ++ String.ofList (Path.chars segs)

theorem toList_urlText (scheme : String) (cs : List Char) (port : Option UInt16)
    (segs : List Path.Segment) :
    (urlText scheme cs port segs).toList = scheme.toList ++ ':' :: ('/' :: '/' ::
      (cs ++ (portText port).toList ++ Path.chars segs)) := by
  simp [urlText]

theorem isPlaceChar_of_mem_chars (hsegs : ∀ s ∈ segs, Path.IsPlain s) {c : Char}
    (h : c ∈ Path.chars segs) : isPlaceChar c = true := by
  obtain ⟨s, hs, hc⟩ := List.mem_flatMap.1 h
  rcases List.mem_cons.1 hc with rfl | hc
  · decide
  · exact isPlaceChar_of_pathKeeps (hsegs s hs c hc).1

theorem parse?_urlText {scheme : String} {own : UInt16} (hscheme : IsWeb scheme own)
    (h : HostText cs) (hport : port ≠ some own) (hne : segs ≠ [])
    (hsegs : ∀ s ∈ segs, Path.IsPlain s) :
    parse? (urlText scheme cs port segs) = (Host.parseSpecial? cs).map fun host =>
      ⟨scheme, some ⟨"", "", host, port⟩, String.ofList (Path.chars (Path.resolve segs)), none,
        none⟩ := by
  have hplace : ∀ c ∈ '/' :: '/' :: (cs ++ (portText port).toList ++ Path.chars segs),
      isPlaceChar c = true := by
    intro c hc
    simp only [List.mem_cons, List.mem_append] at hc
    rcases hc with rfl | rfl | (hc | hc) | hc
    · decide
    · decide
    · exact isPlaceChar_of_isHostChar (h.chars c hc)
    · exact isPlaceChar_of_isHostChar (isHostChar_of_mem_portText hc)
    · exact isPlaceChar_of_mem_chars hsegs hc
  have hvisible : ∀ c ∈ (urlText scheme cs port segs).toList, isVisible c = true := by
    intro c hc
    rw [toList_urlText, List.mem_append, List.mem_cons] at hc
    rcases hc with hc | rfl | hc
    · have hall : scheme.toList.all isVisible = true := by
        cases hscheme <;> decide
      exact List.all_eq_true.1 hall c hc
    · decide
    · have hc := hplace c hc
      simp only [isPlaceChar, Bool.and_eq_true] at hc
      exact hc.1.1
  have hmark : '#' ∉ '/' :: '/' :: (cs ++ (portText port).toList ++ Path.chars segs) :=
    notMem_of_kind hplace (by decide)
  have hquery : '?' ∉ '/' :: '/' :: (cs ++ (portText port).toList ++ Path.chars segs) :=
    notMem_of_kind hplace (by decide)
  rw [parse?, trimmed_of_isVisible hvisible, withoutBreaks_of_isVisible hvisible, toList_urlText,
    hscheme.scheme?]
  simp only [Option.bind_eq_bind, Option.bind_some, cutAt_of_notMem hmark, cutAt_of_notMem hquery,
    hscheme.schemeKind, networkPlace?_of_text h (.inr hport) hne hsegs]
  cases Host.parseSpecial? cs with
  | none => rfl
  | some host => rfl

theorem port_of_checks {p q : Prop} [Decidable p] [Decidable q] {user password : String}
    {host : Host} {port : Option UInt16} {left rest : List Char} {a : Authority}
    (h : (if p then none else if q then none else some (⟨user, password, host, port⟩, left)) =
      some (a, rest)) : a.port = port := by
  split at h
  · cases h
  · split at h
    · cases h
    · cases h
      rfl

theorem ite_ne_own (port : Option UInt16) (own : UInt16) :
    (if port = some own then none else port) ≠ some own := by
  split
  · exact nofun
  · assumption

theorem special_of_authority? {own : UInt16} {rest : List Char} {more : Bool} {a : Authority}
    (h : authority? (.network (some own)) cs more = some (a, rest)) :
    a.host.IsSpecial ∧ a.port ≠ some own := by
  unfold authority? at h
  dsimp only at h
  split at h
  · cases h
  · split at h
    · obtain ⟨_, h, _⟩ := Option.bind_eq_some_iff.1 h
      cases h
    · obtain ⟨host, hhost, h⟩ := Option.bind_eq_some_iff.1 h
      have hspecial := Host.isSpecial_of_parseSpecial? hhost
      split at h
      · obtain ⟨_, _, h⟩ := Option.bind_eq_some_iff.1 h
        rw [host_of_checks h, port_of_checks h]
        exact ⟨hspecial, ite_ne_own _ own⟩
      · obtain ⟨_, _, h⟩ := Option.bind_eq_some_iff.1 h
        rw [host_of_checks h, port_of_checks h]
        exact ⟨hspecial, ite_ne_own _ own⟩

structure Parts (u : Url) (own : UInt16) (a : Authority) (segs : List Path.Segment) : Prop where
  scheme : IsWeb u.scheme own
  authority : u.authority = some a
  host : a.host.IsSpecial
  port : a.port ≠ some own
  path : u.path = String.ofList (Path.chars segs)
  ne_nil : segs ≠ []
  settled : ∀ s ∈ segs, Path.IsSettled s

theorem exists_of_networkPlace? {own : UInt16} {more : Bool} {p : Place}
    (h : networkPlace? (.network (some own)) cs more = some p) :
    ∃ a segs, p.authority = some a ∧ a.host.IsSpecial ∧ a.port ≠ some own ∧
      p.path = Path.chars segs ∧ segs ≠ [] ∧ ∀ s ∈ segs, Path.IsSettled s := by
  unfold networkPlace? at h
  obtain ⟨⟨a, rest⟩, ha, hp⟩ := Option.bind_eq_some_iff.1 h
  cases hp
  obtain ⟨hhost, hport⟩ := special_of_authority? ha
  refine ⟨a, _, rfl, hhost, hport, rfl, Path.resolveFrom_ne_nil _ ?_, ?_⟩
  · simpa using pieces_ne_nil _ _
  · refine Path.isSettled_of_mem_resolveFrom (fun _ hs => nomatch hs) fun s hs => ?_
    obtain ⟨piece, hpiece, rfl⟩ := List.mem_map.1 hs
    exact Path.isPlain_encode (not_cut_of_mem_pieces _ _ piece hpiece)

theorem exists_parts_of_parse? {s : String} {u : Url} {own : UInt16} (h : parse? s = some u)
    (hscheme : IsWeb u.scheme own) : ∃ a segs, u.Parts own a segs := by
  unfold parse? at h
  obtain ⟨⟨scheme, rest⟩, _, h⟩ := Option.bind_eq_some_iff.1 h
  dsimp only at h
  split at h
  · rename_i port hkind
    obtain ⟨p, hp, h⟩ := Option.bind_eq_some_iff.1 h
    cases h
    rw [hkind] at hp
    cases hscheme.schemeKind.symm.trans hkind
    obtain ⟨a, segs, hauthority, hhost, hport, hpath, hne, hsettled⟩ := exists_of_networkPlace? hp
    exact ⟨a, segs, hscheme, hauthority, hhost, hport, congrArg String.ofList hpath, hne, hsettled⟩
  · rename_i hkind
    obtain ⟨_, _, h⟩ := Option.bind_eq_some_iff.1 h
    cases h
    cases hscheme.schemeKind.symm.trans hkind
  · rename_i hkind
    obtain ⟨_, _, h⟩ := Option.bind_eq_some_iff.1 h
    cases h
    cases hscheme.schemeKind.symm.trans hkind

end ObjectCache.Url
