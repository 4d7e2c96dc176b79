import Mathlib.Data.List.Basic
import ObjectCache.Proofs.Text.Digits
import ObjectCache.Proofs.Text.Pieces
import ObjectCache.Url.Host

namespace ObjectCache.Url

open Text

namespace Ipv4

theorem number?_of_ne {c : Char} (h : c ≠ '0') (cs : List Char) :
    number? (c :: cs) = Numeral.natural? (c :: cs) := by
  unfold number?
  split
  · rename_i heq
    exact absurd (List.cons.inj heq).1 h
  · rename_i heq
    exact absurd (List.cons.inj heq).1 h
  · rename_i heq
    exact absurd (List.cons.inj heq).1 h
  · rfl

theorem number?_toDigits (n : Nat) : number? (Nat.toDigits 10 n) = some n := by
  rcases Nat.eq_zero_or_pos n with rfl | hpos
  · decide
  · obtain ⟨c, ds, hds, hc⟩ := Numeral.toDigits_eq_cons hpos
    rw [hds, number?_of_ne hc, ← hds, Numeral.natural?_toDigits]

theorem dot_notMem_toDigits {p : List Char} {ns : List Nat} (h : p ∈ ns.map (Nat.toDigits 10)) :
    '.' ∉ p := by
  obtain ⟨n, _, rfl⟩ := List.mem_map.1 h
  exact notMem_toDigits (by decide) (by decide)

theorem parts_text (a : Ipv4) : parts a.text = (octets a).map (Nat.toDigits 10) :=
  pieces_joined_of_notMem (by simp [octets]) fun _ => dot_notMem_toDigits

theorem labels_text (a : Ipv4) : labels a.text = (octets a).map (Nat.toDigits 10) := by
  rw [labels, parts_text, if_neg]
  simp [octets, Nat.toDigits_ne_nil]

theorem assemble?_octets (a : Ipv4) : assemble? (octets a) = some a := by
  have ha := a.toNat_lt
  have hfirst : a.toNat / 16777216 < 256 := by omega
  have hbytes : (256 * (256 * (256 * 0 + a.toNat / 16777216) + a.toNat / 65536 % 256) +
      a.toNat / 256 % 256) * 256 + a.toNat % 256 = a.toNat := by
    omega
  have hmod : ∀ n : Nat, n % 256 < 256 := fun n => Nat.mod_lt n (by decide)
  rw [assemble?, octets]
  simp only [List.getLast?_cons_cons, List.getLast?_singleton, List.dropLast_cons_cons,
    List.dropLast_singleton, List.foldl_cons, List.foldl_nil]
  rw [if_pos]
  · change some (UInt32.ofNat (_ * 256 + _)) = _
    rw [hbytes, UInt32.ofNat_toNat]
  · refine ⟨Nat.le_refl 4, ?_, hmod _⟩
    simp [hfirst, hmod]

theorem parse?_text (a : Ipv4) : parse? a.text = some a := by
  rw [parse?, labels_text]
  have hnumbers : ((octets a).map (Nat.toDigits 10)).mapM number? = some (octets a) := by
    simp [octets, number?_toDigits]
  rw [hnumbers]
  exact assemble?_octets a

theorem endsInNumber_text (a : Ipv4) : endsInNumber a.text = true := by
  rw [endsInNumber, labels_text]
  simp [octets, number?_toDigits]

end Ipv4

namespace Ipv6

variable {gs : List UInt16}

theorem groupText_ne_nil (g : UInt16) : groupText g ≠ [] := Nat.toDigits_ne_nil

theorem notMem_groupText {c : Char} (h : ∀ d < 16, Nat.digitChar d ≠ c) (g : UInt16) :
    c ∉ groupText g :=
  notMem_toDigits (by decide) h

theorem group?_groupText (g : UInt16) : group? (groupText g) = some g := by
  have hlength : (groupText g).length ≤ 4 := by
    have hg := g.toNat_lt
    rw [groupText, Nat.length_toDigits_le_iff (by decide) (by decide)]
    exact hg
  have hempty : (groupText g).isEmpty = false := by
    simpa using groupText_ne_nil g
  have hvalue : Numeral.valueFrom? 16 0 (groupText g) = some g.toNat :=
    Numeral.valueFrom?_toDigits (by decide) (by decide) _
  rw [group?, hempty, hvalue, Option.map_some, UInt16.ofNat_toNat]
  simp [Nat.not_lt.2 hlength]

theorem groupsOf?_map_groupText (gs : List UInt16) : groupsOf? (gs.map groupText) = some gs := by
  induction gs with
  | nil => rfl
  | cons g gs ih =>
      cases gs with
      | nil =>
          simp [groupsOf?, group?_groupText, notMem_groupText (c := '.') (by decide)]
      | cons g' gs =>
          simp only [List.map_cons] at ih ⊢
          simp [groupsOf?, group?_groupText, ih]

theorem pieces_groupsText (h : gs ≠ []) :
    pieces (· == ':') (groupsText gs) = gs.map groupText := by
  refine pieces_joined_of_notMem (by simpa using h) fun p hp => ?_
  obtain ⟨g, _, rfl⟩ := List.mem_map.1 hp
  exact notMem_groupText (by decide) g

theorem mem_groupsText {c : Char} (h : c ∈ groupsText gs) :
    c = ':' ∨ ∃ d < 16, c = Nat.digitChar d := by
  rcases mem_joined h with rfl | ⟨p, hp, hc⟩
  · exact .inl rfl
  · obtain ⟨g, _, rfl⟩ := List.mem_map.1 hp
    exact .inr (exists_digitChar_of_mem_toDigits (by decide) hc)

theorem mem_text {a : Ipv6} {c : Char} (h : c ∈ a.text) :
    c = ':' ∨ ∃ d < 16, c = Nat.digitChar d := by
  unfold text at h
  split at h
  split at h
  · exact mem_groupsText h
  · simp only [List.mem_append, List.mem_cons] at h
    rcases h with h | h | h | h
    · exact mem_groupsText h
    · exact .inl h
    · exact .inl h
    · exact mem_groupsText h

theorem dot_notMem_groupsText (gs : List UInt16) : '.' ∉ groupsText gs := by
  have hdigits : ∀ d < 16, Nat.digitChar d ≠ '.' := by decide
  intro h
  rcases mem_groupsText h with h | ⟨d, hd, h⟩
  · cases h
  · exact hdigits d hd h.symm

theorem groupsText_eq_nil : groupsText gs = [] → gs = [] := by
  intro h
  cases gs with
  | nil => rfl
  | cons g gs =>
    cases gs with
    | nil => exact absurd h (groupText_ne_nil g)
    | cons g' gs => simp [groupsText, joined] at h

theorem groupsOf?_colonPieces (gs : List UInt16) :
    groupsOf? (colonPieces (groupsText gs)) = some gs := by
  by_cases h : gs = []
  · rw [h]
    rfl
  · have hempty : (groupsText gs).isEmpty = false := by
      simpa using fun hnil => h (groupsText_eq_nil hnil)
    rw [colonPieces, hempty, if_neg (by decide), pieces_groupsText h, groupsOf?_map_groupText]

theorem splitGap_cons {c : Char} {cs : List Char} (h : c ≠ ':' ∨ cs.head? ≠ some ':')
    (before : List Char) : splitGap before (c :: cs) = splitGap (c :: before) cs := by
  conv => lhs; unfold splitGap
  split
  · rename_i heq
    cases heq
  · rename_i heq
    cases heq
    simp at h
  · rename_i heq
    cases heq
    rfl

theorem splitGap_append {p : List Char} (h : ':' ∉ p) (before rest : List Char) :
    splitGap before (p ++ rest) = splitGap (p.reverse ++ before) rest := by
  induction p generalizing before with
  | nil => rfl
  | cons c p ih =>
      rw [List.mem_cons, not_or] at h
      rw [List.cons_append, splitGap_cons (.inl (Ne.symm h.1)), ih h.2, List.reverse_cons,
        List.append_assoc, List.singleton_append]

theorem head?_groupText (g : UInt16) (rest : List Char) :
    (groupText g ++ rest).head? ≠ some ':' := by
  obtain ⟨d, ds, hd⟩ := List.exists_cons_of_ne_nil (groupText_ne_nil g)
  have hcolon : ':' ∉ groupText g := notMem_groupText (by decide) g
  rw [hd] at hcolon ⊢
  intro h
  exact hcolon (Option.some.inj h ▸ List.mem_cons_self)

theorem groupsText_cons_cons (g g' : UInt16) (gs : List UInt16) :
    groupsText (g :: g' :: gs) = groupText g ++ ':' :: groupsText (g' :: gs) := rfl

theorem head?_groupsText (g : UInt16) (gs : List UInt16) (rest : List Char) :
    (groupsText (g :: gs) ++ rest).head? ≠ some ':' := by
  cases gs with
  | nil => exact head?_groupText g rest
  | cons g' gs =>
      rw [groupsText_cons_cons, List.append_assoc]
      exact head?_groupText g _

theorem splitGap_groupsText (gs : List UInt16) (before rest : List Char) :
    splitGap before (groupsText gs ++ rest) = splitGap ((groupsText gs).reverse ++ before) rest := by
  induction gs generalizing before with
  | nil => rfl
  | cons g gs ih =>
      have hg : ':' ∉ groupText g := notMem_groupText (by decide) g
      cases gs with
      | nil => exact splitGap_append hg before rest
      | cons g' gs =>
          rw [groupsText_cons_cons, List.append_assoc, splitGap_append hg, List.cons_append,
            splitGap_cons (.inr (head?_groupsText g' gs rest)), ih]
          simp

theorem foldl_longest_mem (runs : List (Nat × Nat)) (best : Nat × Nat) :
    runs.foldl (fun best r => if best.2 < r.2 then r else best) best ∈ best :: runs := by
  induction runs generalizing best with
  | nil => exact List.mem_cons_self
  | cons r runs ih =>
      rw [List.foldl_cons]
      split
      · exact List.mem_cons_of_mem _ (ih r)
      · rcases List.mem_cons.1 (ih best) with h | h
        · rw [h]
          exact List.mem_cons_self
        · exact List.mem_cons_of_mem _ (List.mem_cons_of_mem _ h)

theorem longestZeros_cases {start length : Nat} (h : longestZeros gs = (start, length)) :
    length = 0 ∨ length = ((gs.drop start).takeWhile (· == 0)).length := by
  have hmem := foldl_longest_mem ((List.range gs.length).map fun i =>
    (i, ((gs.drop i).takeWhile (· == 0)).length)) (0, 0)
  rw [longestZeros] at h
  rw [h] at hmem
  rcases List.mem_cons.1 hmem with hzero | hrun
  · exact .inl (congrArg Prod.snd hzero)
  · obtain ⟨i, _, hi⟩ := List.mem_map.1 hrun
    cases hi
    exact .inr rfl

theorem ofGroups?_groups (a : Ipv6) : ofGroups? a.groups = some a := dif_pos a.length_eq

theorem fill_zeros {start length : Nat} (hpos : 0 < length)
    (h : longestZeros gs = (start, length)) :
    gs.take start ++ List.replicate length 0 ++ gs.drop (start + length) = gs := by
  rcases longestZeros_cases h with hzero | hlength
  · omega
  · have hzeros : (gs.drop start).takeWhile (· == 0) = List.replicate length 0 := by
      rw [List.eq_replicate_iff]
      refine ⟨hlength.symm, fun g hg => ?_⟩
      simpa using List.all_eq_true.1 List.all_takeWhile g hg
    have hsplit : gs.drop start = List.replicate length 0 ++ (gs.drop start).dropWhile (· == 0) := by
      rw [← hzeros, List.takeWhile_append_dropWhile]
    have hrest : gs.drop (start + length) = (gs.drop start).dropWhile (· == 0) := by
      rw [← List.drop_drop, hsplit, List.drop_left' List.length_replicate, ← hsplit]
    rw [hrest, List.append_assoc, ← hsplit, List.take_append_drop]

theorem parse?_text (a : Ipv6) : parse? a.text = some a := by
  unfold text
  split
  rename_i start length hrun
  split
  · have hgap := splitGap_groupsText a.groups [] []
    rw [List.append_nil] at hgap
    rw [parse?, hgap]
    have hne : a.groups ≠ [] := by
      intro hnil
      have hlength := a.length_eq
      rw [hnil] at hlength
      cases hlength
    simp only [splitGap]
    rw [pieces_groupsText hne, groupsOf?_map_groupText, Option.bind_some, ofGroups?_groups]
  · rename_i hlong
    have hfill := fill_zeros (by omega) hrun
    have hdot : (groupsText (a.groups.take start)).contains '.' = false := by
      simpa using dot_notMem_groupsText (a.groups.take start)
    have hcount := congrArg List.length hfill
    rw [a.length_eq, List.length_append, List.length_append, List.length_replicate] at hcount
    have hzeros : 8 - (a.groups.take start).length - (a.groups.drop (start + length)).length =
        length := by
      omega
    rw [parse?, splitGap_groupsText]
    simp only [splitGap, List.append_nil, List.reverse_reverse, hdot, groupsOf?_colonPieces,
      Bool.false_eq_true, if_false, Option.bind_eq_bind, Option.bind_some]
    rw [if_pos (by omega), hzeros, hfill, ofGroups?_groups]

end Ipv6

end ObjectCache.Url

namespace ObjectCache.Url.Host

open Text

theorem lt_of_isNameChar {c : Char} (h : isNameChar c = true) : c.toNat < 128 := by
  simp only [isNameChar, Bool.and_eq_true, decide_eq_true_eq] at h
  omega

theorem keeps_isNameChar : Percent.Keeps isNameChar := by
  intro c hc
  refine ⟨lt_of_isNameChar hc, ?_⟩
  rintro rfl
  exact absurd hc (by decide)

theorem isNameChar_lowerChar {c : Char} (h : isNameChar c = true) :
    isNameChar (lowerChar c) = true :=
  forall_ascii (p := fun c => isNameChar c = true → isNameChar (lowerChar c) = true) (by decide)
    (lt_of_isNameChar h) h

theorem lowerChar_lowerChar {c : Char} (h : isNameChar c = true) :
    lowerChar (lowerChar c) = lowerChar c :=
  forall_ascii (p := fun c => lowerChar (lowerChar c) = lowerChar c) (by decide)
    (lt_of_isNameChar h)

structure IsName (cs : List Char) : Prop where
  ne_nil : cs ≠ []
  chars : ∀ c ∈ cs, isNameChar c = true
  lower : cs.map lowerChar = cs
  noNumber : Ipv4.endsInNumber cs = false

variable {cs : List Char} {host : Host}

theorem parseSpecial?_of_isNameChar (h : ∀ c ∈ cs, isNameChar c = true) :
    parseSpecial? cs = ofName? cs := by
  have hbracket : cs.head? ≠ some '[' := fun hhead =>
    absurd (h '[' (List.mem_of_mem_head? hhead)) (by decide)
  have hdecoded := Percent.decodeText?_encode keeps_isNameChar (String.ofList cs)
  rw [String.toList_ofList, Percent.encode_of_keep h] at hdecoded
  rw [parseSpecial?, if_neg hbracket, hdecoded, Option.bind_some, String.toList_ofList]

theorem ofName?_eq (hne : cs ≠ []) (h : ∀ c ∈ cs, isNameChar c = true) :
    ofName? cs = if Ipv4.endsInNumber (cs.map lowerChar) then
        (Ipv4.parse? (cs.map lowerChar)).map .ipv4
      else some (.name (String.ofList (cs.map lowerChar))) := by
  rw [ofName?, if_neg]
  rw [Bool.or_eq_true, not_or, List.isEmpty_iff, Bool.not_eq_true', Bool.not_eq_false,
    List.all_eq_true]
  exact ⟨hne, h⟩

theorem isNameChar_of_ofName? (h : ofName? cs = some host) :
    cs ≠ [] ∧ ∀ c ∈ cs, isNameChar c = true := by
  unfold ofName? at h
  split at h
  · cases h
  · rename_i hname
    rwa [Bool.or_eq_true, not_or, List.isEmpty_iff, Bool.not_eq_true', Bool.not_eq_false,
      List.all_eq_true] at hname

theorem IsName.parseSpecial? (h : IsName cs) :
    parseSpecial? cs = some (.name (String.ofList cs)) := by
  rw [parseSpecial?_of_isNameChar h.chars, ofName?_eq h.ne_nil h.chars, h.lower, h.noNumber,
    if_neg (by decide)]

def IsSpecial : Host → Prop
  | .name t => IsName t.toList
  | .ipv4 _ => True
  | .ipv6 _ => True

theorem isSpecial_of_ofName? (h : ofName? cs = some host) : host.IsSpecial := by
  obtain ⟨hne, hchars⟩ := isNameChar_of_ofName? h
  rw [ofName?_eq hne hchars] at h
  split at h
  · obtain ⟨_, _, rfl⟩ := Option.map_eq_some_iff.1 h
    trivial
  · rename_i hnumber
    cases h
    rw [IsSpecial, String.toList_ofList]
    refine ⟨by simpa using hne, ?_, ?_, by simpa using hnumber⟩
    · intro c hc
      obtain ⟨d, hd, rfl⟩ := List.mem_map.1 hc
      exact isNameChar_lowerChar (hchars d hd)
    · rw [List.map_map]
      exact List.map_congr_left fun c hc => lowerChar_lowerChar (hchars c hc)

theorem isSpecial_of_parseSpecial? (h : parseSpecial? cs = some host) : host.IsSpecial := by
  unfold parseSpecial? at h
  split at h
  · obtain ⟨_, _, rfl⟩ := Option.map_eq_some_iff.1 h
    trivial
  · obtain ⟨_, _, hname⟩ := Option.bind_eq_some_iff.1 h
    exact isSpecial_of_ofName? hname

theorem isNameChar_of_mem_ipv4 {a : Ipv4} {c : Char} (h : c ∈ a.text) :
    isNameChar c = true ∧ lowerChar c = c := by
  have hdigits : ∀ d ∈ List.range 10, isNameChar (Nat.digitChar d) = true ∧
      lowerChar (Nat.digitChar d) = Nat.digitChar d := by
    decide
  rcases mem_joined h with rfl | ⟨p, hp, hc⟩
  · decide
  · obtain ⟨n, _, rfl⟩ := List.mem_map.1 hp
    obtain ⟨d, hd, rfl⟩ := exists_digitChar_of_mem_toDigits (by decide) hc
    exact hdigits d (List.mem_range.2 hd)

theorem ipv4_text_ne_nil (a : Ipv4) : a.text ≠ [] := by
  simp [Ipv4.text, Ipv4.octets, joined]

theorem map_lowerChar_of_forall (h : ∀ c ∈ cs, lowerChar c = c) : cs.map lowerChar = cs :=
  (List.map_congr_left h).trans (List.map_id cs)

theorem map_lowerChar_ipv4 (a : Ipv4) : a.text.map lowerChar = a.text :=
  map_lowerChar_of_forall fun _ hc => (isNameChar_of_mem_ipv4 hc).2

theorem ofName?_ipv4_text (a : Ipv4) : ofName? a.text = some (.ipv4 a) := by
  rw [ofName?_eq (ipv4_text_ne_nil a) fun c hc => (isNameChar_of_mem_ipv4 hc).1,
    map_lowerChar_ipv4, Ipv4.endsInNumber_text, if_pos rfl, Ipv4.parse?_text]
  rfl

theorem parseSpecial?_chars (h : host.IsSpecial) : parseSpecial? host.chars = some host := by
  cases host with
  | name t => rw [chars, IsName.parseSpecial? h, String.ofList_toList]
  | ipv4 a =>
      rw [chars, parseSpecial?_of_isNameChar fun c hc => (isNameChar_of_mem_ipv4 hc).1,
        ofName?_ipv4_text]
  | ipv6 a =>
      have hbracketed : bracketed? ('[' :: a.text ++ [']']) = some a.text := by
        simp [bracketed?]
      rw [chars, parseSpecial?, if_pos (by simp), hbracketed, Option.bind_some, Ipv6.parse?_text]
      rfl

theorem labels_append {cs : List Char} (h : cs ≠ []) (as : List Char) :
    Ipv4.labels (as ++ '.' :: cs) = Ipv4.parts as ++ Ipv4.labels cs ∧ Ipv4.labels cs ≠ [] := by
  have hcs : Ipv4.parts cs ≠ [] := pieces_ne_nil _ _
  have hparts : Ipv4.parts (as ++ '.' :: cs) = Ipv4.parts as ++ Ipv4.parts cs :=
    pieces_append '.' as cs
  rw [Ipv4.labels, hparts, List.getLast?_append_of_ne_nil _ hcs, Ipv4.labels]
  split
  · rename_i hempty
    refine ⟨List.dropLast_append_of_ne_nil hcs, fun hnil => h ?_⟩
    obtain ⟨init, hinit⟩ := List.getLast?_eq_some_iff.1 hempty
    rw [hinit, List.dropLast_concat] at hnil
    rw [← joined_pieces '.' cs, ← Ipv4.parts, hinit, hnil]
    rfl
  · exact ⟨rfl, hcs⟩

theorem endsInNumber_append {cs : List Char} (h : cs ≠ []) (as : List Char) :
    Ipv4.endsInNumber (as ++ '.' :: cs) = Ipv4.endsInNumber cs := by
  obtain ⟨hlabels, hne⟩ := labels_append h as
  rw [Ipv4.endsInNumber, hlabels, List.getLast?_append_of_ne_nil _ hne, Ipv4.endsInNumber]

theorem length_of_mapM {α β : Type} {f : α → Option β} {as : List α} {bs : List β}
    (h : as.mapM f = some bs) : bs.length = as.length := by
  induction as generalizing bs with
  | nil =>
      cases h
      rfl
  | cons a as ih =>
      rw [List.mapM_cons] at h
      obtain ⟨b, _, hrest⟩ := Option.bind_eq_some_iff.1 h
      obtain ⟨rest, htail, hbs⟩ := Option.bind_eq_some_iff.1 hrest
      cases hbs
      rw [List.length_cons, List.length_cons, ih htail]

theorem ipv4_parse?_append (a : Ipv4) (as : List Char) : Ipv4.parse? (as ++ '.' :: a.text) = none := by
  obtain ⟨hlabels, _⟩ := labels_append (ipv4_text_ne_nil a) as
  rw [Ipv4.parse?, Option.bind_eq_none_iff]
  intro numbers hnumbers
  have hparts : 0 < (Ipv4.parts as).length := List.length_pos_iff.2 (pieces_ne_nil _ _)
  have hlength := length_of_mapM hnumbers
  rw [hlabels, List.length_append, Ipv4.labels_text, List.length_map] at hlength
  have hmany : ¬numbers.length ≤ 4 := by
    rw [hlength]
    simp only [Ipv4.octets, List.length_cons, List.length_nil]
    omega
  rw [Ipv4.assemble?]
  split
  · rw [if_neg fun hall => hmany hall.1]
  · rfl

theorem IsSpecial.ne_empty (h : host.IsSpecial) : host ≠ empty := by
  rintro rfl
  exact IsName.ne_nil h rfl

end ObjectCache.Url.Host
