import Mathlib.Data.List.Basic
import ObjectCache.Proofs.Text.Digits
import ObjectCache.Settings

namespace ObjectCache.Settings

open Text

namespace Member

def Value : Member → Type
  | endpoint | region | keyId | secret => String
  | token => Option String
  | addressing => Addressing
  | blockBytes | headSeconds | listSeconds | timeoutSeconds => UInt64
  | sweepSeconds => Option UInt64
  | maxRetries => UInt32

def get (s : Settings) : (m : Member) → m.Value
  | endpoint => s.endpoint
  | region => s.region
  | keyId => s.keyId
  | secret => s.secret
  | token => s.token
  | addressing => s.addressing
  | blockBytes => s.blockBytes
  | headSeconds => s.headSeconds
  | listSeconds => s.listSeconds
  | sweepSeconds => s.sweepSeconds
  | timeoutSeconds => s.timeoutSeconds
  | maxRetries => s.maxRetries

def put (s : Settings) : (m : Member) → m.Value → Settings
  | endpoint, v => { s with endpoint := v }
  | region, v => { s with region := v }
  | keyId, v => { s with keyId := v }
  | secret, v => { s with secret := v }
  | token, v => { s with token := v }
  | addressing, v => { s with addressing := v }
  | blockBytes, v => { s with blockBytes := v }
  | headSeconds, v => { s with headSeconds := v }
  | listSeconds, v => { s with listSeconds := v }
  | sweepSeconds, v => { s with sweepSeconds := v }
  | timeoutSeconds, v => { s with timeoutSeconds := v }
  | maxRetries, v => { s with maxRetries := v }

def read? (x : Json) : (m : Member) → Option m.Value
  | endpoint | region | keyId | secret => text? x
  | token => orNull text? x
  | addressing => addressing? x
  | blockBytes | headSeconds | listSeconds | timeoutSeconds => word? x
  | sweepSeconds => orNull word? x
  | maxRetries => retries? x

theorem set?_eq (s : Settings) (x : Json) (m : Member) :
    m.set? s x = (m.read? x).map (m.put s) := by
  cases m <;> rfl

theorem get_put_self (s : Settings) (m : Member) (v : m.Value) : m.get (m.put s v) = v := by
  cases m <;> rfl

theorem get_put_other {k m : Member} (h : k ≠ m) (s : Settings) (v : m.Value) :
    k.get (m.put s v) = k.get s := by
  cases m <;> cases k <;> first | rfl | exact absurd rfl h

theorem eq_of_get {s t : Settings} (h : ∀ m : Member, m.get s = m.get t) : s = t := by
  cases s
  cases t
  rw [Settings.mk.injEq]
  exact ⟨h endpoint, h region, h keyId, h secret, h token, h addressing, h blockBytes,
    h headSeconds, h listSeconds, h sweepSeconds, h timeoutSeconds, h maxRetries⟩

theorem ofName?_eq_some_iff {name : String} {m : Member} : ofName? name = some m ↔ name = m.name := by
  constructor
  · intro h
    exact (eq_of_beq (List.find?_some (p := fun k : Member => k.name == name) h)).symm
  · rintro rfl
    cases m <;> decide

end Member

theorem text?_eq_some_iff {x : Json} {v : String} : text? x = some v ↔ x = .string (some v) := by
  cases x <;> simp [text?]

theorem jsonNatural?_eq_some_iff {x : Json} {n : Nat} :
    natural? x = some n ↔ ∃ digits, x = .number digits ∧ Numeral.Writes digits n := by
  cases x <;> simp [natural?, Numeral.natural?_eq_some_iff]

theorem jsonWord?_eq_some_iff {x : Json} {v : UInt64} :
    word? x = some v ↔ ∃ digits, x = .number digits ∧ Numeral.Writes digits v.toNat :=
  Numeral.word_eq_some_iff.trans jsonNatural?_eq_some_iff

theorem retries?_eq_some_iff {x : Json} {v : UInt32} :
    retries? x = some v ↔ ∃ digits, x = .number digits ∧ Numeral.Writes digits v.toNat :=
  (Numeral.below_eq_some_iff UInt32.toNat_lt_size (fun _ => UInt32.ofNat_toNat)
    fun _ => UInt32.toNat_ofNat_of_lt').trans jsonNatural?_eq_some_iff

theorem orNull_eq_some_iff {α : Type} {read : Json → Option α} (h : read .null = none) {x : Json}
    {v : Option α} :
    orNull read x = some v ↔ x = .null ∧ v = none ∨ ∃ a, read x = some a ∧ v = some a := by
  cases x with
  | null => simp [orNull, h, eq_comm]
  | bool | number | string | array | object =>
      simp only [orNull, Option.map_eq_some_iff, reduceCtorEq, false_and, false_or]
      exact exists_congr fun a => and_congr_right fun _ => eq_comm

def styleName : Addressing → String
  | .path => "path"
  | .virtualHosted => "virtual_hosted"

theorem addressingOf?_eq_some_iff {name : String} {v : Addressing} :
    addressingOf? name = some v ↔ name = styleName v := by
  rw [addressingOf?]
  cases v with
  | path => simp [styleName]
  | virtualHosted =>
      simp only [styleName]
      split
      · rename_i hname
        subst hname
        simp
      · simp

theorem addressing?_eq_some_iff {x : Json} {v : Addressing} :
    addressing? x = some v ↔
      x = .string (some (styleName v)) ∨ x = .object [(some (styleName v), .null)] := by
  constructor
  · intro h
    unfold addressing? at h
    split at h
    · exact .inl (by rw [addressingOf?_eq_some_iff.1 h])
    · exact .inr (by rw [addressingOf?_eq_some_iff.1 h])
    · cases h
  · rintro (rfl | rfl)
    · exact addressingOf?_eq_some_iff.2 rfl
    · exact addressingOf?_eq_some_iff.2 rfl

def Member.Denotes (x : Json) : (m : Member) → m.Value → Prop
  | endpoint, v | region, v | keyId, v | secret, v => x = .string (some v)
  | token, v => x = .null ∧ v = none ∨ ∃ text, x = .string (some text) ∧ v = some text
  | addressing, v => x = .string (some (styleName v)) ∨ x = .object [(some (styleName v), .null)]
  | blockBytes, v | headSeconds, v | listSeconds, v | timeoutSeconds, v =>
      ∃ digits, x = .number digits ∧ Numeral.Writes digits (UInt64.toNat v)
  | sweepSeconds, v => x = .null ∧ v = none ∨
      ∃ n : UInt64, (∃ digits, x = .number digits ∧ Numeral.Writes digits n.toNat) ∧ v = some n
  | maxRetries, v => ∃ digits, x = .number digits ∧ Numeral.Writes digits (UInt32.toNat v)

theorem read?_eq_some_iff {x : Json} {m : Member} {v : m.Value} :
    m.read? x = some v ↔ m.Denotes x v := by
  cases m with
  | endpoint | region | keyId | secret => exact text?_eq_some_iff
  | token =>
      refine (orNull_eq_some_iff rfl).trans (or_congr_right (exists_congr fun text => ?_))
      exact and_congr_left fun _ => text?_eq_some_iff
  | addressing => exact addressing?_eq_some_iff
  | blockBytes | headSeconds | listSeconds | timeoutSeconds => exact jsonWord?_eq_some_iff
  | sweepSeconds =>
      refine (orNull_eq_some_iff rfl).trans (or_congr_right (exists_congr fun n => ?_))
      exact and_congr_left fun _ => jsonWord?_eq_some_iff
  | maxRetries => exact retries?_eq_some_iff

variable {document other : String} {members others : List (Option String × Json)}
  {known : List (Member × Json)} {s t : Settings}

theorem setAll?_eq_some_iff (h : (known.map (·.1)).Nodup) :
    setAll? s known = some t ↔
      (∀ e ∈ known, e.1.read? e.2 = some (e.1.get t)) ∧
        ∀ m, m ∉ known.map (·.1) → m.get t = m.get s := by
  induction known generalizing s with
  | nil =>
      rw [setAll?, Option.some_inj]
      constructor
      · rintro rfl
        exact ⟨nofun, fun m _ => rfl⟩
      · intro hsame
        exact Member.eq_of_get fun m => (hsame.2 m List.not_mem_nil).symm
  | cons e known ih =>
      obtain ⟨m, x⟩ := e
      rw [List.map_cons, List.nodup_cons] at h
      rw [setAll?, Member.set?_eq, List.forall_mem_cons]
      constructor
      · intro hset
        obtain ⟨u, hu, hrest⟩ := Option.bind_eq_some_iff.1 hset
        obtain ⟨v, hv, rfl⟩ := Option.map_eq_some_iff.1 hu
        obtain ⟨hread, hkept⟩ := (ih h.2).1 hrest
        refine ⟨⟨?_, hread⟩, fun k hk => ?_⟩
        · rw [hv, hkept m h.1, Member.get_put_self]
        · rw [List.map_cons, List.mem_cons, not_or] at hk
          rw [hkept k hk.2, Member.get_put_other hk.1]
      · rintro ⟨⟨hv, hread⟩, hkept⟩
        have hv' : m.read? x = some (m.get t) := hv
        rw [hv', Option.map_some, Option.bind_some, ih h.2]
        refine ⟨hread, fun k hk => ?_⟩
        by_cases heq : k = m
        · rw [heq, Member.get_put_self]
        · rw [Member.get_put_other heq]
          exact hkept k (by simp [heq, hk])

def isKnown (e : Option String × Json) : Bool := Member.all.any fun m => e.1 == some m.name

def knownOf (members : List (Option String × Json)) : List (Member × Json) :=
  members.filterMap fun e => (e.1.bind Member.ofName?).map (·, e.2)

theorem mapM_name_eq_some_iff {named : List (String × Json)} :
    (members.mapM fun (e : Option String × Json) => e.1.map (·, e.2)) = some named ↔
      members = named.map fun e => (some e.1, e.2) := by
  induction members generalizing named with
  | nil => cases named <;> simp
  | cons e members ih =>
      obtain ⟨name, x⟩ := e
      rw [List.mapM_cons]
      cases name with
      | none => cases named <;> simp
      | some name =>
          cases named with
          | nil => simp [Option.bind_eq_some_iff]
          | cons d named =>
              obtain ⟨name', y⟩ := d
              simp [Option.bind_eq_some_iff, ih, and_left_comm, and_assoc]

theorem knownMembers_eq (named : List (String × Json)) :
    knownMembers named = knownOf (named.map fun e => (some e.1, e.2)) := by
  rw [knownMembers, knownOf, List.filterMap_map]
  rfl

theorem exists_named (h : ∀ e ∈ members, e.1.isSome = true) :
    ∃ named : List (String × Json), members = named.map fun e => (some e.1, e.2) := by
  induction members with
  | nil => exact ⟨[], rfl⟩
  | cons e members ih =>
      obtain ⟨he, hmembers⟩ := List.forall_mem_cons.1 h
      obtain ⟨named, rfl⟩ := ih hmembers
      obtain ⟨name, hname⟩ := Option.isSome_iff_exists.1 he
      exact ⟨(name, e.2) :: named, by rw [List.map_cons, ← hname]⟩

theorem mem_knownOf_iff {m : Member} {x : Json} :
    (m, x) ∈ knownOf members ↔ (some m.name, x) ∈ members := by
  rw [knownOf, List.mem_filterMap]
  constructor
  · rintro ⟨⟨name, y⟩, he, hm⟩
    obtain ⟨k, hk, hpair⟩ := Option.map_eq_some_iff.1 hm
    obtain ⟨n, hn, hname⟩ := Option.bind_eq_some_iff.1 hk
    cases hpair
    dsimp only at hn
    rw [hn, Member.ofName?_eq_some_iff.1 hname] at he
    exact he
  · intro he
    refine ⟨(some m.name, x), he, ?_⟩
    rw [Option.bind_some, Member.ofName?_eq_some_iff.2 rfl, Option.map_some]

theorem setAll?_knownOf_eq_some_iff (h : ((knownOf members).map (·.1)).Nodup) :
    setAll? s (knownOf members) = some t ↔
      (∀ (m : Member) (x : Json), (some m.name, x) ∈ members → m.read? x = some (m.get t)) ∧
        ∀ m : Member, (∀ x, (some m.name, x) ∉ members) → m.get t = m.get s := by
  rw [setAll?_eq_some_iff h, Prod.forall]
  simp only [mem_knownOf_iff, List.mem_map, Prod.exists, exists_and_right, exists_eq_right,
    not_exists]

theorem ofJson_eq_ok_iff (h : Json.parse? document = some (.object members)) :
    ofJson document = .ok s ↔
      (∀ e ∈ members, e.1.isSome = true) ∧ ((knownOf members).map (·.1)).Nodup ∧
        (∀ (m : Member) (x : Json), (some m.name, x) ∈ members → m.read? x = some (m.get s)) ∧
        ∀ m : Member, (∀ x, (some m.name, x) ∉ members) → m.get s = m.get default := by
  have hread : ofJson document = .ok s ↔ ofValue? (.object members) = some s := by
    rw [ofJson, h, Option.bind_some]
    cases ofValue? (.object members) <;> simp
  rw [hread, ofValue?, Option.bind_eq_some_iff]
  constructor
  · rintro ⟨named, hnamed, hset⟩
    rw [mapM_name_eq_some_iff] at hnamed
    rw [ofMembers?, knownMembers_eq, ← hnamed] at hset
    obtain ⟨hnodup, hset⟩ := Option.ite_none_right_eq_some.1 hset
    refine ⟨?_, hnodup, (setAll?_knownOf_eq_some_iff hnodup).1 hset⟩
    intro e he
    rw [hnamed] at he
    obtain ⟨d, -, rfl⟩ := List.mem_map.1 he
    rfl
  · rintro ⟨hnames, hnodup, hvalues⟩
    obtain ⟨named, hnamed⟩ := exists_named hnames
    refine ⟨named, mapM_name_eq_some_iff.2 hnamed, ?_⟩
    rw [ofMembers?, knownMembers_eq, ← hnamed]
    exact (if_pos hnodup).trans ((setAll?_knownOf_eq_some_iff hnodup).2 hvalues)

theorem knownOf_filter (members : List (Option String × Json)) :
    knownOf (members.filter isKnown) = knownOf members := by
  rw [knownOf, List.filterMap_filter, knownOf]
  refine List.filterMap_congr fun e _ => ?_
  split
  · rfl
  · rename_i hunknown
    refine (Option.map_eq_none_iff.2 (Option.eq_none_iff_forall_ne_some.2 fun m hm => ?_)).symm
    obtain ⟨name, hname, hm⟩ := Option.bind_eq_some_iff.1 hm
    refine hunknown (List.any_eq_true.2 ⟨m, ?_, ?_⟩)
    · cases m <;> decide
    · rw [hname, Member.ofName?_eq_some_iff.1 hm]
      exact beq_self_eq_true _

theorem ofJson_of_perm (hdocument : Json.parse? document = some (.object members))
    (haccepted : ofJson document = .ok s) (hother : Json.parse? other = some (.object others))
    (hnames : ∀ e ∈ others, e.1.isSome = true)
    (hsame : (others.filter isKnown).Perm (members.filter isKnown)) : ofJson other = .ok s := by
  obtain ⟨-, hnodup, hread, hkept⟩ := (ofJson_eq_ok_iff hdocument).1 haccepted
  have hperm : (knownOf others).Perm (knownOf members) := by
    rw [← knownOf_filter others, ← knownOf_filter members]
    exact hsame.filterMap _
  have hmem : ∀ (m : Member) (x : Json),
      (some m.name, x) ∈ others ↔ (some m.name, x) ∈ members := by
    intro m x
    rw [← mem_knownOf_iff, hperm.mem_iff, mem_knownOf_iff]
  refine (ofJson_eq_ok_iff hother).2 ⟨hnames, (hperm.map (·.1)).nodup_iff.2 hnodup, ?_, ?_⟩
  · exact fun m x hx => hread m x ((hmem m x).1 hx)
  · exact fun m habsent => hkept m fun x hx => habsent x ((hmem m x).2 hx)

end ObjectCache.Settings
