import ObjectCache.Proofs.Settings.Documents

namespace ObjectCache.Settings

open Text

def documented : Settings where
  endpoint := ""
  region := "us-east-1"
  keyId := ""
  secret := ""
  token := none
  addressing := .path
  blockBytes := 256 * 1024 * 1024
  headSeconds := 5
  listSeconds := 5
  sweepSeconds := none
  timeoutSeconds := 30
  maxRetries := 3

theorem default_eq_documented : default = documented := by decide

variable {document : String} {members : List (Option String × Json)} {env : Environment}
  {s t : Settings} {m : Member} {name raw : String}

theorem denotes_of_mem (hdocument : Json.parse? document = some (.object members))
    (haccepted : ofJson document = .ok s) {x : Json} (hx : (some m.name, x) ∈ members) :
    m.Denotes x (m.get s) := by
  obtain ⟨-, -, hread, -⟩ := (ofJson_eq_ok_iff hdocument).1 haccepted
  exact read?_eq_some_iff.1 (hread m x hx)

theorem get_of_absent (hdocument : Json.parse? document = some (.object members))
    (haccepted : ofJson document = .ok s) (habsent : ∀ x, (some m.name, x) ∉ members) :
    m.get s = m.get documented := by
  obtain ⟨-, -, -, hkept⟩ := (ofJson_eq_ok_iff hdocument).1 haccepted
  rw [← default_eq_documented]
  exact hkept m habsent

def IsCount (raw : String) (n : UInt64) : Prop :=
  ∃ digits, (raw.toList = digits ∨ raw.toList = '+' :: digits) ∧ Numeral.Writes digits n.toNat

theorem isCount_iff {raw : String} {n : UInt64} : Numeral.word? raw = some n ↔ IsCount raw n :=
  Numeral.word?_eq_some_iff

namespace Member

def variableName? : Member → Option String
  | endpoint => some "BUCKETCACHE_ENDPOINT"
  | region => some "AWS_REGION"
  | keyId => some "AWS_ACCESS_KEY_ID"
  | secret => some "AWS_SECRET_ACCESS_KEY"
  | token => some "AWS_SESSION_TOKEN"
  | blockBytes => some "BUCKETCACHE_BLOCK_CACHE_BYTES"
  | headSeconds => some "BUCKETCACHE_HEAD_TTL_SECS"
  | listSeconds => some "BUCKETCACHE_LIST_TTL_SECS"
  | addressing | sweepSeconds | timeoutSeconds | maxRetries => none

def Spells (raw : String) : (m : Member) → m.Value → Prop
  | endpoint, v | region, v | keyId, v | secret, v => v = raw
  | token, v => v = some raw
  | blockBytes, v | headSeconds, v | listSeconds, v => IsCount raw v
  | addressing, _ | sweepSeconds, _ | timeoutSeconds, _ | maxRetries, _ => False

def Overrides (env : Environment) (m : Member) (v : m.Value) : Prop :=
  ∃ name raw, m.variableName? = some name ∧ env name = some raw ∧ raw ≠ "" ∧ m.Spells raw v

def ofText? (raw : String) : (m : Member) → Option m.Value
  | endpoint | region | keyId | secret => some raw
  | token => some (some raw)
  | blockBytes | headSeconds | listSeconds => Numeral.word? raw
  | addressing | sweepSeconds | timeoutSeconds | maxRetries => none

def override? (env : Environment) (m : Member) : Option m.Value :=
  m.variableName?.bind fun name => (env.value? name).bind fun raw => m.ofText? raw

end Member

theorem value?_eq_some_iff : env.value? name = some raw ↔ env name = some raw ∧ raw ≠ "" := by
  rw [Environment.value?, Option.filter_eq_some_iff]
  simp

theorem ofText?_eq_some_iff {v : m.Value} : m.ofText? raw = some v ↔ m.Spells raw v := by
  cases m with
  | blockBytes | headSeconds | listSeconds => exact isCount_iff
  | endpoint | region | keyId | secret | token => exact Option.some_inj.trans eq_comm
  | addressing | sweepSeconds | timeoutSeconds | maxRetries => exact iff_of_false nofun id

theorem override?_eq_some_iff {v : m.Value} : m.override? env = some v ↔ m.Overrides env v := by
  simp only [Member.override?, Member.Overrides, Option.bind_eq_some_iff, value?_eq_some_iff,
    ofText?_eq_some_iff, exists_and_left, and_assoc]

def overlay (s : Settings) (env : Environment) : Settings :=
  { s with
    endpoint := (env.value? "BUCKETCACHE_ENDPOINT").getD s.endpoint
    region := (env.value? "AWS_REGION").getD s.region
    keyId := (env.value? "AWS_ACCESS_KEY_ID").getD s.keyId
    secret := (env.value? "AWS_SECRET_ACCESS_KEY").getD s.secret
    token := (env.value? "AWS_SESSION_TOKEN").or s.token
    blockBytes :=
      ((env.value? "BUCKETCACHE_BLOCK_CACHE_BYTES").bind Numeral.word?).getD s.blockBytes
    headSeconds :=
      ((env.value? "BUCKETCACHE_HEAD_TTL_SECS").bind Numeral.word?).getD s.headSeconds
    listSeconds :=
      ((env.value? "BUCKETCACHE_LIST_TTL_SECS").bind Numeral.word?).getD s.listSeconds }

theorem get_overlay (s : Settings) (env : Environment) (m : Member) :
    m.get (s.overlay env) = (m.override? env).getD (m.get s) := by
  cases m with
  | endpoint | region | keyId | secret | token =>
      simp only [Member.override?, Member.variableName?, Option.bind_some, Member.get, overlay]
      cases env.value? _ <;> rfl
  | blockBytes | headSeconds | listSeconds | addressing | sweepSeconds | timeoutSeconds
    | maxRetries => rfl

theorem overlay_overlay (s : Settings) (env : Environment) :
    (s.overlay env).overlay env = s.overlay env := by
  refine Member.eq_of_get fun m => ?_
  rw [get_overlay, get_overlay]
  cases m.override? env <;> rfl

def numberNames : List String :=
  ["BUCKETCACHE_BLOCK_CACHE_BYTES", "BUCKETCACHE_HEAD_TTL_SECS", "BUCKETCACHE_LIST_TTL_SECS"]

def Misspelt (env : Environment) (name raw : String) : Prop :=
  env name = some raw ∧ raw ≠ "" ∧ ∀ n, ¬IsCount raw n

def isMisspelt (env : Environment) (name : String) : Bool :=
  (env.value? name).any fun raw => (Numeral.word? raw).isNone

theorem isMisspelt_iff : isMisspelt env name = true ↔ ∃ raw, Misspelt env name raw := by
  rw [isMisspelt, Option.any_eq_true]
  refine exists_congr fun raw => ?_
  rw [value?_eq_some_iff, Misspelt, and_assoc, Option.isNone_iff_eq_none,
    Option.eq_none_iff_forall_ne_some]
  simp only [← isCount_iff, ne_eq]

theorem word?_eq (env : Environment) (name : String) :
    env.word? name =
      if isMisspelt env name = true then .error (.notANumber name ((env name).getD ""))
      else .ok ((env.value? name).bind Numeral.word?) := by
  rw [Environment.word?, isMisspelt]
  cases hvalue : env.value? name with
  | none => rfl
  | some raw =>
      rw [(value?_eq_some_iff.1 hvalue).1]
      cases hword : Numeral.word? raw <;> simp [hword]

theorem overriddenBy_eq (s : Settings) (env : Environment) :
    s.overriddenBy env = match numberNames.find? (isMisspelt env) with
      | some name => .error (.notANumber name ((env name).getD ""))
      | none => .ok (s.overlay env) := by
  rw [overriddenBy, word?_eq, word?_eq, word?_eq, numberNames, List.find?_cons, List.find?_cons,
    List.find?_cons, List.find?_nil]
  cases isMisspelt env "BUCKETCACHE_BLOCK_CACHE_BYTES" with
  | true => rfl
  | false =>
      cases isMisspelt env "BUCKETCACHE_HEAD_TTL_SECS" with
      | true => rfl
      | false =>
          cases isMisspelt env "BUCKETCACHE_LIST_TTL_SECS" with
          | true => rfl
          | false => rfl

theorem overriddenBy_eq_ok_iff :
    s.overriddenBy env = .ok t ↔
      (∀ name ∈ numberNames, ∀ raw, ¬Misspelt env name raw) ∧ t = s.overlay env := by
  rw [overriddenBy_eq]
  have hnone : numberNames.find? (isMisspelt env) = none ↔
      ∀ name ∈ numberNames, ∀ raw, ¬Misspelt env name raw := by
    simp only [List.find?_eq_none, isMisspelt_iff, not_exists]
  cases hfind : numberNames.find? (isMisspelt env) with
  | none => simp [← hnone, hfind, eq_comm]
  | some name => simp [← hnone, hfind]

theorem overriddenBy_eq_error_iff {e : SettingsError} :
    s.overriddenBy env = .error e ↔
      ∃ before name raw after, numberNames = before ++ name :: after ∧
        (∀ earlier ∈ before, ∀ raw, ¬Misspelt env earlier raw) ∧ Misspelt env name raw ∧
        e = .notANumber name raw := by
  rw [overriddenBy_eq]
  constructor
  · intro h
    split at h
    · rename_i name hfind
      cases h
      obtain ⟨hname, before, after, hnames, hbefore⟩ := List.find?_eq_some_iff_append.1 hfind
      obtain ⟨raw, hraw⟩ := isMisspelt_iff.1 hname
      refine ⟨before, name, raw, after, hnames, fun earlier hearlier other hother => ?_, hraw, ?_⟩
      · have hwell := hbefore earlier hearlier
        rw [isMisspelt_iff.2 ⟨other, hother⟩] at hwell
        cases hwell
      · rw [hraw.1, Option.getD_some]
    · cases h
  · rintro ⟨before, name, raw, after, hnames, hbefore, hraw, rfl⟩
    have hfind : numberNames.find? (isMisspelt env) = some name := by
      refine List.find?_eq_some_iff_append.2
        ⟨isMisspelt_iff.2 ⟨raw, hraw⟩, before, after, hnames, fun earlier hearlier => ?_⟩
      rw [Bool.not_eq_true', ← Bool.not_eq_true, isMisspelt_iff, not_exists]
      exact hbefore earlier hearlier
    simp only [hfind, hraw.1, Option.getD_some]

/-- Each setting is what its variable says if that is there and not empty, else what the document says,
else the default. Only a misspelt number fails, and the first one is reported. The same environment
changes nothing a second time, and a document with the same known members in any order, among
whatever unknown ones, gives the same settings. -/
theorem settings_are_layered (document : String) (members : List (Option String × Json))
    (s : Settings) (env : Environment)
    (hdocument : Json.parse? document = some (.object members))
    (haccepted : ofJson document = .ok s) :
    (∀ t, s.overriddenBy env = .ok t →
      (∀ m : Member,
        (∀ v, m.Overrides env v → m.get t = v) ∧
        ((∀ v, ¬m.Overrides env v) →
          (∀ x, (some m.name, x) ∈ members → m.Denotes x (m.get t)) ∧
          ((∀ x, (some m.name, x) ∉ members) → m.get t = m.get documented))) ∧
      t.overriddenBy env = .ok t) ∧
    (∀ e, s.overriddenBy env = .error e ↔
      ∃ before name raw after, numberNames = before ++ name :: after ∧
        (∀ earlier ∈ before, ∀ raw, ¬Misspelt env earlier raw) ∧ Misspelt env name raw ∧
        e = .notANumber name raw) ∧
    ∀ other others, Json.parse? other = some (.object others) →
      (∀ e ∈ others, e.1.isSome = true) →
      (others.filter isKnown).Perm (members.filter isKnown) → ofJson other = .ok s := by
  refine ⟨fun t ht => ?_, fun e => overriddenBy_eq_error_iff, fun other others hother hnames hsame =>
    ofJson_of_perm hdocument haccepted hother hnames hsame⟩
  obtain ⟨hspelt, rfl⟩ := overriddenBy_eq_ok_iff.1 ht
  refine ⟨fun m => ⟨fun v hv => ?_, fun hfree => ?_⟩, ?_⟩
  · rw [get_overlay, override?_eq_some_iff.2 hv, Option.getD_some]
  · have hnone : m.override? env = none :=
      Option.eq_none_iff_forall_ne_some.2 fun v hv => hfree v (override?_eq_some_iff.1 hv)
    rw [get_overlay, hnone, Option.getD_none]
    exact ⟨fun x hx => denotes_of_mem hdocument haccepted hx,
      fun habsent => get_of_absent hdocument haccepted habsent⟩
  · exact overriddenBy_eq_ok_iff.2 ⟨hspelt, (overlay_overlay s env).symm⟩

theorem one_number_is_overridden :
    let document := "\x7b\"note\":[],\"head_ttl_secs\":10,\"region\":\"eu\"\x7d"
    let other := "\x7b\"region\":\"eu\",\"head_ttl_secs\":10\x7d"
    let env : Environment := fun name =>
      if name = "BUCKETCACHE_HEAD_TTL_SECS" then some "+7"
      else if name = "AWS_REGION" then some "" else none
    let s := { documented with region := "eu", headSeconds := 10 }
    ofJson document = .ok s ∧ ofJson other = .ok s ∧
      ∃ t, s.overriddenBy env = .ok t ∧ t.overriddenBy env = .ok t ∧
        t.headSeconds = 7 ∧ t.region = "eu" ∧ t.listSeconds = 5 := by
  intro document other env s
  have hscan : Json.Token.scan? document = some [.openObject, .string (some "note"), .colon,
      .openArray, .closeArray, .comma, .string (some "head_ttl_secs"), .colon, .number ['1', '0'],
      .comma, .string (some "region"), .colon, .string (some "eu"), .closeObject] := by
    decide +kernel
  have hscan' : Json.Token.scan? other = some [.openObject, .string (some "region"), .colon,
      .string (some "eu"), .comma, .string (some "head_ttl_secs"), .colon, .number ['1', '0'],
      .closeObject] := by
    decide +kernel
  have hdocument : Json.parse? document = some (.object [(some "note", .array []),
      (some "head_ttl_secs", .number ['1', '0']), (some "region", .string (some "eu"))]) := by
    rw [Json.parse?, hscan]
    rfl
  have hother : Json.parse? other = some (.object [(some "region", .string (some "eu")),
      (some "head_ttl_secs", .number ['1', '0'])]) := by
    rw [Json.parse?, hscan']
    rfl
  have haccepted : ofJson document = .ok s := by
    rw [ofJson, hdocument]
    rfl
  obtain ⟨hlayers, -, hsame⟩ := settings_are_layered document _ s env hdocument haccepted
  have ht : s.overriddenBy env = .ok { s with headSeconds := 7 } := rfl
  obtain ⟨hmember, hagain⟩ := hlayers _ ht
  refine ⟨haccepted, hsame other _ hother (by simp) (.swap _ _ []), _, ht, hagain, ?_, ?_, ?_⟩
  · exact (hmember .headSeconds).1 _ ⟨_, "+7", rfl, rfl, by decide, isCount_iff.1 rfl⟩
  · have hempty : ∀ v, ¬Member.region.Overrides env v := by
      rintro v ⟨name, raw, hname, hraw, hne, -⟩
      cases hname
      have hblank : env "AWS_REGION" = some "" := rfl
      cases hblank.symm.trans hraw
      exact hne rfl
    have hread := ((hmember .region).2 hempty).1 (.string (some "eu")) (by simp [Member.name])
    exact (Option.some.inj (Json.string.inj hread)).symm
  · have hunset : ∀ v, ¬Member.listSeconds.Overrides env v := by
      rintro v ⟨name, raw, hname, hraw, -, -⟩
      cases hname
      have hnone : env "BUCKETCACHE_LIST_TTL_SECS" = none := rfl
      cases hnone.symm.trans hraw
    exact ((hmember .listSeconds).2 hunset).2 (by simp [Member.name])

end ObjectCache.Settings
