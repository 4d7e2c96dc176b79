import ObjectCache.Json.Parse
import ObjectCache.Signing.Signer

namespace ObjectCache

structure Settings where
  endpoint : String
  region : String
  keyId : String
  secret : String
  token : Option String
  addressing : Addressing
  blockBytes : UInt64
  headSeconds : UInt64
  listSeconds : UInt64
  sweepSeconds : Option UInt64
  timeoutSeconds : UInt64
  maxRetries : UInt32
deriving DecidableEq

inductive SettingsError where
  | malformed
  | unreadable (file : String)
  | notANumber (variableName raw : String)
deriving DecidableEq, Repr

def SettingsError.message : SettingsError → String
  | .malformed => "Failed to parse session config"
  | .unreadable file => "Failed to read config file: " ++ Text.quoted file
  | .notANumber name raw => name ++ " must be a non-negative integer, got '" ++ raw ++ "'"

namespace Settings

def default : Settings where
  endpoint := ""
  region := Signer.defaultRegion
  keyId := ""
  secret := ""
  token := none
  addressing := .path
  blockBytes := 268435456
  headSeconds := 5
  listSeconds := 5
  sweepSeconds := none
  timeoutSeconds := 30
  maxRetries := 3

def credentials (s : Settings) : Credentials := ⟨s.keyId, s.secret, s.token⟩

def sweepInterval (s : Settings) : Option UInt64 := s.sweepSeconds.filter (0 < ·)

def text? : Json → Option String
  | .string s => s
  | _ => none

def natural? : Json → Option Nat
  | .number ds => Text.Numeral.natural? ds
  | _ => none

def word? (x : Json) : Option UInt64 :=
  (natural? x).bind fun n => if n < UInt64.size then some (UInt64.ofNat n) else none

def retries? (x : Json) : Option UInt32 :=
  (natural? x).bind fun n => if n < UInt32.size then some (UInt32.ofNat n) else none

def orNull {α : Type} (read : Json → Option α) : Json → Option (Option α)
  | .null => some none
  | x => (read x).map some

def addressingOf? (name : String) : Option Addressing :=
  if name = "path" then some .path
  else if name = "virtual_hosted" then some .virtualHosted
  else none

def addressing? : Json → Option Addressing
  | .string (some name) => addressingOf? name
  | .object [(some name, .null)] => addressingOf? name
  | _ => none

inductive Member where
  | endpoint
  | region
  | keyId
  | secret
  | token
  | addressing
  | blockBytes
  | headSeconds
  | listSeconds
  | sweepSeconds
  | timeoutSeconds
  | maxRetries
deriving DecidableEq, Repr

namespace Member

def all : List Member :=
  [endpoint, region, keyId, secret, token, addressing, blockBytes, headSeconds, listSeconds,
    sweepSeconds, timeoutSeconds, maxRetries]

def name : Member → String
  | endpoint => "endpoint"
  | region => "region"
  | keyId => "access_key_id"
  | secret => "secret_access_key"
  | token => "session_token"
  | addressing => "addressing_style"
  | blockBytes => "block_cache_bytes"
  | headSeconds => "head_ttl_secs"
  | listSeconds => "list_ttl_secs"
  | sweepSeconds => "sweep_interval_secs"
  | timeoutSeconds => "request_timeout_secs"
  | maxRetries => "max_retries"

def ofName? (s : String) : Option Member := all.find? (·.name == s)

def set? (s : Settings) (x : Json) : Member → Option Settings
  | endpoint => (text? x).map fun v => { s with endpoint := v }
  | region => (text? x).map fun v => { s with region := v }
  | keyId => (text? x).map fun v => { s with keyId := v }
  | secret => (text? x).map fun v => { s with secret := v }
  | token => (orNull text? x).map fun v => { s with token := v }
  | addressing => (addressing? x).map fun v => { s with addressing := v }
  | blockBytes => (word? x).map fun v => { s with blockBytes := v }
  | headSeconds => (word? x).map fun v => { s with headSeconds := v }
  | listSeconds => (word? x).map fun v => { s with listSeconds := v }
  | sweepSeconds => (orNull word? x).map fun v => { s with sweepSeconds := v }
  | timeoutSeconds => (word? x).map fun v => { s with timeoutSeconds := v }
  | maxRetries => (retries? x).map fun v => { s with maxRetries := v }

end Member

def setAll? (s : Settings) : List (Member × Json) → Option Settings
  | [] => some s
  | (m, x) :: rest => (m.set? s x).bind fun t => setAll? t rest

def knownMembers (members : List (String × Json)) : List (Member × Json) :=
  members.filterMap fun m => (Member.ofName? m.1).map (·, m.2)

def ofMembers? (members : List (String × Json)) : Option Settings :=
  let known := knownMembers members
  if (known.map (·.1)).Nodup then setAll? default known else none

def ofItems? (items : List Json) : Option Settings :=
  if items.length ≤ Member.all.length then setAll? default (Member.all.zip items) else none

def ofValue? : Json → Option Settings
  | .object members =>
      (members.mapM fun (m : Option String × Json) => m.1.map (·, m.2)).bind ofMembers?
  | .array items => ofItems? items
  | _ => none

def ofJson (document : String) : Except SettingsError Settings :=
  match (Json.parse? document).bind ofValue? with
  | some s => .ok s
  | none => .error .malformed

def ofFile (file : String) (content : Option ByteArray) : Except SettingsError Settings :=
  match content.bind String.fromUTF8? with
  | some document => ofJson document
  | none => .error (.unreadable file)

abbrev Environment := String → Option String

def Environment.value? (env : Environment) (name : String) : Option String :=
  (env name).filter (!·.isEmpty)

def Environment.word? (env : Environment) (name : String) :
    Except SettingsError (Option UInt64) :=
  match env.value? name with
  | none => .ok none
  | some raw =>
      match Text.Numeral.word? raw with
      | some n => .ok (some n)
      | none => .error (.notANumber name raw)

def overriddenBy (s : Settings) (env : Environment) : Except SettingsError Settings := do
  let blockBytes ← env.word? "BUCKETCACHE_BLOCK_CACHE_BYTES"
  let headSeconds ← env.word? "BUCKETCACHE_HEAD_TTL_SECS"
  let listSeconds ← env.word? "BUCKETCACHE_LIST_TTL_SECS"
  return { s with
    endpoint := (env.value? "BUCKETCACHE_ENDPOINT").getD s.endpoint
    region := (env.value? "AWS_REGION").getD s.region
    keyId := (env.value? "AWS_ACCESS_KEY_ID").getD s.keyId
    secret := (env.value? "AWS_SECRET_ACCESS_KEY").getD s.secret
    token := (env.value? "AWS_SESSION_TOKEN").or s.token
    blockBytes := blockBytes.getD s.blockBytes
    headSeconds := headSeconds.getD s.headSeconds
    listSeconds := listSeconds.getD s.listSeconds }

def ofEnvironment (env : Environment) : Except SettingsError Settings := default.overriddenBy env

end Settings

end ObjectCache
