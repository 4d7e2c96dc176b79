import ObjectCache.Client.Run
import ObjectCache.Settings
import ObjectCache.Store.Pages

namespace ObjectCache

inductive SessionError where
  | noRuntime
deriving DecidableEq, Repr

def SessionError.message : SessionError → String
  | .noRuntime => "Metadata sweeper requires a tokio runtime"

namespace Settings

def endpointOrRegional (s : Settings) : String :=
  if s.endpoint.isEmpty then "https://s3." ++ s.region ++ ".amazonaws.com" else s.endpoint

def signer (s : Settings) : Signer :=
  (Signer.new s.credentials s.region).withEndpoint s.endpointOrRegional s.addressing

def client (s : Settings) : Client :=
  .new s.signer (.withBudget s.blockBytes)
    (.withTtls (s.headSeconds.toNat * 1000) (s.listSeconds.toNat * 1000))

def openSession (s : Settings) (hasRuntime : Bool) : Except SessionError Client :=
  if s.sweepInterval.isSome && !hasRuntime then .error .noRuntime else .ok s.client

def store (s : Settings) (signer : Signer) : RemoteStore := ⟨signer, s.maxRetries⟩

end Settings

def RemoteStore.serve (s : RemoteStore) (clock : Time.Clock) : Client.Server Http.Wire :=
  fun call w c =>
    let o := s.answer clock call w
    ⟨o.result, o.state, c, o.events⟩

end ObjectCache
