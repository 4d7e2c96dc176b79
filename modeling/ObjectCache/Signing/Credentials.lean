import ObjectCache.Text.Quoted

namespace ObjectCache

structure Credentials where
  id : String
  secret : String
  token : Option String
deriving DecidableEq

namespace Credentials

def isComplete (c : Credentials) : Bool := !c.id.isEmpty && !c.secret.isEmpty

def redacted : String := Text.quoted "<redacted>"

def description (c : Credentials) : String :=
  let token := match c.token with
    | some _ => "Some(" ++ redacted ++ ")"
    | none => "None"
  "Credentials \x7b access_key_id: " ++ Text.quoted c.id ++ ", secret_access_key: " ++ redacted ++
    ", session_token: " ++ token ++ " \x7d"

end Credentials

end ObjectCache
