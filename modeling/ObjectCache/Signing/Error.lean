namespace ObjectCache

inductive SigningError where
  | missingHost
  | missingCredentials
  | invalidEndpoint (text : String)
deriving DecidableEq, Repr

def SigningError.message : SigningError → String
  | .missingHost => "request has no resolvable host"
  | .missingCredentials => "access key and secret key are required"
  | .invalidEndpoint text => "invalid endpoint '" ++ text ++ "'"

end ObjectCache
