namespace ObjectCache

inductive LogError where
  | alreadySetUp
deriving DecidableEq, Repr

namespace LogError

def message : LogError → String
  | alreadySetUp =>
      "Failed to install tracing subscriber: a global default trace dispatcher has already been set"

end LogError

def setUpLog (hasLog : Bool) : Except LogError Unit :=
  if hasLog then .error .alreadySetUp else .ok ()

end ObjectCache
