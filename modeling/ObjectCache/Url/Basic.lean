import ObjectCache.Url.Host

namespace ObjectCache

namespace Url

structure Authority where
  user : String
  password : String
  host : Host
  port : Option UInt16
deriving DecidableEq

end Url

structure Url where
  scheme : String
  authority : Option Url.Authority
  path : String
  query : Option String
  fragment : Option String
deriving DecidableEq

namespace Url

def portText : Option UInt16 → String
  | none => ""
  | some p => ":" ++ toString p.toNat

def Authority.hostAndPort (a : Authority) : String := a.host.text ++ portText a.port

def Authority.credentials (a : Authority) : String :=
  let password := if a.password.isEmpty then "" else ":" ++ a.password
  if a.user.isEmpty && a.password.isEmpty then "" else a.user ++ password ++ "@"

def marked (mark : String) : Option String → String
  | none => ""
  | some t => mark ++ t

def text (u : Url) : String :=
  let start := match u.authority with
    | some a => "//" ++ a.credentials ++ a.hostAndPort
    | none => if "//".toList.isPrefixOf u.path.toList then "/." else ""
  u.scheme ++ ":" ++ start ++ u.path ++ marked "?" u.query ++ marked "#" u.fragment

def hostAndPort? (u : Url) : Option String :=
  u.authority.bind fun a => if a.host = Host.empty then none else some a.hostAndPort

end Url

end ObjectCache
