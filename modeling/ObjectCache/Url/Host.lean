import ObjectCache.Text.Percent
import ObjectCache.Text.Token
import ObjectCache.Url.Escape
import ObjectCache.Url.Ipv6

namespace ObjectCache.Url

inductive Host where
  | name (text : String)
  | ipv4 (address : Ipv4)
  | ipv6 (address : Ipv6)
deriving DecidableEq

namespace Host

def chars : Host → List Char
  | .name t => t.toList
  | .ipv4 a => a.text
  | .ipv6 a => '[' :: a.text ++ [']']

def text (h : Host) : String := String.ofList h.chars

def empty : Host := .name ""

def bracketed? : List Char → Option (List Char)
  | '[' :: cs => if cs.getLast? = some ']' then some cs.dropLast else none
  | _ => none

def isNameChar (c : Char) : Bool :=
  33 ≤ c.toNat && c.toNat ≤ 126 && !"%#/:<>?@[\\]^|".toList.contains c

/-- Names are ASCII. Others, which IDNA would map to ASCII, are refused, and labels that begin with
`xn--` are taken as they are. -/
def ofName? (cs : List Char) : Option Host :=
  if cs.isEmpty || !cs.all isNameChar then none
  else
    let name := cs.map Text.lowerChar
    if Ipv4.endsInNumber name then (Ipv4.parse? name).map .ipv4
    else some (.name (String.ofList name))

def parseSpecial? (cs : List Char) : Option Host :=
  if cs.head? = some '[' then ((bracketed? cs).bind Ipv6.parse?).map .ipv6
  else (Text.Percent.decodeText? (String.ofList cs)).bind (ofName? ·.toList)

def isFreeChar (c : Char) : Bool := !"\x00\t\n\r #/:<>?@[\\]^|".toList.contains c

def parseFree? (cs : List Char) : Option Host :=
  if cs.head? = some '[' then ((bracketed? cs).bind Ipv6.parse?).map .ipv6
  else if cs.all isFreeChar then
    some (.name (String.ofList (Text.Percent.encode opaquePathKeeps cs)))
  else none

end Host

end ObjectCache.Url
