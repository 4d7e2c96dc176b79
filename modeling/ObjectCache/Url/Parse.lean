import ObjectCache.Text.Numeral
import ObjectCache.Url.Basic
import ObjectCache.Url.Path

namespace ObjectCache.Url

open Text

inductive SchemeKind where
  | file
  | network (port : Option UInt16)
  | other
deriving DecidableEq

def schemeKind (scheme : String) : SchemeKind :=
  if scheme = "http" ∨ scheme = "ws" then .network (some 80)
  else if scheme = "https" ∨ scheme = "wss" then .network (some 443)
  else if scheme = "ftp" then .network (some 21)
  else if scheme = "file" then .file
  else .other

def trimmed (cs : List Char) : List Char :=
  let isOuter := fun (c : Char) => c.toNat ≤ 32
  ((cs.dropWhile isOuter).reverse.dropWhile isOuter).reverse

def isSchemeChar (c : Char) : Bool :=
  isLetter c || Numeral.isDigit c || c == '+' || c == '-' || c == '.'

def cutAt (cut : Char → Bool) (cs : List Char) : List Char × Option (List Char) :=
  match cs.dropWhile (!cut ·) with
  | [] => (cs, none)
  | _ :: after => (cs.takeWhile (!cut ·), some after)

def scheme? (cs : List Char) : Option (String × List Char) :=
  match cutAt (· == ':') cs with
  | (c :: name, some rest) =>
      if isLetter c && name.all isSchemeChar then
        some (String.ofList ((c :: name).map lowerChar), rest)
      else none
  | _ => none

def userAndPassword (cs : List Char) : String × String :=
  let (user, password) := cutAt (· == ':') cs
  (String.ofList (Percent.encode userKeeps user),
    String.ofList (Percent.encode userKeeps (password.getD [])))

def cutUser (cs : List Char) : Option (List Char) × List Char :=
  match cutAt (· == '@') cs.reverse with
  | (host, some user) => (some user.reverse, host.reverse)
  | (_, none) => (none, cs)

def cutHost (inside : Bool) : List Char → List Char × Option (List Char)
  | [] => ([], none)
  | c :: cs =>
      if c == ':' && !inside then ([], some cs)
      else
        let (host, port) := cutHost (if c == '[' then true else if c == ']' then false else inside) cs
        (c :: host, port)

def port? (cs : List Char) : Option (Option UInt16 × List Char) :=
  let digits := cs.takeWhile Numeral.isDigit
  let rest := cs.drop digits.length
  if digits.isEmpty then some (none, rest)
  else
    match Numeral.natural? digits with
    | some n => if n < 65536 then some (some (UInt16.ofNat n), rest) else none
    | none => none

def authority? (kind : SchemeKind) (cs : List Char) (more : Bool) :
    Option (Authority × List Char) := do
  let (userText, place) := cutUser cs
  if userText = some [] ∧ place = [] ∧ more then none
  else
    let (user, password) := userAndPassword (userText.getD [])
    let (hostText, portText) := cutHost false place
    let host ← match kind with
      | .other => Host.parseFree? hostText
      | _ => if hostText.isEmpty then none else Host.parseSpecial? hostText
    let (port, rest) ← match portText with
      | some p => port? p
      | none => some (none, [])
    let ownPort := match kind with
      | .network p => p
      | _ => none
    if host = Host.empty ∧ (portText.isSome ∨ user ≠ "" ∨ password ≠ "") then none
    else if rest ≠ [] ∧ rest.head? ≠ some '\\' then none
    else some (⟨user, password, host, if port = ownPort then none else port⟩, rest)

structure Place where
  authority : Option Authority
  path : List Char

def networkPlace? (kind : SchemeKind) (cs : List Char) (more : Bool) : Option Place := do
  let cs := cs.dropWhile (Path.isSeparator true)
  let before := cs.takeWhile (!Path.isSeparator true ·)
  let after := cs.drop before.length
  let (authority, _) ← authority? kind before (more || !after.isEmpty)
  some ⟨some authority, Path.chars (Path.segments true (Path.afterSeparator true after))⟩

def filePlace (host : Host) (cs : List Char) : Place :=
  let (segments, hasDrive) := Path.fileSegments cs
  ⟨some ⟨"", "", if hasDrive then Host.empty else host, none⟩, Path.chars segments⟩

def dropSeparator? (cs : List Char) : Option (List Char) :=
  match cs.dropWhile Path.isBreak with
  | c :: rest => if Path.isSeparator true c then some rest else none
  | [] => none

def hostedFile? (cs : List Char) : Option Place :=
  let before := cs.takeWhile (!Path.isSeparator true ·)
  let after := cs.drop before.length
  let hostText := Path.withoutBreaks before
  if hostText.isEmpty || Path.isDrive hostText then some (filePlace Host.empty cs)
  else
    (Host.parseSpecial? hostText).map fun host =>
      if host = .name "localhost" then filePlace Host.empty after
      else filePlace host ((dropSeparator? after).getD after)

def filePlace? (cs : List Char) : Option Place :=
  match dropSeparator? cs with
  | none => some (filePlace Host.empty cs)
  | some one =>
      match dropSeparator? one with
      | none => some (filePlace Host.empty one)
      | some two => hostedFile? two

def otherPlace? (cs : List Char) (more : Bool) : Option Place :=
  match cs with
  | '/' :: '/' :: rest => do
      let before := rest.takeWhile (· != '/')
      let after := rest.drop before.length
      let (authority, left) ← authority? .other before (more || !after.isEmpty)
      let path := left ++ after
      if path.isEmpty then some ⟨some authority, []⟩
      else some ⟨some authority, Path.chars (Path.segments false (Path.afterSeparator false path))⟩
  | '/' :: rest => some ⟨none, Path.chars (Path.segments false rest)⟩
  | rest => some ⟨none, Percent.encode opaquePathKeeps rest⟩

def placeText (cs : List Char) : List Char :=
  ((cutAt (· == ':') cs).2.getD []).takeWhile fun c => c != '?' && c != '#'

def parse? (s : String) : Option Url := do
  let cs := trimmed s.toList
  let (scheme, rest) ← scheme? (Path.withoutBreaks cs)
  let kind := schemeKind scheme
  let (rest, fragment) := cutAt (· == '#') rest
  let (place, query) := cutAt (· == '?') rest
  let more := query.isSome || fragment.isSome
  let place ← match kind with
    | .network _ => networkPlace? kind place more
    | .file => filePlace? (placeText cs)
    | .other => otherPlace? place more
  some {
    scheme
    authority := place.authority
    path := String.ofList place.path
    query := query.map fun q => String.ofList (Percent.encode (queryKeeps (kind != .other)) q)
    fragment := fragment.map fun f => String.ofList (Percent.encode fragmentKeeps f) }

def withQuery (u : Url) (query : String) : Url :=
  let keeps := queryKeeps (schemeKind u.scheme != .other)
  let chars := Percent.encode keeps (Path.withoutBreaks query.toList)
  { u with query := some (String.ofList chars) }

end ObjectCache.Url
