import ObjectCache.Url.Ipv4

namespace ObjectCache.Url

structure Ipv6 where
  groups : List UInt16
  length_eq : groups.length = 8
deriving DecidableEq

namespace Ipv6

def ofGroups? (groups : List UInt16) : Option Ipv6 :=
  if h : groups.length = 8 then some ⟨groups, h⟩ else none

def group? (cs : List Char) : Option UInt16 :=
  if cs.isEmpty || cs.length > 4 then none else (Text.Numeral.valueFrom? 16 0 cs).map UInt16.ofNat

def octet? : List Char → Option Nat
  | '0' :: _ :: _ => none
  | cs => (Text.Numeral.natural? cs).bind fun n => if n < 256 then some n else none

def dotted? (cs : List Char) : Option (List UInt16) :=
  match (Ipv4.parts cs).mapM octet? with
  | some [a, b, c, d] => some [UInt16.ofNat (256 * a + b), UInt16.ofNat (256 * c + d)]
  | _ => none

def groupsOf? : List (List Char) → Option (List UInt16)
  | [] => some []
  | [last] => if last.contains '.' then dotted? last else (group? last).map ([·])
  | p :: q :: ps => do
      let g ← group? p
      let gs ← groupsOf? (q :: ps)
      return g :: gs

def colonPieces (cs : List Char) : List (List Char) :=
  if cs.isEmpty then [] else Text.pieces (· == ':') cs

def splitGap (before : List Char) : List Char → Option (List Char × List Char)
  | [] => none
  | ':' :: ':' :: rest => some (before.reverse, rest)
  | c :: rest => splitGap (c :: before) rest

def parse? (cs : List Char) : Option Ipv6 :=
  match splitGap [] cs with
  | none => (groupsOf? (Text.pieces (· == ':') cs)).bind ofGroups?
  | some (left, right) =>
      if left.contains '.' then none
      else do
        let front ← groupsOf? (colonPieces left)
        let back ← groupsOf? (colonPieces right)
        if front.length + back.length < 8 then
          ofGroups? (front ++ List.replicate (8 - front.length - back.length) 0 ++ back)
        else none

def longestZeros (groups : List UInt16) : Nat × Nat :=
  let runs := (List.range groups.length).map fun i =>
    (i, ((groups.drop i).takeWhile (· == 0)).length)
  runs.foldl (fun best r => if best.2 < r.2 then r else best) (0, 0)

def groupText (g : UInt16) : List Char := Nat.toDigits 16 g.toNat

def groupsText (groups : List UInt16) : List Char := Text.joined ':' (groups.map groupText)

def text (a : Ipv6) : List Char :=
  let (start, length) := longestZeros a.groups
  if length < 2 then groupsText a.groups
  else groupsText (a.groups.take start) ++ ':' :: ':' :: groupsText (a.groups.drop (start + length))

end Ipv6

end ObjectCache.Url
