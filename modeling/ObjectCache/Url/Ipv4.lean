import ObjectCache.Text.Numeral
import ObjectCache.Text.Pieces

namespace ObjectCache.Url

abbrev Ipv4 := UInt32

namespace Ipv4

def number? : List Char → Option Nat
  | '0' :: 'x' :: cs => Text.Numeral.valueFrom? 16 0 cs
  | '0' :: 'X' :: cs => Text.Numeral.valueFrom? 16 0 cs
  | '0' :: c :: cs => Text.Numeral.valueFrom? 8 0 (c :: cs)
  | cs => Text.Numeral.natural? cs

def parts (host : List Char) : List (List Char) := Text.pieces (· == '.') host

def labels (host : List Char) : List (List Char) :=
  let ps := parts host
  if ps.getLast? = some [] then ps.dropLast else ps

def endsInNumber (host : List Char) : Bool :=
  match (labels host).getLast? with
  | some label => (!label.isEmpty && label.all Text.Numeral.isDigit) || (number? label).isSome
  | none => false

def assemble? (numbers : List Nat) : Option Ipv4 :=
  match numbers.getLast? with
  | some last =>
      let firsts := numbers.dropLast
      let left := Nat.pow 256 (4 - firsts.length)
      if numbers.length ≤ 4 ∧ firsts.all (· < 256) ∧ last < left then
        some (UInt32.ofNat (firsts.foldl (fun acc n => 256 * acc + n) 0 * left + last))
      else none
  | none => none

def parse? (host : List Char) : Option Ipv4 :=
  ((labels host).mapM number?).bind assemble?

def octets (a : Ipv4) : List Nat :=
  [a.toNat / 16777216, a.toNat / 65536 % 256, a.toNat / 256 % 256, a.toNat % 256]

def text (a : Ipv4) : List Char :=
  Text.joined '.' ((octets a).map (Nat.toDigits 10))

end Ipv4

end ObjectCache.Url
