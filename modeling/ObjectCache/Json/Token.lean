import ObjectCache.Text.Numeral

namespace ObjectCache.Json

open Text

inductive Token where
  | openArray
  | closeArray
  | openObject
  | closeObject
  | comma
  | colon
  | null
  | bool (value : Bool)
  | number (literal : List Char)
  | string (text : Option String)
deriving DecidableEq, Repr

namespace Token

def isSpace (c : Char) : Bool := c == ' ' || c == '\n' || c == '\t' || c == '\r'

inductive Piece where
  | char (c : Char)
  | unit (n : Nat)

def simpleEscape? (c : Char) : Option Char :=
  if c = '"' ∨ c = '\\' ∨ c = '/' then some c
  else if c = 'b' then some '\x08'
  else if c = 'f' then some '\x0c'
  else if c = 'n' then some '\n'
  else if c = 'r' then some '\r'
  else if c = 't' then some '\t'
  else none

def stringPieces? : List Char → Option (List Piece × List Char)
  | [] => none
  | '"' :: rest => some ([], rest)
  | '\\' :: 'u' :: a :: b :: c :: d :: rest => do
      let n ← Numeral.valueFrom? 16 0 [a, b, c, d]
      let (pieces, rest) ← stringPieces? rest
      return (.unit n :: pieces, rest)
  | '\\' :: e :: rest => do
      let c ← simpleEscape? e
      let (pieces, rest) ← stringPieces? rest
      return (.char c :: pieces, rest)
  | c :: rest =>
      if c.toNat < 32 then none
      else do
        let (pieces, rest) ← stringPieces? rest
        return (.char c :: pieces, rest)

def isHighHalf (n : Nat) : Bool := 0xD800 ≤ n && n < 0xDC00

def isLowHalf (n : Nat) : Bool := 0xDC00 ≤ n && n < 0xE000

def chars? : List Piece → Option (List Char)
  | [] => some []
  | .char c :: rest => (chars? rest).map (c :: ·)
  | .unit n :: .unit m :: rest =>
      if isHighHalf n then
        if isLowHalf m then
          (chars? rest).map (Char.ofNat (0x10000 + 1024 * (n - 0xD800) + (m - 0xDC00)) :: ·)
        else none
      else if isLowHalf n then none
      else (chars? (.unit m :: rest)).map (Char.ofNat n :: ·)
  | .unit n :: rest =>
      if isHighHalf n || isLowHalf n then none else (chars? rest).map (Char.ofNat n :: ·)

def takeDigits? (cs : List Char) : Option (List Char × List Char) :=
  let digits := cs.takeWhile Numeral.isDigit
  if digits.isEmpty then none else some (digits, cs.drop digits.length)

def whole? : List Char → Option (List Char × List Char)
  | '0' :: rest => some (['0'], rest)
  | cs => takeDigits? cs

def fraction? : List Char → Option (List Char × List Char)
  | '.' :: rest => (takeDigits? rest).map fun (ds, rest) => ('.' :: ds, rest)
  | cs => some ([], cs)

def exponent? : List Char → Option (List Char × List Char)
  | [] => some ([], [])
  | c :: rest =>
      if c = 'e' ∨ c = 'E' then
        match rest with
        | '+' :: rest => (takeDigits? rest).map fun (ds, rest) => (c :: '+' :: ds, rest)
        | '-' :: rest => (takeDigits? rest).map fun (ds, rest) => (c :: '-' :: ds, rest)
        | rest => (takeDigits? rest).map fun (ds, rest) => (c :: ds, rest)
      else some ([], c :: rest)

def number? (cs : List Char) : Option (List Char × List Char) := do
  let (sign, cs) := match cs with
    | '-' :: rest => (['-'], rest)
    | cs => ([], cs)
  let (whole, cs) ← whole? cs
  let (fraction, cs) ← fraction? cs
  let (exponent, cs) ← exponent? cs
  return (sign ++ whole ++ fraction ++ exponent, cs)

def next? : List Char → Option (Token × List Char)
  | '[' :: rest => some (.openArray, rest)
  | ']' :: rest => some (.closeArray, rest)
  | '\x7b' :: rest => some (.openObject, rest)
  | '\x7d' :: rest => some (.closeObject, rest)
  | ',' :: rest => some (.comma, rest)
  | ':' :: rest => some (.colon, rest)
  | 'n' :: 'u' :: 'l' :: 'l' :: rest => some (.null, rest)
  | 't' :: 'r' :: 'u' :: 'e' :: rest => some (.bool true, rest)
  | 'f' :: 'a' :: 'l' :: 's' :: 'e' :: rest => some (.bool false, rest)
  | '"' :: rest => (stringPieces? rest).map fun (ps, rest) =>
      (.string ((chars? ps).map String.ofList), rest)
  | cs => (number? cs).map fun (ds, rest) => (.number ds, rest)

def scanUpTo? : Nat → List Char → Option (List Token)
  | _, [] => some []
  | 0, _ => none
  | fuel + 1, c :: cs =>
      if isSpace c then scanUpTo? fuel cs
      else do
        let (token, rest) ← next? (c :: cs)
        let tokens ← scanUpTo? fuel rest
        return token :: tokens

def scan? (s : String) : Option (List Token) := scanUpTo? s.length s.toList

end Token

end ObjectCache.Json
