namespace ObjectCache.Text.Percent

def digitChar (n : UInt8) : Char :=
  Char.ofNat (if n < 10 then 48 + n.toNat else 55 + n.toNat)

def digitValue? (b : UInt8) : Option UInt8 :=
  if 48 ≤ b ∧ b ≤ 57 then some (b - 48)
  else if 65 ≤ b ∧ b ≤ 70 then some (b - 55)
  else if 97 ≤ b ∧ b ≤ 102 then some (b - 87)
  else none

def escape (b : UInt8) : List Char := ['%', digitChar (b / 16), digitChar (b % 16)]

def encodeChar (keep : Char → Bool) (c : Char) : List Char :=
  if keep c then [c] else (String.utf8EncodeChar c).flatMap escape

def encode (keep : Char → Bool) (cs : List Char) : List Char :=
  cs.flatMap (encodeChar keep)

def escaped? (a h l : UInt8) : Option UInt8 :=
  if a = 37 then
    match digitValue? h, digitValue? l with
    | some x, some y => some (16 * x + y)
    | _, _ => none
  else none

def decode : List UInt8 → List UInt8
  | [] => []
  | [a] => [a]
  | [a, b] => [a, b]
  | a :: h :: l :: tail =>
      match escaped? a h l with
      | some x => x :: decode tail
      | none => a :: decode (h :: l :: tail)

def decodedBytes (s : String) : List UInt8 := decode s.toUTF8.data.toList

def decodeText? (s : String) : Option String :=
  String.fromUTF8? ⟨(decodedBytes s).toArray⟩

end ObjectCache.Text.Percent
